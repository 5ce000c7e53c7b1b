/-
# SlateOS.Mm.Swap.Invariant -- who holds the tokens of a slot

Every entry that names a slot is one of its four tokens, and so is every entry that a thread has yet to put in place
or has taken out and not given back; the count of a slot is the number of its tokens. A swap entry keeps the flags of
its part, its slot keeps the bytes, and a frame is swapped out as a whole.
-/
import SlateOS.Foundation.Tokens
import SlateOS.Mm.Swap.System

namespace SlateOS.Mm.Swap

open Foundation.Tokens
open Function (update update_self update_of_ne)

variable {n : Nat} {areas : Areas} {s s' : State n} {thread : Fin n} {page : Page} {slot : Nat}

/-! ## The promise -/

/-- The thread is between its update of the slot's entries and its update of the slot's count. -/
def Op.Moves (slot : Nat) : Op → Prop
  | .storing _ _ slot' => slot' = slot
  | .releasing slot' _ => slot' = slot
  | _ => False

/-- The entry names the slot. -/
def State.Names (s : State n) (slot : Nat) (q : Page × Fin 4) : Prop := fromPteRaw (s.raw q.1 q.2) = some slot

/-- Swapping is transparent. -/
structure Transparent (areas : Areas) (s : State n) : Prop where
  restored : ∀ page i, isPresent (s.raw page i) = true →
    s.bytes page i = s.last page i ∧ s.raw page i &&& keptMask = s.prot page i &&& keptMask
  counted : ∀ slot, (∀ thread, ∀ op ∈ s.ops thread, ¬op.Moves slot) →
    s.swap.partRefs slot = {q | s.Names slot q}.ncard
  named : ∀ slot q, s.Names slot q → s.swap.used slot = true
  free_iff : ∀ slot, areas.reserved slot = false → (s.swap.used slot = false ↔ s.swap.partRefs slot = 0)

/-! ## The invariant -/

/-- The tokens of a thread. -/
def Op.holds (slot : Nat) (i : Fin 4) : Op → Prop
  | .storing _ _ slot' => slot = slot'
  | .releasing slot' parts => slot = slot' ∧ i ∈ parts
  | _ => False

/-- A holder is an entry or a thread. -/
def State.holds (s : State n) : (Page × Fin 4) ⊕ Fin n → Nat → Fin 4 → Prop
  | .inl q, slot, i => i = q.2 ∧ s.Names slot q
  | .inr thread, slot, i => ∃ op, s.ops thread = some op ∧ op.holds slot i

structure Inv (areas : Areas) (s : State n) : Prop where
  ledger : Ledger s.holds s.swap.partRefs
  used_iff : ∀ slot, s.swap.used slot = true ↔ s.swap.partRefs slot ≠ 0 ∨ areas.reserved slot = true
  given : ∀ slot, s.swap.partRefs slot ≠ 0 →
    SwapState.InArea areas slot ∧ areas.reserved slot = false ∧ ∃ frame, s.swap.readSlot areas slot = some frame
  swapped : ∀ page i slot frame, fromPteRaw (s.raw page i) = some slot →
    PageFlags.contains (keptFlags (s.raw page i)) PageFlags.present = true → s.swap.readSlot areas slot = some frame →
      frame i = s.last page i ∧ keptFlags (s.raw page i) &&& keptMask = s.prot page i &&& keptMask
  restored : ∀ page i, isPresent (s.raw page i) = true →
    s.bytes page i = s.last page i ∧ s.raw page i &&& keptMask = s.prot page i &&& keptMask
  /-- A frame is swapped out as a whole. -/
  uniform : ∀ page i slot, fromPteRaw (s.raw page i) = some slot → ∀ j, isPresent (s.raw page j) = false ∧
    ∀ slot', fromPteRaw (s.raw page j) = some slot' → slot' = slot
  mapped : ∀ thread page parts slot, s.ops thread = some (.storing page parts slot) → ∃ i, isPresent (parts i) = true

namespace Inv

theorem start (h : Start areas s) : Inv areas s := by
  have hraw : ∀ page i, fromPteRaw (s.raw page i) = none := by
    intro page i
    rw [h.empty, fromPteRaw_zero]
  refine ⟨Ledger.start (fun g slot i => ?_) h.refs, fun slot => ?_, fun slot hrefs => absurd (h.refs slot) hrefs,
    fun page i slot frame hf => ?_, fun page i hp => ?_, fun page i slot hf => ?_, fun thread page parts slot hop => ?_⟩
  · cases g with
    | inl q =>
      rintro ⟨-, hq⟩
      rw [State.Names, hraw] at hq
      cases hq
    | inr thread =>
      rintro ⟨op, hop, -⟩
      rw [h.idle] at hop
      cases hop
  · rw [h.used, h.refs]
    simp
  · rw [hraw] at hf
    cases hf
  · rw [h.empty, isPresent_zero] at hp
    cases hp
  · rw [hraw] at hf
    cases hf
  · rw [h.idle] at hop
    cases hop

theorem names_refs (hi : Inv areas s) {q : Page × Fin 4} (hq : s.Names slot q) : s.swap.partRefs slot ≠ 0 := by
  have hholds : s.holds (.inl q) slot q.2 := ⟨rfl, hq⟩
  exact hi.ledger.count_pos hholds

/-- The invariant is enough. -/
theorem transparent (hi : Inv areas s) : Transparent areas s := by
  refine ⟨hi.restored, fun slot hquiet => ?_, fun slot q hq => ?_, fun slot hres => ?_⟩
  · refine hi.ledger.count_eq_places Sum.inl Prod.snd Sum.inl_injective fun g i => ?_
    cases g with
    | inl q =>
      constructor
      · rintro ⟨rfl, hq⟩
        exact ⟨q, rfl, hq, rfl⟩
      · rintro ⟨q', hg, hq, rfl⟩
        obtain rfl := Sum.inl.inj hg
        exact ⟨rfl, hq⟩
    | inr thread =>
      constructor
      · rintro ⟨op, hop, hholds⟩
        refine absurd ?_ (hquiet thread op hop)
        cases op with
        | storing => exact hholds.symm
        | releasing => exact hholds.1.symm
        | found | prepared => exact hholds.elim
      · rintro ⟨q, hg, -⟩
        cases hg
  · exact (hi.used_iff slot).mpr (.inl (hi.names_refs hq))
  · have hused := hi.used_iff slot
    rw [hres] at hused
    constructor
    · intro hfree
      by_contra hrefs
      rw [hused.mpr (.inl hrefs)] at hfree
      cases hfree
    · intro hrefs
      rw [Bool.eq_false_iff]
      intro ht
      obtain h | h := hused.mp ht
      · exact h hrefs
      · cases h

/-! ## What the sections do -/

/-- Only a swap-out that has begun stores a frame. -/
theorem mapped_update {o : Option Op} (hi : Inv areas s)
    (hstoring : ∀ page parts slot, o ≠ some (.storing page parts slot)) :
    ∀ t page parts slot, update s.ops thread o t = some (.storing page parts slot) →
      ∃ i, isPresent (parts i) = true := by
  intro t page parts slot hop
  by_cases ht : t = thread
  · subst ht
    rw [update_self] at hop
    exact absurd hop (hstoring page parts slot)
  · rw [update_of_ne ht] at hop
    exact hi.mapped t page parts slot hop

/-- A thread goes on and holds what it held. -/
theorem op {o : Option Op} (hi : Inv areas s)
    (ho : ∀ slot i, (∃ op, o = some op ∧ op.holds slot i) ↔ ∃ op, s.ops thread = some op ∧ op.holds slot i)
    (hstoring : ∀ page parts slot, o ≠ some (.storing page parts slot)) :
    Inv areas { s with ops := update s.ops thread o } := by
  refine ⟨hi.ledger.congr fun g slot i => ?_, hi.used_iff, hi.given, hi.swapped, hi.restored, hi.uniform,
    mapped_update hi hstoring⟩
  cases g with
  | inl q => exact Iff.rfl
  | inr t =>
    by_cases ht : t = thread
    · subst ht
      refine Iff.trans ?_ (ho slot i)
      simp only [State.holds, update_self]
    · simp only [State.holds, update_of_ne ht]

/-- The hints are nobody's. -/
theorem hints (hi : Inv areas s) (hint : Nat → Nat) : Inv areas { s with swap := { s.swap with hint } } :=
  ⟨hi.ledger, hi.used_iff, hi.given, hi.swapped, hi.restored, hi.uniform, hi.mapped⟩

/-- What becomes of a page that is not swapped out. -/
theorem remap {raw : Fin 4 → Raw} {bytes last : Frame} {prot : Fin 4 → Raw} (hi : Inv areas s)
    (hold : ∀ i, fromPteRaw (s.raw page i) = none) (hnew : ∀ i, fromPteRaw (raw i) = none)
    (hrest : ∀ i, isPresent (raw i) = true → bytes i = last i ∧ raw i &&& keptMask = prot i &&& keptMask) :
    Inv areas (s.remap page raw bytes last prot) := by
  have hnames : ∀ slot q, (s.remap page raw bytes last prot).Names slot q ↔ s.Names slot q := by
    intro slot q
    unfold State.Names State.remap
    dsimp only
    by_cases hq : q.1 = page
    · rw [hq, update_self, hold, hnew]
    · rw [update_of_ne hq]
  refine ⟨hi.ledger.congr fun g slot i => ?_, hi.used_iff, hi.given, fun p i slot frame hf => ?_, fun p i hp => ?_,
    fun p i slot hf j => ?_, hi.mapped⟩
  · cases g with
    | inl q => exact and_congr_right fun _ => hnames slot q
    | inr t => exact Iff.rfl
  · have hf' : fromPteRaw (s.raw p i) = some slot := (hnames slot (p, i)).mp hf
    have hp : p ≠ page := by
      rintro rfl
      rw [hold] at hf'
      cases hf'
    simp only [State.remap, update_of_ne hp]
    exact hi.swapped p i slot frame hf'
  · by_cases hpage : p = page
    · subst hpage
      simp only [State.remap, update_self] at hp ⊢
      exact hrest i hp
    · simp only [State.remap, update_of_ne hpage] at hp ⊢
      exact hi.restored p i hp
  · have hf' : fromPteRaw (s.raw p i) = some slot := (hnames slot (p, i)).mp hf
    have hp : p ≠ page := by
      rintro rfl
      rw [hold] at hf'
      cases hf'
    simp only [State.remap, update_of_ne hp]
    exact hi.uniform p i slot hf' j

/-- A thread takes entries that name one slot. -/
theorem take {parts : Finset (Fin 4)} {raw : Fin 4 → Raw} {bytes : Frame} (hi : Inv areas s)
    (hidle : ∀ slot i, ¬∃ op, s.ops thread = some op ∧ op.holds slot i)
    (hparts : ∀ i ∈ parts, fromPteRaw (s.raw page i) = some slot) (hnew : ∀ i, fromPteRaw (raw i) = none)
    (hrest : ∀ i ∈ parts, isPresent (raw i) = true →
      bytes i = s.last page i ∧ raw i &&& keptMask = s.prot page i &&& keptMask)
    (hall : (∀ i ∈ parts, isPresent (raw i) = false) ∨ ∀ i, fromPteRaw (s.raw page i) = some slot → i ∈ parts) :
    Inv areas (s.take thread page slot parts raw bytes) := by
  -- an entry that is still there was there before
  have hkept : ∀ p i slot', fromPteRaw ((s.take thread page slot parts raw bytes).raw p i) = some slot' →
      (s.take thread page slot parts raw bytes).raw p i = s.raw p i ∧ (p = page → i ∉ parts) := by
    intro p i slot' hf
    by_cases hp : p = page
    · subst hp
      simp only [State.take, update_self] at hf ⊢
      by_cases hin : i ∈ parts
      · rw [if_pos hin, hnew] at hf
        cases hf
      · rw [if_neg hin]
        exact ⟨rfl, fun _ => hin⟩
    · simp only [State.take, update_of_ne hp]
      exact ⟨trivial, fun h => absurd h hp⟩
  have hsame : ∀ p i, (p = page → i ∉ parts) → (s.take thread page slot parts raw bytes).raw p i = s.raw p i := by
    intro p i hout
    by_cases hp : p = page
    · subst hp
      simp only [State.take, update_self]
      rw [if_neg (hout rfl)]
    · simp only [State.take, update_of_ne hp]
  have hentry : ∀ i ∈ parts, s.holds (.inl (page, i)) slot i := fun i hin => ⟨rfl, hparts i hin⟩
  refine ⟨?_, hi.used_iff, hi.given, fun p i slot' frame hf => ?_, fun p i hp => ?_, fun p i slot' hf j => ?_,
    hi.mapped_update fun _ _ _ h => nomatch h⟩
  · refine hi.ledger.pass (S := (parts : Set (Fin 4))) (k := slot) (fun _ => .inr thread)
      (fun i hin => ⟨_, hentry i hin⟩) fun g k i => ?_
    cases g with
    | inl q =>
      constructor
      · rintro ⟨rfl, hq⟩
        obtain ⟨hraw, hout⟩ := hkept q.1 q.2 k hq
        have hq' : s.Names k q := by rwa [State.Names, hraw] at hq
        refine .inr ⟨?_, rfl, hq'⟩
        rintro ⟨rfl, hin⟩
        have := hi.ledger.unique _ (.inl q) _ _ (hentry q.2 hin) ⟨rfl, hq'⟩
        exact hout (congrArg Prod.fst (Sum.inl.inj this)).symm hin
      · rintro (⟨-, -, hg⟩ | ⟨hout, rfl, hq⟩)
        · cases hg
        · refine ⟨rfl, ?_⟩
          rw [State.Names, hsame q.1 q.2 ?_]
          · exact hq
          · intro hp hin
            have hslot := hparts q.2 hin
            rw [State.Names, hp] at hq
            rw [hq] at hslot
            exact hout ⟨Option.some.inj hslot, hin⟩
    | inr t =>
      by_cases ht : t = thread
      · subst ht
        simp only [State.holds, State.take, update_self]
        constructor
        · rintro ⟨op, hop, hholds⟩
          cases hop
          exact .inl ⟨hholds.1, hholds.2, trivial⟩
        · rintro (⟨hk, hin, -⟩ | ⟨-, hholds⟩)
          · exact ⟨_, rfl, hk, hin⟩
          · exact absurd hholds (hidle k i)
      · simp only [State.holds, State.take, update_of_ne ht]
        constructor
        · intro hholds
          refine .inr ⟨?_, hholds⟩
          rintro ⟨rfl, hin⟩
          have := hi.ledger.unique _ (.inr t) _ _ (hentry i hin) hholds
          cases this
        · rintro (⟨-, -, hg⟩ | ⟨-, hholds⟩)
          · exact absurd (Sum.inr.inj hg) ht
          · exact hholds
  · obtain ⟨hraw, -⟩ := hkept p i slot' hf
    rw [hraw] at hf ⊢
    exact hi.swapped p i slot' frame hf
  · by_cases hin : p = page ∧ i ∈ parts
    · obtain ⟨rfl, hin⟩ := hin
      simp only [State.take, update_self, if_pos hin] at hp ⊢
      exact hrest i hin hp
    · have hout : p = page → i ∉ parts := fun hpage hin' => hin ⟨hpage, hin'⟩
      have hbytes : (s.take thread page slot parts raw bytes).bytes p i = s.bytes p i := by
        by_cases hpage : p = page
        · subst hpage
          simp only [State.take, update_self]
          rw [if_neg (hout rfl)]
        · simp only [State.take, update_of_ne hpage]
      rw [hsame p i hout] at hp ⊢
      rw [hbytes]
      exact hi.restored p i hp
  · obtain ⟨hraw, hout⟩ := hkept p i slot' hf
    rw [hraw] at hf
    obtain ⟨hj, hj'⟩ := hi.uniform p i slot' hf j
    by_cases hin : p = page ∧ j ∈ parts
    · obtain ⟨rfl, hin⟩ := hin
      simp only [State.take, update_self, if_pos hin]
      refine ⟨?_, fun slot'' h => ?_⟩
      · obtain hgone | hall := hall
        · exact hgone j hin
        · obtain rfl := hj' slot (hparts j hin)
          exact absurd (hall i hf) (hout rfl)
      · rw [hnew] at h
        cases h
    · rw [hsame p j fun hpage hin' => hin ⟨hpage, hin'⟩]
      exact ⟨hj, hj'⟩

/-- A thread in the middle of nothing holds nothing. -/
theorem not_holds_of_idle (hnone : s.ops thread = none) (slot : Nat) (i : Fin 4) :
    ¬∃ op, s.ops thread = some op ∧ op.holds slot i := by
  rintro ⟨op, hop, -⟩
  rw [hnone] at hop
  cases hop

theorem refs_zero (hi : Inv areas s) (hfree : s.swap.used slot = false) : s.swap.partRefs slot = 0 := by
  by_contra hrefs
  rw [(hi.used_iff slot).mpr (.inl hrefs)] at hfree
  cases hfree

/-- A slot is given out whole, with what is kept there. -/
theorem issued {data : SlotData} {hint : Nat → Nat} {parts : Fin 4 → Raw} {frame : Frame} (hi : Inv areas s)
    (hnone : s.ops thread = none) (hfree : s.swap.used slot = false) (hread : data.read areas.codec = some frame)
    (hin : SwapState.InArea areas slot) (hmapped : ∃ i, isPresent (parts i) = true) :
    Inv areas { s with
      swap :=
        { used := update s.swap.used slot true
          hint
          partRefs := update s.swap.partRefs slot 4
          data := update s.swap.data slot (some data) }
      ops := update s.ops thread (some (.storing page parts slot)) } := by
  have hzero := hi.refs_zero hfree
  refine ⟨?_, fun k => ?_, fun k hk => ?_, fun p i k f hf => ?_, hi.restored, hi.uniform, fun t p ps k hop => ?_⟩
  · refine hi.ledger.issue (h := .inr thread) hzero (fun g k i => ?_) fun k => ?_
    · cases g with
      | inl q =>
        refine ⟨fun h => .inr h, ?_⟩
        rintro (⟨-, hg⟩ | h)
        · cases hg
        · exact h
      | inr t =>
        by_cases ht : t = thread
        · subst ht
          simp only [State.holds, update_self]
          constructor
          · rintro ⟨op, hop, hholds⟩
            cases hop
            exact .inl ⟨hholds, trivial⟩
          · rintro (⟨hk, -⟩ | hholds)
            · exact ⟨_, rfl, hk⟩
            · exact absurd hholds (not_holds_of_idle hnone k i)
        · simp only [State.holds, update_of_ne ht]
          refine ⟨fun h => .inr h, ?_⟩
          rintro (⟨-, hg⟩ | h)
          · exact absurd (Sum.inr.inj hg) ht
          · exact h
    · rw [Nat.card_eq_fintype_card, Fintype.card_fin]
      exact Function.update_apply _ _ _ _
  · by_cases hk : k = slot
    · subst hk
      simp
    · simp only [update_of_ne hk]
      exact hi.used_iff k
  · by_cases hslot : k = slot
    · subst hslot
      refine ⟨hin, ?_, frame, ?_⟩
      · rw [Bool.eq_false_iff]
        intro hres
        rw [(hi.used_iff k).mpr (.inr hres)] at hfree
        cases hfree
      · simp only [SwapState.readSlot, update_self, Option.bind_some]
        exact hread
    · simp only [update_of_ne hslot] at hk
      obtain ⟨hin', hres, frame', hread'⟩ := hi.given k hk
      refine ⟨hin', hres, frame', ?_⟩
      simp only [SwapState.readSlot, update_of_ne hslot]
      exact hread'
  · have hk : k ≠ slot := by
      rintro rfl
      exact hi.names_refs (q := (p, i)) hf hzero
    simp only [SwapState.readSlot, update_of_ne hk]
    exact hi.swapped p i k f hf
  · by_cases ht : t = thread
    · subst ht
      simp only [update_self] at hop
      cases hop
      exact hmapped
    · simp only [update_of_ne ht] at hop
      exact hi.mapped t p ps k hop

theorem storeFrame (hi : Inv areas s) (hnone : s.ops thread = none) (page : Page) (able : Nat → Bool) :
    Inv areas (s.storeFrame areas thread page able) := by
  unfold State.storeFrame
  cases hbase : frameBase (List.ofFn (s.raw page)) none with
  | none => exact hi
  | some base =>
    obtain ⟨part, hpart, hpresent⟩ := exists_present_of_frameBase hbase
    obtain ⟨i, rfl⟩ := (List.mem_ofFn' _ _).mp hpart
    obtain ⟨hint, h⟩ | ⟨slot, data, hint, hfree, hread, hin, h⟩ :=
      s.swap.storePage_cases areas (s.bytes page) able
    · rw [h]
      exact hi.hints hint
    · rw [h]
      exact hi.issued hnone hfree hread hin ⟨i, hpresent⟩

theorem slot_lt (hi : Inv areas s) (hrefs : s.swap.partRefs slot ≠ 0) : slot < maxSwapSlots := by
  obtain ⟨⟨d, hd, -, hlt⟩, -⟩ := hi.given slot hrefs
  exact Nat.lt_of_lt_of_le hlt (areas.bounded d hd)

/-- A swap-out exchanges the entries of a frame that still holds what was stored. -/
theorem exchangeEntries {parts : Fin 4 → Raw} (hi : Inv areas s) (hop : s.ops thread = some (.storing page parts slot))
    (locked : Bool)
    (hcurrent : (∀ i, s.raw page i = parts i) → ∀ frame, s.swap.readSlot areas slot = some frame →
      ∀ i, isPresent (parts i) = true → frame i = s.bytes page i) :
    Inv areas (s.exchangeEntries thread page parts slot locked) := by
  have hmine : ∀ i, s.holds (.inr thread) slot i := fun i => ⟨_, hop, rfl⟩
  unfold State.exchangeEntries
  split
  · rename_i hsame
    obtain ⟨-, hsame⟩ := hsame
    have hrefs : s.swap.partRefs slot ≠ 0 := hi.ledger.count_pos (hmine 0)
    have hlt := hi.slot_lt hrefs
    -- a frame with a present part has no swap entry
    obtain ⟨i₀, hi₀⟩ := hi.mapped thread page parts slot hop
    have hnone : ∀ i, fromPteRaw (s.raw page i) = none := by
      intro i
      cases hf : fromPteRaw (s.raw page i) with
      | none => rfl
      | some k =>
        have := (hi.uniform page i k hf i₀).1
        rw [hsame, hi₀] at this
        cases this
    have hfree : ∀ q, ¬s.Names slot q := by
      intro q hq
      cases hi.ledger.unique (.inl q) (.inr thread) slot q.2 ⟨rfl, hq⟩ (hmine q.2)
    refine ⟨?_, hi.used_iff, hi.given, fun p i k frame hf hkept hread => ?_, fun p i hp => ?_, fun p i k hf j => ?_,
      hi.mapped_update fun _ _ _ h => nomatch h⟩
    · refine hi.ledger.pass (S := Set.univ) (k := slot) (fun i => .inl (page, i))
        (fun i _ => ⟨_, hmine i⟩) fun g k i => ?_
      cases g with
      | inl q =>
        obtain ⟨p, j⟩ := q
        by_cases hp : p = page
        · subst hp
          simp only [State.holds, State.Names, update_self, fromPteRaw_keeping hlt, hnone]
          constructor
          · rintro ⟨rfl, hk⟩
            exact .inl ⟨(Option.some.inj hk).symm, Set.mem_univ _, rfl⟩
          · rintro (⟨rfl, -, hg⟩ | ⟨-, -, hk⟩)
            · exact ⟨(congrArg Prod.snd (Sum.inl.inj hg)).symm, rfl⟩
            · cases hk
        · simp only [State.holds, State.Names, update_of_ne hp]
          constructor
          · rintro ⟨rfl, hk⟩
            refine .inr ⟨?_, rfl, hk⟩
            rintro ⟨rfl, -⟩
            exact hfree (p, i) hk
          · rintro (⟨-, -, hg⟩ | ⟨-, h⟩)
            · exact absurd (congrArg Prod.fst (Sum.inl.inj hg)) hp
            · exact h
      | inr t =>
        by_cases ht : t = thread
        · subst ht
          simp only [State.holds, update_self]
          constructor
          · rintro ⟨op, h, -⟩
            cases h
          · rintro (⟨-, -, hg⟩ | ⟨hout, op, h, hholds⟩)
            · cases hg
            · rw [hop] at h
              cases h
              exact absurd ⟨hholds, Set.mem_univ _⟩ hout
        · simp only [State.holds, update_of_ne ht]
          constructor
          · intro hholds
            refine .inr ⟨?_, hholds⟩
            rintro ⟨rfl, -⟩
            exact ht (Sum.inr.inj (hi.ledger.unique (.inr t) (.inr thread) k i hholds (hmine i)))
          · rintro (⟨-, -, hg⟩ | ⟨-, h⟩)
            · cases hg
            · exact h
    · by_cases hp : p = page
      · subst hp
        simp only [update_self, fromPteRaw_keeping hlt, keptFlags_keeping hlt] at hf hkept ⊢
        cases hf
        rw [keptMask_present] at hkept
        cases hpres : isPresent (parts i) with
        | false =>
          rw [hpres, if_neg Bool.false_ne_true] at hkept
          exact absurd hkept (by decide)
        | true =>
          rw [if_pos rfl, if_pos rfl, BitVec.and_assoc, BitVec.and_self]
          rw [← (hi.restored p i (by rw [hsame, hpres])).1]
          exact ⟨hcurrent hsame frame hread i hpres, rfl⟩
      · simp only [update_of_ne hp] at hf hkept ⊢
        exact hi.swapped p i k frame hf hkept hread
    · by_cases hpage : p = page
      · subst hpage
        simp only [update_self] at hp
        rw [not_present_of_fromPteRaw (fromPteRaw_keeping hlt _)] at hp
        cases hp
      · simp only [update_of_ne hpage] at hp ⊢
        exact hi.restored p i hp
    · by_cases hp : p = page
      · subst hp
        simp only [update_self, fromPteRaw_keeping hlt] at hf ⊢
        cases hf
        exact ⟨not_present_of_fromPteRaw (fromPteRaw_keeping hlt _), fun k' hk' => (Option.some.inj hk').symm⟩
      · simp only [update_of_ne hp] at hf ⊢
        exact hi.uniform p i k hf j
  · refine hi.op (fun k i => ?_) fun _ _ _ h => nomatch h
    constructor
    · rintro ⟨op, h, hholds⟩
      cases h
      exact ⟨_, hop, hholds.1⟩
    · rintro ⟨op, h, hholds⟩
      rw [hop] at h
      cases h
      exact ⟨_, rfl, hholds, Finset.mem_univ i⟩

/-- A thread that held nothing goes on to something that holds nothing. -/
theorem idle_op {o : Option Op} (hi : Inv areas s)
    (hidle : ∀ slot i, ¬∃ op, s.ops thread = some op ∧ op.holds slot i) (ho : ∀ op ∈ o, ∀ slot i, ¬op.holds slot i)
    (hstoring : ∀ page parts slot, o ≠ some (.storing page parts slot)) :
    Inv areas { s with ops := update s.ops thread o } := by
  refine hi.op (fun slot i => iff_of_false ?_ (hidle slot i)) hstoring
  rintro ⟨op, hop, hholds⟩
  exact ho op hop slot i hholds

/-- A swap-in installs the data that its slot still holds. -/
theorem installFrame {frame : Frame} (hi : Inv areas s)
    (hop : s.ops thread = some (.prepared page slot frame)) (phys : Raw) (able : Bool)
    (hcurrent : ∀ frame', s.swap.readSlot areas slot = some frame' → ∀ i, fromPteRaw (s.raw page i) = some slot →
      PageFlags.contains (keptFlags (s.raw page i)) PageFlags.present = true → frame i = frame' i) :
    Inv areas (s.installFrame thread page slot frame phys able) := by
  have hidle : ∀ k i, ¬∃ op, s.ops thread = some op ∧ op.holds k i := by
    rintro k i ⟨op, h, hholds⟩
    rw [hop] at h
    cases h
    exact hholds
  have hgone : Inv areas { s with ops := update s.ops thread none } :=
    hi.idle_op hidle (fun op h => nomatch h) fun _ _ _ h => nomatch h
  have hheld : ∀ i ∈ s.held page slot, fromPteRaw (s.raw page i) = some slot :=
    fun i h => (Finset.mem_filter.mp h).2
  have hall : ∀ i, fromPteRaw (s.raw page i) = some slot → i ∈ s.held page slot :=
    fun i h => Finset.mem_filter.mpr ⟨Finset.mem_univ i, h⟩
  unfold State.installFrame
  dsimp only
  split
  · exact hgone
  · split
    · refine hi.take hidle hheld (fun i => fromPteRaw_zero) (fun i _ hp => ?_) (.inr hall)
      rw [isPresent_zero] at hp
      cases hp
    · split
      · refine hi.take hidle hheld (fun i => ?_) (fun i hin hp => ?_) (.inr hall)
        · split
          · rename_i hpres
            exact fromPteRaw_of_present ((isPresent_pteNew _ _).trans hpres)
          · exact fromPteRaw_zero
        · split at hp
          · rename_i hpres
            rw [if_pos hpres, if_pos hpres, pteNew_keptMask]
            obtain ⟨-, -, frame', hread⟩ := hi.given slot (hi.names_refs (q := (page, i)) (hheld i hin))
            obtain ⟨hdata, hprot⟩ := hi.swapped page i slot frame' (hheld i hin) hpres hread
            exact ⟨(hcurrent frame' hread i (hheld i hin) hpres).trans hdata, hprot⟩
          · rw [isPresent_zero] at hp
            cases hp
      · exact hgone

theorem not_swap_of_present {part : Fin 4} (hi : Inv areas s) (hpres : isPresent (s.raw page part) = true) (i : Fin 4) :
    fromPteRaw (s.raw page i) = none := by
  cases hf : fromPteRaw (s.raw page i) with
  | none => rfl
  | some slot =>
    rw [(hi.uniform page i slot hf part).1] at hpres
    cases hpres

/-- Unmaps of swap entries are counted later; what was mapped is just gone. -/
theorem unmapPart (hi : Inv areas s) (hnone : s.ops thread = none) (page : Page) (part : Fin 4) :
    Inv areas (s.unmapPart thread page part) := by
  unfold State.unmapPart
  split
  · rename_i slot hslot
    refine hi.take (not_holds_of_idle hnone) (fun i hin => ?_) (fun i => fromPteRaw_zero) (fun i _ hp => ?_)
      (.inl fun i _ => isPresent_zero)
    · rw [Finset.mem_singleton.mp hin]
      exact hslot
    · rw [isPresent_zero] at hp
      cases hp
  · split
    · rename_i hpres
      have hold := hi.not_swap_of_present hpres
      refine hi.remap hold (fun i => ?_) (fun i hp => ?_)
      · by_cases hpart : i = part
        · rw [hpart, update_self, fromPteRaw_zero]
        · rw [update_of_ne hpart]
          exact hold i
      · by_cases hpart : i = part
        · rw [hpart, update_self, isPresent_zero] at hp
          cases hp
        · rw [update_of_ne hpart] at hp ⊢
          exact hi.restored page i hp
    · exact hi

/-- A fresh mapping is no older than what it maps. -/
theorem mapFrame (hi : Inv areas s) (hswap : isSwapped (s.raw page) = false) (flags : Fin 4 → Raw) (phys : Raw)
    (frame : Frame) : Inv areas (s.mapFrame page flags phys frame) := by
  have hold : ∀ i, fromPteRaw (s.raw page i) = none := by
    intro i
    rw [isSwapped, List.any_eq_false] at hswap
    have := hswap (s.raw page i) ((List.mem_ofFn' _ _).mpr ⟨i, rfl⟩)
    rw [isSwap_eq_isSome, Bool.not_eq_true, Option.isSome_eq_false_iff, Option.isNone_iff_eq_none] at this
    exact this
  unfold State.mapFrame
  dsimp only
  split
  · exact hi
  · refine hi.remap hold (fun i => ?_) (fun i hp => ?_)
    · split
      · rename_i hmaps
        exact fromPteRaw_of_present ((isPresent_pteNew _ _).trans hmaps)
      · exact hold i
    · split at hp
      · rename_i hmaps
        simp only [if_pos hmaps, pteNew_keptMask, and_self]
      · rename_i hmaps
        simp only [if_neg hmaps]
        exact hi.restored page i hp

/-- The processor notes an access in an entry, and what is behind the entry may change with what was last stored. -/
theorem accessed {part : Fin 4} {bits : Raw} {bytes last : Frame} (hi : Inv areas s)
    (hpres : isPresent (s.raw page part) = true) (hbits : bits &&& keptMask = 0#64)
    (hbytes : ∀ i, s.bytes page i = s.last page i → bytes i = last i) :
    Inv areas (s.remap page (update (s.raw page) part (s.raw page part ||| bits)) bytes last (s.prot page)) := by
  have hold := hi.not_swap_of_present hpres
  refine hi.remap hold (fun i => ?_) (fun i hp => ?_)
  · by_cases hpart : i = part
    · rw [hpart, update_self]
      exact fromPteRaw_of_present (isPresent_noted bits hpres)
    · rw [update_of_ne hpart]
      exact hold i
  · by_cases hpart : i = part
    · subst hpart
      rw [update_self, noted_keptMask _ hbits]
      obtain ⟨hsame, hprot⟩ := hi.restored page i hpres
      exact ⟨hbytes i hsame, hprot⟩
    · rw [update_of_ne hpart] at hp ⊢
      obtain ⟨hsame, hprot⟩ := hi.restored page i hp
      exact ⟨hbytes i hsame, hprot⟩

/-- The entries that a thread took out are counted, and the last frees the slot. -/
theorem release {parts : Finset (Fin 4)} (hi : Inv areas s) (hop : s.ops thread = some (.releasing slot parts)) :
    Inv areas { s with
      swap := s.swap.releaseParts areas slot parts.card
      ops := update s.ops thread none } := by
  have hmine : ∀ i ∈ parts, s.holds (.inr thread) slot i := fun i hin => ⟨_, hop, rfl, hin⟩
  by_cases hrefs : s.swap.partRefs slot = 0
  · have hsame : s.swap.releaseParts areas slot parts.card = s.swap := if_pos hrefs
    rw [hsame]
    refine hi.idle_op ?_ (fun op h => nomatch h) fun _ _ _ h => nomatch h
    rintro k i ⟨op, h, hholds⟩
    rw [hop] at h
    cases h
    exact hi.ledger.count_pos (hmine i hholds.2) hrefs
  · obtain ⟨harea, hres, frame, hread⟩ := hi.given slot hrefs
    obtain ⟨hrefs', hused', hdata'⟩ := SwapState.releaseParts_cases harea hrefs parts.card
    have hused : s.swap.used slot = true := (hi.used_iff slot).mpr (.inl hrefs)
    generalize s.swap.releaseParts areas slot parts.card = st at hrefs' hused' hdata'
    have hledger : Ledger ({ s with swap := st, ops := update s.ops thread none } : State n).holds st.partRefs := by
      refine hi.ledger.retire (k := slot) (S := parts) (fun i h => ⟨_, hmine i h⟩) (fun g k i => ?_) fun k => ?_
      · cases g with
        | inl q =>
          refine ⟨fun h => ⟨?_, h⟩, fun h => h.2⟩
          rintro ⟨rfl, hin⟩
          cases hi.ledger.unique (.inl q) (.inr thread) k i h (hmine i hin)
        | inr t =>
          by_cases ht : t = thread
          · subst ht
            simp only [State.holds, update_self]
            constructor
            · rintro ⟨op, h, -⟩
              cases h
            · rintro ⟨hout, op, h, hholds⟩
              rw [hop] at h
              cases h
              exact absurd hholds hout
          · simp only [State.holds, update_of_ne ht]
            refine ⟨fun h => ⟨?_, h⟩, fun h => h.2⟩
            rintro ⟨rfl, hin⟩
            exact ht (Sum.inr.inj (hi.ledger.unique (.inr t) (.inr thread) k i h (hmine i hin)))
      · rw [hrefs']
        exact Function.update_apply _ _ _ _
    have hother : ∀ k, k ≠ slot → st.readSlot areas k = s.swap.readSlot areas k ∧ st.used k = s.swap.used k ∧
        st.partRefs k = s.swap.partRefs k := by
      intro k hk
      rw [SwapState.readSlot, SwapState.readSlot, hrefs', hused', hdata', update_of_ne hk]
      refine ⟨?_, ?_, rfl⟩ <;> split <;> first | rfl | rw [update_of_ne hk]
    have hleft : st.partRefs slot ≠ 0 → st.readSlot areas slot = s.swap.readSlot areas slot := by
      intro hne
      rw [hrefs', update_self] at hne
      rw [SwapState.readSlot, SwapState.readSlot, hdata', if_neg hne]
    refine ⟨hledger, fun k => ?_, fun k hk => ?_, fun p i k f hf hkept hread' => ?_, hi.restored, hi.uniform,
      hi.mapped_update fun _ _ _ h => nomatch h⟩
    · by_cases hk : k = slot
      · subst hk
        dsimp only
        rw [hused', hrefs', hres, update_self]
        by_cases hzero : s.swap.partRefs k - parts.card = 0
        · rw [if_pos hzero, update_self, hzero]
          simp
        · rw [if_neg hzero, hused]
          exact iff_of_true rfl (.inl hzero)
      · obtain ⟨-, hu, hr⟩ := hother k hk
        dsimp only
        rw [hu, hr]
        exact hi.used_iff k
    · by_cases hslot : k = slot
      · subst hslot
        exact ⟨harea, hres, frame, (hleft hk).trans hread⟩
      · obtain ⟨hd, -, hr⟩ := hother k hslot
        dsimp only at hk ⊢
        rw [hr] at hk
        rw [hd]
        exact hi.given k hk
    · have hentry : ({ s with swap := st, ops := update s.ops thread none } : State n).holds (.inl (p, i)) k i :=
        ⟨rfl, hf⟩
      have hpos : st.partRefs k ≠ 0 := hledger.count_pos hentry
      refine hi.swapped p i k f hf hkept ?_
      by_cases hslot : k = slot
      · subst hslot
        rw [← hleft hpos]
        exact hread'
      · rw [← (hother k hslot).1]
        exact hread'

end Inv

end SlateOS.Mm.Swap
