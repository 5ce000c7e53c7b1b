/-
# SlateOS.Mm.CowLaw -- reference counts and exclusive writers across copy-on-write breaks

The count of a frame is the number of groups with an entry into it, and the references held outside page
tables: `Law`. A copy that a break has made and not installed is held by that break alone. A private page
that some group may write is in no other group: `Exclusive`. Here is the invariant that carries both, and
its steps but for forks.
-/
import SlateOS.Mm.Cow

namespace SlateOS.Mm.Cow

open Kernel
open Function (update update_self update_of_ne)

namespace CowState

/-- The number of groups with an entry into the frame. -/
def pairs (m : CowState) (f : Nat) : Nat := (m.mapped.filter fun g => m.refers g f).card

/-- The frame is a copy some break has made and not installed. -/
def held (m : CowState) (f : Nat) : Prop := ∃ t, (m.place t).copy = some f

/-- **The reference law.** -/
structure Law (m : CowState) : Prop where
  counted : ∀ f, ¬m.held f → m.refcount f = m.pairs f + m.external f
  copies : ∀ f, m.held f → m.refcount f = 1 ∧ m.pairs f = 0 ∧ m.external f = 0

/-- No private page is writable in one group and present in another. -/
def Exclusive (m : CowState) : Prop :=
  ∀ g g' i p q, g ≠ g' → m.entry g i = some p → m.entry g' i = some q → p.frame = q.frame →
    p.isShared = false → p.writable = false

/-- A page is shared by design in all groups or in none. -/
def Designed (m : CowState) : Prop :=
  ∀ g g' i p q, m.entry g i = some p → m.entry g' i = some q → p.frame = q.frame →
    p.isShared = q.isShared

/-- What every step but an overflowing or failing fork keeps. -/
structure Inv (m : CowState) : Prop where
  law : m.Law
  exclusive : m.Exclusive
  designed : m.Designed
  unmapped : ∀ g, g ∉ m.mapped → ∀ i, m.entry g i = none
  apart : ∀ t t' f, (m.place t).copy = some f → (m.place t').copy = some f → t = t'
  unused : ∀ f, m.free f = true → m.refcount f = 0

variable {m m' : CowState} {g g' : Group} {f t : Nat} {i : Part} {pte : PageTableEntry}

theorem refers_of_entry (h : m.entry g i = some pte) : m.refers g pte.frame := ⟨i, pte, h, rfl⟩

/-! ## Counting groups -/

theorem refers_congr (h : m'.entry g = m.entry g) : m'.refers g f ↔ m.refers g f := by
  unfold refers
  rw [h]

theorem Inv.mem_mapped (h : Inv m) (hr : m.refers g f) : g ∈ m.mapped := by
  obtain ⟨i, pte, he, _⟩ := hr
  by_contra hg
  rw [h.unmapped g hg i] at he
  cases he

theorem mem_pairs (h : Inv m) : g ∈ m.mapped.filter (fun g => m.refers g f) ↔ m.refers g f := by
  rw [Finset.mem_filter]
  exact and_iff_right_of_imp h.mem_mapped

/-- The same groups have an entry into the frame. -/
theorem pairs_congr (hm : ∀ g, g ∈ m'.mapped ∧ m'.refers g f ↔ g ∈ m.mapped ∧ m.refers g f) :
    m'.pairs f = m.pairs f := by
  unfold pairs
  congr 1
  ext g
  rw [Finset.mem_filter, Finset.mem_filter]
  exact hm g

/-- One group more has an entry into the frame. -/
theorem pairs_gain (hnew : g ∈ m'.mapped ∧ m'.refers g f) (hold : ¬m.refers g f)
    (hother : ∀ g', g' ≠ g → (g' ∈ m'.mapped ∧ m'.refers g' f ↔ g' ∈ m.mapped ∧ m.refers g' f)) :
    m'.pairs f = m.pairs f + 1 := by
  have hnot : g ∉ m.mapped.filter fun g => m.refers g f := fun hin =>
    hold (Finset.mem_filter.mp hin).2
  unfold pairs
  rw [← Finset.card_insert_of_notMem hnot]
  congr 1
  ext x
  rw [Finset.mem_filter, Finset.mem_insert, Finset.mem_filter]
  by_cases hx : x = g
  · subst hx
    exact ⟨fun _ => Or.inl rfl, fun _ => hnew⟩
  · rw [hother x hx]
    exact ⟨Or.inr, fun hor => hor.resolve_left hx⟩

/-- One group less has an entry into the frame. -/
theorem pairs_lose (hold : g ∈ m.mapped ∧ m.refers g f) (hnew : ¬m'.refers g f)
    (hother : ∀ g', g' ≠ g → (g' ∈ m'.mapped ∧ m'.refers g' f ↔ g' ∈ m.mapped ∧ m.refers g' f)) :
    m.pairs f = m'.pairs f + 1 :=
  pairs_gain hold hnew fun g' hg' => (hother g' hg').symm

theorem pairs_pos (h : Inv m) (hr : m.refers g f) : 0 < m.pairs f :=
  Finset.card_pos.mpr ⟨g, (mem_pairs h).mpr hr⟩

/-- A frame some group refers to is no copy in flight, and its count is positive. -/
theorem Inv.not_held (h : Inv m) (hr : m.refers g f) : ¬m.held f := by
  intro hh
  have hpos := pairs_pos h hr
  rw [(h.law.copies f hh).2.1] at hpos
  exact Nat.lt_irrefl 0 hpos

theorem Inv.refcount_pos (h : Inv m) (hr : m.refers g f) : 0 < m.refcount f := by
  rw [h.law.counted f (h.not_held hr)]
  exact Nat.add_pos_left (pairs_pos h hr) _

/-- A frame with one reference is in one group. -/
theorem Inv.sole (h : Inv m) (hr : m.refers g f) (hone : m.refcount f ≤ 1) (hr' : m.refers g' f) :
    g' = g := by
  have hcount := h.law.counted f (h.not_held hr)
  have hcard : (m.mapped.filter fun g => m.refers g f).card ≤ 1 := by
    change m.pairs f ≤ 1
    omega
  exact Finset.card_le_one.mp hcard _ ((mem_pairs h).mpr hr') _ ((mem_pairs h).mpr hr)

/-- A free frame is in no group and in no break. -/
theorem Inv.of_free (h : Inv m) (hf : m.free f = true) :
    ¬m.held f ∧ m.pairs f = 0 ∧ m.external f = 0 := by
  have hzero := h.unused f hf
  have hheld : ¬m.held f := fun hh => by
    rw [(h.law.copies f hh).1] at hzero
    cases hzero
  have hcount := h.law.counted f hheld
  exact ⟨hheld, by omega, by omega⟩

theorem Inv.not_refers_of_pairs (h : Inv m) (hz : m.pairs f = 0) (g : Group) : ¬m.refers g f := by
  intro hr
  have hpos := pairs_pos h hr
  omega

/-! ## Steps that leave the tables alone -/

variable {p : CowPlace}

@[simp] theorem goto_place_self : (m.goto t p).place t = p := update_self ..

theorem goto_place_of_ne {u : Nat} (h : u ≠ t) :
    (m.goto t p).place u = m.place u :=
  update_of_ne h ..

/-- The copies in flight are the same. -/
def SameCopies (m m' : CowState) : Prop := ∀ t, (m'.place t).copy = (m.place t).copy

theorem SameCopies.held (h : SameCopies m m') (f : Nat) : m'.held f ↔ m.held f :=
  exists_congr fun t => by rw [h t]

theorem sameCopies_goto (h : p.copy = (m.place t).copy) :
    SameCopies m (m.goto t p) := by
  intro u
  by_cases hut : u = t
  · subst hut
    rw [goto_place_self]
    exact h
  · rw [goto_place_of_ne hut]

theorem Inv.congr (h : Inv m) (hrc : m'.refcount = m.refcount) (hfree : m'.free = m.free)
    (hext : m'.external = m.external) (hmap : m'.mapped = m.mapped) (hent : m'.entry = m.entry)
    (hcopy : SameCopies m m') : Inv m' := by
  have hrefers : ∀ g f, m'.refers g f ↔ m.refers g f := fun g f => refers_congr (by rw [hent])
  have hpairs : ∀ f, m'.pairs f = m.pairs f := fun f => pairs_congr fun g => by
    rw [hmap, hrefers]
  exact {
    law := {
      counted := fun f hf => by
        rw [hrc, hpairs, hext]
        exact h.law.counted f fun hh => hf ((hcopy.held f).mpr hh)
      copies := fun f hf => by
        rw [hrc, hpairs, hext]
        exact h.law.copies f ((hcopy.held f).mp hf) }
    exclusive := by
      unfold Exclusive
      rw [hent]
      exact h.exclusive
    designed := by
      unfold Designed
      rw [hent]
      exact h.designed
    unmapped := by
      rw [hmap, hent]
      exact h.unmapped
    apart := fun t t' f ht ht' =>
      h.apart t t' f ((hcopy t).symm.trans ht) ((hcopy t').symm.trans ht')
    unused := by
      rw [hfree, hrc]
      exact h.unused }

theorem Inv.goto (h : Inv m) (hp : p.copy = (m.place t).copy) :
    Inv (m.goto t p) :=
  h.congr rfl rfl rfl rfl rfl (sameCopies_goto hp)

theorem Inv.storeAt (h : Inv m) (g : Group) (i : Part) (f off : Nat) (bytes : List UInt8) :
    Inv (m.storeAt g i f off bytes) :=
  h.congr rfl rfl rfl rfl rfl fun _ => rfl

theorem Inv.forceSection (h : Inv m) (w : ForcedWrite) (attempts : Nat)
    (ht : (m.place t).copy = none) : Inv (m.forceSection t w attempts) := by
  cases attempts with
  | zero => exact h.goto ht.symm
  | succ attempts =>
    simp only [CowState.forceSection]
    split
    · exact h.goto ht.symm
    · split
      · exact h.goto ht.symm
      · split
        · refine (h.storeAt _ _ _ _ _).goto ?_
          exact ht.symm
        · refine h.goto ?_
          exact ht.symm

/-! ## The slow half -/

/-- A break takes a free frame for its copy. -/
theorem Inv.begin (h : Inv m) {mem : Nat → Part → Page} (ht : (m.place t).copy = none)
    (hp : p.copy = some f) (hfree : m.free f = true) :
    Inv ({ m.setRefcount f 1 with free := update m.free f false, mem := mem }.goto t p) := by
  obtain ⟨hheld, hpairs, hext⟩ := h.of_free hfree
  have hplace : ∀ u x, (((m.goto t p).place u).copy = some x ↔
      (m.place u).copy = some x ∨ (u = t ∧ x = f)) := by
    intro u x
    by_cases hut : u = t
    · subst hut
      rw [goto_place_self, hp, ht]
      simp [eq_comm]
    · rw [goto_place_of_ne hut]
      simp [hut]
  have hheld' : ∀ x, (m.goto t p).held x ↔ m.held x ∨ x = f := by
    intro x
    unfold held
    simp only [hplace, exists_or, exists_eq_left]
  have hset : ∀ x, x ≠ f → (m.setRefcount f 1).refcount x = m.refcount x := fun x hx =>
    update_of_ne hx ..
  exact {
    law := {
      counted := by
        intro x hx
        have hx' := mt (hheld' x).mpr hx
        rw [not_or] at hx'
        exact (hset x hx'.2).trans (h.law.counted x hx'.1)
      copies := by
        intro x hx
        obtain hx' | rfl := (hheld' x).mp hx
        · have hne : x ≠ f := fun heq => hheld (heq ▸ hx')
          exact ⟨(hset x hne).trans (h.law.copies x hx').1, (h.law.copies x hx').2⟩
        · exact ⟨update_self .., hpairs, hext⟩ }
    exclusive := h.exclusive
    designed := h.designed
    unmapped := h.unmapped
    apart := by
      intro u v x hu hv
      obtain hu' | ⟨rfl, rfl⟩ := (hplace u x).mp hu
      · obtain hv' | ⟨rfl, rfl⟩ := (hplace v x).mp hv
        · exact h.apart u v x hu' hv'
        · exact absurd ⟨u, hu'⟩ hheld
      · obtain hv' | ⟨rfl, _⟩ := (hplace v x).mp hv
        · exact absurd ⟨v, hv'⟩ hheld
        · rfl
    unused := by
      intro x hx
      by_cases hxf : x = f
      · subst hxf
        change update m.free x false x = true at hx
        rw [update_self] at hx
        cases hx
      · change update m.free f false x = true at hx
        rw [update_of_ne hxf] at hx
        exact (hset x hxf).trans (h.unused x hx) }

variable {prep : CowPrep}

/-- What a prepared break is. -/
theorem prepareCow_cases {mode : Break} {alloc : Option Nat}
    (h : m.prepareCow g i mode alloc = .ok (prep, m')) :
    ∃ pte, m.entry g i = some pte ∧ mode.moves pte = true ∧ prep.group = g ∧ prep.mode = mode ∧
      prep.frame = pte.frame ∧
      ((prep.copy = none ∧ m' = m) ∨
        (∃ f, prep.copy = some f ∧ alloc = some f ∧
          prep.copied = (fun j => (m.stillCow g mode pte.frame j).isSome) ∧
          m' = { m.setRefcount f 1 with
            free := update m.free f false
            mem := update m.mem f fun j =>
              if prep.copied j then m.mem pte.frame j else m.mem f j })) := by
  unfold prepareCow at h
  split at h
  · cases h
  · split at h
    · cases h
    next pte hpte =>
    rw [Option.filter_eq_some_iff] at hpte
    split at h
    · cases h
      exact ⟨pte, hpte.1, hpte.2, rfl, rfl, rfl, Or.inl ⟨rfl, rfl⟩⟩
    · split at h
      · cases h
      next f =>
        cases h
        exact ⟨pte, hpte.1, hpte.2, rfl, rfl, rfl, Or.inr ⟨f, rfl, rfl, rfl, rfl⟩⟩

theorem Inv.prepareThen (h : Inv m) {mode : Break} {alloc : Option Nat} {next : CowPrep → CowPlace}
    (ht : (m.place t).copy = none) (halloc : m.canAlloc alloc = true)
    (hnext : ∀ prep, (next prep).copy = prep.copy) :
    Inv (m.prepareThen t g i mode alloc next) := by
  unfold CowState.prepareThen
  split
  next => exact h.goto ht.symm
  next prep m' hprep =>
  obtain ⟨pte, _, _, _, _, _, ⟨hnone, rfl⟩ | ⟨f, hf, rfl, _, rfl⟩⟩ := prepareCow_cases hprep
  · exact h.goto ((hnext prep).trans (hnone.trans ht.symm))
  · exact h.begin ht ((hnext prep).trans hf) halloc

/-! ## The install half -/

theorem stillCow_eq_some {mode : Break} :
    m.stillCow g mode f i = some pte ↔
      m.entry g i = some pte ∧ mode.moves pte = true ∧ pte.frame = f := by
  unfold stillCow
  rw [Option.filter_eq_some_iff, Bool.and_eq_true, decide_eq_true_eq]

theorem replaced_of_ne {new : Part → PageTableEntry → Option PageTableEntry}
    (h : g ≠ prep.group) : m.replaced prep new g = m.entry g :=
  update_of_ne h ..

/-- An entry of the break's group is replaced, or is what it was. -/
theorem replaced_self (m : CowState) (prep : CowPrep)
    (new : Part → PageTableEntry → Option PageTableEntry) (i : Part) :
    (∃ p q, m.entry prep.group i = some p ∧ prep.mode.moves p = true ∧ p.frame = prep.frame ∧
        new i p = some q ∧ m.replaced prep new prep.group i = some q) ∨
      m.replaced prep new prep.group i = m.entry prep.group i := by
  unfold replaced
  rw [update_self]
  cases hs : m.stillCow prep.group prep.mode prep.frame i with
  | none => exact Or.inr rfl
  | some p =>
    obtain ⟨hp, hmoves, hframe⟩ := stillCow_eq_some.mp hs
    dsimp only
    cases hq : new i p with
    | none => exact Or.inr (Option.none_or ..)
    | some q => exact Or.inl ⟨p, q, hp, hmoves, hframe, hq, Option.some_or ..⟩

/-- Entries keep their frames; one becomes writable only if no other group is on its frame. -/
theorem Inv.retag (h : Inv m) (hrc : m'.refcount = m.refcount) (hfree : m'.free = m.free)
    (hext : m'.external = m.external) (hmap : m'.mapped = m.mapped) (hplace : m'.place = m.place)
    (hback : ∀ g i q, m'.entry g i = some q → ∃ p, m.entry g i = some p ∧ p.frame = q.frame ∧
      p.isShared = q.isShared ∧
      (q.writable = true → p.writable = true ∨ ∀ g', m.refers g' q.frame → g' = g))
    (hforth : ∀ g i p, m.entry g i = some p → ∃ q, m'.entry g i = some q ∧ q.frame = p.frame) :
    Inv m' := by
  have hrefers : ∀ g f, m'.refers g f ↔ m.refers g f := by
    intro g f
    constructor
    · rintro ⟨i, q, hq, rfl⟩
      obtain ⟨p, hp, hframe, _⟩ := hback g i q hq
      exact ⟨i, p, hp, hframe⟩
    · rintro ⟨i, p, hp, rfl⟩
      obtain ⟨q, hq, hframe⟩ := hforth g i p hp
      exact ⟨i, q, hq, hframe⟩
  have hpairs : ∀ f, m'.pairs f = m.pairs f := fun f => pairs_congr fun g => by
    rw [hmap, hrefers]
  have hheld : ∀ f, m'.held f ↔ m.held f := fun f => by
    unfold held
    rw [hplace]
  exact {
    law := {
      counted := fun f hf => by
        rw [hrc, hpairs, hext]
        exact h.law.counted f (mt (hheld f).mpr hf)
      copies := fun f hf => by
        rw [hrc, hpairs, hext]
        exact h.law.copies f ((hheld f).mp hf) }
    exclusive := by
      intro g g' i q q' hgg hq hq' hframe hpriv
      obtain ⟨p, hp, hpf, hps, hw⟩ := hback g i q hq
      obtain ⟨p', hp', hpf', _, _⟩ := hback g' i q' hq'
      by_contra hwr
      obtain hpw | hsole := hw (Bool.not_eq_false _ ▸ hwr)
      · have hro := h.exclusive g g' i p p' hgg hp hp' (hpf.trans (hframe.trans hpf'.symm))
          (hps.trans hpriv)
        exact Bool.false_ne_true (hro.symm.trans hpw)
      · exact hgg (hsole g' ⟨i, p', hp', hpf'.trans hframe.symm⟩).symm
    designed := by
      intro g g' i q q' hq hq' hframe
      obtain ⟨p, hp, hpf, hps, _⟩ := hback g i q hq
      obtain ⟨p', hp', hpf', hps', _⟩ := hback g' i q' hq'
      rw [← hps, ← hps']
      exact h.designed g g' i p p' hp hp' (hpf.trans (hframe.trans hpf'.symm))
    unmapped := by
      intro g hg i
      rw [hmap] at hg
      cases hq : m'.entry g i with
      | none => rfl
      | some q =>
        obtain ⟨p, hp, _⟩ := hback g i q hq
        rw [h.unmapped g hg i] at hp
        cases hp
    apart := by
      rw [hplace]
      exact h.apart
    unused := by
      rw [hfree, hrc]
      exact h.unused }

theorem Inv.installInPlace (h : Inv m) (prep : CowPrep) : Inv (m.installInPlace prep) := by
  unfold CowState.installInPlace
  split
  · exact h
  next hone =>
  split
  · exact h
  · refine h.retag rfl rfl rfl rfl rfl ?_ ?_
    · intro g i q hq
      by_cases hg : g = prep.group
      · subst hg
        obtain ⟨p, q', hp, _, hpf, hnew, hq'⟩ | hsame :=
          replaced_self m prep (fun _ pte => some (Break.write.flags pte)) i
        · cases hnew
          have hqq : q = Break.write.flags p := Option.some.inj (hq.symm.trans hq')
          subst hqq
          refine ⟨p, hp, rfl, rfl, fun _ => Or.inr fun g' hg' => ?_⟩
          -- the count says that this group is the frame's only one
          have hle : m.refcount p.frame ≤ 1 := by
            rw [hpf]
            exact Nat.not_lt.mp hone
          exact h.sole (refers_of_entry hp) hle hg'
        · exact ⟨q, hsame.symm.trans hq, rfl, rfl, Or.inl⟩
      · have hsame : m.entry g i = some q := by
          rw [← hq]
          exact (congrFun (replaced_of_ne hg) i).symm
        exact ⟨q, hsame, rfl, rfl, Or.inl⟩
    · intro g i p hp
      by_cases hg : g = prep.group
      · subst hg
        obtain ⟨p', q', hp', _, _, hnew, hq'⟩ | hsame :=
          replaced_self m prep (fun _ pte => some (Break.write.flags pte)) i
        · cases hnew
          have hpp : p = p' := Option.some.inj (hp.symm.trans hp')
          exact ⟨_, hq', by rw [hpp]; rfl⟩
        · exact ⟨p, hsame.trans hp, rfl⟩
      · exact ⟨p, (congrFun (replaced_of_ne hg) i).trans hp, rfl⟩

/-- The break of `t` is over: its copy is held no longer. -/
theorem Inv.held_done (h : Inv m) (ht : (m.place t).copy = some f)
    (hp : p.copy = none) (x : Nat) : (m.goto t p).held x ↔ m.held x ∧ x ≠ f := by
  constructor
  · rintro ⟨u, hu⟩
    by_cases hut : u = t
    · subst hut
      rw [goto_place_self, hp] at hu
      cases hu
    · rw [goto_place_of_ne hut] at hu
      refine ⟨⟨u, hu⟩, ?_⟩
      rintro rfl
      exact hut (h.apart u t x hu ht)
  · rintro ⟨⟨u, hu⟩, hx⟩
    have hut : u ≠ t := by
      rintro rfl
      exact hx (Option.some.inj (hu.symm.trans ht))
    exact ⟨u, by rw [goto_place_of_ne hut]; exact hu⟩

theorem Inv.apart_done (h : Inv m) (hp : p.copy = none) :
    ∀ u v x, ((m.goto t p).place u).copy = some x → ((m.goto t p).place v).copy = some x → u = v := by
  intro u v x hu hv
  have hof : ∀ w, ((m.goto t p).place w).copy = some x → (m.place w).copy = some x := by
    intro w hw
    by_cases hwt : w = t
    · subst hwt
      rw [goto_place_self, hp] at hw
      cases hw
    · rw [goto_place_of_ne hwt] at hw
      exact hw
  exact h.apart u v x (hof u hu) (hof v hv)

/-- A copy of which nothing is used is freed. -/
theorem Inv.discard (h : Inv m) (ht : (m.place t).copy = some f)
    (hp : p.copy = none) : Inv ((m.freeFrame f).goto t p) := by
  obtain ⟨hrc, hpairs, hext⟩ := h.law.copies f ⟨t, ht⟩
  unfold freeFrame
  rw [if_pos hrc]
  have hset : ∀ x, x ≠ f → (m.setRefcount f 0).refcount x = m.refcount x := fun x hx =>
    update_of_ne hx ..
  have hself : (m.setRefcount f 0).refcount f = 0 := update_self ..
  have hheld := h.held_done ht hp
  exact {
    law := {
      counted := by
        intro x hx
        by_cases hxf : x = f
        · subst hxf
          refine hself.trans ?_
          change 0 = m.pairs x + m.external x
          omega
        · refine (hset x hxf).trans (h.law.counted x fun hh => hx ((hheld x).mpr ⟨hh, hxf⟩))
      copies := by
        intro x hx
        obtain ⟨hh, hxf⟩ := (hheld x).mp hx
        exact ⟨(hset x hxf).trans (h.law.copies x hh).1, (h.law.copies x hh).2⟩ }
    exclusive := h.exclusive
    designed := h.designed
    unmapped := h.unmapped
    apart := h.apart_done hp
    unused := by
      intro x hx
      by_cases hxf : x = f
      · subst hxf
        exact hself
      · change update m.free f true x = true at hx
        rw [update_of_ne hxf] at hx
        exact (hset x hxf).trans (h.unused x hx) }

/-- Parts of one group move from frame `old` to the copy `f`, and the old frame loses the group's
reference with the last of its entries. -/
structure Moved (m m' : CowState) (g : Group) (old f : Nat) : Prop where
  back : ∀ i q, m'.entry g i = some q → m.entry g i = some q ∨
    (q.frame = f ∧ ∃ p, m.entry g i = some p ∧ p.frame = old)
  forth : ∀ i p, m.entry g i = some p → m'.entry g i = some p ∨
    (p.frame = old ∧ ∃ q, m'.entry g i = some q ∧ q.frame = f)
  new : m'.refers g f
  was : m.refers g old
  other : ∀ g', g' ≠ g → m'.entry g' = m.entry g'
  kept : m'.refers g old → m'.refcount = m.refcount
  dropped : ¬m'.refers g old →
    m'.refcount = update m.refcount old (m.refcount old - 1)
  same : m'.free = m.free ∧ m'.external = m.external ∧ m'.mapped = m.mapped

theorem Moved.refers_iff {old : Nat} (h : Moved m m' g old f) {x : Nat} (hf : x ≠ f)
    (ho : x ≠ old) : m'.refers g x ↔ m.refers g x := by
  constructor
  · rintro ⟨i, q, hq, rfl⟩
    exact ⟨i, q, (h.back i q hq).resolve_right fun hr => hf hr.1, rfl⟩
  · rintro ⟨i, p, hp, rfl⟩
    exact ⟨i, p, (h.forth i p hp).resolve_right fun hr => ho hr.1, rfl⟩

theorem Inv.moved (h : Inv m) {old : Nat} (hm : Moved m m' g old f)
    (hplace : m'.place = (m.goto t p).place) (ht : (m.place t).copy = some f) (hp : p.copy = none) :
    Inv m' := by
  obtain ⟨hfree, hext, hmap⟩ := hm.same
  obtain ⟨hrc, hpairs, hextz⟩ := h.law.copies f ⟨t, ht⟩
  have hfno : ∀ g', ¬m.refers g' f := h.not_refers_of_pairs hpairs
  have hne : old ≠ f := fun heq => hfno g (heq ▸ hm.was)
  have hgmap : g ∈ m.mapped := h.mem_mapped hm.was
  have hheld : ∀ x, m'.held x ↔ m.held x ∧ x ≠ f := by
    intro x
    have hsame : m'.held x ↔ (m.goto t p).held x := by
      unfold held
      rw [hplace]
    exact hsame.trans (h.held_done ht hp x)
  have hother : ∀ x g', g' ≠ g →
      (g' ∈ m'.mapped ∧ m'.refers g' x ↔ g' ∈ m.mapped ∧ m.refers g' x) := by
    intro x g' hg'
    rw [hmap, refers_congr (hm.other g' hg')]
  have hpsame : ∀ x, (m'.refers g x ↔ m.refers g x) → m'.pairs x = m.pairs x := by
    intro x hx
    refine pairs_congr fun g' => ?_
    by_cases hg' : g' = g
    · rw [hg', hmap, hx]
    · exact hother x g' hg'
  have hpf : m'.pairs f = m.pairs f + 1 :=
    pairs_gain ⟨hmap ▸ hgmap, hm.new⟩ (hfno g) (hother f)
  have hrcof : ∀ x, x ≠ old → m'.refcount x = m.refcount x := by
    intro x hx
    by_cases hk : m'.refers g old
    · rw [hm.kept hk]
    · rw [hm.dropped hk]
      exact update_of_ne hx ..
  have hold : m'.refcount old = m'.pairs old + m.external old := by
    have hcount := h.law.counted old (h.not_held hm.was)
    by_cases hk : m'.refers g old
    · rw [hm.kept hk, hpsame old ⟨fun _ => hm.was, fun _ => hk⟩]
      exact hcount
    · have hlose := pairs_lose ⟨hgmap, hm.was⟩ hk (hother old)
      rw [hm.dropped hk, update_self]
      omega
  exact {
    law := {
      counted := by
        intro x hx
        rw [hext]
        by_cases hxo : x = old
        · rw [hxo]
          exact hold
        · rw [hrcof x hxo]
          by_cases hxf : x = f
          · rw [hxf, hpf]
            omega
          · rw [hpsame x (hm.refers_iff hxf hxo)]
            exact h.law.counted x fun hh => hx ((hheld x).mpr ⟨hh, hxf⟩)
      copies := by
        intro x hx
        obtain ⟨hh, hxf⟩ := (hheld x).mp hx
        have hxo : x ≠ old := fun heq => h.not_held hm.was (heq ▸ hh)
        rw [hrcof x hxo, hpsame x (hm.refers_iff hxf hxo), hext]
        exact h.law.copies x hh }
    exclusive := by
      intro g₁ g₂ i q₁ q₂ hgg hq₁ hq₂ hframe hpriv
      -- the copy is in this group only, and the other entries are as they were
      have hof : ∀ g' q, m'.entry g' i = some q → m.entry g' i = some q ∨ (g' = g ∧ q.frame = f) := by
        intro g' q hq
        by_cases hg' : g' = g
        · subst hg'
          exact (hm.back i q hq).imp_right fun hr => ⟨rfl, hr.1⟩
        · rw [hm.other g' hg'] at hq
          exact Or.inl hq
      obtain hp₁ | ⟨rfl, hf₁⟩ := hof g₁ q₁ hq₁
      · obtain hp₂ | ⟨rfl, hf₂⟩ := hof g₂ q₂ hq₂
        · exact h.exclusive g₁ g₂ i q₁ q₂ hgg hp₁ hp₂ hframe hpriv
        · exact absurd ⟨i, q₁, hp₁, hframe.trans hf₂⟩ (hfno g₁)
      · obtain hp₂ | ⟨rfl, _⟩ := hof g₂ q₂ hq₂
        · exact absurd ⟨i, q₂, hp₂, hframe.symm.trans hf₁⟩ (hfno g₂)
        · exact absurd rfl hgg
    designed := by
      intro g₁ g₂ i q₁ q₂ hq₁ hq₂ hframe
      by_cases hgg : g₁ = g₂
      · subst hgg
        rw [Option.some.inj (hq₁.symm.trans hq₂)]
      · have hof : ∀ g' q, m'.entry g' i = some q →
            m.entry g' i = some q ∨ (g' = g ∧ q.frame = f) := by
          intro g' q hq
          by_cases hg' : g' = g
          · subst hg'
            exact (hm.back i q hq).imp_right fun hr => ⟨rfl, hr.1⟩
          · rw [hm.other g' hg'] at hq
            exact Or.inl hq
        obtain hp₁ | ⟨rfl, hf₁⟩ := hof g₁ q₁ hq₁
        · obtain hp₂ | ⟨rfl, hf₂⟩ := hof g₂ q₂ hq₂
          · exact h.designed g₁ g₂ i q₁ q₂ hp₁ hp₂ hframe
          · exact absurd ⟨i, q₁, hp₁, hframe.trans hf₂⟩ (hfno g₁)
        · obtain hp₂ | ⟨rfl, _⟩ := hof g₂ q₂ hq₂
          · exact absurd ⟨i, q₂, hp₂, hframe.symm.trans hf₁⟩ (hfno g₂)
          · exact absurd rfl hgg
    unmapped := by
      intro g' hg' i
      rw [hmap] at hg'
      have hgg : g' ≠ g := fun heq => hg' (heq ▸ hgmap)
      rw [hm.other g' hgg]
      exact h.unmapped g' hg' i
    apart := by
      rw [hplace]
      exact h.apart_done hp
    unused := by
      intro x hx
      rw [hfree] at hx
      have hzero := h.unused x hx
      have hxo : x ≠ old := by
        rintro rfl
        have hpos := h.refcount_pos hm.was
        omega
      rw [hrcof x hxo]
      exact hzero }

/-- What an entry still on the old frame is replaced by, if its part was copied. -/
def copyOver (prep : CowPrep) (f : Nat) (i : Part) (pte : PageTableEntry) :
    Option PageTableEntry :=
  if prep.copied i then some { prep.mode.flags pte with frame := f } else none

theorem copyOver_eq_some {q : PageTableEntry}
    (h : copyOver prep f i pte = some q) :
    prep.copied i = true ∧ q = { prep.mode.flags pte with frame := f } := by
  unfold copyOver at h
  split at h
  next hc => exact ⟨hc, (Option.some.inj h).symm⟩
  next => cases h

theorem installCopy_entry (hi : ¬∀ i, m.installs prep i = false) :
    (m.installCopy prep f).entry = m.replaced prep (copyOver prep f) := by
  unfold installCopy
  rw [if_neg hi]
  dsimp only
  split
  · rfl
  · unfold refDec
    split <;> rfl

/-- The entries after the copy is installed, and the old frame's count. -/
theorem moved_installCopy (h : Inv m)
    (hi : ¬∀ i, m.installs prep i = false) :
    Moved m ((m.installCopy prep f).goto t p) prep.group prep.frame f := by
  obtain ⟨k, hk⟩ := not_forall.mp hi
  have hk' : m.installs prep k = true := Bool.not_eq_false _ ▸ hk
  unfold installs at hk'
  rw [Bool.and_eq_true] at hk'
  obtain ⟨hcop, hsome⟩ := hk'
  obtain ⟨pk, hpk⟩ := Option.isSome_iff_exists.mp hsome
  obtain ⟨hek, _, hfk⟩ := stillCow_eq_some.mp hpk
  have hrefold : m.refers prep.group prep.frame := ⟨k, pk, hek, hfk⟩
  have hpos := h.refcount_pos hrefold
  have hent := installCopy_entry (f := f) hi
  have hnewf : ∀ i p q, copyOver prep f i p = some q → q.frame = f := by
    intro i p q hq
    rw [(copyOver_eq_some hq).2]
  have hrefers : ∀ x, (({ m with entry := m.replaced prep (copyOver prep f) } : CowState).refers prep.group x ↔
      ((m.installCopy prep f).goto t p).refers prep.group x) := by
    intro x
    unfold refers
    rw [show ((m.installCopy prep f).goto t p).entry = m.replaced prep (copyOver prep f) from hent]
  exact {
    back := by
      intro i q hq
      change (m.installCopy prep f).entry _ _ = _ at hq
      rw [hent] at hq
      obtain ⟨p₀, q₀, hp₀, _, hf₀, hnew, hq₀⟩ | hsame := replaced_self m prep (copyOver prep f) i
      · have hqq : q = q₀ := Option.some.inj (hq.symm.trans hq₀)
        exact Or.inr ⟨hqq ▸ hnewf i p₀ q₀ hnew, p₀, hp₀, hf₀⟩
      · exact Or.inl (hsame.symm.trans hq)
    forth := by
      intro i p₁ hp₁
      change (m.installCopy prep f).entry _ _ = _ ∨ _ ∧ ∃ q, (m.installCopy prep f).entry _ _ = _ ∧ _
      rw [hent]
      obtain ⟨p₀, q₀, hp₀, _, hf₀, hnew, hq₀⟩ | hsame := replaced_self m prep (copyOver prep f) i
      · have hpp : p₁ = p₀ := Option.some.inj (hp₁.symm.trans hp₀)
        exact Or.inr ⟨hpp ▸ hf₀, q₀, hq₀, hnewf i p₀ q₀ hnew⟩
      · exact Or.inl (hsame.trans hp₁)
    new := by
      refine (hrefers f).mp ?_
      refine ⟨k, { prep.mode.flags pk with frame := f }, ?_, rfl⟩
      change m.replaced prep (copyOver prep f) prep.group k = _
      unfold replaced
      rw [update_self, hpk]
      dsimp only
      unfold copyOver
      rw [if_pos hcop]
      rfl
    was := hrefold
    other := by
      intro g' hg'
      change (m.installCopy prep f).entry g' = _
      rw [hent]
      exact replaced_of_ne hg'
    kept := by
      intro hkept
      have hkept' := (hrefers prep.frame).mpr hkept
      change (m.installCopy prep f).refcount = _
      unfold installCopy
      rw [if_neg hi]
      dsimp only
      split
      next => rfl
      next hk => exact absurd hkept' hk
    dropped := by
      intro hdrop
      have hdrop' := mt (hrefers prep.frame).mp hdrop
      change (m.installCopy prep f).refcount = _
      unfold installCopy
      rw [if_neg hi]
      dsimp only
      split
      next hk => exact absurd hk hdrop'
      next =>
      unfold refDec
      rw [if_neg (Nat.pos_iff_ne_zero.mp hpos)]
      rfl
    same := by
      have hstate : ∀ s : CowState, (s.refDec prep.frame).free = s.free ∧
          (s.refDec prep.frame).external = s.external ∧ (s.refDec prep.frame).mapped = s.mapped := by
        intro s
        unfold refDec
        split <;> exact ⟨rfl, rfl, rfl⟩
      change (m.installCopy prep f).free = _ ∧ (m.installCopy prep f).external = _ ∧
        (m.installCopy prep f).mapped = _
      unfold installCopy
      rw [if_neg hi]
      dsimp only
      split
      · exact ⟨rfl, rfl, rfl⟩
      · exact hstate _ }

theorem installCopy_place : (m.installCopy prep f).place = m.place := by
  unfold installCopy
  split
  · unfold freeFrame refDec
    split
    · rfl
    · split <;> rfl
  · dsimp only
    split
    · rfl
    · unfold refDec
      split <;> rfl

theorem Inv.installCow (h : Inv m)
    (ht : (m.place t).copy = prep.copy) (hp : p.copy = none) :
    Inv ((m.installCow prep).goto t p) := by
  unfold CowState.installCow
  cases hc : prep.copy with
  | none =>
    refine (h.installInPlace prep).goto ?_
    have hplace : (m.installInPlace prep).place = m.place := by
      unfold CowState.installInPlace
      split
      · rfl
      · split <;> rfl
    rw [hplace, hp, ht, hc]
  | some f =>
    dsimp only
    rw [hc] at ht
    by_cases hi : ∀ i, m.installs prep i = false
    · unfold installCopy
      rw [if_pos hi]
      exact h.discard ht hp
    · refine h.moved (moved_installCopy h hi) ?_ ht hp
      change update (m.installCopy prep f).place t p = update m.place t p
      rw [installCopy_place]

end CowState

end SlateOS.Mm.Cow
