/-
# SlateOS.Mm.Vmalloc.Runs -- vmalloc ranges never collide

The active entries and the `vfree`s that are still unmapping hold the ranges of the region, guard pages included.
Every section reserves a range of clear bits, hands one over or releases one with its bits, and only data pages
inside a range are ever mapped.
-/
import SlateOS.Foundation.Slots
import SlateOS.Mm.Vmalloc.System

namespace SlateOS.Mm.Vmalloc

open Foundation.MachineInt Foundation.Reservations Foundation.Runs Kernel
open Function (update update_self update_of_ne)

/-! ## Who holds what -/

/-- The guarded range of an entry. -/
def entryRange (e : VmallocEntry) : Option Range :=
  if e.active then some (firstPage e.vaddr, e.pageCount + 2) else none

/-- The guarded range that an operation still unmaps. -/
def claimRange : Op → Option Range
  | .unmapping vaddr pageCount _ => some (firstPage vaddr, pageCount + 2)
  | _ => none

/-- The holders of ranges are the entries and the tasks. -/
def heldBy (entries : List VmallocEntry) (ops : Nat → Option Op) : Nat ⊕ Nat → Option Range
  | .inl i => (entries[i]?).bind entryRange
  | .inr task => (ops task).bind claimRange

/-- An allocation is live at the address, or being made there. -/
def live (entries : List VmallocEntry) (vaddr : Nat) : Bool :=
  entries.any fun e => e.active && decide (e.vaddr = vaddr)

section Held

variable {entries : List VmallocEntry} {ops : Nat → Option Op} {i task v : Nat} {e : VmallocEntry} {op : Op}

theorem heldBy_set (hi : i < entries.length) :
    heldBy (entries.set i e) ops = update (heldBy entries ops) (.inl i) (entryRange e) := by
  funext h
  cases h with
  | inl j =>
    by_cases hj : j = i
    · subst hj
      rw [update_self, heldBy, List.getElem?_set_self hi, Option.bind_some]
    · rw [update_of_ne (fun heq => hj (Sum.inl.inj heq)), heldBy, heldBy,
        List.getElem?_set_ne (fun heq => hj heq.symm)]
  | inr task =>
    rw [update_of_ne (by simp)]
    rfl

theorem heldBy_op (o : Option Op) :
    heldBy entries (update ops task o)
      = update (heldBy entries ops) (.inr task) (o.bind claimRange) := by
  funext h
  cases h with
  | inl i =>
    rw [update_of_ne (by simp)]
    rfl
  | inr t =>
    by_cases ht : t = task
    · subst ht
      rw [update_self, heldBy, update_self]
    · rw [update_of_ne (fun heq => ht (Sum.inr.inj heq)), heldBy, heldBy, update_of_ne ht]

/-- A step outside the lock leaves who holds what. -/
theorem heldBy_op_same {o : Option Op} (h : o.bind claimRange = (ops task).bind claimRange) :
    heldBy entries (update ops task o) = heldBy entries ops := by
  rw [heldBy_op, h]
  exact Function.update_eq_self _ _

theorem live_iff : live entries v = true ↔ ∃ (i : Nat) (e : VmallocEntry), entries[i]? = some e ∧ e.active = true ∧ e.vaddr = v := by
  rw [live, List.any_eq_true]
  constructor
  · rintro ⟨e, he, hp⟩
    obtain ⟨i, hi⟩ := List.mem_iff_getElem?.mp he
    rw [Bool.and_eq_true, decide_eq_true_eq] at hp
    exact ⟨i, e, hi, hp⟩
  · rintro ⟨i, e, hi, hp⟩
    exact ⟨e, List.mem_iff_getElem?.mpr ⟨i, hi⟩, by rw [hp.1, hp.2, decide_eq_true rfl]; rfl⟩

end Held

theorem firstPage_vaddrOf (runStart : Nat) : firstPage (vaddrOf runStart) = runStart := by
  unfold firstPage vaddrOf frameSize
  omega

namespace VmallocState

variable {st st' : VmallocState} {vaddr n runStart i : Nat} {e : VmallocEntry}

/-- `take_entry` finds an active entry and empties it, or leaves all alone. -/
theorem takeEntry_cases (st : VmallocState) (vaddr : Nat) :
    ((st.takeEntry vaddr) = (none, st) ∧ live st.entries vaddr = false) ∨
      ∃ i e, st.entries[i]? = some e ∧ e.active = true ∧ e.vaddr = vaddr ∧
        st.takeEntry vaddr = (some e.pageCount,
          { st with entries := st.entries.set i .empty, activeCount := st.activeCount - 1 }) := by
  unfold takeEntry
  cases hfind : st.entries.findIdx? fun e => e.active && decide (e.vaddr = vaddr) with
  | none =>
    refine .inl ⟨rfl, ?_⟩
    rw [live, List.any_eq_false]
    intro e he
    rw [List.findIdx?_eq_none_iff.mp hfind e he]
    exact Bool.false_ne_true
  | some i =>
    obtain ⟨hlt, hmatch, -⟩ := List.findIdx?_eq_some_iff_getElem.mp hfind
    rw [Bool.and_eq_true, decide_eq_true_eq] at hmatch
    have hget : st.entries[i]? = some st.entries[i] := List.getElem?_eq_getElem hlt
    refine .inr ⟨i, st.entries[i], hget, hmatch.1, hmatch.2, ?_⟩
    dsimp only
    rw [List.getD_eq_getElem _ _ hlt]

/-- `vmalloc` reserves the first free run for an inactive entry, or leaves all alone. -/
theorem reserve_cases (hfit : st.bitmap.length * 64 ≤ maxVal 64) (hpos : 0 < n) :
    st.reserve n = (none, st) ∨
      ∃ i e runStart, st.entries[i]? = some e ∧ e.active = false ∧ FreeRun st.bitmap (n + 2) runStart ∧
        st.reserve n = (some (i, runStart),
          { bitmap := setBits st.bitmap runStart (n + 2) true
            entries := st.entries.set i ⟨vaddrOf runStart, n, true⟩
            activeCount := st.activeCount + 1 }) := by
  unfold reserve
  cases hidx : st.entries.findIdx? fun e => !e.active with
  | none => exact .inl rfl
  | some i =>
    cases hrun : findFreeRun st.bitmap n with
    | none => exact .inl rfl
    | some runStart =>
      obtain ⟨hlt, hmatch, -⟩ := List.findIdx?_eq_some_iff_getElem.mp hidx
      refine .inr ⟨i, st.entries[i], runStart, List.getElem?_eq_getElem hlt, ?_, ?_, rfl⟩
      · simpa using hmatch
      · exact (((findFreeRun_spec hfit hpos).1 runStart).mp hrun).1

/-- `vmalloc` begins with a reservation, or leaves all alone. -/
theorem vmallocBegin_cases (hfit : st.bitmap.length * 64 ≤ maxVal 64) (size : Nat) (pml4 : Bool) :
    (∃ err, st.vmallocBegin size pml4 = (.error err, st)) ∨
      ∃ i e runStart n, 0 < n ∧ st.entries[i]? = some e ∧ e.active = false ∧ FreeRun st.bitmap (n + 2) runStart ∧
        st.vmallocBegin size pml4 = (.ok (i, runStart, n),
          { bitmap := setBits st.bitmap runStart (n + 2) true
            entries := st.entries.set i ⟨vaddrOf runStart, n, true⟩
            activeCount := st.activeCount + 1 }) := by
  unfold vmallocBegin
  by_cases hsize : size = 0
  · exact .inl ⟨_, if_pos hsize⟩
  · rw [if_neg hsize]
    by_cases hpml4 : pml4 = false
    · exact .inl ⟨_, if_pos hpml4⟩
    · rw [if_neg hpml4]
      dsimp only
      have hpos : 0 < (size + frameSize - 1) / frameSize := by
        unfold frameSize
        omega
      generalize (size + frameSize - 1) / frameSize = n at hpos
      by_cases hlarge : vmallocMaxPages < n
      · exact .inl ⟨_, if_pos hlarge⟩
      · rw [if_neg hlarge]
        obtain hnone | ⟨i, e, runStart, hi, he, hrun, hres⟩ := reserve_cases hfit hpos
        · exact .inl ⟨.outOfMemory, by rw [hnone]⟩
        · exact .inr ⟨i, e, runStart, n, hpos, hi, he, hrun, by rw [hres]⟩

/-- `vfree` begins with a claim of an active entry, or leaves all alone. -/
theorem vfreeBegin_cases (st : VmallocState) (vaddr : Nat) (pml4 : Bool) :
    (∃ err, st.vfreeBegin vaddr pml4 = (.error err, st)) ∨
      ∃ i e, st.entries[i]? = some e ∧ e.active = true ∧ e.vaddr = vaddr ∧
        st.vfreeBegin vaddr pml4 = (.ok e.pageCount,
          { st with entries := st.entries.set i .empty, activeCount := st.activeCount - 1 }) := by
  unfold vfreeBegin
  by_cases hin : contains vaddr = false
  · exact .inl ⟨_, if_pos hin⟩
  · rw [if_neg hin]
    by_cases hpml4 : pml4 = false
    · exact .inl ⟨_, if_pos hpml4⟩
    · rw [if_neg hpml4]
      obtain ⟨hnone, -⟩ | ⟨i, e, hi, he, hv, htake⟩ := takeEntry_cases st vaddr
      · exact .inl ⟨.notFound, by rw [hnone]⟩
      · exact .inr ⟨i, e, hi, he, hv, by rw [htake]⟩

end VmallocState

/-! ## The invariant -/

namespace Op

/-- The guarded range that an operation works on. -/
def range : Op → Range
  | .mapping _ runStart pageCount _ => (runStart, pageCount + 2)
  | .undoing _ runStart pageCount _ _ => (runStart, pageCount + 2)
  | .unmapping vaddr pageCount _ => (firstPage vaddr, pageCount + 2)

/-- The pages of it that may be mapped. -/
def window : Op → Nat × Nat
  | .mapping _ runStart _ done => (runStart + 1, runStart + 1 + done)
  | .undoing _ runStart _ mapped done => (runStart + 1 + done, runStart + 1 + mapped)
  | .unmapping vaddr pageCount done => (firstPage vaddr + 1 + done, firstPage vaddr + 1 + pageCount)

/-- An operation counts no more pages than it has. -/
def Bounded : Op → Prop
  | .mapping _ _ pageCount done => done ≤ pageCount
  | .undoing _ _ pageCount mapped done => done ≤ mapped ∧ mapped ≤ pageCount
  | .unmapping _ pageCount done => done ≤ pageCount

/-- Who holds the range: the entry of the allocation, or the task that has claimed it. -/
def holder (task : Nat) : Op → Nat ⊕ Nat
  | .mapping entryIdx _ _ _ => .inl entryIdx
  | .undoing entryIdx _ _ _ _ => .inl entryIdx
  | .unmapping _ _ _ => .inr task

end Op

namespace Region

/-- Who holds which range. -/
def held (s : Region) : Nat ⊕ Nat → Option Range := heldBy s.st.entries s.ops

/-- What every run keeps. -/
structure Inv (s : Region) : Prop where
  words : s.st.bitmap.length = bitmapWords
  exact : Exact s.held (bit s.st.bitmap) vmallocMaxPages
  inactive : ∀ e ∈ s.st.entries, e.active = false → e = .empty
  making : ∀ task op i e, s.ops task = some op → making op = some (i, e) → s.st.entries[i]? = some e
  alone : ∀ t t' op op' i e e', s.ops t = some op → s.ops t' = some op' → Region.making op = some (i, e) →
    Region.making op' = some (i, e') → t = t'
  bounded : ∀ task op, s.ops task = some op → op.Bounded
  /-- Guard pages are not mapped. -/
  data : ∀ p, s.mapped p = true → ∃ h r, s.held h = some r ∧ r.1 < p ∧ p + 1 < r.1 + r.2
  window : ∀ task op, s.ops task = some op → ∀ p, InRange op.range p → s.mapped p = true →
    op.window.1 ≤ p ∧ p < op.window.2
  count : s.st.activeCount = s.st.entries.countP VmallocEntry.active
  ledger : ∀ v, s.reserved v = s.freed v + s.failed v + (live s.st.entries v).toNat

section Facts

variable {s s' : Region} {task i j n v : Nat} {op op' : Op} {e e' : VmallocEntry}

theorem Inv.fits (h : s.Inv) : s.st.bitmap.length * 64 ≤ maxVal 64 := by
  rw [h.words]
  decide

theorem Inv.pages (h : s.Inv) : s.st.bitmap.length * 64 = vmallocMaxPages := by
  rw [h.words]
  decide

theorem held_inl (hi : s.st.entries[i]? = some e) (he : e.active = true) :
    s.held (.inl i) = some (firstPage e.vaddr, e.pageCount + 2) := by
  rw [held, heldBy, hi, Option.bind_some, entryRange, if_pos he]

/-- Active entries at one address are one. -/
theorem Inv.unique (h : s.Inv) (hi : s.st.entries[i]? = some e) (he : e.active = true)
    (hj : s.st.entries[j]? = some e') (he' : e'.active = true) (hv : e.vaddr = e'.vaddr) : i = j :=
  Sum.inl.inj (h.exact.unique (held_inl hi he) (held_inl hj he') (congrArg firstPage hv))

/-- The range of an operation is held by its holder. -/
theorem Inv.held_op (h : s.Inv) (hop : s.ops task = some op) : s.held (op.holder task) = some op.range := by
  cases op with
  | mapping i runStart n done | undoing i runStart n mapped done =>
    have hi := h.making task _ _ _ hop rfl
    rw [Op.holder, held_inl hi rfl, firstPage_vaddrOf]
    rfl
  | unmapping vaddr n done =>
    rw [Op.holder, held, heldBy, hop]
    rfl

/-- Different tasks work on different ranges. -/
theorem Inv.holder_ne (h : s.Inv) {t : Nat} (hop : s.ops task = some op) (hop' : s.ops t = some op')
    (hne : t ≠ task) : op'.holder t ≠ op.holder task := by
  have halone : ∀ i e e', Region.making op' = some (i, e) → Region.making op = some (i, e') → False :=
    fun i e e' hm hm' => hne (h.alone t task op' op i e e' hop' hop hm hm')
  cases op <;> cases op' <;> intro heq <;> simp only [Op.holder, Sum.inl.injEq, Sum.inr.injEq, reduceCtorEq] at heq
  all_goals first
    | exact hne heq
    | (subst heq
       exact halone _ _ _ rfl rfl)

/-- No page of another task's range is in the range of an operation. -/
theorem Inv.apart (h : s.Inv) {t p : Nat} (hop : s.ops task = some op) (hop' : s.ops t = some op')
    (hne : t ≠ task) (hp : InRange op'.range p) : ¬InRange op.range p :=
  fun hin => h.holder_ne hop hop' hne (h.exact.disjoint _ _ _ _ p (h.held_op hop') (h.held_op hop) hp hin)

end Facts

/-! ## Work outside the lock -/

section Work

variable {s : Region} {task i n v : Nat} {op op' : Op} {mapped : Nat → Bool}

/-- A step of an operation inside its range. -/
theorem Inv.work (h : s.Inv) (hop : s.ops task = some op) (hmaking : Region.making op' = Region.making op)
    (hclaim : claimRange op' = claimRange op) (hrange : op'.range = op.range) (hbounded : op'.Bounded)
    (houter : ∀ p, ¬(op.range.1 < p ∧ p + 1 < op.range.1 + op.range.2) → mapped p = true → s.mapped p = true)
    (hother : ∀ p, ¬InRange op.range p → mapped p = true → s.mapped p = true)
    (hwindow : ∀ p, InRange op'.range p → mapped p = true → op'.window.1 ≤ p ∧ p < op'.window.2) :
    Inv { s with ops := update s.ops task (some op'), mapped := mapped } := by
  have hheld : heldBy s.st.entries (update s.ops task (some op')) = s.held :=
    heldBy_op_same (by rw [hop, Option.bind_some, Option.bind_some, hclaim])
  have hcases : ∀ t o, update s.ops task (some op') t = some o →
      (t = task ∧ o = op') ∨ (t ≠ task ∧ s.ops t = some o) := by
    intro t o ho
    by_cases ht : t = task
    · subst ht
      rw [update_self, Option.some.injEq] at ho
      exact .inl ⟨rfl, ho.symm⟩
    · exact .inr ⟨ht, (update_of_ne ht _ _).symm.trans ho⟩
  -- an operation after the step is making what one before it was making
  have hback : ∀ t o i e, update s.ops task (some op') t = some o → Region.making o = some (i, e) →
      ∃ o', s.ops t = some o' ∧ Region.making o' = some (i, e) := by
    intro t o i e ho hm
    obtain ⟨rfl, rfl⟩ | ⟨-, ho⟩ := hcases t o ho
    · exact ⟨op, hop, hmaking ▸ hm⟩
    · exact ⟨o, ho, hm⟩
  refine ⟨h.words, ?_, h.inactive, ?_, ?_, ?_, ?_, ?_, h.count, h.ledger⟩
  · show Exact (heldBy s.st.entries (update s.ops task (some op'))) _ _
    rw [hheld]
    exact h.exact
  · intro t o i e ho hm
    obtain ⟨o', ho', hm'⟩ := hback t o i e ho hm
    exact h.making t o' i e ho' hm'
  · intro t t' o o' i e e' ho ho' hm hm'
    obtain ⟨q, hq, hqm⟩ := hback t o i e ho hm
    obtain ⟨q', hq', hqm'⟩ := hback t' o' i e' ho' hm'
    exact h.alone t t' q q' i e e' hq hq' hqm hqm'
  · intro t o ho
    obtain ⟨rfl, rfl⟩ | ⟨-, ho⟩ := hcases t o ho
    · exact hbounded
    · exact h.bounded t o ho
  · intro p hp
    show ∃ g r, heldBy s.st.entries (update s.ops task (some op')) g = some r ∧ _
    rw [hheld]
    by_cases hin : op.range.1 < p ∧ p + 1 < op.range.1 + op.range.2
    · exact ⟨_, _, h.held_op hop, hin⟩
    · exact h.data p (houter p hin hp)
  · intro t o ho p hin hp
    obtain ⟨rfl, rfl⟩ | ⟨ht, ho⟩ := hcases t o ho
    · exact hwindow p hin hp
    · exact h.window t o ho p hin (hother p (h.apart hop ho ht hin) hp)

/-- The operations of the other tasks. -/
theorem other_ops {ops : Nat → Option Op} {t : Nat} {o : Op} (ho : update ops task none t = some o) :
    t ≠ task ∧ ops t = some o := by
  by_cases ht : t = task
  · subst ht
    rw [update_self] at ho
    cases ho
  · exact ⟨ht, (update_of_ne ht _ _).symm.trans ho⟩

/-- A `vmalloc` returns. -/
theorem Inv.finish (h : s.Inv) (hop : s.ops task = some op) (hclaim : claimRange op = none) :
    Inv { s with ops := update s.ops task none } := by
  have hheld : heldBy s.st.entries (update s.ops task none) = s.held :=
    heldBy_op_same (by rw [hop, Option.bind_some, hclaim]; rfl)
  refine ⟨h.words, ?_, h.inactive, ?_, ?_, ?_, ?_, ?_, h.count, h.ledger⟩
  · show Exact (heldBy s.st.entries (update s.ops task none)) _ _
    rw [hheld]
    exact h.exact
  · exact fun t o i e ho => h.making t o i e (other_ops ho).2
  · exact fun t t' o o' i e e' ho ho' => h.alone t t' o o' i e e' (other_ops ho).2 (other_ops ho').2
  · exact fun t o ho => h.bounded t o (other_ops ho).2
  · intro p hp
    show ∃ g r, heldBy s.st.entries (update s.ops task none) g = some r ∧ _
    rw [hheld]
    exact h.data p hp
  · exact fun t o ho => h.window t o (other_ops ho).2

end Work

/-! ## The sections -/

section Sections

variable {s : Region} {task i n v runStart done : Nat} {op op' : Op} {e e' : VmallocEntry}

theorem making_active (h : making op = some (i, e)) : e.active = true := by
  cases op <;> cases h <;> rfl

theorem bump_apply (f : Nat → Nat) (i v : Nat) : bump f i v = f v + (decide (v = i)).toNat := by
  by_cases hv : v = i
  · rw [hv, bump, update_self, decide_eq_true rfl]
    rfl
  · rw [bump, update_of_ne hv, decide_eq_false hv]
    rfl

/-- An inactive entry is filled. -/
theorem live_fill {entries : List VmallocEntry} (hi : entries[i]? = some e) (he : e.active = false)
    (he' : e'.active = true) (v : Nat) :
    live (entries.set i e') v = (live entries v || decide (v = e'.vaddr)) := by
  obtain ⟨hlt, -⟩ := List.getElem?_eq_some_iff.mp hi
  rw [Bool.eq_iff_iff, Bool.or_eq_true, decide_eq_true_eq, live_iff, live_iff]
  constructor
  · rintro ⟨j, x, hj, hx, hv⟩
    by_cases hji : j = i
    · rw [hji, List.getElem?_set_self hlt, Option.some.injEq] at hj
      exact .inr (hj ▸ hv.symm)
    · rw [List.getElem?_set_ne (fun heq => hji heq.symm)] at hj
      exact .inl ⟨j, x, hj, hx, hv⟩
  · rintro (⟨j, x, hj, hx, hv⟩ | hv)
    · have hji : j ≠ i := by
        rintro rfl
        rw [hi, Option.some.injEq] at hj
        rw [← hj, he] at hx
        cases hx
      exact ⟨j, x, (List.getElem?_set_ne (fun heq => hji heq.symm)).trans hj, hx, hv⟩
    · exact ⟨i, e', List.getElem?_set_self hlt, he', hv.symm⟩

/-- The active entry of an address is emptied. -/
theorem live_empty {entries : List VmallocEntry} (hi : entries[i]? = some e) (he : e.active = true)
    (hunique : ∀ j e', entries[j]? = some e' → e'.active = true → e'.vaddr = e.vaddr → j = i) (v : Nat) :
    live entries v = (live (entries.set i .empty) v || decide (v = e.vaddr)) ∧
      (v = e.vaddr → live (entries.set i .empty) v = false) := by
  obtain ⟨hlt, -⟩ := List.getElem?_eq_some_iff.mp hi
  have hset : live (entries.set i .empty) v = true ↔
      ∃ (j : Nat) (x : VmallocEntry), j ≠ i ∧ entries[j]? = some x ∧ x.active = true ∧ x.vaddr = v := by
    rw [live_iff]
    constructor
    · rintro ⟨j, x, hj, hx, hv⟩
      have hji : j ≠ i := by
        rintro rfl
        rw [List.getElem?_set_self hlt, Option.some.injEq] at hj
        rw [← hj] at hx
        cases hx
      exact ⟨j, x, hji, (List.getElem?_set_ne (fun heq => hji heq.symm)).symm.trans hj, hx, hv⟩
    · rintro ⟨j, x, hji, hj, hx, hv⟩
      exact ⟨j, x, (List.getElem?_set_ne (fun heq => hji heq.symm)).trans hj, hx, hv⟩
  refine ⟨?_, fun hv => Bool.eq_false_iff.mpr fun hlive => ?_⟩
  · rw [Bool.eq_iff_iff, Bool.or_eq_true, decide_eq_true_eq, live_iff, hset]
    constructor
    · rintro ⟨j, x, hj, hx, hv⟩
      by_cases hji : j = i
      · rw [hji, hi, Option.some.injEq] at hj
        exact .inr (hj ▸ hv.symm)
      · exact .inl ⟨j, x, hji, hj, hx, hv⟩
    · rintro (⟨j, x, -, hj, hx, hv⟩ | hv)
      · exact ⟨j, x, hj, hx, hv⟩
      · exact ⟨i, e, hi, he, hv.symm⟩
  · obtain ⟨j, x, hji, hj, hx, hxv⟩ := hset.mp hlive
    exact hji (hunique j x hj hx (hxv.trans hv))

theorem mem_set_cases {entries : List VmallocEntry} {x : VmallocEntry} (h : x ∈ entries.set i e) :
    x ∈ entries ∨ x = e := List.mem_or_eq_of_mem_set h

/-- A `vmalloc` reserves its range. -/
theorem Inv.reserved (h : s.Inv) (hidle : s.ops task = none) (hi : s.st.entries[i]? = some e)
    (he : e.active = false) (hrun : FreeRun s.st.bitmap (n + 2) runStart) :
    Inv { s with
      st :=
        { bitmap := setBits s.st.bitmap runStart (n + 2) true
          entries := s.st.entries.set i ⟨vaddrOf runStart, n, true⟩
          activeCount := s.st.activeCount + 1 }
      ops := update s.ops task (some (.mapping i runStart n 0))
      reserved := bump s.reserved (vaddrOf runStart) } := by
  obtain ⟨hlt, -⟩ := List.getElem?_eq_some_iff.mp hi
  have hheld : heldBy (s.st.entries.set i ⟨vaddrOf runStart, n, true⟩)
      (update s.ops task (some (.mapping i runStart n 0)))
      = update s.held (.inl i) (some (runStart, n + 2)) := by
    rw [heldBy_op_same (by rw [hidle]; rfl), heldBy_set hlt, entryRange, if_pos rfl, firstPage_vaddrOf]
    rfl
  have hnone : s.held (.inl i) = none := by
    rw [held, heldBy, hi, Option.bind_some, entryRange, he]
    rfl
  have hclear : ∀ p, InRange (runStart, n + 2) p → bit s.st.bitmap p = false := fun p hp => hrun.2 p hp.1 hp.2
  have hmiss : ∀ g r p, s.held g = some r → InRange r p → ¬InRange (runStart, n + 2) p := by
    intro g r p hr hp hin
    have hused := h.exact.used_of hr hp
    rw [hclear p hin] at hused
    cases hused
  have hmaking : ∀ t o j x, s.ops t = some o → Region.making o = some (j, x) → j ≠ i := by
    rintro t o j x ho hm rfl
    have hj := h.making t o j x ho hm
    rw [hi, Option.some.injEq] at hj
    have hactive := making_active hm
    rw [← hj, he] at hactive
    cases hactive
  have hcases : ∀ t o, update s.ops task (some (.mapping i runStart n 0)) t = some o →
      (t = task ∧ o = .mapping i runStart n 0) ∨ (t ≠ task ∧ s.ops t = some o) := by
    intro t o ho
    by_cases ht : t = task
    · subst ht
      rw [update_self, Option.some.injEq] at ho
      exact .inl ⟨rfl, ho.symm⟩
    · exact .inr ⟨ht, (update_of_ne ht _ _).symm.trans ho⟩
  refine ⟨?_, ?_, ?_, ?_, ?_, ?_, ?_, ?_, ?_, ?_⟩
  · exact length_setBits.trans h.words
  · show Exact (heldBy _ _) _ _
    rw [hheld]
    refine h.exact.reserve hnone hclear (Nat.succ_pos _) (h.pages ▸ hrun.1) fun p hp => ?_
    exact bit_setBits h.fits (h.pages ▸ hp)
  · intro x hx hinactive
    obtain hx | rfl := mem_set_cases hx
    · exact h.inactive x hx hinactive
    · cases hinactive
  · intro t o j x ho hm
    obtain ⟨-, rfl⟩ | ⟨-, ho⟩ := hcases t o ho
    · cases hm
      exact List.getElem?_set_self hlt
    · have hji := hmaking t o j x ho hm
      exact (List.getElem?_set_ne (fun heq => hji heq.symm)).trans (h.making t o j x ho hm)
  · intro t t' o o' j x x' ho ho' hm hm'
    obtain ⟨rfl, rfl⟩ | ⟨-, hold⟩ := hcases t o ho
    · obtain ⟨rfl, -⟩ | ⟨-, hold'⟩ := hcases t' o' ho'
      · rfl
      · cases hm
        exact absurd rfl (hmaking t' o' _ _ hold' hm')
    · obtain ⟨rfl, rfl⟩ | ⟨-, hold'⟩ := hcases t' o' ho'
      · cases hm'
        exact absurd rfl (hmaking t o _ _ hold hm)
      · exact h.alone t t' o o' j x x' hold hold' hm hm'
  · intro t o ho
    obtain ⟨-, rfl⟩ | ⟨-, ho⟩ := hcases t o ho
    · exact Nat.zero_le _
    · exact h.bounded t o ho
  · intro p hp
    obtain ⟨g, r, hr, hin⟩ := h.data p hp
    have hg : g ≠ .inl i := by
      rintro rfl
      rw [hnone] at hr
      cases hr
    show ∃ g r, heldBy _ _ g = some r ∧ _
    rw [hheld]
    exact ⟨g, r, (update_of_ne hg _ _).trans hr, hin⟩
  · intro t o ho p hin hp
    obtain ⟨-, rfl⟩ | ⟨-, ho⟩ := hcases t o ho
    · obtain ⟨g, r, hr, hlo, hhi⟩ := h.data p hp
      exact absurd hin (hmiss g r p hr ⟨Nat.le_of_lt hlo, by omega⟩)
    · exact h.window t o ho p hin hp
  · have hcount := Foundation.Slots.countP_set VmallocEntry.active ⟨vaddrOf runStart, n, true⟩ hi
    rw [he] at hcount
    show s.st.activeCount + 1 = _
    rw [h.count]
    simpa using hcount.symm
  · intro v
    show bump s.reserved (vaddrOf runStart) v = s.freed v + s.failed v + (live (s.st.entries.set i _) v).toNat
    rw [bump_apply, h.ledger v, live_fill hi he rfl]
    by_cases hv : v = vaddrOf runStart
    · have hdead : live s.st.entries v = false := by
        refine Bool.eq_false_iff.mpr fun hlive => ?_
        obtain ⟨j, x, hj, hx, hxv⟩ := live_iff.mp hlive
        have hrange := held_inl hj hx
        rw [hxv, hv, firstPage_vaddrOf] at hrange
        exact hmiss _ _ runStart hrange ⟨Nat.le_refl _, by omega⟩ ⟨Nat.le_refl _, by omega⟩
      rw [hdead, decide_eq_true hv]
      rfl
    · rw [decide_eq_false hv, Bool.or_false]
      rfl

/-- An entry is emptied. -/
theorem Inv.count_empty (h : s.Inv) (hi : s.st.entries[i]? = some e) (he : e.active = true) :
    s.st.activeCount - 1 = (s.st.entries.set i .empty).countP VmallocEntry.active := by
  have hcount := Foundation.Slots.countP_set VmallocEntry.active .empty hi
  rw [he] at hcount
  rw [h.count]
  have hfalse : VmallocEntry.empty.active.toNat = 0 := rfl
  have htrue : true.toNat = 1 := rfl
  omega

theorem Inv.inactive_empty (h : s.Inv) : ∀ x ∈ s.st.entries.set i .empty, x.active = false → x = .empty := by
  intro x hx hinactive
  obtain hx | rfl := mem_set_cases hx
  · exact h.inactive x hx hinactive
  · rfl

/-- The only active entry at its address. -/
theorem Inv.only (h : s.Inv) (hi : s.st.entries[i]? = some e) (he : e.active = true) :
    ∀ j e', s.st.entries[j]? = some e' → e'.active = true → e'.vaddr = e.vaddr → j = i :=
  fun _ _ hj he' hv => h.unique hj he' hi he hv

/-- A failed `vmalloc` takes back its range. -/
theorem Inv.undone (h : s.Inv) (hop : s.ops task = some (.undoing i runStart n done done)) :
    s.st.rollback runStart n =
        { bitmap := setBits s.st.bitmap runStart (n + 2) false
          entries := s.st.entries.set i .empty
          activeCount := s.st.activeCount - 1 } ∧
      Inv { s with
        st := s.st.rollback runStart n
        ops := update s.ops task none
        failed := bump s.failed (vaddrOf runStart) } := by
  have hi := h.making task _ _ _ hop rfl
  obtain ⟨hlt, -⟩ := List.getElem?_eq_some_iff.mp hi
  have hrollback : s.st.rollback runStart n =
      { bitmap := setBits s.st.bitmap runStart (n + 2) false
        entries := s.st.entries.set i .empty
        activeCount := s.st.activeCount - 1 } := by
    obtain ⟨-, hdead⟩ | ⟨j, x, hj, hx, hv, htake⟩ := s.st.takeEntry_cases (vaddrOf runStart)
    · rw [live_iff.mpr ⟨i, _, hi, rfl, rfl⟩] at hdead
      cases hdead
    · obtain rfl := h.unique hj hx hi rfl hv
      rw [VmallocState.rollback, htake]
      rfl
  refine ⟨hrollback, ?_⟩
  rw [hrollback]
  have hheld : heldBy (s.st.entries.set i .empty) (update s.ops task none)
      = update s.held (.inl i) none := by
    rw [heldBy_op_same (by rw [hop]; rfl), heldBy_set hlt]
    rfl
  have hrange : s.held (.inl i) = some (runStart, n + 2) := h.held_op hop
  have hji : ∀ t o j x, t ≠ task → s.ops t = some o → Region.making o = some (j, x) → j ≠ i := by
    rintro t o j x ht ho hm rfl
    exact ht (h.alone t task o _ j x _ ho hop hm rfl)
  refine ⟨length_setBits.trans h.words, ?_, h.inactive_empty, ?_, ?_, ?_, ?_, ?_, h.count_empty hi rfl, ?_⟩
  · show Exact (heldBy _ _) _ _
    rw [hheld]
    exact h.exact.release hrange fun p hp => bit_setBits h.fits (h.pages ▸ hp)
  · intro t o j x ho hm
    obtain ⟨ht, ho⟩ := other_ops ho
    exact (List.getElem?_set_ne (fun heq => hji t o j x ht ho hm heq.symm)).trans (h.making t o j x ho hm)
  · exact fun t t' o o' j x x' ho ho' => h.alone t t' o o' j x x' (other_ops ho).2 (other_ops ho').2
  · exact fun t o ho => h.bounded t o (other_ops ho).2
  · intro p hp
    obtain ⟨g, r, hr, hin⟩ := h.data p hp
    have hg : g ≠ .inl i := by
      rintro rfl
      rw [hrange, Option.some.injEq] at hr
      subst hr
      have hwindow := h.window task _ hop p ⟨Nat.le_of_lt hin.1, Nat.lt_of_succ_lt hin.2⟩ hp
      exact absurd hwindow.2 (Nat.not_lt.mpr hwindow.1)
    show ∃ g r, heldBy _ _ g = some r ∧ _
    rw [hheld]
    exact ⟨g, r, (update_of_ne hg _ _).trans hr, hin⟩
  · exact fun t o ho => h.window t o (other_ops ho).2
  · intro v
    obtain ⟨hlive, hdead⟩ := live_empty hi rfl (h.only hi rfl) v
    show s.reserved v = s.freed v + bump s.failed (vaddrOf runStart) v + (live (s.st.entries.set i .empty) v).toNat
    rw [bump_apply, h.ledger v, hlive]
    dsimp only at hdead ⊢
    by_cases hv : v = vaddrOf runStart
    · rw [hdead hv, decide_eq_true hv]
      rfl
    · rw [decide_eq_false hv, Bool.or_false]
      rfl

/-- A `vfree` claims an entry: the range is handed over. -/
theorem Inv.claimed (h : s.Inv) (hidle : s.ops task = none) (hi : s.st.entries[i]? = some e)
    (he : e.active = true)
    (hsettled : ∀ t o j x, s.ops t = some o → Region.making o = some (j, x) → x.vaddr ≠ e.vaddr) :
    Inv { s with
      st := { s.st with entries := s.st.entries.set i .empty, activeCount := s.st.activeCount - 1 }
      ops := update s.ops task (some (.unmapping e.vaddr e.pageCount 0))
      freed := bump s.freed e.vaddr } := by
  obtain ⟨hlt, -⟩ := List.getElem?_eq_some_iff.mp hi
  have hheld : heldBy (s.st.entries.set i .empty)
      (update s.ops task (some (.unmapping e.vaddr e.pageCount 0)))
      = update (update s.held (.inl i) none) (.inr task)
        (some (firstPage e.vaddr, e.pageCount + 2)) := by
    rw [heldBy_op, heldBy_set hlt]
    rfl
  have hrange := held_inl hi he
  have hnone : s.held (.inr task) = none := by
    rw [held, heldBy, hidle]
    rfl
  have hcases : ∀ t o, update s.ops task (some (.unmapping e.vaddr e.pageCount 0)) t = some o →
      (t = task ∧ o = .unmapping e.vaddr e.pageCount 0) ∨ (t ≠ task ∧ s.ops t = some o) := by
    intro t o ho
    by_cases ht : t = task
    · subst ht
      rw [update_self, Option.some.injEq] at ho
      exact .inl ⟨rfl, ho.symm⟩
    · exact .inr ⟨ht, (update_of_ne ht _ _).symm.trans ho⟩
  have hmade : ∀ t o j x, update s.ops task (some (.unmapping e.vaddr e.pageCount 0)) t = some o →
      Region.making o = some (j, x) → s.ops t = some o := by
    intro t o j x ho hm
    obtain ⟨-, rfl⟩ | ⟨-, ho⟩ := hcases t o ho
    · cases hm
    · exact ho
  refine ⟨h.words, ?_, h.inactive_empty, ?_, ?_, ?_, ?_, ?_, h.count_empty hi he, ?_⟩
  · show Exact (heldBy _ _) _ _
    rw [hheld]
    exact h.exact.handOver hrange hnone
  · intro t o j x ho hm
    have ho := hmade t o j x ho hm
    have hj := h.making t o j x ho hm
    refine (List.getElem?_set_ne ?_).trans hj
    rintro rfl
    rw [hi, Option.some.injEq] at hj
    exact hsettled t o i x ho hm (hj ▸ rfl)
  · exact fun t t' o o' j x x' ho ho' hm hm' =>
      h.alone t t' o o' j x x' (hmade t o j x ho hm) (hmade t' o' j x' ho' hm') hm hm'
  · intro t o ho
    obtain ⟨-, rfl⟩ | ⟨-, ho⟩ := hcases t o ho
    · exact Nat.zero_le _
    · exact h.bounded t o ho
  · intro p hp
    obtain ⟨g, r, hr, hin⟩ := h.data p hp
    show ∃ g r, heldBy _ _ g = some r ∧ _
    rw [hheld]
    by_cases hg : g = .inl i
    · rw [hg, hrange, Option.some.injEq] at hr
      subst hr
      exact ⟨_, _, update_self _ _ _, hin⟩
    · have hg' : g ≠ .inr task := by
        rintro rfl
        rw [hnone] at hr
        cases hr
      exact ⟨g, r, (update_of_ne hg' _ _).trans ((update_of_ne hg _ _).trans hr), hin⟩
  · intro t o ho p hin hp
    obtain ⟨-, rfl⟩ | ⟨-, ho⟩ := hcases t o ho
    · obtain ⟨g, r, hr, hlo, hhi⟩ := h.data p hp
      obtain rfl := h.exact.disjoint g _ r _ p hr hrange ⟨Nat.le_of_lt hlo, Nat.lt_of_succ_lt hhi⟩ hin
      rw [hrange, Option.some.injEq] at hr
      subst hr
      dsimp only [Op.window] at hlo hhi ⊢
      omega
    · exact h.window t o ho p hin hp
  · intro v
    obtain ⟨hlive, hdead⟩ := live_empty hi he (h.only hi he) v
    show s.reserved v = bump s.freed e.vaddr v + s.failed v + (live (s.st.entries.set i .empty) v).toNat
    rw [bump_apply, h.ledger v, hlive]
    by_cases hv : v = e.vaddr
    · rw [hdead hv, decide_eq_true hv, Bool.false_or]
      have htrue : true.toNat = 1 := rfl
      have hfalse : false.toNat = 0 := rfl
      omega
    · rw [decide_eq_false hv, Bool.or_false]
      rfl

/-- A range without mapped pages is returned. -/
theorem Inv.returned {lo : Nat} (h : s.Inv) (hrange : s.held (.inr task) = some (lo, n + 2))
    (hunmapped : ∀ p, InRange (lo, n + 2) p → s.mapped p = false) :
    Inv { s with
      st := { s.st with bitmap := setBits s.st.bitmap lo (n + 2) false }
      ops := update s.ops task none } := by
  have hheld : heldBy s.st.entries (update s.ops task none)
      = update s.held (.inr task) none := heldBy_op none
  refine ⟨length_setBits.trans h.words, ?_, h.inactive, ?_, ?_, ?_, ?_, ?_, h.count, h.ledger⟩
  · show Exact (heldBy _ _) _ _
    rw [hheld]
    exact h.exact.release hrange fun p hp => bit_setBits h.fits (h.pages ▸ hp)
  · exact fun t o j x ho => h.making t o j x (other_ops ho).2
  · exact fun t t' o o' j x x' ho ho' => h.alone t t' o o' j x x' (other_ops ho).2 (other_ops ho').2
  · exact fun t o ho => h.bounded t o (other_ops ho).2
  · intro p hp
    obtain ⟨g, r, hr, hin⟩ := h.data p hp
    have hg : g ≠ .inr task := by
      rintro rfl
      rw [hrange, Option.some.injEq] at hr
      subst hr
      rw [hunmapped p ⟨Nat.le_of_lt hin.1, Nat.lt_of_succ_lt hin.2⟩] at hp
      cases hp
    show ∃ g r, heldBy s.st.entries (update s.ops task none) g = some r ∧ _
    rw [hheld]
    exact ⟨g, r, (update_of_ne hg _ _).trans hr, hin⟩
  · exact fun t o ho => h.window t o (other_ops ho).2

/-- A `vfree` that has unmapped its pages returns its range. -/
theorem Inv.freed (h : s.Inv) (hop : s.ops task = some (.unmapping v n n)) :
    Inv { s with st := s.st.vfreeEnd v n, ops := update s.ops task none } := by
  have hwindow := h.window task _ hop
  have hrange := h.held_op hop
  rw [VmallocState.vfreeEnd, VmallocState.markFree]
  rw [Op.range] at hrange hwindow
  rw [Op.window] at hwindow
  rw [Op.holder] at hrange
  generalize firstPage v = lo at hrange hwindow ⊢
  refine h.returned hrange fun p hp => Bool.eq_false_iff.mpr fun hmapped => ?_
  obtain ⟨hlo, hhi⟩ := hwindow p hp hmapped
  exact absurd hhi (Nat.not_lt.mpr hlo)

end Sections

/-! ## Runs -/

theorem Inv.start {s : Region} (h : s.Start) : s.Inv := by
  obtain ⟨hst, hops, hmapped, hcounts⟩ := h
  have hactive : ∀ e ∈ s.st.entries, e.active = false := by
    rw [hst]
    intro e he
    rw [List.eq_of_mem_replicate he]
    rfl
  have hheld : ∀ g, s.held g = none := by
    intro g
    cases g with
    | inl i =>
      rw [held, heldBy]
      cases hi : s.st.entries[i]? with
      | none => rfl
      | some e =>
        rw [Option.bind_some, entryRange, hactive e (List.mem_of_getElem? hi)]
        rfl
    | inr task =>
      rw [held, heldBy, hops]
      rfl
  have hwords : s.st.bitmap.length = bitmapWords := by
    rw [hst]
    exact List.length_replicate
  refine ⟨hwords, .start hheld fun p hp => ?_, fun e he _ => ?_, ?_, ?_, ?_, ?_, ?_, ?_, ?_⟩
  · have hlt : p / 64 < (List.replicate bitmapWords 0#64).length := by
      rw [List.length_replicate]
      have hpages : vmallocMaxPages = bitmapWords * 64 := by decide
      omega
    rw [hst, VmallocState.new, bit, wordAt, List.getD_eq_getElem _ _ hlt, List.getElem_replicate,
      BitVec.getLsbD_zero]
  · rw [hst] at he
    exact List.eq_of_mem_replicate he
  · intro task op i e hop
    rw [hops] at hop
    cases hop
  · intro t t' op op' i e e' hop
    rw [hops] at hop
    cases hop
  · intro task op hop
    rw [hops] at hop
    cases hop
  · intro p hp
    rw [hmapped] at hp
    cases hp
  · intro task op hop
    rw [hops] at hop
    cases hop
  · rw [List.countP_eq_zero.mpr fun e he => by rw [hactive e he]; exact Bool.false_ne_true, hst]
    rfl
  · intro v
    have hdead : live s.st.entries v = false := by
      rw [live, List.any_eq_false]
      intro e he
      rw [hactive e he]
      exact Bool.false_ne_true
    obtain ⟨hr, hf, hx⟩ := hcounts v
    rw [hr, hf, hx, hdead]
    rfl

/-- **Every step keeps the invariant.** -/
theorem Inv.step {s s' : Region} (h : s.Inv) {a : Act} (hok : s.Permitted a) (hs : s.step a = some s') : s'.Inv := by
  cases a with
  | vmalloc task size pml4 =>
    simp only [Region.step] at hs
    split at hs
    · cases hs
    · next hidle =>
        rw [Option.not_isSome_iff_eq_none] at hidle
        obtain ⟨err, herr⟩ | ⟨i, e, runStart, n, -, hi, he, hrun, hbegin⟩ :=
          s.st.vmallocBegin_cases h.fits size pml4
        · rw [herr] at hs
          cases hs
          exact h
        · rw [hbegin] at hs
          cases hs
          exact h.reserved hidle hi he hrun
  | map task =>
    simp only [Region.step] at hs
    split at hs
    · next i runStart n done hop =>
        rw [Option.ite_none_right_eq_some, Option.some.injEq] at hs
        obtain ⟨hlt, rfl⟩ := hs
        have hpage : ∀ p, update s.mapped (runStart + 1 + done) true p = true →
            p = runStart + 1 + done ∨ s.mapped p = true := by
          intro p hp
          by_cases heq : p = runStart + 1 + done
          · exact .inl heq
          · exact .inr ((update_of_ne heq _ _).symm.trans hp)
        refine h.work hop rfl rfl rfl hlt (fun p hin hp => ?_) (fun p hin hp => ?_) fun p hin hp => ?_
        · refine (hpage p hp).resolve_left fun heq => hin ?_
          dsimp only [Op.range]
          omega
        · refine (hpage p hp).resolve_left fun heq => hin ?_
          dsimp only [Op.range, InRange]
          omega
        · dsimp only [Op.window]
          obtain rfl | hp := hpage p hp
          · omega
          · have hwindow := h.window task _ hop p hin hp
            dsimp only [Op.window] at hwindow
            omega
    · cases hs
  | finish task =>
    simp only [Region.step] at hs
    split at hs
    · next i runStart n done hop =>
        rw [Option.ite_none_right_eq_some, Option.some.injEq] at hs
        obtain ⟨-, rfl⟩ := hs
        exact h.finish hop rfl
    · cases hs
  | fault task =>
    simp only [Region.step] at hs
    split at hs
    · next i runStart n done hop =>
        rw [Option.ite_none_right_eq_some, Option.some.injEq] at hs
        obtain ⟨hlt, rfl⟩ := hs
        refine h.work hop rfl rfl rfl ⟨Nat.zero_le _, Nat.le_of_lt hlt⟩ (fun p _ hp => hp)
          (fun p _ hp => hp) fun p hin hp => h.window task _ hop p hin hp
    · cases hs
  | unmap task =>
    have hgone : ∀ q p, update s.mapped q false p = true → p ≠ q ∧ s.mapped p = true := by
      intro q p hp
      by_cases heq : p = q
      · subst heq
        rw [update_self] at hp
        cases hp
      · exact ⟨heq, (update_of_ne heq _ _).symm.trans hp⟩
    simp only [Region.step] at hs
    split at hs
    · next i runStart n mapped done hop =>
        rw [Option.ite_none_right_eq_some, Option.some.injEq] at hs
        obtain ⟨hlt, rfl⟩ := hs
        refine h.work hop rfl rfl rfl ⟨hlt, (h.bounded task _ hop).2⟩ (fun p _ hp => (hgone _ p hp).2)
          (fun p _ hp => (hgone _ p hp).2) fun p hin hp => ?_
        obtain ⟨hne, hp⟩ := hgone _ p hp
        have hwindow := h.window task _ hop p hin hp
        dsimp only [Op.window] at hwindow ⊢
        omega
    · next vaddr n done hop =>
        rw [Option.ite_none_right_eq_some, Option.some.injEq] at hs
        obtain ⟨hlt, rfl⟩ := hs
        refine h.work hop rfl rfl rfl hlt (fun p _ hp => (hgone _ p hp).2)
          (fun p _ hp => (hgone _ p hp).2) fun p hin hp => ?_
        obtain ⟨hne, hp⟩ := hgone _ p hp
        have hwindow := h.window task _ hop p hin hp
        rw [Op.window] at hwindow ⊢
        generalize firstPage vaddr = lo at hne hwindow
        dsimp only at hwindow ⊢
        omega
    · cases hs
  | rollback task =>
    simp only [Region.step] at hs
    split at hs
    · next i runStart n mapped done hop =>
        rw [Option.ite_none_right_eq_some, Option.some.injEq] at hs
        obtain ⟨rfl, rfl⟩ := hs
        exact (h.undone hop).2
    · cases hs
  | vfree task vaddr pml4 =>
    simp only [Region.step] at hs
    split at hs
    · cases hs
    · next hidle =>
        rw [Option.not_isSome_iff_eq_none] at hidle
        obtain ⟨err, herr⟩ | ⟨i, e, hi, he, rfl, hbegin⟩ := s.st.vfreeBegin_cases vaddr pml4
        · rw [herr] at hs
          cases hs
          exact h
        · rw [hbegin] at hs
          cases hs
          exact h.claimed hidle hi he hok
  | vfreed task =>
    simp only [Region.step] at hs
    split at hs
    · next vaddr n done hop =>
        rw [Option.ite_none_right_eq_some, Option.some.injEq] at hs
        obtain ⟨rfl, rfl⟩ := hs
        exact h.freed hop
    · cases hs

/-! ## What holds of the region -/

/-- The allocator without the reservation of an allocation. -/
def without (st : VmallocState) (entryIdx runStart pageCount : Nat) : VmallocState where
  bitmap := setBits st.bitmap runStart (pageCount + 2) false
  entries := st.entries.set entryIdx .empty
  activeCount := st.activeCount - 1

/-- What holds of every state. -/
structure Law (s : Region) : Prop where
  /-- A bit is set just where an active entry or an operation still unmapping it has its guarded range. -/
  bitmap : ∀ p < vmallocMaxPages, bit s.st.bitmap p = true ↔ ∃ h r, s.held h = some r ∧ InRange r p
  disjoint : ∀ h h' r r' p, s.held h = some r → s.held h' = some r' → InRange r p → InRange r' p → h = h'
  /-- The pages at both ends of a range are not mapped. -/
  guarded : ∀ h r, s.held h = some r → s.mapped r.1 = false ∧ s.mapped (r.1 + r.2 - 1) = false
  count : s.st.activeCount = s.st.entries.countP VmallocEntry.active
  /-- Of what was ever reserved at an address, all was freed once or taken back, but for the one that is live. -/
  once : ∀ v, s.reserved v = s.freed v + s.failed v + (live s.st.entries v).toNat
  /-- The reservation of an allocation that is being made stays as it was. -/
  pending : ∀ task op i e, s.ops task = some op → making op = some (i, e) → s.st.entries[i]? = some e

/-- What a step makes of the allocator. -/
def Outcome (s : Region) (s' : Region) : Act → Prop
  | .vmalloc _ size pml4 =>
    (∃ err, (s.st.vmallocBegin size pml4).1 = .error err ∧ s' = s) ∨
      ∃ i runStart n, (s.st.vmallocBegin size pml4).1 = .ok (i, runStart, n) ∧
        without s'.st i runStart n = s.st
  | .rollback task =>
    ∃ i runStart n mapped, s.ops task = some (.undoing i runStart n mapped mapped) ∧
      s'.st = without s.st i runStart n
  | .vfree _ vaddr pml4 =>
    (∃ err, (s.st.vfreeBegin vaddr pml4).1 = .error err ∧ s' = s) ∨
      ∃ n, (s.st.vfreeBegin vaddr pml4).1 = .ok n ∧ live s.st.entries vaddr = true ∧
        live s'.st.entries vaddr = false
  | .vfreed _ => s'.st.entries = s.st.entries
  | .map _ | .finish _ | .fault _ | .unmap _ => s'.st = s.st

theorem Inv.law {s : Region} (h : s.Inv) : s.Law where
  bitmap := h.exact.used_iff
  disjoint := h.exact.disjoint
  guarded g r hr := by
    have hpos := h.exact.nonempty g r hr
    -- a mapped page lies strictly inside a range, and in no other
    have hinner : ∀ p, InRange r p → s.mapped p = true → r.1 < p ∧ p + 1 < r.1 + r.2 := by
      intro p hp hmapped
      obtain ⟨g', r', hr', hlo, hhi⟩ := h.data p hmapped
      obtain rfl := h.exact.disjoint g' g r' r p hr' hr ⟨Nat.le_of_lt hlo, Nat.lt_of_succ_lt hhi⟩ hp
      rw [hr, Option.some.injEq] at hr'
      exact hr' ▸ ⟨hlo, hhi⟩
    refine ⟨Bool.eq_false_iff.mpr fun hm => ?_, Bool.eq_false_iff.mpr fun hm => ?_⟩
    · exact Nat.lt_irrefl _ (hinner r.1 ⟨Nat.le_refl _, by omega⟩ hm).1
    · have hinside := hinner (r.1 + r.2 - 1) ⟨by omega, by omega⟩ hm
      omega
  count := h.count
  once := h.ledger
  pending := h.making

theorem Inv.outcome {s s' : Region} (h : s.Inv) {a : Act} (hs : s.step a = some s') : s.Outcome s' a := by
  cases a with
  | vmalloc task size pml4 =>
    simp only [Region.step] at hs
    split at hs
    · cases hs
    · obtain ⟨err, herr⟩ | ⟨i, e, runStart, n, -, hi, he, hrun, hbegin⟩ :=
        s.st.vmallocBegin_cases h.fits size pml4
      · rw [herr] at hs
        cases hs
        exact .inl ⟨err, by rw [herr], rfl⟩
      · rw [hbegin] at hs
        cases hs
        refine .inr ⟨i, runStart, n, by rw [hbegin], ?_⟩
        obtain ⟨hlt, hget⟩ := List.getElem?_eq_some_iff.mp hi
        have hempty : s.st.entries.set i .empty = s.st.entries := by
          rw [← h.inactive e (List.mem_of_getElem? hi) he, ← hget]
          exact List.set_getElem_self hlt
        rw [without]
        dsimp only
        rw [setBits_undo h.fits hrun, List.set_set, hempty, Nat.add_sub_cancel]
  | rollback task =>
    simp only [Region.step] at hs
    split at hs
    · next i runStart n mapped done hop =>
        rw [Option.ite_none_right_eq_some, Option.some.injEq] at hs
        obtain ⟨rfl, rfl⟩ := hs
        exact ⟨i, runStart, n, done, hop, (h.undone hop).1⟩
    · cases hs
  | vfree task vaddr pml4 =>
    simp only [Region.step] at hs
    split at hs
    · cases hs
    · obtain ⟨err, herr⟩ | ⟨i, e, hi, he, rfl, hbegin⟩ := s.st.vfreeBegin_cases vaddr pml4
      · rw [herr] at hs
        cases hs
        exact .inl ⟨err, by rw [herr], rfl⟩
      · rw [hbegin] at hs
        cases hs
        refine .inr ⟨e.pageCount, by rw [hbegin], live_iff.mpr ⟨i, e, hi, he, rfl⟩, ?_⟩
        exact (live_empty hi he (h.only hi he) e.vaddr).2 rfl
  | vfreed task =>
    simp only [Region.step] at hs
    split at hs
    · rw [Option.ite_none_right_eq_some, Option.some.injEq] at hs
      obtain ⟨-, rfl⟩ := hs
      show (s.st.vfreeEnd _ _).entries = s.st.entries
      rw [VmallocState.vfreeEnd, VmallocState.markFree]
    · cases hs
  | map task | finish task | fault task =>
    simp only [Region.step] at hs
    split at hs
    · rw [Option.ite_none_right_eq_some, Option.some.injEq] at hs
      obtain ⟨-, rfl⟩ := hs
      rfl
    · cases hs
  | unmap task =>
    simp only [Region.step] at hs
    split at hs
    · rw [Option.ite_none_right_eq_some, Option.some.injEq] at hs
      obtain ⟨-, rfl⟩ := hs
      rfl
    · rw [Option.ite_none_right_eq_some, Option.some.injEq] at hs
      obtain ⟨-, rfl⟩ := hs
      rfl
    · cases hs

/-- **vmalloc ranges never collide.** The search finds the first run with its guards or there is none; and in every
state that `vmalloc` and `vfree` reach the ranges are disjoint and are what the bitmap says, and every step leaves
what it should. -/
theorem ranges_never_collide :
    (∀ (bitmap : Bitmap) (n : Nat), bitmap.length * 64 ≤ maxVal 64 → 0 < n →
      (∀ r, findFreeRun bitmap n = some r ↔ IsLeast {start | FreeRun bitmap (n + 2) start} r) ∧
        (findFreeRun bitmap n = none ↔ ∀ start, ¬FreeRun bitmap (n + 2) start)) ∧
      ∀ s : Region, ReachBy step Permitted Start s →
        s.Law ∧ ∀ a s', s.Permitted a → s.step a = some s' → s.Outcome s' a := by
  refine ⟨fun bitmap n hfit hpos => findFreeRun_spec hfit hpos, fun s hs => ?_⟩
  have h : s.Inv := hs.invariant (fun _ => Inv.start) fun _ _ _ hI hok hstep => hI.step hok hstep
  exact ⟨h.law, fun a s' _ hstep => h.outcome hstep⟩

end Region

end SlateOS.Mm.Vmalloc
