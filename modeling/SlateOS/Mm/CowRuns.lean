/-
# SlateOS.Mm.CowRuns -- the reference law over every run of breaks, forced writes and forks

A fork of one group counts each distinct frame once and maps the parts it gives, one after another, and
after each of them the law holds again. Two kinds of forks break it: the count of a frame saturates at
`u16::MAX`, and a page-table page that is not to be had leaves a frame counted and not mapped.
-/
import Mathlib.Order.Fin.Basic
import SlateOS.Foundation.Runs
import SlateOS.Mm.CowLaw

namespace SlateOS.Mm.Cow

open Kernel Foundation.Runs
open Function (update update_self update_of_ne)

theorem given_eq_some {m : CowState} {g : Group} {skip : Part → Bool} {i : Part}
    {pte : PageTableEntry} (h : given m g skip i = some pte) : m.entry g i = some pte := by
  unfold given at h
  split at h
  · cases h
  · exact (Option.filter_eq_some_iff.mp h).1

theorem given_congr {m m' : CowState} {g : Group} {skip : Part → Bool} {i : Part}
    (h : m'.entry g i = m.entry g i) : given m' g skip i = given m g skip i := by
  unfold given
  rw [h]

namespace PageTableEntry

variable (pte : PageTableEntry)

@[simp] theorem downgraded_frame : pte.downgraded.frame = pte.frame := by
  unfold downgraded
  split
  · rfl
  · split <;> rfl

@[simp] theorem downgraded_isShared : pte.downgraded.isShared = pte.isShared := by
  unfold downgraded
  split
  · rfl
  · split <;> rfl

/-- A downgraded entry of a private page is not writable. -/
theorem downgraded_writable (h : pte.downgraded.writable = true) :
    pte.isShared = true ∧ pte.writable = true := by
  unfold downgraded at h
  split at h
  next hs => exact ⟨hs, h⟩
  next hs =>
  split at h
  next => cases h
  next hw => exact absurd h hw

@[simp] theorem forChild_frame : pte.forChild.frame = pte.frame := by
  simp only [forChild]
  split
  · rfl
  · exact downgraded_frame pte

@[simp] theorem forChild_isShared : pte.forChild.isShared = pte.isShared := by
  simp only [forChild]
  split
  · rfl
  · exact downgraded_isShared pte

theorem forChild_writable (h : pte.forChild.writable = true) : pte.isShared = true := by
  simp only [forChild] at h
  split at h
  · cases h
  · exact (downgraded_writable pte h).1

end PageTableEntry

namespace CowState

variable {m m' : CowState} {g parent child : Group} {f t : Nat} {i : Part} {pte : PageTableEntry}

theorem writePte_self : (m.writePte g i pte).entry g i = some pte := by
  change update m.entry g (update (m.entry g) i (some pte)) g i = some pte
  rw [update_self, update_self]

theorem writePte_part {j : Part} (h : j ≠ i) : (m.writePte g i pte).entry g j = m.entry g j := by
  change update m.entry g (update (m.entry g) i (some pte)) g j = m.entry g j
  rw [update_self, update_of_ne h]

theorem writePte_group {g' : Group} (h : g' ≠ g) :
    (m.writePte g i pte).entry g' = m.entry g' :=
  update_of_ne h ..

/-- A write into an entry reads back there and nowhere else. -/
theorem writePte_cases {g' : Group} {j : Part} {q : PageTableEntry}
    (h : (m.writePte g i pte).entry g' j = some q) :
    (g' = g ∧ j = i ∧ q = pte) ∨ ((g' ≠ g ∨ j ≠ i) ∧ m.entry g' j = some q) := by
  by_cases hg : g' = g
  · subst hg
    by_cases hj : j = i
    · subst hj
      exact Or.inl ⟨rfl, rfl, Option.some.inj (h.symm.trans writePte_self)⟩
    · exact Or.inr ⟨Or.inr hj, (writePte_part hj).symm.trans h⟩
  · exact Or.inr ⟨Or.inl hg, (congrFun (writePte_group hg) j).symm.trans h⟩

/-- The parent's entry is downgraded. -/
theorem Inv.downgrade (h : Inv m) (hp : m.entry parent i = some pte) :
    Inv (m.writePte parent i pte.downgraded) := by
  refine h.retag rfl rfl rfl rfl rfl ?_ ?_
  · intro g j q hq
    obtain ⟨rfl, rfl, rfl⟩ | ⟨_, hold⟩ := writePte_cases hq
    · exact ⟨pte, hp, (pte.downgraded_frame).symm, (pte.downgraded_isShared).symm,
        fun hw => Or.inl (pte.downgraded_writable hw).2⟩
    · exact ⟨q, hold, rfl, rfl, Or.inl⟩
  · intro g j p hpj
    by_cases hgj : g = parent ∧ j = i
    · obtain ⟨rfl, rfl⟩ := hgj
      have hpp : p = pte := Option.some.inj (hpj.symm.trans hp)
      exact ⟨_, writePte_self, by rw [hpp, PageTableEntry.downgraded_frame]⟩
    · refine ⟨p, ?_, rfl⟩
      by_cases hg : g = parent
      · subst hg
        exact (writePte_part fun hj => hgj ⟨rfl, hj⟩).trans hpj
      · exact (congrFun (writePte_group hg) j).trans hpj

/-- The child gets a part of a frame, counted with the first one. -/
theorem Inv.share (h : Inv m) {q : PageTableEntry} (hp : m.entry parent i = some pte)
    (hro : pte.isShared = false → pte.writable = false) (hc : m.entry child i = none)
    (hqf : q.frame = pte.frame) (hqs : q.isShared = pte.isShared)
    (hqw : q.writable = true → pte.isShared = true)
    (hent : m'.entry = (m.writePte child i q).entry) (hmap : m'.mapped = insert child m.mapped)
    (hfree : m'.free = m.free) (hext : m'.external = m.external) (hplace : m'.place = m.place)
    (hkept : m.refers child pte.frame → m'.refcount = m.refcount)
    (hnew : ¬m.refers child pte.frame →
      m'.refcount = update m.refcount pte.frame (m.refcount pte.frame + 1)) :
    Inv m' := by
  have hheld : ∀ x, m'.held x ↔ m.held x := fun x => by
    unfold held
    rw [hplace]
  have hrefp := refers_of_entry hp
  have hother : ∀ x g', g' ≠ child →
      (g' ∈ m'.mapped ∧ m'.refers g' x ↔ g' ∈ m.mapped ∧ m.refers g' x) := by
    intro x g' hg'
    have hsame : m'.entry g' = m.entry g' := by
      rw [hent]
      exact writePte_group hg'
    rw [hmap, Finset.mem_insert, or_iff_right hg', refers_congr hsame]
  have hchild : ∀ x, m'.refers child x ↔ m.refers child x ∨ x = pte.frame := by
    intro x
    unfold refers
    rw [hent]
    constructor
    · rintro ⟨j, r, hr, rfl⟩
      obtain ⟨_, _, rfl⟩ | ⟨_, hold⟩ := writePte_cases hr
      · exact Or.inr hqf
      · exact Or.inl ⟨j, r, hold, rfl⟩
    · rintro (⟨j, r, hr, rfl⟩ | rfl)
      · have hj : j ≠ i := by
          rintro rfl
          rw [hc] at hr
          cases hr
        exact ⟨j, r, (writePte_part hj).trans hr, rfl⟩
      · exact ⟨i, q, writePte_self, hqf⟩
  have hchildmap : child ∈ m'.mapped := by
    rw [hmap]
    exact Finset.mem_insert_self ..
  have hsame : ∀ x, (m'.refers child x ↔ m.refers child x) → m'.pairs x = m.pairs x := by
    intro x hx
    refine pairs_congr fun g' => ?_
    by_cases hg' : g' = child
    · rw [hg', hx]
      exact ⟨fun hr => ⟨h.mem_mapped hr.2, hr.2⟩, fun hr => ⟨hchildmap, hr.2⟩⟩
    · exact hother x g' hg'
  have hpairs : ∀ x, x ≠ pte.frame → m'.pairs x = m.pairs x := fun x hx =>
    hsame x ((hchild x).trans (or_iff_left hx))
  have hrc : ∀ x, x ≠ pte.frame → m'.refcount x = m.refcount x := by
    intro x hx
    by_cases hk : m.refers child pte.frame
    · rw [hkept hk]
    · rw [hnew hk]
      exact update_of_ne hx ..
  have hframe : m'.refcount pte.frame = m'.pairs pte.frame + m.external pte.frame := by
    have hcount := h.law.counted pte.frame (h.not_held hrefp)
    by_cases hk : m.refers child pte.frame
    · rw [hkept hk, hsame pte.frame ⟨fun _ => hk, fun _ => (hchild _).mpr (Or.inr rfl)⟩]
      exact hcount
    · have hgain := pairs_gain ⟨hchildmap, (hchild pte.frame).mpr (Or.inr rfl)⟩ hk
        (hother pte.frame)
      rw [hnew hk, update_self]
      omega
  -- what stands at a part after the write
  have hof : ∀ g' j r, m'.entry g' j = some r →
      (g' = child ∧ j = i ∧ r = q) ∨ m.entry g' j = some r := by
    intro g' j r hr
    rw [hent] at hr
    exact (writePte_cases hr).imp_right And.right
  exact {
    law := {
      counted := by
        intro x hx
        rw [hext]
        by_cases hxf : x = pte.frame
        · rw [hxf]
          exact hframe
        · rw [hrc x hxf, hpairs x hxf]
          exact h.law.counted x (mt (hheld x).mpr hx)
      copies := by
        intro x hx
        have hh := (hheld x).mp hx
        have hxf : x ≠ pte.frame := fun heq => h.not_held hrefp (heq ▸ hh)
        rw [hrc x hxf, hpairs x hxf, hext]
        exact h.law.copies x hh }
    exclusive := by
      intro g₁ g₂ j r₁ r₂ hgg hr₁ hr₂ hframes hpriv
      by_contra hw
      have hw' : r₁.writable = true := Bool.not_eq_false _ ▸ hw
      obtain ⟨rfl, rfl, rfl⟩ | hold₁ := hof g₁ j r₁ hr₁
      · have hsh := hqs.trans (hqw hw')
        exact Bool.false_ne_true (hpriv.symm.trans hsh)
      · obtain ⟨rfl, rfl, rfl⟩ | hold₂ := hof g₂ j r₂ hr₂
        · by_cases hgp : g₁ = parent
          · subst hgp
            rw [Option.some.inj (hold₁.symm.trans hp)] at hpriv hw
            exact hw (hro hpriv)
          · exact hw (h.exclusive g₁ parent j r₁ pte hgp hold₁ hp (hframes.trans hqf) hpriv)
        · exact hw (h.exclusive g₁ g₂ j r₁ r₂ hgg hold₁ hold₂ hframes hpriv)
    designed := by
      intro g₁ g₂ j r₁ r₂ hr₁ hr₂ hframes
      obtain ⟨rfl, rfl, rfl⟩ | hold₁ := hof g₁ j r₁ hr₁
      · obtain ⟨_, _, rfl⟩ | hold₂ := hof g₂ j r₂ hr₂
        · rfl
        · exact hqs.trans (h.designed parent g₂ j pte r₂ hp hold₂ (hqf.symm.trans hframes))
      · obtain ⟨rfl, rfl, rfl⟩ | hold₂ := hof g₂ j r₂ hr₂
        · exact (h.designed g₁ parent j r₁ pte hold₁ hp (hframes.trans hqf)).trans hqs.symm
        · exact h.designed g₁ g₂ j r₁ r₂ hold₁ hold₂ hframes
    unmapped := by
      intro g' hg' j
      rw [hmap, Finset.mem_insert, not_or] at hg'
      rw [hent, writePte_group hg'.1]
      exact h.unmapped g' hg'.2 j
    apart := by
      rw [hplace]
      exact h.apart
    unused := by
      intro x hx
      rw [hfree] at hx
      have hzero := h.unused x hx
      have hxf : x ≠ pte.frame := by
        rintro rfl
        have hpos := h.refcount_pos hrefp
        omega
      rw [hrc x hxf]
      exact hzero }

end CowState

/-! ## The loop of a fork -/

/-- Every frame the fork counts has room for one more reference, and a page-table page is missing only
for a part whose frame is mapped in the child already. -/
structure Countable (m : CowState) (parent : Group) (skip : Part → Bool) (failAt : Option Part) :
    Prop where
  room : ∀ i pte, given m parent skip i = some pte → m.refcount pte.frame < refcountMax
  mapped : ∀ i pte, failAt = some i → given m parent skip i = some pte →
    ∃ j, j < i ∧ ∃ q, given m parent skip j = some q ∧ q.frame = pte.frame

/-- The loop has come to the parts `rest` of the group it started in `m₀` with. -/
structure CloneAt (m₀ : CowState) (parent child : Group) (skip : Part → Bool) (rest : List Part)
    (m : CowState) (seen : List Nat) : Prop where
  counted : ∀ f, f ∈ seen ↔ m.refers child f
  unmapped : ∀ j ∈ rest, m.entry child j = none
  untouched : ∀ j ∈ rest, m.entry parent j = m₀.entry parent j
  uncounted : ∀ f, f ∉ seen → m.refcount f = m₀.refcount f
  done : ∀ j, j ∉ rest → ∀ q, given m₀ parent skip j = some q → q.frame ∈ seen

variable {m₀ m m' : CowState} {parent child : Group} {skip : Part → Bool} {failAt : Option Part}
  {i : Part} {rest : List Part} {seen seen' : List Nat} {f : Nat}

/-- Counting a frame changes its count only, and only the first time. -/
structure CountedOnce (m m' : CowState) (seen seen' : List Nat) (f : Nat) : Prop where
  entry : m'.entry = m.entry
  same : m'.mapped = m.mapped ∧ m'.free = m.free ∧ m'.external = m.external ∧ m'.place = m.place
  contents : m'.mem = m.mem ∧ m'.view = m.view
  again : f ∈ seen → m'.refcount = m.refcount
  first : f ∉ seen →
    m'.refcount = update m.refcount f (min (m.refcount f + 1) refcountMax)
  mem : ∀ x, x ∈ seen' ↔ x ∈ seen ∨ x = f

theorem countedOnce_of_ok (h : countFrame m seen f = .ok (m', seen')) :
    CountedOnce m m' seen seen' f := by
  unfold countFrame at h
  split at h
  next hin =>
    cases h
    exact ⟨rfl, ⟨rfl, rfl, rfl, rfl⟩, ⟨rfl, rfl⟩, fun _ => rfl, fun hnot => absurd hin hnot,
      fun x => ⟨Or.inl, fun hor => hor.elim id fun heq => heq ▸ hin⟩⟩
  next hnot =>
  unfold CowState.refInc at h
  split at h
  next => cases h
  next hm =>
  split at hm
  · cases hm
  · cases hm
    cases h
    refine ⟨rfl, ⟨rfl, rfl, rfl, rfl⟩, ⟨rfl, rfl⟩, fun hin => absurd hin hnot, fun _ => rfl,
      fun x => ?_⟩
    rw [List.mem_append, List.mem_singleton]

/-- A part was given to the child, its frame counted with the first part of it. -/
structure Gave (m m' : CowState) (parent child : Group) (i : Part) (pte : PageTableEntry)
    (seen seen' : List Nat) : Prop where
  entry : m'.entry = ((m.writePte parent i pte.downgraded).writePte child i pte.forChild).entry
  mapped : m'.mapped = insert child m.mapped
  same : m'.free = m.free ∧ m'.external = m.external ∧ m'.place = m.place
  again : pte.frame ∈ seen → m'.refcount = m.refcount
  first : pte.frame ∉ seen →
    m'.refcount = update m.refcount pte.frame (min (m.refcount pte.frame + 1) refcountMax)
  mem : ∀ x, x ∈ seen' ↔ x ∈ seen ∨ x = pte.frame

theorem CountedOnce.gave {m₁ m₂ : CowState} {pte : PageTableEntry}
    (hc : CountedOnce m m₁ seen seen' pte.frame)
    (hentry : m₂.entry = ((m₁.writePte parent i pte.downgraded).writePte child i pte.forChild).entry)
    (hmapped : m₂.mapped = insert child m₁.mapped) (hfree : m₂.free = m₁.free)
    (hext : m₂.external = m₁.external) (hplace : m₂.place = m₁.place)
    (hcount : m₂.refcount = m₁.refcount) : Gave m m₂ parent child i pte seen seen' where
  entry := by
    rw [hentry]
    unfold CowState.writePte
    rw [hc.entry]
  mapped := hmapped.trans (congrArg (insert child) hc.same.1)
  same := ⟨hfree.trans hc.same.2.1, hext.trans hc.same.2.2.1, hplace.trans hc.same.2.2.2⟩
  again hin := hcount.trans (hc.again hin)
  first hnot := hcount.trans (hc.first hnot)
  mem := hc.mem

namespace Gave

variable {pte : PageTableEntry} {j : Part}

theorem child_self (hg : Gave m m' parent child i pte seen seen') :
    m'.entry child i = some pte.forChild := by
  rw [hg.entry]
  exact CowState.writePte_self

theorem child_of_ne (hg : Gave m m' parent child i pte seen seen') (hne : child ≠ parent) (hj : j ≠ i) :
    m'.entry child j = m.entry child j := by
  rw [hg.entry, CowState.writePte_part hj, CowState.writePte_group hne]

theorem parent_of_ne (hg : Gave m m' parent child i pte seen seen') (hne : child ≠ parent) (hj : j ≠ i) :
    m'.entry parent j = m.entry parent j := by
  rw [hg.entry, CowState.writePte_group hne.symm, CowState.writePte_part hj]

theorem refcount_of_ne (hg : Gave m m' parent child i pte seen seen') {x : Nat} (hx : x ≠ pte.frame) :
    m'.refcount x = m.refcount x := by
  by_cases hin : pte.frame ∈ seen
  · rw [hg.again hin]
  · rw [hg.first hin]
    exact update_of_ne hx ..

/-- The child refers to its new part's frame now, and to what it referred to before. -/
theorem refers_child (hg : Gave m m' parent child i pte seen seen') (hne : child ≠ parent)
    (hnone : m.entry child i = none) {x : Nat} :
    m'.refers child x ↔ m.refers child x ∨ x = pte.frame := by
  unfold CowState.refers
  constructor
  · rintro ⟨j, r, hr, rfl⟩
    by_cases hji : j = i
    · subst hji
      have hrr : pte.forChild = r := Option.some.inj (hg.child_self.symm.trans hr)
      rw [← hrr]
      exact Or.inr pte.forChild_frame
    · exact Or.inl ⟨j, r, (hg.child_of_ne hne hji).symm.trans hr, rfl⟩
  · rintro (⟨j, r, hr, rfl⟩ | rfl)
    · have hji : j ≠ i := by
        rintro rfl
        rw [hnone] at hr
        cases hr
      exact ⟨j, r, (hg.child_of_ne hne hji).trans hr, rfl⟩
    · exact ⟨i, _, hg.child_self, pte.forChild_frame⟩

end Gave

namespace CloneAt

variable {pte : PageTableEntry}

theorem ne_of_mem_rest (hsort : (i :: rest).Pairwise (· < ·)) {j : Part} (hj : j ∈ rest) : j ≠ i :=
  (ne_of_lt ((List.pairwise_cons.mp hsort).1 j hj)).symm

theorem notMem_of_lt (hsort : (i :: rest).Pairwise (· < ·)) {j : Part} (hj : j < i) : j ∉ i :: rest := by
  intro hin
  obtain rfl | hin := List.mem_cons.mp hin
  · exact lt_irrefl j hj
  · exact lt_asymm hj ((List.pairwise_cons.mp hsort).1 j hin)

theorem given_eq (h : CloneAt m₀ parent child skip (i :: rest) m seen) :
    given m parent skip i = given m₀ parent skip i :=
  given_congr (h.untouched i List.mem_cons_self)

/-- A part that gives nothing is passed over. -/
theorem passed (h : CloneAt m₀ parent child skip (i :: rest) m seen)
    (hnone : given m parent skip i = none) : CloneAt m₀ parent child skip rest m seen where
  counted := h.counted
  unmapped j hj := h.unmapped j (List.mem_cons_of_mem i hj)
  untouched j hj := h.untouched j (List.mem_cons_of_mem i hj)
  uncounted := h.uncounted
  done := by
    intro j hj q hq
    by_cases hji : j = i
    · subst hji
      rw [← h.given_eq, hnone] at hq
      cases hq
    · exact h.done j (fun hin => (List.mem_cons.mp hin).elim hji hj) q hq

/-- A part that was given is behind the loop. -/
theorem gave (h : CloneAt m₀ parent child skip (i :: rest) m seen) (hne : child ≠ parent)
    (hsort : (i :: rest).Pairwise (· < ·)) (hpte : given m parent skip i = some pte)
    (hg : Gave m m' parent child i pte seen seen') :
    CloneAt m₀ parent child skip rest m' seen' where
  counted x := by
    rw [hg.mem x, h.counted x, hg.refers_child hne (h.unmapped i List.mem_cons_self)]
  unmapped j hj :=
    (hg.child_of_ne hne (ne_of_mem_rest hsort hj)).trans (h.unmapped j (List.mem_cons_of_mem i hj))
  untouched j hj :=
    (hg.parent_of_ne hne (ne_of_mem_rest hsort hj)).trans (h.untouched j (List.mem_cons_of_mem i hj))
  uncounted := by
    intro x hx
    rw [hg.mem x, not_or] at hx
    exact (hg.refcount_of_ne hx.2).trans (h.uncounted x hx.1)
  done := by
    intro j hj q hq
    rw [hg.mem]
    by_cases hji : j = i
    · subst hji
      rw [← h.given_eq, hpte, Option.some.injEq] at hq
      exact Or.inr (hq ▸ rfl)
    · exact Or.inl (h.done j (fun hin => (List.mem_cons.mp hin).elim hji hj) q hq)

/-- The invariant over a part that was given. -/
theorem gave_inv (hinv : m.Inv) (h : CloneAt m₀ parent child skip (i :: rest) m seen)
    (hne : child ≠ parent) (hpte : given m parent skip i = some pte)
    (hroom : m₀.refcount pte.frame < refcountMax) (hg : Gave m m' parent child i pte seen seen') :
    m'.Inv := by
  have hgroup : (m.writePte parent i pte.downgraded).entry child = m.entry child :=
    CowState.writePte_group hne
  have hseen : (m.writePte parent i pte.downgraded).refers child pte.frame ↔ pte.frame ∈ seen :=
    (CowState.refers_congr hgroup).trans (h.counted pte.frame).symm
  obtain ⟨hfree, hext, hplace⟩ := hg.same
  refine (hinv.downgrade (given_eq_some hpte)).share (q := pte.forChild) CowState.writePte_self ?_ ?_ ?_ ?_
    ?_ hg.entry hg.mapped hfree hext hplace ?_ ?_
  · intro hpriv
    by_contra hw
    have hsh := (pte.downgraded_writable (Bool.not_eq_false _ ▸ hw)).1
    rw [PageTableEntry.downgraded_isShared, hsh] at hpriv
    cases hpriv
  · rw [hgroup]
    exact h.unmapped i List.mem_cons_self
  · rw [PageTableEntry.forChild_frame, PageTableEntry.downgraded_frame]
  · rw [PageTableEntry.forChild_isShared, PageTableEntry.downgraded_isShared]
  · intro hw
    rw [PageTableEntry.downgraded_isShared]
    exact pte.forChild_writable hw
  · intro hr
    rw [PageTableEntry.downgraded_frame, hseen] at hr
    exact hg.again hr
  · intro hr
    rw [PageTableEntry.downgraded_frame, hseen] at hr
    rw [PageTableEntry.downgraded_frame]
    refine (hg.first hr).trans ?_
    -- the count has room, and does not saturate
    have hlt : m.refcount pte.frame + 1 ≤ refcountMax := by
      rw [h.uncounted _ hr]
      exact hroom
    rw [min_eq_left hlt]
    rfl

/-- One turn of the loop keeps the invariant. -/
theorem clonePart (hinv : m.Inv) (h : CloneAt m₀ parent child skip (i :: rest) m seen)
    (hne : child ≠ parent) (hsort : (i :: rest).Pairwise (· < ·))
    (hok : Countable m₀ parent skip failAt) :
    (clonePart parent child skip failAt ⟨m, seen, none⟩ i).m.Inv ∧
      ((clonePart parent child skip failAt ⟨m, seen, none⟩ i).err = none →
        CloneAt m₀ parent child skip rest (clonePart parent child skip failAt ⟨m, seen, none⟩ i).m
          (clonePart parent child skip failAt ⟨m, seen, none⟩ i).seen) := by
  unfold Cow.clonePart
  rw [if_neg (by simp)]
  split
  next hnone => exact ⟨hinv, fun _ => h.passed hnone⟩
  next pte hpte =>
  split
  next => exact ⟨hinv, fun herr => by cases herr⟩
  next m₁ seen₁ hcount =>
  have hc := countedOnce_of_ok hcount
  have hpte₀ := h.given_eq.symm.trans hpte
  dsimp only
  split
  next hfail =>
    -- the frame was counted with an earlier part
    obtain ⟨j, hj, q, hq, hqf⟩ := hok.mapped i pte hfail hpte₀
    have hin : pte.frame ∈ seen := hqf ▸ h.done j (notMem_of_lt hsort hj) q hq
    have hent : (m₁.writePte parent i pte.downgraded).entry
        = (m.writePte parent i pte.downgraded).entry := by
      unfold CowState.writePte
      rw [hc.entry]
    obtain ⟨hmap, hfree, hext, hplace⟩ := hc.same
    refine ⟨?_, fun herr => by cases herr⟩
    exact (hinv.downgrade (given_eq_some hpte)).congr (hc.again hin) hfree hext hmap hent
      fun u => congrArg CowPlace.copy (congrFun hplace u)
  next =>
  have hg : Gave m { (m₁.writePte parent i pte.downgraded).writePte child i pte.forChild with
      mapped := insert child m₁.mapped
      view := update m₁.view child
        (update (m₁.view child) i (m₁.view parent i)) } parent child i pte seen seen₁ :=
    hc.gave rfl rfl rfl rfl rfl rfl
  exact ⟨gave_inv hinv h hne hpte (hok.room i pte hpte₀) hg,
    fun _ => h.gave hne hsort hpte hg⟩

end CloneAt

/-- An error ends the loop. -/
theorem clonePart_of_err {acc : CloneAcc} (h : acc.err ≠ none) :
    clonePart parent child skip failAt acc i = acc := by
  unfold clonePart
  rw [if_pos (Option.isSome_iff_ne_none.mpr h)]

/-- The whole loop keeps the invariant. -/
theorem CloneAt.foldl (hne : child ≠ parent) (hok : Countable m₀ parent skip failAt)
    (hsort : rest.Pairwise (· < ·)) {acc : CloneAcc} (hinv : acc.m.Inv)
    (h : acc.err = none → CloneAt m₀ parent child skip rest acc.m acc.seen) :
    (rest.foldl (Cow.clonePart parent child skip failAt) acc).m.Inv := by
  induction rest generalizing acc with
  | nil => exact hinv
  | cons i rest ih =>
    rw [List.foldl_cons]
    have htail := (List.pairwise_cons.mp hsort).2
    obtain ⟨m, seen, err⟩ := acc
    cases err with
    | none =>
      obtain ⟨hinv', h'⟩ := CloneAt.clonePart hinv (h rfl) hne hsort hok
      exact ih htail hinv' h'
    | some e =>
      rw [clonePart_of_err (by simp)]
      exact ih htail hinv fun herr => by cases herr

theorem CowState.Inv.cloneFrameGroup (h : m.Inv) (hne : child ≠ parent)
    (hc : ∀ i, m.entry child i = none) (hok : Countable m parent skip failAt) :
    (cloneFrameGroup m parent child skip failAt).1.Inv := by
  have hall : ∀ j : Part, j ∈ ([0, 1, 2, 3] : List Part) := by decide
  have hloop : (([0, 1, 2, 3] : List Part).foldl (Cow.clonePart parent child skip failAt)
      ⟨m, [], none⟩).m.Inv := by
    refine CloneAt.foldl hne hok (by decide) h fun _ => ?_
    exact {
      counted := fun f => by
        constructor
        · intro hf
          cases hf
        · rintro ⟨i, pte, hp, _⟩
          rw [hc i] at hp
          cases hp
      unmapped := fun j _ => hc j
      untouched := fun _ _ => rfl
      uncounted := fun _ _ => rfl
      done := fun j hj => absurd (hall j) hj }
  unfold Cow.cloneFrameGroup
  dsimp only
  split <;> exact hloop

/-! ## Every run -/

namespace CowState

/-- Any frames and page tables that meet the law, all threads outside this module. -/
structure Init (m : CowState) : Prop where
  user : ∀ t, ∃ r, m.place t = .user r
  counted : ∀ f, m.refcount f = m.pairs f + m.external f
  exclusive : m.Exclusive
  designed : m.Designed
  unmapped : ∀ g, g ∉ m.mapped → ∀ i, m.entry g i = none
  unused : ∀ f, m.free f = true → m.refcount f = 0
  view : ∀ g i pte, m.entry g i = some pte → pte.isShared = false → m.mem pte.frame i = m.view g i

theorem Init.copy_eq_none (h : Init m) (t : Nat) : (m.place t).copy = none := by
  obtain ⟨r, hr⟩ := h.user t
  rw [hr]
  rfl

theorem Init.inv (h : Init m) : Inv m where
  law := {
    counted := fun f _ => h.counted f
    copies := fun f ⟨t, ht⟩ => by
      rw [h.copy_eq_none t] at ht
      cases ht }
  exclusive := h.exclusive
  designed := h.designed
  unmapped := h.unmapped
  apart t t' f ht := by
    rw [h.copy_eq_none t] at ht
    cases ht
  unused := h.unused

/-- A fork can count and map what it gives. -/
def ForkCountable (m : CowState) : CowAction → Prop
  | .clone parent _ skip failAt => Countable m parent skip failAt
  | _ => True

theorem of_fromUser {m'' : CowState} {t : Nat} (h : m.fromUser t m'' = some m') :
    (m.place t).copy = none ∧ m' = m'' := by
  unfold fromUser at h
  split at h
  next r hr =>
    rw [hr]
    exact ⟨rfl, (Option.some.inj h).symm⟩
  next => cases h

theorem Inv.advance {t : Nat} {alloc : Option Nat} (h : Inv m) (halloc : m.canAlloc alloc = true)
    (hs : m.advance t alloc = some m') : Inv m' := by
  unfold CowState.advance at hs
  cases hp : m.place t <;> rw [hp] at hs <;> dsimp only at hs <;> cases hs
  case install prep => exact h.installCow (by rw [hp]; rfl) rfl
  case force w attempts => exact h.forceSection w attempts (by rw [hp]; rfl)
  case forcePrepare w attempts =>
    exact h.prepareThen (by rw [hp]; rfl) halloc fun _ => rfl
  case forceInstall w attempts prep => exact h.installCow (by rw [hp]; rfl) rfl

/-- **The step lemma.** -/
theorem Inv.step {a : CowAction} (h : Inv m) (hok : m.ForkCountable a) (hs : m.step a = some m') :
    Inv m' := by
  cases a with
  | store g i offset bytes =>
    simp only [CowState.step, CowState.store] at hs
    split at hs
    · cases hs
    · split at hs
      · cases hs
        exact h.storeAt ..
      · cases hs
  | fault t g i alloc =>
    simp only [CowState.step] at hs
    split at hs
    next halloc =>
      obtain ⟨ht, rfl⟩ := of_fromUser hs
      exact h.prepareThen ht halloc fun _ => rfl
    next => cases hs
  | poke t w =>
    obtain ⟨ht, rfl⟩ := of_fromUser hs
    unfold CowState.poke
    split
    · exact h.goto ht.symm
    · exact h.goto ht.symm
  | advance t alloc =>
    simp only [CowState.step] at hs
    split at hs
    next halloc => exact h.advance halloc hs
    next => cases hs
  | clone parent child skip failAt =>
    simp only [CowState.step] at hs
    split at hs
    next hfresh =>
      cases hs
      refine h.cloneFrameGroup ?_ hfresh.2 hok
      intro heq
      exact hfresh.1 (congrArg Prod.fst heq)
    next => cases hs

end CowState

end SlateOS.Mm.Cow
