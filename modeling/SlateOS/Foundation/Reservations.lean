/-
# SlateOS.Foundation.Reservations -- disjoint ranges of a bit space, each reserved by one holder

A bit space says of every index whether it is in use, and holders reserve ranges of it. The space is exact when
a bit is set just where a range lies, and no two ranges meet. Reserving a range of clear bits, releasing one with
its bits, and handing one over to another holder keep it exact.
-/
import Mathlib.Logic.Function.Basic

namespace SlateOS.Foundation.Reservations

open Function (update update_self update_of_ne)

/-- A range, by its first index and its size. -/
abbrev Range := Nat × Nat

/-- The index lies in the range. -/
abbrev InRange (r : Range) (p : Nat) : Prop := r.1 ≤ p ∧ p < r.1 + r.2

variable {ι : Type*} {held : ι → Option Range} {used used' : Nat → Bool} {n : Nat} {h h' : ι}
  {r : Range}

/-- The bits below `n` are set where a range lies, and the ranges are disjoint. -/
structure Exact (held : ι → Option Range) (used : Nat → Bool) (n : Nat) : Prop where
  used_iff : ∀ p < n, used p = true ↔ ∃ h r, held h = some r ∧ InRange r p
  disjoint : ∀ h h' r r' p, held h = some r → held h' = some r' → InRange r p → InRange r' p → h = h'
  nonempty : ∀ h r, held h = some r → 0 < r.2
  bounded : ∀ h r, held h = some r → r.1 + r.2 ≤ n

namespace Exact

theorem start (hheld : ∀ h, held h = none) (hused : ∀ p < n, used p = false) : Exact held used n := by
  refine ⟨fun p hp => ?_, fun h h' r r' p hr => ?_, fun h r hr => ?_, fun h r hr => ?_⟩
  · rw [hused p hp]
    refine ⟨fun hf => (nomatch hf), fun ⟨h, r, hr, _⟩ => ?_⟩
    rw [hheld h] at hr
    cases hr
  all_goals
    rw [hheld h] at hr
    cases hr

/-- A range that starts where another one does is the same holder's. -/
theorem unique {r' : Range} (hx : Exact held used n) (hr : held h = some r) (hr' : held h' = some r')
    (hstart : r.1 = r'.1) : h = h' := by
  have hpos := hx.nonempty h r hr
  have hpos' := hx.nonempty h' r' hr'
  refine hx.disjoint h h' r r' r.1 hr hr' ⟨Nat.le_refl _, by omega⟩ ⟨?_, by omega⟩
  exact Nat.le_of_eq hstart.symm

theorem used_of (hx : Exact held used n) (hr : held h = some r) {p : Nat} (hp : InRange r p) : used p = true := by
  have hb := hx.bounded h r hr
  exact (hx.used_iff p (Nat.lt_of_lt_of_le hp.2 hb)).mpr ⟨h, r, hr, hp⟩

variable [DecidableEq ι]

/-- A holder reserves a range of clear bits. -/
theorem reserve (hx : Exact held used n) (hnone : held h = none) (hclear : ∀ p, InRange r p → used p = false)
    (hpos : 0 < r.2) (hb : r.1 + r.2 ≤ n)
    (hused : ∀ p < n, used' p = if InRange r p then true else used p) :
    Exact (update held h (some r)) used' n := by
  have hkept : ∀ g, g ≠ h → update held h (some r) g = held g := fun g hg => update_of_ne hg _ _
  have hcases : ∀ g q, update held h (some r) g = some q → (g = h ∧ q = r) ∨ (g ≠ h ∧ held g = some q) := by
    intro g q hq
    by_cases hg : g = h
    · subst hg
      rw [update_self, Option.some.injEq] at hq
      exact .inl ⟨rfl, hq.symm⟩
    · exact .inr ⟨hg, hkept g hg ▸ hq⟩
  have hmiss : ∀ g q p, held g = some q → InRange q p → ¬InRange r p := by
    intro g q p hq hp hrp
    have hset := hx.used_of hq hp
    rw [hclear p hrp] at hset
    cases hset
  refine ⟨fun p hp => ?_, ?_, ?_, ?_⟩
  · rw [hused p hp]
    by_cases hin : InRange r p
    · rw [if_pos hin]
      exact ⟨fun _ => ⟨h, r, update_self _ _ _, hin⟩, fun _ => rfl⟩
    · rw [if_neg hin, hx.used_iff p hp]
      constructor
      · rintro ⟨g, q, hq, hqp⟩
        have hg : g ≠ h := by
          rintro rfl
          rw [hnone] at hq
          cases hq
        exact ⟨g, q, (hkept g hg).trans hq, hqp⟩
      · rintro ⟨g, q, hq, hqp⟩
        obtain ⟨-, rfl⟩ | ⟨-, hq⟩ := hcases g q hq
        · exact absurd hqp hin
        · exact ⟨g, q, hq, hqp⟩
  · intro g g' q q' p hq hq' hp hp'
    obtain ⟨rfl, rfl⟩ | ⟨-, hold⟩ := hcases g q hq
    · obtain ⟨rfl, -⟩ | ⟨-, hq'⟩ := hcases g' q' hq'
      · rfl
      · exact absurd hp (hmiss g' q' p hq' hp')
    · obtain ⟨rfl, rfl⟩ | ⟨-, hq'⟩ := hcases g' q' hq'
      · exact absurd hp' (hmiss g q p hold hp)
      · exact hx.disjoint g g' q q' p hold hq' hp hp'
  · intro g q hq
    obtain ⟨-, rfl⟩ | ⟨-, hq⟩ := hcases g q hq
    · exact hpos
    · exact hx.nonempty g q hq
  · intro g q hq
    obtain ⟨-, rfl⟩ | ⟨-, hq⟩ := hcases g q hq
    · exact hb
    · exact hx.bounded g q hq

/-- A holder gives up its range, and the bits are cleared. -/
theorem release (hx : Exact held used n) (hr : held h = some r)
    (hused : ∀ p < n, used' p = if InRange r p then false else used p) :
    Exact (update held h none) used' n := by
  have hcases : ∀ g q, update held h none g = some q → g ≠ h ∧ held g = some q := by
    intro g q hq
    by_cases hg : g = h
    · subst hg
      rw [update_self] at hq
      cases hq
    · exact ⟨hg, (update_of_ne hg _ _).symm.trans hq⟩
  refine ⟨fun p hp => ?_, ?_, fun g q hq => hx.nonempty g q (hcases g q hq).2,
    fun g q hq => hx.bounded g q (hcases g q hq).2⟩
  · rw [hused p hp]
    by_cases hin : InRange r p
    · rw [if_pos hin]
      refine ⟨fun hf => (nomatch hf), fun ⟨g, q, hq, hqp⟩ => ?_⟩
      obtain ⟨hne, hq⟩ := hcases g q hq
      exact absurd (hx.disjoint g h q r p hq hr hqp hin) hne
    · rw [if_neg hin, hx.used_iff p hp]
      constructor
      · rintro ⟨g, q, hq, hqp⟩
        have hg : g ≠ h := by
          rintro rfl
          rw [hr, Option.some.injEq] at hq
          exact hin (hq ▸ hqp)
        exact ⟨g, q, (update_of_ne hg _ _).trans hq, hqp⟩
      · rintro ⟨g, q, hq, hqp⟩
        exact ⟨g, q, (hcases g q hq).2, hqp⟩
  · intro g g' q q' p hq hq' hp hp'
    exact hx.disjoint g g' q q' p (hcases g q hq).2 (hcases g' q' hq').2 hp hp'

/-- A holder hands its range over to another one; the bits stay. -/
theorem handOver (hx : Exact held used n) (hr : held h = some r) (hnone : held h' = none) :
    Exact (update (update held h none) h' (some r)) used n := by
  have hcleared : Exact (update held h none) (fun p => if InRange r p then false else used p) n :=
    hx.release hr fun _ _ => rfl
  refine hcleared.reserve ?_ (fun p hp => if_pos hp) (hx.nonempty h r hr) (hx.bounded h r hr) fun p _ => ?_
  · by_cases hh : h' = h
    · rw [hh, update_self]
    · rw [update_of_ne hh, hnone]
  · split
    · next hin => exact hx.used_of hr hin
    · rfl

end Exact

end SlateOS.Foundation.Reservations
