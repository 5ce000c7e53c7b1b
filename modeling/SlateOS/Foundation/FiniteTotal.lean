/-
# SlateOS.Foundation.FiniteTotal -- a quantity spread over unboundedly many owners

A system with any number of parties keeps a counter for what all of them hold together. `Total f n` says
that the holdings `f` add up to `n`: all but finitely many parties hold nothing. A step changes the holding
of one party, so the one rule needed is what replacing a single holding does to the total.
-/
import Mathlib.Algebra.BigOperators.Group.Finset.Basic

namespace SlateOS.Foundation

universe u

variable {ι : Type u}

/-- The holdings add up to `n`. -/
def Total (f : ι → Nat) (n : Nat) : Prop := ∃ S : Finset ι, (∀ i, i ∉ S → f i = 0) ∧ ∑ i ∈ S, f i = n

namespace Total

variable {f g : ι → Nat} {n k : Nat} {i : ι}

/-- Nobody holds anything. -/
theorem zero : Total (fun _ : ι => 0) 0 := ⟨∅, fun _ _ => rfl, rfl⟩

theorem congr (h : Total f n) (hfg : ∀ i, g i = f i) : Total g n := by
  obtain rfl : g = f := funext hfg
  exact h

variable [DecidableEq ι]

/-- A total over a finite set may be taken over any larger one. -/
theorem over_insert (h : Total f n) (i : ι) :
    ∃ S : Finset ι, i ∈ S ∧ (∀ j, j ∉ S → f j = 0) ∧ ∑ j ∈ S, f j = n := by
  obtain ⟨S, hS, hsum⟩ := h
  refine ⟨insert i S, Finset.mem_insert_self i S, ?_, ?_⟩
  · intro j hj
    exact hS j fun hin => hj (Finset.mem_insert_of_mem hin)
  · by_cases hi : i ∈ S
    · rw [Finset.insert_eq_of_mem hi]
      exact hsum
    · rw [Finset.sum_insert hi, hS i hi, Nat.zero_add]
      exact hsum

/-- Nobody holds more than all together. -/
theorem le (h : Total f n) (i : ι) : f i ≤ n := by
  obtain ⟨S, hi, _, hsum⟩ := h.over_insert i
  rw [← hsum, ← Finset.add_sum_erase S _ hi]
  exact Nat.le_add_right _ _

/-- Replacing one holding. -/
theorem update (h : Total f n) (i : ι) (k : Nat) : Total (Function.update f i k) (n - f i + k) := by
  obtain ⟨S, hi, hS, hsum⟩ := h.over_insert i
  refine ⟨S, ?_, ?_⟩
  · intro j hj
    have hne : j ≠ i := by
      rintro rfl
      exact hj hi
    rw [Function.update_of_ne hne]
    exact hS j hj
  · rw [← Finset.add_sum_erase S _ hi] at hsum ⊢
    have hrest : ∑ j ∈ S.erase i, Function.update f i k j = ∑ j ∈ S.erase i, f j := by
      refine Finset.sum_congr rfl ?_
      intro j hj
      rw [Function.update_of_ne (Finset.ne_of_mem_erase hj)]
    rw [Function.update_self, hrest]
    omega

/-- Two holdings that differ at one party only. -/
theorem change (h : Total f n) (i : ι) (hne : ∀ j, j ≠ i → g j = f j) : Total g (n - f i + g i) := by
  refine (h.update i (g i)).congr ?_
  intro j
  by_cases hj : j = i
  · rw [hj, Function.update_self]
  · rw [Function.update_of_ne hj, hne j hj]

end Total

end SlateOS.Foundation
