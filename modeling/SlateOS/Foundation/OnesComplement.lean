/-
# SlateOS.Foundation.OnesComplement -- sums with an end-around carry

The sum of bytes as big-endian 16-bit words, an odd last byte the high half of a word, and the folding of its carries.
Folding keeps a sum modulo `2^16 - 1`, and only zero folds to zero; so with the complement of its fold added, a sum
folds to all ones.
-/
import Mathlib.Algebra.Group.Nat.Defs
import Mathlib.Data.List.Basic

namespace SlateOS.Foundation.OnesComplement

/-- The carries of a sum, added in at its low end until none is left. -/
def fold (sum : Nat) : Nat := if sum < 2 ^ 16 then sum else fold (sum % 2 ^ 16 + sum / 2 ^ 16)
termination_by sum
decreasing_by omega

theorem fold_spec (sum : Nat) : fold sum < 2 ^ 16 ∧ fold sum % 65535 = sum % 65535 ∧ (fold sum = 0 ↔ sum = 0) := by
  induction sum using fold.induct with
  | case1 sum hlt =>
    rw [fold, if_pos hlt]
    exact ⟨hlt, rfl, Iff.rfl⟩
  | case2 sum hge ih =>
    rw [fold, if_neg hge]
    refine ⟨ih.1, ih.2.1.trans ?_, ih.2.2.trans ?_⟩ <;> omega

/-- **A sum with the complement of its fold folds to all ones.** -/
theorem fold_add_complement (sum : Nat) : fold (sum + (65535 - fold sum)) = 65535 := by
  obtain ⟨hlt, hmod, hzero⟩ := fold_spec sum
  obtain ⟨hlt', hmod', hzero'⟩ := fold_spec (sum + (65535 - fold sum))
  generalize fold (sum + (65535 - fold sum)) = r at hlt' hmod' hzero' ⊢
  generalize fold sum = c at *
  have hne : r ≠ 0 := fun h => by
    have hboth := hzero'.mp h
    omega
  omega

/-- The sum of the words. -/
def sumWords : List UInt8 → Nat
  | [] => 0
  | [hi] => hi.toNat * 256
  | hi :: lo :: rest => hi.toNat * 256 + lo.toNat + sumWords rest

theorem sumWords_le (data : List UInt8) : sumWords data ≤ 65535 * ((data.length + 1) / 2) := by
  induction data using sumWords.induct with
  | case1 => simp [sumWords]
  | case2 hi =>
    have hhi := hi.toNat_lt
    simp only [sumWords, List.length_singleton]
    omega
  | case3 hi lo rest ih =>
    have hhi := hi.toNat_lt
    have hlo := lo.toNat_lt
    simp only [sumWords, List.length_cons]
    omega

/-- Behind whole words the sum goes on. -/
theorem sumWords_append {xs : List UInt8} (h : xs.length % 2 = 0) (ys : List UInt8) :
    sumWords (xs ++ ys) = sumWords xs + sumWords ys := by
  induction xs using sumWords.induct with
  | case1 => simp [sumWords]
  | case2 hi => simp at h
  | case3 hi lo rest ih =>
    have hrest : rest.length % 2 = 0 := by
      simp only [List.length_cons] at h
      omega
    simp only [List.cons_append, sumWords, ih hrest]
    omega

/-- A changed byte changes the sum by its difference, 256 times in a high half. -/
theorem sumWords_set {data : List UInt8} {i : Nat} (h : i < data.length) (b : UInt8) :
    sumWords (data.set i b) + data[i].toNat * (if i % 2 = 0 then 256 else 1) =
      sumWords data + b.toNat * (if i % 2 = 0 then 256 else 1) := by
  induction data using sumWords.induct generalizing i with
  | case1 => cases h
  | case2 hi =>
    obtain rfl : i = 0 := by simpa using h
    simp [sumWords, Nat.add_comm]
  | case3 hi lo rest ih =>
    rcases i with _ | _ | i
    · rw [if_pos rfl]
      simp only [List.set_cons_zero, List.getElem_cons_zero, sumWords]
      omega
    · rw [if_neg (by decide)]
      simp only [Nat.zero_add, List.set_cons_succ, List.set_cons_zero, List.getElem_cons_succ,
        List.getElem_cons_zero, sumWords]
      omega
    · have hrest := ih (i := i) (by simpa using h)
      rw [show (i + 1 + 1) % 2 = i % 2 from Nat.add_mod_right i 2]
      simp only [List.set_cons_succ, List.getElem_cons_succ, sumWords]
      omega

end SlateOS.Foundation.OnesComplement
