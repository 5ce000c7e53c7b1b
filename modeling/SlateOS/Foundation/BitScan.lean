/-
# SlateOS.Foundation.BitScan -- visiting the set bits of a word

A word used as a set of indices is walked with `trailing_zeros` and `bits & (bits - 1)`: take the
lowest set bit, act on its index, clear it, and stop at zero. `setBits` is the list of indices such a
walk visits, and `setBits_eq` says that these are the set bits, each once and in ascending order.
-/
import Mathlib.Algebra.BigOperators.Group.Finset.Basic
import Mathlib.Data.List.FinRange
import Mathlib.Data.List.Sort

namespace SlateOS.Foundation.BitScan

variable {w : Nat}

/-- The index `trailing_zeros` returns, when it is the index of a bit; at zero it is `w`, of none. -/
def lowest (b : BitVec w) : Option (Fin w) :=
  if h : b.ctz.toNat < w then some ⟨b.ctz.toNat, h⟩ else none

/-- `b & (b - 1)`. -/
def clearLowest (b : BitVec w) : BitVec w := b &&& (b - 1#w)

variable {b : BitVec w}

theorem ctz_toNat_lt_iff : b.ctz.toNat < w ↔ b ≠ 0#w := by
  rw [← BitVec.ctz_lt_iff_ne_zero, BitVec.lt_def]
  simp

theorem lowest_eq_none_iff : lowest b = none ↔ b = 0#w := by
  unfold lowest
  split
  · next h => simpa using ctz_toNat_lt_iff.1 h
  · next h => simpa using mt ctz_toNat_lt_iff.2 h

variable {i : Fin w}

theorem getLsbD_of_lowest (h : lowest b = some i) :
    b.getLsbD i = true := by
  unfold lowest at h
  split at h
  · next hlt =>
      cases h
      exact BitVec.getLsbD_true_ctz_of_ne_zero (ctz_toNat_lt_iff.1 hlt)
  · simp at h

theorem getLsbD_of_lt_lowest (h : lowest b = some i) {j : Nat}
    (hj : j < i) : b.getLsbD j = false := by
  unfold lowest at h
  split at h
  · cases h
    exact BitVec.getLsbD_false_of_lt_ctz hj
  · simp at h

/-! ## Setting and clearing one bit -/

/-- `b | (1 << i)`. -/
def setBit (b : BitVec w) (i : Fin w) : BitVec w := b ||| (1#w <<< (i : Nat))

/-- `b & !(1 << i)`. -/
def clearBit (b : BitVec w) (i : Fin w) : BitVec w := b &&& ~~~(1#w <<< (i : Nat))

theorem getLsbD_one_shiftLeft (i j : Fin w) :
    (1#w <<< (i : Nat)).getLsbD j = decide (j = i) := by
  rw [BitVec.getLsbD_shiftLeft, BitVec.getLsbD_one]
  have hi := i.isLt
  have hj := j.isLt
  by_cases h : j = i
  · simp [h]
    omega
  · have hne : (j : Nat) ≠ i := fun hv => h (Fin.ext hv)
    simp [h]
    omega

theorem getLsbD_setBit (b : BitVec w) (i j : Fin w) :
    (setBit b i).getLsbD j = (b.getLsbD j || decide (j = i)) := by
  rw [setBit, BitVec.getLsbD_or, getLsbD_one_shiftLeft]

theorem getLsbD_clearBit (b : BitVec w) (i j : Fin w) :
    (clearBit b i).getLsbD j = (b.getLsbD j && decide (j ≠ i)) := by
  rw [clearBit, BitVec.getLsbD_and, BitVec.getLsbD_not, getLsbD_one_shiftLeft]
  simp

theorem getLsbD_clearBit_self (b : BitVec w) (i : Fin w) : (clearBit b i).getLsbD i = false := by
  rw [getLsbD_clearBit, decide_eq_false (not_not_intro rfl), Bool.and_false]

theorem getLsbD_clearBit_of_ne (b : BitVec w) {i j : Fin w} (h : j ≠ i) :
    (clearBit b i).getLsbD j = b.getLsbD j := by
  rw [getLsbD_clearBit, decide_eq_true h, Bool.and_true]

theorem getLsbD_setBit_self (b : BitVec w) (i : Fin w) : (setBit b i).getLsbD i = true := by
  rw [getLsbD_setBit, decide_eq_true rfl, Bool.or_true]

theorem getLsbD_setBit_of_ne (b : BitVec w) {i j : Fin w} (h : j ≠ i) :
    (setBit b i).getLsbD j = b.getLsbD j := by
  rw [getLsbD_setBit, decide_eq_false h, Bool.or_false]

/-! ## Walking the set bits -/

/-- A word whose lowest set bit is bit `t` is an odd multiple of `2^t`. -/
theorem exists_odd_multiple {n t : Nat} (ht : n.testBit t = true)
    (hlow : ∀ j < t, n.testBit j = false) : ∃ q, n = 2 ^ (t + 1) * q + 2 ^ t := by
  refine ⟨n / 2 ^ (t + 1), ?_⟩
  have hmod : n % 2 ^ (t + 1) = 2 ^ t := by
    apply Nat.eq_of_testBit_eq
    intro j
    rw [Nat.testBit_mod_two_pow, Nat.testBit_two_pow]
    rcases Nat.lt_trichotomy j t with h | h | h
    · simp [hlow j h, show t ≠ j by omega]
    · simp [h, ht]
    · simp [show ¬ j < t + 1 by omega, show t ≠ j by omega]
  rw [← hmod]
  exact (Nat.div_add_mod n (2 ^ (t + 1))).symm

/-- `b & (b - 1)` clears the lowest set bit and no other. -/
theorem getLsbD_clearLowest (h : lowest b = some i) (j : Nat) :
    (clearLowest b).getLsbD j = (b.getLsbD j && decide (j ≠ i)) := by
  obtain ⟨q, hq⟩ := exists_odd_multiple (getLsbD_of_lowest h) fun j => getLsbD_of_lt_lowest h
  have hpos : 0 < 2 ^ (i : Nat) := Nat.two_pow_pos _
  have hlt : 2 ^ (i : Nat) < 2 ^ (i + 1 : Nat) := Nat.pow_lt_pow_right (by decide) (by omega)
  have hone : (1#w).toNat ≤ b.toNat := by
    have hle : (1#w).toNat ≤ 1 := by simpa using Nat.mod_le 1 (2 ^ w)
    omega
  have hw : 0 < w := Nat.lt_of_le_of_lt (Nat.zero_le _) i.isLt
  have hone' : (1#w).toNat = 1 := by
    simpa using Nat.mod_eq_of_lt (Nat.one_lt_two_pow (by omega : w ≠ 0))
  have hpred : (b - 1#w).toNat = 2 ^ (i + 1 : Nat) * q + (2 ^ (i : Nat) - 1) := by
    rw [BitVec.toNat_sub_of_le (BitVec.le_def.2 hone), hone']
    omega
  show (b &&& (b - 1#w)).getLsbD j = _
  rw [BitVec.getLsbD_and]
  show (b.toNat.testBit j && (b - 1#w).toNat.testBit j) = (b.toNat.testBit j && _)
  rw [hpred, hq, Nat.testBit_two_pow_mul_add q hlt, Nat.testBit_two_pow_mul_add q (by omega)]
  by_cases hj : j < i + 1
  · rw [if_pos hj, if_pos hj, Nat.testBit_two_pow, Nat.testBit_two_pow_sub_one]
    by_cases hij : (i : Nat) = j
    · simp [hij]
    · simp [hij]
  · rw [if_neg hj, if_neg hj]
    simp [show j ≠ i by omega]

/-- At most `fuel` turns of the walk. -/
def scan : Nat → BitVec w → List (Fin w)
  | 0, _ => []
  | fuel + 1, b =>
    match lowest b with
    | none => []
    | some i => i :: scan fuel (clearLowest b)

/-- The indices the walk visits; a word of `w` bits has at most `w` to visit. -/
def setBits (b : BitVec w) : List (Fin w) := scan w b

theorem mem_of_scan {fuel : Nat} (h : i ∈ scan fuel b) :
    b.getLsbD i = true := by
  induction fuel generalizing b with
  | zero => simp [scan] at h
  | succ fuel ih =>
    unfold scan at h
    split at h
    · simp at h
    · next l hl =>
        rcases List.mem_cons.1 h with rfl | htail
        · exact getLsbD_of_lowest hl
        · have hbit := ih htail
          rw [getLsbD_clearLowest hl, Bool.and_eq_true] at hbit
          exact hbit.1

/-- With `w - k` turns left the walk reaches every set bit, if those below `k` are already clear. -/
theorem scan_complete {fuel k : Nat} (hfuel : w ≤ fuel + k)
    (hclear : ∀ j < k, b.getLsbD j = false) (hi : b.getLsbD i = true) :
    i ∈ scan fuel b := by
  induction fuel generalizing b k with
  | zero =>
    have hk : (i : Nat) < k := by omega
    exact absurd (hi.symm.trans (hclear i hk)) (by decide)
  | succ fuel ih =>
    unfold scan
    split
    · next hnone =>
        rw [lowest_eq_none_iff.1 hnone] at hi
        simp at hi
    · next l hl =>
        by_cases hil : i = l
        · exact List.mem_cons.2 (.inl hil)
        · -- the lowest set bit is at `k` or above, so one more index is clear afterwards
          have hkl : k ≤ l := by
            by_contra hlt
            have hset := getLsbD_of_lowest hl
            exact absurd (hset.symm.trans (hclear l (by omega))) (by decide)
          refine List.mem_cons.2 (.inr (ih (k := l + 1) (by omega) ?_ ?_))
          · intro j hj
            rw [getLsbD_clearLowest hl]
            by_cases hjl : j = l
            · simp [hjl]
            · simp [getLsbD_of_lt_lowest hl (show j < l by omega)]
          · rw [getLsbD_clearLowest hl, hi]
            simpa using fun h : (i : Nat) = l => hil (Fin.ext h)

theorem scan_pairwise (fuel : Nat) (b : BitVec w) : (scan fuel b).Pairwise (· < ·) := by
  induction fuel generalizing b with
  | zero => exact .nil
  | succ fuel ih =>
    unfold scan
    split
    · exact .nil
    · next l hl =>
        refine .cons ?_ (ih _)
        intro j hj
        have hbit := mem_of_scan hj
        rw [getLsbD_clearLowest hl, Bool.and_eq_true, decide_eq_true_eq] at hbit
        show (l : Nat) < j
        by_contra hlt
        have hclear := getLsbD_of_lt_lowest hl (show (j : Nat) < l by omega)
        exact absurd (hbit.1.symm.trans hclear) (by decide)

/-- The walk visits the set bits, each once, lowest first. -/
theorem setBits_eq (b : BitVec w) :
    setBits b = (List.finRange w).filter fun i : Fin w => b.getLsbD i := by
  have hperm : (setBits b).Perm ((List.finRange w).filter fun i : Fin w => b.getLsbD i) := by
    refine (List.perm_ext_iff_of_nodup ?_ ?_).2 fun i => ?_
    · exact (scan_pairwise w b).imp fun h => h.ne
    · exact (List.nodup_finRange w).filter _
    · rw [List.mem_filter]
      constructor
      · exact fun h => ⟨List.mem_finRange i, mem_of_scan h⟩
      · rintro ⟨-, h⟩
        exact scan_complete (k := 0) (by omega) (fun j hj => absurd hj (Nat.not_lt_zero j)) h
  have hsorted : ((List.finRange w).filter fun i : Fin w => b.getLsbD i).Pairwise (· < ·) :=
    (List.pairwise_lt_finRange w).filter _
  exact hperm.eq_of_pairwise (fun a b _ _ hab hba => absurd hba (not_lt_of_gt hab))
    (scan_pairwise w b) hsorted

theorem mem_setBits : i ∈ setBits b ↔ b.getLsbD i = true := by
  simp [setBits_eq]

theorem nodup_setBits (b : BitVec w) : (setBits b).Nodup :=
  (scan_pairwise w b).imp fun h => h.ne

/-- The lowest set bit is the first set bit of the word. -/
theorem lowest_eq_find (b : BitVec w) :
    lowest b = (List.finRange w).find? fun i : Fin w => b.getLsbD i := by
  rw [← List.head?_filter, ← setBits_eq]
  cases w with
  | zero => exact lowest_eq_none_iff.2 (BitVec.eq_nil b)
  | succ w =>
    unfold setBits scan
    split
    · next h => exact h
    · next i h => exact h

end SlateOS.Foundation.BitScan
