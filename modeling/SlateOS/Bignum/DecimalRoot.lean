/-
# SlateOS.Bignum.DecimalRoot -- the square root of a decimal

`Decimal::sqrt` works at an even scale with twice the places that are asked for. The sum that makes this scale
saturates: at the largest word the scale is odd, halving it moves the point half a place, and the root is
right only when no digit of it is left.
-/
import SlateOS.Bignum.Decimal

namespace SlateOS.Bignum

open Foundation Foundation.MachineInt Foundation.Traced
open Foundation.Truncation (truncateRoot truncateRoot_div sqrt_div)

namespace Decimal

/-! ## The working scale -/

/-- The scale that `sqrt` works at. -/
def rootTarget (s r : Nat) : Nat :=
  let target := addUsize s (addUsize (mulUsize r 2) 2)
  if target % 2 = 0 then target else addUsize target 1

theorem rootTarget_even {s r : Nat} (h : s + 2 * r + 2 < 2 ^ 64 - 1) :
    rootTarget s r % 2 = 0 ∧ s ≤ rootTarget s r ∧ 2 * r ≤ rootTarget s r := by
  have htarget : addUsize s (addUsize (mulUsize r 2) 2) = s + 2 * r + 2 := by
    unfold addUsize mulUsize saturatingAdd saturatingMul maxVal
    omega
  unfold rootTarget
  rw [htarget]
  dsimp only
  split
  next heven => omega
  next hodd =>
  have hsucc : addUsize (s + 2 * r + 2) 1 = s + 2 * r + 3 := by
    unfold addUsize saturatingAdd maxVal
    omega
  rw [hsucc]
  omega

/-- At the end of the words the working scale is the largest word, which is odd. -/
theorem rootTarget_max {s r : Nat} (h : ¬ s + 2 * r + 2 < 2 ^ 64 - 1) : rootTarget s r = 2 ^ 64 - 1 := by
  have htarget : addUsize s (addUsize (mulUsize r 2) 2) = 2 ^ 64 - 1 := by
    unfold addUsize mulUsize saturatingAdd saturatingMul maxVal
    omega
  unfold rootTarget
  rw [htarget]
  decide

/-! ## Roots of shifted digits -/

/-- Powers of ten that a numerator and a denominator share. -/
theorem scale_div (n : Nat) {x y u v : Nat} (h : x + v = u + y) :
    n * 10 ^ x / 10 ^ y = n * 10 ^ u / 10 ^ v := by
  calc n * 10 ^ x / 10 ^ y = n * 10 ^ x * 10 ^ v / (10 ^ y * 10 ^ v) :=
        (Nat.mul_div_mul_right _ _ (Nat.pow_pos (by decide))).symm
    _ = n * 10 ^ u * 10 ^ y / (10 ^ v * 10 ^ y) := by
        rw [mul_assoc, ← pow_add, h, pow_add, ← mul_assoc, Nat.mul_comm (10 ^ y)]
    _ = n * 10 ^ u / 10 ^ v := Nat.mul_div_mul_right _ _ (Nat.pow_pos (by decide))

/-- The root of digits at a scale of `2 * k` or one more, cut to `r` of its `k` places. -/
theorem sqrt_shift (n : Nat) {T k s r : Nat} (hr : r ≤ k) :
    Nat.sqrt (n * 10 ^ (T - s)) / 10 ^ (k - r) = Nat.sqrt (n * 10 ^ (T - s) / 10 ^ (2 * k - 2 * r)) := by
  rw [sqrt_div _ _ (Nat.pow_pos (by decide)), ← pow_add]
  congr 3
  omega

/-- A root that is ten times as large below it is the same only when both are zero. -/
theorem sqrt_ten {y z : Nat} (hz : 0 < z) : Nat.sqrt (y * 10 / z) = Nat.sqrt (y / z) ↔ y * 10 < z := by
  constructor
  · intro heq
    by_contra hge
    have hone : 1 ≤ y * 10 / z := by
      rw [Nat.le_div_iff_mul_le hz]
      omega
    rcases Nat.eq_zero_or_pos (Nat.sqrt (y / z)) with hzero | hpos
    · rw [hzero, Nat.sqrt_eq_zero] at heq
      omega
    · have hlow := Nat.sqrt_le (y / z)
      have hten : 10 * (y / z) ≤ y * 10 / z := by
        rw [Nat.mul_comm y]
        exact Nat.mul_div_le_mul_div_assoc 10 y z
      have hmore : Nat.sqrt (y / z) + 1 ≤ Nat.sqrt (y * 10 / z) := by
        rw [Nat.le_sqrt]
        nlinarith
      omega
  · intro hlt
    rw [Nat.div_eq_of_lt hlt, Nat.div_eq_of_lt (by omega)]

/-- A root with an odd number of places too few, filled up with zeros, is too large. -/
theorem sqrt_odd_lt {w j : Nat} (hw : 0 < w) (hj : 0 < j) :
    Nat.sqrt (w * 10 ^ (2 * j - 1)) < Nat.sqrt w * 10 ^ j := by
  have hpos : 0 < Nat.sqrt w := Nat.sqrt_pos.mpr hw
  have hle := Nat.sqrt_le_add w
  have hten : w < Nat.sqrt w * Nat.sqrt w * 10 := by nlinarith
  have hpow : 10 ^ (2 * j) = 10 * 10 ^ (2 * j - 1) := by
    rw [← pow_succ']
    congr 1
    omega
  rw [Nat.sqrt_lt]
  calc w * 10 ^ (2 * j - 1) < Nat.sqrt w * Nat.sqrt w * 10 * 10 ^ (2 * j - 1) :=
        Nat.mul_lt_mul_of_pos_right hten (Nat.pow_pos (by decide))
    _ = Nat.sqrt w * Nat.sqrt w * 10 ^ (2 * j) := by rw [hpow, mul_assoc]
    _ = Nat.sqrt w * 10 ^ j * (Nat.sqrt w * 10 ^ j) := by rw [two_mul, pow_add]; ring

/-! ## The root -/

variable {a : Decimal} {n s r fuel : Nat}

/-- The digits of the result of `sqrt`. -/
def rootDigits (n s r : Nat) : Nat :=
  Nat.sqrt (n * 10 ^ (rootTarget s r - s)) * 10 ^ (r - rootTarget s r / 2) / 10 ^ (rootTarget s r / 2 - r)

theorem le_rootTarget (hs : s < 2 ^ 64) : s ≤ rootTarget s r := by
  by_cases hsmall : s + 2 * r + 2 < 2 ^ 64 - 1
  · exact (rootTarget_even hsmall).2.1
  · rw [rootTarget_max hsmall]
    omega

/-- **What `sqrt` computes.** -/
theorem sqrt_meets (ha : a.Holds n s) (hs : s < 2 ^ 64) (hn : 0 < n)
    (hfuel : 10 * (n * 10 ^ (rootTarget s r - s)) < fuel) :
    (a.sqrt fuel r).Meets 2 fun out => ∃ q, out = some (.ok q) ∧ q.Holds (rootDigits n s r) r := by
  have hnegative : a.isNegative = false := by
    rw [ha.isNegative, decide_eq_false]
    omega
  have hzero : a.isZero = false := by
    rw [ha.isZero, decide_eq_false]
    omega
  have hscaled := rescale_meets ha (rootTarget s r)
  rw [moved_up (le_rootTarget hs)] at hscaled
  unfold sqrt
  rw [hnegative, if_neg (by decide), hzero, if_neg (by decide)]
  dsimp only
  rw [ha.scale]
  refine Meets.bind hscaled ?_
  intro scaled hscaled
  have hdigits : scaled.digits.Represents (n * 10 ^ (rootTarget s r - s) : Nat) := by
    push_cast
    exact hscaled.digits
  refine Meets.bind (BigInt.isqrt_meets hdigits hfuel) ?_
  rintro _ ⟨root, rfl, hroot⟩
  have hhalf : Holds ⟨root, rootTarget s r / 2⟩ _ (rootTarget s r / 2) := ⟨hroot, rfl⟩
  refine Meets.bind (rescale_meets hhalf r) ?_
  intro result hresult
  rw [moved_nat] at hresult
  exact Meets.pure ⟨result, rfl, hresult⟩

/-- **When the digits are right**: below the last words, or where no digit of the root is left. -/
theorem rootDigits_right (hn : 0 < n) (hs : s < 2 ^ 64) :
    rootDigits n s r = Nat.sqrt (n * 10 ^ (2 * r) / 10 ^ s) ↔
      s + 2 * r + 2 < 2 ^ 64 - 1 ∨ n * 10 ^ (2 * r + 1) < 10 ^ s := by
  unfold rootDigits
  by_cases hsmall : s + 2 * r + 2 < 2 ^ 64 - 1
  · obtain ⟨heven, hle, hdouble⟩ := rootTarget_even hsmall
    generalize rootTarget s r = T at heven hle hdouble ⊢
    have hshift : n * 10 ^ (T - s) / 10 ^ (2 * (T / 2) - 2 * r) = n * 10 ^ (2 * r) / 10 ^ s := scale_div n (by omega)
    rw [Nat.sub_eq_zero_of_le (show r ≤ T / 2 by omega), pow_zero, mul_one, sqrt_shift n (by omega), hshift]
    exact iff_of_true rfl (Or.inl hsmall)
  · rw [rootTarget_max hsmall, or_iff_right hsmall]
    by_cases hr : r ≤ (2 ^ 64 - 1) / 2
    · have hshift : n * 10 ^ (2 ^ 64 - 1 - s) / 10 ^ (2 * ((2 ^ 64 - 1) / 2) - 2 * r) =
          n * 10 ^ (2 * r + 1) / 10 ^ s := scale_div n (by omega)
      rw [Nat.sub_eq_zero_of_le hr, pow_zero, mul_one, sqrt_shift n hr, hshift, pow_succ, ← mul_assoc]
      exact sqrt_ten (Nat.pow_pos (by decide))
    · -- The root is filled up with zeros behind a place too many.
      have hshift : n * 10 ^ (2 * r) / 10 ^ s = n * 10 ^ (2 ^ 64 - 1 - s) * 10 ^ (2 * (r - (2 ^ 64 - 1) / 2) - 1) := by
        have hsame := scale_div n (x := 2 * r) (y := s)
          (u := 2 ^ 64 - 1 - s + (2 * (r - (2 ^ 64 - 1) / 2) - 1)) (v := 0) (by omega)
        rw [hsame, pow_zero, Nat.div_one, pow_add, mul_assoc]
      rw [Nat.sub_eq_zero_of_le (show (2 ^ 64 - 1) / 2 ≤ r by omega), pow_zero, Nat.div_one, hshift]
      have hw : 0 < n * 10 ^ (2 ^ 64 - 1 - s) := Nat.mul_pos hn (Nat.pow_pos (by decide))
      refine iff_of_false (sqrt_odd_lt hw (by omega)).ne' ?_
      have hless : 10 ^ s ≤ 10 ^ (2 * r + 1) := Nat.pow_le_pow_right (by decide) (by omega)
      exact Nat.not_lt.mpr (hless.trans (Nat.le_mul_of_pos_left _ hn))

/-- `sqrt` gives the root cut to `r` places, whatever the number of rounds above some bound. -/
def RootsTo (x : Decimal) (r : Nat) : Prop :=
  ∃ rounds, ∀ fuel, rounds ≤ fuel → (x.sqrt fuel r).Meets 2 fun out =>
    ∃ q, out = some (.ok q) ∧ (q.toRat : ℝ) = truncateRoot x.toRat r

/-- **When `sqrt` is right.** -/
theorem rootsTo_iff (ha : a.Holds n s) (hs : s < 2 ^ 64) :
    RootsTo a r ↔ s + 2 * r + 2 < 2 ^ 64 - 1 ∨ n * 10 ^ (2 * r + 1) < 10 ^ s := by
  have hten : (10 : ℝ) ^ r ≠ 0 := by positivity
  rcases Nat.eq_zero_or_pos n with rfl | hn
  · -- Zero is its own root.
    have hnegative : a.isNegative = false := by rw [ha.isNegative, decide_eq_false (by decide)]
    have hzero : a.isZero = true := by rw [ha.isZero, Int.natCast_zero, decide_eq_true rfl]
    refine iff_of_true ⟨0, fun fuel _ => ?_⟩ (Or.inr ?_)
    · unfold sqrt
      rw [hnegative, if_neg (by decide), hzero, if_pos rfl]
      refine Meets.pure ⟨_, rfl, ?_⟩
      rw [ha.toRat, Int.natCast_zero, Int.cast_zero, zero_div]
      simp [truncateRoot, Decimal.zero, Decimal.toRat, BigInt.zero, BigInt.toInt]
    · rw [Nat.zero_mul]
      exact Nat.pow_pos (by decide)
  · have hvalue : ∀ q : Decimal, q.Holds (rootDigits n s r) r →
        ((q.toRat : ℝ) = truncateRoot a.toRat r ↔ rootDigits n s r = Nat.sqrt (n * 10 ^ (2 * r) / 10 ^ s)) := by
      intro q hq
      rw [hq.toRat, ha.toRat, Int.cast_natCast, Int.cast_natCast, truncateRoot_div]
      push_cast
      rw [div_left_inj' hten]
      exact_mod_cast Iff.rfl
    rw [← rootDigits_right hn hs]
    constructor
    · rintro ⟨rounds, hright⟩
      obtain ⟨q, hq, heq⟩ := (hright _ (Nat.le_max_left rounds _)).val
      obtain ⟨q', hq', hholds⟩ :=
        (sqrt_meets (r := r) ha hs hn (Nat.lt_of_lt_of_le (Nat.lt_succ_self _) (Nat.le_max_right rounds _))).val
      rw [hq] at hq'
      cases hq'
      exact (hvalue q hholds).mp heq
    · intro hright
      refine ⟨10 * (n * 10 ^ (rootTarget s r - s)) + 1, fun fuel hfuel => ?_⟩
      refine (sqrt_meets ha hs hn hfuel).mono ?_
      rintro _ ⟨q, rfl, hq⟩
      exact ⟨q, rfl, (hvalue q hq).mpr hright⟩

/-- **The integer root is exact, and the decimal root up to the end of the words**: `sqrt` cuts the exact root
if and only if the working scale fits below the largest word or the number has no digit of a root at that
scale. -/
theorem roots_exact {m : BigInt} {x : Decimal} (hm : m.Normalized) (hsign : m.negative = false) (hx : x.Wf)
    (hnonneg : x.isNegative = false) (r : Nat) :
    (∃ rounds, ∀ fuel, rounds ≤ fuel → (m.isqrt fuel).Meets 2 fun out =>
      ∃ q, out = some q ∧ q.Represents (Nat.sqrt m.toInt.toNat)) ∧
    (RootsTo x r ↔ x.scale + 2 * r + 2 < 2 ^ 64 - 1 ∨ x.toRat * 10 ^ (2 * r + 1) < 1) := by
  constructor
  · have hpos : 0 ≤ m.toInt := by
      have hsignOf := hm.represents.sign
      rwa [hsign] at hsignOf
    have hnat : m.Represents m.toInt.toNat := by
      rw [Int.toNat_of_nonneg hpos]
      exact hm.represents
    exact ⟨10 * m.toInt.toNat + 1, fun fuel hfuel => BigInt.isqrt_meets hnat hfuel⟩
  · have hpos : 0 ≤ x.digits.toInt := by
      have hsignOf := hx.digits.represents.sign
      rwa [show x.digits.negative = false from hnonneg] at hsignOf
    have hholds : x.Holds x.digits.toInt.toNat x.scale := by
      rw [Int.toNat_of_nonneg hpos]
      exact hx.holds
    rw [rootsTo_iff hholds hx.scale]
    have hsmall : x.toRat * 10 ^ (2 * r + 1) < 1 ↔ x.digits.toInt.toNat * 10 ^ (2 * r + 1) < 10 ^ x.scale := by
      rw [hholds.toRat, div_mul_eq_mul_div, div_lt_one (by positivity)]
      exact_mod_cast Iff.rfl
    rw [hsmall]

/-- The root of two, and that of the integer two. -/
theorem roots_exact_two :
    (∃ rounds, ∀ fuel, rounds ≤ fuel → (BigInt.isqrt fuel ⟨false, [2]⟩).Meets 2 fun out =>
      ∃ q, out = some q ∧ q.Represents (Nat.sqrt 2)) ∧
    (RootsTo ⟨⟨false, [2]⟩, 0⟩ 40 ↔
      0 + 2 * 40 + 2 < 2 ^ 64 - 1 ∨ Decimal.toRat ⟨⟨false, [2]⟩, 0⟩ * 10 ^ (2 * 40 + 1) < 1) :=
  roots_exact (m := ⟨false, [2]⟩) (x := ⟨⟨false, [2]⟩, 0⟩) ⟨by decide, by decide, by decide, by decide⟩ rfl
    ⟨⟨by decide, by decide, by decide, by decide⟩, by decide⟩ rfl 40

/-- `10^-(2^64-2)` has the root `10^-(2^63-1)`, and `sqrt` makes a three of its last digit: the working scale is
the largest word and odd. -/
theorem root_at_the_last_word : ¬ RootsTo ⟨⟨false, [1]⟩, 2 ^ 64 - 2⟩ (2 ^ 63 - 1) := by
  have hholds : Holds ⟨⟨false, [1]⟩, 2 ^ 64 - 2⟩ (1 : Nat) (2 ^ 64 - 2) :=
    ⟨⟨⟨by decide, by decide, by decide, by decide⟩, by decide⟩, rfl⟩
  rw [rootsTo_iff hholds (by decide)]
  rintro (hwords | hdigits)
  · exact absurd hwords (by decide)
  · rw [Nat.one_mul, Nat.pow_lt_pow_iff_right (by decide)] at hdigits
    exact absurd hdigits (by decide)

end Decimal

end SlateOS.Bignum
