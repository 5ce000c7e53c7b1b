/-
# SlateOS.Foundation.QuotientEstimate -- estimating one digit of a quotient

Long division in base `B` finds each digit of the quotient from the top of the remaining dividend and of the
divisor. Let the window be `W = (d * B + u) * P + low` and the divisor `V = (t * B + s) * P + vlow`, where
`P` is a power of the base and the lower parts are below it: `d` is the top two digits of the window, `u` the
third, `t` and `s` the top two of the divisor. An estimate `q` with rest `r` satisfies `q * t + r = d`. The
facts here are what keeps an estimate at or one above `W / V`; they are about natural numbers only.
-/
import Mathlib.Analysis.Real.Sqrt
import Mathlib.Algebra.Order.Floor.Semifield
import Mathlib.Tactic.Ring

/-! ## Rational numbers cut to decimal digits

`truncate x k` is the number with `k` fractional digits that is nearest to `x` on the side of zero, and
`truncateRoot x k` is the square root of `x` cut in the same way. Both are computed on quotients of integers
with integer division and the integer square root.
-/

namespace SlateOS.Foundation

namespace Truncation

/-- The integer part of a rational number, toward zero. -/
def cut (x : ℚ) : ℤ := if 0 ≤ x then ⌊x⌋ else ⌈x⌉

/-- A rational number cut to `k` fractional digits. -/
def truncate (x : ℚ) (k : ℕ) : ℚ := cut (x * 10 ^ k) / 10 ^ k

/-- The square root of a rational number, cut to `k` fractional digits. -/
noncomputable def truncateRoot (x : ℚ) (k : ℕ) : ℝ := ⌊√(x : ℝ) * 10 ^ k⌋₊ / 10 ^ k

theorem cut_natDiv (p q : ℕ) : cut ((p : ℚ) / q) = (p / q : ℕ) := by
  have hpos : (0 : ℚ) ≤ p / q := by positivity
  rw [cut, if_pos hpos]
  have hfloor := Rat.floor_intCast_div_natCast p q
  rwa [Int.cast_natCast, ← Int.natCast_div] at hfloor

theorem cut_neg (x : ℚ) : cut (-x) = -cut x := by
  unfold cut
  rcases lt_trichotomy x 0 with hlt | rfl | hgt
  · rw [if_pos (by linarith), if_neg (by linarith), Int.floor_neg]
  · simp
  · rw [if_neg (by linarith), if_pos hgt.le, Int.ceil_neg]

/-- **The integer part of a quotient** is integer division toward zero. -/
theorem cut_div (p q : ℤ) : cut ((p : ℚ) / q) = p.tdiv q := by
  obtain ⟨n, hp⟩ := Int.eq_nat_or_neg p
  obtain ⟨m, hq⟩ := Int.eq_nat_or_neg q
  have hquotient : cut ((n : ℚ) / m) = (n : ℤ).tdiv m := by rw [cut_natDiv, Int.ofNat_tdiv]
  rcases hp with rfl | rfl <;> rcases hq with rfl | rfl
  · rwa [Int.cast_natCast, Int.cast_natCast]
  · rw [Int.cast_natCast, Int.cast_neg, Int.cast_natCast, div_neg, cut_neg, Int.tdiv_neg, hquotient]
  · rw [Int.cast_natCast, Int.cast_neg, Int.cast_natCast, neg_div, cut_neg, Int.neg_tdiv, hquotient]
  · rw [Int.cast_neg, Int.cast_neg, Int.cast_natCast, Int.cast_natCast, neg_div_neg_eq, Int.neg_tdiv,
      Int.tdiv_neg, neg_neg, hquotient]

/-- Digits over a power of ten, cut. -/
theorem truncate_div (p q : ℤ) (k : ℕ) : truncate ((p : ℚ) / q) k = (p * 10 ^ k).tdiv q / 10 ^ k := by
  have hmul : (p : ℚ) / q * 10 ^ k = ((p * 10 ^ k : ℤ) : ℚ) / q := by
    push_cast
    ring
  rw [truncate, hmul, cut_div]

/-- The floor of a square root. -/
theorem floor_sqrt {x : ℝ} (hx : 0 ≤ x) : ⌊√x⌋₊ = Nat.sqrt ⌊x⌋₊ := by
  refine eq_of_forall_le_iff fun n => ?_
  rw [Nat.le_floor_iff (Real.sqrt_nonneg x), Real.le_sqrt (Nat.cast_nonneg n) hx, Nat.le_sqrt, Nat.le_floor_iff hx, pow_two]
  push_cast
  rfl

/-- **The root of a decimal**, cut: the integer root of its digits with twice as many places. -/
theorem truncateRoot_div (n s k : ℕ) :
    truncateRoot ((n : ℚ) / 10 ^ s) k = Nat.sqrt (n * 10 ^ (2 * k) / 10 ^ s) / 10 ^ k := by
  have hscaled : √(((n : ℚ) / 10 ^ s : ℚ) : ℝ) * 10 ^ k = √((n * 10 ^ (2 * k) : ℕ) / (10 ^ s : ℕ)) := by
    have hpow : √((10 : ℝ) ^ (2 * k)) = 10 ^ k := by
      rw [mul_comm, pow_mul]
      exact Real.sqrt_sq (by positivity)
    rw [← hpow, ← Real.sqrt_mul' _ (by positivity)]
    congr 1
    push_cast
    ring
  have hfloor : ⌊((n * 10 ^ (2 * k) : ℕ) / (10 ^ s : ℕ) : ℝ)⌋₊ = n * 10 ^ (2 * k) / 10 ^ s :=
    Nat.floor_div_eq_div _ _
  rw [truncateRoot, hscaled, floor_sqrt (by positivity), hfloor]

/-- A root and then a division are a division and then a root. -/
theorem sqrt_div (n m : ℕ) (hm : 0 < m) : Nat.sqrt n / m = Nat.sqrt (n / (m * m)) := by
  refine eq_of_forall_le_iff fun k => ?_
  rw [Nat.le_div_iff_mul_le hm, Nat.le_sqrt, Nat.le_sqrt, Nat.le_div_iff_mul_le (Nat.mul_pos hm hm)]
  rw [show k * m * (k * m) = k * k * (m * m) by ring]

end Truncation

end SlateOS.Foundation

/-! ## Estimating one digit of a quotient -/

namespace SlateOS.Foundation.QuotientEstimate

/-- A window and a divisor seen from the top: the digits that the estimate looks at, and the rest. -/
structure View (B P W V d u t s : Nat) : Prop where
  window : ∃ low < P, W = (d * B + u) * P + low
  divisor : ∃ vlow < P, V = (t * B + s) * P + vlow
  third : u < B
  second : s < B
  /-- The quotient is a single digit. -/
  digit : W < V * B
  top : 0 < t

variable {B P W V d u t s q r : Nat}

theorem View.divisor_pos (h : View B P W V d u t s) : 0 < V := by
  have hdigit := h.digit
  rcases Nat.eq_zero_or_pos V with hzero | hpos
  · rw [hzero, Nat.zero_mul] at hdigit
    omega
  · exact hpos

theorem View.le_window (h : View B P W V d u t s) : (d * B + u) * P ≤ W := by
  obtain ⟨low, -, hW⟩ := h.window
  rw [hW]
  exact Nat.le_add_right _ _

theorem View.window_lt (h : View B P W V d u t s) : W < (d * B + u + 1) * P := by
  obtain ⟨low, hlow, hW⟩ := h.window
  rw [hW, Nat.succ_mul]
  exact Nat.add_lt_add_left hlow _

theorem View.le_divisor (h : View B P W V d u t s) : (t * B + s) * P ≤ V := by
  obtain ⟨vlow, -, hV⟩ := h.divisor
  rw [hV]
  exact Nat.le_add_right _ _

theorem View.divisor_lt (h : View B P W V d u t s) : V < (t * B + s + 1) * P := by
  obtain ⟨vlow, hvlow, hV⟩ := h.divisor
  rw [hV, Nat.succ_mul]
  exact Nat.add_lt_add_left hvlow _

/-- The divisor is at least its top digit, in place. -/
theorem View.top_le_divisor (h : View B P W V d u t s) : t * (B * P) ≤ V := by
  calc t * (B * P) = t * B * P := (Nat.mul_assoc _ _ _).symm
    _ ≤ (t * B + s) * P := Nat.mul_le_mul_right P (Nat.le_add_right _ _)
    _ ≤ V := h.le_divisor

/-- And below the next one. -/
theorem View.divisor_le_top (h : View B P W V d u t s) : V ≤ (t + 1) * (B * P) := by
  have hsecond : t * B + s + 1 ≤ (t + 1) * B := by
    have hlt := h.second
    rw [Nat.succ_mul]
    omega
  calc V ≤ (t * B + s + 1) * P := h.divisor_lt.le
    _ ≤ (t + 1) * B * P := Nat.mul_le_mul_right P hsecond
    _ = (t + 1) * (B * P) := Nat.mul_assoc _ _ _

/-- The true digit is not above the first estimate. -/
theorem View.le_first (h : View B P W V d u t s) : W / V ≤ d / t := by
  rw [Nat.le_div_iff_mul_le h.top]
  have hthird : d * B + u + 1 ≤ (d + 1) * B := by
    have hlt := h.third
    rw [Nat.succ_mul]
    omega
  -- `x * t` is below `d + 1`, seen at the place of the top digits.
  have hlt : W / V * t * (B * P) < (d + 1) * (B * P) := by
    calc W / V * t * (B * P) = W / V * (t * (B * P)) := Nat.mul_assoc _ _ _
      _ ≤ W / V * V := Nat.mul_le_mul_left _ h.top_le_divisor
      _ ≤ W := Nat.div_mul_le_self W V
      _ < (d * B + u + 1) * P := h.window_lt
      _ ≤ (d + 1) * B * P := Nat.mul_le_mul_right P hthird
      _ = (d + 1) * (B * P) := Nat.mul_assoc _ _ _
  exact Nat.le_of_lt_succ (Nat.lt_of_mul_lt_mul_right hlt)

/-- An estimate that the second digit of the divisor refutes is above the true digit. -/
theorem View.lt_of_refuted (h : View B P W V d u t s) (hqr : q * t + r = d)
    (hbig : r * B + u < q * s) : W / V < q := by
  by_contra hge
  have hle : q * V ≤ W := (Nat.mul_le_mul_right V (Nat.le_of_not_lt hge)).trans (Nat.div_mul_le_self W V)
  have hlt : q * (t * B + s) * P < (d * B + u + 1) * P := by
    calc q * (t * B + s) * P = q * ((t * B + s) * P) := Nat.mul_assoc _ _ _
      _ ≤ q * V := Nat.mul_le_mul_left q h.le_divisor
      _ ≤ W := hle
      _ < (d * B + u + 1) * P := h.window_lt
  have hdigits : q * (t * B + s) < d * B + u + 1 := Nat.lt_of_mul_lt_mul_right hlt
  have hleft : q * (t * B + s) = q * t * B + q * s := by ring
  have hright : d * B = q * t * B + r * B := by rw [← hqr, Nat.add_mul]
  omega

/-- An estimate that is a digit and not refuted is at most one too large. -/
theorem View.le_succ_of_accepted (h : View B P W V d u t s) (hqr : q * t + r = d) (hdigit : q < B)
    (hfits : q * s ≤ r * B + u) : q * V ≤ W + V := by
  obtain ⟨vlow, hvlow, hV⟩ := h.divisor
  have hdigits : q * (t * B + s) ≤ d * B + u := by
    have hleft : q * (t * B + s) = q * t * B + q * s := by ring
    have hright : d * B = q * t * B + r * B := by rw [← hqr, Nat.add_mul]
    omega
  have hmain : q * (t * B + s) * P ≤ W := (Nat.mul_le_mul_right P hdigits).trans h.le_window
  have hrest : q * vlow ≤ V := by
    calc q * vlow ≤ B * P := Nat.mul_le_mul hdigit.le hvlow.le
      _ ≤ t * (B * P) := Nat.le_mul_of_pos_left _ h.top
      _ ≤ V := h.top_le_divisor
  calc q * V = q * (t * B + s) * P + q * vlow := by
        rw [hV]
        ring
    _ ≤ W + V := Nat.add_le_add hmain hrest

/-- An estimate whose rest has reached the base is not too large. -/
theorem View.le_of_rest (h : View B P W V d u t s) (hqr : q * t + r = d) (hq : q ≤ B) (hr : B ≤ r) :
    q * V ≤ W := by
  have hplace : d * (B * P) ≤ W := by
    calc d * (B * P) = d * B * P := (Nat.mul_assoc _ _ _).symm
      _ ≤ (d * B + u) * P := Nat.mul_le_mul_right P (Nat.le_add_right _ _)
      _ ≤ W := h.le_window
  calc q * V ≤ q * ((t + 1) * (B * P)) := Nat.mul_le_mul_left q h.divisor_le_top
    _ = (q * t + q) * (B * P) := by ring
    _ ≤ d * (B * P) := Nat.mul_le_mul_right _ (by omega)
    _ ≤ W := hplace

/-! ## Scaling -/

/-- The factor that brings the top digit of a divisor to at least half of an even base, in the same number of
digits. -/
theorem scale_spec (heven : 2 ∣ B) (hpos : 0 < t) (hlt : t < B) :
    0 < B / (t + 1) ∧ B / (t + 1) * (t + 1) ≤ B ∧ B ≤ 2 * (B / (t + 1) * t) := by
  have hscale : 0 < B / (t + 1) := Nat.div_pos hlt (Nat.succ_pos t)
  refine ⟨hscale, Nat.div_mul_le_self B (t + 1), ?_⟩
  have hup : B < (t + 1) * (B / (t + 1) + 1) := Nat.lt_mul_div_succ B (Nat.succ_pos t)
  obtain ⟨x, hx⟩ := Nat.exists_eq_succ_of_ne_zero hscale.ne'
  obtain ⟨y, rfl⟩ := Nat.exists_eq_succ_of_ne_zero hpos.ne'
  rw [hx] at hup ⊢
  have hleft : (y.succ + 1) * (x.succ + 1) = x * y + 2 * x + 2 * y + 4 := by
    simp only [Nat.succ_eq_add_one]
    ring
  have hright : 2 * (x.succ * y.succ) = 2 * (x * y) + 2 * x + 2 * y + 2 := by
    simp only [Nat.succ_eq_add_one]
    ring
  omega

/-! ## Subtracting the estimate

`q * V` is taken from the window `W = start + N * hi`, whose lower part has `N` as its bound: `low` is what
is left there and `borrow` what was borrowed from `hi`. -/

section Settle

variable {N start hi low borrow : Nat}

/-- When the borrow can be paid, the estimate is the digit and the rest is in place. -/
theorem settle_fits (hpos : 0 < V) (hN : V ≤ N) (hq : W / V ≤ q) (hW : W = start + N * hi)
    (hbalance : low + q * V = start + N * borrow) (hle : borrow ≤ hi) :
    q = W / V ∧ low = W % V ∧ hi = borrow := by
  obtain ⟨e, rfl⟩ := Nat.exists_eq_add_of_le hle
  have hrest : W = low + N * e + q * V := by
    rw [hW, Nat.mul_add]
    omega
  have hqle : q ≤ W / V := by
    rw [Nat.le_div_iff_mul_le hpos, hrest]
    exact Nat.le_add_left _ _
  have hqeq : q = W / V := le_antisymm hqle hq
  have hmod : W % V = low + N * e := by
    have hsplit := Nat.mod_add_div' W V
    rw [← hqeq] at hsplit
    omega
  have hlt := Nat.mod_lt W hpos
  have hzero : e = 0 := by
    rcases Nat.eq_zero_or_pos e with hzero | he
    · exact hzero
    · have hle : N * 1 ≤ N * e := Nat.mul_le_mul_left N he
      omega
  subst hzero
  exact ⟨hqeq, by omega, rfl⟩

/-- When it cannot, the estimate is one too large, the debt is one and adding `V` back gives the rest. -/
theorem settle_over (hpos : 0 < V) (hN : V ≤ N) (hlow : low < N) (hq : q * V ≤ W + V)
    (hW : W = start + N * hi) (hbalance : low + q * V = start + N * borrow) (hlt : hi < borrow) :
    q = W / V + 1 ∧ borrow = hi + 1 ∧ low + V = W % V + N := by
  obtain ⟨e, rfl⟩ := Nat.exists_eq_add_of_lt hlt
  have hdebt : low + q * V = W + N * (e + 1) := by
    rw [hW, hbalance]
    ring
  have hunit : N * 1 ≤ N * (e + 1) := Nat.mul_le_mul_left N (by omega)
  have hgt : W / V < q := by
    rw [Nat.div_lt_iff_lt_mul hpos]
    omega
  have hqle : q ≤ W / V + 1 := by
    rw [← Nat.add_div_right W hpos, Nat.le_div_iff_mul_le hpos]
    exact hq
  have hqeq : q = W / V + 1 := by omega
  have hsplit := Nat.mod_add_div' W V
  have hsum : low + V = W % V + N * (e + 1) := by
    rw [hqeq, Nat.succ_mul] at hdebt
    omega
  have hzero : e = 0 := by
    rcases Nat.eq_zero_or_pos e with hzero | he
    · exact hzero
    · have hle : N * 2 ≤ N * (e + 1) := Nat.mul_le_mul_left N (by omega)
      omega
  subst hzero
  refine ⟨hqeq, rfl, ?_⟩
  rw [hsum, Nat.zero_add, Nat.mul_one]

end Settle

end SlateOS.Foundation.QuotientEstimate
