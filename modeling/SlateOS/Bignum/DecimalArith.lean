/-
# SlateOS.Bignum.DecimalArith -- where decimals are cut

`div`, `modulo`, `multiply` and `pow` of `userspace/bignum/src/decimal.rs` against the rational numbers that
their decimals stand for. Each cuts its exact result once, as long as the scales that it adds up fit a word. A
negative power is cut twice: the power is brought to the scale of a power before it divides one.
-/
import SlateOS.Bignum.DecimalRoot

namespace SlateOS.Bignum

open Foundation Foundation.MachineInt Foundation.Traced
open Foundation.Truncation (cut cut_div truncate truncate_div)

/-! ## Division toward zero -/

section Division

variable {p q A n : Int}

theorem ten_cast (k : Nat) : ((10 ^ k : Nat) : Int) = 10 ^ k := by
  push_cast
  rfl

/-- Powers of ten that a numerator and a denominator share. -/
theorem tdiv_scale (p q : Int) {x y u v : Nat} (h : x + v = u + y) :
    (p * 10 ^ x).tdiv (q * 10 ^ y) = (p * 10 ^ u).tdiv (q * 10 ^ v) := by
  have hten : ∀ k : Nat, (0 : Int) < 10 ^ k := fun k => by positivity
  calc (p * 10 ^ x).tdiv (q * 10 ^ y) = (p * 10 ^ x * 10 ^ v).tdiv (q * 10 ^ y * 10 ^ v) :=
        (Int.mul_tdiv_mul_of_pos_left _ _ (hten v)).symm
    _ = (p * 10 ^ u * 10 ^ y).tdiv (q * 10 ^ v * 10 ^ y) := by
        rw [mul_assoc, ← pow_add, h, pow_add, ← mul_assoc, mul_right_comm q]
    _ = (p * 10 ^ u).tdiv (q * 10 ^ v) := Int.mul_tdiv_mul_of_pos_left _ _ (hten y)

/-- A quotient filled up with zeros is the quotient of the filled dividend when the rest has no more digits. -/
theorem tdiv_fill (hn : n ≠ 0) (A : Int) (c : Nat) :
    A.tdiv n * c = (A * c).tdiv n ↔ (A.tmod n).natAbs * c < n.natAbs := by
  have hsplit := Int.mul_tdiv_add_tmod A n
  have hrest : A * c = A.tmod n * c + n * (A.tdiv n * c) := by
    conv_lhs => rw [← hsplit]
    ring
  constructor
  · intro heq
    have hmod : (A * c).tmod n = A.tmod n * c := by
      have hall := Int.mul_tdiv_add_tmod (A * c) n
      rw [← heq] at hall
      linarith
    have hlt : ((A * c).tmod n).natAbs < n.natAbs := by
      rw [Int.natAbs_tmod]
      exact Nat.mod_lt _ (Int.natAbs_pos.mpr hn)
    rwa [hmod, Int.natAbs_mul, Int.natAbs_natCast] at hlt
  · intro hlt
    have hcast : ((A.tmod n * c).natAbs : Int) < n.natAbs := by
      rw [Int.natAbs_mul, Int.natAbs_natCast]
      exact_mod_cast hlt
    have hc : (0 : Int) ≤ c := Int.natCast_nonneg c
    rcases Int.le_total 0 A with hA | hA
    · have hmod : 0 ≤ A.tmod n * c := mul_nonneg (Int.tmod_nonneg n hA) hc
      exact ((Int.tdiv_tmod_unique (mul_nonneg hA hc) hn).mpr ⟨hrest.symm, hmod, by omega⟩).1.symm
    · have hneg : A.tmod n ≤ 0 := by
        have hpos := Int.tmod_nonneg n (Int.neg_nonneg_of_nonpos hA)
        rw [Int.neg_tmod] at hpos
        omega
      have hmod : A.tmod n * c ≤ 0 := mul_nonpos_of_nonpos_of_nonneg hneg hc
      exact ((Int.tdiv_tmod_unique' (mul_nonpos_of_nonpos_of_nonneg hA hc) hn).mpr
        ⟨hrest.symm, by omega, hmod⟩).1.symm

/-- Two divisions toward zero are one. -/
theorem tdiv_tdiv (A n : Int) (c : Nat) : (A.tdiv n).tdiv c = A.tdiv (n * c) := by
  have hnat : ∀ x y : Nat, ((x : Int).tdiv y).tdiv c = (x : Int).tdiv (y * c) := by
    intro x y
    rw [← Int.ofNat_tdiv, ← Int.ofNat_tdiv, Nat.div_div_eq_div_mul, ← Int.natCast_mul, ← Int.ofNat_tdiv]
  obtain ⟨x, rfl | rfl⟩ := Int.eq_nat_or_neg A <;> obtain ⟨y, rfl | rfl⟩ := Int.eq_nat_or_neg n
  · exact hnat x y
  · rw [Int.tdiv_neg, Int.neg_tdiv, hnat, Int.neg_mul, Int.tdiv_neg]
  · rw [Int.neg_tdiv, Int.neg_tdiv, hnat, Int.neg_tdiv]
  · rw [Int.neg_tdiv, Int.tdiv_neg, neg_neg, hnat, Int.neg_mul, Int.tdiv_neg, Int.neg_tdiv, neg_neg]

/-- A quotient filled up twice is that of the dividend filled up once only when both are zero. -/
theorem tdiv_twice (hn : n ≠ 0) (A : Int) {c : Nat} (hc : 2 ≤ c) :
    A.tdiv n * c * c = (A * c).tdiv n ↔ (A * c).tdiv n = 0 := by
  have hpos : 0 < n.natAbs := Int.natAbs_pos.mpr hn
  have hexact : ((A * c).tdiv n).natAbs = A.natAbs * c / n.natAbs := by
    rw [Int.natAbs_tdiv, Int.natAbs_mul, Int.natAbs_natCast]
    rfl
  have hcut : (A.tdiv n).natAbs = A.natAbs / n.natAbs := Int.natAbs_tdiv A n
  constructor
  · intro heq
    by_contra hne
    have hnat : A.natAbs / n.natAbs * c * c = A.natAbs * c / n.natAbs := by
      rw [← hexact, ← heq, Int.natAbs_mul, Int.natAbs_mul, Int.natAbs_natCast, hcut]
    have hsome : A.natAbs / n.natAbs ≠ 0 := by
      intro hzero
      rw [hzero, Nat.zero_mul, Nat.zero_mul, ← hexact, eq_comm, Int.natAbs_eq_zero] at hnat
      exact hne hnat
    have hless : A.natAbs * c / n.natAbs < (A.natAbs / n.natAbs + 1) * c := by
      rw [Nat.div_lt_iff_lt_mul hpos]
      have hrest := Nat.lt_mul_div_succ A.natAbs hpos
      calc A.natAbs * c < n.natAbs * (A.natAbs / n.natAbs + 1) * c := Nat.mul_lt_mul_of_pos_right hrest (by omega)
        _ = (A.natAbs / n.natAbs + 1) * c * n.natAbs := by ring
    rw [← hnat] at hless
    have htwice := Nat.lt_of_mul_lt_mul_right hless
    have hdouble : A.natAbs / n.natAbs * 2 ≤ A.natAbs / n.natAbs * c := Nat.mul_le_mul_left _ hc
    omega
  · intro hzero
    rw [hzero, Int.natAbs_zero, eq_comm, Nat.div_eq_zero_iff] at hexact
    have hsmall : A.natAbs < n.natAbs := by
      have hle : A.natAbs ≤ A.natAbs * c := Nat.le_mul_of_pos_right _ (by omega)
      omega
    have hcutZero : A.tdiv n = 0 := by
      rw [← Int.natAbs_eq_zero, hcut]
      exact Nat.div_eq_of_lt hsmall
    rw [hcutZero, hzero, zero_mul, zero_mul]

/-- Cutting more digits gives the same only when there are none left. -/
theorem tdiv_pow_eq_iff {x y : Nat} (hlt : x < y) :
    p.tdiv (10 ^ x) = p.tdiv (10 ^ y) ↔ p.natAbs < 10 ^ x := by
  have habs : ∀ k : Nat, (p.tdiv (10 ^ k)).natAbs = p.natAbs / 10 ^ k := by
    intro k
    rw [Int.natAbs_tdiv, Int.natAbs_pow]
    rfl
  constructor
  · intro heq
    by_contra hge
    have hnat : p.natAbs / 10 ^ x = p.natAbs / 10 ^ y := by rw [← habs, ← habs, heq]
    have hone : 1 ≤ p.natAbs / 10 ^ x := by
      rw [Nat.le_div_iff_mul_le (Nat.pow_pos (by decide)), Nat.one_mul]
      exact Nat.not_lt.mp hge
    have hless : p.natAbs / 10 ^ y ≤ p.natAbs / 10 ^ x / 10 := by
      rw [Nat.div_div_eq_div_mul, ← pow_succ]
      exact Nat.div_le_div_left (Nat.pow_le_pow_right (by decide) hlt) (Nat.pow_pos (by decide))
    omega
  · intro hsmall
    have hmore : p.natAbs < 10 ^ y := hsmall.trans (Nat.pow_lt_pow_right (by decide) hlt)
    rw [Decimal.tdiv_pow_eq_zero hsmall, Decimal.tdiv_pow_eq_zero hmore]

end Division

namespace Decimal

variable {a b : Decimal} {m n : Int} {sa sb r scale : Nat}

variable {t : Nat}

theorem Holds.toRat_eq_iff {q : Decimal} {x y : Int} (hq : q.Holds x t) :
    q.toRat = (y : ℚ) / 10 ^ t ↔ x = y := by
  rw [hq.toRat, div_left_inj' (by positivity)]
  exact_mod_cast Iff.rfl

/-! ## Quotients -/

/-- The digits of the exact quotient, cut to `r` places. -/
def quotientDigits (m n : Int) (sa sb r : Nat) : Int := (m * 10 ^ (sb + r)).tdiv (n * 10 ^ sa)

theorem truncate_quotient (ha : a.Holds m sa) (hb : b.Holds n sb) (r : Nat) :
    truncate (a.toRat / b.toRat) r = quotientDigits m n sa sb r / 10 ^ r := by
  have hdiv : a.toRat / b.toRat = ((m * 10 ^ sb : Int) : ℚ) / ((n * 10 ^ sa : Int) : ℚ) := by
    rw [ha.toRat, hb.toRat]
    push_cast
    field_simp
  rw [hdiv, truncate_div, quotientDigits, pow_add, mul_assoc]

/-- The digits that `div` computes. -/
def divDigits (m n : Int) (sa sb r : Nat) : Int :=
  moved ((moved m sa (max sa (addUsize r sb))).tdiv n) (max sa (addUsize r sb) - sb) r

theorem divDigits_of_fit (hfit : r + sb < 2 ^ 64) : divDigits m n sa sb r = quotientDigits m n sa sb r := by
  have hneeded : addUsize r sb = r + sb := saturatingAdd_of_lt hfit
  unfold divDigits quotientDigits
  rw [hneeded, moved_up (Nat.le_max_left _ _), moved_down (by omega), ← ten_cast (max sa (r + sb) - sb - r), tdiv_tdiv,
    ten_cast]
  exact tdiv_scale m n (by omega)

/-- At the end of the words: the quotient stops at the last place, and the places behind it are filled up. -/
theorem divDigits_of_full (hsa : sa < 2 ^ 64) (hsb : sb < 2 ^ 64) (hfull : ¬ r + sb < 2 ^ 64) :
    divDigits m n sa sb r =
        (m * 10 ^ (2 ^ 64 - 1 - sa)).tdiv n * (10 ^ (r + sb - (2 ^ 64 - 1)) : Nat) ∧
      quotientDigits m n sa sb r =
        (m * 10 ^ (2 ^ 64 - 1 - sa) * (10 ^ (r + sb - (2 ^ 64 - 1)) : Nat)).tdiv n := by
  have hneeded : addUsize r sb = 2 ^ 64 - 1 := by
    unfold addUsize saturatingAdd maxVal
    omega
  have hmax : max sa (2 ^ 64 - 1) = 2 ^ 64 - 1 := Nat.max_eq_right (by omega)
  have hplaces : r - (2 ^ 64 - 1 - sb) = r + sb - (2 ^ 64 - 1) := by omega
  unfold divDigits quotientDigits
  rw [hneeded, hmax, moved_up (s := sa) (by omega), moved_up (by omega), hplaces, ten_cast]
  refine ⟨rfl, ?_⟩
  rw [tdiv_scale m n (u := 2 ^ 64 - 1 - sa + (r + sb - (2 ^ 64 - 1))) (v := 0) (by omega), pow_zero, mul_one,
    pow_add, ← mul_assoc]

/-- **When a quotient has the right digits**: the places that it needs fit a word, or those that do not are
zeros. -/
theorem divDigits_right (hn : n ≠ 0) (hsa : sa < 2 ^ 64) (hsb : sb < 2 ^ 64) :
    divDigits m n sa sb r = quotientDigits m n sa sb r ↔
      r + sb < 2 ^ 64 ∨
        ((m * 10 ^ (2 ^ 64 - 1 - sa)).tmod n).natAbs * 10 ^ (r + sb - (2 ^ 64 - 1)) < n.natAbs := by
  by_cases hfit : r + sb < 2 ^ 64
  · exact iff_of_true (divDigits_of_fit hfit) (Or.inl hfit)
  · obtain ⟨hcode, hexact⟩ := divDigits_of_full (m := m) (n := n) hsa hsb hfit
    rw [hcode, hexact, or_iff_right hfit]
    exact tdiv_fill hn _ _

/-- `div` gives the exact quotient cut to `r` places. -/
def DividesTo (a b : Decimal) (r : Nat) : Prop :=
  (a.div b r).Meets 2 fun out => ∃ q, out = .ok q ∧ q.toRat = truncate (a.toRat / b.toRat) r

/-- **When `div` is right.** -/
theorem dividesTo_iff (ha : a.Holds m sa) (hb : b.Holds n sb) (hn : n ≠ 0) :
    DividesTo a b r ↔ divDigits m n sa sb r = quotientDigits m n sa sb r := by
  have hmeets := div_meets ha hb hn r
  unfold DividesTo
  constructor
  · intro hright
    obtain ⟨q, hq, hvalue⟩ := hright.val
    obtain ⟨q', hq', hholds⟩ := hmeets.val
    rw [hq] at hq'
    cases hq'
    rw [truncate_quotient ha hb] at hvalue
    exact hholds.toRat_eq_iff.mp hvalue
  · intro hright
    refine hmeets.mono ?_
    rintro _ ⟨q, rfl, hholds⟩
    refine ⟨q, rfl, ?_⟩
    rw [truncate_quotient ha hb]
    exact hholds.toRat_eq_iff.mpr hright

/-! ## Remainders -/

/-- `modulo` gives what the cut quotient leaves over, exactly. -/
def LeavesOver (a b : Decimal) (r : Nat) : Prop :=
  (a.modulo b r).Meets 2 fun out =>
    ∃ q, out = .ok q ∧ q.toRat = a.toRat - truncate (a.toRat / b.toRat) r * b.toRat

theorem modulo_meets (ha : a.Holds m sa) (hb : b.Holds n sb) (hn : n ≠ 0) (r : Nat) :
    (a.modulo b r).Meets 2 fun out => ∃ q, out = .ok q ∧
      q.toRat = a.toRat - divDigits m n sa sb r * n / 10 ^ addUsize r sb := by
  unfold modulo
  refine Meets.bind (div_meets ha hb hn r) ?_
  rintro _ ⟨q, rfl, hq⟩
  refine Meets.bind (mulExact_meets hq hb) ?_
  intro product hproduct
  refine Meets.bind (sub_meets ha hproduct) ?_
  intro result hresult
  refine Meets.pure ⟨result, rfl, ?_⟩
  have hup : ∀ {x : Int} {s t : Nat}, s ≤ t → ((moved x s t : Int) : ℚ) / 10 ^ t = x / 10 ^ s := by
    intro x s t hle
    rw [moved_up hle, div_eq_div_iff (by positivity) (by positivity)]
    push_cast
    rw [mul_assoc, ← pow_add, Nat.sub_add_cancel hle]
  rw [hresult.toRat, Int.cast_sub, sub_div, hup (Nat.le_max_left _ _), hup (Nat.le_max_right _ _), ha.toRat]
  push_cast
  rfl

/-- **When `modulo` is right**: its product fits a word of places, or the quotient is zero. -/
theorem leavesOver_iff (ha : a.Holds m sa) (hb : b.Holds n sb) (hn : n ≠ 0) (hsa : sa < 2 ^ 64)
    (hsb : sb < 2 ^ 64) :
    LeavesOver a b r ↔ r + sb < 2 ^ 64 ∨ quotientDigits m n sa sb r = 0 := by
  have hmeets := modulo_meets ha hb hn r
  have hright : LeavesOver a b r ↔
      (divDigits m n sa sb r : ℚ) / 10 ^ addUsize r sb = quotientDigits m n sa sb r / 10 ^ (r + sb) := by
    have hnRat : (n : ℚ) ≠ 0 := by exact_mod_cast hn
    have hvalue : ∀ q : Decimal, q.toRat = a.toRat - divDigits m n sa sb r * n / 10 ^ addUsize r sb →
        (q.toRat = a.toRat - truncate (a.toRat / b.toRat) r * b.toRat ↔
          (divDigits m n sa sb r : ℚ) / 10 ^ addUsize r sb = quotientDigits m n sa sb r / 10 ^ (r + sb)) := by
      intro q hq
      rw [hq, truncate_quotient ha hb, hb.toRat, sub_right_inj, div_mul_div_comm, ← pow_add, mul_div_right_comm,
        mul_div_right_comm]
      exact mul_left_inj' hnRat
    unfold LeavesOver
    constructor
    · intro h
      obtain ⟨q, hq, heq⟩ := h.val
      obtain ⟨q', hq', hholds⟩ := hmeets.val
      rw [hq] at hq'
      cases hq'
      exact (hvalue q hholds).mp heq
    · intro h
      refine hmeets.mono ?_
      rintro _ ⟨q, rfl, hholds⟩
      exact ⟨q, rfl, (hvalue q hholds).mpr h⟩
  rw [hright]
  by_cases hfit : r + sb < 2 ^ 64
  · have hneeded : addUsize r sb = r + sb := saturatingAdd_of_lt hfit
    rw [hneeded, (divDigits_right hn hsa hsb).mpr (Or.inl hfit)]
    exact iff_of_true rfl (Or.inl hfit)
  · rw [or_iff_right hfit]
    have hneeded : addUsize r sb = 2 ^ 64 - 1 := by
      unfold addUsize saturatingAdd maxVal
      omega
    have hplaces : ∀ {u : Nat}, u ≤ r + sb → (10 : ℚ) ^ (r + sb) = 10 ^ u * (10 ^ (r + sb - u) : Nat) := by
      intro u hu
      push_cast
      rw [← pow_add, Nat.add_sub_cancel' hu]
    obtain ⟨hcode, hexact⟩ := divDigits_of_full (m := m) (n := n) hsa hsb hfit
    have htwo : 2 ≤ 10 ^ (r + sb - (2 ^ 64 - 1)) := by
      calc 2 ≤ 10 ^ 1 := by decide
        _ ≤ 10 ^ (r + sb - (2 ^ 64 - 1)) := Nat.pow_le_pow_right (by decide) (by omega)
    have hiff := tdiv_twice hn (m * 10 ^ (2 ^ 64 - 1 - sa)) htwo
    rw [← hexact, ← hcode] at hiff
    rw [← hiff, hneeded, hplaces (show 2 ^ 64 - 1 ≤ r + sb by omega)]
    have hw : (10 : ℚ) ^ (2 ^ 64 - 1) ≠ 0 := pow_ne_zero _ (by decide)
    have hc : ((10 ^ (r + sb - (2 ^ 64 - 1)) : Nat) : ℚ) ≠ 0 := by
      have hpos : 10 ^ (r + sb - (2 ^ 64 - 1)) ≠ 0 := by omega
      exact_mod_cast hpos
    generalize (10 : ℚ) ^ (2 ^ 64 - 1) = w at hw ⊢
    generalize 10 ^ (r + sb - (2 ^ 64 - 1)) = c at hc ⊢
    rw [div_eq_div_iff hw (mul_ne_zero hw hc), mul_comm w, ← mul_assoc, mul_left_inj' hw]
    exact_mod_cast Iff.rfl

/-! ## Products -/

variable {z : Nat}

/-- Digits at a scale that may have saturated, moved down to `t` places, against the digits at the scale that
they really have. -/
theorem moved_saturated {x : Int} (hz : t ≤ z) (ht : t < 2 ^ 64) :
    moved x (min z (maxVal 64)) t = x.tdiv (10 ^ (z - t)) ↔
      z < 2 ^ 64 ∨ x.natAbs < 10 ^ (2 ^ 64 - 1 - t) := by
  by_cases hfit : z < 2 ^ 64
  · have hmin : min z (maxVal 64) = z := Nat.min_eq_left (Nat.le_sub_one_of_lt hfit)
    rw [hmin, moved_down hz]
    exact iff_of_true rfl (Or.inl hfit)
  · have hmin : min z (maxVal 64) = 2 ^ 64 - 1 := Nat.min_eq_right (by unfold maxVal; omega)
    rw [hmin, moved_down (by omega), or_iff_right hfit]
    exact tdiv_pow_eq_iff (by omega)

/-- Digits over a power of ten, cut to fewer places. -/
theorem truncate_pow {x : Int} (ht : t ≤ z) :
    truncate ((x : ℚ) / 10 ^ z) t = (x.tdiv (10 ^ (z - t)) : Int) / 10 ^ t := by
  have hcast : (10 : ℚ) ^ z = ((10 ^ z : Int) : ℚ) := by push_cast; rfl
  rw [hcast, truncate_div]
  congr 2
  have hshift := tdiv_scale x 1 (x := t) (y := z) (u := 0) (v := z - t) (by omega)
  rwa [one_mul, one_mul, pow_zero, mul_one] at hshift

/-- `multiply` gives the exact product cut to the scale of a product. -/
def MultipliesTo (a b : Decimal) (scale : Nat) : Prop :=
  (a.multiply b scale).Meets 2 fun q =>
    q.toRat = truncate (a.toRat * b.toRat) (min (a.scale + b.scale) (max (max scale a.scale) b.scale))

/-- **When `multiply` is right**: its scale fits a word, or nothing is left of the product. -/
theorem multipliesTo_iff (ha : a.Holds m sa) (hb : b.Holds n sb) (hsa : sa < 2 ^ 64) (hsb : sb < 2 ^ 64)
    (hscale : scale < 2 ^ 64) :
    MultipliesTo a b scale ↔
      sa + sb < 2 ^ 64 ∨ (m * n).natAbs < 10 ^ (2 ^ 64 - 1 - max (max scale sa) sb) := by
  have hmax : max (max scale sa) sb < 2 ^ 64 := by omega
  have hpscale : a.productScale b scale = min (sa + sb) (max (max scale sa) sb) := by
    unfold productScale addUsize saturatingAdd maxVal
    rw [ha.scale, hb.scale]
    omega
  have hmeets : (a.multiply b scale).Meets 2
      (Holds · (moved (m * n) (min (sa + sb) (maxVal 64)) (min (sa + sb) (max (max scale sa) sb)))
        (min (sa + sb) (max (max scale sa) sb))) := by
    unfold multiply
    refine Meets.bind (mulExact_meets ha hb) ?_
    intro product hproduct
    rw [hpscale]
    exact rescale_meets hproduct _
  have hexact : truncate (a.toRat * b.toRat) (min (a.scale + b.scale) (max (max scale a.scale) b.scale)) =
      ((m * n).tdiv (10 ^ (sa + sb - min (sa + sb) (max (max scale sa) sb))) : Int) /
        10 ^ min (sa + sb) (max (max scale sa) sb) := by
    rw [ha.scale, hb.scale, ha.toRat, hb.toRat, div_mul_div_comm, ← pow_add, ← Int.cast_mul]
    exact truncate_pow (Nat.min_le_left _ _)
  have hdigits : MultipliesTo a b scale ↔
      moved (m * n) (min (sa + sb) (maxVal 64)) (min (sa + sb) (max (max scale sa) sb)) =
        (m * n).tdiv (10 ^ (sa + sb - min (sa + sb) (max (max scale sa) sb))) := by
    unfold MultipliesTo
    rw [hexact]
    constructor
    · intro h
      exact hmeets.val.toRat_eq_iff.mp h.val
    · intro h
      exact hmeets.mono fun q hq => hq.toRat_eq_iff.mpr h
  rw [hdigits, moved_saturated (Nat.min_le_left _ _) ((Nat.min_le_right _ _).trans_lt hmax)]
  by_cases hfit : sa + sb < 2 ^ 64
  · exact iff_of_true (Or.inl hfit) (Or.inl hfit)
  · rw [Nat.min_eq_right (show max (max scale sa) sb ≤ sa + sb by omega)]

/-! ## Powers -/

theorem toUsizeLoop_spec : ∀ (ls : List Nat) {acc : Nat}, acc ≤ maxVal 64 →
    toUsizeLoop ls acc = min (acc * limbBase ^ ls.length + value ls.reverse) (maxVal 64)
  | [], acc, hacc => by simpa [toUsizeLoop] using (Nat.min_eq_left hacc).symm
  | l :: ls, acc, hacc => by
    have htotal : acc * limbBase ^ (l :: ls).length + value (l :: ls).reverse =
        (acc * limbBase + l) * limbBase ^ ls.length + value ls.reverse := by
      rw [List.reverse_cons, value_append, value_cons, value_nil, List.length_reverse, List.length_cons, pow_succ]
      ring
    rw [htotal, toUsizeLoop]
    split
    next hfit => exact toUsizeLoop_spec ls hfit.2
    next hfull =>
    have hpow : 1 ≤ limbBase ^ ls.length := Nat.pow_pos limbBase_pos
    have hmore : acc * limbBase + l ≤ (acc * limbBase + l) * limbBase ^ ls.length :=
      Nat.le_mul_of_pos_right _ hpow
    omega

theorem toUsizeSaturating_spec {e : BigInt} {k : Nat} (he : e.Represents k) :
    e.toUsizeSaturating = min k (maxVal 64) := by
  have hloop := toUsizeLoop_spec e.limbs.reverse (Nat.zero_le (maxVal 64))
  rw [List.reverse_reverse, Nat.zero_mul, Nat.zero_add, he.natAbs, Int.natAbs_natCast] at hloop
  exact hloop

/-- Between two rounds: both factors are powers, and the exponents add up. -/
structure Powering (m : Int) (s e : Nat) (st : PowState) (k : Nat) : Prop where
  powers : ∃ i j : Nat, st.base.Holds (m ^ i) (min (s * i) (maxVal 64)) ∧
    st.result.Holds (m ^ j) (min (s * j) (maxVal 64)) ∧ j + i * k = e
  exponent : st.exponent.Represents k

/-- The exact product of two powers, up to the scale. -/
theorem mulExact_powers {x y : Decimal} {m : Int} {s i j : Nat} (hx : x.Holds (m ^ i) (min (s * i) (maxVal 64)))
    (hy : y.Holds (m ^ j) (min (s * j) (maxVal 64))) :
    (x.mulExact y).Meets 2 (Holds · (m ^ (i + j)) (min (s * (i + j)) (maxVal 64))) := by
  have hscale : addUsize (min (s * i) (maxVal 64)) (min (s * j) (maxVal 64)) = min (s * (i + j)) (maxVal 64) := by
    unfold addUsize saturatingAdd
    rw [Nat.mul_add]
    omega
  have hproduct := mulExact_meets hx hy
  rwa [← pow_add, hscale] at hproduct

theorem powRound_meets {m : Int} {s e k : Nat} {st : PowState} (hst : Powering m s e st k) :
    (powRound st).Meets 2 (Sum.elim
      (fun next => (∃ l, Powering m s e next l) ∧ value next.exponent.limbs < value st.exponent.limbs)
      (Holds · (m ^ e) (min (s * e) (maxVal 64)))) := by
  obtain ⟨⟨i, j, hbase, hresult, htotal⟩, hexponent⟩ := hst
  have hk : value st.exponent.limbs = k := hexponent.natAbs.trans (Int.natAbs_natCast k)
  unfold powRound
  split
  next hzero =>
    rw [hexponent.isZero, decide_eq_true_iff] at hzero
    have hk0 : k = 0 := by exact_mod_cast hzero
    rw [hk0, Nat.mul_zero, Nat.add_zero] at htotal
    rw [← htotal]
    exact Meets.pure hresult
  next hmore =>
  rw [hexponent.isZero, decide_eq_true_iff] at hmore
  refine Meets.bind (BigInt.divmod_nat (m := 2) hexponent (BigInt.fromI64_represents 2) (by decide)) ?_
  rintro ⟨half, rem⟩ ⟨hhalf, hrem⟩
  have hhalfZero := hhalf.isZero
  have hremZero := hrem.isZero
  have hnext : (if rem.isZero then pure st.result else st.result.mulExact st.base : Traced Decimal).Meets 2
      (Holds · (m ^ (j + i * (k % 2))) (min (s * (j + i * (k % 2))) (maxVal 64))) := by
    rcases Nat.mod_two_eq_zero_or_one k with hbit | hbit
    · rw [hbit] at hremZero ⊢
      rw [hremZero, if_pos (by decide), Nat.mul_zero, Nat.add_zero]
      exact Meets.pure hresult
    · rw [hbit] at hremZero ⊢
      rw [hremZero, if_neg (by decide), Nat.mul_one]
      exact mulExact_powers hresult hbase
  refine Meets.bind hnext ?_
  intro result hresult'
  -- The base is squared unless this was the last round.
  have hsquare : (if half.isZero then pure st.base else st.base.mulExact st.base : Traced Decimal).Meets 2
      fun base => ∃ l, base.Holds (m ^ l) (min (s * l) (maxVal 64)) ∧ l * (k / 2) = (i + i) * (k / 2) := by
    split
    next hlast =>
      rw [hlast, eq_comm, decide_eq_true_iff] at hhalfZero
      have hzero : k / 2 = 0 := by exact_mod_cast hhalfZero
      exact Meets.pure ⟨i, hbase, by rw [hzero, Nat.mul_zero, Nat.mul_zero]⟩
    next => exact (mulExact_powers hbase hbase).mono fun base h => ⟨i + i, h, rfl⟩
  refine Meets.bind hsquare ?_
  rintro base ⟨l, hl, hlk⟩
  refine Meets.pure ⟨⟨k / 2, ⟨⟨l, _, hl, hresult', ?_⟩, hhalf⟩⟩, ?_⟩
  · have hsplit := Nat.mod_add_div k 2
    calc j + i * (k % 2) + l * (k / 2) = j + i * (k % 2 + 2 * (k / 2)) := by rw [hlk]; ring
      _ = e := by rw [hsplit, htotal]
  · have hless : value half.limbs = k / 2 := hhalf.natAbs.trans (Int.natAbs_natCast _)
    rw [hless, hk]
    omega

/-- The scale of a power. -/
def powerScale (s e scale : Nat) : Nat := min (s * e) (max scale s)

/-- The digits that a power with an exponent that is not negative is computed with. -/
def powerDigits (m : Int) (s e scale : Nat) : Int := moved (m ^ e) (min (s * e) (maxVal 64)) (powerScale s e scale)

/-- The saturated product of the scale and the exponent gives the scale of a power all the same. -/
theorem mulUsize_target {s e : Nat} (hs : s < 2 ^ 64) (hscale : scale < 2 ^ 64) :
    min (mulUsize s (min e (maxVal 64))) (max scale s) = powerScale s e scale := by
  have hmax : max scale s ≤ maxVal 64 := by
    unfold maxVal
    omega
  unfold mulUsize saturatingMul powerScale
  rcases Nat.le_total e (maxVal 64) with he | he
  · rw [Nat.min_eq_left he]
    generalize s * e = product
    omega
  · rw [Nat.min_eq_right he]
    rcases Nat.eq_zero_or_pos s with rfl | hpos
    · rw [Nat.zero_mul, Nat.zero_mul, Nat.zero_min]
    · have hword : maxVal 64 ≤ s * maxVal 64 := Nat.le_mul_of_pos_left _ hpos
      have hproduct : maxVal 64 ≤ s * e := he.trans (Nat.le_mul_of_pos_left _ hpos)
      rw [Nat.min_eq_right hword]
      omega

/-- **What a power with an integer exponent is.** -/
theorem powInteger_meets {x : Decimal} {e fuel : Nat} {se : Nat} (ha : a.Holds m sa) (hx : x.Holds e se)
    (hsa : sa < 2 ^ 64) (hscale : scale < 2 ^ 64) (hfuel : e < fuel) :
    (a.powInteger fuel x scale).Meets 2 fun out =>
      ∃ q, out = some q ∧ q.Holds (powerDigits m sa e scale) (powerScale sa e scale) := by
  have hzero := hx.isZero
  unfold powInteger
  split
  next hnone =>
    rw [hnone, eq_comm, decide_eq_true_iff] at hzero
    have he : e = 0 := by exact_mod_cast hzero
    subst he
    refine Meets.pure ⟨_, rfl, ?_⟩
    unfold powerDigits powerScale
    rw [Nat.mul_zero, Nat.zero_min, Nat.zero_min, pow_zero, moved_up (Nat.le_refl 0), Nat.sub_self, pow_zero, mul_one]
    exact Holds.one
  next hsome =>
  have hstart : Powering m sa e ⟨one, a, x.digits⟩ e := by
    refine ⟨⟨1, 0, ?_, ?_, by omega⟩, hx.digits⟩
    · rw [pow_one, Nat.mul_one, Nat.min_eq_left (show sa ≤ maxVal 64 from Nat.le_sub_one_of_lt hsa)]
      exact ha
    · rw [pow_zero, Nat.mul_zero, Nat.zero_min]
      exact Holds.one
  have hloop := Meets.iterate (fun st => ∃ k, Powering m sa e st k) (fun st => value st.exponent.limbs)
    (fun st ⟨k, hst⟩ => powRound_meets hst) ⟨_, hstart⟩
    (show value x.digits.limbs < fuel by rwa [hx.digits.natAbs, Int.natAbs_natCast])
  refine Meets.bind hloop ?_
  rintro _ ⟨power, rfl, hpower⟩
  have htarget : min (mulUsize a.scale x.digits.toUsizeSaturating) (max scale a.scale) = powerScale sa e scale := by
    rw [toUsizeSaturating_spec hx.digits, ha.scale]
    exact mulUsize_target hsa hscale
  dsimp only
  rw [htarget]
  refine Meets.bind (rescale_meets hpower _) ?_
  intro q hq
  exact Meets.pure ⟨q, rfl, hq⟩

variable {w : Int}

/-- The exponent, with what is behind its point cut off. -/
theorem exponent_meets {x : Decimal} (hx : x.Holds w t) :
    (x.rescale 0).Meets 2 (Holds · (cut x.toRat) 0) := by
  have hcut : cut x.toRat = moved w t 0 := by
    have hcast : (10 : ℚ) ^ t = ((10 ^ t : Int) : ℚ) := by push_cast; rfl
    rw [hx.toRat, hcast, cut_div, moved_down (Nat.zero_le t), Nat.sub_zero]
  rw [hcut]
  exact rescale_meets hx 0

/-- `pow` gives the exact power cut to the scale of a power. -/
def PowersTo (a exp : Decimal) (e scale : Nat) : Prop :=
  ∃ rounds, ∀ fuel, rounds ≤ fuel → (a.pow fuel exp scale).Meets 2 fun out =>
    ∃ q, out = some (.ok q) ∧ q.toRat = truncate (a.toRat ^ e) (powerScale a.scale e scale)

variable {exp : Decimal}

theorem pow_meets {e fuel t : Nat} (ha : a.Holds m sa) (hexp : exp.Holds w t)
    (he : cut exp.toRat = e) (hsa : sa < 2 ^ 64) (hscale : scale < 2 ^ 64) (hfuel : e < fuel) :
    (a.pow fuel exp scale).Meets 2 fun out =>
      ∃ q, out = some (.ok q) ∧ q.Holds (powerDigits m sa e scale) (powerScale sa e scale) := by
  have hinteger := exponent_meets hexp
  rw [he] at hinteger
  unfold pow
  refine Meets.bind hinteger ?_
  intro x hx
  have hnegative : x.isNegative = false := by
    rw [hx.isNegative, decide_eq_false]
    omega
  rw [hnegative, if_neg (by decide)]
  refine Meets.bind (powInteger_meets ha hx hsa hscale hfuel) ?_
  rintro _ ⟨q, rfl, hq⟩
  exact Meets.pure ⟨q, rfl, hq⟩

variable {e : Nat}

/-- **When a power is right**: its scale fits a word, or nothing is left of it. -/
theorem powersTo_iff (ha : a.Holds m sa) (hexp : exp.Holds w t)
    (he : cut exp.toRat = e) (hsa : sa < 2 ^ 64) (hscale : scale < 2 ^ 64) :
    PowersTo a exp e scale ↔ sa * e < 2 ^ 64 ∨ (m ^ e).natAbs < 10 ^ (2 ^ 64 - 1 - max scale sa) := by
  have hmax : max scale sa < 2 ^ 64 := by omega
  have hexact : truncate (a.toRat ^ e) (powerScale a.scale e scale) =
      ((m ^ e).tdiv (10 ^ (sa * e - powerScale sa e scale)) : Int) / 10 ^ powerScale sa e scale := by
    rw [ha.scale, ha.toRat, div_pow, ← pow_mul, ← Int.cast_pow]
    exact truncate_pow (Nat.min_le_left _ _)
  have hdigits : PowersTo a exp e scale ↔
      powerDigits m sa e scale = (m ^ e).tdiv (10 ^ (sa * e - powerScale sa e scale)) := by
    unfold PowersTo
    rw [hexact]
    constructor
    · rintro ⟨rounds, hright⟩
      obtain ⟨q, hq, hvalue⟩ := (hright _ (Nat.le_max_left rounds (e + 1))).val
      obtain ⟨q', hq', hholds⟩ := (pow_meets ha hexp he hsa hscale (Nat.le_max_right rounds (e + 1))).val
      rw [hq] at hq'
      cases hq'
      exact hholds.toRat_eq_iff.mp hvalue
    · intro h
      refine ⟨e + 1, fun fuel hfuel => (pow_meets ha hexp he hsa hscale hfuel).mono ?_⟩
      rintro _ ⟨q, rfl, hq⟩
      exact ⟨q, rfl, hq.toRat_eq_iff.mpr h⟩
  have hlow : powerScale sa e scale ≤ sa * e := Nat.min_le_left _ _
  have hle : powerScale sa e scale ≤ max scale sa := Nat.min_le_right _ _
  rw [hdigits, powerDigits, moved_saturated hlow (hle.trans_lt hmax)]
  by_cases hfit : sa * e < 2 ^ 64
  · exact iff_of_true (Or.inl hfit) (Or.inl hfit)
  · rw [powerScale, Nat.min_eq_right (show max scale sa ≤ sa * e by omega)]

/-! ## Negative powers -/

/-- What `pow` gives for a negative exponent: one divided by the power that is cut already. -/
theorem inverse_meets {e fuel t : Nat} (ha : a.Holds m sa) (hexp : exp.Holds w t)
    (he : cut exp.toRat = -e) (hpos : 0 < e) (hsa : sa < 2 ^ 64) (hscale : scale < 2 ^ 64) (hfuel : e < fuel) :
    (a.pow fuel exp scale).Meets 2 fun out =>
      (powerDigits m sa e scale = 0 ∧ out = some (.error .divideByZero)) ∨
      (powerDigits m sa e scale ≠ 0 ∧ ∃ q, out = some (.ok q) ∧
        q.Holds (divDigits 1 (powerDigits m sa e scale) 0 (powerScale sa e scale) scale) scale) := by
  have hinteger := exponent_meets hexp
  rw [he] at hinteger
  unfold pow
  refine Meets.bind hinteger ?_
  intro x hx
  have hnegative : x.isNegative = true := by
    rw [hx.isNegative, decide_eq_true]
    omega
  have hnegate : x.negate.Holds e 0 := by
    have hzero : x.digits.isZero = false := by
      rw [hx.digits.isZero, decide_eq_false]
      omega
    have hmagnitude := hx.digits.magnitude
    rw [Int.natAbs_neg, Int.natAbs_natCast] at hmagnitude
    unfold negate
    rw [hzero, if_neg (by decide), show x.digits.negative = true from hnegative]
    exact ⟨hmagnitude, hx.scale⟩
  rw [hnegative, if_pos rfl]
  refine Meets.bind (powInteger_meets ha hnegate hsa hscale hfuel) ?_
  rintro _ ⟨power, rfl, hpower⟩
  by_cases hzero : powerDigits m sa e scale = 0
  · rw [hzero] at hpower
    refine Meets.bind (div_zero (a := one) hpower scale) ?_
    rintro _ rfl
    exact Meets.pure (Or.inl ⟨hzero, rfl⟩)
  · refine Meets.bind (div_meets Holds.one hpower hzero scale) ?_
    rintro _ ⟨q, rfl, hq⟩
    exact Meets.pure (Or.inr ⟨hzero, q, rfl, hq⟩)

/-- `pow` gives the exact reciprocal of the power cut to `scale` places. -/
def InvertsTo (a exp : Decimal) (e scale : Nat) : Prop :=
  ∃ rounds, ∀ fuel, rounds ≤ fuel → (a.pow fuel exp scale).Meets 2 fun out =>
    ∃ q, out = some (.ok q) ∧ q.toRat = truncate (1 / a.toRat ^ e) scale

/-- The digits of `1 / p` at `scale` places are those of the cut power's reciprocal, for a power with the digits
`p` at the scale `z` that is cut to `t` places: something is left of it, and no number of `scale` places lies
above the exact reciprocal but not above the other one. Behind the last word the cut power's reciprocal stops
at the last place, and a power with too many places is right only where the reciprocal is zero. -/
def KeepsReciprocal (p z t scale : Nat) : Prop :=
  if 2 ^ 64 ≤ z then 10 ^ (scale + z) < p
  else if scale + t < 2 ^ 64 then
    10 ^ (z - t) ≤ p ∧ ∀ k, k * (p / 10 ^ (z - t)) ≤ 10 ^ (scale + t) → k * p ≤ 10 ^ (scale + z)
  else
    10 ^ (z - t) ≤ p ∧
      10 ^ (2 ^ 64 - 1) / (p / 10 ^ (z - t)) * 10 ^ (scale + t - (2 ^ 64 - 1)) = 10 ^ (scale + z) / p

/-- The magnitude of what `div` gives for one over the cut power. -/
def reciprocalDigits (d t scale : Nat) : Nat :=
  10 ^ min (scale + t) (2 ^ 64 - 1) / d * 10 ^ (scale + t - (2 ^ 64 - 1))

/-- A power with more places than a word counts: its reciprocal is right only where it is zero. -/
theorem reciprocal_of_full {p z t scale u : Nat} (hfull : u < z) (ht : t ≤ u) :
    p / 10 ^ (u - t) ≠ 0 ∧ 10 ^ min (scale + t) u / (p / 10 ^ (u - t)) * 10 ^ (scale + t - u) = 10 ^ (scale + z) / p ↔
      10 ^ (scale + z) < p := by
  have hten : ∀ k : Nat, 0 < 10 ^ k := fun k => Nat.pow_pos (by decide)
  have hsplit : 10 ^ (scale + z) = 10 ^ (scale + t + (z - u)) * 10 ^ (u - t) := by
    rw [← pow_add]
    congr 1
    omega
  constructor
  · rintro ⟨hd, heq⟩
    by_contra hle
    have hdpos := Nat.pos_of_ne_zero hd
    have hp : 0 < p := Nat.pos_of_ne_zero fun hzero => hd (by rw [hzero, Nat.zero_div])
    have hone : 1 ≤ 10 ^ (scale + z) / p := (Nat.le_div_iff_mul_le hp).mpr (by omega)
    have hnext := Nat.lt_mul_div_succ (10 ^ (scale + z)) hp
    have hcut := Nat.lt_mul_div_succ p (hten (u - t))
    -- The code's digits times the cut power stay below the places that there are.
    have hbound : 10 ^ (scale + z) / p * (p / 10 ^ (u - t)) ≤ 10 ^ (scale + t) := by
      rw [← heq]
      calc 10 ^ min (scale + t) u / (p / 10 ^ (u - t)) * 10 ^ (scale + t - u) * (p / 10 ^ (u - t))
          = 10 ^ min (scale + t) u / (p / 10 ^ (u - t)) * (p / 10 ^ (u - t)) * 10 ^ (scale + t - u) := by ring
        _ ≤ 10 ^ min (scale + t) u * 10 ^ (scale + t - u) := Nat.mul_le_mul_right _ (Nat.div_mul_le_self _ _)
        _ = 10 ^ (scale + t) := by
            rw [← pow_add]
            congr 1
            omega
    have hmore : 10 ^ (scale + t) * 10 ≤ 10 ^ (scale + t + (z - u)) := by
      rw [← pow_succ]
      exact Nat.pow_le_pow_right (by decide) (by omega)
    have hless : 10 ^ (scale + t + (z - u)) <
        (p / 10 ^ (u - t) + 1) * (10 ^ (scale + z) / p + 1) := by
      refine Nat.lt_of_mul_lt_mul_right (a := 10 ^ (u - t)) ?_
      calc 10 ^ (scale + t + (z - u)) * 10 ^ (u - t) = 10 ^ (scale + z) := hsplit.symm
        _ < p * (10 ^ (scale + z) / p + 1) := hnext
        _ ≤ 10 ^ (u - t) * (p / 10 ^ (u - t) + 1) * (10 ^ (scale + z) / p + 1) := Nat.mul_le_mul_right _ hcut.le
        _ = (p / 10 ^ (u - t) + 1) * (10 ^ (scale + z) / p + 1) * 10 ^ (u - t) := by ring
    nlinarith
  · intro hlt
    have hbig : 10 ^ (scale + t + (z - u)) ≤ p / 10 ^ (u - t) := by
      rw [Nat.le_div_iff_mul_le (hten _), ← hsplit]
      exact hlt.le
    have hmore : 10 ^ min (scale + t) u < 10 ^ (scale + t + (z - u)) :=
      Nat.pow_lt_pow_right (by decide) (by omega)
    refine ⟨((hten _).trans_le hbig).ne', ?_⟩
    rw [Nat.div_eq_of_lt (hmore.trans_le hbig), Nat.zero_mul, Nat.div_eq_of_lt hlt]

/-- **When the reciprocal of the cut power is right.** -/
theorem keepsReciprocal_iff {p z t scale : Nat} (htz : t ≤ z) (ht : t < 2 ^ 64) :
    KeepsReciprocal p z t scale ↔
      p / 10 ^ (min z (2 ^ 64 - 1) - t) ≠ 0 ∧
        reciprocalDigits (p / 10 ^ (min z (2 ^ 64 - 1) - t)) t scale = 10 ^ (scale + z) / p := by
  have hten : ∀ k : Nat, 0 < 10 ^ k := fun k => Nat.pow_pos (by decide)
  unfold KeepsReciprocal
  split
  next hfull =>
    rw [Nat.min_eq_right (show 2 ^ 64 - 1 ≤ z by omega)]
    exact (reciprocal_of_full (show 2 ^ 64 - 1 < z by omega) (Nat.le_sub_one_of_lt ht)).symm
  next hfit =>
  rw [Nat.min_eq_left (show z ≤ 2 ^ 64 - 1 by omega)]
  have hsome : p / 10 ^ (z - t) ≠ 0 ↔ 10 ^ (z - t) ≤ p := by
    rw [← Nat.pos_iff_ne_zero, Nat.div_pos_iff]
    exact and_iff_right (hten _)
  unfold reciprocalDigits
  split
  next hplaces =>
    rw [hsome, Nat.min_eq_left (show scale + t ≤ 2 ^ 64 - 1 by omega), Nat.sub_eq_zero_of_le (show scale + t ≤ 2 ^ 64 - 1 by omega),
      pow_zero, Nat.mul_one]
    refine and_congr_right fun hle => ?_
    have hd : 0 < p / 10 ^ (z - t) := Nat.pos_of_ne_zero (hsome.mpr hle)
    have hp : 0 < p := (hten _).trans_le hle
    -- What is at most the exact reciprocal is at most the other one.
    have hbelow : ∀ k, k * p ≤ 10 ^ (scale + z) → k * (p / 10 ^ (z - t)) ≤ 10 ^ (scale + t) := by
      intro k hk
      have hsplit : 10 ^ (scale + z) = 10 ^ (scale + t) * 10 ^ (z - t) := by
        rw [← pow_add]
        congr 1
        omega
      refine Nat.le_of_mul_le_mul_right ?_ (hten (z - t))
      calc k * (p / 10 ^ (z - t)) * 10 ^ (z - t) = k * (p / 10 ^ (z - t) * 10 ^ (z - t)) := Nat.mul_assoc _ _ _
        _ ≤ k * p := Nat.mul_le_mul_left _ (Nat.div_mul_le_self _ _)
        _ ≤ 10 ^ (scale + t) * 10 ^ (z - t) := hsplit ▸ hk
    constructor
    · intro hkept
      refine eq_of_forall_le_iff fun k => ?_
      rw [Nat.le_div_iff_mul_le hd, Nat.le_div_iff_mul_le hp]
      exact ⟨hkept k, hbelow k⟩
    · intro heq k hk
      rwa [← Nat.le_div_iff_mul_le hd, heq, Nat.le_div_iff_mul_le hp] at hk
  next hlast =>
    rw [hsome, Nat.min_eq_right (show 2 ^ 64 - 1 ≤ scale + t by omega)]

theorem natCast_tdiv (x : Nat) (d : Int) : (x : Int).tdiv d = d.sign * (x / d.natAbs : Nat) := by
  obtain ⟨k, rfl | rfl⟩ := Int.eq_nat_or_neg d
  · rcases Nat.eq_zero_or_pos k with rfl | hk
    · simp
    · rw [Int.sign_natCast_of_ne_zero hk.ne', one_mul, Int.natAbs_natCast, Int.ofNat_tdiv]
  · rcases Nat.eq_zero_or_pos k with rfl | hk
    · simp
    · rw [Int.tdiv_neg, Int.sign_neg, Int.sign_natCast_of_ne_zero hk.ne', Int.natAbs_neg, Int.natAbs_natCast,
        Int.ofNat_tdiv, neg_one_mul]

/-- One divided by the cut power. -/
theorem divDigits_one {d : Int} (ht : t < 2 ^ 64) :
    divDigits 1 d 0 t scale = d.sign * (reciprocalDigits d.natAbs t scale : Nat) := by
  unfold reciprocalDigits
  by_cases hfit : scale + t < 2 ^ 64
  · have hmin : min (scale + t) (2 ^ 64 - 1) = scale + t := Nat.min_eq_left (by omega)
    have hzero : scale + t - (2 ^ 64 - 1) = 0 := by omega
    rw [divDigits_of_fit hfit, quotientDigits, hmin, hzero, pow_zero, pow_zero, one_mul, mul_one, Nat.mul_one,
      ← ten_cast, natCast_tdiv, Nat.add_comm]
  · have hmin : min (scale + t) (2 ^ 64 - 1) = 2 ^ 64 - 1 := Nat.min_eq_right (by omega)
    rw [(divDigits_of_full (by decide) ht hfit).1, hmin, one_mul, Nat.sub_zero, ← ten_cast (2 ^ 64 - 1), natCast_tdiv,
      mul_assoc, ← Int.natCast_mul]

/-- **When a negative power is right.** -/
theorem invertsTo_iff (ha : a.Holds m sa) (hm : m ≠ 0) (hexp : exp.Holds w t)
    (he : cut exp.toRat = -e) (hpos : 0 < e) (hsa : sa < 2 ^ 64) (hscale : scale < 2 ^ 64) :
    InvertsTo a exp e scale ↔ KeepsReciprocal (m.natAbs ^ e) (sa * e) (powerScale sa e scale) scale := by
  have hlow : powerScale sa e scale ≤ sa * e := Nat.min_le_left _ _
  have hword : powerScale sa e scale < 2 ^ 64 := by
    have hle : powerScale sa e scale ≤ max scale sa := Nat.min_le_right _ _
    omega
  have hpow : m ^ e ≠ 0 := pow_ne_zero e hm
  have hcut : powerDigits m sa e scale =
      (m ^ e).tdiv (10 ^ (min (sa * e) (2 ^ 64 - 1) - powerScale sa e scale)) := by
    unfold powerDigits
    exact moved_down (by unfold maxVal; omega)
  have hmagnitude : (powerDigits m sa e scale).natAbs =
      m.natAbs ^ e / 10 ^ (min (sa * e) (2 ^ 64 - 1) - powerScale sa e scale) := by
    rw [hcut, Int.natAbs_tdiv, Int.natAbs_pow, Int.natAbs_pow]
    rfl
  have hexact : truncate (1 / a.toRat ^ e) scale = (quotientDigits 1 (m ^ e) 0 (sa * e) scale : ℚ) / 10 ^ scale := by
    have hdiv : 1 / a.toRat ^ e = ((10 ^ (sa * e) : Int) : ℚ) / ((m ^ e : Int) : ℚ) := by
      rw [ha.toRat, div_pow, one_div_div, ← pow_mul]
      push_cast
      rfl
    rw [hdiv, truncate_div, quotientDigits, one_mul, pow_zero, mul_one, pow_add]
  have hexactDigits : quotientDigits 1 (m ^ e) 0 (sa * e) scale =
      (m ^ e).sign * (10 ^ (scale + sa * e) / m.natAbs ^ e : Nat) := by
    unfold quotientDigits
    rw [one_mul, pow_zero, mul_one, ← ten_cast, natCast_tdiv, Int.natAbs_pow, Nat.add_comm]
  -- The cut power has the sign of the power, so the magnitudes decide.
  have hsame : powerDigits m sa e scale ≠ 0 →
      (divDigits 1 (powerDigits m sa e scale) 0 (powerScale sa e scale) scale =
          quotientDigits 1 (m ^ e) 0 (sa * e) scale ↔
        reciprocalDigits (m.natAbs ^ e / 10 ^ (min (sa * e) (2 ^ 64 - 1) - powerScale sa e scale))
          (powerScale sa e scale) scale = 10 ^ (scale + sa * e) / m.natAbs ^ e) := by
    intro hne
    have hsign : (powerDigits m sa e scale).sign = (m ^ e).sign := by
      rw [hcut, Int.sign_tdiv, if_neg, ← ten_cast]
      · rw [Int.sign_natCast_of_ne_zero (Nat.pow_pos (by decide)).ne', mul_one]
      · intro hlt
        rw [Int.natAbs_pow (10 : Int)] at hlt
        exact hne (hcut.trans (tdiv_pow_eq_zero hlt))
    have hunit : (m ^ e).sign ≠ 0 := by rwa [Ne, Int.sign_eq_zero_iff_zero]
    rw [divDigits_one hword, hexactDigits, hsign, hmagnitude, mul_right_inj' hunit]
    exact_mod_cast Iff.rfl
  rw [keepsReciprocal_iff hlow hword]
  unfold InvertsTo
  rw [hexact, ← hmagnitude, Int.natAbs_ne_zero]
  constructor
  · rintro ⟨rounds, hright⟩
    obtain ⟨q, hq, hvalue⟩ := (hright _ (Nat.le_max_left rounds (e + 1))).val
    rcases (inverse_meets ha hexp he hpos hsa hscale (Nat.le_max_right rounds (e + 1))).val with hfail | hok
    · rw [hfail.2] at hq
      cases hq
    · obtain ⟨hne, q', hq', hholds⟩ := hok
      rw [hq] at hq'
      cases hq'
      refine ⟨hne, ?_⟩
      rw [hmagnitude]
      exact (hsame hne).mp (hholds.toRat_eq_iff.mp hvalue)
  · rintro ⟨hne, hdigits⟩
    rw [hmagnitude] at hdigits
    refine ⟨e + 1, fun fuel hfuel => (inverse_meets ha hexp he hpos hsa hscale hfuel).mono ?_⟩
    rintro _ (⟨hzero, -⟩ | ⟨-, q, rfl, hq⟩)
    · exact absurd hzero hne
    · exact ⟨q, rfl, hq.toRat_eq_iff.mpr ((hsame hne).mpr hdigits)⟩

/-! ## Where decimals are cut -/

theorem toRat_ne_zero_iff (ha : a.Holds m sa) : a.toRat ≠ 0 ↔ m ≠ 0 := by
  rw [ha.toRat, div_ne_zero_iff]
  exact (and_iff_left (by positivity)).trans Int.cast_ne_zero

/-- **Decimals are cut once, except in a negative power**: each operation cuts its exact result where the scales
that it adds up fit a word, and a negative power where cutting the power first leaves the digits of its
reciprocal alone. -/
theorem decimals_cut_once (ha : a.Wf) (hb : b.Wf) {scale : Nat} (hscale : scale < 2 ^ 64) :
    (b.toRat ≠ 0 → ∀ r,
      (DividesTo a b r ↔ r + b.scale < 2 ^ 64 ∨
        ((a.digits.toInt * 10 ^ (2 ^ 64 - 1 - a.scale)).tmod b.digits.toInt).natAbs *
          10 ^ (r + b.scale - (2 ^ 64 - 1)) < b.digits.toInt.natAbs) ∧
      (LeavesOver a b r ↔ r + b.scale < 2 ^ 64 ∨ truncate (a.toRat / b.toRat) r = 0)) ∧
    (MultipliesTo a b scale ↔ a.scale + b.scale < 2 ^ 64 ∨
      (a.digits.toInt * b.digits.toInt).natAbs < 10 ^ (2 ^ 64 - 1 - max (max scale a.scale) b.scale)) ∧
    (∀ (exp : Decimal) (e : Nat), exp.Wf → cut exp.toRat = e →
      (PowersTo a exp e scale ↔ a.scale * e < 2 ^ 64 ∨
        (a.digits.toInt ^ e).natAbs < 10 ^ (2 ^ 64 - 1 - max scale a.scale))) ∧
    (∀ (exp : Decimal) (e : Nat), exp.Wf → cut exp.toRat = -e → 0 < e →
      (a.toRat ≠ 0 → (InvertsTo a exp e scale ↔
        KeepsReciprocal (a.digits.toInt.natAbs ^ e) (a.scale * e) (powerScale a.scale e scale) scale)) ∧
      (a.toRat = 0 → ∀ fuel, e < fuel →
        (a.pow fuel exp scale).Meets 2 (· = some (.error .divideByZero)))) := by
  refine ⟨fun hne r => ⟨?_, ?_⟩, ?_, fun exp e hexp he => ?_, fun exp e hexp he hpos => ⟨fun hne => ?_, ?_⟩⟩
  · have hn := (toRat_ne_zero_iff hb.holds).mp hne
    exact (dividesTo_iff ha.holds hb.holds hn).trans (divDigits_right hn ha.scale hb.scale)
  · have hn := (toRat_ne_zero_iff hb.holds).mp hne
    rw [leavesOver_iff ha.holds hb.holds hn ha.scale hb.scale, truncate_quotient ha.holds hb.holds,
      div_eq_zero_iff, Int.cast_eq_zero, or_iff_left (pow_ne_zero r (show (10 : ℚ) ≠ 0 by norm_num))]
  · exact multipliesTo_iff ha.holds hb.holds ha.scale hb.scale hscale
  · exact powersTo_iff ha.holds hexp.holds he ha.scale hscale
  · exact invertsTo_iff ha.holds ((toRat_ne_zero_iff ha.holds).mp hne) hexp.holds he hpos ha.scale hscale
  · intro hzero fuel hfuel
    have hm : a.digits.toInt = 0 := by
      by_contra hm
      exact (toRat_ne_zero_iff ha.holds).mpr hm hzero
    refine (inverse_meets ha.holds hexp.holds he hpos ha.scale hscale hfuel).mono ?_
    rintro out (⟨-, hout⟩ | ⟨hne, -⟩)
    · exact hout
    · refine absurd ?_ hne
      rw [powerDigits, hm, zero_pow hpos.ne', moved, zero_mul, Int.zero_tdiv]

/-- One over one, and the powers of one, with two places. -/
theorem decimals_cut_once_one :
    (one.toRat ≠ 0 → ∀ r,
      (DividesTo one one r ↔ r + one.scale < 2 ^ 64 ∨
        ((one.digits.toInt * 10 ^ (2 ^ 64 - 1 - one.scale)).tmod one.digits.toInt).natAbs *
          10 ^ (r + one.scale - (2 ^ 64 - 1)) < one.digits.toInt.natAbs) ∧
      (LeavesOver one one r ↔ r + one.scale < 2 ^ 64 ∨ truncate (one.toRat / one.toRat) r = 0)) ∧
    (MultipliesTo one one 2 ↔ one.scale + one.scale < 2 ^ 64 ∨
      (one.digits.toInt * one.digits.toInt).natAbs < 10 ^ (2 ^ 64 - 1 - max (max 2 one.scale) one.scale)) ∧
    (∀ (exp : Decimal) (e : Nat), exp.Wf → cut exp.toRat = e →
      (PowersTo one exp e 2 ↔ one.scale * e < 2 ^ 64 ∨
        (one.digits.toInt ^ e).natAbs < 10 ^ (2 ^ 64 - 1 - max 2 one.scale))) ∧
    (∀ (exp : Decimal) (e : Nat), exp.Wf → cut exp.toRat = -e → 0 < e →
      (one.toRat ≠ 0 → (InvertsTo one exp e 2 ↔
        KeepsReciprocal (one.digits.toInt.natAbs ^ e) (one.scale * e) (powerScale one.scale e 2) 2)) ∧
      (one.toRat = 0 → ∀ fuel, e < fuel →
        (one.pow fuel exp 2).Meets 2 (· = some (.error .divideByZero)))) :=
  decimals_cut_once ⟨.one, by decide⟩ ⟨.one, by decide⟩ (by decide)

/-- `0.01 ^ -3` with two places: the power is cut to zero, and what is no zero cannot be divided by. -/
theorem power_cut_to_zero :
    ¬ InvertsTo ⟨⟨false, [1]⟩, 2⟩ ⟨⟨true, [3]⟩, 0⟩ 3 2 ∧
      (pow 4 ⟨⟨false, [1]⟩, 2⟩ ⟨⟨true, [3]⟩, 0⟩ 2).val = some (.error .divideByZero) := by
  have hbase : Holds ⟨⟨false, [1]⟩, 2⟩ 1 2 := ⟨⟨⟨by decide, by decide, by decide, by decide⟩, by decide⟩, rfl⟩
  have hexp : Holds ⟨⟨true, [3]⟩, 0⟩ (-3) 0 := ⟨⟨⟨by decide, by decide, by decide, by decide⟩, by decide⟩, rfl⟩
  have hcut : cut (Decimal.toRat ⟨⟨true, [3]⟩, 0⟩) = -(3 : Nat) := by
    have hdiv := cut_div (-3) 1
    rw [hexp.toRat, pow_zero]
    simpa using hdiv
  constructor
  · rw [invertsTo_iff hbase (by decide) hexp hcut (by decide) (by decide) (by decide)]
    unfold KeepsReciprocal
    rw [if_neg (by decide), if_pos (by decide)]
    rintro ⟨hsome, -⟩
    exact absurd hsome (by decide)
  · rcases (inverse_meets hbase hexp hcut (by decide) (by decide) (show 2 < 2 ^ 64 by decide) (show 3 < 4 by decide)).val with
      ⟨-, hfail⟩ | ⟨hne, -⟩
    · exact hfail
    · exact absurd (by decide) hne

end Decimal

end SlateOS.Bignum
