/-
# SlateOS.Bignum.Decimal -- fixed-point decimals

`Decimal` of `userspace/bignum/src/decimal.rs`: an integer and how many of its decimal places are fractional.
Scales are machine words and saturate, as the source has them; what the operations do to the number that a
decimal stands for is said up to that. How many limbs a number has stays a natural number, and so does the
bound on its digits that `rescale` takes from it.
-/
import SlateOS.Bignum.Isqrt
import SlateOS.Foundation.QuotientEstimate

namespace SlateOS.Bignum

open Foundation Foundation.MachineInt Foundation.Traced

/-- `DecimalError`. -/
inductive DecimalError where
  | divideByZero
  | negativeSqrt
  deriving DecidableEq

/-- `usize::saturating_add`. -/
def addUsize (a b : Nat) : Nat := saturatingAdd 64 a b

/-- `usize::saturating_mul`. -/
def mulUsize (a b : Nat) : Nat := saturatingMul 64 a b

/-- `ten_to_the`. -/
def tenToThe (n : Nat) : Traced BigInt := BigInt.one.shiftLeftDecimal n

/-- The loop of `to_usize_saturating`, most significant limb first. -/
def toUsizeLoop : List Nat → Nat → Nat
  | [], acc => acc
  | limb :: limbs, acc =>
    if acc * limbBase ≤ maxVal 64 ∧ acc * limbBase + limb ≤ maxVal 64 then
      toUsizeLoop limbs (acc * limbBase + limb)
    else maxVal 64

/-- `to_usize_saturating`. -/
def BigInt.toUsizeSaturating (a : BigInt) : Nat := toUsizeLoop a.limbs.reverse 0

/-- `Decimal`. -/
structure Decimal where
  digits : BigInt
  scale : Nat
  deriving DecidableEq

namespace Decimal

/-- `zero`. -/
def zero : Decimal := ⟨.zero, 0⟩

/-- `one`. -/
def one : Decimal := ⟨.one, 0⟩

/-- `is_zero`. -/
def isZero (a : Decimal) : Bool := a.digits.isZero

/-- `is_negative`. -/
def isNegative (a : Decimal) : Bool := a.digits.negative

/-- `negate`. -/
def negate (a : Decimal) : Decimal :=
  if a.digits.isZero then { a with digits := { a.digits with negative := false } }
  else { a with digits := { a.digits with negative := !a.digits.negative } }

/-- `rescale`. -/
def rescale (a : Decimal) (newScale : Nat) : Traced Decimal := do
  if newScale = a.scale then return a
  else if a.scale ≤ newScale then
    let digits ← a.digits.shiftLeftDecimal (newScale - a.scale)
    return ⟨digits, newScale⟩
  else if a.digits.limbs.length * limbDigits ≤ a.scale - newScale then return ⟨.zero, newScale⟩
  else
    let divisor ← tenToThe (a.scale - newScale)
    let (q, _) ← a.digits.divmod divisor
    return ⟨q, newScale⟩

/-- `sub`. -/
def sub (a b : Decimal) : Traced Decimal := do
  let s := max a.scale b.scale
  let x ← a.rescale s
  let y ← b.rescale s
  let digits ← x.digits.sub y.digits
  return ⟨digits, s⟩

/-- `mul_exact`. -/
def mulExact (a b : Decimal) : Traced Decimal := do
  let digits ← a.digits.mul b.digits
  return ⟨digits, addUsize a.scale b.scale⟩

/-- `product_scale`. -/
def productScale (a b : Decimal) (scale : Nat) : Nat :=
  min (addUsize a.scale b.scale) (max (max scale a.scale) b.scale)

/-- `multiply`. -/
def multiply (a b : Decimal) (scale : Nat) : Traced Decimal := do
  let product ← a.mulExact b
  product.rescale (a.productScale b scale)

/-- `div`. -/
def div (a b : Decimal) (resultScale : Nat) : Traced (Except DecimalError Decimal) := do
  if b.isZero then return .error .divideByZero
  else
    let needed := addUsize resultScale b.scale
    let dividend ← (if a.scale < needed then a.rescale needed else pure a)
    let (q, _) ← dividend.digits.divmod b.digits
    let quotient : Decimal := ⟨q, dividend.scale - b.scale⟩
    let result ← quotient.rescale resultScale
    return .ok result

/-- `modulo`. -/
def modulo (a b : Decimal) (resultScale : Nat) : Traced (Except DecimalError Decimal) := do
  match ← a.div b resultScale with
  | .error e => return .error e
  | .ok q =>
    let product ← q.mulExact b
    let result ← a.sub product
    return .ok result

/-- What a round of `pow` goes on with. -/
structure PowState where
  result : Decimal
  base : Decimal
  exponent : BigInt

/-- One round of the loop of `pow`; the last squaring is left out. -/
def powRound (s : PowState) : Traced (PowState ⊕ Decimal) := do
  if s.exponent.isZero then return .inr s.result
  else
    let (half, rem) ← s.exponent.divmod (.fromI64 2)
    let result ← (if rem.isZero then pure s.result else s.result.mulExact s.base)
    let base ← (if half.isZero then pure s.base else s.base.mulExact s.base)
    return .inl ⟨result, base, half⟩

/-- `pow` with an integer `e` that is not negative, within `fuel` rounds. -/
def powInteger (fuel : Nat) (a e : Decimal) (scale : Nat) : Traced (Option Decimal) := do
  if e.isZero then return some one
  else
    match ← iterate powRound fuel ⟨one, a, e.digits⟩ with
    | none => return none
    | some result =>
      let exact := mulUsize a.scale e.digits.toUsizeSaturating
      let result ← result.rescale (min exact (max scale a.scale))
      return some result

/-- `pow`, within `fuel` rounds. The call for a negative exponent is with its magnitude, which is an integer and
not negative. -/
def pow (fuel : Nat) (a exp : Decimal) (scale : Nat) : Traced (Option (Except DecimalError Decimal)) := do
  let e ← exp.rescale 0
  if e.isNegative then
    match ← a.powInteger fuel e.negate scale with
    | none => return none
    | some magnitude =>
      let result ← one.div magnitude scale
      return some result
  else
    match ← a.powInteger fuel e scale with
    | none => return none
    | some result => return some (.ok result)

/-- `sqrt`, with `fuel` rounds for each loop of `isqrt`. -/
def sqrt (fuel : Nat) (a : Decimal) (resultScale : Nat) : Traced (Option (Except DecimalError Decimal)) := do
  if a.isNegative then return some (.error .negativeSqrt)
  else if a.isZero then return some (.ok zero)
  else
    let extra := addUsize (mulUsize resultScale 2) 2
    let target := addUsize a.scale extra
    let target := if target % 2 = 0 then target else addUsize target 1
    let scaled ← a.rescale target
    match ← scaled.digits.isqrt fuel with
    | none => return none
    | some digits =>
      let result ← Decimal.rescale ⟨digits, target / 2⟩ resultScale
      return some (.ok result)

/-! ## What a decimal stands for -/

/-- The number that a decimal stands for. -/
def toRat (a : Decimal) : ℚ := a.digits.toInt / 10 ^ a.scale

/-- A decimal with the normal form of an integer for its digits, at a scale. -/
structure Holds (a : Decimal) (m : Int) (s : Nat) : Prop where
  digits : a.digits.Represents m
  scale : a.scale = s

/-- A decimal as the type has it: normalized digits and a scale that fits a word. -/
structure Wf (a : Decimal) : Prop where
  digits : a.digits.Normalized
  scale : a.scale < 2 ^ 64

variable {a b : Decimal} {m n : Int} {s t k : Nat}

theorem Wf.holds (h : a.Wf) : a.Holds a.digits.toInt a.scale := ⟨h.digits.represents, rfl⟩

theorem Holds.toRat (h : a.Holds m s) : a.toRat = m / 10 ^ s := by
  rw [Decimal.toRat, h.digits.toInt, h.scale]

theorem Holds.one : one.Holds 1 0 := ⟨.one, rfl⟩

theorem Holds.isZero (h : a.Holds m s) : a.isZero = decide (m = 0) := h.digits.isZero

theorem Holds.isNegative (h : a.Holds m s) : a.isNegative = decide (m < 0) := h.digits.negative

/-- Digits moved from one scale to another, cut toward zero. -/
def moved (m : Int) (s t : Nat) : Int := (m * 10 ^ (t - s)).tdiv (10 ^ (s - t))

theorem moved_up (h : s ≤ t) : moved m s t = m * 10 ^ (t - s) := by
  rw [moved, Nat.sub_eq_zero_of_le h, pow_zero, Int.tdiv_one]

theorem moved_nat (x s t : Nat) : moved x s t = (x * 10 ^ (t - s) / 10 ^ (s - t) : Nat) := by
  rw [moved, Int.natCast_div, ← Int.natCast_tdiv_eq_ediv]
  push_cast
  rfl

theorem moved_down (h : t ≤ s) : moved m s t = m.tdiv (10 ^ (s - t)) := by
  rw [moved, Nat.sub_eq_zero_of_le h, pow_zero, mul_one]

/-- A magnitude with fewer digits than a power of ten has zeros is divided to zero by it. -/
theorem tdiv_pow_eq_zero {e : Nat} (h : m.natAbs < 10 ^ e) : m.tdiv (10 ^ e) = 0 := by
  have hcast : ((10 ^ e : Nat) : Int) = 10 ^ e := by push_cast; rfl
  rw [← hcast, ← Int.natAbs_eq_zero, Int.natAbs_tdiv, Int.natAbs_natCast]
  exact Nat.div_eq_of_lt h

theorem tenToThe_meets (n : Nat) : (tenToThe n).Meets 2 (BigInt.Represents · (10 ^ n)) := by
  have hshift := BigInt.shiftLeftDecimal_meets BigInt.Represents.one n
  rwa [one_mul] at hshift

/-- **`rescale`** is exact upwards and cuts toward zero downwards. -/
theorem rescale_meets (ha : a.Holds m s) (t : Nat) : (a.rescale t).Meets 2 (Holds · (moved m s t) t) := by
  obtain ⟨hdigits, rfl⟩ := ha
  unfold rescale
  split
  next hsame =>
    subst hsame
    rw [moved_up (Nat.le_refl _), Nat.sub_self, pow_zero, mul_one]
    exact Meets.pure ⟨hdigits, rfl⟩
  next hdiffer =>
  split
  next hup =>
    rw [moved_up hup]
    refine Meets.bind (BigInt.shiftLeftDecimal_meets hdigits _) ?_
    intro digits hout
    exact Meets.pure ⟨hout, rfl⟩
  next hdown =>
  rw [moved_down (Nat.le_of_not_le hdown)]
  split
  next hshort =>
    -- More digits go than there are.
    have hbound : m.natAbs < 10 ^ (a.scale - t) := by
      rw [← hdigits.natAbs]
      calc value a.digits.limbs < limbBase ^ a.digits.limbs.length := hdigits.normalized.limbs.value_lt
        _ = 10 ^ (a.digits.limbs.length * limbDigits) := by rw [Nat.mul_comm, pow_mul]; rfl
        _ ≤ 10 ^ (a.scale - t) := Nat.pow_le_pow_right (by decide) hshort
    rw [tdiv_pow_eq_zero hbound]
    exact Meets.pure ⟨.zero, rfl⟩
  next hlong =>
  refine Meets.bind (tenToThe_meets _) ?_
  intro divisor hdivisor
  refine Meets.bind (BigInt.divmod_represents hdigits hdivisor (by positivity)) ?_
  rintro ⟨q, r⟩ ⟨hq, -⟩
  exact Meets.pure ⟨hq, rfl⟩

/-- **`mul_exact`** multiplies, up to the scale. -/
theorem mulExact_meets (ha : a.Holds m s) (hb : b.Holds n t) :
    (a.mulExact b).Meets 2 (Holds · (m * n) (addUsize s t)) := by
  unfold mulExact
  refine Meets.bind (BigInt.mul_meets ha.digits hb.digits) ?_
  intro digits hdigits
  refine Meets.pure ⟨hdigits, ?_⟩
  rw [ha.scale, hb.scale]

/-- **`sub`** subtracts at the larger scale. -/
theorem sub_meets (ha : a.Holds m s) (hb : b.Holds n t) :
    (a.sub b).Meets 2 (Holds · (moved m s (max s t) - moved n t (max s t)) (max s t)) := by
  unfold sub
  dsimp only
  rw [ha.scale, hb.scale]
  refine Meets.bind (rescale_meets ha _) ?_
  intro x hx
  refine Meets.bind (rescale_meets hb _) ?_
  intro y hy
  refine Meets.bind (BigInt.sub_meets hx.digits hy.digits) ?_
  intro digits hdigits
  exact Meets.pure ⟨hdigits, rfl⟩

/-- **`div`** by a number that is not zero: the digits at the scale that is needed, divided and moved. -/
theorem div_meets (ha : a.Holds m s) (hb : b.Holds n t) (hn : n ≠ 0) (r : Nat) :
    (a.div b r).Meets 2 fun out => ∃ q, out = .ok q ∧
      q.Holds (moved ((moved m s (max s (addUsize r t))).tdiv n) (max s (addUsize r t) - t) r) r := by
  have hdividend : (if a.scale < addUsize r b.scale then a.rescale (addUsize r b.scale) else pure a).Meets 2
      (Holds · (moved m s (max s (addUsize r t))) (max s (addUsize r t))) := by
    rw [ha.scale, hb.scale]
    split
    next hless =>
      rw [Nat.max_eq_right hless.le]
      exact rescale_meets ha _
    next hge =>
      rw [Nat.max_eq_left (Nat.not_lt.mp hge), moved_up (Nat.le_refl s), Nat.sub_self, pow_zero, mul_one]
      exact Meets.pure ha
  have hzero : b.isZero = false := by rw [hb.isZero, decide_eq_false hn]
  unfold div
  rw [hzero, if_neg (by decide)]
  refine Meets.bind hdividend ?_
  intro dividend hscaled
  refine Meets.bind (BigInt.divmod_represents hscaled.digits hb.digits hn) ?_
  rintro ⟨q, rest⟩ ⟨hq, -⟩
  have hquotient : Holds ⟨q, dividend.scale - b.scale⟩ _ (max s (addUsize r t) - t) :=
    ⟨hq, by rw [hscaled.scale, hb.scale]⟩
  refine Meets.bind (rescale_meets hquotient r) ?_
  intro result hresult
  exact Meets.pure ⟨result, rfl, hresult⟩

theorem div_zero (hb : b.Holds 0 t) (r : Nat) :
    (a.div b r).Meets 2 (· = .error .divideByZero) := by
  have hzero : b.isZero = true := by rw [hb.isZero, decide_eq_true rfl]
  unfold div
  rw [hzero, if_pos rfl]
  exact Meets.pure rfl

end Decimal

end SlateOS.Bignum
