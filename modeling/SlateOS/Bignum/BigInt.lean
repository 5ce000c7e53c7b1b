/-
# SlateOS.Bignum.BigInt -- integers in limbs of base 10^9

`BigInt` of `userspace/bignum/src/lib.rs` with `normalize`, `cmp_mag`, `mul_limb`, `div_limb` and `divmod`.
Limbs are natural numbers, least significant first, and so are indices and lengths; what the code keeps in a
`u64` or an `i64`, or casts to a `u32`, is computed with the saturating operations and casts it uses, which
record whether they were exact.
-/
import SlateOS.Foundation.MachineInt
import SlateOS.Foundation.Traced

namespace SlateOS.Bignum

open Foundation Foundation.MachineInt

/-- `LIMB_BASE`. -/
def limbBase : Nat := 1000000000

/-! ## Machine arithmetic -/

/-- `u64::saturating_add`. -/
def addU64 (a b : Nat) : Traced Nat := .op (decide (a + b ≤ maxVal 64)) (saturatingAdd 64 a b)

/-- `u64::saturating_mul`. -/
def mulU64 (a b : Nat) : Traced Nat := .op (decide (a * b ≤ maxVal 64)) (saturatingMul 64 a b)

/-- `u64::saturating_sub`. -/
def subU64 (a b : Nat) : Traced Nat := .op (decide (b ≤ a)) (a - b)

/-- `checked_div(..).unwrap_or(0)`. -/
def divU64 (a b : Nat) : Traced Nat := .op (decide (b ≠ 0)) (a / b)

/-- `checked_rem(..).unwrap_or(0)`. -/
def remU64 (a b : Nat) : Traced Nat := .op (decide (b ≠ 0)) (if b = 0 then 0 else a % b)

/-- `as u32` on a `u64`. -/
def asU32 (a : Nat) : Traced Nat := .op (decide (a < 2 ^ 32)) (a % 2 ^ 32)

/-- The range of an `i64`. -/
def inI64 (x : Int) : Bool := decide (-2 ^ 63 ≤ x) && decide (x < 2 ^ 63)

/-- Into the range of an `i64`. -/
def clampI64 (x : Int) : Int := max (-2 ^ 63) (min x (2 ^ 63 - 1))

/-- `i64::saturating_add`. -/
def addI64 (a b : Int) : Traced Int := .op (inI64 (a + b)) (clampI64 (a + b))

/-- `i64::saturating_sub`. -/
def subI64 (a b : Int) : Traced Int := .op (inI64 (a - b)) (clampI64 (a - b))

/-- `i64::try_from(..).unwrap_or(i64::MAX)`. -/
def tryI64 (a : Nat) : Traced Int := .op (decide (a < 2 ^ 63)) (min (a : Int) (2 ^ 63 - 1))

/-- `as u32` on an `i64`. -/
def intAsU32 (x : Int) : Traced Nat :=
  .op (decide (0 ≤ x) && decide (x < 2 ^ 32)) (x % 2 ^ 32).toNat

/-! ## Limbs -/

/-- `limb`. -/
def limb (s : List Nat) (i : Nat) : Nat := s[i]?.getD 0

/-- `split`: the carry out and the limb left behind. -/
def split (v : Nat) : Traced (Nat × Nat) := do
  let carry ← divU64 v limbBase
  let low ← remU64 v limbBase
  let low ← asU32 low
  return (carry, low)

/-- `BigInt`. -/
structure BigInt where
  negative : Bool
  limbs : List Nat
  deriving DecidableEq

/-- The pops of `normalize`, on the limbs most significant first. -/
def popZeros : List Nat → List Nat
  | 0 :: x :: xs => popZeros (x :: xs)
  | ls => ls

/-- The loop of `cmp_mag`, on limbs most significant first. -/
def cmpLimbs : List Nat → List Nat → Int
  | x :: xs, y :: ys => if x ≠ y then (if y < x then 1 else -1) else cmpLimbs xs ys
  | _, _ => 0

/-- The loop of `mul_limb`; a carry that is left is one more limb. -/
def mulLimbs (v : Nat) : List Nat → Nat → Traced (List Nat)
  | [], carry => do
    if 0 < carry then
      let last ← asU32 carry
      return [last]
    else return []
  | l :: ls, carry => do
    let product ← mulU64 l v
    let product ← addU64 product carry
    let (next, low) ← split product
    let rest ← mulLimbs v ls next
    return low :: rest

/-- The loop of `div_limb`, most significant limb first: the quotient's limbs and the rest. -/
def divLimbs (d : Nat) : List Nat → Traced (List Nat × Nat)
  | [] => return ([], 0)
  | l :: ls => do
    let (quotient, rem) ← divLimbs d ls
    let shifted ← mulU64 rem limbBase
    let cur ← addU64 shifted l
    let digit ← divU64 cur d
    let digit ← asU32 digit
    let rem ← remU64 cur d
    return (digit :: quotient, rem)

/-- The loop of `from_i64`. -/
def limbsOf (uv : Nat) : List Nat :=
  if uv / limbBase = 0 then [uv % limbBase]
  else uv % limbBase :: limbsOf (uv / limbBase)
termination_by uv
decreasing_by
  unfold limbBase at *
  omega

namespace BigInt

/-- `zero`. -/
def zero : BigInt := ⟨false, [0]⟩

/-- `one`. -/
def one : BigInt := ⟨false, [1]⟩

/-- `is_zero`. -/
def isZero (a : BigInt) : Bool := a.limbs.all fun l => l == 0

/-- `from_i64`. -/
def fromI64 (v : Int) : BigInt := ⟨decide (v < 0), limbsOf v.natAbs⟩

/-- `normalize`. -/
def normalize (a : BigInt) : BigInt :=
  let a := { a with limbs := (popZeros a.limbs.reverse).reverse }
  if a.isZero then { a with negative := false } else a

/-- `cmp_mag`. -/
def cmpMag (a b : BigInt) : Int :=
  if a.limbs.length ≠ b.limbs.length then (if b.limbs.length < a.limbs.length then 1 else -1)
  else cmpLimbs a.limbs.reverse b.limbs.reverse

/-- `mul_limb`. -/
def mulLimb (a : BigInt) (v : Nat) : Traced BigInt := do
  let limbs ← mulLimbs v a.limbs 0
  return { a with limbs := limbs }.normalize

/-- `div_limb`. -/
def divLimb (a : BigInt) (d : Nat) : Traced (BigInt × Nat) := do
  if d = 0 then return (zero, 0)
  else
    let (quotient, rem) ← divLimbs d a.limbs
    let rem ← asU32 rem
    return ({ a with limbs := quotient }.normalize, rem)

end BigInt

/-! ## Long division -/

/-- Knuth's correction: the estimate, walked down while it is provably too large, and how many rounds that
took. -/
def correct (vTop vSecond uThird : Nat) : Nat → Nat → Traced (Nat × Nat)
  | 0, _ => return (0, 0)
  | q + 1, rHat => do
    let estimate ← mulU64 (q + 1) vSecond
    let shifted ← mulU64 rHat limbBase
    let bound ← addU64 shifted uThird
    if limbBase ≤ q + 1 ∨ bound < estimate then
      let rHat ← addU64 rHat vTop
      if limbBase ≤ rHat then return (q, 1)
      else
        let (q, rounds) ← correct vTop vSecond uThird q rHat
        return (q, rounds + 1)
    else return (q + 1, 0)

/-- The subtraction of `q_hat` times the divisor: `vs` against the slots from the current one on, with the
borrow folded into the next product. -/
def mulSub (qHat : Nat) : List Nat → List Nat → Nat → Traced (List Nat × Nat)
  | [], slots, borrow => return (slots, borrow)
  | _ :: _, [], borrow => return ([], borrow)
  | v :: vs, slot :: slots, borrow => do
    let product ← mulU64 qHat v
    let product ← addU64 product borrow
    let (productHi, productLo) ← split product
    let cur ← subI64 slot productLo
    if cur < 0 then
      let cur ← addI64 cur limbBase
      let low ← intAsU32 cur
      let borrow ← addU64 productHi 1
      let (rest, borrow) ← mulSub qHat vs slots borrow
      return (low :: rest, borrow)
    else
      let low ← intAsU32 cur
      let (rest, borrow) ← mulSub qHat vs slots productHi
      return (low :: rest, borrow)

/-- Adding the divisor in again. -/
def addBack : List Nat → List Nat → Nat → Traced (List Nat × Nat)
  | [], slots, carry => return (slots, carry)
  | _ :: _, [], carry => return ([], carry)
  | v :: vs, slot :: slots, carry => do
    let sum ← addU64 slot v
    let sum ← addU64 sum carry
    let (next, low) ← split sum
    let (rest, carry) ← addBack vs slots next
    return (low :: rest, carry)

/-- The top limb after the subtraction: when it goes negative, the estimate was one too large. `slots` are
the dividend's limbs from the current one on, the top one is number `vs.length`. -/
def settle (vs slots : List Nat) (borrow qHat : Nat) : Traced (List Nat × Nat) := do
  match slots[vs.length]? with
  | none => return (slots, qHat)
  | some slot =>
    let borrow ← tryI64 borrow
    let cur ← subI64 slot borrow
    if cur < 0 then
      let cur ← addI64 cur limbBase
      let top ← intAsU32 cur
      let qHat ← subU64 qHat 1
      let (slots, carry) ← addBack vs (slots.set vs.length top) 0
      let top ← addU64 (limb slots vs.length) carry
      let top ← asU32 top
      return (slots.set vs.length top, qHat)
    else
      let top ← intAsU32 cur
      return (slots.set vs.length top, qHat)

/-- The estimate of one quotient limb from the divisor's top two limbs and the dividend's limbs from the
current one on. -/
def estimate (vTop vSecond n : Nat) (slots : List Nat) : Traced Nat := do
  let uHi := limb slots n
  let uMid := if n < 1 then 0 else limb slots (n - 1)
  let uThird := if n < 2 then 0 else limb slots (n - 2)
  let shifted ← mulU64 uHi limbBase
  let dividend ← addU64 shifted uMid
  let qHat ← divU64 dividend vTop
  let rHat ← remU64 dividend vTop
  let (qHat, rounds) ← correct vTop vSecond uThird qHat rHat
  .loop rounds qHat

/-- One round of the main loop on the dividend's limbs from the current one on: those limbs and the quotient
limb. -/
def divideStep (vTop vSecond : Nat) (vs slots : List Nat) : Traced (List Nat × Nat) := do
  let qHat ← estimate vTop vSecond vs.length slots
  let (slots, borrow) ← mulSub qHat vs slots 0
  let (slots, qHat) ← settle vs slots borrow qHat
  let qHat ← asU32 qHat
  return (slots, qHat)

/-- The main loop: `j` counts down. -/
def divideLoop (vTop vSecond : Nat) (vs : List Nat) :
    Nat → List Nat → List Nat → Traced (List Nat × List Nat)
  | 0, u, q => return (u, q)
  | j + 1, u, q => do
    let (slots, digit) ← divideStep vTop vSecond vs (u.drop j)
    divideLoop vTop vSecond vs j (u.take j ++ slots) (q.set j digit)

/-- The dividend's limbs, filled up with zeros to `len`. -/
def padTo (len : Nat) (ls : List Nat) : List Nat := ls ++ List.replicate (len - ls.length) 0

namespace BigInt

/-- The scale that makes the divisor's top limb at least half the base. -/
def scaleFor (b : BigInt) : Traced Nat := do
  let dTop := b.limbs.getLastD 1
  let succ ← addU64 dTop 1
  let scale ← divU64 limbBase succ
  asU32 (max scale 1)

/-- `divmod` on divisors of several limbs. -/
def longDivide (a b : BigInt) : Traced (BigInt × BigInt) := do
  let n := b.limbs.length
  let m := a.limbs.length - n
  let scale ← b.scaleFor
  let u ← a.mulLimb scale
  let v ← b.mulLimb scale
  let vTop := v.limbs.getLastD 1
  let vSecond := if v.limbs.length < 2 then 0 else limb v.limbs (v.limbs.length - 2)
  let vs := (List.range n).map (limb v.limbs)
  let (u, q) ← divideLoop vTop vSecond vs (m + 1) (padTo (m + n + 1) u.limbs) (List.replicate (m + 1) 0)
  let rem : BigInt := ⟨false, if n ≤ u.length then u.take n else u⟩
  let (remainder, _) ← rem.divLimb scale
  return (({ negative := a.negative != b.negative, limbs := q } : BigInt).normalize,
    { remainder with negative := a.negative }.normalize)

/-- `divmod`. -/
def divmod (a b : BigInt) : Traced (BigInt × BigInt) := do
  if b.isZero then return (zero, zero)
  else if a.cmpMag b < 0 then return (zero, a)
  else if a.cmpMag b = 0 then
    return ({ one with negative := a.negative != b.negative }.normalize, zero)
  else
    match b.limbs with
    | [d] =>
      let (q, r) ← a.divLimb d
      return ({ q with negative := a.negative != b.negative }.normalize,
        { fromI64 r with negative := a.negative }.normalize)
    | _ => a.longDivide b

end BigInt

end SlateOS.Bignum
