/-
# SlateOS.Bignum.Arithmetic -- sums, products and powers

`add_mag`, `sub_mag`, `add`, `sub`, `mul`, `shift_left_decimal` and `pow` of `userspace/bignum/src/lib.rs`. Each
is a triple on values: the limbs stay below the base, nothing saturates, no cast loses anything, and the number
that comes back is the one that integers have.
-/
import SlateOS.Bignum.Division

namespace SlateOS.Bignum

open Foundation Foundation.MachineInt Foundation.Traced

/-! ## The loops -/

/-- The loop of `add_mag` from place `i` on, `n` places to go; a carry that is left is one more limb. -/
def addLoop (a b : List Nat) : Nat → Nat → Nat → Traced (List Nat)
  | 0, _, carry => do
    if 0 < carry then
      let last ← asU32 carry
      return [last]
    else return []
  | n + 1, i, carry => do
    let sum ← addU64 (limb a i) (limb b i)
    let sum ← addU64 sum carry
    let (next, low) ← split sum
    let rest ← addLoop a b n (i + 1) next
    return low :: rest

/-- The loop of `sub_mag` from place `i` on, `n` places to go. -/
def subLoop (a b : List Nat) : Nat → Nat → Int → Traced (List Nat)
  | 0, _, _ => return []
  | n + 1, i, borrow => do
    let diff ← subI64 (limb a i) (limb b i)
    let diff ← subI64 diff borrow
    if diff < 0 then
      let diff ← addI64 diff limbBase
      let low ← intAsU32 diff
      let rest ← subLoop a b n (i + 1) 1
      return low :: rest
    else
      let low ← intAsU32 diff
      let rest ← subLoop a b n (i + 1) 0
      return low :: rest

/-- The inner loop of `mul`: one limb times the other operand's, added into the slots from the current one on;
the carry goes into the slot one past them. -/
def mulRow (av : Nat) : List Nat → List Nat → Nat → Traced (List Nat)
  | [], [], _ => return []
  | [], slot :: slots, carry => do
    let slot ← addU64 slot carry
    return slot :: slots
  | _ :: _, [], _ => return []
  | bv :: bs, slot :: slots, carry => do
    let product ← mulU64 av bv
    let product ← addU64 product slot
    let product ← addU64 product carry
    let (next, low) ← split product
    let rest ← mulRow av bs slots next
    return low :: rest

/-- The outer loop of `mul`, at limb `i`. -/
def mulLoop (bs : List Nat) : List Nat → Nat → List Nat → Traced (List Nat)
  | [], _, result => return result
  | av :: as, i, result => do
    let slots ← mulRow av bs (result.drop i) 0
    mulLoop bs as (i + 1) (result.take i ++ slots)

/-- The slots of `mul`, cast to limbs. -/
def castLimbs : List Nat → Traced (List Nat)
  | [] => return []
  | v :: vs => do
    let low ← asU32 v
    let rest ← castLimbs vs
    return low :: rest

namespace BigInt

/-- `add_mag`. -/
def addMag (a b : List Nat) : Traced (List Nat) := addLoop a b (max a.length b.length) 0 0

/-- `sub_mag`. -/
def subMag (a b : List Nat) : Traced (List Nat) := subLoop a b a.length 0 0

/-- `add`. -/
def add (a b : BigInt) : Traced BigInt := do
  if a.negative = b.negative then
    let limbs ← addMag a.limbs b.limbs
    return ({ negative := a.negative, limbs := limbs } : BigInt).normalize
  else if a.cmpMag b = 1 ∨ a.cmpMag b = 0 then
    let limbs ← subMag a.limbs b.limbs
    return ({ negative := a.negative, limbs := limbs } : BigInt).normalize
  else
    let limbs ← subMag b.limbs a.limbs
    return ({ negative := b.negative, limbs := limbs } : BigInt).normalize

/-- `sub`. -/
def sub (a b : BigInt) : Traced BigInt := a.add { b with negative := !b.negative }

/-- `mul`. -/
def mul (a b : BigInt) : Traced BigInt := do
  let result ← mulLoop b.limbs a.limbs 0 (List.replicate (a.limbs.length + b.limbs.length) 0)
  let limbs ← castLimbs result
  return ({ negative := a.negative != b.negative, limbs := limbs } : BigInt).normalize

/-- The loop of `shift_left_decimal`. -/
def shiftLoop (ten : BigInt) : Nat → BigInt → Traced BigInt
  | 0, result => return result
  | n + 1, result => do
    let result ← result.mul ten
    shiftLoop ten n result

/-- `shift_left_decimal`. -/
def shiftLeftDecimal (a : BigInt) (n : Nat) : Traced BigInt :=
  if n = 0 ∨ a.isZero = true then return a else shiftLoop (fromI64 10) n a

/-- What a round of `pow` goes on with. -/
structure PowState where
  base : BigInt
  result : BigInt
  e : BigInt

/-- One round of the loop of `pow`. -/
def powRound (s : PowState) : Traced (PowState ⊕ BigInt) := do
  if s.e.isZero then return .inr s.result
  else
    let (half, rem) ← s.e.divmod (fromI64 2)
    let result ← (if rem.isZero then pure s.result else s.result.mul s.base)
    let base ← s.base.mul s.base
    return .inl ⟨base, result, half⟩

/-- `pow`, within `fuel` rounds. -/
def pow (fuel : Nat) (a exp : BigInt) : Traced (Option BigInt) :=
  if exp.negative then return some zero
  else if exp.isZero then return some one
  else iterate powRound fuel ⟨a, one, exp⟩

end BigInt

/-! ## Magnitudes -/

section Magnitudes

variable {a b : List Nat} {k : Nat}

/-- The limb at a place and the limbs above it. -/
theorem value_drop (ls : List Nat) (i : Nat) :
    value (ls.drop i) = limb ls i + limbBase * value (ls.drop (i + 1)) := by
  by_cases hi : i < ls.length
  · rw [List.drop_eq_getElem_cons hi, value_cons, limb, List.getElem?_eq_getElem hi]
    rfl
  · have hle := Nat.le_of_not_lt hi
    rw [List.drop_of_length_le hle, List.drop_of_length_le (Nat.le_succ_of_le hle), limb,
      List.getElem?_eq_none hle]
    rfl

theorem Limbs.limb_lt {ls : List Nat} (h : Limbs ls) (i : Nat) : limb ls i < limbBase := by
  unfold limb
  cases hget : ls[i]? with
  | none => exact limbBase_pos
  | some l => exact h l (List.mem_of_getElem? hget)

theorem value_drop_eq_zero {ls : List Nat} {i : Nat} (h : ls.length ≤ i) : value (ls.drop i) = 0 := by
  rw [List.drop_of_length_le h]
  rfl

/-- **`add_mag`** adds. -/
theorem addLoop_meets (ha : Limbs a) (hb : Limbs b) : ∀ {n i carry : Nat}, a.length ≤ i + n →
    b.length ≤ i + n → carry ≤ 1 →
      (addLoop a b n i carry).Meets 2 fun out =>
        Limbs out ∧ n ≤ out.length ∧ value out = value (a.drop i) + value (b.drop i) + carry
  | 0, i, carry, haLength, hbLength, hcarry => by
    rw [value_drop_eq_zero (i := i) haLength, value_drop_eq_zero (i := i) hbLength]
    unfold addLoop
    split
    · refine Meets.bind (asU32_meets (by omega)) ?_
      rintro _ rfl
      refine Meets.pure ⟨?_, Nat.zero_le _, ?_⟩
      · simpa using hcarry.trans_lt (by decide)
      · simp
    next hzero =>
    refine Meets.pure ⟨Limbs.nil, Nat.le_refl _, ?_⟩
    simp only [value_nil]
    omega
  | n + 1, i, carry, haLength, hbLength, hcarry => by
    have hai := ha.limb_lt i
    have hbi := hb.limb_lt i
    have hB : limbBase = 1000000000 := rfl
    unfold addLoop
    refine Meets.bind (addU64_meets (by omega)) ?_
    rintro _ rfl
    refine Meets.bind (addU64_meets (by omega)) ?_
    rintro _ rfl
    refine Meets.bind (split_meets _) ?_
    rintro _ rfl
    have hnext : (limb a i + limb b i + carry) / limbBase ≤ 1 := by
      rw [Nat.div_le_iff_le_mul_add_pred limbBase_pos]
      omega
    refine Meets.bind (addLoop_meets ha hb (by omega) (by omega) hnext) ?_
    rintro out ⟨hout, hlength, hvalue⟩
    refine Meets.pure ⟨Limbs.cons_iff.mpr ⟨Nat.mod_lt _ limbBase_pos, hout⟩, Nat.succ_le_succ hlength, ?_⟩
    have hsplit := Nat.mod_add_div (limb a i + limb b i + carry) limbBase
    rw [value_cons, hvalue, value_drop a i, value_drop b i]
    linear_combination hsplit

/-- **`sub_mag`** subtracts the smaller magnitude. -/
theorem subLoop_meets (ha : Limbs a) (hb : Limbs b) : ∀ {n i borrow : Nat}, a.length ≤ i + n → borrow ≤ 1 →
    value (b.drop i) + borrow ≤ value (a.drop i) →
      (subLoop a b n i borrow).Meets 2 fun out =>
        Limbs out ∧ out.length = n ∧ value out + value (b.drop i) + borrow = value (a.drop i)
  | 0, i, borrow, haLength, hborrow, hle => by
    rw [value_drop_eq_zero (i := i) haLength] at hle ⊢
    unfold subLoop
    refine Meets.pure ⟨Limbs.nil, rfl, ?_⟩
    simp only [value_nil]
    omega
  | n + 1, i, borrow, haLength, hborrow, hle => by
    have hai := ha.limb_lt i
    have hbi := hb.limb_lt i
    have hB : limbBase = 1000000000 := rfl
    have hBi : (limbBase : Int) = 1000000000 := rfl
    have haDrop := value_drop a i
    have hbDrop := value_drop b i
    rw [haDrop, hbDrop] at hle ⊢
    unfold subLoop
    refine Meets.bind (subI64_meets (by omega) (by omega)) ?_
    rintro _ rfl
    refine Meets.bind (subI64_meets (by omega) (by omega)) ?_
    rintro _ rfl
    split
    next hneg =>
      -- One base is borrowed, and the places above are short of it.
      refine Meets.bind (addI64_meets (by omega) (by omega)) ?_
      rintro _ rfl
      refine Meets.bind (intAsU32_meets (by omega) (by omega)) ?_
      rintro _ rfl
      have habove : value (b.drop (i + 1)) + 1 ≤ value (a.drop (i + 1)) := by
        rw [hB] at hle
        omega
      refine Meets.bind (@subLoop_meets ha hb n (i + 1) 1 (by omega) (Nat.le_refl 1) habove) ?_
      rintro out ⟨hout, hlength, hvalue⟩
      refine Meets.pure ⟨Limbs.cons_iff.mpr ⟨by omega, hout⟩, by simp [hlength], ?_⟩
      rw [value_cons, ← hvalue, hB]
      omega
    next hpos =>
    refine Meets.bind (intAsU32_meets (by omega) (by omega)) ?_
    rintro _ rfl
    have habove : value (b.drop (i + 1)) + 0 ≤ value (a.drop (i + 1)) := by
      rw [hB] at hle
      omega
    refine Meets.bind (@subLoop_meets ha hb n (i + 1) 0 (by omega) (Nat.zero_le 1) habove) ?_
    rintro out ⟨hout, hlength, hvalue⟩
    refine Meets.pure ⟨Limbs.cons_iff.mpr ⟨by omega, hout⟩, by simp [hlength], ?_⟩
    rw [value_cons, ← hvalue, hB]
    omega

/-! ## Products -/

/-- **One row of `mul`**: as many slots as the other operand has limbs and an empty one past them. -/
theorem mulRow_meets {av : Nat} (hav : av < limbBase) (rest : List Nat) : ∀ {bs slots : List Nat} {carry : Nat},
    Limbs bs → Limbs slots → slots.length = bs.length → carry < limbBase →
      (mulRow av bs (slots ++ 0 :: rest) carry).Meets 2 fun out =>
        ∃ row, out = row ++ rest ∧ Limbs row ∧ row.length = bs.length + 1 ∧
          value row = value slots + av * value bs + carry
  | [], [], carry, _, _, _, hcarry => by
    have hB : limbBase = 1000000000 := rfl
    show (mulRow av [] (0 :: rest) carry).Meets 2 _
    unfold mulRow
    refine Meets.bind (addU64_meets (by omega)) ?_
    rintro _ rfl
    refine Meets.pure ⟨[0 + carry], rfl, ?_, rfl, ?_⟩
    · simpa using hcarry
    · simp
  | bv :: bs, slot :: slots, carry, hbs, hslots, hlength, hcarry => by
    obtain ⟨hbv, hbs⟩ := Limbs.cons_iff.mp hbs
    obtain ⟨hslot, hslots⟩ := Limbs.cons_iff.mp hslots
    have hmul := limb_mul_le hav hbv
    have hB : limbBase = 1000000000 := rfl
    show (mulRow av (bv :: bs) (slot :: (slots ++ 0 :: rest)) carry).Meets 2 _
    unfold mulRow
    refine Meets.bind (mulU64_meets (by omega)) ?_
    rintro _ rfl
    refine Meets.bind (addU64_meets (by omega)) ?_
    rintro _ rfl
    refine Meets.bind (addU64_meets (by omega)) ?_
    rintro _ rfl
    refine Meets.bind (split_meets _) ?_
    rintro _ rfl
    have hnext : (av * bv + slot + carry) / limbBase < limbBase := by
      rw [Nat.div_lt_iff_lt_mul limbBase_pos, hB]
      omega
    refine Meets.bind (mulRow_meets hav rest hbs hslots (by simpa using hlength) hnext) ?_
    rintro _ ⟨row, rfl, hrow, hrowLength, hvalue⟩
    refine Meets.pure ⟨_ :: row, rfl, Limbs.cons_iff.mpr ⟨Nat.mod_lt _ limbBase_pos, hrow⟩, ?_, ?_⟩
    · rw [List.length_cons, List.length_cons, hrowLength]
    · have hsplit := Nat.mod_add_div (av * bv + slot + carry) limbBase
      rw [value_cons, value_cons, value_cons, hvalue]
      linear_combination hsplit

/-- **The rows of `mul`**: below `front` nothing changes any more, and the slots past the row are empty. -/
theorem mulLoop_meets {bs : List Nat} (hbs : Limbs bs) : ∀ {as front slots : List Nat}, Limbs as → Limbs front →
    Limbs slots → slots.length = bs.length →
      (mulLoop bs as front.length (front ++ (slots ++ List.replicate as.length 0))).Meets 2 fun out =>
        Limbs out ∧ out.length = front.length + bs.length + as.length ∧
          value out = value front + limbBase ^ front.length * (value slots + value as * value bs)
  | [], front, slots, _, hfront, hslots, hlength => by
    unfold mulLoop
    refine Meets.pure ⟨?_, ?_, ?_⟩
    · simpa using ⟨hfront, hslots⟩
    · simp [hlength]
    · simp [value_append]
  | av :: as, front, slots, has, hfront, hslots, hlength => by
    obtain ⟨hav, has⟩ := Limbs.cons_iff.mp has
    unfold mulLoop
    rw [List.drop_left, List.take_left, List.length_cons, List.replicate_succ]
    refine Meets.bind (mulRow_meets hav _ hbs hslots hlength limbBase_pos) ?_
    rintro _ ⟨row, rfl, hrow, hrowLength, hvalue⟩
    -- The lowest slot of the row is finished: it joins `front`.
    cases row with
    | nil => cases hrowLength
    | cons low row =>
      obtain ⟨hlow, hrow⟩ := Limbs.cons_iff.mp hrow
      have hfront' : Limbs (front ++ [low]) := by simpa using ⟨hfront, hlow⟩
      have hloop := mulLoop_meets hbs has hfront' hrow (by simpa using hrowLength)
      rw [List.length_append, List.length_singleton, List.append_assoc, List.singleton_append,
        ← List.cons_append] at hloop
      refine hloop.mono ?_
      rintro out ⟨hout, houtLength, houtValue⟩
      refine ⟨hout, by omega, ?_⟩
      rw [value_cons] at hvalue
      rw [houtValue, value_append, value_cons, value_cons, value_nil, pow_succ]
      linear_combination limbBase ^ front.length * hvalue

theorem castLimbs_meets : ∀ {ls : List Nat}, Limbs ls → (castLimbs ls).Meets k (· = ls)
  | [], _ => Meets.pure rfl
  | l :: ls, hls => by
    obtain ⟨hl, hrest⟩ := Limbs.cons_iff.mp hls
    unfold castLimbs
    refine Meets.bind (asU32_meets (hl.trans (by decide))) ?_
    rintro _ rfl
    refine Meets.bind (castLimbs_meets hrest) ?_
    rintro _ rfl
    exact Meets.pure rfl

end Magnitudes

/-! ## Normal forms of integers -/

/-- The last limb of `from_i64` is not zero when there are several. -/
theorem limbsOf_top (n : Nat) : 1 < (limbsOf n).length → (limbsOf n).getLast? ≠ some 0 := by
  induction n using limbsOf.induct with
  | case1 n hlast =>
    rw [limbsOf, if_pos hlast]
    simp
  | case2 n hmore ih =>
    intro _
    obtain ⟨hne, -, hvalue⟩ := limbsOf_spec (n / limbBase)
    rw [limbsOf, if_neg hmore, List.getLast?_cons_of_ne_nil hne]
    rcases hrest : limbsOf (n / limbBase) with _ | ⟨x, _ | ⟨y, ys⟩⟩
    · exact absurd hrest hne
    · rw [hrest] at hvalue
      simp only [value_cons, value_nil, Nat.mul_zero, Nat.add_zero] at hvalue
      simpa [hvalue] using hmore
    · rw [← hrest]
      exact ih (by simp [hrest])

namespace BigInt

/-- The normal form of an integer. -/
structure Represents (r : BigInt) (z : Int) : Prop where
  normalized : r.Normalized
  toInt : r.toInt = z

variable {a b e r s : BigInt} {x y z : Int} {k : Nat}

theorem Normalized.represents (h : a.Normalized) : a.Represents a.toInt := ⟨h, rfl⟩

theorem Represents.natAbs (h : a.Represents x) : value a.limbs = x.natAbs := by
  have habs := abs_toInt a
  rw [h.toInt, Int.abs_eq_natAbs] at habs
  exact_mod_cast habs.symm

theorem Represents.negative (h : a.Represents x) : a.negative = decide (x < 0) := by
  have hint := h.toInt
  unfold BigInt.toInt at hint
  split at hint
  next hneg =>
    have hne : value a.limbs ≠ 0 := by
      intro hzero
      rw [h.normalized.sign (isZero_iff.mpr hzero)] at hneg
      cases hneg
    rw [hneg, eq_comm, decide_eq_true_iff]
    omega
  next hpos =>
    rw [Bool.eq_false_iff.mpr hpos, eq_comm, decide_eq_false_iff_not]
    omega

theorem Represents.isZero (h : a.Represents x) : a.isZero = decide (x = 0) := by
  rw [Bool.eq_iff_iff, isZero_iff, h.natAbs, decide_eq_true_iff]
  omega

/-- Limbs of normalized numbers of one value are the same. -/
theorem Normalized.limbs_eq (ha : a.Normalized) (hb : b.Normalized) (heq : value a.limbs = value b.limbs) :
    a.limbs = b.limbs := by
  have hlength : a.limbs.length = b.limbs.length := by
    by_contra hne
    rcases Nat.lt_or_gt_of_ne hne with hlt | hgt
    · exact (hb.lt_of_length_lt ha hlt).ne heq
    · exact (ha.lt_of_length_lt hb hgt).ne heq.symm
  exact Nat.ofDigits_inj_of_len_eq (by decide) hlength ha.limbs hb.limbs heq

/-- **An integer has one normal form.** -/
theorem Represents.unique (hr : r.Represents z) (hs : s.Represents z) : r = s := by
  have hlimbs := hr.normalized.limbs_eq hs.normalized (hr.natAbs.trans hs.natAbs.symm)
  have hnegative := hr.negative.trans hs.negative.symm
  cases r
  cases s
  cases hlimbs
  cases hnegative
  rfl

theorem Represents.zero : BigInt.zero.Represents 0 := ⟨Normalized.zero, rfl⟩

theorem Represents.one : BigInt.one.Represents 1 := ⟨Normalized.one, rfl⟩

/-- A sign that goes with the integer; zero takes both. -/
def SignOf (negative : Bool) (z : Int) : Prop := if negative then z ≤ 0 else 0 ≤ z

@[simp] theorem signOf_true : SignOf true z ↔ z ≤ 0 := Iff.rfl

@[simp] theorem signOf_false : SignOf false z ↔ 0 ≤ z := Iff.rfl

theorem Represents.sign (h : a.Represents x) : SignOf a.negative x := by
  rw [h.negative]
  by_cases hx : x < 0
  · rw [decide_eq_true hx]
    exact hx.le
  · rw [decide_eq_false hx]
    exact Int.not_lt.mp hx

/-- Limbs of a magnitude with a sign that goes with the integer, normalized. -/
theorem represents_normalize {ls : List Nat} {negative : Bool} (hne : ls ≠ []) (hls : Limbs ls)
    (hvalue : value ls = z.natAbs) (hsign : SignOf negative z) :
    (normalize ⟨negative, ls⟩).Represents z := by
  refine ⟨normalize_normalized hne hls, ?_⟩
  rw [toInt_normalize]
  show (if negative = true then -(value ls : Int) else value ls) = z
  rw [hvalue]
  cases negative with
  | true =>
    rw [signOf_true] at hsign
    simp only [if_true]
    omega
  | false =>
    rw [signOf_false] at hsign
    simp only [Bool.false_eq_true, if_false]
    omega

/-- The magnitude of a normal form. -/
theorem Represents.magnitude (h : a.Represents x) : Represents { a with negative := false } x.natAbs := by
  refine ⟨⟨h.normalized.nonempty, h.normalized.limbs, h.normalized.top, fun _ => rfl⟩, ?_⟩
  show (value a.limbs : Int) = x.natAbs
  rw [h.natAbs]

theorem fromI64_represents (v : Int) : (fromI64 v).Represents v := by
  obtain ⟨hne, hlimbs, hvalue⟩ := limbsOf_spec v.natAbs
  refine ⟨⟨hne, hlimbs, ?_, ?_⟩, ?_⟩
  · exact limbsOf_top v.natAbs
  · intro hzero
    have hnat : v.natAbs = 0 := by
      rw [← hvalue]
      exact isZero_iff.mp hzero
    show decide (v < 0) = false
    rw [decide_eq_false_iff_not]
    omega
  · show (if decide (v < 0) = true then -(value (limbsOf v.natAbs) : Int) else value (limbsOf v.natAbs)) = v
    simp only [hvalue, decide_eq_true_eq]
    split <;> omega

/-! ## The operations -/

/-- **`cmp_mag`** orders by absolute value. -/
theorem cmpMag_sign (ha : a.Normalized) (hb : b.Normalized) : a.cmpMag b = (|a.toInt| - |b.toInt|).sign := by
  rw [cmpMag_spec ha hb, abs_toInt, abs_toInt, order]
  split
  next heq => simp [heq]
  next hne =>
  split
  next hlt =>
    rw [Int.sign_eq_one_of_pos]
    omega
  next hge =>
    rw [Int.sign_eq_neg_one_of_neg]
    omega

/-- The order of two magnitudes, from `cmp_mag`. -/
theorem Represents.cmpMag (ha : a.Represents x) (hb : b.Represents y) :
    a.cmpMag b = order x.natAbs y.natAbs := by
  rw [cmpMag_spec ha.normalized hb.normalized, ha.natAbs, hb.natAbs]

theorem addMag_meets {xs ys : List Nat} (hne : xs ≠ []) (hxs : Limbs xs) (hys : Limbs ys) :
    (addMag xs ys).Meets 2 fun out => Limbs out ∧ out ≠ [] ∧ value out = value xs + value ys := by
  have hpos := List.length_pos_iff.mpr hne
  refine (addLoop_meets hxs hys (by omega) (by omega) (Nat.zero_le 1)).mono ?_
  rintro out ⟨hout, hlength, hvalue⟩
  refine ⟨hout, ?_, hvalue⟩
  rw [← List.length_pos_iff]
  omega

theorem subMag_meets {xs ys : List Nat} (hne : xs ≠ []) (hxs : Limbs xs) (hys : Limbs ys)
    (hle : value ys ≤ value xs) :
    (subMag xs ys).Meets 2 fun out => Limbs out ∧ out ≠ [] ∧ value out + value ys = value xs := by
  have hpos := List.length_pos_iff.mpr hne
  refine (@subLoop_meets xs ys hxs hys xs.length 0 0 (by omega) (Nat.zero_le 1) hle).mono ?_
  rintro out ⟨hout, hlength, hvalue⟩
  refine ⟨hout, ?_, hvalue⟩
  rw [← List.length_pos_iff]
  omega

/-- `add` of magnitudes with signs that go with them; the second may be a negative zero, as `sub` makes it. -/
theorem add_signed (ha : a.Represents x) {negative : Bool} {ys : List Nat} (hne : ys ≠ []) (hys : Limbs ys)
    (hvalue : value ys = y.natAbs) (hcmp : a.cmpMag ⟨negative, ys⟩ = order x.natAbs y.natAbs)
    (hsign : SignOf negative y) : (a.add ⟨negative, ys⟩).Meets 2 (Represents · (x + y)) := by
  have hsignA := ha.sign
  have haValue := ha.natAbs
  unfold add
  dsimp only
  split
  next hsame =>
    rw [hsame] at hsignA ⊢
    refine Meets.bind (addMag_meets ha.normalized.nonempty ha.normalized.limbs hys) ?_
    rintro out ⟨hout, houtNe, houtValue⟩
    refine Meets.pure (represents_normalize houtNe hout ?_ ?_)
    · cases negative <;> simp only [signOf_true, signOf_false] at hsign hsignA <;> omega
    · cases negative <;> simp only [signOf_true, signOf_false] at hsign hsignA ⊢ <;> omega
  next hdiffer =>
  have hopposite : a.negative = !negative := Bool.eq_not.mpr hdiffer
  rw [hopposite] at hsignA ⊢
  rw [hcmp]
  -- The larger magnitude gives the sign.
  split
  next hge =>
    have hle : y.natAbs ≤ x.natAbs := by
      unfold order at hge
      split at hge
      · omega
      · split at hge <;> omega
    refine Meets.bind (subMag_meets ha.normalized.nonempty ha.normalized.limbs hys (by omega)) ?_
    rintro out ⟨hout, houtNe, houtValue⟩
    refine Meets.pure (represents_normalize houtNe hout ?_ ?_)
    · cases negative <;> simp only [Bool.not_true, Bool.not_false, signOf_true, signOf_false] at hsign hsignA
        <;> omega
    · cases negative <;> simp only [Bool.not_true, Bool.not_false, signOf_true, signOf_false] at hsign hsignA ⊢
        <;> omega
  next hless =>
  have hle : x.natAbs ≤ y.natAbs := by
    unfold order at hless
    split at hless
    · omega
    · split at hless <;> omega
  refine Meets.bind (subMag_meets hne hys ha.normalized.limbs (by omega)) ?_
  rintro out ⟨hout, houtNe, houtValue⟩
  refine Meets.pure (represents_normalize houtNe hout ?_ ?_)
  · cases negative <;> simp only [Bool.not_true, Bool.not_false, signOf_true, signOf_false] at hsign hsignA
      <;> omega
  · cases negative <;> simp only [Bool.not_true, Bool.not_false, signOf_true, signOf_false] at hsign hsignA ⊢
      <;> omega

/-- **`add`** adds. -/
theorem add_meets (ha : a.Represents x) (hb : b.Represents y) : (a.add b).Meets 2 (Represents · (x + y)) :=
  add_signed ha hb.normalized.nonempty hb.normalized.limbs hb.natAbs (ha.cmpMag hb) hb.sign

/-- **`sub`** subtracts. -/
theorem sub_meets (ha : a.Represents x) (hb : b.Represents y) : (a.sub b).Meets 2 (Represents · (x - y)) := by
  rw [Int.sub_eq_add_neg]
  unfold sub
  refine add_signed ha hb.normalized.nonempty hb.normalized.limbs ?_ ?_ ?_
  · rw [Int.natAbs_neg]
    exact hb.natAbs
  · rw [Int.natAbs_neg]
    show a.cmpMag b = _
    exact ha.cmpMag hb
  · have hsign := hb.sign
    cases hneg : b.negative <;> rw [hneg] at hsign <;> simp at hsign ⊢ <;> omega

/-- **`mul`** multiplies. -/
theorem mul_meets (ha : a.Represents x) (hb : b.Represents y) : (a.mul b).Meets 2 (Represents · (x * y)) := by
  have hpos := List.length_pos_iff.mpr ha.normalized.nonempty
  unfold mul
  rw [Nat.add_comm, ← List.replicate_append_replicate]
  refine Meets.bind (mulLoop_meets hb.normalized.limbs ha.normalized.limbs Limbs.nil ?_ List.length_replicate) ?_
  · intro l hl
    rw [List.eq_of_mem_replicate hl]
    exact limbBase_pos
  rintro out ⟨hout, hlength, hvalue⟩
  refine Meets.bind (castLimbs_meets hout) ?_
  rintro _ rfl
  rw [value_replicate_zero, value_nil, List.length_nil, pow_zero, ha.natAbs, hb.natAbs] at hvalue
  refine Meets.pure (represents_normalize ?_ hout ?_ ?_)
  · rw [← List.length_pos_iff]
    omega
  · rw [hvalue, Int.natAbs_mul]
    ring
  · have hsignA := ha.sign
    have hsignB := hb.sign
    cases hnegA : a.negative <;> cases hnegB : b.negative <;> rw [hnegA] at hsignA <;> rw [hnegB] at hsignB
    · exact Int.mul_nonneg hsignA hsignB
    · exact Int.mul_nonpos_of_nonneg_of_nonpos hsignA hsignB
    · exact Int.mul_nonpos_of_nonpos_of_nonneg hsignA hsignB
    · exact Int.mul_nonneg_of_nonpos_of_nonpos hsignA hsignB

theorem shiftLoop_meets {ten : BigInt} (hten : ten.Represents 10) : ∀ {n : Nat} {r : BigInt} {z : Int},
    r.Represents z → (shiftLoop ten n r).Meets 2 (Represents · (z * 10 ^ n))
  | 0, r, z, hr => by
    rw [pow_zero, mul_one]
    exact Meets.pure hr
  | n + 1, r, z, hr => by
    unfold shiftLoop
    refine Meets.bind (mul_meets hr hten) ?_
    intro next hnext
    rw [pow_succ', ← mul_assoc]
    exact shiftLoop_meets hten hnext

/-- **`shift_left_decimal`** multiplies by a power of ten. -/
theorem shiftLeftDecimal_meets (ha : a.Represents x) (n : Nat) :
    (a.shiftLeftDecimal n).Meets 2 (Represents · (x * 10 ^ n)) := by
  unfold shiftLeftDecimal
  split
  next hskip =>
    have heq : x * 10 ^ n = x := by
      rcases hskip with rfl | hzero
      · rw [pow_zero, mul_one]
      · rw [ha.isZero, decide_eq_true_iff] at hzero
        rw [hzero, zero_mul]
    rw [heq]
    exact Meets.pure ha
  next => exact shiftLoop_meets (fromI64_represents 10) ha

/-- `divmod` on normal forms: the quotient and the rest of division toward zero. -/
theorem divmod_represents (ha : a.Represents x) (hb : b.Represents y) (hy : y ≠ 0) :
    (a.divmod b).Meets 2 fun out => out.1.Represents (x.tdiv y) ∧ out.2.Represents (x.tmod y) := by
  have hne : b.isZero = false := by rw [hb.isZero, decide_eq_false hy]
  refine (divmod_meets ha.normalized hb.normalized hne).mono ?_
  rintro ⟨q, r⟩ ⟨hq, hr, hsum, hsmall, hsign⟩
  simp only [ha.toInt, hb.toInt] at hq hr hsum hsmall hsign
  have hsignR := hr.represents.sign
  have hsignA := ha.sign
  rw [Int.add_comm, Int.mul_comm] at hsum
  rw [Int.abs_eq_natAbs, Int.abs_eq_natAbs] at hsmall
  have hparts : x.tdiv y = q.toInt ∧ x.tmod y = r.toInt := by
    rcases hsign with hzero | hsame
    · rcases Int.le_total 0 x with hx | hx
      · exact (Int.tdiv_tmod_unique hx hy).mpr ⟨hsum.symm, by omega, by omega⟩
      · exact (Int.tdiv_tmod_unique' hx hy).mpr ⟨hsum.symm, by omega, by omega⟩
    · rw [hsame] at hsignR
      cases hneg : a.negative <;> rw [hneg] at hsignA hsignR
      · rw [signOf_false] at hsignA hsignR
        exact (Int.tdiv_tmod_unique hsignA hy).mpr ⟨hsum.symm, hsignR, by omega⟩
      · rw [signOf_true] at hsignA hsignR
        exact (Int.tdiv_tmod_unique' hsignA hy).mpr ⟨hsum.symm, by omega, hsignR⟩
  exact ⟨⟨hq, hparts.1.symm⟩, ⟨hr, hparts.2.symm⟩⟩

/-- `divmod` on natural numbers. -/
theorem divmod_nat {n m : Nat} (ha : a.Represents n) (hb : b.Represents m) (hm : 0 < m) :
    (a.divmod b).Meets 2 fun out => out.1.Represents (n / m : Nat) ∧ out.2.Represents (n % m : Nat) := by
  refine (divmod_represents ha hb (by omega)).mono ?_
  rintro ⟨q, r⟩ ⟨hq, hr⟩
  rw [Int.tdiv_eq_ediv_of_nonneg (Int.natCast_nonneg n)] at hq
  rw [Int.tmod_eq_emod_of_nonneg (Int.natCast_nonneg n)] at hr
  exact ⟨by exact_mod_cast hq, by exact_mod_cast hr⟩

/-! ## Powers -/

/-- Between two rounds of `pow`: the result so far times the base to what is left of the exponent is the
power. -/
structure Powering (z : Int) (s : PowState) (n : Nat) : Prop where
  base : ∃ x, s.base.Represents x ∧ ∃ y, s.result.Represents y ∧ y * x ^ n = z
  e : s.e.Represents n

/-- The last bit of an exponent and the rest of it. -/
theorem pow_halve (x : Int) (n : Nat) : x ^ n = (if n % 2 = 0 then 1 else x) * (x * x) ^ (n / 2) := by
  have hpow : (x * x) ^ (n / 2) = x ^ (2 * (n / 2)) := by rw [pow_mul, pow_two]
  rw [hpow]
  split
  next heven =>
    rw [one_mul]
    congr 1
    omega
  next hodd =>
  rw [← pow_succ']
  congr 1
  omega

theorem powRound_meets {s : PowState} {n : Nat} (hs : Powering z s n) :
    (powRound s).Meets 2 (Sum.elim
      (fun next => (∃ m, Powering z next m) ∧ value next.e.limbs < value s.e.limbs) (Represents · z)) := by
  obtain ⟨⟨x, hx, y, hy, htotal⟩, he⟩ := hs
  have hn : value s.e.limbs = n := by simpa using he.natAbs
  unfold powRound
  split
  next hzero =>
    rw [he.isZero, decide_eq_true_iff] at hzero
    have hn0 : n = 0 := by exact_mod_cast hzero
    refine Meets.pure ?_
    rw [hn0, pow_zero, mul_one] at htotal
    rw [← htotal]
    exact hy
  next hmore =>
  rw [he.isZero, decide_eq_true_iff] at hmore
  refine Meets.bind (divmod_nat (m := 2) he (fromI64_represents 2) (by decide)) ?_
  rintro ⟨half, rem⟩ ⟨hhalf, hrem⟩
  have hresult : (if rem.isZero then pure s.result else s.result.mul s.base : Traced BigInt).Meets 2
      (Represents · (y * if n % 2 = 0 then 1 else x)) := by
    have hzero := hrem.isZero
    split
    next heven =>
      rw [heven, eq_comm, decide_eq_true_iff] at hzero
      rw [if_pos (by omega), mul_one]
      exact Meets.pure hy
    next hodd =>
    rw [Bool.eq_false_iff.mpr hodd, eq_comm, decide_eq_false_iff_not] at hzero
    rw [if_neg (by omega)]
    exact mul_meets hy hx
  refine Meets.bind hresult ?_
  intro result hresult
  refine Meets.bind (mul_meets hx hx) ?_
  intro base hbase
  refine Meets.pure ⟨⟨n / 2, ⟨⟨x * x, hbase, _, hresult, ?_⟩, hhalf⟩⟩, ?_⟩
  · rw [mul_assoc, ← pow_halve]
    exact htotal
  · have hless : value half.limbs = n / 2 := hhalf.natAbs.trans (Int.natAbs_natCast _)
    rw [hless, hn]
    omega

/-- **`pow`** raises to a power, in at most as many rounds as the exponent is large. -/
theorem pow_meets {n fuel : Nat} (ha : a.Represents x) (he : e.Represents n) (hfuel : n < fuel) :
    (pow fuel a e).Meets 2 fun out => ∃ r, out = some r ∧ r.Represents (x ^ n) := by
  have hnegative := he.negative
  rw [decide_eq_false (by omega)] at hnegative
  have hn : value e.limbs = n := by simpa using he.natAbs
  unfold pow
  rw [hnegative, if_neg (by decide), he.isZero]
  split
  next hzero =>
    have hn0 : n = 0 := by simpa using hzero
    refine Meets.pure ⟨_, rfl, ?_⟩
    rw [hn0, pow_zero]
    exact Represents.one
  next =>
  refine Meets.iterate (fun s => ∃ m, Powering (x ^ n) s m) (fun s => value s.e.limbs) ?_ ?_ ?_
  · rintro s ⟨m, hs⟩
    exact powRound_meets hs
  · exact ⟨n, ⟨⟨x, ha, 1, Represents.one, one_mul _⟩, he⟩⟩
  · simpa only [hn] using hfuel

end BigInt

end SlateOS.Bignum
