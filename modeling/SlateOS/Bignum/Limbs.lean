/-
# SlateOS.Bignum.Limbs -- what limbs stand for

The value of a list of limbs, when a `BigInt` is normalized, and what the operations on single limbs do to the
value: `split`, `mul_limb`, `div_limb`, `normalize` and `cmp_mag`. Each is a triple, so that it also says that
nothing saturates and no cast loses anything.
-/
import SlateOS.Bignum.BigInt
import Mathlib.Data.Nat.Digits.Lemmas

namespace SlateOS.Bignum

open Foundation Foundation.MachineInt Foundation.Traced

/-! ## Values -/

/-- The number that limbs stand for. -/
def value (ls : List Nat) : Nat := Nat.ofDigits limbBase ls

/-- Every limb is below the base. -/
def Limbs (ls : List Nat) : Prop := ∀ l ∈ ls, l < limbBase

instance (ls : List Nat) : Decidable (Limbs ls) := inferInstanceAs (Decidable (∀ l ∈ ls, l < limbBase))

theorem limbBase_pos : 0 < limbBase := by decide

@[simp] theorem value_nil : value [] = 0 := rfl

@[simp] theorem value_cons (l : Nat) (ls : List Nat) : value (l :: ls) = l + limbBase * value ls :=
  Nat.ofDigits_cons

theorem value_append (xs ys : List Nat) :
    value (xs ++ ys) = value xs + limbBase ^ xs.length * value ys := Nat.ofDigits_append

@[simp] theorem value_replicate_zero (k : Nat) : value (List.replicate k 0) = 0 :=
  Nat.ofDigits_replicate_zero

@[simp] theorem Limbs.nil : Limbs [] := by
  intro l hl
  cases hl

@[simp] theorem Limbs.cons_iff {l : Nat} {ls : List Nat} : Limbs (l :: ls) ↔ l < limbBase ∧ Limbs ls :=
  List.forall_mem_cons

@[simp] theorem Limbs.append_iff {xs ys : List Nat} : Limbs (xs ++ ys) ↔ Limbs xs ∧ Limbs ys :=
  List.forall_mem_append

theorem Limbs.value_lt {ls : List Nat} (h : Limbs ls) : value ls < limbBase ^ ls.length :=
  Nat.ofDigits_lt_base_pow_length (by decide) h

/-- Limbs with a last one have a value between the bounds that it sets. -/
theorem Limbs.top_bounds {low : List Nat} {top : Nat} (h : Limbs (low ++ [top])) :
    top * limbBase ^ low.length ≤ value (low ++ [top]) ∧
      value (low ++ [top]) < (top + 1) * limbBase ^ low.length := by
  have hlow := (Limbs.append_iff.mp h).1.value_lt
  have hvalue : value (low ++ [top]) = value low + limbBase ^ low.length * top := by
    rw [value_append, value_cons, value_nil, Nat.mul_zero, Nat.add_zero]
  rw [hvalue]
  constructor
  · rw [Nat.mul_comm]
    exact Nat.le_add_left _ _
  · rw [Nat.succ_mul, Nat.mul_comm top]
    omega

@[simp] theorem limb_append_length (xs ys : List Nat) (x : Nat) : limb (xs ++ x :: ys) xs.length = x := by
  unfold limb
  rw [List.getElem?_append_right (Nat.le_refl _), Nat.sub_self]
  rfl

/-! ## Machine operations -/

section Machine

variable {a b k : Nat} {x y : Int}

theorem addU64_meets (h : a + b < 2 ^ 64) : (addU64 a b).Meets k (· = a + b) := by
  refine Meets.op (decide_eq_true ?_) (saturatingAdd_of_lt h)
  unfold maxVal
  omega

theorem mulU64_meets (h : a * b < 2 ^ 64) : (mulU64 a b).Meets k (· = a * b) := by
  have hmax : a * b ≤ maxVal 64 := by
    unfold maxVal
    omega
  exact Meets.op (decide_eq_true hmax) (Nat.min_eq_left hmax)

theorem subU64_meets (h : b ≤ a) : (subU64 a b).Meets k (· = a - b) :=
  Meets.op (decide_eq_true h) rfl

theorem divU64_meets (h : b ≠ 0) : (divU64 a b).Meets k (· = a / b) :=
  Meets.op (decide_eq_true h) rfl

theorem remU64_meets (h : b ≠ 0) : (remU64 a b).Meets k (· = a % b) :=
  Meets.op (decide_eq_true h) (if_neg h)

theorem asU32_meets (h : a < 2 ^ 32) : (asU32 a).Meets k (· = a) :=
  Meets.op (decide_eq_true h) (Nat.mod_eq_of_lt h)

theorem addI64_meets (hlow : -2 ^ 63 ≤ x + y) (hup : x + y < 2 ^ 63) : (addI64 x y).Meets k (· = x + y) := by
  refine Meets.op ?_ ?_
  · rw [inI64, decide_eq_true hlow, decide_eq_true hup]
    rfl
  · unfold clampI64
    omega

theorem subI64_meets (hlow : -2 ^ 63 ≤ x - y) (hup : x - y < 2 ^ 63) : (subI64 x y).Meets k (· = x - y) := by
  refine Meets.op ?_ ?_
  · rw [inI64, decide_eq_true hlow, decide_eq_true hup]
    rfl
  · unfold clampI64
    omega

theorem tryI64_meets (h : a < 2 ^ 63) : (tryI64 a).Meets k (· = (a : Int)) := by
  refine Meets.op (decide_eq_true h) ?_
  omega

theorem intAsU32_meets (hlow : 0 ≤ x) (hup : x < 2 ^ 32) : (intAsU32 x).Meets k (· = x.toNat) := by
  refine Meets.op ?_ ?_
  · rw [decide_eq_true hlow, decide_eq_true hup]
    rfl
  · rw [Int.emod_eq_of_lt hlow hup]

/-- `split` is division with rest by the base. -/
theorem split_meets (v : Nat) : (split v).Meets k (· = (v / limbBase, v % limbBase)) := by
  have hlow : v % limbBase < 2 ^ 32 := (Nat.mod_lt v limbBase_pos).trans (by decide)
  unfold split
  refine Meets.bind (divU64_meets limbBase_pos.ne') ?_
  rintro _ rfl
  refine Meets.bind (remU64_meets limbBase_pos.ne') ?_
  rintro _ rfl
  refine Meets.bind (asU32_meets hlow) ?_
  rintro _ rfl
  exact Meets.pure rfl

/-- The product of two limbs. -/
theorem limb_mul_le (ha : a < limbBase) (hb : b < limbBase) : a * b ≤ 999999998000000001 :=
  Nat.mul_le_mul (Nat.le_pred_of_lt ha) (Nat.le_pred_of_lt hb)

end Machine

/-! ## Multiplying and dividing by one limb -/

/-- **`mul_limb`** multiplies. -/
theorem mulLimbs_meets {v : Nat} (hv : v < limbBase) : ∀ {ls : List Nat} {carry : Nat}, Limbs ls →
    carry < limbBase →
      (mulLimbs v ls carry).Meets 2 fun out =>
        Limbs out ∧ ls.length ≤ out.length ∧ value out = v * value ls + carry
  | [], carry, _, hcarry => by
    unfold mulLimbs
    split
    · refine Meets.bind (asU32_meets (hcarry.trans (by decide))) ?_
      rintro _ rfl
      refine Meets.pure ⟨?_, Nat.zero_le _, ?_⟩
      · simpa using hcarry
      · simp
    next hzero =>
    refine Meets.pure ⟨Limbs.nil, Nat.le_refl _, ?_⟩
    simp only [value_nil]
    omega
  | l :: ls, carry, hls, hcarry => by
    obtain ⟨hl, hrest⟩ := Limbs.cons_iff.mp hls
    have hmul := limb_mul_le hl hv
    have hB : limbBase = 1000000000 := rfl
    unfold mulLimbs
    refine Meets.bind (mulU64_meets (by omega)) ?_
    rintro _ rfl
    refine Meets.bind (addU64_meets (by omega)) ?_
    rintro _ rfl
    refine Meets.bind (split_meets _) ?_
    rintro _ rfl
    have hnext : (l * v + carry) / limbBase < limbBase := by
      rw [Nat.div_lt_iff_lt_mul limbBase_pos, hB]
      omega
    refine Meets.bind (mulLimbs_meets hv hrest hnext) ?_
    rintro out ⟨hout, hlength, hvalue⟩
    refine Meets.pure ⟨Limbs.cons_iff.mpr ⟨Nat.mod_lt _ limbBase_pos, hout⟩, Nat.succ_le_succ hlength, ?_⟩
    have hsplit := Nat.mod_add_div (l * v + carry) limbBase
    rw [value_cons, value_cons, hvalue]
    calc (l * v + carry) % limbBase + limbBase * (v * value ls + (l * v + carry) / limbBase)
        = ((l * v + carry) % limbBase + limbBase * ((l * v + carry) / limbBase)) +
            v * (limbBase * value ls) := by ring
      _ = v * (l + limbBase * value ls) + carry := by
            rw [hsplit]
            ring

/-- **`div_limb`** divides, with as many limbs in the quotient. -/
theorem divLimbs_meets {d : Nat} (hpos : 0 < d) (hd : d < limbBase) : ∀ {ls : List Nat}, Limbs ls →
    (divLimbs d ls).Meets 2 fun out =>
      Limbs out.1 ∧ out.1.length = ls.length ∧ out.2 < d ∧ value ls = value out.1 * d + out.2
  | [], _ => by
    unfold divLimbs
    exact Meets.pure ⟨Limbs.nil, rfl, hpos, by simp⟩
  | l :: ls, hls => by
    obtain ⟨hl, hrest⟩ := Limbs.cons_iff.mp hls
    have hB : limbBase = 1000000000 := rfl
    unfold divLimbs
    refine Meets.bind (divLimbs_meets hpos hd hrest) ?_
    rintro ⟨quotient, rem⟩ ⟨hquotient, hlength, hrem, hvalue⟩
    simp only at hquotient hlength hrem hvalue ⊢
    have hcur : rem * limbBase + l < d * limbBase ∧ d * limbBase < 2 ^ 64 := by
      rw [hB] at hl hd ⊢
      omega
    refine Meets.bind (mulU64_meets (by omega)) ?_
    rintro _ rfl
    refine Meets.bind (addU64_meets (by omega)) ?_
    rintro _ rfl
    have hdigit : (rem * limbBase + l) / d < limbBase := by
      rw [Nat.div_lt_iff_lt_mul hpos, Nat.mul_comm limbBase]
      exact hcur.1
    refine Meets.bind (divU64_meets hpos.ne') ?_
    rintro _ rfl
    refine Meets.bind (asU32_meets (hdigit.trans (by decide))) ?_
    rintro _ rfl
    refine Meets.bind (remU64_meets hpos.ne') ?_
    rintro _ rfl
    refine Meets.pure ⟨Limbs.cons_iff.mpr ⟨hdigit, hquotient⟩, ?_, Nat.mod_lt _ hpos, ?_⟩
    · rw [List.length_cons, List.length_cons, hlength]
    · have hsplit := Nat.mod_add_div (rem * limbBase + l) d
      rw [value_cons, value_cons, hvalue]
      calc l + limbBase * (value quotient * d + rem)
          = (rem * limbBase + l) + limbBase * value quotient * d := by ring
        _ = (rem * limbBase + l) % d + d * ((rem * limbBase + l) / d) + limbBase * value quotient * d := by
              rw [hsplit]
        _ = ((rem * limbBase + l) / d + limbBase * value quotient) * d + (rem * limbBase + l) % d := by
              ring

/-! ## Normal form -/

namespace BigInt

/-- There is a limb, every limb is below the base, the last of several is not zero and zero has no sign. -/
structure Normalized (a : BigInt) : Prop where
  nonempty : a.limbs ≠ []
  limbs : Limbs a.limbs
  top : 1 < a.limbs.length → a.limbs.getLast? ≠ some 0
  sign : a.isZero = true → a.negative = false

/-- The integer that a `BigInt` stands for. -/
def toInt (a : BigInt) : Int := if a.negative then -(value a.limbs : Int) else value a.limbs

end BigInt

/-- What `normalize` pops are zeros, and it stops in front of the last limb or one that is not zero. -/
theorem popZeros_spec : ∀ ls : List Nat, ∃ k, ls = List.replicate k 0 ++ popZeros ls ∧
    (ls ≠ [] → popZeros ls ≠ []) ∧ (1 < (popZeros ls).length → (popZeros ls).head? ≠ some 0)
  | [] => ⟨0, rfl, id, by simp [popZeros]⟩
  | [x] => by
    refine ⟨0, ?_⟩
    cases x with
    | zero => simp [popZeros]
    | succ x => simp [popZeros]
  | 0 :: x :: xs => by
    obtain ⟨k, heq, hne, hhead⟩ := popZeros_spec (x :: xs)
    refine ⟨k + 1, ?_, fun _ => hne (List.cons_ne_nil _ _), hhead⟩
    show 0 :: x :: xs = 0 :: (List.replicate k 0 ++ popZeros (x :: xs))
    rw [← heq]
  | (n + 1) :: x :: xs => ⟨0, rfl, id, by simp [popZeros]⟩

/-- Limbs whose zeros at the top are popped. -/
theorem popped_spec (ls : List Nat) : ∃ k, ls = (popZeros ls.reverse).reverse ++ List.replicate k 0 := by
  obtain ⟨k, heq, -⟩ := popZeros_spec ls.reverse
  refine ⟨k, ?_⟩
  have hback := congrArg List.reverse heq
  rwa [List.reverse_reverse, List.reverse_append, List.reverse_replicate] at hback

theorem value_eq_zero_iff : ∀ {ls : List Nat}, value ls = 0 ↔ ls.all (fun l => l == 0) = true
  | [] => by simp
  | l :: ls => by
    have hpos := limbBase_pos
    have hrest : value ls = 0 ↔ ls.all (fun l => l == 0) = true := value_eq_zero_iff
    rw [value_cons, List.all_cons, Bool.and_eq_true, ← hrest, beq_iff_eq, Nat.add_eq_zero_iff,
      Nat.mul_eq_zero]
    simp only [hpos.ne', false_or]

namespace BigInt

variable {a b : BigInt}

theorem isZero_iff : a.isZero = true ↔ value a.limbs = 0 := value_eq_zero_iff.symm

/-- `normalize` pops zeros and drops the sign of zero. -/
theorem normalize_eq (a : BigInt) : a.normalize =
    if BigInt.isZero ⟨a.negative, (popZeros a.limbs.reverse).reverse⟩
    then ⟨false, (popZeros a.limbs.reverse).reverse⟩
    else ⟨a.negative, (popZeros a.limbs.reverse).reverse⟩ := rfl

theorem normalize_limbs : a.normalize.limbs = (popZeros a.limbs.reverse).reverse := by
  rw [normalize_eq]
  split <;> rfl

@[simp] theorem value_normalize : value a.normalize.limbs = value a.limbs := by
  obtain ⟨k, heq⟩ := popped_spec a.limbs
  rw [normalize_limbs]
  conv_rhs => rw [heq]
  rw [value_append, value_replicate_zero, Nat.mul_zero, Nat.add_zero]

theorem normalize_negative_of_ne (h : value a.limbs ≠ 0) : a.normalize.negative = a.negative := by
  have hpopped : value (popZeros a.limbs.reverse).reverse = value a.limbs := by
    rw [← normalize_limbs, value_normalize]
  rw [normalize_eq]
  split
  next hzero =>
    rw [isZero_iff] at hzero
    exact absurd (hpopped.symm.trans hzero) h
  next => rfl

@[simp] theorem toInt_normalize : a.normalize.toInt = a.toInt := by
  unfold toInt
  rw [value_normalize]
  by_cases h : value a.limbs = 0
  · simp [h]
  · rw [normalize_negative_of_ne h]

/-- **`normalize`** gives a normal form. -/
theorem normalize_normalized (hne : a.limbs ≠ []) (hlimbs : Limbs a.limbs) : a.normalize.Normalized := by
  obtain ⟨k, heq⟩ := popped_spec a.limbs
  obtain ⟨-, -, hnonempty, hhead⟩ := popZeros_spec a.limbs.reverse
  refine ⟨?_, ?_, ?_, ?_⟩
  · rw [normalize_limbs]
    simpa using hnonempty (by simpa using hne)
  · rw [normalize_limbs]
    rw [heq] at hlimbs
    exact (Limbs.append_iff.mp hlimbs).1
  · rw [normalize_limbs, List.length_reverse, List.getLast?_reverse]
    exact hhead
  · rw [normalize_eq]
    split
    next => exact fun _ => rfl
    next h => exact fun hzero => absurd hzero h

theorem Normalized.zero : zero.Normalized :=
  ⟨by decide, by decide, by decide, by decide⟩

theorem Normalized.one : one.Normalized :=
  ⟨by decide, by decide, by decide, by decide⟩

/-- A normalized number that is not zero has a top limb that is not zero. -/
theorem Normalized.split_top (h : a.Normalized) (hne : value a.limbs ≠ 0) :
    ∃ low top, a.limbs = low ++ [top] ∧ 0 < top := by
  obtain ⟨low, top, heq⟩ : ∃ low top, a.limbs = low ++ [top] :=
    ⟨_, _, (List.dropLast_concat_getLast h.nonempty).symm⟩
  refine ⟨low, top, heq, Nat.pos_of_ne_zero ?_⟩
  rintro rfl
  cases low with
  | nil =>
    rw [heq] at hne
    exact hne rfl
  | cons x xs =>
    refine h.top ?_ ?_
    · rw [heq]
      simp
    · rw [heq, List.getLast?_concat]

/-- The value of a normalized number that is not zero tells how many limbs it has. -/
theorem Normalized.length_bounds (h : a.Normalized) (hne : value a.limbs ≠ 0) :
    limbBase ^ (a.limbs.length - 1) ≤ value a.limbs ∧ value a.limbs < limbBase ^ a.limbs.length := by
  refine ⟨?_, h.limbs.value_lt⟩
  obtain ⟨low, top, heq, hpos⟩ := h.split_top hne
  have hlimbs := h.limbs
  rw [heq] at hlimbs
  have hle : 1 * limbBase ^ low.length ≤ top * limbBase ^ low.length := Nat.mul_le_mul_right _ hpos
  rw [heq, List.length_append, List.length_singleton, Nat.add_sub_cancel]
  rw [Nat.one_mul] at hle
  exact hle.trans hlimbs.top_bounds.1

/-- A value below a power of the base needs no more limbs. -/
theorem Normalized.length_le (h : a.Normalized) (hne : value a.limbs ≠ 0) {k : Nat}
    (hlt : value a.limbs < limbBase ^ k) : a.limbs.length ≤ k := by
  have hlow := (h.length_bounds hne).1.trans_lt hlt
  have := (Nat.pow_lt_pow_iff_right (by decide)).mp hlow
  omega

/-- A value at a power of the base needs more limbs. -/
theorem Normalized.lt_length (h : a.Normalized) {k : Nat}
    (hle : limbBase ^ k ≤ value a.limbs) : k < a.limbs.length :=
  (Nat.pow_lt_pow_iff_right (by decide)).mp (hle.trans_lt h.limbs.value_lt)

theorem Normalized.value_ne_zero (h : a.Normalized) (hlength : 1 < a.limbs.length) :
    value a.limbs ≠ 0 := by
  intro hzero
  have hmem : a.limbs.getLast h.nonempty ∈ a.limbs := List.getLast_mem h.nonempty
  have hall := List.all_eq_true.mp (value_eq_zero_iff.mp hzero) _ hmem
  refine h.top hlength ?_
  rw [List.getLast?_eq_some_getLast h.nonempty, eq_of_beq hall]

/-- More limbs are a larger value. -/
theorem Normalized.lt_of_length_lt (ha : a.Normalized) (hb : b.Normalized)
    (hlt : b.limbs.length < a.limbs.length) : value b.limbs < value a.limbs := by
  have hbpos := List.length_pos_iff.mpr hb.nonempty
  have hne := ha.value_ne_zero (by omega)
  calc value b.limbs < limbBase ^ b.limbs.length := hb.limbs.value_lt
    _ ≤ limbBase ^ (a.limbs.length - 1) := Nat.pow_le_pow_right limbBase_pos (by omega)
    _ ≤ value a.limbs := (ha.length_bounds hne).1

end BigInt

/-! ## Comparing -/

/-- How two numbers compare, in the way `cmp_mag` says it. -/
def order (x y : Nat) : Int := if x = y then 0 else if y < x then 1 else -1

theorem cmpLimbs_spec : ∀ {xs ys : List Nat}, xs.length = ys.length → Limbs xs → Limbs ys →
    cmpLimbs xs ys = order (value xs.reverse) (value ys.reverse)
  | [], [], _, _, _ => rfl
  | x :: xs, y :: ys, hlength, hxs, hys => by
    have hxs' := (Limbs.cons_iff.mp hxs).2
    have hys' := (Limbs.cons_iff.mp hys).2
    have hlen : xs.length = ys.length := by simpa using hlength
    have hxlt : value xs.reverse < limbBase ^ ys.length := by
      have hrev : Limbs xs.reverse := fun l hl => hxs' l (List.mem_reverse.mp hl)
      simpa [hlen] using hrev.value_lt
    have hylt : value ys.reverse < limbBase ^ ys.length := by
      have hrev : Limbs ys.reverse := fun l hl => hys' l (List.mem_reverse.mp hl)
      simpa using hrev.value_lt
    rw [List.reverse_cons, List.reverse_cons, value_append, value_append, List.length_reverse,
      List.length_reverse, hlen, value_cons, value_cons, value_nil, Nat.mul_zero, Nat.add_zero,
      Nat.add_zero, cmpLimbs]
    -- The first limbs that differ decide, since what is below them is less than their unit.
    rcases Nat.lt_trichotomy x y with hlt | rfl | hgt
    · have hgap : limbBase ^ ys.length * (x + 1) ≤ limbBase ^ ys.length * y := Nat.mul_le_mul_left _ hlt
      rw [Nat.mul_succ] at hgap
      rw [if_pos hlt.ne, if_neg (by omega), order, if_neg (by omega), if_neg (by omega)]
    · rw [if_neg (by simp), cmpLimbs_spec hlen hxs' hys']
      unfold order
      simp only [Nat.add_right_cancel_iff, Nat.add_lt_add_iff_right]
    · have hgap : limbBase ^ ys.length * (y + 1) ≤ limbBase ^ ys.length * x := Nat.mul_le_mul_left _ hgt
      rw [Nat.mul_succ] at hgap
      rw [if_pos hgt.ne', if_pos hgt, order, if_neg (by omega), if_pos (by omega)]

namespace BigInt

variable {a b : BigInt}

/-- **`cmp_mag`** compares values. -/
theorem cmpMag_spec (ha : a.Normalized) (hb : b.Normalized) :
    a.cmpMag b = order (value a.limbs) (value b.limbs) := by
  unfold cmpMag
  split
  next hlength =>
    split
    next hlt =>
      have hgt := ha.lt_of_length_lt hb hlt
      rw [order, if_neg hgt.ne', if_pos hgt]
    next hge =>
      have hgt := hb.lt_of_length_lt ha (by omega)
      rw [order, if_neg hgt.ne, if_neg hgt.not_gt]
  next hlength =>
  rw [cmpLimbs_spec, List.reverse_reverse, List.reverse_reverse]
  · simpa using Decidable.not_not.mp hlength
  · exact fun l hl => ha.limbs l (List.mem_reverse.mp hl)
  · exact fun l hl => hb.limbs l (List.mem_reverse.mp hl)

/-! ## The operations on one limb, normalized -/

theorem mulLimb_meets {v : Nat} (ha : a.Normalized) (hv : v < limbBase) :
    (a.mulLimb v).Meets 2 fun out => out.Normalized ∧ value out.limbs = v * value a.limbs := by
  unfold mulLimb
  refine Meets.bind (mulLimbs_meets hv ha.limbs limbBase_pos) ?_
  rintro out ⟨hout, hlength, hvalue⟩
  have hne : out ≠ [] := by
    rw [← List.length_pos_iff]
    exact (List.length_pos_iff.mpr ha.nonempty).trans_le hlength
  refine Meets.pure ⟨normalize_normalized hne hout, ?_⟩
  rw [value_normalize]
  exact hvalue

theorem divLimb_meets {d : Nat} (hne : a.limbs ≠ []) (ha : Limbs a.limbs) (hpos : 0 < d) (hd : d < limbBase) :
    (a.divLimb d).Meets 2 fun out =>
      out.1.Normalized ∧ out.2 < d ∧ value a.limbs = value out.1.limbs * d + out.2 := by
  unfold divLimb
  rw [if_neg hpos.ne']
  refine Meets.bind (divLimbs_meets hpos hd ha) ?_
  rintro ⟨quotient, rem⟩ ⟨hquotient, hlength, hrem, hvalue⟩
  simp only at hquotient hlength hrem hvalue ⊢
  refine Meets.bind (asU32_meets ((hrem.trans hd).trans (by decide))) ?_
  rintro _ rfl
  have hquotientNe : quotient ≠ [] := by
    rwa [← List.length_pos_iff, hlength, List.length_pos_iff]
  refine Meets.pure ⟨normalize_normalized hquotientNe hquotient, hrem, ?_⟩
  rw [value_normalize]
  exact hvalue

end BigInt

/-- `from_i64` keeps the value. -/
theorem limbsOf_spec (n : Nat) : limbsOf n ≠ [] ∧ Limbs (limbsOf n) ∧ value (limbsOf n) = n := by
  induction n using limbsOf.induct with
  | case1 n hlast =>
    rw [limbsOf, if_pos hlast]
    refine ⟨List.cons_ne_nil _ _, ?_, ?_⟩
    · simpa using Nat.mod_lt n limbBase_pos
    · have hsplit := Nat.mod_add_div n limbBase
      rw [hlast, Nat.mul_zero] at hsplit
      simpa using hsplit
  | case2 n hmore ih =>
    obtain ⟨-, hlimbs, hvalue⟩ := ih
    rw [limbsOf, if_neg hmore]
    refine ⟨List.cons_ne_nil _ _, Limbs.cons_iff.mpr ⟨Nat.mod_lt n limbBase_pos, hlimbs⟩, ?_⟩
    rw [value_cons, hvalue]
    exact Nat.mod_add_div n limbBase

end SlateOS.Bignum
