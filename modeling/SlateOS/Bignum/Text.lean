/-
# SlateOS.Bignum.Text -- integers as text

`from_str_radix`, `to_str_radix` and `to_string_base10` of `userspace/bignum/src/lib.rs`. A string is the list of
its characters, its bytes are their UTF-8 encodings. Reading what was written gives the same integer in every
radix from 2 to 16: radix ten through groups of nine digits, the others through multiplication and addition.
-/
import SlateOS.Bignum.Arithmetic
import Mathlib.Data.List.TakeWhile

namespace SlateOS.Bignum

open Foundation Foundation.MachineInt Foundation.Traced

/-! ## Characters -/

/-- `LIMB_DIGITS`. -/
def limbDigits : Nat := 9

/-- `u32::saturating_mul`. -/
def mulU32 (a b : Nat) : Traced Nat := .op (decide (a * b ≤ maxVal 32)) (saturatingMul 32 a b)

/-- `u32::saturating_add`. -/
def addU32 (a b : Nat) : Traced Nat := .op (decide (a + b ≤ maxVal 32)) (saturatingAdd 32 a b)

/-- `char_to_digit`. -/
def charToDigit (b : Nat) : Nat :=
  if 48 ≤ b ∧ b ≤ 57 then b - 48
  else if 65 ≤ b ∧ b ≤ 70 then saturatingAdd 32 (b - 65) 10
  else if 97 ≤ b ∧ b ≤ 102 then saturatingAdd 32 (b - 97) 10
  else 0

/-- `digit_to_char`. -/
def digitToChar (d : Nat) : Char :=
  .ofNat (if d < 10 then saturatingAdd 8 48 (d % 256) else saturatingAdd 8 65 ((d - 10) % 256))

/-- `char::is_whitespace`. -/
def isWhitespace (c : Char) : Bool :=
  (9 ≤ c.toNat && c.toNat ≤ 13) || c.toNat == 0x20 || c.toNat == 0x85 || c.toNat == 0xA0 || c.toNat == 0x1680 ||
    (0x2000 ≤ c.toNat && c.toNat ≤ 0x200A) || c.toNat == 0x2028 || c.toNat == 0x2029 || c.toNat == 0x202F ||
    c.toNat == 0x205F || c.toNat == 0x3000

/-- `str::trim`. -/
def trim (s : List Char) : List Char := ((s.dropWhile isWhitespace).reverse.dropWhile isWhitespace).reverse

/-- `str::as_bytes`. -/
def asBytes (s : List Char) : List Nat := s.flatMap fun c => (String.utf8EncodeChar c).map UInt8.toNat

/-- `u8::is_ascii_digit`. -/
def isAsciiDigit (b : Nat) : Bool := 48 ≤ b && b ≤ 57

/-! ## Reading -/

/-- The loop over one group of digits. -/
def groupLoop : List Nat → Nat → Traced Nat
  | [], val => return val
  | b :: bs, val => do
    let val ← mulU32 val 10
    let val ← addU32 val ((b + 256 - 48) % 256)
    groupLoop bs val

/-- The groups of nine digits, from the end `i` of the bytes on. -/
def groupLimbs (bytes : List Nat) (i : Nat) : Traced (List Nat) :=
  if i = 0 then return []
  else do
    let val ← groupLoop ((bytes.take i).drop (i - limbDigits)) 0
    let rest ← groupLimbs bytes (i - limbDigits)
    return val :: rest
termination_by i
decreasing_by
  unfold limbDigits
  omega

namespace BigInt

/-- The loop of the general radix. -/
def radixLoop (base : BigInt) : List Nat → BigInt → Traced BigInt
  | [], result => return result
  | b :: bs, result => do
    let product ← result.mul base
    let result ← product.add (fromI64 (charToDigit b))
    radixLoop base bs result

/-- `from_str_radix` behind the sign. -/
def fromDigits (negative : Bool) (digits : List Char) (radix : Nat) : Traced BigInt :=
  if digits = [] then return zero
  else if radix = 10 ∧ (asBytes digits).all isAsciiDigit = true then do
    let limbs ← groupLimbs (asBytes digits) (asBytes digits).length
    return ({ negative := negative, limbs := limbs } : BigInt).normalize
  else do
    let result ← radixLoop (fromI64 radix) (asBytes digits) zero
    return { result with negative := negative }.normalize

/-- `from_str_radix`. -/
def fromStrRadix (s : List Char) (radix : Nat) : Traced BigInt :=
  match trim s with
  | [] => return zero
  | '-' :: rest => fromDigits true rest radix
  | digits => fromDigits false digits radix

/-! ## Writing -/

/-- `to_string_base10`. -/
def toStringBase10 (a : BigInt) : List Char :=
  if a.isZero then ['0']
  else
    match a.limbs.getLast? with
    | none => ['0']
    | some top =>
      let s := Nat.toDigits 10 top ++
        a.limbs.dropLast.reverse.flatMap fun l => (Nat.toDigits 10 l).leftpad limbDigits '0'
      if a.negative = true ∧ a.isZero = false then '-' :: s else s

/-- What a round of `to_str_radix` goes on with. -/
structure TextState where
  tmp : BigInt
  digits : List Char

/-- One round of the loop of `to_str_radix`. -/
def textRound (base : BigInt) (s : TextState) : Traced (TextState ⊕ List Char) := do
  if s.tmp.isZero then return .inr s.digits
  else
    let (q, r) ← s.tmp.divmod base
    let d := r.limbs.head?.getD 0
    return .inl ⟨q, s.digits ++ [digitToChar d]⟩

/-- `to_str_radix`, within `fuel` rounds. -/
def toStrRadix (fuel : Nat) (a : BigInt) (radix : Nat) : Traced (Option (List Char)) := do
  if a.isZero then return some ['0']
  else if radix = 10 then return some a.toStringBase10
  else
    match ← iterate (textRound (fromI64 radix)) fuel ⟨{ a with negative := false }, []⟩ with
    | none => return none
    | some digits => return some (if a.negative then digits ++ ['-'] else digits).reverse

end BigInt

/-! ## Digits -/

section Digits

variable {k : Nat}

theorem mulU32_meets {a b : Nat} (h : a * b < 2 ^ 32) : (mulU32 a b).Meets k (· = a * b) := by
  have hmax : a * b ≤ maxVal 32 := by
    unfold maxVal
    omega
  exact Meets.op (decide_eq_true hmax) (Nat.min_eq_left hmax)

theorem addU32_meets {a b : Nat} (h : a + b < 2 ^ 32) : (addU32 a b).Meets k (· = a + b) := by
  have hmax : a + b ≤ maxVal 32 := by
    unfold maxVal
    omega
  exact Meets.op (decide_eq_true hmax) (Nat.min_eq_left hmax)

/-- A character that the printers write for a digit. -/
def IsDigitChar (c : Char) : Prop := (48 ≤ c.toNat ∧ c.toNat ≤ 57) ∨ (65 ≤ c.toNat ∧ c.toNat ≤ 70)

theorem IsDigitChar.ne_minus {c : Char} (h : IsDigitChar c) : c ≠ '-' := by
  rintro rfl
  unfold IsDigitChar at h
  simp at h

theorem IsDigitChar.not_whitespace {c : Char} (h : IsDigitChar c) : isWhitespace c = false := by
  have hrange : 48 ≤ c.toNat ∧ c.toNat ≤ 70 := by
    unfold IsDigitChar at h
    omega
  unfold isWhitespace
  simp only [Bool.or_eq_false_iff, Bool.and_eq_false_iff, decide_eq_false_iff_not, beq_eq_false_iff_ne]
  omega

/-- The bytes of an ASCII string. -/
theorem asBytes_ascii : ∀ {s : List Char}, (∀ c ∈ s, c.toNat < 128) → asBytes s = s.map Char.toNat
  | [], _ => rfl
  | c :: s, hs => by
    have hc := hs c List.mem_cons_self
    have hrest := asBytes_ascii fun d hd => hs d (List.mem_cons_of_mem c hd)
    have hbyte : (String.utf8EncodeChar c).map UInt8.toNat = [c.toNat] := by
      have hle : c.val.toNat ≤ 127 := Nat.le_of_lt_succ hc
      unfold String.utf8EncodeChar
      simp only [hle, if_true, List.map_cons, List.map_nil, List.cons.injEq, and_true]
      show (c.val.toNat % 256) = c.toNat
      exact Nat.mod_eq_of_lt (hc.trans (by decide))
    show (String.utf8EncodeChar c).map UInt8.toNat ++ asBytes s = _
    rw [hbyte, hrest]
    rfl

theorem asBytes_digits {s : List Char} (hs : ∀ c ∈ s, IsDigitChar c) : asBytes s = s.map Char.toNat := by
  refine asBytes_ascii fun c hc => ?_
  have := hs c hc
  unfold IsDigitChar at this
  omega

/-- `trim` leaves text without white space as it is. -/
theorem trim_of_none {s : List Char} (hs : ∀ c ∈ s, isWhitespace c = false) : trim s = s := by
  have hfront : s.dropWhile isWhitespace = s := by
    rw [List.dropWhile_eq_self_iff]
    intro hpos
    rw [hs _ (List.getElem_mem hpos)]
    decide
  have hback : s.reverse.dropWhile isWhitespace = s.reverse := by
    rw [List.dropWhile_eq_self_iff]
    intro hpos
    rw [hs _ (List.mem_reverse.mp (List.getElem_mem hpos))]
    decide
  rw [trim, hfront, hback, List.reverse_reverse]

/-- `digit_to_char` below sixteen, and `char_to_digit` back. -/
theorem digitToChar_spec : ∀ {d : Nat}, d < 16 →
    IsDigitChar (digitToChar d) ∧ charToDigit (digitToChar d).toNat = d := by
  unfold IsDigitChar
  decide

/-! ## Groups of nine digits -/

/-- Decimal digits as the printer writes them. -/
def Decimals (s : List Char) : Prop := ∀ c ∈ s, c.isDigit = true

theorem Decimals.bounds {s : List Char} (hs : Decimals s) {c : Char} (hc : c ∈ s) :
    48 ≤ c.toNat ∧ c.toNat ≤ 57 := by
  have hdigit := hs c hc
  rw [Char.isDigit_iff_toNat] at hdigit
  exact hdigit

theorem Decimals.append {s t : List Char} (hs : Decimals s) (ht : Decimals t) : Decimals (s ++ t) :=
  List.forall_mem_append.mpr ⟨hs, ht⟩

/-- **One group**: nothing saturates within nine digits. -/
theorem groupLoop_meets : ∀ {s : List Char} {val n : Nat}, Decimals s → val < 10 ^ n → n + s.length ≤ 9 →
    (groupLoop (s.map Char.toNat) val).Meets k (· = Nat.ofDigitChars 10 s val)
  | [], val, n, _, _, _ => Meets.pure (by simp)
  | c :: s, val, n, hs, hval, hlength => by
    have hc := hs.bounds List.mem_cons_self
    have hbound : val < 10 ^ 8 := by
      rw [List.length_cons] at hlength
      exact hval.trans_le (Nat.pow_le_pow_right (by decide) (by omega))
    have hdigit : (c.toNat + 256 - 48) % 256 = c.toNat - 48 := by omega
    have hnext : 10 * val + (c.toNat - 48) < 10 ^ (n + 1) := by
      rw [pow_succ]
      omega
    rw [List.map_cons]
    unfold groupLoop
    refine Meets.bind (mulU32_meets (by omega)) ?_
    rintro _ rfl
    rw [hdigit]
    refine Meets.bind (addU32_meets (by omega)) ?_
    rintro _ rfl
    rw [Nat.ofDigitChars_cons, Nat.mul_comm val]
    refine groupLoop_meets (fun d hd => hs d (List.mem_cons_of_mem c hd)) hnext ?_
    rw [List.length_cons] at hlength
    omega

/-- What the groups read ends where the bytes are cut. -/
theorem groupLimbs_take (bytes rest : List Nat) (i : Nat) (hi : i ≤ bytes.length) :
    groupLimbs (bytes ++ rest) i = groupLimbs bytes i := by
  induction i using Nat.strong_induction_on with
  | _ i ih =>
    by_cases hzero : i = 0
    · rw [groupLimbs, if_pos hzero, groupLimbs, if_pos hzero]
    · have hless : i - limbDigits < i := by
        unfold limbDigits
        omega
      rw [groupLimbs, if_neg hzero, ih _ hless (by omega), List.take_append_of_le_length hi]
      conv_rhs => rw [groupLimbs, if_neg hzero]

/-- A limb as its nine digits. -/
theorem padded_spec {l : Nat} (hl : l < limbBase) :
    Decimals ((Nat.toDigits 10 l).leftpad limbDigits '0') ∧
      ((Nat.toDigits 10 l).leftpad limbDigits '0').length = 9 ∧
      Nat.ofDigitChars 10 ((Nat.toDigits 10 l).leftpad limbDigits '0') 0 = l := by
  have hlength : (Nat.toDigits 10 l).length ≤ 9 := (Nat.length_toDigits_le_iff (by decide) (by decide)).mpr hl
  refine ⟨?_, ?_, ?_⟩
  · intro c hc
    rw [List.leftpad, List.mem_append] at hc
    rcases hc with hzero | hdigit
    · rw [List.eq_of_mem_replicate hzero]
      decide
    · exact Nat.isDigit_of_mem_toDigits (by decide) (by decide) hdigit
  · rw [List.length_leftpad]
    exact Nat.max_eq_left hlength
  · rw [List.leftpad, Nat.ofDigitChars_append, Nat.ofDigitChars_replicate_zero, Nat.mul_zero,
      Nat.ofDigitChars_ten_toDigits]

/-- The digits of limbs, below a top one. -/
def limbText (low : List Nat) (top : Nat) : List Char :=
  Nat.toDigits 10 top ++ low.reverse.flatMap fun l => (Nat.toDigits 10 l).leftpad limbDigits '0'

theorem limbText_cons (l : Nat) (low : List Nat) (top : Nat) :
    limbText (l :: low) top = limbText low top ++ (Nat.toDigits 10 l).leftpad limbDigits '0' := by
  unfold limbText
  rw [List.reverse_cons, List.flatMap_append, List.flatMap_singleton, List.append_assoc]

theorem limbText_ne_nil {low : List Nat} {top : Nat} : limbText low top ≠ [] := by
  unfold limbText
  exact List.append_ne_nil_of_left_ne_nil Nat.toDigits_ne_nil _

theorem limbText_decimals {low : List Nat} {top : Nat} (hlow : Limbs low) : Decimals (limbText low top) := by
  refine Decimals.append (fun c hc => Nat.isDigit_of_mem_toDigits (by decide) (by decide) hc) ?_
  intro c hc
  obtain ⟨l, hl, hc⟩ := List.mem_flatMap.mp hc
  exact (padded_spec (hlow l (List.mem_reverse.mp hl))).1 c hc

/-- **The groups of nine are the limbs.** -/
theorem groupLimbs_limbText : ∀ {low : List Nat} {top : Nat}, Limbs (low ++ [top]) →
    (groupLimbs ((limbText low top).map Char.toNat) (limbText low top).length).Meets k (· = low ++ [top])
  | [], top, htop => by
    have htop : top < limbBase := by simpa using htop
    have hlength : (limbText [] top).length ≤ 9 := by
      simpa [limbText] using (Nat.length_toDigits_le_iff (k := 9) (by decide) (by decide)).mpr htop
    have hpos : 0 < (limbText [] top).length := by
      simpa [limbText] using Nat.length_toDigits_pos
    have hvalue : Nat.ofDigitChars 10 (limbText [] top) 0 = top := by simp [limbText]
    have hstart : (limbText [] top).length - limbDigits = 0 := Nat.sub_eq_zero_of_le hlength
    rw [groupLimbs, if_neg hpos.ne', hstart, List.drop_zero,
      List.take_of_length_le (by rw [List.length_map])]
    refine Meets.bind (groupLoop_meets (n := 0) (limbText_decimals Limbs.nil) (by decide) (by omega)) ?_
    rintro _ rfl
    rw [groupLimbs, if_pos rfl]
    refine Meets.bind (Meets.pure rfl) ?_
    rintro _ rfl
    refine Meets.pure ?_
    rw [hvalue]
    rfl
  | l :: low, top, hlimbs => by
    obtain ⟨hl, hrest⟩ := Limbs.cons_iff.mp hlimbs
    obtain ⟨hdigits, hlength, hvalue⟩ := padded_spec hl
    have hstart : (limbText (l :: low) top).length - limbDigits = (limbText low top).length := by
      rw [limbText_cons, List.length_append, hlength]
      rfl
    have hpos : (limbText (l :: low) top).length ≠ 0 := by
      rw [limbText_cons, List.length_append, hlength]
      omega
    rw [groupLimbs, if_neg hpos, hstart, limbText_cons, List.map_append,
      groupLimbs_take _ _ _ (by rw [List.length_map]),
      List.take_of_length_le (by simp), List.drop_left' (by rw [List.length_map])]
    refine Meets.bind (groupLoop_meets (n := 0) hdigits (by decide) (by omega)) ?_
    rintro _ rfl
    refine Meets.bind (groupLimbs_limbText hrest) ?_
    rintro _ rfl
    refine Meets.pure ?_
    rw [hvalue]
    rfl

end Digits

/-! ## Reading what was written -/

namespace BigInt

variable {a r : BigInt} {x z : Int}

/-- A normal form whose sign is put on again. -/
theorem signed_represents {negative : Bool} (hr : r.Represents z.natAbs) (hsign : SignOf negative z) :
    (normalize ⟨negative, r.limbs⟩).Represents z := by
  refine represents_normalize hr.normalized.nonempty hr.normalized.limbs ?_ hsign
  rw [hr.natAbs, Int.natAbs_natCast]

/-- The text of an integer: the digits, with a minus sign in front of them when it is negative. -/
theorem fromStrRadix_signed {radix : Nat} {digits : List Char} (hne : digits ≠ [])
    (hdigits : ∀ c ∈ digits, IsDigitChar c) (negative : Bool) :
    fromStrRadix (if negative then '-' :: digits else digits) radix = fromDigits negative digits radix := by
  have hnone : ∀ c ∈ digits, isWhitespace c = false := fun c hc => (hdigits c hc).not_whitespace
  cases negative with
  | true =>
    have htrim : trim ('-' :: digits) = '-' :: digits := by
      refine trim_of_none fun c hc => ?_
      rcases List.mem_cons.mp hc with rfl | hc
      · decide
      · exact hnone c hc
    rw [if_pos rfl, fromStrRadix, htrim]
    rfl
  | false =>
    rw [if_neg (by decide), fromStrRadix, trim_of_none hnone]
    cases digits with
    | nil => exact absurd rfl hne
    | cons c rest =>
      have hminus : c ≠ '-' := (hdigits c List.mem_cons_self).ne_minus
      split
      next heq => cases heq
      next heq =>
        cases heq
        exact absurd rfl hminus
      next => rfl

theorem decimals_isDigitChar {s : List Char} (hs : Decimals s) : ∀ c ∈ s, IsDigitChar c :=
  fun _ hc => Or.inl (hs.bounds hc)

/-- **Radix ten**: the groups of nine digits are the limbs that were printed. -/
theorem fromDigits_ten {low : List Nat} {top : Nat} (negative : Bool) (hlimbs : Limbs (low ++ [top])) :
    (fromDigits negative (limbText low top) 10).Meets 2 (· = normalize ⟨negative, low ++ [top]⟩) := by
  have hdecimals : Decimals (limbText low top) := limbText_decimals (Limbs.append_iff.mp hlimbs).1
  have hbytes := asBytes_digits (decimals_isDigitChar hdecimals)
  have hall : (asBytes (limbText low top)).all isAsciiDigit = true := by
    rw [hbytes, List.all_map, List.all_eq_true]
    intro c hc
    have hbounds := hdecimals.bounds hc
    simp [isAsciiDigit, hbounds.1, hbounds.2]
  unfold fromDigits
  rw [if_neg limbText_ne_nil, if_pos ⟨rfl, hall⟩, hbytes, List.length_map]
  refine Meets.bind (groupLimbs_limbText hlimbs) ?_
  rintro _ rfl
  exact Meets.pure rfl

theorem digitChars {ds : List Nat} (hds : ∀ d ∈ ds, d < 16) : ∀ c ∈ ds.map digitToChar, IsDigitChar c := by
  intro c hc
  obtain ⟨d, hd, rfl⟩ := List.mem_map.mp hc
  exact (digitToChar_spec (hds d hd)).1

/-- **The general radix reads digits** by multiplying and adding. -/
theorem radixLoop_meets {base : BigInt} {radix : Nat} (hbase : base.Represents radix) :
    ∀ {ds : List Nat} {n : Nat}, (∀ d ∈ ds, d < 16) → r.Represents n →
      (radixLoop base (ds.map fun d => (digitToChar d).toNat) r).Meets 2
        (Represents · (ds.foldl (fun n d => n * radix + d) n : Nat)) := by
  intro ds
  induction ds generalizing r with
  | nil =>
    intro n _ hr
    exact Meets.pure hr
  | cons d ds ih =>
    intro n hds hr
    have hdigit := (digitToChar_spec (hds d List.mem_cons_self)).2
    rw [List.map_cons, List.foldl_cons]
    unfold radixLoop
    refine Meets.bind (mul_meets hr hbase) ?_
    intro product hproduct
    rw [hdigit]
    refine Meets.bind (add_meets hproduct (fromI64_represents d)) ?_
    intro result hresult
    refine ih (fun e he => hds e (List.mem_cons_of_mem d he)) ?_
    exact_mod_cast hresult

/-- The digits that are written so far, the last one first, and the number that is left. -/
structure Written (radix total : Nat) (s : TextState) (n : Nat) : Prop where
  tmp : s.tmp.Represents n
  digits : ∃ ds : List Nat, s.digits = ds.map digitToChar ∧ (∀ d ∈ ds, d < radix) ∧
    total = Nat.ofDigits radix ds + radix ^ ds.length * n

/-- What `to_str_radix` ends with. -/
def WrittenAll (radix total : Nat) (digits : List Char) : Prop :=
  ∃ ds : List Nat, digits = ds.map digitToChar ∧ (∀ d ∈ ds, d < radix) ∧ total = Nat.ofDigits radix ds

theorem textRound_meets {radix total : Nat} (hradix : 2 ≤ radix) {base : BigInt} (hbase : base.Represents radix)
    (hup : radix ≤ 16) {s : TextState} {n : Nat} (hs : Written radix total s n) :
    (textRound base s).Meets 2 (Sum.elim
      (fun next => (∃ m, Written radix total next m) ∧ value next.tmp.limbs < value s.tmp.limbs)
      (WrittenAll radix total)) := by
  obtain ⟨htmp, ds, hdigits, hds, htotal⟩ := hs
  have hn : value s.tmp.limbs = n := htmp.natAbs.trans (Int.natAbs_natCast n)
  unfold textRound
  split
  next hzero =>
    rw [htmp.isZero, decide_eq_true_iff] at hzero
    have hn0 : n = 0 := by exact_mod_cast hzero
    refine Meets.pure ⟨ds, hdigits, hds, ?_⟩
    rw [htotal, hn0, Nat.mul_zero, Nat.add_zero]
  next hmore =>
  rw [htmp.isZero, decide_eq_true_iff] at hmore
  refine Meets.bind (divmod_nat htmp hbase (by omega)) ?_
  rintro ⟨q, rem⟩ ⟨hq, hrem⟩
  have hless : n % radix < radix := Nat.mod_lt _ (by omega)
  -- The rest is below the radix, so it is the one limb of its normal form.
  have hsmall : n % radix < limbBase := hless.trans_le (hup.trans (by decide))
  have hfirst : rem.limbs.head?.getD 0 = n % radix := by
    have hone : rem = ⟨false, [n % radix]⟩ := by
      refine hrem.unique ?_
      refine ⟨⟨List.cons_ne_nil _ _, ?_, ?_, ?_⟩, ?_⟩
      · simpa using hsmall
      · simp
      · exact fun _ => rfl
      · simp [BigInt.toInt]
    rw [hone]
    rfl
  dsimp only
  rw [hfirst]
  refine Meets.pure ⟨⟨n / radix, hq, ds ++ [n % radix], ?_, ?_, ?_⟩, ?_⟩
  · rw [hdigits, List.map_append, List.map_singleton]
  · intro d hd
    rcases List.mem_append.mp hd with hd | hd
    · exact hds d hd
    · rwa [List.mem_singleton.mp hd]
  · have hsplit := Nat.mod_add_div n radix
    rw [htotal, Nat.ofDigits_append, Nat.ofDigits_singleton, List.length_append, List.length_singleton,
      pow_succ]
    conv_lhs => rw [← hsplit]
    ring
  · have hquotient : value q.limbs = n / radix := hq.natAbs.trans (Int.natAbs_natCast _)
    rw [hquotient, hn]
    refine Nat.div_lt_self ?_ hradix
    omega

/-- **The other radices**: the digits add up to the magnitude. -/
theorem fromDigits_radix {radix : Nat} (hten : radix ≠ 10) {ds : List Nat} (hne : ds ≠ [])
    (hds : ∀ d ∈ ds, d < 16) (htotal : x.natAbs = Nat.ofDigits radix ds) {negative : Bool}
    (hsign : SignOf negative x) :
    (fromDigits negative (ds.reverse.map digitToChar) radix).Meets 2 (Represents · x) := by
  have hreverse : ∀ d ∈ ds.reverse, d < 16 := fun d hd => hds d (List.mem_reverse.mp hd)
  have hchars := digitChars hreverse
  have htextNe : ds.reverse.map digitToChar ≠ [] := by simpa using hne
  unfold fromDigits
  rw [if_neg htextNe, if_neg (fun h => hten h.1), asBytes_digits hchars, List.map_map]
  refine Meets.bind (radixLoop_meets (fromI64_represents radix) hreverse Represents.zero) ?_
  intro result hresult
  have hnumber : ds.reverse.foldl (fun n d => n * radix + d) 0 = x.natAbs := by
    rw [htotal, Nat.ofDigits_eq_foldr, List.foldl_reverse]
    congr 1
    funext d n
    rw [Nat.cast_id, Nat.add_comm, Nat.mul_comm]
  rw [hnumber] at hresult
  exact Meets.pure (signed_represents hresult hsign)

/-- **Reading what was written**, in every radix from 2 to 16. -/
theorem radix_round_trip {radix fuel : Nat} (ha : a.Represents x) (hlow : 2 ≤ radix) (hup : radix ≤ 16)
    (hfuel : x.natAbs < fuel) :
    (toStrRadix fuel a radix).Meets 2 fun out =>
      ∃ text, out = some text ∧ (fromStrRadix text radix).Meets 2 (· = a) := by
  unfold toStrRadix
  by_cases hx : x = 0
  · -- Zero is one digit, whatever the radix.
    subst hx
    have hzero : a = zero := ha.unique Represents.zero
    rw [ha.isZero, if_pos (by decide), hzero]
    refine Meets.pure ⟨_, rfl, ?_⟩
    have hread : fromStrRadix ['0'] radix = fromDigits false ['0'] radix :=
      fromStrRadix_signed (List.cons_ne_nil _ _) (@digitChars [0] (by decide)) false
    rw [hread]
    by_cases hten : radix = 10
    · subst hten
      exact (@fromDigits_ten [] 0 false (by decide)).mono fun r hr => hr.trans (by decide)
    · have hsign : SignOf false 0 := by simp
      refine (fromDigits_radix hten (List.cons_ne_nil 0 []) (by decide) ?_ hsign).mono
        fun r hr => hr.unique Represents.zero
      simp
  · have hneZero : a.isZero = false := by rw [ha.isZero, decide_eq_false hx]
    rw [hneZero, if_neg (by decide)]
    split
    next hten =>
      subst hten
      have hvalue : value a.limbs ≠ 0 := by
        rw [ha.natAbs]
        omega
      obtain ⟨low, top, hlimbs, -⟩ := ha.normalized.split_top hvalue
      have hall : Limbs (low ++ [top]) := hlimbs ▸ ha.normalized.limbs
      have htext : a.toStringBase10 = if a.negative then '-' :: limbText low top else limbText low top := by
        unfold toStringBase10
        rw [hneZero, hlimbs, List.getLast?_concat, List.dropLast_concat]
        cases a.negative <;> rfl
      have hdecimals : Decimals (limbText low top) := limbText_decimals (Limbs.append_iff.mp hall).1
      refine Meets.pure ⟨_, rfl, ?_⟩
      rw [htext, fromStrRadix_signed limbText_ne_nil (decimals_isDigitChar hdecimals)]
      refine (fromDigits_ten a.negative hall).mono ?_
      rintro _ rfl
      rw [← hlimbs]
      exact (represents_normalize ha.normalized.nonempty ha.normalized.limbs ha.natAbs ha.sign).unique ha
    next hten =>
    have hstart : Written radix x.natAbs ⟨{ a with negative := false }, []⟩ x.natAbs :=
      ⟨ha.magnitude, [], rfl, by simp, by simp⟩
    have hloop := Meets.iterate (fun s => ∃ n, Written radix x.natAbs s n) (fun s => value s.tmp.limbs)
      (fun s ⟨n, hs⟩ => textRound_meets hlow (fromI64_represents radix) hup hs) ⟨_, hstart⟩
      (by simpa only [ha.natAbs] using hfuel)
    refine Meets.bind hloop ?_
    rintro _ ⟨digits, rfl, ds, rfl, hds, htotal⟩
    refine Meets.pure ⟨_, rfl, ?_⟩
    have hsixteen : ∀ d ∈ ds, d < 16 := fun d hd => (hds d hd).trans_le hup
    have hne : ds ≠ [] := by
      rintro rfl
      rw [Nat.ofDigits_nil] at htotal
      omega
    have hreverse : ∀ d ∈ ds.reverse, d < 16 := fun d hd => hsixteen d (List.mem_reverse.mp hd)
    have htext : (if a.negative then ds.map digitToChar ++ ['-'] else ds.map digitToChar).reverse =
        if a.negative then '-' :: ds.reverse.map digitToChar else ds.reverse.map digitToChar := by
      cases a.negative <;> simp
    rw [htext, fromStrRadix_signed (by simpa using hne) (digitChars hreverse)]
    exact (fromDigits_radix hten hne hsixteen htotal ha.sign).mono fun r hr => hr.unique ha

/-! ## Exact arithmetic -/

/-- **Arithmetic is exact**: sums, differences, products and powers are the normal forms of the integers'
own, magnitudes compare as absolute values, and an integer is read again as it was written. -/
theorem arithmetic_exact {b e : BigInt} {radix rounds fuel : Nat} (ha : a.Normalized) (hb : b.Normalized)
    (he : e.Normalized) (hexp : e.negative = false) (hrounds : e.toInt < rounds) (hlow : 2 ≤ radix)
    (hup : radix ≤ 16) (hfuel : |a.toInt| < fuel) :
    (a.add b).Meets 2 (Represents · (a.toInt + b.toInt)) ∧
      (a.sub b).Meets 2 (Represents · (a.toInt - b.toInt)) ∧
      (a.mul b).Meets 2 (Represents · (a.toInt * b.toInt)) ∧
      ((pow rounds a e).Meets 2 fun out => ∃ r, out = some r ∧ r.Represents (a.toInt ^ e.toInt.toNat)) ∧
      a.cmpMag b = (|a.toInt| - |b.toInt|).sign ∧
      (toStrRadix fuel a radix).Meets 2 fun out =>
        ∃ text, out = some text ∧ (fromStrRadix text radix).Meets 2 (· = a) := by
  have hx := ha.represents
  have hy := hb.represents
  have hpos : 0 ≤ e.toInt := by
    have hsign := he.represents.sign
    rwa [hexp] at hsign
  have hn : e.Represents e.toInt.toNat := by
    rw [Int.toNat_of_nonneg hpos]
    exact he.represents
  refine ⟨add_meets hx hy, sub_meets hx hy, mul_meets hx hy, pow_meets hx hn (by omega), cmpMag_sign ha hb, ?_⟩
  rw [Int.abs_eq_natAbs] at hfuel
  exact radix_round_trip hx hlow hup (by omega)

/-- Minus six thousand million: minus one, to the third power, against one, in radix sixteen. -/
theorem arithmetic_exact_mixed :
    (add ⟨true, [0, 6]⟩ one).Meets 2 (Represents · (-6000000000 + 1)) ∧
      (sub ⟨true, [0, 6]⟩ one).Meets 2 (Represents · (-6000000000 - 1)) ∧
      (mul ⟨true, [0, 6]⟩ one).Meets 2 (Represents · (-6000000000 * 1)) ∧
      ((pow 4 ⟨true, [0, 6]⟩ ⟨false, [3]⟩).Meets 2 fun out =>
        ∃ r, out = some r ∧ r.Represents ((-6000000000) ^ 3)) ∧
      cmpMag ⟨true, [0, 6]⟩ one = 1 ∧
      (toStrRadix 6000000001 ⟨true, [0, 6]⟩ 16).Meets 2 fun out =>
        ∃ text, out = some text ∧ (fromStrRadix text 16).Meets 2 (· = ⟨true, [0, 6]⟩) :=
  arithmetic_exact (a := ⟨true, [0, 6]⟩) (b := one) (e := ⟨false, [3]⟩)
    ⟨by decide, by decide, by decide, by decide⟩ Normalized.one ⟨by decide, by decide, by decide, by decide⟩ rfl
    (by decide) (by decide) (by decide) (by decide)

end BigInt

end SlateOS.Bignum
