/-
# SlateOS.Fnmatch.Pattern -- the items of a shell pattern

`userspace/fnmatch/src/lib.rs`: the flags, the bracket expression and `match_one`, which matches the item at one
place of the pattern against one byte of the name. How long an item is does not depend on the byte, and under
`PATHNAME` an item matches a slash only if it is one.
-/
import Mathlib.Data.List.Basic

namespace SlateOS.Fnmatch

abbrev Byte := BitVec 8

/-! ## Bytes -/

namespace Ascii

def bang : Byte := 0x21#8

def star : Byte := 0x2a#8

def dash : Byte := 0x2d#8

def dot : Byte := 0x2e#8

def slash : Byte := 0x2f#8

def colon : Byte := 0x3a#8

def equals : Byte := 0x3d#8

def question : Byte := 0x3f#8

def bracketOpen : Byte := 0x5b#8

def backslash : Byte := 0x5c#8

def bracketClose : Byte := 0x5d#8

def caret : Byte := 0x5e#8

def isUppercase (c : Byte) : Bool := 0x41#8 ≤ c && c ≤ 0x5a#8

def isLowercase (c : Byte) : Bool := 0x61#8 ≤ c && c ≤ 0x7a#8

def isAlphabetic (c : Byte) : Bool := isUppercase c || isLowercase c

def isDigit (c : Byte) : Bool := 0x30#8 ≤ c && c ≤ 0x39#8

def isAlphanumeric (c : Byte) : Bool := isAlphabetic c || isDigit c

def isControl (c : Byte) : Bool := c ≤ 0x1f#8 || c == 0x7f#8

def isGraphic (c : Byte) : Bool := 0x21#8 ≤ c && c ≤ 0x7e#8

def isPunctuation (c : Byte) : Bool := isGraphic c && !isAlphanumeric c

def isWhitespace (c : Byte) : Bool := c == 0x09#8 || c == 0x0a#8 || c == 0x0c#8 || c == 0x0d#8 || c == 0x20#8

def isHexdigit (c : Byte) : Bool := isDigit c || (0x41#8 ≤ c && c ≤ 0x46#8) || (0x61#8 ≤ c && c ≤ 0x66#8)

def toLowercase (c : Byte) : Byte := if isUppercase c then c + 0x20#8 else c

def toUppercase (c : Byte) : Byte := if isLowercase c then c - 0x20#8 else c

def eqIgnoreCase (a b : Byte) : Bool := toLowercase a == toLowercase b

theorem isAlphabetic_toLowercase (c : Byte) : isAlphabetic (toLowercase c) = isAlphabetic c := by
  revert c
  decide +kernel

theorem toLowercase_of_not_alphabetic {c : Byte} (hc : isAlphabetic c = false) : toLowercase c = c := by
  have hupper : isUppercase c = false := by
    rw [isAlphabetic, Bool.or_eq_false_iff] at hc
    exact hc.1
  simp [toLowercase, hupper]

/-- Folding keeps what is not a letter apart from what is. -/
theorem toLowercase_eq_iff {c s : Byte} (hs : isAlphabetic s = false) : toLowercase c = s ↔ c = s := by
  constructor
  · rintro rfl
    rw [isAlphabetic_toLowercase] at hs
    exact (toLowercase_of_not_alphabetic hs).symm
  · rintro rfl
    exact toLowercase_of_not_alphabetic hs

end Ascii

open Ascii

/-! ## Flags -/

structure Flags where
  bits : BitVec 32
  deriving DecidableEq

namespace Flags

def pathname : Flags := ⟨1⟩

def noescape : Flags := ⟨2⟩

def period : Flags := ⟨4⟩

def leadingDir : Flags := ⟨8⟩

def casefold : Flags := ⟨16⟩

/-- `has`. -/
def has (self other : Flags) : Bool := self.bits &&& other.bits == other.bits

end Flags

/-! ## Bracket expressions -/

/-- `eq`. -/
def eq (a b : Byte) (flags : Flags) : Bool := if flags.has .casefold then eqIgnoreCase a b else a == b

/-- A name as its bytes. -/
def ofText (s : String) : List Byte := s.toList.map fun c => BitVec.ofNat 8 c.toNat

/-- The character classes and their members. -/
def classes : List (List Byte × (Byte → Bool)) :=
  [(ofText "alnum", isAlphanumeric), (ofText "alpha", isAlphabetic),
    (ofText "blank", fun c => c == 0x20#8 || c == 0x09#8), (ofText "cntrl", isControl), (ofText "digit", isDigit),
    (ofText "graph", isGraphic), (ofText "lower", isLowercase), (ofText "print", fun c => isGraphic c || c == 0x20#8),
    (ofText "punct", isPunctuation), (ofText "space", fun c => isWhitespace c || c == 0x0b#8),
    (ofText "upper", isUppercase), (ofText "xdigit", isHexdigit)]

/-- `class_exists`. -/
def classExists (name : List Byte) : Bool := classes.any fun entry => entry.1 == name

/-- `in_class`. -/
def inClass (name : List Byte) (c : Byte) : Bool :=
  match classes.find? fun entry => entry.1 == name with
  | some entry => entry.2 c
  | none => false

/-- `in_range`. -/
def inRange (low high c : Byte) (flags : Flags) : Bool :=
  if low ≤ c && c ≤ high then true
  else if flags.has .casefold then
    let folded := if isLowercase c then toUppercase c else toLowercase c
    low ≤ folded && folded ≤ high
  else false

variable (pattern : List Byte)

/-- `find_close`. -/
def findClose (i : Nat) (delim : Byte) : Option Nat :=
  match h : pattern[i]? with
  | none => none
  | some b => if b = delim ∧ pattern[i + 1]? = some bracketClose then some i else findClose (i + 1) delim
termination_by pattern.length - i
decreasing_by
  have := (List.getElem?_eq_some_iff.mp h).1
  omega

variable (flags : Flags)

/-- One end of a range, or a member by itself: the byte, and what follows it. -/
def literalAt (i : Nat) : Option (Byte × Nat) :=
  match pattern[i]? with
  | none => none
  | some b =>
    if b = backslash ∧ flags.has .noescape = false then (pattern[i + 1]?).map fun escaped => (escaped, i + 2)
    else some (b, i + 1)

/-- One member of a bracket expression: whether `c` is it, and what follows; `none` where it is malformed. -/
def member (i : Nat) (c : Byte) : Option (Bool × Nat) :=
  if pattern[i]? = some bracketOpen ∧ pattern[i + 1]? = some colon then
    match findClose pattern (i + 2) colon with
    | none => none
    | some stop =>
      let name := (pattern.drop (i + 2)).take (stop - (i + 2))
      if classExists name then some (inClass name c, stop + 2) else none
  else if pattern[i]? = some bracketOpen ∧ (pattern[i + 1]? = some dot ∨ pattern[i + 1]? = some equals) then none
  else
    match literalAt pattern flags i with
    | none => none
    | some (low, next) =>
      if pattern[next]? = some dash ∧ pattern[next + 1]? ≠ none ∧ pattern[next + 1]? ≠ some bracketClose then
        match literalAt pattern flags (next + 1) with
        | none => none
        | some (high, past) => some (inRange low high c flags, past)
      else some (eq low c flags, next)

variable {pattern flags} {i stop next p q n : Nat} {c c' delim b : Byte} {hit : Bool}

theorem le_of_findClose (h : findClose pattern i delim = some stop) : i ≤ stop := by
  fun_induction findClose pattern i delim with
  | case1 => cases h
  | case2 => exact Nat.le_of_eq (Option.some.inj h)
  | case3 i b hb hne ih => exact Nat.le_of_succ_le (ih h)

theorem lt_of_literalAt (h : literalAt pattern flags i = some (b, next)) : i < next := by
  unfold literalAt at h
  split at h
  · cases h
  · split at h
    · rw [Option.map_eq_some_iff] at h
      obtain ⟨escaped, -, heq⟩ := h
      cases heq
      omega
    · cases h
      omega

theorem lt_of_member (h : member pattern flags i c = some (hit, next)) : i < next := by
  unfold member at h
  split at h
  · split at h
    · cases h
    next stop hstop =>
      have := le_of_findClose hstop
      simp only [Option.ite_none_right_eq_some, Option.some.injEq, Prod.mk.injEq] at h
      omega
  · split at h
    · cases h
    · split at h
      · cases h
      next low next' hlow =>
        have := lt_of_literalAt hlow
        split at h
        · split at h
          · cases h
          next high past hhigh =>
            have := lt_of_literalAt hhigh
            simp only [Option.some.injEq, Prod.mk.injEq] at h
            omega
        · simp only [Option.some.injEq, Prod.mk.injEq] at h
          omega

/-- Where a member ends does not depend on the byte. -/
theorem member_map_snd (pattern : List Byte) (flags : Flags) (i : Nat) (c c' : Byte) :
    (member pattern flags i c).map Prod.snd = (member pattern flags i c').map Prod.snd := by
  unfold member
  split
  · split
    · rfl
    · dsimp only
      split <;> rfl
  · split
    · rfl
    · split
      · rfl
      · split
        · split <;> rfl
        · rfl

variable (pattern flags)

/-- The loop of `bracket`: what was found of `c`, and what follows the `]`. -/
def bracketLoop (c : Byte) (i : Nat) (found first : Bool) : Option (Bool × Nat) :=
  if pattern[i]? = some bracketClose ∧ first = false then some (found, i + 1)
  else
    match _h : member pattern flags i c with
    | none => none
    | some (hit, next) => bracketLoop c next (found || hit) false
termination_by pattern.length - i
decreasing_by
  have hlt := lt_of_member _h
  have : i < pattern.length := by
    by_contra hge
    have hnone : pattern[i]? = none := List.getElem?_eq_none (by omega)
    simp [member, literalAt, hnone] at _h
  omega

/-- `Bracket`. -/
inductive Bracket where
  | matched (stop : Nat)
  | rejected
  | malformed

/-- Whether the set is negated, and where it begins. -/
def bracketStart (p : Nat) : Bool × Nat :=
  if pattern[p + 1]? = some bang ∨ pattern[p + 1]? = some caret then (true, p + 2) else (false, p + 1)

/-- `bracket`. -/
def bracket (p : Nat) (c : Byte) : Bracket :=
  let (negated, i) := bracketStart pattern p
  match bracketLoop pattern flags c i false true with
  | none => .malformed
  | some (found, i) =>
    if found != negated && !(flags.has .pathname && c == slash) then .matched i else .rejected

/-! ## One item -/

variable (name : List Byte)

/-- `at_component_start`. -/
def atComponentStart (n : Nat) : Bool := n == 0 || (flags.has .pathname && name[n - 1]? == some slash)

/-- `match_one`. -/
def matchOne (p n : Nat) : Option Nat :=
  match name[n]?, pattern[p]? with
  | some c, some pc =>
    if pc = question then
      if flags.has .pathname && c == slash then none
      else if flags.has .period && c == dot && atComponentStart flags name n then none
      else some (p + 1)
    else if pc = bracketOpen then
      if flags.has .period && c == dot && atComponentStart flags name n then none
      else
        match bracket pattern flags p c with
        | .malformed => if c = bracketOpen then some (p + 1) else none
        | .matched stop => some stop
        | .rejected => none
    else if pc = backslash ∧ flags.has .noescape = false then
      match pattern[p + 1]? with
      | none => none
      | some escaped => if eq escaped c flags then some (p + 2) else none
    else if eq pc c flags then some (p + 1) else none
  | _, _ => none

/-- Where the item ends. -/
def itemEnd (p : Nat) : Nat :=
  if pattern[p]? = some bracketOpen then
    match bracketLoop pattern flags 0#8 (bracketStart pattern p).2 false true with
    | none => p + 1
    | some (_, i) => i
  else if pattern[p]? = some backslash ∧ flags.has .noescape = false then p + 2
  else p + 1

/-- Whether the item takes the byte of the name at `n`. -/
def fits (p n : Nat) : Bool := (matchOne pattern flags name p n).isSome

/-! ## What an item takes -/

variable {pattern flags name} {found found' first : Bool} {m k l : Nat}

theorem lt_of_bracketLoop (h : bracketLoop pattern flags c i found first = some (hit, stop)) : i < stop := by
  fun_induction bracketLoop pattern flags c i found first with
  | case1 i found first hclose =>
    cases h
    omega
  | case2 i found first hopen hnone => cases h
  | case3 i found first hopen hit next hsome ih =>
    have := lt_of_member hsome
    have := ih h
    omega

/-- Where a bracket expression ends, and whether it is well formed, does not depend on the byte. -/
theorem bracketLoop_map_snd (pattern : List Byte) (flags : Flags) (i : Nat) (first : Bool) (c c' : Byte)
    (found found' : Bool) :
    (bracketLoop pattern flags c i found first).map Prod.snd
      = (bracketLoop pattern flags c' i found' first).map Prod.snd := by
  fun_induction bracketLoop pattern flags c i found first generalizing found' with
  | case1 i found first hclose =>
    conv_rhs => rw [bracketLoop, if_pos hclose]
    rfl
  | case2 i found first hopen hnone =>
    have hsame := member_map_snd pattern flags i c c'
    rw [hnone] at hsame
    conv_rhs => rw [bracketLoop, if_neg hopen]
    split
    · rfl
    next heq => simp [heq] at hsame
  | case3 i found first hopen hit next hsome ih =>
    have hsame := member_map_snd pattern flags i c c'
    rw [hsome] at hsame
    conv_rhs => rw [bracketLoop, if_neg hopen]
    split
    next heq => simp [heq] at hsame
    next hit' next' heq =>
      obtain rfl : next = next' := by simpa [heq] using hsame
      exact ih (found' || hit')

theorem lt_itemEnd (pattern : List Byte) (flags : Flags) (p : Nat) : p < itemEnd pattern flags p := by
  unfold itemEnd
  split
  · split
    · exact Nat.lt_succ_self p
    next hit stop hstop =>
      have hlt := lt_of_bracketLoop hstop
      have hstart : p < (bracketStart pattern p).2 := by
        unfold bracketStart
        split <;> simp
      omega
  · split <;> omega

/-- A byte that is no letter equals itself only. -/
theorem eq_iff (hb : isAlphabetic b = false) : eq b c flags = true ↔ c = b := by
  unfold eq
  split
  · rw [eqIgnoreCase, beq_iff_eq, toLowercase_of_not_alphabetic hb, eq_comm, toLowercase_eq_iff hb]
  · rw [beq_iff_eq, eq_comm]

theorem eq_iff_left (hc : isAlphabetic c = false) : eq b c flags = true ↔ b = c := by
  unfold eq
  split
  · rw [eqIgnoreCase, beq_iff_eq, toLowercase_of_not_alphabetic hc, toLowercase_eq_iff hc]
  · rw [beq_iff_eq]

theorem slash_iff_of_eq (h : eq b c flags = true) : c = slash ↔ b = slash := by
  unfold eq at h
  split at h
  · rw [eqIgnoreCase, beq_iff_eq] at h
    rw [← toLowercase_eq_iff (c := c) (by decide), ← toLowercase_eq_iff (c := b) (by decide), h]
  · rw [beq_iff_eq] at h
    rw [h]

theorem bracket_matched (hp : pattern[p]? = some bracketOpen) (h : bracket pattern flags p c = .matched stop) :
    stop = itemEnd pattern flags p ∧ (flags.has .pathname = true → c ≠ slash) := by
  have hend := bracketLoop_map_snd pattern flags (bracketStart pattern p).2 true c 0#8 false false
  unfold bracket at h
  dsimp only at h
  split at h
  · cases h
  next found i hloop =>
    split at h
    case isFalse => cases h
    case isTrue hmatched =>
      cases h
      simp only [Bool.and_eq_true, Bool.not_eq_true', Bool.and_eq_false_iff, beq_eq_false_iff_ne] at hmatched
      constructor
      · rw [hloop] at hend
        unfold itemEnd
        rw [if_pos hp]
        split
        next hnone => simp [hnone] at hend
        next hsome => simpa [hsome] using hend
      · intro hpathname
        rcases hmatched.2 with hoff | hne
        · simp [hpathname] at hoff
        · exact hne

theorem bracket_malformed (hp : pattern[p]? = some bracketOpen) (h : bracket pattern flags p c = .malformed) :
    itemEnd pattern flags p = p + 1 := by
  have hend := bracketLoop_map_snd pattern flags (bracketStart pattern p).2 true c 0#8 false false
  unfold bracket at h
  dsimp only at h
  split at h
  next hloop =>
    rw [hloop] at hend
    unfold itemEnd
    rw [if_pos hp]
    split
    · rfl
    next hsome => simp [hsome] at hend
  next => split at h <;> cases h

/-- **What `match_one` returns** is where the item ends, whatever byte it took. -/
theorem matchOne_eq_some (h : matchOne pattern flags name p n = some q) :
    q = itemEnd pattern flags p ∧ n < name.length ∧ p < pattern.length := by
  unfold matchOne at h
  split at h
  case h_2 => cases h
  case h_1 c pc hc hpc =>
    refine ⟨?_, (List.getElem?_eq_some_iff.mp hc).1, (List.getElem?_eq_some_iff.mp hpc).1⟩
    split at h
    case isTrue hquestion =>
      have hend : itemEnd pattern flags p = p + 1 := by simp [itemEnd, hpc, hquestion, question, bracketOpen, backslash]
      rw [hend]
      split at h
      · cases h
      · split at h
        · cases h
        · exact (Option.some.inj h).symm
    case isFalse =>
      split at h
      case isTrue hbracket =>
        rw [hbracket] at hpc
        split at h
        · cases h
        · split at h
          next hmalformed =>
            rw [bracket_malformed hpc hmalformed]
            simp only [Option.ite_none_right_eq_some, Option.some.injEq] at h
            exact h.2.symm
          next stop hmatched =>
            cases h
            exact (bracket_matched hpc hmatched).1
          next => cases h
      case isFalse hbracket =>
        have hnot : pattern[p]? ≠ some bracketOpen := by simpa [hpc] using hbracket
        unfold itemEnd
        rw [if_neg hnot]
        split at h
        case isTrue hescape =>
          rw [if_pos ⟨by rw [hpc, hescape.1], hescape.2⟩]
          split at h
          · cases h
          · simp only [Option.ite_none_right_eq_some, Option.some.injEq] at h
            exact h.2.symm
        case isFalse hliteral =>
          rw [if_neg (by simpa [hpc] using hliteral)]
          simp only [Option.ite_none_right_eq_some, Option.some.injEq] at h
          exact h.2.symm

/-- The byte that an item must be for it to take a slash under `PATHNAME`. -/
def literal (pattern : List Byte) (flags : Flags) (p : Nat) : Option Byte :=
  if pattern[p]? = some backslash ∧ flags.has .noescape = false then pattern[p + 1]? else pattern[p]?

theorem slash_iff_of_fits (hpathname : flags.has .pathname = true) (h : fits pattern flags name p n = true) :
    name[n]? = some slash ↔ literal pattern flags p = some slash := by
  obtain ⟨q, hq⟩ := Option.isSome_iff_exists.mp h
  unfold matchOne at hq
  split at hq
  case h_2 => cases hq
  case h_1 c pc hc hpc =>
    rw [hc, Option.some.injEq]
    unfold literal
    split at hq
    case isTrue hquestion =>
      -- a question mark refuses the slash
      subst hquestion
      split at hq
      · cases hq
      next hslash =>
        have hne : c ≠ slash := by simpa [hpathname] using hslash
        have hother : question ≠ slash ∧ question ≠ backslash := by decide
        simp [hpc, hne, hother]
    case isFalse =>
      split at hq
      case isTrue hbracket =>
        -- so does a bracket expression, and a bracket that is none takes itself only
        subst hbracket
        have hne : c ≠ slash := by
          split at hq
          · cases hq
          · split at hq
            next =>
              simp only [Option.ite_none_right_eq_some] at hq
              rw [hq.1]
              decide
            next stop hmatched => exact (bracket_matched hpc hmatched).2 hpathname
            next => cases hq
        have hother : bracketOpen ≠ slash ∧ bracketOpen ≠ backslash := by decide
        simp [hpc, hne, hother]
      case isFalse =>
        split at hq
        case isTrue hescape =>
          obtain ⟨rfl, hoff⟩ := hescape
          rw [if_pos ⟨hpc, hoff⟩]
          split at hq
          · cases hq
          next escaped hescaped =>
            simp only [Option.ite_none_right_eq_some] at hq
            rw [hescaped, Option.some.injEq, slash_iff_of_eq hq.1]
        case isFalse hliteral =>
          rw [if_neg (by simpa [hpc] using hliteral), hpc, Option.some.injEq]
          simp only [Option.ite_none_right_eq_some] at hq
          exact slash_iff_of_eq hq.1

end SlateOS.Fnmatch
