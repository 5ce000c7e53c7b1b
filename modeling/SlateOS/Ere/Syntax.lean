/-
# SlateOS.Ere.Syntax -- characters, dialects and syntax trees of extended regular expressions

`userspace/ere/src/ch.rs` and `engine.rs`: a character is a decoded scalar or a byte that decodes to nothing, and a
pattern is parsed into a tree of nodes. What Unicode knows of a character beyond its controls and its white space is
left open (`CharData`).
-/
import Mathlib.Data.List.Basic

namespace SlateOS.Ere

/-! ## Characters -/

/-- `Ch`. -/
inductive Ch where
  | u (c : Char)
  | b (b : UInt8)
  deriving DecidableEq

namespace Ch

/-- `as_char`. -/
def asChar : Ch → Option Char
  | u c => some c
  | b _ => none

/-- `as_ascii`. -/
def asAscii : Ch → Option Char
  | u c => if c.toNat < 128 then some c else none
  | b _ => none

/-- `to_str`. -/
def toStr : Ch → List UInt8
  | u c => String.utf8EncodeChar c
  | b raw => [raw]

/-- The derived order: scalars below bytes. -/
def le : Ch → Ch → Bool
  | u c, u c' => decide (c ≤ c')
  | u _, b _ => true
  | b _, u _ => false
  | b x, b y => decide (x ≤ y)

end Ch

/-- `byte_ch`: a byte read by itself. -/
def byteCh (b : UInt8) : Ch := if b < 128 then .u (Char.ofNat b.toNat) else .b b

/-- `byte_index`, the inverse of `byte_ch`. -/
def byteIndex : Ch → Option UInt8
  | .u c => if c.toNat < 128 then some (UInt8.ofNat c.toNat) else none
  | .b b => if b < 128 then none else some b

/-- What the standard library knows of a `char`, by tables that come with it. -/
class CharData where
  isAlphabetic : Char → Bool
  isNumeric : Char → Bool
  isUppercase : Char → Bool
  isLowercase : Char → Bool
  toLowercase : Char → List Char
  toUppercase : Char → List Char

namespace CharData

/-- The tables of the ASCII characters; others have no case and are no letters. -/
@[reducible] def ascii : CharData where
  isAlphabetic c := c.isAlpha
  isNumeric c := c.isDigit
  isUppercase c := c.isUpper
  isLowercase c := c.isLower
  toLowercase c := [c.toLower]
  toUppercase c := [c.toUpper]

end CharData

/-- `is_control`. -/
def isControl (c : Char) : Bool := c.toNat < 0x20 || (0x7f ≤ c.toNat && c.toNat < 0xa0)

/-- `is_whitespace`. -/
def isWhitespace (c : Char) : Bool :=
  (0x09 ≤ c.toNat && c.toNat ≤ 0x0d) || (0x2000 ≤ c.toNat && c.toNat ≤ 0x200a) ||
    [0x20, 0x85, 0xa0, 0x1680, 0x2028, 0x2029, 0x202f, 0x205f, 0x3000].contains c.toNat

/-- `is_ascii_punctuation`. -/
def isAsciiPunctuation (c : Char) : Bool :=
  (0x21 ≤ c.toNat && c.toNat ≤ 0x7e) && !c.isAlphanum

/-- `is_ascii_hexdigit`. -/
def isAsciiHexdigit (c : Char) : Bool := c.isDigit || ('a' ≤ c && c ≤ 'f') || ('A' ≤ c && c ≤ 'F')

/-! ## Bracket expressions and word assertions -/

/-- `PosixClass`. -/
inductive PosixClass where
  | alpha | digit | alnum | space | blank | upper | lower | punct | xdigit | cntrl | print | graph
  deriving DecidableEq

namespace PosixClass

/-- `from_name`. -/
def fromName (name : List Char) : Option PosixClass :=
  [("alpha", alpha), ("digit", digit), ("alnum", alnum), ("space", space), ("blank", blank), ("upper", upper),
    ("lower", lower), ("punct", punct), ("xdigit", xdigit), ("cntrl", cntrl), ("print", print),
    ("graph", graph)].findSome? fun entry => if entry.1.toList = name then some entry.2 else none

/-- `matches`, of a character that decodes. -/
def holds [CharData] (c : Char) : PosixClass → Bool
  | alpha => CharData.isAlphabetic c
  | digit => c.isDigit
  | alnum => CharData.isAlphabetic c || CharData.isNumeric c
  | space => isWhitespace c
  | blank => c == ' ' || c == '\t'
  | upper => CharData.isUppercase c
  | lower => CharData.isLowercase c
  | punct => isAsciiPunctuation c
  | xdigit => isAsciiHexdigit c
  | cntrl => isControl c
  | print => !isControl c
  | graph => !isControl c && !isWhitespace c

/-- `matches`. -/
def matchesCh [CharData] (posix : PosixClass) (c : Ch) : Bool :=
  match c.asChar with
  | some c => posix.holds c
  | none => false

end PosixClass

/-- `ClassData`. -/
structure ClassData where
  negated : Bool
  ranges : List (Ch × Ch)
  posix : List PosixClass
  deriving DecidableEq

namespace ClassData

/-- `hit_positive`. -/
def hitPositive [CharData] (k : ClassData) (c : Ch) : Bool :=
  (k.ranges.any fun range => range.1.le c && c.le range.2) || k.posix.any fun posix => posix.matchesCh c

/-- `matches_ci`. -/
def matchesCi [CharData] (k : ClassData) (c : Ch) (ci : Bool) : Bool :=
  let folded :=
    match c with
    | .u u => (CharData.toLowercase u ++ CharData.toUppercase u).any fun alt => alt != u && k.hitPositive (.u alt)
    | .b _ => false
  (k.hitPositive c || (ci && folded)) != k.negated

end ClassData

/-- `WordAssert`. -/
inductive WordAssert where
  | boundary | notBoundary | wordStart | wordEnd
  deriving DecidableEq

/-- `is_word_ch`. -/
def isWordCh [CharData] (c : Ch) : Bool := PosixClass.alnum.matchesCh c || c == .u '_'

/-- `word_class`. -/
def wordClass (negated : Bool) : ClassData := ⟨negated, [(.u '_', .u '_')], [.alnum]⟩

/-- `space_class`. -/
def spaceClass (negated : Bool) : ClassData := ⟨negated, [], [.space]⟩

/-! ## Trees -/

/-- `Node`. -/
inductive Node where
  | empty
  | lit (c : Ch)
  | any
  | cls (data : ClassData)
  | lineStart
  | lineEnd
  | bufStart
  | bufEnd
  | word (assert : WordAssert)
  | group (idx : Nat) (inner : Node)
  | concat (parts : List Node)
  | alt (branches : List Node)
  | backref (n : Nat)
  | repeated (node : Node) (min : Nat) (max : Option Nat)

/-- Induction over a tree, with the hypothesis for every part of a concatenation or an alternation. -/
@[elab_as_elim]
theorem Node.induct {motive : Node → Prop} (empty : motive .empty) (lit : ∀ c, motive (.lit c)) (any : motive .any)
    (cls : ∀ data, motive (.cls data)) (lineStart : motive .lineStart) (lineEnd : motive .lineEnd)
    (bufStart : motive .bufStart) (bufEnd : motive .bufEnd) (word : ∀ assert, motive (.word assert))
    (group : ∀ idx inner, motive inner → motive (.group idx inner))
    (concat : ∀ parts, (∀ part ∈ parts, motive part) → motive (.concat parts))
    (alt : ∀ branches, (∀ branch ∈ branches, motive branch) → motive (.alt branches))
    (backref : ∀ n, motive (.backref n))
    (repeated : ∀ node min max, motive node → motive (.repeated node min max)) (node : Node) : motive node :=
  @Node.rec motive (fun nodes => ∀ node ∈ nodes, motive node) empty lit any cls lineStart lineEnd bufStart bufEnd word
    group concat alt backref repeated (fun _ h => absurd h (List.not_mem_nil)) (fun _ _ h ht _ hmem => by
      rcases List.mem_cons.mp hmem with rfl | hmem
      · exact h
      · exact ht _ hmem) node

/-- `is_assertion`. -/
def isAssertion : Node → Bool
  | .lineStart | .lineEnd | .bufStart | .bufEnd | .word _ => true
  | _ => false

/-- `repeat`: a repetition that is allowed no iteration is the empty expression. -/
def repeatNode (node : Node) (min : Nat) (max : Option Nat) : Node :=
  if max = some 0 then .empty else .repeated node min max

/-! ## Dialects and diagnostics -/

/-- `Syntax`. -/
structure Syntax where
  contextIndepOps : Bool
  invalidIntervalOrd : Bool
  emptyRanges : Bool
  backslashEscapeInLists : Bool
  noGnuOps : Bool
  leadingRepeatLiteral : Bool
  noIntervals : Bool
  noBackrefs : Bool
  dotNotNewline : Bool
  hatListsNotNewline : Bool
  unmatchedRightParenOrd : Bool
  deriving DecidableEq

namespace Syntax

def posixExtended : Syntax :=
  ⟨false, false, false, false, false, false, false, false, false, false, true⟩

def egrep : Syntax := { posixExtended with contextIndepOps := true, invalidIntervalOrd := true }

def gnuAwk : Syntax :=
  { posixExtended with invalidIntervalOrd := true, backslashEscapeInLists := true, leadingRepeatLiteral := true }

def awk : Syntax :=
  { posixExtended with
    backslashEscapeInLists := true
    noGnuOps := true
    leadingRepeatLiteral := true
    noIntervals := true
    noBackrefs := true }

def posixAwk : Syntax :=
  { posixExtended with invalidIntervalOrd := true, backslashEscapeInLists := true, noGnuOps := true }

/-- `reg_newline`. -/
def regNewline (self : Syntax) : Syntax := { self with dotNotNewline := true, hatListsNotNewline := true }

end Syntax

/-- `RegCode`. -/
inductive RegCode where
  | badPattern | badCharClass | trailingBackslash | badBackReference | unmatchedBracket | unmatchedParen
  | unmatchedRightParen | unmatchedBrace | badBraceContent | badRangeEnd | badRepeat | tooBig | badCollation
  deriving DecidableEq

/-- `message`. -/
def RegCode.message : RegCode → String
  | badPattern => "Invalid regular expression"
  | badCharClass => "Invalid character class name"
  | trailingBackslash => "Trailing backslash"
  | badBackReference => "Invalid back reference"
  | unmatchedBracket => "Unmatched [, [^, [:, [., or [="
  | unmatchedParen => "Unmatched ( or \\("
  | unmatchedRightParen => "Unmatched ) or \\)"
  | unmatchedBrace => "Unmatched \\\x7b"
  | badBraceContent => "Invalid content of \\\x7b\\\x7d"
  | badRangeEnd => "Invalid range end"
  | badRepeat => "Invalid preceding regular expression"
  | tooBig => "Regular expression too big"
  | badCollation => "Invalid collation character"

/-- The bytes of a text. -/
def ofText (s : String) : List UInt8 := s.toList.flatMap String.utf8EncodeChar

/-- `EreError`: a code, and the crate's own wording. -/
structure EreError where
  code : RegCode
  detail : List UInt8
  deriving DecidableEq

/-- `Quantifier`. -/
inductive Quantifier where
  | star | plus | question | interval
  deriving DecidableEq

/-- `Warning`. -/
inductive Warning where
  | quantifierAtStart (kind : Quantifier)
  | confusingBracket
  deriving DecidableEq

/-- `MAX_REPEAT`. -/
def maxRepeat : Nat := 32767

/-- `MAX_PROG`. -/
def maxProg : Nat := 65536

end SlateOS.Ere
