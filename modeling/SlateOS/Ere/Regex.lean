/-
# SlateOS.Ere.Regex -- compiled patterns, and what their instructions do

`userspace/ere/src/engine.rs`: `Regex` with its options and its prefilter, the tests that its matchers share, and the
steps of the program: a configuration is an instruction, a position and the capture slots. A subject is the list of
its characters, which for a subject read a byte at a time are its bytes.
-/
import Mathlib.Data.List.Dedup
import SlateOS.Ere.Compile
import SlateOS.Ere.Parser
import SlateOS.Foundation.DepthFirst

namespace SlateOS.Ere

open Foundation.DepthFirst
open Relation (ReflTransGen)

/-! ## Taking a character -/

/-- `StartOfLine`. -/
inductive StartOfLine where
  | yes | no
  deriving DecidableEq

section

variable [CharData]

/-- `char_fold_eq`. -/
def charFoldEq : Ch → Ch → Bool
  | .u x, .u y =>
    if x.toNat < 128 ∧ y.toNat < 128 then x.toLower == y.toLower
    else CharData.toLowercase x == CharData.toLowercase y || CharData.toUppercase x == CharData.toUppercase y
  | a, b => a == b

/-- `char_eq`. -/
def charEq (input : Option Ch) (lit : Ch) (ci : Bool) : Bool :=
  match input with
  | some ch => ch == lit || (ci && charFoldEq ch lit)
  | none => false

/-- A byte that decodes to nothing, in a subject that is not read a byte at a time. -/
def undecodable (c : Option Ch) (bytes : Bool) : Bool :=
  match c with
  | some (.b _) => !bytes
  | _ => false

/-- `takes`. -/
def takes (inst : Inst) (c : Option Ch) (ci bytes : Bool) : Bool :=
  match inst with
  | .char lit => charEq c lit ci
  | .any => c.isSome && !undecodable c bytes
  | .skip => c.isSome
  | .cls k => !undecodable c bytes && c.any fun ch => k.holds ch ci
  | _ => false

/-- `holds_at`. -/
def WordAssert.holdsAt (w : WordAssert) (input : List Ch) (sp : Nat) : Bool :=
  let before := 0 < sp && input[sp - 1]?.any isWordCh
  let after := input[sp]?.any isWordCh
  match w with
  | .boundary => before != after
  | .notBoundary => before == after
  | .wordStart => !before && after
  | .wordEnd => before && !after

/-- What is taken when the subject is not read a byte at a time is taken when it is. -/
theorem takes_bytes {inst : Inst} {c : Option Ch} {ci bytes : Bool} (h : takes inst c ci bytes = true) :
    takes inst c ci true = true := by
  have hdecodable : undecodable c true = false := by
    unfold undecodable
    split <;> rfl
  unfold takes at h ⊢
  split at h <;> simp_all

end

namespace Inst

/-- The instructions that consume a character. -/
def consumes : Inst → Bool
  | char _ | any | skip | cls _ => true
  | _ => false

/-- The instructions that hold at a position or do not. -/
def isAssert : Inst → Bool
  | assertStart | assertEnd | assertBufStart | assertBufEnd | assertWord _ => true
  | _ => false

end Inst

theorem not_takes_none [CharData] (inst : Inst) (ci bytes : Bool) : takes inst none ci bytes = false := by
  cases inst <;> rfl

/-! ## Where a match can begin -/

/-- What an instruction of the closure leads to, the one to be looked at first in front: nothing for one that takes
the first character, and no answer for one that needs none. -/
def Inst.follow (inst : Inst) (pc : Nat) (anchored : Bool) : Option (List (Nat × Bool)) :=
  match inst with
  | .char _ | .any | .skip | .cls _ => some []
  | .matched | .backref _ => none
  | .jmp x => some [(x, anchored)]
  | .split x y => some [(y, anchored), (x, anchored)]
  | .save _ | .assertEnd | .assertBufEnd | .assertWord _ => some [(pc + 1, anchored)]
  | .assertStart | .assertBufStart => some [(pc + 1, true)]

/-- The loop of `Prefilter::of`. -/
def firstsLoop (prog : List Inst) :
    Nat → List (Nat × Bool) → List (Nat × Bool) → List Nat → Bool → Option (List Nat × Bool)
  | _, [], _, firsts, lineStart => some (firsts, lineStart)
  | 0, _ :: _, _, _, _ => none
  | fuel + 1, (pc, anchored) :: stack, seen, firsts, lineStart =>
    match prog[pc]? with
    | none => none
    | some inst =>
      if (pc, anchored) ∈ seen then firstsLoop prog fuel stack seen firsts lineStart
      else
        match inst.follow pc anchored with
        | none => none
        | some next =>
          firstsLoop prog fuel (next ++ stack) ((pc, anchored) :: seen)
            (if inst.consumes then firsts ++ [pc] else firsts) (if inst.consumes then lineStart && anchored else lineStart)

/-- `Prefilter`. -/
structure Prefilter where
  set : ByteSet
  firsts : List Nat
  lineStart : Bool
  deriving DecidableEq

namespace Prefilter

variable [CharData]

/-- One of the instructions takes the character, read as a byte if it is one. -/
def takenBy (prog : List Inst) (firsts : List Nat) (ci : Bool) (c : Ch) : Bool :=
  firsts.any fun pc => prog[pc]?.any fun inst => takes inst (some c) ci true

/-- `of`. -/
def of (prog : List Inst) (entry : Nat) (ci : Bool) : Option Prefilter :=
  match firstsLoop prog (6 * prog.length + 1) [(entry, false)] [] [] true with
  | none => none
  | some (firsts, lineStart) =>
    let firsts := (firsts.mergeSort fun a b => decide (a ≤ b)).dedup
    let set := byteSet (takenBy prog firsts ci)
    if !lineStart && set == BitVec.allOnes 256 then none else some ⟨set, firsts, lineStart⟩

/-- `first`. -/
def first (self : Prefilter) (prog : List Inst) (c : Ch) (ci : Bool) : Bool :=
  match byteIndex c with
  | some b => inByteSet self.set b
  | none => takenBy prog self.firsts ci c

end Prefilter

/-! ## Compiled patterns -/

/-- `Regex`. -/
structure Regex where
  prog : List Inst
  ngroups : Nat
  entry : Nat
  ci : Bool
  hasBackref : Bool
  newlineAnchor : Bool
  bytes : Bool
  prefilter : Option Prefilter
  deriving DecidableEq

/-- What `compile_pattern` returns. -/
inductive Compiled where
  | err (e : EreError)
  | ok (re : Regex) (warnings : List Warning)
  deriving DecidableEq

/-- `compile_pattern`, of a pattern whose characters have been read. -/
def compilePattern [CharData] (chars : List Ch) (ci : Bool) (syn : Syntax) : Compiled :=
  match parse chars syn with
  | .outOfFuel => .err ⟨.badPattern, []⟩
  | .err e => .err e
  | .ok node p =>
    let c := compileTree ci node
    if c.isOver then .err ⟨.tooBig, ofText "regex too large"⟩
    else .ok ⟨c.prog, p.ngroups, 3, ci, c.hasBackref, false, false, Prefilter.of c.prog 3 ci⟩ p.warnings

namespace Regex

/-- `with_newline_anchor`. -/
def withNewlineAnchor (self : Regex) (on : Bool) : Regex := { self with newlineAnchor := on }

/-- `with_byte_chars`. -/
def withByteChars (self : Regex) (on : Bool) : Regex := { self with bytes := on }

variable (self : Regex) (input : List Ch) (bol : StartOfLine)

/-- `line_start_at`. -/
def lineStartAt (sp : Nat) : Bool :=
  if sp = 0 then bol == .yes else self.newlineAnchor && input[sp - 1]? == some (.u '\n')

/-- `line_end_at`. -/
def lineEndAt (sp : Nat) : Bool := sp == input.length || (self.newlineAnchor && input[sp]? == some (.u '\n'))

/-- `all_slots`. -/
def allSlots : Nat := (self.ngroups + 1) * 2

variable [CharData]

/-- Whether an assertion holds at a position. -/
def assertHolds (inst : Inst) (sp : Nat) : Bool :=
  match inst with
  | .assertStart => self.lineStartAt input bol sp
  | .assertEnd => self.lineEndAt input sp
  | .assertBufStart => sp == 0
  | .assertBufEnd => sp == input.length
  | .assertWord w => w.holdsAt input sp
  | _ => false

/-- `can_start`. -/
def canStart (pf : Prefilter) (p : Nat) : Bool :=
  (input[p]?.any fun c => pf.first self.prog c self.ci) &&
    (!pf.lineStart || p == 0 || self.lineStartAt input bol p)

/-- `next_start`. -/
def nextStart (pf : Prefilter) (start : Nat) : Option Nat :=
  if pf.lineStart && !self.newlineAnchor then
    if start = 0 ∧ (input[0]?.any fun c => pf.first self.prog c self.ci) = true then some 0 else none
  else (List.range' start (input.length - start)).find? (self.canStart input bol pf)

end Regex

/-! ## Groups are numbered from one -/

mutual

/-- The numbers of a tree's groups. -/
def groups : Node → List Nat
  | .group idx inner => idx :: groups inner
  | .concat parts => groupsAll parts
  | .alt branches => groupsAll branches
  | .repeated inner _ _ => groups inner
  | _ => []

def groupsAll : List Node → List Nat
  | [] => []
  | node :: rest => groups node ++ groupsAll rest

end

/-- No group has the number of the whole match. -/
def Numbered (node : Node) : Prop := ∀ idx ∈ groups node, 1 ≤ idx

theorem numbered_all {nodes : List Node} (h : ∀ node ∈ nodes, Numbered node) : ∀ idx ∈ groupsAll nodes, 1 ≤ idx := by
  induction nodes with
  | nil => exact fun _ hidx => absurd hidx List.not_mem_nil
  | cons node rest ih =>
    intro idx hidx
    rcases List.mem_append.mp hidx with hidx | hidx
    · exact h node List.mem_cons_self idx hidx
    · exact ih (fun node hnode => h node (List.mem_cons_of_mem _ hnode)) idx hidx

theorem Numbered.repeatNode {node : Node} (h : Numbered node) (min : Nat) (max : Option Nat) :
    Numbered (repeatNode node min max) := by
  unfold Ere.repeatNode
  split
  · exact fun _ hidx => absurd hidx List.not_mem_nil
  · exact h

/-- A success has a property. -/
def Yields {α : Type} (P : α → Prop) (res : Parsed α) : Prop := ∀ a p, res = .ok a p → P a

namespace Yields

variable {α β : Type} {P : α → Prop} {Q : β → Prop}

theorem ok {a : α} (h : P a) (p : EParser) : Yields P (.ok a p) := by
  intro a' p' heq
  cases heq
  exact h

theorem err (e : EreError) : Yields P (.err e) := fun _ _ heq => by cases heq

theorem fail (code : RegCode) (detail : String) : Yields P (.fail code detail) := err _

theorem bind {res : Parsed α} {f : α → EParser → Parsed β} (h : Yields P res)
    (hf : ∀ a, P a → ∀ p, Yields Q (f a p)) : Yields Q (res.bind f) := by
  cases res with
  | outOfFuel => exact fun _ _ heq => by cases heq
  | err e => exact err e
  | ok a p => exact hf a (h a p rfl) p

theorem trivial (res : Parsed α) : Yields (fun _ => True) res := fun _ _ _ => True.intro

end Yields

namespace EParser

theorem numbered_stackLoop (fuel : Nat) {node : Node} (h : Numbered node) (p : EParser) :
    Yields Numbered (stackLoop fuel node p) := by
  induction fuel generalizing node p with
  | zero => exact fun _ _ heq => by cases heq
  | succ fuel ih =>
    unfold stackLoop
    refine (Yields.trivial _).bind fun a _ p => ?_
    rcases a with - | q
    · exact .ok h p
    · dsimp only
      split
      · apply ih
        split
        · exact h.repeatNode _ _
        · exact h
      · exact ih (h.repeatNode _ _) _

theorem numbered_stackQuantifiers (fuel : Nat) {node : Node} (h : Numbered node) (p : EParser) :
    Yields Numbered (p.stackQuantifiers fuel node) := by
  unfold stackQuantifiers
  split
  · split
    · exact .ok h p
    · exact .fail _ _
  · exact numbered_stackLoop fuel h p

theorem numbered_leaf {node : Node} (h : groups node = []) : Numbered node := by
  intro idx hidx
  rw [h] at hidx
  cases hidx

theorem numbered_parseClass (p : EParser) : Yields Numbered p.parseClass := by
  unfold parseClass
  exact (Yields.trivial _).bind fun st _ p => .ok (numbered_leaf rfl) _

theorem numbered_parseLiteral (p : EParser) : Yields Numbered (parseLiteral p) := by
  unfold parseLiteral
  split
  · exact .ok (numbered_leaf rfl) _
  · exact .ok (numbered_leaf rfl) _

theorem numbered_parseEscape (p : EParser) : Yields Numbered (parseEscape p) := by
  unfold parseEscape
  split
  · exact .fail _ _
  · dsimp only
    split
    · exact .ok (numbered_leaf rfl) _
    · split
      · split
        · exact .err _
        · exact .ok (numbered_leaf rfl) _
      · split
        · exact .ok (numbered_leaf rfl) _
        · split <;> first
            | exact .ok (numbered_leaf rfl) _
            | (split <;> first | exact .ok (numbered_leaf rfl) _ | (split <;> exact .ok (numbered_leaf rfl) _))

/-- What the functions of the parser that call each other return. -/
structure NumberedAt (fuel : Nat) : Prop where
  alt : ∀ p, Yields Numbered (parseAlt fuel p)
  branches : ∀ p, Yields (fun nodes => ∀ node ∈ nodes, Numbered node) (parseBranches fuel p)
  concat : ∀ p, Yields Numbered (parseConcat fuel p)
  parts : ∀ p, Yields (fun nodes => ∀ node ∈ nodes, Numbered node) (parseParts fuel p)
  repetition : ∀ p, Yields Numbered (parseRepeat fuel p)
  repeated : ∀ p, Yields Numbered (parseRepeated fuel p)
  atom : ∀ p, Yields Numbered (parseAtom fuel p)

variable {fuel : Nat}

theorem NumberedAt.alt_succ (h : NumberedAt fuel) (p : EParser) : Yields Numbered (parseAlt (fuel + 1) p) := by
  unfold parseAlt
  refine (h.concat p).bind fun first hfirst p => (h.branches p).bind fun rest hrest p => .ok ?_ p
  rcases rest with - | ⟨next, rest⟩
  · exact hfirst
  · exact numbered_all fun node hnode => (List.mem_cons.mp hnode).elim (fun heq => heq ▸ hfirst) (hrest node)

theorem NumberedAt.branches_succ (h : NumberedAt fuel) (p : EParser) :
    Yields (fun nodes => ∀ node ∈ nodes, Numbered node) (parseBranches (fuel + 1) p) := by
  unfold parseBranches
  split
  · refine (h.concat _).bind fun branch hbranch p => (h.branches p).bind fun rest hrest p => .ok ?_ p
    exact fun node hnode => (List.mem_cons.mp hnode).elim (fun heq => heq ▸ hbranch) (hrest node)
  · exact .ok (fun _ hnode => absurd hnode List.not_mem_nil) p

theorem NumberedAt.concat_succ (h : NumberedAt fuel) (p : EParser) : Yields Numbered (parseConcat (fuel + 1) p) := by
  unfold parseConcat
  refine (h.parts _).bind fun parts hparts q => .ok ?_ _
  rcases parts with - | ⟨part, - | ⟨next, rest⟩⟩
  · exact numbered_leaf rfl
  · exact hparts part List.mem_cons_self
  · exact numbered_all hparts

theorem NumberedAt.parts_succ (h : NumberedAt fuel) (p : EParser) :
    Yields (fun nodes => ∀ node ∈ nodes, Numbered node) (parseParts (fuel + 1) p) := by
  have hnil : ∀ node ∈ ([] : List Node), Numbered node := fun _ hnode => absurd hnode List.not_mem_nil
  unfold parseParts
  split
  · exact .ok hnil p
  · split
    · exact .ok hnil p
    · split
      · exact .fail _ _
      · refine (h.repetition p).bind fun part hpart p => (h.parts p).bind fun rest hrest p => .ok ?_ p
        exact fun node hnode => (List.mem_cons.mp hnode).elim (fun heq => heq ▸ hpart) (hrest node)

theorem NumberedAt.repetition_succ (h : NumberedAt fuel) (p : EParser) :
    Yields Numbered (parseRepeat (fuel + 1) p) := by
  unfold parseRepeat
  split
  · split
    · split
      · exact numbered_stackQuantifiers fuel (numbered_leaf rfl) _
      · exact .fail _ _
    · split
      · exact fun _ _ heq => by cases heq
      · exact numbered_stackQuantifiers fuel ((numbered_leaf rfl).repeatNode _ _) _
      · exact h.repeated _
      · exact h.repeated _
  · exact h.repeated p

theorem NumberedAt.atom_succ (h : NumberedAt fuel) (p : EParser) : Yields Numbered (parseAtom (fuel + 1) p) := by
  unfold parseAtom
  split
  · refine (h.alt _).bind fun inner hinner q => ?_
    dsimp only
    split
    · refine .ok (fun idx hidx => ?_) _
      rcases List.mem_cons.mp hidx with rfl | hidx
      · exact Nat.succ_pos _
      · exact hinner idx hidx
    · exact .fail _ _
  · exact numbered_parseClass p
  · refine .ok (numbered_leaf ?_) _
    unfold dotNode
    split <;> rfl
  · exact .ok (numbered_leaf rfl) _
  · exact .ok (numbered_leaf rfl) _
  · exact numbered_parseEscape _
  · split
    · exact .fail _ _
    · exact numbered_parseLiteral p
  · exact numbered_parseLiteral p

theorem numberedAt (fuel : Nat) : NumberedAt fuel := by
  induction fuel with
  | zero => constructor <;> exact fun _ _ _ heq => by cases heq
  | succ fuel ih =>
    refine ⟨ih.alt_succ, ih.branches_succ, ih.concat_succ, ih.parts_succ, ih.repetition_succ, fun p => ?_, ih.atom_succ⟩
    unfold parseRepeated
    exact (ih.atom p).bind fun atom hatom p => numbered_stackQuantifiers fuel hatom _

end EParser

/-- The groups of a parsed pattern are numbered from one. -/
theorem numbered_parse (chars : List Ch) (syn : Syntax) : Yields Numbered (parse chars syn) := by
  unfold parse
  refine ((EParser.numberedAt _).alt _).bind fun node hnode p => ?_
  split
  · exact .ok hnode p
  · exact .err _

end SlateOS.Ere
