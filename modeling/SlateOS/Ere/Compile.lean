/-
# SlateOS.Ere.Compile -- the compiler of extended regular expressions

`userspace/ere/src/engine.rs`: a tree becomes a program of instructions, with branches that are patched when their
targets are known, and a flag in place of an instruction that does not fit. `code` is what a node compiles to where
there is room, said as a function of its address; `emits_compile` is that the compiler appends it, or sets the flag.
The cache of a class's byte set, which is worked out again here, is left out.
-/
import SlateOS.Ere.Syntax

namespace SlateOS.Ere

/-! ## Byte sets -/

/-- `ByteSet`, a bit for each byte character. -/
abbrev ByteSet := BitVec 256

/-- The loop of `byte_set`, over the bytes below `n`. -/
def byteSetBelow (test : Ch → Bool) : Nat → ByteSet
  | 0 => 0
  | n + 1 =>
    let set := byteSetBelow test n
    if test (byteCh (.ofNat n)) then set ||| BitVec.twoPow 256 n else set

/-- `byte_set`. -/
def byteSet (test : Ch → Bool) : ByteSet := byteSetBelow test 256

/-- `in_byte_set`. -/
def inByteSet (set : ByteSet) (b : UInt8) : Bool := set.getLsbD b.toNat

theorem getLsbD_byteSetBelow (test : Ch → Bool) (n i : Nat) (hi : i < 256) :
    (byteSetBelow test n).getLsbD i = (decide (i < n) && test (byteCh (.ofNat i))) := by
  induction n with
  | zero => simp [byteSetBelow]
  | succ n ih =>
    rw [byteSetBelow]
    by_cases heq : i = n
    · subst heq
      split <;> simp_all
    · have hlt : (i < n + 1) ↔ i < n := by omega
      split <;> simp_all

@[simp] theorem inByteSet_byteSet (test : Ch → Bool) (b : UInt8) : inByteSet (byteSet test) b = test (byteCh b) := by
  rw [inByteSet, byteSet, getLsbD_byteSetBelow test 256 b.toNat b.toNat_lt]
  simp [b.toNat_lt]

theorem byteCh_of_byteIndex {c : Ch} {b : UInt8} (h : byteIndex c = some b) : byteCh b = c := by
  cases c with
  | u c =>
    simp only [byteIndex] at h
    split at h
    next hlt =>
      cases h
      have hmod : c.toNat % 256 = c.toNat := Nat.mod_eq_of_lt (by omega)
      simp [byteCh, UInt8.lt_iff_toNat_lt, hmod, hlt, Char.ofNat_toNat]
    next => cases h
  | b raw =>
    simp only [byteIndex] at h
    split at h
    next => cases h
    next hge =>
      cases h
      simp [byteCh, hge]

/-! ## Instructions -/

/-- `ClassInst`: a class, and its answers for the byte characters. -/
structure ClassInst where
  data : ClassData
  set : ByteSet
  deriving DecidableEq

/-- `ClassInst::matches`. -/
def ClassInst.holds [CharData] (k : ClassInst) (c : Ch) (ci : Bool) : Bool :=
  match byteIndex c with
  | some b => inByteSet k.set b
  | none => k.data.matchesCi c ci

/-- `Inst`. -/
inductive Inst where
  | char (c : Ch)
  | any
  | skip
  | cls (k : ClassInst)
  | matched
  | jmp (x : Nat)
  | split (x y : Nat)
  | save (n : Nat)
  | assertStart
  | assertEnd
  | assertBufStart
  | assertBufEnd
  | assertWord (w : WordAssert)
  | backref (n : Nat)
  deriving DecidableEq

namespace Inst

/-- The instruction of a backreference. -/
def isBackref : Inst → Bool
  | backref _ => true
  | _ => false

end Inst

/-- The instruction of a class, its byte set worked out. -/
def classInst [CharData] (ci : Bool) (k : ClassData) : ClassInst := ⟨k, byteSet fun c => k.matchesCi c ci⟩

/-! ## The compiler -/

/-- `Compiler`. -/
structure Compiler where
  prog : List Inst
  hasBackref : Bool
  isOver : Bool
  ci : Bool

namespace Compiler

variable (c : Compiler)

/-- `emit`; what it returns is the length before. -/
def emit (i : Inst) : Compiler :=
  if maxProg ≤ c.prog.length then { c with isOver := true } else { c with prog := c.prog ++ [i] }

/-- `patch`, which does nothing past the end. -/
def patch (pos : Nat) (i : Inst) : Compiler := { c with prog := c.prog.set pos i }

/-- The target of an optional copy's way out. -/
def patchOut (out pos : Nat) : Compiler :=
  match c.prog[pos]? with
  | some (.split a _) => c.patch pos (.split a out)
  | _ => c

/-- The mandatory copies of `compile_repeat`, and whether it returned from among them. -/
def mandatory (body : Compiler → Compiler) : Nat → Compiler → Compiler × Bool
  | 0, c => (c, false)
  | n + 1, c => if c.isOver then (c, true) else mandatory body n (body c)

/-- The optional copies, each behind a split of its own that is yet to learn the way out. -/
def optional (body : Compiler → Compiler) : Nat → Compiler → Compiler × List Nat
  | 0, c => (c, [])
  | n + 1, c =>
    if c.isOver then (c, [])
    else
      let s := c.prog.length
      let c := c.emit (.split 0 0)
      let start := c.prog.length
      let c := (body c).patch s (.split start 0)
      let (c, splits) := optional body n c
      (c, s :: splits)

/-- `compile_repeat`. -/
def compileRepeat (body : Compiler → Compiler) (min : Nat) (max : Option Nat) (c : Compiler) : Compiler :=
  let (c, returned) := mandatory body min c
  if returned then c
  else
    match max with
    | none =>
      let l := c.prog.length
      let c := c.emit (.split 0 0)
      let start := c.prog.length
      let c := (body c).emit (.jmp l)
      c.patch l (.split start c.prog.length)
    | some max =>
      let (c, splits) := optional body (max - min) c
      splits.foldl (fun c' s => c'.patchOut c.prog.length s) c

end Compiler

section

variable [CharData]

mutual

/-- `compile`. -/
def compile (node : Node) (c : Compiler) : Compiler :=
  if c.isOver then c
  else
    match node with
    | .empty => c
    | .lit l => c.emit (.char l)
    | .any => c.emit .any
    | .cls d => c.emit (.cls (classInst c.ci d))
    | .lineStart => c.emit .assertStart
    | .lineEnd => c.emit .assertEnd
    | .bufStart => c.emit .assertBufStart
    | .bufEnd => c.emit .assertBufEnd
    | .word w => c.emit (.assertWord w)
    | .group idx inner => (compile inner (c.emit (.save (2 * idx)))).emit (.save (2 * idx + 1))
    | .concat parts => compileParts parts c
    | .alt branches =>
      let (c, jmpEnds) := compileBranches branches c
      jmpEnds.foldl (fun c' j => c'.patch j (.jmp c.prog.length)) c
    | .backref n => { c with hasBackref := true }.emit (.backref n)
    | .repeated inner min max => Compiler.compileRepeat (compile inner) min max c

/-- The parts of a concatenation. -/
def compileParts : List Node → Compiler → Compiler
  | [], c => c
  | part :: rest, c => compileParts rest (compile part c)

/-- The branches of an alternation, and the jumps that are yet to learn its end. -/
def compileBranches : List Node → Compiler → Compiler × List Nat
  | [], c => (c, [])
  | [branch], c => (compile branch c, [])
  | branch :: rest, c =>
    let split := c.prog.length
    let c := c.emit (.split 0 0)
    let l1 := c.prog.length
    let c := compile branch c
    let jmp := c.prog.length
    let c := c.emit (.jmp 0)
    let c := c.patch split (.split l1 c.prog.length)
    let (c, jmpEnds) := compileBranches rest c
    (c, jmp :: jmpEnds)

end

end

/-! ## What a node compiles to -/

/-- Copies of code that takes `len` instructions. -/
def copies (body : Nat → List Inst) (len : Nat) : Nat → Nat → List Inst
  | 0, _ => []
  | n + 1, pos => body pos ++ copies body len n (pos + len)

/-- Copies of it that may each be left for `out`. -/
def optionalCopies (body : Nat → List Inst) (len out : Nat) : Nat → Nat → List Inst
  | 0, _ => []
  | n + 1, pos => .split (pos + 1) out :: (body (pos + 1) ++ optionalCopies body len out n (pos + 1 + len))

mutual

/-- How many instructions a node compiles to. -/
def size : Node → Nat
  | .empty => 0
  | .group _ inner => size inner + 2
  | .concat parts => sizeParts parts
  | .alt branches => sizeBranches branches
  | .repeated inner min max =>
    min * size inner +
      match max with
      | none => size inner + 2
      | some max => (max - min) * (size inner + 1)
  | _ => 1

def sizeParts : List Node → Nat
  | [] => 0
  | part :: rest => size part + sizeParts rest

def sizeBranches : List Node → Nat
  | [] => 0
  | [branch] => size branch
  | branch :: rest => size branch + 2 + sizeBranches rest

end

theorem sizeBranches_cons (branch next : Node) (rest : List Node) :
    sizeBranches (branch :: next :: rest) = size branch + 2 + sizeBranches (next :: rest) := by
  rw [sizeBranches]
  simp

theorem length_copies {body : Nat → List Inst} {len : Nat} (h : ∀ pos, (body pos).length = len) (n pos : Nat) :
    (copies body len n pos).length = n * len := by
  induction n generalizing pos with
  | zero => simp [copies]
  | succ n ih => rw [copies, List.length_append, h, ih, Nat.succ_mul, Nat.add_comm]

theorem length_optionalCopies {body : Nat → List Inst} {len : Nat} (h : ∀ pos, (body pos).length = len)
    (out n pos : Nat) : (optionalCopies body len out n pos).length = n * (len + 1) := by
  induction n generalizing pos with
  | zero => simp [optionalCopies]
  | succ n ih =>
    rw [optionalCopies, List.length_cons, List.length_append, h, ih, Nat.succ_mul]
    omega

section

variable [CharData]

mutual

/-- What a node compiles to at an address. -/
def code (ci : Bool) : Node → Nat → List Inst
  | .empty, _ => []
  | .lit l, _ => [.char l]
  | .any, _ => [.any]
  | .cls d, _ => [.cls (classInst ci d)]
  | .lineStart, _ => [.assertStart]
  | .lineEnd, _ => [.assertEnd]
  | .bufStart, _ => [.assertBufStart]
  | .bufEnd, _ => [.assertBufEnd]
  | .word w, _ => [.assertWord w]
  | .group idx inner, pos => .save (2 * idx) :: (code ci inner (pos + 1) ++ [.save (2 * idx + 1)])
  | .concat parts, pos => codeParts ci parts pos
  | .alt branches, pos => codeBranches ci (pos + sizeBranches branches) branches pos
  | .backref n, _ => [.backref n]
  | .repeated inner min max, pos =>
    let l := pos + min * size inner
    copies (code ci inner) (size inner) min pos ++
      match max with
      | none => .split (l + 1) (l + size inner + 2) :: (code ci inner (l + 1) ++ [.jmp l])
      | some max =>
        optionalCopies (code ci inner) (size inner) (l + (max - min) * (size inner + 1)) (max - min) l

def codeParts (ci : Bool) : List Node → Nat → List Inst
  | [], _ => []
  | part :: rest, pos => code ci part pos ++ codeParts ci rest (pos + size part)

/-- The branches, each but the last ending in a jump to `fin`. -/
def codeBranches (ci : Bool) (fin : Nat) : List Node → Nat → List Inst
  | [], _ => []
  | [branch], pos => code ci branch pos
  | branch :: rest, pos =>
    .split (pos + 1) (pos + size branch + 2) ::
      (code ci branch (pos + 1) ++ .jmp fin :: codeBranches ci fin rest (pos + size branch + 2))

end

theorem codeBranches_cons (ci : Bool) (fin : Nat) (branch next : Node) (rest : List Node) (pos : Nat) :
    codeBranches ci fin (branch :: next :: rest) pos =
      .split (pos + 1) (pos + size branch + 2) :: (code ci branch (pos + 1) ++ [.jmp fin]) ++
        codeBranches ci fin (next :: rest) (pos + size branch + 2) := by
  rw [codeBranches]
  · simp
  · simp

theorem length_codeBranches_of (ci : Bool) (fin : Nat) (branches : List Node) (pos : Nat)
    (h : ∀ branch ∈ branches, ∀ pos, (code ci branch pos).length = size branch) :
    (codeBranches ci fin branches pos).length = sizeBranches branches := by
  induction branches generalizing pos with
  | nil => rfl
  | cons branch rest ih =>
    have hbranch := h branch (by simp)
    have hrest := ih (pos + size branch + 2) fun b hb => h b (List.mem_cons_of_mem _ hb)
    rcases rest with - | ⟨next, rest⟩
    · exact hbranch pos
    · rw [codeBranches_cons, sizeBranches_cons, List.length_append, hrest]
      simp [hbranch]

/-- What a node compiles to has the node's size, wherever it stands. -/
@[simp] theorem length_code (ci : Bool) (node : Node) (pos : Nat) : (code ci node pos).length = size node := by
  induction node using Node.induct generalizing pos with
  | group idx inner ih => simp [code, size, ih]
  | concat parts ih =>
    rw [code, size]
    induction parts generalizing pos with
    | nil => rfl
    | cons part rest ihrest =>
      rw [codeParts, sizeParts, List.length_append, ih part (by simp)]
      rw [ihrest fun p hp => ih p (List.mem_cons_of_mem _ hp)]
  | alt branches ih =>
    rw [code, size]
    exact length_codeBranches_of ci _ branches pos ih
  | repeated inner min max ih =>
    cases max with
    | none => simp [code, size, length_copies ih, ih]
    | some max => simp [code, size, length_copies ih, length_optionalCopies ih]
  | _ => rfl

theorem length_codeBranches (ci : Bool) (fin : Nat) (branches : List Node) (pos : Nat) :
    (codeBranches ci fin branches pos).length = sizeBranches branches :=
  length_codeBranches_of ci fin branches pos fun branch _ => length_code ci branch

end

/-! ## The compiler appends the code, or sets the flag -/

/-- A compiler whose program has not outgrown its limit. -/
structure Ready (ci : Bool) (c : Compiler) : Prop where
  room : c.prog.length ≤ maxProg
  unset : c.isOver = false
  ci_eq : c.ci = ci

/-- `c'` is `c` with the code `k` behind its program, where there is room for it, and has its flag set otherwise. -/
def Emits (k : List Inst) (c c' : Compiler) : Prop :=
  if c.prog.length + k.length ≤ maxProg then
    c' = { c with prog := c.prog ++ k, hasBackref := c.hasBackref || k.any Inst.isBackref }
  else c'.isOver = true

variable {ci : Bool} {c c' c'' : Compiler} {k k' : List Inst}

theorem Emits.of_fits (h : Emits k c c') (hfits : c.prog.length + k.length ≤ maxProg) :
    c' = { c with prog := c.prog ++ k, hasBackref := c.hasBackref || k.any Inst.isBackref } := by
  rwa [Emits, if_pos hfits] at h

theorem Emits.of_not_fits (h : Emits k c c') (hfits : ¬ c.prog.length + k.length ≤ maxProg) : c'.isOver = true := by
  rwa [Emits, if_neg hfits] at h

theorem Emits.ready (h : Emits k c c') (hc : Ready ci c) (hfits : c.prog.length + k.length ≤ maxProg) :
    Ready ci c' ∧ c'.prog.length = c.prog.length + k.length := by
  rw [h.of_fits hfits]
  refine ⟨⟨?_, hc.unset, hc.ci_eq⟩, ?_⟩
  · rwa [List.length_append]
  · rw [List.length_append]

theorem Emits.nil (hc : Ready ci c) : Emits [] c c := by
  rw [Emits, if_pos (by simpa using hc.room)]
  simp

theorem emits_emit (c : Compiler) (i : Inst) (hi : i.isBackref = false) : Emits [i] c (c.emit i) := by
  unfold Emits Compiler.emit
  split
  next hfits =>
    have hroom : ¬ maxProg ≤ c.prog.length := by
      rw [List.length_singleton] at hfits
      omega
    simp [hroom, hi]
  next hfits =>
    have hroom : maxProg ≤ c.prog.length := by
      rw [List.length_singleton] at hfits
      omega
    simp [hroom]

/-- One piece of code after another; once the flag is set, the rest keeps it. -/
theorem Emits.append (hc : Ready ci c) (h : Emits k c c')
    (h' : Ready ci c' → c'.prog.length = c.prog.length + k.length → Emits k' c' c'')
    (hover : c'.isOver = true → c''.isOver = true) : Emits (k ++ k') c c'' := by
  by_cases hfits : c.prog.length + k.length ≤ maxProg
  · obtain ⟨hready, hlen⟩ := h.ready hc hfits
    have hrest := h' hready hlen
    have heq := h.of_fits hfits
    unfold Emits at hrest ⊢
    rw [hlen] at hrest
    rw [List.length_append, ← Nat.add_assoc]
    split
    next hall =>
      rw [if_pos hall] at hrest
      rw [hrest, heq]
      simp [List.append_assoc, Bool.or_assoc]
    next hall => rwa [if_neg hall] at hrest
  · have hset := hover (h.of_not_fits hfits)
    rw [Emits, if_neg]
    · exact hset
    · rw [List.length_append]
      omega

/-- A change to the instructions that were emitted. -/
theorem Emits.edit (h : Emits k c c') {prog : List Inst}
    (hprog : c.prog.length + k.length ≤ maxProg → prog = c.prog ++ k') (hlen : k'.length = k.length)
    (hany : k'.any Inst.isBackref = k.any Inst.isBackref) : Emits k' c { c' with prog := prog } := by
  unfold Emits at h ⊢
  rw [hlen, hany]
  split
  next hfits =>
    rw [if_pos hfits] at h
    rw [h, hprog hfits]
  next hfits => rwa [if_neg hfits] at h

theorem Compiler.over_emit (hover : c.isOver = true) (i : Inst) : (c.emit i).isOver = true := by
  unfold Compiler.emit
  split
  · rfl
  · exact hover

/-- A step of the compiler that emits `k`, which depends on the address, and does nothing once the flag is set. -/
structure Renders (ci : Bool) (k : Nat → List Inst) (step : Compiler → Compiler) : Prop where
  emits : ∀ c, Ready ci c → Emits (k c.prog.length) c (step c)
  stops : ∀ c, c.isOver = true → step c = c

namespace Renders

variable {body : Nat → List Inst} {step : Compiler → Compiler} {len : Nat}

theorem isOver (h : Renders ci body step) (hover : c.isOver = true) : (step c).isOver = true := by
  rwa [h.stops c hover]

/-! ### Mandatory copies -/

theorem over_mandatory (n : Nat) (hover : c.isOver = true) :
    (Compiler.mandatory step n c).1.isOver = true := by
  cases n with
  | zero => exact hover
  | succ n =>
    rw [Compiler.mandatory, if_pos hover]
    exact hover

theorem emits_mandatory (h : Renders ci body step) (hlen : ∀ pos, (body pos).length = len) (n : Nat)
    (hc : Ready ci c) : Emits (copies body len n c.prog.length) c (Compiler.mandatory step n c).1 := by
  induction n generalizing c with
  | zero => exact .nil hc
  | succ n ih =>
    have hunset : ¬ c.isOver = true := by simp [hc.unset]
    rw [Compiler.mandatory, if_neg hunset, copies]
    refine (h.emits c hc).append hc (fun hready hpos => ?_) (over_mandatory n)
    rw [hlen] at hpos
    rw [← hpos]
    exact ih hready

/-- It returns from among them only with its flag set. -/
theorem over_of_returned (n : Nat) (hret : (Compiler.mandatory step n c).2 = true) :
    (Compiler.mandatory step n c).1.isOver = true := by
  induction n generalizing c with
  | zero => cases hret
  | succ n ih =>
    rw [Compiler.mandatory] at hret ⊢
    split at hret
    next hover => rwa [if_pos hover]
    next hover =>
      rw [if_neg hover]
      exact ih hret

/-! ### Optional copies -/

/-- Where the splits of the optional copies are. -/
def optionalSplits (len : Nat) : Nat → Nat → List Nat
  | 0, _ => []
  | n + 1, pos => pos :: optionalSplits len n (pos + 1 + len)

theorem over_optional (n : Nat) (hover : c.isOver = true) :
    (Compiler.optional step n c).1.isOver = true := by
  cases n with
  | zero => exact hover
  | succ n =>
    rw [Compiler.optional, if_pos hover]
    exact hover

/-- A split that is yet to be patched, and the body. -/
theorem emits_body (h : Renders ci body step) (hc : Ready ci c) :
    Emits (.split 0 0 :: body (c.prog.length + 1)) c (step (c.emit (.split 0 0))) := by
  refine (emits_emit c (.split 0 0) rfl).append hc (fun hready hpos => ?_) h.isOver
  rw [List.length_singleton] at hpos
  rw [← hpos]
  exact h.emits _ hready

/-- Where the body starts, when all of it fits. -/
theorem length_emit_split (hc : Ready ci c) (hroom : c.prog.length < maxProg) :
    (c.emit (.split 0 0)).prog.length = c.prog.length + 1 :=
  ((emits_emit c (.split 0 0) rfl).ready hc hroom).2

/-- One optional copy: its split, the body, and the split patched with where the body starts. -/
theorem emits_copy (h : Renders ci body step) (hc : Ready ci c) :
    Emits (.split (c.prog.length + 1) 0 :: body (c.prog.length + 1)) c
      ((step (c.emit (.split 0 0))).patch c.prog.length (.split (c.emit (.split 0 0)).prog.length 0)) := by
  have hbody := h.emits_body hc
  refine hbody.edit (fun hfits => ?_) rfl rfl
  rw [length_emit_split hc (Nat.lt_of_lt_of_le (by simp) hfits), hbody.of_fits hfits]
  simp

theorem emits_optional (h : Renders ci body step) (hlen : ∀ pos, (body pos).length = len) (n : Nat)
    (hc : Ready ci c) :
    Emits (optionalCopies body len 0 n c.prog.length) c (Compiler.optional step n c).1 ∧
      (c.prog.length + n * (len + 1) ≤ maxProg →
        (Compiler.optional step n c).2 = optionalSplits len n c.prog.length) := by
  induction n generalizing c with
  | zero => exact ⟨.nil hc, fun _ => rfl⟩
  | succ n ih =>
    have hunset : ¬ c.isOver = true := by simp [hc.unset]
    have hcopy := h.emits_copy hc
    rw [Compiler.optional, if_neg hunset, optionalCopies, optionalSplits]
    refine ⟨?_, fun hfits => ?_⟩
    · rw [← List.cons_append]
      refine hcopy.append hc (fun hready hpos => ?_) (over_optional n)
      rw [List.length_cons, hlen, Nat.add_comm len, ← Nat.add_assoc] at hpos
      rw [← hpos]
      exact (ih hready).1
    · rw [Nat.succ_mul] at hfits
      have hroom : c.prog.length + (Inst.split (c.prog.length + 1) 0 :: body (c.prog.length + 1)).length ≤ maxProg := by
        rw [List.length_cons, hlen]
        omega
      obtain ⟨hready, hpos⟩ := hcopy.ready hc hroom
      rw [List.length_cons, hlen, Nat.add_comm len, ← Nat.add_assoc] at hpos
      have hrest := (ih hready).2 (by rw [hpos]; omega)
      rw [hpos] at hrest
      exact congrArg (c.prog.length :: ·) hrest

theorem patchOut_append (out a y : Nat) (pre post : List Inst) (b o : Bool) :
    (Compiler.mk (pre ++ .split a y :: post) b o ci).patchOut out pre.length =
      ⟨pre ++ .split a out :: post, b, o, ci⟩ := by
  simp [Compiler.patchOut, Compiler.patch]

/-- The splits learn the way out. -/
theorem patchOut_optionalCopies (hlen : ∀ pos, (body pos).length = len) (out n : Nat) (pre : List Inst) (b o : Bool) :
    (optionalSplits len n pre.length).foldl (fun (c : Compiler) s => c.patchOut out s)
        ⟨pre ++ optionalCopies body len 0 n pre.length, b, o, ci⟩ =
      ⟨pre ++ optionalCopies body len out n pre.length, b, o, ci⟩ := by
  induction n generalizing pre with
  | zero => rfl
  | succ n ih =>
    have hrest := ih (pre ++ .split (pre.length + 1) out :: body (pre.length + 1))
    have hpos : (pre ++ .split (pre.length + 1) out :: body (pre.length + 1)).length = pre.length + 1 + len := by
      rw [List.length_append, List.length_cons, hlen]
      omega
    rw [hpos, List.append_assoc, List.append_assoc, List.cons_append, List.cons_append] at hrest
    rw [optionalSplits, List.foldl_cons, optionalCopies, optionalCopies, patchOut_append, hrest]

theorem any_optionalCopies (out n pos : Nat) :
    (optionalCopies body len out n pos).any Inst.isBackref = (optionalCopies body len 0 n pos).any Inst.isBackref := by
  induction n generalizing pos with
  | zero => rfl
  | succ n ih => simp [optionalCopies, ih, Inst.isBackref]

theorem over_foldl_patchOut (out : Nat) (splits : List Nat) (hover : c.isOver = true) :
    (splits.foldl (fun (c : Compiler) s => c.patchOut out s) c).isOver = true := by
  induction splits generalizing c with
  | nil => exact hover
  | cons s splits ih =>
    apply ih
    dsimp only [Compiler.patchOut]
    split
    · exact hover
    · exact hover

/-- The optional copies, the way out filled in. -/
theorem emits_optional_patched (h : Renders ci body step) (hlen : ∀ pos, (body pos).length = len) (n : Nat)
    (hc : Ready ci c) :
    Emits (optionalCopies body len (c.prog.length + n * (len + 1)) n c.prog.length) c
      ((Compiler.optional step n c).2.foldl
        (fun c' s => c'.patchOut (Compiler.optional step n c).1.prog.length s) (Compiler.optional step n c).1) := by
  obtain ⟨hemits, hsplits⟩ := h.emits_optional hlen n hc
  unfold Emits
  rw [length_optionalCopies hlen, any_optionalCopies]
  split
  next hfits =>
    have hroom : c.prog.length + (optionalCopies body len 0 n c.prog.length).length ≤ maxProg := by
      rwa [length_optionalCopies hlen]
    have hend := (hemits.ready hc hroom).2
    rw [length_optionalCopies hlen] at hend
    rw [hsplits hfits, hend, hemits.of_fits hroom]
    exact patchOut_optionalCopies hlen ..
  next hfits =>
    apply over_foldl_patchOut
    apply hemits.of_not_fits
    rwa [length_optionalCopies hlen]

/-! ### Repetitions -/

/-- What a repetition compiles to, after its mandatory copies. -/
def repeatTail (body : Nat → List Inst) (len min pos : Nat) (max : Option Nat) : List Inst :=
  match max with
  | none => .split (pos + 1) (pos + len + 2) :: (body (pos + 1) ++ [.jmp pos])
  | some max => optionalCopies body len (pos + (max - min) * (len + 1)) (max - min) pos

/-- A body between a split over it, which is patched when its length is known, and a jump. -/
theorem emits_framed (h : Renders ci body step) (hlen : ∀ pos, (body pos).length = len) (x : Nat) (hc : Ready ci c) :
    Emits (.split (c.prog.length + 1) (c.prog.length + len + 2) :: (body (c.prog.length + 1) ++ [.jmp x])) c
      (((step (c.emit (.split 0 0))).emit (.jmp x)).patch c.prog.length
        (.split (c.emit (.split 0 0)).prog.length ((step (c.emit (.split 0 0))).emit (.jmp x)).prog.length)) := by
  have hjmp := (h.emits_body hc).append hc (fun _ _ => emits_emit _ (.jmp x) rfl) (Compiler.over_emit · _)
  refine hjmp.edit (fun hfits => ?_) (by simp) (by simp [Inst.isBackref])
  rw [length_emit_split hc (Nat.lt_of_lt_of_le (by simp) hfits), (hjmp.ready hc hfits).2, hjmp.of_fits hfits]
  simp [hlen]
  omega

theorem over_framed (h : Renders ci body step) (x : Nat) (hover : c.isOver = true) :
    ((step (c.emit (.split 0 0))).emit (.jmp x)).isOver = true :=
  Compiler.over_emit (h.isOver (Compiler.over_emit hover _)) _

theorem emits_compileRepeat (h : Renders ci body step) (hlen : ∀ pos, (body pos).length = len) (min : Nat)
    (max : Option Nat) (hc : Ready ci c) :
    Emits (copies body len min c.prog.length ++ repeatTail body len min (c.prog.length + min * len) max) c
      (Compiler.compileRepeat step min max c) := by
  have hcopies := h.emits_mandatory hlen min hc
  have hret : (Compiler.mandatory step min c).2 = true → (Compiler.mandatory step min c).1.isOver = true :=
    over_of_returned min
  unfold Compiler.compileRepeat
  generalize Compiler.mandatory step min c = made at hcopies hret ⊢
  obtain ⟨made, returned⟩ := made
  refine hcopies.append hc (fun hready hpos => ?_) (fun hover => ?_)
  · have hstay : returned = false := by
      rcases returned with - | -
      · rfl
      · have hover := hret rfl
        rw [hready.unset] at hover
        cases hover
    subst hstay
    rw [length_copies hlen] at hpos
    rw [← hpos]
    cases max with
    | none => exact h.emits_framed hlen _ hready
    | some max => exact h.emits_optional_patched hlen (max - min) hready
  · dsimp only at hover ⊢
    split
    · exact hover
    · cases max with
      | none => exact h.over_framed _ hover
      | some max => exact over_foldl_patchOut _ _ (over_optional _ hover)

end Renders

/-! ### Trees -/

theorem set_middle {α : Type} (pre post : List α) (x y : α) {n : Nat} (hn : n = pre.length) :
    (pre ++ x :: post).set n y = pre ++ y :: post := by
  subst hn
  simp

section

variable [CharData]

theorem compile_of_over (node : Node) (hover : c.isOver = true) : compile node c = c := by
  unfold compile
  rw [if_pos hover]

/-- Where the jumps to the end of an alternation are. -/
def jumpsOf : List Node → Nat → List Nat
  | [], _ => []
  | [_], _ => []
  | branch :: rest, pos => (pos + size branch + 1) :: jumpsOf rest (pos + size branch + 2)

theorem any_codeBranches (fin : Nat) (branches : List Node) (pos : Nat) :
    (codeBranches ci fin branches pos).any Inst.isBackref = (codeBranches ci 0 branches pos).any Inst.isBackref := by
  induction branches generalizing pos with
  | nil => rfl
  | cons branch rest ih =>
    rcases rest with - | ⟨next, rest⟩
    · rfl
    · simp [codeBranches, ih, Inst.isBackref]

/-- The jumps learn the end. -/
theorem patch_codeBranches (fin : Nat) (branches : List Node) (pre : List Inst) (b o : Bool) :
    (jumpsOf branches pre.length).foldl (fun (c : Compiler) j => c.patch j (.jmp fin))
        ⟨pre ++ codeBranches ci 0 branches pre.length, b, o, ci⟩ =
      ⟨pre ++ codeBranches ci fin branches pre.length, b, o, ci⟩ := by
  induction branches generalizing pre with
  | nil => rfl
  | cons branch rest ih =>
    rcases rest with - | ⟨next, rest⟩
    · rfl
    · have hrest := ih (pre ++ .split (pre.length + 1) (pre.length + size branch + 2) ::
        (code ci branch (pre.length + 1) ++ [.jmp fin]))
      have hpos : (pre ++ Inst.split (pre.length + 1) (pre.length + size branch + 2) ::
          (code ci branch (pre.length + 1) ++ [.jmp fin])).length = pre.length + size branch + 2 := by
        simp
        omega
      rw [hpos] at hrest
      rw [codeBranches_cons, codeBranches_cons, ← List.append_assoc, ← List.append_assoc, ← hrest, jumpsOf]
      · have hset := set_middle (pre ++ .split (pre.length + 1) (pre.length + size branch + 2) ::
          code ci branch (pre.length + 1)) (codeBranches ci 0 (next :: rest) (pre.length + size branch + 2))
          (.jmp 0) (.jmp fin) (n := pre.length + size branch + 1) (by simp; omega)
        rw [List.foldl_cons]
        congr 1
        simpa [Compiler.patch] using hset
      · simp

theorem over_compileBranches (branches : List Node) (hover : c.isOver = true) :
    (compileBranches branches c).1.isOver = true := by
  induction branches generalizing c with
  | nil => exact hover
  | cons branch rest ih =>
    rcases rest with - | ⟨next, rest⟩
    · rwa [compileBranches, compile_of_over branch hover]
    · apply ih
      have hsplit := Compiler.over_emit hover (.split 0 0)
      show ((compile branch (c.emit (.split 0 0))).emit (.jmp 0)).isOver = true
      rw [compile_of_over branch hsplit]
      exact Compiler.over_emit hsplit _

theorem emits_compileBranches (branches : List Node)
    (h : ∀ branch ∈ branches, Renders ci (code ci branch) (compile branch)) (hc : Ready ci c) :
    Emits (codeBranches ci 0 branches c.prog.length) c (compileBranches branches c).1 ∧
      (c.prog.length + sizeBranches branches ≤ maxProg →
        (compileBranches branches c).2 = jumpsOf branches c.prog.length) := by
  induction branches generalizing c with
  | nil => exact ⟨.nil hc, fun _ => rfl⟩
  | cons branch rest ih =>
    have hbranch := h branch (by simp)
    rcases rest with - | ⟨next, rest⟩
    · exact ⟨hbranch.emits c hc, fun _ => rfl⟩
    · have hframed := hbranch.emits_framed (length_code ci branch) 0 hc
      have hrest := fun c (hc : Ready ci c) => ih (c := c) (fun b hb => h b (List.mem_cons_of_mem _ hb)) hc
      have hlen : (Inst.split (c.prog.length + 1) (c.prog.length + size branch + 2) ::
          (code ci branch (c.prog.length + 1) ++ [.jmp 0])).length = size branch + 2 := by simp
      rw [codeBranches_cons]
      refine ⟨hframed.append hc (fun hready hpos => ?_) (over_compileBranches (next :: rest)), fun hfits => ?_⟩
      · rw [hlen, ← Nat.add_assoc] at hpos
        have hemits := (hrest _ hready).1
        rwa [hpos] at hemits
      · rw [sizeBranches_cons] at hfits
        obtain ⟨hready, hpos⟩ := hframed.ready hc (by rw [hlen]; omega)
        rw [hlen, ← Nat.add_assoc] at hpos
        have hjmp := (hbranch.emits_body hc).ready hc (by rw [List.length_cons, length_code]; omega)
        have hjumps := (hrest _ hready).2 (by rw [hpos]; omega)
        rw [hpos] at hjumps
        rw [jumpsOf, ← hjumps]
        · have hstart := hjmp.2
          rw [List.length_cons, length_code, ← Nat.add_assoc] at hstart
          rw [← hstart]
          rfl
        · simp

theorem compileParts_of_over (parts : List Node) (hover : c.isOver = true) : compileParts parts c = c := by
  induction parts with
  | nil => rfl
  | cons part rest ih => rw [compileParts, compile_of_over part hover, ih]

theorem emits_compileParts (parts : List Node) (h : ∀ part ∈ parts, Renders ci (code ci part) (compile part))
    (hc : Ready ci c) : Emits (codeParts ci parts c.prog.length) c (compileParts parts c) := by
  induction parts generalizing c with
  | nil => exact .nil hc
  | cons part rest ih =>
    refine ((h part (by simp)).emits c hc).append hc (fun hready hpos => ?_) ?_
    · rw [length_code] at hpos
      rw [← hpos]
      exact ih (fun p hp => h p (List.mem_cons_of_mem _ hp)) hready
    · intro hover
      rwa [compileParts, compileParts_of_over rest hover]

/-- The branches of an alternation, with the jumps patched. -/
theorem emits_alt (branches : List Node) (h : ∀ branch ∈ branches, Renders ci (code ci branch) (compile branch))
    (hc : Ready ci c) :
    Emits (codeBranches ci (c.prog.length + sizeBranches branches) branches c.prog.length) c
      ((compileBranches branches c).2.foldl
        (fun c' j => c'.patch j (.jmp (compileBranches branches c).1.prog.length)) (compileBranches branches c).1) := by
  obtain ⟨hemits, hjumps⟩ := emits_compileBranches branches h hc
  have hlen : ∀ fin pos, (codeBranches ci fin branches pos).length = sizeBranches branches :=
    fun fin pos => length_codeBranches ..
  unfold Emits
  rw [hlen, any_codeBranches]
  split
  next hfits =>
    have hroom : c.prog.length + (codeBranches ci 0 branches c.prog.length).length ≤ maxProg := by rwa [hlen]
    have hend := (hemits.ready hc hroom).2
    rw [hlen] at hend
    rw [hjumps hfits, hend, hemits.of_fits hroom, hc.ci_eq]
    exact patch_codeBranches ..
  next hfits =>
    have hover : (compileBranches branches c).1.isOver = true := by
      apply hemits.of_not_fits
      rwa [hlen]
    generalize (compileBranches branches c).1.prog.length = fin
    generalize (compileBranches branches c).1 = made at hover
    induction (compileBranches branches c).2 generalizing made with
    | nil => exact hover
    | cons j jumps ih => exact ih (made.patch j (.jmp fin)) hover

/-- **The compiler appends a node's code**, or sets its flag when there is no room for it. -/
theorem renders_compile (ci : Bool) (node : Node) : Renders ci (code ci node) (compile node) := by
  refine ⟨fun c hc => ?_, fun c hover => compile_of_over node hover⟩
  have hunset : ¬ c.isOver = true := by simp [hc.unset]
  induction node using Node.induct generalizing c with
  | empty =>
    rw [compile, if_neg hunset]
    exact .nil hc
  | group idx inner ih =>
    have hinner : Renders ci (code ci inner) (compile inner) :=
      ⟨fun c hc => ih c hc (by simp [hc.unset]), fun c hover => compile_of_over inner hover⟩
    rw [compile, if_neg hunset]
    refine (emits_emit c (.save (2 * idx)) rfl).append hc (fun hready hpos => ?_) fun hover => ?_
    · rw [List.length_singleton] at hpos
      rw [← hpos]
      exact (hinner.emits _ hready).append hready (fun _ _ => emits_emit _ _ rfl) (Compiler.over_emit · _)
    · exact Compiler.over_emit (hinner.isOver hover) _
  | concat parts ih =>
    rw [compile, if_neg hunset]
    refine emits_compileParts parts (fun part hpart => ?_) hc
    exact ⟨fun c hc => ih part hpart c hc (by simp [hc.unset]), fun c hover => compile_of_over part hover⟩
  | alt branches ih =>
    rw [compile, if_neg hunset]
    refine emits_alt branches (fun branch hbranch => ?_) hc
    exact ⟨fun c hc => ih branch hbranch c hc (by simp [hc.unset]), fun c hover => compile_of_over branch hover⟩
  | backref n =>
    rw [compile, if_neg hunset]
    unfold Emits Compiler.emit
    split
    next hfits =>
      have hroom : ¬ maxProg ≤ c.prog.length := Nat.not_le.mpr hfits
      simp [hroom, code, Inst.isBackref]
    next hfits =>
      have hroom : maxProg ≤ c.prog.length := Nat.not_lt.mp hfits
      simp [hroom]
  | repeated inner min max ih =>
    have hinner : Renders ci (code ci inner) (compile inner) :=
      ⟨fun c hc => ih c hc (by simp [hc.unset]), fun c hover => compile_of_over inner hover⟩
    rw [compile, if_neg hunset]
    have hemits := hinner.emits_compileRepeat (length_code ci inner) min max hc
    cases max <;> exact hemits
  | cls data =>
    rw [compile, if_neg hunset, hc.ci_eq]
    exact emits_emit c _ rfl
  | _ =>
    rw [compile, if_neg hunset]
    exact emits_emit c _ rfl

/-! ### Whole patterns -/

/-- The compiler behind the search prefix and the first instruction of the pattern proper. -/
def searchPrefix (ci : Bool) : Compiler :=
  let c : Compiler := ⟨[], false, false, ci⟩
  let split := c.prog.length
  let c := c.emit (.split 0 0)
  let skip := c.prog.length
  let c := c.emit .skip
  let c := c.emit (.jmp split)
  let real := c.prog.length
  let c := c.patch split (.split real skip)
  c.emit (.save 0)

/-- The pattern behind its prefix, and the two instructions that end it. -/
def compileTree (ci : Bool) (node : Node) : Compiler :=
  ((compile node (searchPrefix ci)).emit (.save 1)).emit .matched

omit [CharData] in
theorem searchPrefix_eq (ci : Bool) :
    searchPrefix ci = ⟨[.split 3 1, .skip, .jmp 0, .save 0], false, false, ci⟩ := by
  simp [searchPrefix, Compiler.emit, Compiler.patch, maxProg]

omit [CharData] in
theorem ready_searchPrefix (ci : Bool) : Ready ci (searchPrefix ci) := by
  rw [searchPrefix_eq]
  exact ⟨show 4 ≤ maxProg by decide, rfl, rfl⟩

/-- **The program of a pattern**, when it fits. -/
theorem compileTree_eq (ci : Bool) (node : Node) (hset : (compileTree ci node).isOver = false) :
    compileTree ci node =
      ⟨[.split 3 1, .skip, .jmp 0, .save 0] ++ (code ci node 4 ++ [.save 1, .matched]),
        (code ci node 4).any Inst.isBackref, false, ci⟩ := by
  have hc := ready_searchPrefix ci
  have hall : Emits (code ci node 4 ++ [.save 1] ++ [.matched]) (searchPrefix ci) (compileTree ci node) := by
    refine Emits.append hc (Emits.append hc ?_ (fun _ _ => emits_emit _ _ rfl) (Compiler.over_emit · _))
      (fun _ _ => emits_emit _ _ rfl) (Compiler.over_emit · _)
    have hnode := (renders_compile ci node).emits _ hc
    rwa [searchPrefix_eq] at hnode ⊢
  by_cases hfits : (searchPrefix ci).prog.length + (code ci node 4 ++ [Inst.save 1] ++ [Inst.matched]).length ≤ maxProg
  · rw [hall.of_fits hfits, searchPrefix_eq]
    simp [Inst.isBackref]
  · rw [hall.of_not_fits hfits] at hset
    cases hset

end

end SlateOS.Ere
