/-
# SlateOS.Ere.Parser -- the parser of extended regular expressions

`userspace/ere/src/engine.rs`, `EParser`: alternation, concatenation, stacked quantifiers and atoms, each dialect's
answer to what is no regular expression included. The functions that call each other take fuel; a round of calls
that comes back to one of them has consumed a character, and `parse` is given enough (`parse_ne_outOfFuel`).
-/
import SlateOS.Ere.Syntax

namespace SlateOS.Ere

/-! ## State and results -/

/-- `EParser`. -/
structure EParser where
  chars : List Ch
  pos : Nat
  ngroups : Nat
  depth : Nat
  syn : Syntax
  seenAtom : Bool
  warnings : List Warning
  literalBrace : Option Nat

/-- What a function of the parser returns, with the state it leaves. -/
inductive Parsed (α : Type) where
  | outOfFuel
  | err (e : EreError)
  | ok (a : α) (p : EParser)

namespace Parsed

variable {α β : Type}

/-- `?`. -/
def bind (res : Parsed α) (f : α → EParser → Parsed β) : Parsed β :=
  match res with
  | outOfFuel => outOfFuel
  | err e => err e
  | ok a p => f a p

@[simp] theorem bind_ok (a : α) (p : EParser) (f : α → EParser → Parsed β) : (ok a p).bind f = f a p := rfl

@[simp] theorem bind_err (e : EreError) (f : α → EParser → Parsed β) : (err e).bind f = err e := rfl

/-- An error with its code and wording. -/
def fail (code : RegCode) (detail : String) : Parsed α := err ⟨code, ofText detail⟩

end Parsed

/-- `BraceNum`. -/
inductive BraceNum where
  | value (n : Nat)
  | absent
  | invalid

/-- `BraceStop`. -/
inductive BraceStop where
  | comma | close | finish
  deriving DecidableEq

/-- `Quant`. -/
structure Quant where
  kind : Quantifier
  min : Nat
  max : Option Nat

namespace EParser

variable (p : EParser)

/-- `peek`. -/
def peek : Option Ch := p.chars[p.pos]?

/-- `bump`. -/
def bump (n : Nat) : EParser := { p with pos := p.pos + n }

/-- `peek_ascii`. -/
def peekAscii : Option Char := p.peek.bind Ch.asAscii

/-- `peek_ascii_at`. -/
def peekAsciiAt (off : Nat) : Option Char := p.chars[p.pos + off]?.bind Ch.asAscii

/-! ## Quantifiers -/

/-- `quantifier_here`. -/
def quantifierHere : Bool :=
  match p.peekAscii with
  | some '*' | some '+' | some '?' => true
  | some '{' => !p.syn.noIntervals
  | _ => false

/-- One digit more of a count, which stops growing above the largest. -/
def pushDigit (v : Nat) : BraceNum → BraceNum
  | .absent => .value v
  | .value n => .value (min (n * 10 + v) (maxRepeat + 1))
  | .invalid => .invalid

/-- The loop of `fetch_number` over what is left of the pattern. -/
def fetchLoop : List Ch → Nat → BraceNum → BraceNum × BraceStop × Nat
  | [], pos, _ => (.invalid, .finish, pos)
  | c :: rest, pos, num =>
    match c.asAscii with
    | some '}' => (num, .close, pos + 1)
    | some ',' => (num, .comma, pos + 1)
    | some d => fetchLoop rest (pos + 1) (if d.isDigit then pushDigit (d.toNat - '0'.toNat) num else .invalid)
    | none => fetchLoop rest (pos + 1) .invalid

/-- `fetch_number`. -/
def fetchNumber : BraceNum × BraceStop × EParser :=
  let (num, stop, pos) := fetchLoop (p.chars.drop p.pos) p.pos .absent
  (num, stop, { p with pos := pos })

/-- What an interval is when its bounds have been read. -/
def checkInterval (min : Nat) (max : Option Nat) (stop : BraceStop) : Parsed (Option (Nat × Option Nat)) :=
  if stop ≠ .close then .fail .badBraceContent "invalid interval in regex"
  else if max.any fun n => n < min then .fail .badBraceContent "invalid interval in regex"
  else if maxRepeat < max.getD min then .fail .tooBig "repetition count too large"
  else .ok (some (min, max)) p

/-- A bound that is no count: the brace is a literal where the dialect says so, and marked as one. -/
def badBound (start : EParser) (stop : BraceStop) : Parsed (Option (Nat × Option Nat)) :=
  if start.syn.invalidIntervalOrd then .ok none { start with literalBrace := some start.pos }
  else if stop = .finish then .fail .unmatchedBrace "unterminated '\x7b' in regex"
  else .fail .badBraceContent "invalid interval in regex"

/-- The upper bound of an interval, after the lower one. -/
def upperBound (start : EParser) (min : Nat) (stop : BraceStop) : Parsed (Option (Nat × Option Nat)) :=
  match stop with
  | .close => p.checkInterval min (some min) .close
  | .comma =>
    let (second, stop, p) := p.fetchNumber
    match second with
    | .value n => p.checkInterval min (some n) stop
    | .absent => p.checkInterval min none stop
    | .invalid => badBound start stop
  | .finish => .fail .unmatchedBrace "unterminated '\x7b' in regex"

/-- `parse_brace`. -/
def parseBrace : Parsed (Option (Nat × Option Nat)) :=
  let (first, stop, q) := (p.bump 1).fetchNumber
  match first with
  | .value n => q.upperBound p n stop
  | .absent =>
    if stop = .comma then q.upperBound p 0 stop else .fail .badBraceContent "invalid interval in regex"
  | .invalid => badBound p stop

/-- `parse_quantifier`. -/
def parseQuantifier : Parsed (Option Quant) :=
  match p.peekAscii with
  | some '*' => .ok (some ⟨.star, 0, none⟩) (p.bump 1)
  | some '+' => .ok (some ⟨.plus, 1, none⟩) (p.bump 1)
  | some '?' => .ok (some ⟨.question, 0, some 1⟩) (p.bump 1)
  | some '{' =>
    if p.syn.noIntervals then .ok none p
    else p.parseBrace.bind fun bounds p => .ok (bounds.map fun (min, max) => ⟨.interval, min, max⟩) p
  | _ => .ok none p

/-- `warn_at_start`. -/
def warnAtStart (kind : Quantifier) : EParser :=
  if p.seenAtom then p else { p with warnings := p.warnings ++ [.quantifierAtStart kind] }

/-- `nothing_to_repeat`. -/
def nothingToRepeat : Parsed Node := .fail .badRepeat "nothing to repeat in regex"

/-- The loop of `stack_quantifiers`. -/
def stackLoop : Nat → Node → EParser → Parsed Node
  | 0, _, _ => .outOfFuel
  | fuel + 1, node, p =>
    p.parseQuantifier.bind fun
      | none, p => .ok node p
      | some q, p =>
        let p := p.warnAtStart q.kind
        match node with
        | .word _ => stackLoop fuel (if q.kind = .interval then repeatNode node q.min q.max else node) p
        | _ => stackLoop fuel (repeatNode node q.min q.max) p

/-- `stack_quantifiers`. -/
def stackQuantifiers (fuel : Nat) (node : Node) : Parsed Node :=
  if isAssertion node && !p.syn.contextIndepOps && p.quantifierHere then
    if p.syn.leadingRepeatLiteral then .ok node p else nothingToRepeat
  else stackLoop fuel node p

/-! ## Bracket expressions -/

/-- `class_char`. -/
def classChar : Parsed Ch :=
  match p.peek with
  | none => .fail .unmatchedBracket "unterminated '[' in regex"
  | some c =>
    if c = .u '\\' ∧ p.syn.backslashEscapeInLists = true then
      match p.chars[p.pos + 1]? with
      | some e => .ok e (p.bump 2)
      | none => .ok c (p.bump 1)
    else .ok c (p.bump 1)

/-- What has been read of a bracket expression; `colon` are the bits of the test for `[:name:]`. -/
structure ClassState where
  ranges : List (Ch × Ch)
  posix : List PosixClass
  colon : Nat

/-- A member that is a character or a range. -/
def classRange (st : ClassState) : Parsed ClassState :=
  p.classChar.bind fun lo p =>
    if p.peekAscii = some '-' ∧ p.peekAsciiAt 1 ≠ some ']' ∧ p.chars[p.pos + 1]? ≠ none then
      (p.bump 1).classChar.bind fun hi p =>
        if lo.le hi then .ok { st with ranges := st.ranges ++ [(lo, hi)], colon := st.colon ||| 8 } p
        else if p.syn.emptyRanges then .ok { st with colon := st.colon ||| 8 } p
        else
          .err ⟨.badRangeEnd, ofText "invalid range " ++ lo.toStr ++ ofText "-" ++ hi.toStr ++ ofText " in class"⟩
    else
      .ok { st with
        ranges := st.ranges ++ [(lo, lo)]
        colon := st.colon ||| (if lo.asAscii = some ':' then 2 else 4) } p

/-- One member of a bracket expression. -/
def classMember (st : ClassState) : Parsed ClassState :=
  let st := { st with colon := st.colon &&& 0xfd }
  if p.peek = some (.u '[') ∧ p.peekAsciiAt 1 = some ':' then
    let letters := ((p.bump 2).chars.drop (p.bump 2).pos).takeWhile fun c => c.asAscii.any Char.isAlpha
    let name := letters.filterMap Ch.asAscii
    let q := (p.bump 2).bump letters.length
    if q.peekAscii = some ':' ∧ q.peekAsciiAt 1 = some ']' then
      match PosixClass.fromName name with
      | some posix => .ok { st with posix := st.posix ++ [posix] } (q.bump 2)
      | none =>
        .err ⟨.badCharClass, ofText "unknown character class [:" ++ name.flatMap String.utf8EncodeChar ++ ofText ":]"⟩
    else p.classRange st
  else p.classRange st

/-! ## How far a function reads -/

variable {p} {q r : EParser} {α β : Type} {m n : Nat}

/-- The state `q` is in the same pattern, `n` characters on at least. -/
def Ahead (n : Nat) (p q : EParser) : Prop := q.chars = p.chars ∧ p.pos + n ≤ q.pos

theorem Ahead.refl (p : EParser) : Ahead 0 p p := ⟨rfl, Nat.le_refl _⟩

theorem ahead_bump (n : Nat) : Ahead n p (p.bump n) := ⟨rfl, Nat.le_refl _⟩

theorem Ahead.trans (h : Ahead m p q) (h' : Ahead n q r) : Ahead (m + n) p r :=
  ⟨h'.1.trans h.1, by have := h.2; have := h'.2; omega⟩

theorem Ahead.mono (h : Ahead n p q) (hmn : m ≤ n) : Ahead m p q := ⟨h.1, by have := h.2; omega⟩

/-- The result is no lack of fuel, and a success has read `n` characters at least. -/
structure Reads (n : Nat) (p : EParser) (res : Parsed α) : Prop where
  fuelled : res ≠ .outOfFuel
  ahead : ∀ a q, res = .ok a q → Ahead n p q

theorem Reads.ok (a : α) (h : Ahead n p q) : Reads n p (.ok a q) := by
  refine ⟨by simp, fun a' q' heq => ?_⟩
  cases heq
  exact h

theorem Reads.err (n : Nat) (p : EParser) (e : EreError) : Reads n p (.err e : Parsed α) := ⟨by simp, by simp⟩

theorem Reads.fail (n : Nat) (p : EParser) (code : RegCode) (detail : String) :
    Reads n p (.fail code detail : Parsed α) := .err n p _

theorem Reads.mono {res : Parsed α} (h : Reads n p res) (hmn : m ≤ n) : Reads m p res :=
  ⟨h.fuelled, fun a q heq => (h.ahead a q heq).mono hmn⟩

/-- What is read after `q` is read after `p`. -/
theorem Reads.after {res : Parsed α} (hq : Ahead m p q) (h : Reads n q res) : Reads (m + n) p res :=
  ⟨h.fuelled, fun a r heq => hq.trans (h.ahead a r heq)⟩

theorem Reads.bind {res : Parsed α} {f : α → EParser → Parsed β} (h : Reads m p res)
    (hf : ∀ a q, Ahead m p q → Reads n q (f a q)) : Reads (m + n) p (res.bind f) := by
  cases res with
  | outOfFuel => exact absurd rfl h.fuelled
  | err e => exact .err _ _ e
  | ok a q => exact (hf a q (h.ahead a q rfl)).after (h.ahead a q rfl)

/-! ### Quantifiers -/

theorem le_fetchLoop (rest : List Ch) (pos : Nat) (num : BraceNum) : pos ≤ (fetchLoop rest pos num).2.2 := by
  induction rest generalizing pos num with
  | nil => exact Nat.le_refl _
  | cons c rest ih =>
    unfold fetchLoop
    split
    · exact Nat.le_succ _
    · exact Nat.le_succ _
    · exact Nat.le_of_succ_le (ih _ _)
    · exact Nat.le_of_succ_le (ih _ _)

theorem ahead_fetchNumber : Ahead 0 p p.fetchNumber.2.2 := ⟨rfl, le_fetchLoop _ _ _⟩

/-- A quantifier that is found has been read, and what is none has not. -/
structure ReadsSome (p : EParser) (res : Parsed (Option α)) : Prop where
  fuelled : res ≠ .outOfFuel
  none_here : ∀ q, res = .ok none q → q.chars = p.chars ∧ q.pos = p.pos
  some_ahead : ∀ a q, res = .ok (some a) q → Ahead 1 p q

theorem ReadsSome.fail (p : EParser) (code : RegCode) (detail : String) :
    ReadsSome p (.fail code detail : Parsed (Option α)) := ⟨by simp [Parsed.fail], by simp [Parsed.fail], by simp [Parsed.fail]⟩

theorem ReadsSome.none (h : q.chars = p.chars ∧ q.pos = p.pos) : ReadsSome p (.ok none q : Parsed (Option α)) := by
  refine ⟨by simp, fun r heq => ?_, by simp⟩
  cases heq
  exact h

theorem ReadsSome.some (a : α) (h : Ahead 1 p q) : ReadsSome p (.ok (some a) q) := by
  refine ⟨by simp, by simp, fun b r heq => ?_⟩
  cases heq
  exact h

theorem readsSome_checkInterval (hq : Ahead 1 p q) (min : Nat) (max : Option Nat) (stop : BraceStop) :
    ReadsSome p (q.checkInterval min max stop) := by
  unfold checkInterval
  split
  · exact .fail ..
  · split
    · exact .fail ..
    · split
      · exact .fail ..
      · exact .some _ hq

theorem readsSome_badBound (p : EParser) (stop : BraceStop) : ReadsSome p (badBound p stop) := by
  unfold badBound
  split
  · exact .none ⟨rfl, rfl⟩
  · split
    · exact .fail ..
    · exact .fail ..

theorem readsSome_upperBound (hq : Ahead 1 p q) (min : Nat) (stop : BraceStop) :
    ReadsSome p (q.upperBound p min stop) := by
  unfold upperBound
  split
  · exact readsSome_checkInterval hq ..
  · have hsecond : Ahead 1 p q.fetchNumber.2.2 := hq.trans ahead_fetchNumber
    dsimp only
    split
    · exact readsSome_checkInterval hsecond ..
    · exact readsSome_checkInterval hsecond ..
    · exact readsSome_badBound ..
  · exact .fail ..

theorem readsSome_parseBrace (p : EParser) : ReadsSome p p.parseBrace := by
  have hfirst : Ahead 1 p (p.bump 1).fetchNumber.2.2 := Ahead.trans (ahead_bump 1) ahead_fetchNumber
  unfold parseBrace
  dsimp only
  split
  · exact readsSome_upperBound hfirst ..
  · split
    · exact readsSome_upperBound hfirst ..
    · exact .fail ..
  · exact readsSome_badBound ..

theorem readsSome_parseQuantifier (p : EParser) : ReadsSome p p.parseQuantifier := by
  unfold parseQuantifier
  split
  · exact .some _ (ahead_bump 1)
  · exact .some _ (ahead_bump 1)
  · exact .some _ (ahead_bump 1)
  · split
    · exact .none ⟨rfl, rfl⟩
    · have hbrace := readsSome_parseBrace p
      cases hres : p.parseBrace with
      | outOfFuel => exact absurd hres hbrace.fuelled
      | err e => exact ⟨by simp, by simp, by simp⟩
      | ok bounds q =>
        cases bounds with
        | none => exact .none (hbrace.none_here q hres)
        | some bounds => exact .some _ (hbrace.some_ahead bounds q hres)
  · exact .none ⟨rfl, rfl⟩

@[simp] theorem chars_warnAtStart (p : EParser) (kind : Quantifier) : (p.warnAtStart kind).chars = p.chars := by
  unfold warnAtStart
  split <;> rfl

@[simp] theorem pos_warnAtStart (p : EParser) (kind : Quantifier) : (p.warnAtStart kind).pos = p.pos := by
  unfold warnAtStart
  split <;> rfl

/-- What is left of the pattern. -/
def remaining (p : EParser) : Nat := p.chars.length - p.pos

theorem Ahead.remaining_le (h : Ahead n p q) : q.remaining ≤ p.remaining - n := by
  unfold remaining
  rw [h.1]
  have := h.2
  omega

/-- A quantifier begins at a character. -/
theorem pos_lt_of_parseQuantifier {a : Quant} (h : p.parseQuantifier = .ok (some a) q) : p.pos < p.chars.length := by
  by_contra hge
  have hnone : p.peekAscii = none := by simp [peekAscii, peek, List.getElem?_eq_none (Nat.not_lt.mp hge)]
  simp [parseQuantifier, hnone] at h

theorem reads_stackLoop (fuel : Nat) (node : Node) (p : EParser) (hfuel : p.remaining < fuel) :
    Reads 0 p (stackLoop fuel node p) := by
  induction fuel generalizing node p with
  | zero => exact absurd hfuel (Nat.not_lt_zero _)
  | succ fuel ih =>
    have hquant := readsSome_parseQuantifier p
    unfold stackLoop
    cases hres : p.parseQuantifier with
    | outOfFuel => exact absurd hres hquant.fuelled
    | err e => exact .err ..
    | ok a q =>
      cases a with
      | none => exact .ok _ ⟨(hquant.none_here q hres).1, Nat.le_of_eq (hquant.none_here q hres).2.symm⟩
      | some a =>
        have hahead := hquant.some_ahead a q hres
        have hahead' : Ahead 1 p (q.warnAtStart a.kind) := by
          refine ⟨?_, ?_⟩
          · rw [chars_warnAtStart, hahead.1]
          · rw [pos_warnAtStart]
            exact hahead.2
        have hless : (q.warnAtStart a.kind).remaining < fuel := by
          have hlt := pos_lt_of_parseQuantifier hres
          have hle := hahead'.remaining_le
          unfold remaining at hle hfuel ⊢
          omega
        rw [Parsed.bind_ok]
        dsimp only
        split
        · exact (Reads.after hahead' (ih _ _ hless)).mono (Nat.zero_le _)
        · exact (Reads.after hahead' (ih _ _ hless)).mono (Nat.zero_le _)

theorem reads_stackQuantifiers (fuel : Nat) (node : Node) (p : EParser) (hfuel : p.remaining < fuel) :
    Reads 0 p (p.stackQuantifiers fuel node) := by
  unfold stackQuantifiers
  split
  · split
    · exact .ok _ (.refl p)
    · exact .fail ..
  · exact reads_stackLoop fuel node p hfuel

/-! ### Bracket expressions -/

theorem reads_classChar (p : EParser) : Reads 1 p p.classChar := by
  unfold classChar
  split
  · exact .fail ..
  · split
    · split
      · exact (Reads.ok _ (ahead_bump 2)).mono (by omega)
      · exact .ok _ (ahead_bump 1)
    · exact .ok _ (ahead_bump 1)

theorem reads_classRange (p : EParser) (st : ClassState) : Reads 1 p (p.classRange st) := by
  refine Reads.bind (m := 1) (n := 0) (reads_classChar p) fun lo q _ => ?_
  split
  · apply Reads.mono _ (Nat.zero_le (1 + (1 + 0)))
    refine Reads.after (ahead_bump 1) (Reads.bind (reads_classChar _) fun hi r _ => ?_)
    split
    · exact .ok _ (.refl r)
    · split
      · exact .ok _ (.refl r)
      · exact .err ..
  · exact .ok _ (.refl q)

theorem reads_classMember (p : EParser) (st : ClassState) : Reads 1 p (p.classMember st) := by
  unfold classMember
  dsimp only
  split
  · split
    · split
      · refine .ok _ ⟨rfl, ?_⟩
        show p.pos + 1 ≤ p.pos + 2 + _ + 2
        omega
      · exact .err ..
    · exact reads_classRange ..
  · exact reads_classRange ..

/-- The loop of `parse_class`. -/
def classLoop (first : Bool) (st : ClassState) (p : EParser) : Parsed ClassState :=
  match _hc : p.peek with
  | none => .fail (if first then .badPattern else .unmatchedBracket) "unterminated '[' in regex"
  | some c =>
    if c = .u ']' ∧ first = false then .ok st (p.bump 1)
    else
      match _h : p.classMember st with
      | .outOfFuel => .outOfFuel
      | .err e => .err e
      | .ok st q => classLoop false st q
termination_by p.remaining
decreasing_by
  have hle := ((reads_classMember p _).ahead _ _ _h).remaining_le
  have hlt := (List.getElem?_eq_some_iff.mp _hc).1
  unfold remaining at hle ⊢
  omega

theorem reads_classLoop (first : Bool) (st : ClassState) (p : EParser) : Reads 1 p (classLoop first st p) := by
  fun_induction classLoop first st p with
  | case1 => exact .fail ..
  | case2 => exact .ok _ (ahead_bump 1)
  | case3 first st p c hc hopen hmember => exact absurd hmember (reads_classMember p st).fuelled
  | case4 => exact .err ..
  | case5 first st p c hc hopen st' q hmember ih =>
    exact (ih.after ((reads_classMember p st).ahead _ _ hmember)).mono (by omega)

variable (p) in
/-- `parse_class`. -/
def parseClass : Parsed Node :=
  let p := p.bump 1
  let negated := p.peekAscii == some '^'
  let p := if negated then p.bump 1 else p
  (classLoop true ⟨[], [], if p.peekAscii = some ':' then 1 else 0⟩ p).bind fun st p =>
    let p := if st.colon = 7 then { p with warnings := p.warnings ++ [.confusingBracket] } else p
    let ranges := if negated && p.syn.hatListsNotNewline then st.ranges ++ [(.u '\n', .u '\n')] else st.ranges
    .ok (.cls ⟨negated, ranges, st.posix⟩) p

theorem reads_parseClass (p : EParser) : Reads 1 p p.parseClass := by
  unfold parseClass
  dsimp only
  have hstart : ∀ b : Bool, Ahead 1 p (if b then (p.bump 1).bump 1 else p.bump 1) := by
    rintro (_ | _)
    · exact ahead_bump 1
    · exact (Ahead.trans (ahead_bump 1) (ahead_bump 1)).mono (by omega)
  refine Reads.mono (Reads.after (hstart _) (Reads.bind (n := 0) (reads_classLoop ..) ?_)) (by omega)
  intro st q _
  refine .ok _ ?_
  split <;> exact ⟨rfl, Nat.le_refl _⟩

/-! ## Atoms, repetitions, concatenations and alternatives -/

/-- A backslash and what it escapes. -/
def parseEscape (p : EParser) : Parsed Node :=
  match p.peek with
  | none => .fail .trailingBackslash "trailing backslash in regex"
  | some e =>
    let p := p.bump 1
    match e.asAscii with
    | none => .ok (.lit e) p
    | some op =>
      if '1' ≤ op ∧ op ≤ '9' ∧ p.syn.noBackrefs = false then
        let n := op.toNat - '0'.toNat
        if p.ngroups < n then
          .err ⟨.badBackReference, ofText "invalid backreference \\" ++ e.toStr ++ ofText " in regex"⟩
        else .ok (.backref n) p
      else if p.syn.noGnuOps then .ok (.lit e) p
      else
        match op with
        | 'w' => .ok (.cls (wordClass false)) p
        | 'W' => .ok (.cls (wordClass true)) p
        | 's' => .ok (.cls (spaceClass false)) p
        | 'S' => .ok (.cls (spaceClass true)) p
        | 'b' => .ok (.word .boundary) p
        | 'B' => .ok (.word .notBoundary) p
        | '<' => .ok (.word .wordStart) p
        | '>' => .ok (.word .wordEnd) p
        | _ =>
          -- the backtick and the apostrophe
          if op.toNat = 0x60 then .ok .bufStart p
          else if op.toNat = 0x27 then .ok .bufEnd p
          else .ok (.lit e) p

/-- A character that stands for itself. -/
def parseLiteral (p : EParser) : Parsed Node :=
  match p.peek with
  | some c => .ok (.lit c) (p.bump 1)
  | none => .ok .empty p

/-- `.`, which a dialect may keep off a newline. -/
def dotNode (syn : Syntax) : Node :=
  if syn.dotNotNewline then .cls ⟨true, [(.u '\n', .u '\n')], []⟩ else .any

mutual

/-- `parse_alt`. -/
def parseAlt : Nat → EParser → Parsed Node
  | 0, _ => .outOfFuel
  | fuel + 1, p =>
    (parseConcat fuel p).bind fun first p =>
      (parseBranches fuel p).bind fun rest p =>
        .ok (match rest with
          | [] => first
          | _ :: _ => .alt (first :: rest)) p

/-- The loop of `parse_alt`. -/
def parseBranches : Nat → EParser → Parsed (List Node)
  | 0, _ => .outOfFuel
  | fuel + 1, p =>
    if p.peekAscii = some '|' then
      (parseConcat fuel (p.bump 1)).bind fun branch p =>
        (parseBranches fuel p).bind fun rest p => .ok (branch :: rest) p
    else .ok [] p

/-- `parse_concat`: a branch starts with nothing to repeat. -/
def parseConcat : Nat → EParser → Parsed Node
  | 0, _ => .outOfFuel
  | fuel + 1, p =>
    (parseParts fuel { p with seenAtom := false }).bind fun parts q =>
      .ok (match parts with
        | [] => .empty
        | [part] => part
        | _ :: _ :: _ => .concat parts) { q with seenAtom := p.seenAtom }

/-- The loop of `parse_concat_inner`. -/
def parseParts : Nat → EParser → Parsed (List Node)
  | 0, _ => .outOfFuel
  | fuel + 1, p =>
    match p.peek with
    | none => .ok [] p
    | some c =>
      if c = .u '|' ∨ (c = .u ')' ∧ 0 < p.depth) then .ok [] p
      else if c = .u ')' ∧ p.syn.unmatchedRightParenOrd = false then
        .fail .unmatchedRightParen "unmatched ) in regex"
      else
        (parseRepeat fuel p).bind fun part p =>
          (parseParts fuel p).bind fun rest p => .ok (part :: rest) p

/-- `parse_repeat`. -/
def parseRepeat : Nat → EParser → Parsed Node
  | 0, _ => .outOfFuel
  | fuel + 1, p =>
    if p.quantifierHere = true ∧ p.literalBrace ≠ some p.pos then
      if p.syn.contextIndepOps = false then
        match p.syn.leadingRepeatLiteral, p.peek with
        | true, some c => { p.bump 1 with seenAtom := true }.stackQuantifiers fuel (.lit c)
        | _, _ => nothingToRepeat
      else
        match p.parseQuantifier with
        | .outOfFuel => .outOfFuel
        | .ok (some q) p => (p.warnAtStart q.kind).stackQuantifiers fuel (repeatNode .empty q.min q.max)
        | .ok none p => parseRepeated fuel p
        | .err _ => parseRepeated fuel p
    else parseRepeated fuel p

/-- The rest of `parse_repeat`: an atom and the quantifiers stacked on it. -/
def parseRepeated : Nat → EParser → Parsed Node
  | 0, _ => .outOfFuel
  | fuel + 1, p =>
    (parseAtom fuel p).bind fun atom p =>
      (if isAssertion atom then p else { p with seenAtom := true }).stackQuantifiers fuel atom

/-- `parse_atom`. -/
def parseAtom : Nat → EParser → Parsed Node
  | 0, _ => .outOfFuel
  | fuel + 1, p =>
    match p.peekAscii with
    | some '(' =>
      (parseAlt fuel { p.bump 1 with ngroups := p.ngroups + 1, depth := p.depth + 1 }).bind fun inner q =>
        let q := { q with depth := q.depth - 1 }
        if q.peekAscii = some ')' then .ok (.group (p.ngroups + 1) inner) (q.bump 1)
        else .fail .unmatchedParen "expected ')' in regex"
    | some '[' => p.parseClass
    | some '.' => .ok (dotNode p.syn) (p.bump 1)
    | some '^' => .ok .lineStart (p.bump 1)
    | some '$' => .ok .lineEnd (p.bump 1)
    | some '\\' => parseEscape (p.bump 1)
    | some '{' =>
      if p.syn.invalidIntervalOrd = false ∧ p.syn.noIntervals = false then
        .fail .unmatchedBrace "invalid interval in regex"
      else parseLiteral p
    | _ => parseLiteral p

end

theorem reads_parseEscape (p : EParser) : Reads 0 p (parseEscape p) := by
  unfold parseEscape
  split
  · exact .fail ..
  next e _ =>
    have hbump : Ahead 0 p (p.bump 1) := (ahead_bump 1).mono (Nat.zero_le 1)
    dsimp only
    split
    · exact .ok _ hbump
    · split
      · split
        · exact .err ..
        · exact .ok _ hbump
      · split
        · exact .ok _ hbump
        · split <;> first | exact .ok _ hbump | (split <;> first | exact .ok _ hbump | (split <;> exact .ok _ hbump))

theorem reads_parseLiteral_of_peek {c : Ch} (hc : p.peek = some c) : Reads 1 p (parseLiteral p) := by
  unfold parseLiteral
  rw [hc]
  exact .ok _ (ahead_bump 1)

theorem pos_lt_of_peek {c : Ch} (hc : p.peek = some c) : 0 < p.remaining := by
  have := (List.getElem?_eq_some_iff.mp hc).1
  unfold remaining
  omega

/-- How much fuel each of the functions needs: six for each character left, and its own place in the round. -/
structure Fuelled (fuel : Nat) : Prop where
  alt : ∀ p, 6 * p.remaining + 7 ≤ fuel → Reads 0 p (parseAlt fuel p)
  branches : ∀ p, 6 * p.remaining + 6 ≤ fuel → Reads 0 p (parseBranches fuel p)
  concat : ∀ p, 6 * p.remaining + 6 ≤ fuel → Reads 0 p (parseConcat fuel p)
  parts : ∀ p, 6 * p.remaining + 5 ≤ fuel → Reads 0 p (parseParts fuel p)
  repetition : ∀ p c, p.peek = some c → 6 * p.remaining + 4 ≤ fuel → Reads 1 p (parseRepeat fuel p)
  repeated : ∀ p c, p.peek = some c → 6 * p.remaining + 3 ≤ fuel → Reads 1 p (parseRepeated fuel p)
  atom : ∀ p c, p.peek = some c → 6 * p.remaining + 2 ≤ fuel → Reads 1 p (parseAtom fuel p)

variable {fuel : Nat}

theorem Fuelled.alt_succ (h : Fuelled fuel) (hfuel : 6 * p.remaining + 7 ≤ fuel + 1) :
    Reads 0 p (parseAlt (fuel + 1) p) := by
  unfold parseAlt
  refine Reads.bind (m := 0) (n := 0) (h.concat p (by omega)) fun first q hq => ?_
  have hrem := hq.remaining_le
  refine Reads.bind (m := 0) (n := 0) (h.branches q (by omega)) fun rest r _ => ?_
  exact .ok _ (.refl r)

theorem Fuelled.branches_succ (h : Fuelled fuel) (hfuel : 6 * p.remaining + 6 ≤ fuel + 1) :
    Reads 0 p (parseBranches (fuel + 1) p) := by
  unfold parseBranches
  split
  next hbar =>
    obtain ⟨c, hc, -⟩ := Option.bind_eq_some_iff.mp hbar
    have hpos := pos_lt_of_peek hc
    have hbump := (ahead_bump (p := p) 1).remaining_le
    apply Reads.mono _ (Nat.zero_le (1 + (0 + 0)))
    refine Reads.after (ahead_bump 1) (Reads.bind (h.concat _ (by omega)) fun branch q hq => ?_)
    have hrem := hq.remaining_le
    refine Reads.bind (m := 0) (n := 0) (h.branches q (by omega)) fun rest r _ => ?_
    exact .ok _ (.refl r)
  next => exact .ok _ (.refl p)

theorem Fuelled.concat_succ (h : Fuelled fuel) (hfuel : 6 * p.remaining + 6 ≤ fuel + 1) :
    Reads 0 p (parseConcat (fuel + 1) p) := by
  unfold parseConcat
  have hfresh : Ahead 0 p { p with seenAtom := false } := ⟨rfl, Nat.le_refl _⟩
  have hparts : Reads 0 p (parseParts fuel { p with seenAtom := false }) :=
    (h.parts { p with seenAtom := false } (show 6 * p.remaining + 5 ≤ fuel by omega)).after hfresh
  refine Reads.bind (m := 0) (n := 0) hparts fun parts q _ => ?_
  exact .ok _ ⟨rfl, Nat.le_refl _⟩

theorem Fuelled.parts_succ (h : Fuelled fuel) (hfuel : 6 * p.remaining + 5 ≤ fuel + 1) :
    Reads 0 p (parseParts (fuel + 1) p) := by
  unfold parseParts
  split
  · exact .ok _ (.refl p)
  next c hc =>
    split
    · exact .ok _ (.refl p)
    · split
      · exact .fail ..
      · have hpos := pos_lt_of_peek hc
        apply Reads.mono _ (Nat.zero_le (1 + 0))
        refine Reads.bind (h.repetition p c hc (by omega)) fun part q hq => ?_
        have hrem := hq.remaining_le
        refine Reads.bind (m := 0) (n := 0) (h.parts q (by omega)) fun rest r _ => ?_
        exact .ok _ (.refl r)

theorem Fuelled.repetition_succ (h : Fuelled fuel) {c : Ch} (hc : p.peek = some c)
    (hfuel : 6 * p.remaining + 4 ≤ fuel + 1) : Reads 1 p (parseRepeat (fuel + 1) p) := by
  have hpos := pos_lt_of_peek hc
  unfold parseRepeat
  split
  next =>
    split
    next =>
      split
      next c' _ hc' =>
        have hstack := reads_stackQuantifiers fuel (.lit c') { p.bump 1 with seenAtom := true } (by
          show p.chars.length - (p.pos + 1) < fuel
          unfold remaining at hfuel
          omega)
        have hseen : Ahead 1 p { p.bump 1 with seenAtom := true } := ⟨rfl, Nat.le_refl _⟩
        exact hstack.after hseen
      next => exact .fail ..
    next =>
      have hquant := readsSome_parseQuantifier p
      split
      next hres => exact absurd hres hquant.fuelled
      next q p' hres =>
        have hahead := hquant.some_ahead q p' hres
        have hahead' : Ahead 1 p (p'.warnAtStart q.kind) := by
          refine ⟨?_, ?_⟩
          · rw [chars_warnAtStart, hahead.1]
          · rw [pos_warnAtStart]
            exact hahead.2
        have hrem := hahead'.remaining_le
        exact (reads_stackQuantifiers fuel _ _ (by omega)).after hahead'
      next p' hres =>
        obtain ⟨hchars, hhere⟩ := hquant.none_here p' hres
        have hc' : p'.peek = some c := by rw [peek, hchars, hhere, ← peek, hc]
        have hrem : p'.remaining = p.remaining := by rw [remaining, hchars, hhere, remaining]
        have hahead : Ahead 0 p p' := ⟨hchars, Nat.le_of_eq hhere.symm⟩
        exact ((h.repeated p' c hc' (by omega)).after hahead).mono (by omega)
      next => exact h.repeated p c hc (by omega)
  next => exact h.repeated p c hc (by omega)

theorem Fuelled.repeated_succ (h : Fuelled fuel) {c : Ch} (hc : p.peek = some c)
    (hfuel : 6 * p.remaining + 3 ≤ fuel + 1) : Reads 1 p (parseRepeated (fuel + 1) p) := by
  unfold parseRepeated
  have hpos := pos_lt_of_peek hc
  refine Reads.bind (m := 1) (n := 0) (h.atom p c hc (by omega)) fun atom q hq => ?_
  have hrem := hq.remaining_le
  have hseen : ∀ b : Bool, Ahead 0 q (if b then q else { q with seenAtom := true }) := by
    rintro (_ | _)
    · exact ⟨rfl, Nat.le_refl _⟩
    · exact .refl q
  have hseen' := (hseen (isAssertion atom)).remaining_le
  exact (reads_stackQuantifiers fuel atom _ (by omega)).after (hseen (isAssertion atom))

theorem Fuelled.atom_succ (h : Fuelled fuel) {c : Ch} (hc : p.peek = some c)
    (hfuel : 6 * p.remaining + 2 ≤ fuel + 1) : Reads 1 p (parseAtom (fuel + 1) p) := by
  have hpos := pos_lt_of_peek hc
  have hlit := reads_parseLiteral_of_peek hc
  unfold parseAtom
  split
  · apply Reads.mono _ (Nat.le_refl (1 + 0))
    have hopen : Ahead 1 p { p.bump 1 with ngroups := p.ngroups + 1, depth := p.depth + 1 } := ⟨rfl, Nat.le_refl _⟩
    have hrem := hopen.remaining_le
    refine Reads.bind (m := 1) (n := 0) ((h.alt _ (by omega)).after hopen) fun inner q _ => ?_
    dsimp only
    split
    · exact .ok _ ⟨rfl, Nat.le_succ _⟩
    · exact .fail ..
  · exact reads_parseClass p
  · exact .ok _ (ahead_bump 1)
  · exact .ok _ (ahead_bump 1)
  · exact .ok _ (ahead_bump 1)
  · exact (reads_parseEscape _).after (ahead_bump 1)
  · split
    · exact .fail ..
    · exact hlit
  · exact hlit

theorem fuelled (fuel : Nat) : Fuelled fuel := by
  induction fuel with
  | zero => constructor <;> intros <;> omega
  | succ fuel ih =>
    exact ⟨fun _ => ih.alt_succ, fun _ => ih.branches_succ, fun _ => ih.concat_succ, fun _ => ih.parts_succ,
      fun _ _ => ih.repetition_succ, fun _ _ => ih.repeated_succ, fun _ _ => ih.atom_succ⟩

end EParser

/-! ## The parser -/

/-- `parse`, of a pattern by itself: its tree, and the state with its groups and warnings. -/
def parse (chars : List Ch) (syn : Syntax) : Parsed Node :=
  (EParser.parseAlt (6 * chars.length + 7) ⟨chars, 0, 0, 0, syn, false, [], none⟩).bind fun node p =>
    if p.pos = p.chars.length then .ok node p
    else .err ⟨.badPattern, ofText "unexpected '" ++ (p.peek.map Ch.toStr).getD [] ++ ofText "' in regex"⟩

/-- **The parser always answers**: its fuel is enough for every pattern. -/
theorem parse_ne_outOfFuel (chars : List Ch) (syn : Syntax) : parse chars syn ≠ .outOfFuel := by
  have halt := (EParser.fuelled (6 * chars.length + 7)).alt ⟨chars, 0, 0, 0, syn, false, [], none⟩ (by
    show 6 * (chars.length - 0) + 7 ≤ _
    omega)
  unfold parse
  cases hres : EParser.parseAlt (6 * chars.length + 7) ⟨chars, 0, 0, 0, syn, false, [], none⟩ with
  | outOfFuel => exact absurd hres halt.fuelled
  | err e => simp
  | ok node p =>
    rw [Parsed.bind_ok]
    split <;> simp

end SlateOS.Ere
