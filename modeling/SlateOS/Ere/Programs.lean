/-
# SlateOS.Ere.Programs -- the shape of compiled programs, and the paths through them

`userspace/ere/src/engine.rs`: a compiled program is the search prefix, the save of where a match begins, the
pattern's own code, the save of where it ends and the instruction that accepts. A configuration is an instruction, a
position and the capture slots, and a path is one step after another, as the instructions say.
-/
import Mathlib.Logic.Relation
import SlateOS.Ere.Regex

namespace SlateOS.Ere

open Relation (ReflTransGen)

/-! ## The code of a pattern -/

/-- An instruction of the pattern proper: it jumps to within the pattern or to its end, and saves no end of the whole
match. -/
def Inst.Inside (lo hi : Nat) : Inst → Prop
  | jmp x => lo ≤ x ∧ x ≤ hi
  | split x y => (lo ≤ x ∧ x ≤ hi) ∧ lo ≤ y ∧ y ≤ hi
  | save n => 2 ≤ n
  | skip | matched => False
  | _ => True

theorem Inst.Inside.mono {lo hi lo' hi' : Nat} {inst : Inst} (h : inst.Inside lo hi) (hlo : lo' ≤ lo) (hhi : hi ≤ hi') :
    inst.Inside lo' hi' := by
  cases inst <;> simp only [Inst.Inside] at h ⊢ <;> omega

/-- Code all of whose instructions are inside. -/
def CodeInside (k : List Inst) (lo hi : Nat) : Prop := ∀ inst ∈ k, inst.Inside lo hi

namespace CodeInside

variable {k k' : List Inst} {lo hi lo' hi' : Nat}

theorem mono (h : CodeInside k lo hi) (hlo : lo' ≤ lo) (hhi : hi ≤ hi') : CodeInside k lo' hi' :=
  fun inst hinst => (h inst hinst).mono hlo hhi

theorem nil : CodeInside [] lo hi := fun _ hinst => absurd hinst List.not_mem_nil

theorem append (h : CodeInside k lo hi) (h' : CodeInside k' lo hi) : CodeInside (k ++ k') lo hi :=
  fun inst hinst => (List.mem_append.mp hinst).elim (h inst) (h' inst)

theorem cons {inst : Inst} (hinst : inst.Inside lo hi) (h : CodeInside k lo hi) : CodeInside (inst :: k) lo hi :=
  fun inst' hinst' => (List.mem_cons.mp hinst').elim (fun heq => heq ▸ hinst) (h inst')

theorem copies {body : Nat → List Inst} {len : Nat} (h : ∀ pos, CodeInside (body pos) pos (pos + len)) (n pos : Nat) :
    CodeInside (copies body len n pos) pos (pos + n * len) := by
  induction n generalizing pos with
  | zero => exact nil
  | succ n ih =>
    have hrest := ih (pos + len)
    rw [Nat.succ_mul]
    exact ((h pos).mono (Nat.le_refl _) (by omega)).append (hrest.mono (by omega) (by omega))

theorem optionalCopies {body : Nat → List Inst} {len : Nat} (h : ∀ pos, CodeInside (body pos) pos (pos + len))
    {out n pos : Nat} (hout : pos + n * (len + 1) ≤ out) : CodeInside (optionalCopies body len out n pos) pos out := by
  induction n generalizing pos with
  | zero => exact nil
  | succ n ih =>
    rw [Nat.succ_mul] at hout
    refine cons ⟨⟨?_, ?_⟩, ?_, Nat.le_refl _⟩ (((h (pos + 1)).mono (by omega) (by omega)).append ?_)
    · omega
    · omega
    · omega
    · exact (ih (by omega)).mono (by omega) (Nat.le_refl _)

variable [CharData] {ci : Bool}

theorem parts {nodes : List Node} (h : ∀ node ∈ nodes, ∀ pos, CodeInside (code ci node pos) pos (pos + size node))
    (pos : Nat) : CodeInside (codeParts ci nodes pos) pos (pos + sizeParts nodes) := by
  induction nodes generalizing pos with
  | nil => exact nil
  | cons part rest ih =>
    have hrest := ih (fun node hnode => h node (List.mem_cons_of_mem _ hnode)) (pos + size part)
    have hpart := h part List.mem_cons_self pos
    rw [codeParts, sizeParts]
    exact (hpart.mono (Nat.le_refl _) (by omega)).append (hrest.mono (by omega) (by omega))

theorem branches {fin : Nat} {nodes : List Node}
    (h : ∀ node ∈ nodes, ∀ pos, CodeInside (code ci node pos) pos (pos + size node)) {pos : Nat}
    (hfin : pos + sizeBranches nodes ≤ fin) : CodeInside (codeBranches ci fin nodes pos) pos fin := by
  induction nodes generalizing pos with
  | nil => exact nil
  | cons branch rest ih =>
    have hbranch := h branch List.mem_cons_self
    rcases rest with - | ⟨next, rest⟩
    · rw [codeBranches]
      exact (hbranch pos).mono (Nat.le_refl _) hfin
    · rw [sizeBranches_cons] at hfin
      have hrest := @ih (fun node hnode => h node (List.mem_cons_of_mem _ hnode)) (pos + size branch + 2) (by omega)
      rw [codeBranches_cons]
      have hsplit : (Inst.split (pos + 1) (pos + size branch + 2)).Inside pos fin := ⟨⟨by omega, by omega⟩, by omega, by omega⟩
      have hjmp : (Inst.jmp fin).Inside pos fin := ⟨by omega, Nat.le_refl _⟩
      refine cons hsplit (append ?_ (hrest.mono (by omega) (Nat.le_refl _)))
      exact append ((hbranch (pos + 1)).mono (by omega) (by omega)) (cons hjmp nil)

end CodeInside

theorem groupsAll_mem {nodes : List Node} {node : Node} (h : node ∈ nodes) : ∀ idx ∈ groups node, idx ∈ groupsAll nodes := by
  induction nodes with
  | nil => cases h
  | cons first rest ih =>
    intro idx hidx
    rw [groupsAll, List.mem_append]
    rcases List.mem_cons.mp h with rfl | h
    · exact .inl hidx
    · exact .inr (ih h idx hidx)

/-- **What a node compiles to stays inside its own code**, and saves its groups only. -/
theorem code_inside [CharData] (ci : Bool) {node : Node} (h : Numbered node) (pos : Nat) :
    CodeInside (code ci node pos) pos (pos + size node) := by
  induction node using Node.induct generalizing pos with
  | empty => exact .nil
  | group idx inner ih =>
    have hinner := ih (fun idx hidx => h idx (List.mem_cons_of_mem _ hidx)) (pos + 1)
    have hidx := h idx List.mem_cons_self
    rw [code, size]
    refine .cons (show 2 ≤ 2 * idx by omega) ((hinner.mono ?_ ?_).append (.cons (show 2 ≤ 2 * idx + 1 by omega) .nil)) <;>
      omega
  | concat parts ih =>
    exact .parts (fun node hnode => ih node hnode fun idx hidx => h idx (groupsAll_mem hnode idx hidx)) pos
  | alt branches ih =>
    exact .branches (fun node hnode => ih node hnode fun idx hidx => h idx (groupsAll_mem hnode idx hidx)) (Nat.le_refl _)
  | repeated inner min max ih =>
    have hinner := ih h
    have hmandatory := CodeInside.copies hinner min pos
    rcases max with - | max
    · rw [code, size]
      have hbody := hinner (pos + min * size inner + 1)
      generalize hl : pos + min * size inner = l at hmandatory hbody ⊢
      have hend : pos + (min * size inner + (size inner + 2)) = l + size inner + 2 := by omega
      have hsplit : (Inst.split (l + 1) (l + size inner + 2)).Inside l (l + size inner + 2) :=
        ⟨⟨by omega, by omega⟩, by omega, by omega⟩
      have hjmp : (Inst.jmp l).Inside l (l + size inner + 2) := ⟨by omega, by omega⟩
      have hloop : CodeInside (.split (l + 1) (l + size inner + 2) :: (code ci inner (l + 1) ++ [.jmp l])) l
          (l + size inner + 2) := .cons hsplit ((hbody.mono (by omega) (by omega)).append (.cons hjmp .nil))
      rw [hend]
      exact (hmandatory.mono (Nat.le_refl _) (by omega)).append (hloop.mono (by omega) (Nat.le_refl _))
    · rw [code, size]
      refine (hmandatory.mono (Nat.le_refl _) (by omega)).append ?_
      refine (CodeInside.optionalCopies hinner (Nat.le_refl _)).mono (by omega) (by omega)
  | _ => exact .cons trivial .nil

/-! ## Compiled patterns -/

/-- A compiled pattern, with the options its callers set. -/
inductive Regex.Built [CharData] : Regex → Prop
  | compiled {chars : List Ch} {ci : Bool} {syn : Syntax} {re : Regex} {warnings : List Warning} :
    compilePattern chars ci syn = .ok re warnings → Built re
  | newlineAnchor {re : Regex} (on : Bool) : Built re → Built (re.withNewlineAnchor on)
  | byteChars {re : Regex} (on : Bool) : Built re → Built (re.withByteChars on)

/-- A program of the compiler's shape, and the prefilter it has if it has one. -/
structure Regex.WellFormed [CharData] (re : Regex) : Prop where
  entry : re.entry = 3
  program : ∃ body, re.prog = [.split 3 1, .skip, .jmp 0, .save 0] ++ (body ++ [.save 1, .matched]) ∧
    re.hasBackref = body.any Inst.isBackref ∧ CodeInside body 4 (4 + body.length)
  prefilter : ∀ pf, re.prefilter = some pf → Prefilter.of re.prog 3 re.ci = some pf

namespace Regex

variable [CharData] {re : Regex}

/-- **Every compiled pattern is well formed**, whatever options are set on it. -/
theorem Built.wellFormed (h : Built re) : WellFormed re := by
  induction h with
  | newlineAnchor on _ ih | byteChars on _ ih => exact ⟨ih.entry, ih.program, ih.prefilter⟩
  | @compiled chars ci syn re warnings h =>
    unfold compilePattern at h
    have hnumbered := numbered_parse chars syn
    split at h
    · cases h
    · cases h
    next node p hparse =>
      dsimp only at h
      split at h
      · cases h
      next hover =>
        have htree := compileTree_eq ci node (by simpa using hover)
        have hinside := code_inside ci (hnumbered node p hparse) 4
        cases h
        refine ⟨rfl, ⟨code ci node 4, ?_, ?_, ?_⟩, fun pf hpf => hpf⟩
        · rw [htree]
        · rw [htree]
        · rwa [length_code]

/-- The same pattern without its prefilter. -/
def unfiltered (re : Regex) : Regex := { re with prefilter := none }

theorem WellFormed.unfiltered (h : WellFormed re) : WellFormed re.unfiltered :=
  ⟨h.entry, h.program, fun _ hpf => by cases hpf⟩

/-! ### Which instruction is where -/

/-- What an instruction of a program of the compiler's shape is, by its address. -/
inductive At (re : Regex) : Nat → Inst → Prop
  | seed : At re 0 (.split 3 1)
  | skip : At re 1 .skip
  | again : At re 2 (.jmp 0)
  | starts : At re 3 (.save 0)
  | body {pc : Nat} {inst : Inst} : 4 ≤ pc → pc + 2 < re.prog.length → inst.Inside 4 (re.prog.length - 2) → At re pc inst
  | ends {pc : Nat} : 4 ≤ pc → pc + 2 = re.prog.length → At re pc (.save 1)
  | accepts {pc : Nat} : 5 ≤ pc → pc + 1 = re.prog.length → At re pc .matched

namespace WellFormed

theorem length_ge (h : WellFormed re) : 6 ≤ re.prog.length := by
  obtain ⟨body, hprog, -, -⟩ := h.program
  simp [hprog]

theorem at_of_getElem? (h : WellFormed re) {pc : Nat} {inst : Inst} (hpc : re.prog[pc]? = some inst) : At re pc inst := by
  obtain ⟨body, hprog, -, hinside⟩ := h.program
  have hlen : re.prog.length = body.length + 6 := by simp [hprog]
  rw [hprog] at hpc
  rcases pc with - | - | - | - | pc
  · cases hpc
    exact .seed
  · cases hpc
    exact .skip
  · cases hpc
    exact .again
  · cases hpc
    exact .starts
  · have htail : (body ++ [.save 1, .matched])[pc]? = some inst := by simpa using hpc
    rcases Nat.lt_or_ge pc body.length with hlt | hge
    · rw [List.getElem?_append_left hlt] at htail
      have hmem := hinside inst (List.mem_of_getElem? htail)
      refine .body (by omega) (by omega) (hmem.mono (Nat.le_refl _) (by omega))
    · rw [List.getElem?_append_right hge] at htail
      rcases hrest : pc - body.length with - | - | n
      · rw [hrest] at htail
        cases htail
        exact .ends (by omega) (by omega)
      · rw [hrest] at htail
        cases htail
        exact .accepts (by omega) (by omega)
      · rw [hrest] at htail
        cases htail

theorem searching (h : WellFormed re) : re.prog[0]? = some (.split 3 1) ∧ re.prog[1]? = some .skip ∧ re.prog[2]? = some (.jmp 0) ∧
    re.prog[3]? = some (.save 0) := by
  obtain ⟨body, hprog, -, -⟩ := h.program
  simp [hprog]

theorem no_backref (h : WellFormed re) (hback : re.hasBackref = false) {pc n : Nat} : re.prog[pc]? ≠ some (.backref n) := by
  intro hpc
  obtain ⟨body, hprog, hany, -⟩ := h.program
  rw [hany, List.any_eq_false] at hback
  have hmem := List.mem_of_getElem? hpc
  rw [hprog] at hmem
  have hbody : Inst.backref n ∈ body := by simpa using hmem
  exact hback _ hbody rfl

/-- An accepting instruction is the last. -/
theorem pc_of_accepted (h : WellFormed re) {pc : Nat} (hpc : re.prog[pc]? = some .matched) : pc + 1 = re.prog.length := by
  cases h.at_of_getElem? hpc with
  | body _ _ hinside => exact absurd hinside id
  | accepts _ heq => exact heq

/-- From the pattern's entry on, jumps and splits lead into the pattern or to its end. -/
theorem pc_of_target (h : WellFormed re) {pc target : Nat} (hpc : 3 ≤ pc)
    (htarget : re.prog[pc]? = some (.jmp target) ∨ ∃ x y, re.prog[pc]? = some (.split x y) ∧ (target = x ∨ target = y)) :
    4 ≤ target ∧ target + 2 ≤ re.prog.length ∧ 4 ≤ pc := by
  have hlen := h.length_ge
  rcases htarget with hjmp | ⟨x, y, hsplit, htarget⟩
  · cases h.at_of_getElem? hjmp with
    | again => omega
    | body hge _ hinside =>
      obtain ⟨hlo, hhi⟩ := hinside
      omega
  · cases h.at_of_getElem? hsplit with
    | seed => omega
    | body hge _ hinside =>
      obtain ⟨⟨hxlo, hxhi⟩, hylo, hyhi⟩ := hinside
      omega

/-- The pattern's entry saves where the match begins, its body no end of the whole match, and what follows the body
where the match ends. -/
theorem pc_of_save (h : WellFormed re) {pc n : Nat} (hpc : 3 ≤ pc) (hsave : re.prog[pc]? = some (.save n)) :
    ((pc = 3 ∧ n = 0) ∨ 4 ≤ pc ∧ 1 ≤ n ∧ (n = 1 ∨ pc + 2 < re.prog.length)) ∧ pc + 1 < re.prog.length := by
  have hlen := h.length_ge
  cases h.at_of_getElem? hsave with
  | starts => exact ⟨.inl ⟨rfl, rfl⟩, by omega⟩
  | body hge hlt hinside =>
    have hn : 2 ≤ n := hinside
    exact ⟨.inr ⟨hge, by omega, .inr hlt⟩, by omega⟩
  | ends hge heq => exact ⟨.inr ⟨hge, Nat.le_refl _, .inl rfl⟩, by omega⟩

/-- From the pattern's entry on, what neither saves nor accepts is in its body. -/
theorem pc_of_other (h : WellFormed re) {pc : Nat} (hlt : pc < re.prog.length) (hpc : 3 ≤ pc)
    (hsave : ∀ n, re.prog[pc]? ≠ some (.save n)) (haccepts : re.prog[pc]? ≠ some .matched) :
    4 ≤ pc ∧ pc + 2 < re.prog.length := by
  obtain ⟨inst, hinst⟩ : ∃ inst, re.prog[pc]? = some inst := ⟨_, List.getElem?_eq_getElem hlt⟩
  cases h.at_of_getElem? hinst with
  | body hge hlt _ => exact ⟨hge, hlt⟩
  | _ => simp_all

end WellFormed

end Regex

/-! ## Paths -/

/-- The capture slots: where each group last began and ended, the whole match first. -/
abbrev Slots := List (Option Nat)

/-- The text a group captured, when both its ends are saved and in order. -/
def groupSpan (caps : Slots) (n : Nat) : Option (Nat × Nat) :=
  match caps[2 * n]?.join, caps[2 * n + 1]?.join with
  | some s, some e => if s ≤ e then some (s, e) else none
  | _, _ => none

/-- An instruction, a position and the capture slots. -/
structure Config where
  pc : Nat
  sp : Nat
  caps : Slots
  deriving DecidableEq

namespace Regex

variable [CharData] (re : Regex) (input : List Ch) (bol : StartOfLine)

/-- The comparison of `backref_step`. -/
def repeats (s sp len : Nat) : Bool :=
  (List.range len).all fun k =>
    match input[s + k]?, input[sp + k]? with
    | some w, some c => charEq (some c) w re.ci
    | _, _ => false

/-- Where a backreference leads from a position, if it matches there. -/
def backrefEnd (caps : Slots) (sp n : Nat) : Option Nat :=
  match groupSpan caps n with
  | none => none
  | some (s, e) =>
    if input.length < e ∨ input.length < sp + (e - s) then none
    else if re.repeats input s sp (e - s) then some (sp + (e - s))
    else none

/-- What a configuration can step to, the first choice in front. -/
def nexts (c : Config) : List Config :=
  match re.prog[c.pc]? with
  | none => []
  | some inst =>
    match inst with
    | .char _ | .any | .skip | .cls _ =>
      if takes inst input[c.sp]? re.ci re.bytes then [⟨c.pc + 1, c.sp + 1, c.caps⟩] else []
    | .matched => []
    | .jmp x => [⟨x, c.sp, c.caps⟩]
    | .split x y => [⟨x, c.sp, c.caps⟩, ⟨y, c.sp, c.caps⟩]
    | .save n => [⟨c.pc + 1, c.sp, c.caps.set n (some c.sp)⟩]
    | .assertStart | .assertEnd | .assertBufStart | .assertBufEnd | .assertWord _ =>
      if re.assertHolds input bol inst c.sp then [⟨c.pc + 1, c.sp, c.caps⟩] else []
    | .backref n =>
      match re.backrefEnd input c.caps c.sp n with
      | some sp => [⟨c.pc + 1, sp, c.caps⟩]
      | none => []

/-- One step of a path. -/
def Step (c c' : Config) : Prop := c' ∈ re.nexts input bol c

/-- Where the paths of a pattern begin at a position. -/
def start (nslots s : Nat) : Config := ⟨re.entry, s, List.replicate nslots none⟩

/-- The paths of a pattern that begin at a position lead to a configuration. -/
def Reaches (nslots s : Nat) (c : Config) : Prop := ReflTransGen (re.Step input bol) (re.start nslots s) c

/-- An accepting configuration. -/
def Accepts (c : Config) : Prop := re.prog[c.pc]? = some .matched

end Regex

/-- What holds of a configuration that the paths beginning at `s` come to. -/
structure Config.Since (re : Regex) (input : List Ch) (s : Nat) (c : Config) : Prop where
  pc_ge : 3 ≤ c.pc
  pc_lt : c.pc < re.prog.length
  sp_ge : s ≤ c.sp
  sp_le : c.sp ≤ input.length
  slots : 2 ≤ c.caps.length
  starts : c.pc = 3 → c.sp = s
  begins : 4 ≤ c.pc → c.caps[0]? = some (some s)
  ends : re.Accepts c → c.caps[1]? = some (some c.sp)

namespace Regex

variable [CharData] {re : Regex} {input : List Ch} {bol : StartOfLine} {s : Nat} {c c' : Config}

theorem sp_lt_of_takes {inst : Inst} {sp : Nat} {ci bytes : Bool} (h : takes inst input[sp]? ci bytes = true) :
    sp < input.length := by
  by_contra hge
  rw [List.getElem?_eq_none (Nat.le_of_not_lt hge), not_takes_none] at h
  cases h

theorem backrefEnd_le {caps : Slots} {sp n sp' : Nat} (h : re.backrefEnd input caps sp n = some sp') :
    sp ≤ sp' ∧ sp' ≤ input.length := by
  unfold backrefEnd at h
  split at h
  · cases h
  · split at h
    · cases h
    · split at h
      · cases h
        omega
      · cases h

/-- A step of the pattern proper goes on to the next instruction with the slots as they are, or is a jump, a split or
a save. -/
theorem Step.cases (h : re.Step input bol c c') :
    (c'.pc = c.pc + 1 ∧ c.sp ≤ c'.sp ∧ (c.sp ≤ input.length → c'.sp ≤ input.length) ∧ c'.caps = c.caps ∧
      ∀ n, re.prog[c.pc]? ≠ some (.save n)) ∨
    (c'.sp = c.sp ∧ c'.caps = c.caps ∧
      (re.prog[c.pc]? = some (.jmp c'.pc) ∨ ∃ x y, re.prog[c.pc]? = some (.split x y) ∧ (c'.pc = x ∨ c'.pc = y))) ∨
    ∃ n, re.prog[c.pc]? = some (.save n) ∧ c' = ⟨c.pc + 1, c.sp, c.caps.set n (some c.sp)⟩ := by
  unfold Step nexts at h
  split at h
  · cases h
  next inst hinst =>
    cases inst with
    | matched => cases h
    | jmp x =>
      cases List.mem_singleton.mp h
      exact .inr (.inl ⟨rfl, rfl, .inl hinst⟩)
    | split x y =>
      rcases List.mem_cons.mp h with rfl | h
      · exact .inr (.inl ⟨rfl, rfl, .inr ⟨x, y, hinst, .inl rfl⟩⟩)
      · cases List.mem_singleton.mp h
        exact .inr (.inl ⟨rfl, rfl, .inr ⟨x, y, hinst, .inr rfl⟩⟩)
    | save n =>
      cases List.mem_singleton.mp h
      exact .inr (.inr ⟨n, hinst, rfl⟩)
    | backref n =>
      dsimp only at h
      split at h
      next sp hsp =>
        obtain ⟨hge, hle⟩ := backrefEnd_le hsp
        cases List.mem_singleton.mp h
        exact .inl ⟨rfl, hge, fun _ => hle, rfl, by simp [hinst]⟩
      · cases h
    | assertStart | assertEnd | assertBufStart | assertBufEnd | assertWord _ =>
      dsimp only at h
      split at h
      · cases List.mem_singleton.mp h
        exact .inl ⟨rfl, Nat.le_refl _, fun hle => hle, rfl, by simp [hinst]⟩
      · cases h
    | char _ | any | skip | cls _ =>
      dsimp only at h
      split at h
      next htakes =>
        have hlt := sp_lt_of_takes htakes
        cases List.mem_singleton.mp h
        exact .inl ⟨rfl, Nat.le_succ _, fun _ => hlt, rfl, by simp [hinst]⟩
      · cases h

theorem Step.not_accepts (h : re.Step input bol c c') : ¬ re.Accepts c := by
  intro haccepts
  unfold Accepts at haccepts
  simp [Step, nexts, haccepts] at h

/-- **What a step preserves** of the paths that begin at a position. -/
theorem WellFormed.since_step (h : WellFormed re) (hc : c.Since re input s) (hstep : re.Step input bol c c') :
    c'.Since re input s := by
  have hlen := h.length_ge
  have hpc := hc.pc_ge
  -- only the step from the save of the end accepts, so where another instruction leads nothing is owed about the end
  have hends : c'.pc + 1 ≠ re.prog.length → re.Accepts c' → c'.caps[1]? = some (some c'.sp) :=
    fun hne haccepts => absurd (h.pc_of_accepted haccepts) hne
  rcases Step.cases hstep with ⟨hnext, hge, hle, hcaps, hsave⟩ | ⟨hsp, hcaps, htarget⟩ | ⟨n, hsave, rfl⟩
  · -- one that goes on neither saves nor accepts, so it stands in the body
    obtain ⟨hge4, hlt⟩ := h.pc_of_other hc.pc_lt hpc hsave hstep.not_accepts
    refine ⟨by omega, by omega, Nat.le_trans hc.sp_ge hge, hle hc.sp_le, hcaps ▸ hc.slots, by omega, fun _ => ?_,
      hends (by omega)⟩
    rw [hcaps]
    exact hc.begins hge4
  · obtain ⟨hge4, hle, hgo⟩ := h.pc_of_target hpc htarget
    refine ⟨by omega, by omega, hsp ▸ hc.sp_ge, hsp ▸ hc.sp_le, hcaps ▸ hc.slots, by omega, fun _ => ?_, hends (by omega)⟩
    rw [hcaps]
    exact hc.begins hgo
  · have hslots := hc.slots
    obtain ⟨hsaved, hlt⟩ := h.pc_of_save hpc hsave
    refine ⟨by simp; omega, by simpa using hlt, hc.sp_ge, hc.sp_le, by simpa using hslots, by simp; omega, fun _ => ?_, ?_⟩
    · rcases hsaved with ⟨hpc, rfl⟩ | ⟨hpc, hn, -⟩
      · rw [hc.starts hpc, List.getElem?_set_self (by omega)]
      · have hzero : n ≠ 0 := by omega
        rw [List.getElem?_set_ne hzero]
        exact hc.begins hpc
    · intro haccepts
      have hlast := h.pc_of_accepted haccepts
      simp only at hlast
      obtain rfl : n = 1 := by omega
      exact List.getElem?_set_self (by omega)

theorem WellFormed.since_start (h : WellFormed re) {nslots : Nat} (hslots : 2 ≤ nslots) (hs : s ≤ input.length) :
    (re.start nslots s).Since re input s := by
  have hlen := h.length_ge
  have hentry := h.entry
  refine ⟨by simp [start, hentry], by simp [start, hentry]; omega, Nat.le_refl _, hs, by simpa [start] using hslots,
    fun _ => rfl, fun hpc => ?_, fun haccepts => ?_⟩
  · simp [start, hentry] at hpc
  · have hlast := h.pc_of_accepted haccepts
    simp only [start, hentry] at hlast
    omega

/-- **What the paths that begin at a position come to**: they go on from it, within the subject, and keep where they
began and where they ended. -/
theorem WellFormed.since_of_reaches (h : WellFormed re) {nslots : Nat} (hslots : 2 ≤ nslots) (hs : s ≤ input.length)
    (hreach : re.Reaches input bol nslots s c) : c.Since re input s := by
  induction hreach with
  | refl => exact h.since_start hslots hs
  | tail _ hstep ih => exact h.since_step ih hstep

end Regex

end SlateOS.Ere
