/-
# SlateOS.Ere.Expansion -- how often the loops that expand repetitions go round

The loops of `compile_repeat` in `userspace/ere/src/engine.rs` nest and multiply, and only the growth of the program
stops them. `laps` is what they do, one record an iteration, at each level of nesting. An iteration that emits
nothing is one that copies a body of no instructions: an empty expression, as `a{0}` is parsed to, or an exact
repetition of one. `stalls` says of a tree whether such an iteration is reached before the program is full, and the
loops make progress, and are bounded by it, exactly when it is not.
-/
import SlateOS.Ere.Compile
import SlateOS.Ere.Parser

namespace SlateOS.Ere

/-! ## The iterations -/

/-- One iteration of a loop of `compile_repeat`: the compiler as it starts, and as it leaves it. -/
structure Lap where
  before : Compiler
  after : Compiler

namespace Lap

/-- It appended an instruction, or set the flag. -/
def Advances (lap : Lap) : Prop := lap.before.prog.length < lap.after.prog.length ∨ lap.after.isOver = true

end Lap

/-- The iterations of a loop that stops when it finds the flag set, and goes round with `round` otherwise. -/
def loopLaps (round : Compiler → Compiler) : Nat → Compiler → List Lap
  | 0, _ => []
  | n + 1, c => if c.isOver then [⟨c, c⟩] else ⟨c, round c⟩ :: loopLaps round n (round c)

/-- The compiler such a loop leaves. -/
def loopEnd (round : Compiler → Compiler) : Nat → Compiler → Compiler
  | 0, c => c
  | n + 1, c => if c.isOver then c else loopEnd round n (round c)

/-- One round of the loop over the optional copies. -/
def optionalCopy (body : Compiler → Compiler) (c : Compiler) : Compiler :=
  (body (c.emit (.split 0 0))).patch c.prog.length (.split (c.emit (.split 0 0)).prog.length 0)

/-- Both loops, the second only where the function has not returned from the first. -/
def repeatLaps (body : Compiler → Compiler) (min : Nat) (max : Option Nat) (c : Compiler) : List Lap :=
  loopLaps body min c ++
    match Compiler.mandatory body min c, max with
    | (made, false), some max => loopLaps (optionalCopy body) (max - min) made
    | _, _ => []

/-- Where iterations that do not stop at once start. -/
def startsOf (laps : List Lap) : List Compiler := (laps.filter fun lap => !lap.before.isOver).map Lap.before

/-- The compilers that `compile_repeat` compiles its body with. -/
def bodyStarts (body : Compiler → Compiler) (min : Nat) (max : Option Nat) (c : Compiler) : List Compiler :=
  startsOf (loopLaps body min c) ++
    match Compiler.mandatory body min c, max with
    | (made, false), none => [made.emit (.split 0 0)]
    | (made, false), some max =>
      (startsOf (loopLaps (optionalCopy body) (max - min) made)).map fun c => c.emit (.split 0 0)
    | (_, true), _ => []

section

variable [CharData]

mutual

/-- The iterations made at one level of nesting while a node is compiled. -/
def laps (level : Nat) (node : Node) (c : Compiler) : List Lap :=
  if c.isOver then []
  else
    match node with
    | .group idx inner => laps level inner (c.emit (.save (2 * idx)))
    | .concat parts => lapsParts level parts c
    | .alt branches => lapsBranches level branches c
    | .repeated inner min max =>
      match level with
      | 0 => repeatLaps (compile inner) min max c
      | level + 1 => (bodyStarts (compile inner) min max c).flatMap (laps level inner)
    | _ => []

def lapsParts (level : Nat) : List Node → Compiler → List Lap
  | [], _ => []
  | part :: rest, c => laps level part c ++ lapsParts level rest (compile part c)

def lapsBranches (level : Nat) : List Node → Compiler → List Lap
  | [], _ => []
  | [branch], c => laps level branch c
  | branch :: rest, c =>
    laps level branch (c.emit (.split 0 0)) ++
      lapsBranches level rest
        (((compile branch (c.emit (.split 0 0))).emit (.jmp 0)).patch c.prog.length
          (.split (c.emit (.split 0 0)).prog.length ((compile branch (c.emit (.split 0 0))).emit (.jmp 0)).prog.length))

end

end

/-! ## When they make none -/

mutual

/-- From the address on, the loops reach the copying of a body of no instructions before the program is full. -/
def stalls : Node → Nat → Bool
  | .group _ inner, pos => stalls inner (pos + 1)
  | .concat parts, pos => stallsParts parts pos
  | .alt branches, pos => stallsBranches branches pos
  | .repeated inner min max, pos =>
    if 1 ≤ min then decide (size inner = 0 ∧ pos ≤ maxProg) || stalls inner pos
    else max != some 0 && stalls inner (pos + 1)
  | _, _ => false

def stallsParts : List Node → Nat → Bool
  | [], _ => false
  | part :: rest, pos => stalls part pos || stallsParts rest (pos + size part)

def stallsBranches : List Node → Nat → Bool
  | [], _ => false
  | [branch], pos => stalls branch pos
  | branch :: rest, pos => stalls branch (pos + 1) || stallsBranches rest (pos + size branch + 2)

end

theorem stallsBranches_cons (branch next : Node) (rest : List Node) (pos : Nat) :
    stallsBranches (branch :: next :: rest) pos =
      (stalls branch (pos + 1) || stallsBranches (next :: rest) (pos + size branch + 2)) := by
  rw [stallsBranches]
  simp

/-- A loop that stalls late would stall early, and it stalls while there is room. -/
theorem stalls_early (node : Node) {pos pos' : Nat} (h : stalls node pos = true) (hle : pos' ≤ pos) :
    stalls node pos' = true ∧ pos ≤ maxProg := by
  induction node using Node.induct generalizing pos pos' with
  | group idx inner ih =>
    rw [stalls] at h ⊢
    have hinner := ih h (Nat.succ_le_succ hle)
    exact ⟨hinner.1, by omega⟩
  | concat parts ih =>
    rw [stalls] at h ⊢
    induction parts generalizing pos pos' with
    | nil => cases h
    | cons part rest ihrest =>
      rw [stallsParts, Bool.or_eq_true] at h ⊢
      rcases h with h | h
      · have hpart := ih part (by simp) h hle
        exact ⟨.inl hpart.1, hpart.2⟩
      · have hrest := ihrest (fun p hp => ih p (List.mem_cons_of_mem _ hp)) h (Nat.add_le_add_right hle (size part))
        exact ⟨.inr hrest.1, by omega⟩
  | alt branches ih =>
    rw [stalls] at h ⊢
    induction branches generalizing pos pos' with
    | nil => cases h
    | cons branch rest ihrest =>
      have hbranch := fun {pos pos'} => @ih branch (by simp) pos pos'
      rcases rest with - | ⟨next, rest⟩
      · exact hbranch h hle
      · rw [stallsBranches_cons, Bool.or_eq_true] at h ⊢
        rcases h with h | h
        · have := hbranch h (Nat.succ_le_succ hle)
          exact ⟨.inl this.1, by omega⟩
        · have hle' : pos' + size branch + 2 ≤ pos + size branch + 2 := by omega
          have hrest := ihrest (fun b hb => ih b (List.mem_cons_of_mem _ hb)) h hle'
          exact ⟨.inr hrest.1, by omega⟩
  | repeated inner min max ih =>
    rw [stalls] at h ⊢
    split at h
    next hmin =>
      rw [if_pos hmin, Bool.or_eq_true]
      rw [Bool.or_eq_true] at h
      rcases h with h | h
      · have h := of_decide_eq_true h
        exact ⟨.inl (decide_eq_true ⟨h.1, by omega⟩), h.2⟩
      · have hinner := ih h hle
        exact ⟨.inr hinner.1, hinner.2⟩
    next hmin =>
      rw [if_neg hmin, Bool.and_eq_true]
      rw [Bool.and_eq_true] at h
      have hinner := ih h.2 (Nat.succ_le_succ hle)
      exact ⟨⟨h.1, hinner.1⟩, by omega⟩
  | _ => cases h

/-! ## Loops -/

variable {ci : Bool} {c c' : Compiler} {k : List Inst} {round : Compiler → Compiler}

/-- Its flag is set, or its program has not outgrown the limit. -/
def Sound (ci : Bool) (c : Compiler) : Prop := c.isOver = true ∨ Ready ci c

/-- Later on: the flag is set, or the program is at least as long. -/
def Follows (ci : Bool) (c c' : Compiler) : Prop :=
  c'.isOver = true ∨ Ready ci c' ∧ c.prog.length ≤ c'.prog.length

theorem Follows.sound (h : Follows ci c c') : Sound ci c' := h.imp_right And.left

theorem Emits.follows (h : Emits k c c') (hc : Ready ci c) : Follows ci c c' := by
  by_cases hfits : c.prog.length + k.length ≤ maxProg
  · obtain ⟨hready, hlen⟩ := h.ready hc hfits
    exact .inr ⟨hready, by omega⟩
  · exact .inl (h.of_not_fits hfits)

/-- What emits something advances. -/
theorem Emits.advances (h : Emits k c c') (hc : Ready ci c) (hk : 0 < k.length) : (Lap.mk c c').Advances := by
  by_cases hfits : c.prog.length + k.length ≤ maxProg
  · obtain ⟨-, hlen⟩ := h.ready hc hfits
    exact .inl (show c.prog.length < c'.prog.length by omega)
  · exact .inr (h.of_not_fits hfits)

/-- An iteration that starts with the flag unset, and neither appends an instruction nor sets the flag. -/
def Lap.Stuck (lap : Lap) : Prop := lap.before.isOver = false ∧ ¬ lap.Advances

theorem loopLaps_of_over (hover : c.isOver = true) (n : Nat) : ∀ lap ∈ loopLaps round n c, lap.before.isOver = true := by
  intro lap hlap
  cases n with
  | zero => cases hlap
  | succ n =>
    rw [loopLaps, if_pos hover, List.mem_singleton] at hlap
    rwa [hlap]

/-- An iteration that finds the flag unset starts no earlier than the loop, and goes round once. -/
theorem loopLaps_spec (hround : ∀ c, Ready ci c → Follows ci c (round c)) (n : Nat) (hc : Ready ci c) {lap : Lap}
    (hlap : lap ∈ loopLaps round n c) (hunset : lap.before.isOver = false) :
    Ready ci lap.before ∧ c.prog.length ≤ lap.before.prog.length ∧ lap.after = round lap.before := by
  induction n generalizing c with
  | zero => cases hlap
  | succ n ih =>
    have hstart : ¬ c.isOver = true := by simp [hc.unset]
    rw [loopLaps, if_neg hstart] at hlap
    rcases List.mem_cons.mp hlap with rfl | hlap
    · exact ⟨hc, Nat.le_refl _, rfl⟩
    · rcases hround c hc with hover | ⟨hready, hle⟩
      · rw [loopLaps_of_over hover n lap hlap] at hunset
        cases hunset
      · obtain ⟨hbefore, hpos, hafter⟩ := ih hready hlap
        exact ⟨hbefore, Nat.le_trans hle hpos, hafter⟩

theorem mem_startsOf {laps : List Lap} {s : Compiler} :
    s ∈ startsOf laps ↔ ∃ lap ∈ laps, lap.before.isOver = false ∧ lap.before = s := by
  simp [startsOf, and_assoc]

/-- Where the iterations of a loop start, its own start among them. -/
theorem startsOf_loopLaps (hround : ∀ c, Ready ci c → Follows ci c (round c)) (n : Nat) (hc : Ready ci c)
    {s : Compiler} (hs : s ∈ startsOf (loopLaps round n c)) : Ready ci s ∧ c.prog.length ≤ s.prog.length := by
  obtain ⟨lap, hlap, hunset, rfl⟩ := mem_startsOf.mp hs
  obtain ⟨hready, hpos, -⟩ := loopLaps_spec hround n hc hlap hunset
  exact ⟨hready, hpos⟩

theorem start_mem (n : Nat) (hc : Ready ci c) : c ∈ startsOf (loopLaps round (n + 1) c) := by
  have hstart : ¬ c.isOver = true := by simp [hc.unset]
  refine mem_startsOf.mpr ⟨⟨c, round c⟩, ?_, hc.unset, rfl⟩
  rw [loopLaps, if_neg hstart]
  exact List.mem_cons_self

theorem startsOf_of_over (hover : c.isOver = true) (n : Nat) : startsOf (loopLaps round n c) = [] := by
  refine List.eq_nil_iff_forall_not_mem.mpr fun s hs => ?_
  obtain ⟨lap, hlap, hunset, -⟩ := mem_startsOf.mp hs
  rw [loopLaps_of_over hover n lap hlap] at hunset
  cases hunset

/-! ## Repetitions -/

namespace Renders

variable {body : Nat → List Inst} {step : Compiler → Compiler} {len : Nat}

theorem follows (h : Renders ci body step) (c : Compiler) (hc : Ready ci c) : Follows ci c (step c) :=
  (h.emits c hc).follows hc

theorem emits_optionalCopy (h : Renders ci body step) (hc : Ready ci c) :
    Emits (.split (c.prog.length + 1) 0 :: body (c.prog.length + 1)) c (optionalCopy step c) := h.emits_copy hc

/-- An optional copy always advances: its split does. -/
theorem not_stuck_optional (h : Renders ci body step) (n : Nat) (hc : Sound ci c) :
    ∀ lap ∈ loopLaps (optionalCopy step) n c, ¬ lap.Stuck := by
  rintro ⟨before, after⟩ hlap ⟨hunset, hstuck⟩
  rcases hc with hover | hc
  · rw [loopLaps_of_over hover n _ hlap] at hunset
    cases hunset
  · obtain ⟨hready, -, hafter⟩ := loopLaps_spec (fun c hc => (h.emits_optionalCopy hc).follows hc) n hc hlap hunset
    have hemits := h.emits_optionalCopy hready
    rw [← hafter] at hemits
    exact hstuck (hemits.advances hready (Nat.succ_pos _))

theorem sound_mandatory (h : Renders ci body step) (hlen : ∀ pos, (body pos).length = len) (min : Nat)
    (hc : Ready ci c) : Follows ci c (Compiler.mandatory step min c).1 :=
  (h.emits_mandatory hlen min hc).follows hc

/-- **Both loops get stuck exactly over a body of no instructions**, of which a copy is mandatory. -/
theorem stuck_repeatLaps (h : Renders ci body step) (hlen : ∀ pos, (body pos).length = len) (min : Nat)
    (max : Option Nat) (hc : Ready ci c) :
    (∃ lap ∈ repeatLaps step min max c, lap.Stuck) ↔ 1 ≤ min ∧ len = 0 := by
  constructor
  · rintro ⟨lap, hlap, hstuck⟩
    unfold repeatLaps at hlap
    rcases List.mem_append.mp hlap with hlap | hlap
    · obtain ⟨hready, -, hafter⟩ := loopLaps_spec h.follows min hc hlap hstuck.1
      refine ⟨Nat.one_le_iff_ne_zero.mpr (by rintro rfl; cases hlap), ?_⟩
      by_contra hne
      have hemits := h.emits lap.before hready
      rw [← hafter] at hemits
      exact hstuck.2 (hemits.advances hready (by rw [hlen]; omega))
    · have hmade := (h.sound_mandatory hlen min hc).sound
      split at hlap
      next made max hmand _ =>
        rw [hmand] at hmade
        exact absurd hstuck (h.not_stuck_optional _ hmade lap hlap)
      next => cases hlap
  · rintro ⟨hmin, rfl⟩
    obtain ⟨n, rfl⟩ := Nat.exists_eq_add_of_le' hmin
    have hstart : ¬ c.isOver = true := by simp [hc.unset]
    have hnone : body c.prog.length = [] := List.eq_nil_of_length_eq_zero (hlen _)
    have hsame : step c = c := by
      have hemits := h.emits c hc
      rw [hnone] at hemits
      rw [hemits.of_fits (by simpa using hc.room)]
      simp
    refine ⟨⟨c, c⟩, ?_, hc.unset, by simp [Lap.Advances, hc.unset]⟩
    unfold repeatLaps
    rw [loopLaps, if_neg hstart, hsame]
    exact List.mem_append_left _ List.mem_cons_self

/-- The body is first compiled at the start, or behind a split when no copy is mandatory. -/
theorem le_bodyStarts (h : Renders ci body step) (hlen : ∀ pos, (body pos).length = len) (min : Nat)
    (max : Option Nat) (hc : Ready ci c) {s : Compiler} (hs : s ∈ bodyStarts step min max c) :
    s.isOver = true ∨ Ready ci s ∧ c.prog.length + (if 1 ≤ min then 0 else 1) ≤ s.prog.length := by
  have hsplit : ∀ {d : Compiler}, Ready ci d → c.prog.length ≤ d.prog.length →
      (d.emit (.split 0 0)).isOver = true ∨
        Ready ci (d.emit (.split 0 0)) ∧
          c.prog.length + (if 1 ≤ min then 0 else 1) ≤ (d.emit (.split 0 0)).prog.length := by
    intro d hd hle
    have hemit := emits_emit d (.split 0 0) rfl
    by_cases hfits : d.prog.length + [Inst.split 0 0].length ≤ maxProg
    · obtain ⟨hready, hpos⟩ := hemit.ready hd hfits
      rw [List.length_singleton] at hpos
      refine .inr ⟨hready, ?_⟩
      split <;> omega
    · exact .inl (hemit.of_not_fits hfits)
  unfold bodyStarts at hs
  rcases List.mem_append.mp hs with hs | hs
  · have hmin : 1 ≤ min := Nat.one_le_iff_ne_zero.mpr (by rintro rfl; cases hs)
    rw [if_pos hmin]
    exact .inr (startsOf_loopLaps h.follows min hc hs)
  · have hmade := h.sound_mandatory hlen min hc
    split at hs
    next made hmand _ =>
      rw [List.mem_singleton] at hs
      subst hs
      rw [hmand] at hmade
      rcases hmade with hover | ⟨hready, hle⟩
      · exact .inl (Compiler.over_emit hover _)
      · exact hsplit hready hle
    next made max hmand _ =>
      obtain ⟨d, hd, rfl⟩ := List.mem_map.mp hs
      rw [hmand] at hmade
      rcases hmade with hover | ⟨hready, hle⟩
      · rw [startsOf_of_over hover] at hd
        cases hd
      · obtain ⟨hdready, hdpos⟩ := startsOf_loopLaps (fun c hc => (h.emits_optionalCopy hc).follows hc) _ hready hd
        exact hsplit hdready (Nat.le_trans hle hdpos)
    next => cases hs

/-- Where the body is first compiled. -/
theorem first_mem_bodyStarts (min : Nat) (max : Option Nat) (hc : Ready ci c) (hmax : 1 ≤ min ∨ max ≠ some 0) :
    (if 1 ≤ min then c else c.emit (.split 0 0)) ∈ bodyStarts step min max c := by
  unfold bodyStarts
  by_cases hmin : 1 ≤ min
  · obtain ⟨n, rfl⟩ := Nat.exists_eq_add_of_le' hmin
    rw [if_pos hmin]
    exact List.mem_append_left _ (start_mem n hc)
  · obtain rfl : min = 0 := by omega
    rw [if_neg hmin]
    apply List.mem_append_right
    rcases max with - | max
    · exact List.mem_singleton_self _
    · have hpos : max ≠ 0 := fun h => hmax.elim hmin (fun hne => hne (congrArg some h))
      obtain ⟨n, rfl⟩ := Nat.exists_eq_succ_of_ne_zero hpos
      exact List.mem_map_of_mem (start_mem n hc)

end Renders

/-! ## Trees -/

/-- From a compiler that is ready, some iteration at some level is stuck exactly where `bad` says so. -/
structure Judges (ci : Bool) (laps : Nat → Compiler → List Lap) (bad : Nat → Bool) : Prop where
  stuck_iff : ∀ c, Ready ci c → ((∃ level, ∃ lap ∈ laps level c, lap.Stuck) ↔ bad c.prog.length = true)
  idle : ∀ c, c.isOver = true → ∀ level, laps level c = []
  bounded : ∀ pos, bad pos = true → pos ≤ maxProg

namespace Judges

variable {laps laps' : Nat → Compiler → List Lap} {bad bad' : Nat → Bool} {step : Compiler → Compiler} {len : Nat}

/-- The same behind code that is emitted first. -/
theorem behind (h : Judges ci laps bad) (hstep : ∀ c, Ready ci c → ∃ k : List Inst, k.length = len ∧ Emits k c (step c))
    (hover : ∀ c, c.isOver = true → (step c).isOver = true) :
    Judges ci (fun level c => laps level (step c)) (fun pos => bad (pos + len)) := by
  refine ⟨fun c hc => ?_, fun c hc => h.idle _ (hover c hc), fun pos hbad => ?_⟩
  · obtain ⟨k, rfl, hemits⟩ := hstep c hc
    by_cases hfits : c.prog.length + k.length ≤ maxProg
    · obtain ⟨hready, hpos⟩ := hemits.ready hc hfits
      rw [h.stuck_iff _ hready, hpos]
    · refine iff_of_false ?_ fun hbad => hfits (h.bounded _ hbad)
      rintro ⟨level, lap, hlap, -⟩
      rw [h.idle _ (hemits.of_not_fits hfits)] at hlap
      cases hlap
  · have := h.bounded _ hbad
    omega

theorem append (h : Judges ci laps bad) (h' : Judges ci laps' bad') :
    Judges ci (fun level c => laps level c ++ laps' level c) (fun pos => bad pos || bad' pos) := by
  refine ⟨fun c hc => ?_, fun c hc level => ?_, fun pos hbad => ?_⟩
  · rw [Bool.or_eq_true, ← h.stuck_iff c hc, ← h'.stuck_iff c hc]
    simp only [List.mem_append, or_and_right, exists_or]
  · rw [h.idle c hc, h'.idle c hc, List.append_nil]
  · rw [Bool.or_eq_true] at hbad
    exact hbad.elim (h.bounded pos) (h'.bounded pos)

theorem nil : Judges ci (fun _ _ => []) (fun _ => false) :=
  ⟨fun _ _ => by simp, fun _ _ _ => rfl, by simp⟩

/-- Behind what no iteration is made of. -/
theorem of_ready (h : Judges ci laps bad) (hsame : ∀ level c, Ready ci c → laps' level c = laps level c)
    (hidle : ∀ level c, c.isOver = true → laps' level c = []) (hbad : ∀ pos, bad' pos = bad pos) :
    Judges ci laps' bad' := by
  refine ⟨fun c hc => ?_, fun c hc level => hidle level c hc, fun pos h' => h.bounded pos (by rwa [← hbad])⟩
  rw [hbad, ← h.stuck_iff c hc]
  simp only [hsame _ c hc]

end Judges

section

variable [CharData]

theorem laps_of_over (hover : c.isOver = true) (level : Nat) (node : Node) : laps level node c = [] := by
  unfold laps
  rw [if_pos hover]

theorem judges_parts (parts : List Node) (h : ∀ part ∈ parts, Judges ci (fun level => laps level part) (stalls part)) :
    Judges ci (fun level => lapsParts level parts) (stallsParts parts) := by
  induction parts with
  | nil => exact .nil
  | cons part rest ih =>
    have hrest := ih fun p hp => h p (List.mem_cons_of_mem _ hp)
    have hcode := renders_compile ci part
    exact (h part (by simp)).append (hrest.behind (fun c hc => ⟨_, length_code ci part _, hcode.emits c hc⟩)
      fun c hover => hcode.isOver hover)

theorem judges_branches (branches : List Node)
    (h : ∀ branch ∈ branches, Judges ci (fun level => laps level branch) (stalls branch)) :
    Judges ci (fun level => lapsBranches level branches) (stallsBranches branches) := by
  induction branches with
  | nil => exact .nil
  | cons branch rest ih =>
    have hbranch := h branch (by simp)
    rcases rest with - | ⟨next, rest⟩
    · exact hbranch
    · have hrest := ih fun b hb => h b (List.mem_cons_of_mem _ hb)
      have hcode := renders_compile ci branch
      have hfirst := hbranch.behind (fun c _ => ⟨_, List.length_singleton, emits_emit c (.split 0 0) rfl⟩)
        fun c hover => Compiler.over_emit hover _
      have hlast : Judges ci (fun level c => lapsBranches level (next :: rest)
          (((compile branch (c.emit (.split 0 0))).emit (.jmp 0)).patch c.prog.length
            (.split (c.emit (.split 0 0)).prog.length
              ((compile branch (c.emit (.split 0 0))).emit (.jmp 0)).prog.length)))
          (fun pos => stallsBranches (next :: rest) (pos + (size branch + 2))) :=
        hrest.behind (fun c hc => ⟨_, by simp, hcode.emits_framed (length_code ci branch) 0 hc⟩)
          fun c hover => hcode.over_framed 0 hover
      have hboth := hfirst.append hlast
      exact ⟨fun c hc => by rw [stallsBranches_cons]; exact hboth.stuck_iff c hc,
        fun c hover level => hboth.idle c hover level,
        fun pos hbad => hboth.bounded pos (by rwa [stallsBranches_cons] at hbad)⟩

/-- A repetition is stuck over a body of no instructions, or wherever its body is. -/
theorem judges_repeated (inner : Node) (min : Nat) (max : Option Nat)
    (h : Judges ci (fun level => laps level inner) (stalls inner)) :
    Judges ci (fun level => laps level (.repeated inner min max)) (stalls (.repeated inner min max)) := by
  have hcode := renders_compile ci inner
  have hlen := length_code ci inner
  refine ⟨fun c hc => ?_, fun c hover level => laps_of_over hover level _,
    fun pos hbad => (stalls_early (.repeated inner min max) hbad (Nat.le_refl _)).2⟩
  have hunset : ¬ c.isOver = true := by simp [hc.unset]
  have hzero : laps 0 (.repeated inner min max) c = repeatLaps (compile inner) min max c := by
    unfold laps
    rw [if_neg hunset]
  have hsucc : ∀ level, laps (level + 1) (.repeated inner min max) c =
      (bodyStarts (compile inner) min max c).flatMap (laps level inner) := by
    intro level
    conv_lhs => unfold laps
    rw [if_neg hunset]
  have hsplit : (∃ level, ∃ lap ∈ laps level (.repeated inner min max) c, lap.Stuck) ↔
      (∃ lap ∈ repeatLaps (compile inner) min max c, lap.Stuck) ∨
        ∃ s ∈ bodyStarts (compile inner) min max c, ∃ level, ∃ lap ∈ laps level inner s, lap.Stuck := by
    constructor
    · rintro ⟨level, lap, hlap, hstuck⟩
      cases level with
      | zero => exact .inl ⟨lap, hzero ▸ hlap, hstuck⟩
      | succ level =>
        rw [hsucc] at hlap
        obtain ⟨s, hs, hlap⟩ := List.mem_flatMap.mp hlap
        exact .inr ⟨s, hs, level, lap, hlap, hstuck⟩
    · rintro (⟨lap, hlap, hstuck⟩ | ⟨s, hs, level, lap, hlap, hstuck⟩)
      · exact ⟨0, lap, hzero ▸ hlap, hstuck⟩
      · refine ⟨level + 1, lap, ?_, hstuck⟩
        rw [hsucc]
        exact List.mem_flatMap.mpr ⟨s, hs, hlap⟩
  rw [hsplit, hcode.stuck_repeatLaps hlen min max hc]
  -- the body is stuck from some start exactly when it is from the first
  have hinner : (∃ s ∈ bodyStarts (compile inner) min max c, ∃ level, ∃ lap ∈ laps level inner s, lap.Stuck) ↔
      (1 ≤ min ∨ max ≠ some 0) ∧ stalls inner (c.prog.length + (if 1 ≤ min then 0 else 1)) = true := by
    constructor
    · rintro ⟨s, hs, hstuck⟩
      refine ⟨?_, ?_⟩
      · by_contra hnone
        obtain ⟨hmin, hmax⟩ := not_or.mp hnone
        obtain rfl : min = 0 := by omega
        rw [not_not.mp hmax] at hs
        cases hs
      · rcases hcode.le_bodyStarts hlen min max hc hs with hover | ⟨hready, hle⟩
        · obtain ⟨level, lap, hlap, -⟩ := hstuck
          rw [laps_of_over hover] at hlap
          cases hlap
        · exact (stalls_early inner ((h.stuck_iff s hready).mp hstuck) hle).1
    · rintro ⟨hmax, hstalls⟩
      refine ⟨_, Renders.first_mem_bodyStarts min max hc hmax, ?_⟩
      split
      next hmin =>
        rw [if_pos hmin] at hstalls
        exact (h.stuck_iff c hc).mpr hstalls
      next hmin =>
        rw [if_neg hmin] at hstalls
        have hsplit := h.behind (fun c _ => ⟨_, List.length_singleton, emits_emit c (.split 0 0) rfl⟩)
          fun c hover => Compiler.over_emit hover _
        exact (hsplit.stuck_iff c hc).mpr hstalls
  rw [hinner, stalls]
  by_cases hmin : 1 ≤ min
  · simp [hmin, hc.room]
  · simp [hmin]

/-- **Where the loops get stuck**: from where they stall, and nowhere else. -/
theorem judges_laps (ci : Bool) (node : Node) : Judges ci (fun level => laps level node) (stalls node) := by
  induction node using Node.induct with
  | group idx inner ih =>
    have hinner := ih.behind (fun c _ => ⟨_, List.length_singleton, emits_emit c (.save (2 * idx)) rfl⟩)
      fun c hover => Compiler.over_emit hover _
    refine hinner.of_ready (fun level c hc => ?_) (fun level c hover => laps_of_over hover level _) fun pos => rfl
    conv_lhs => unfold laps
    rw [if_neg (by simp [hc.unset])]
  | concat parts ih =>
    refine (judges_parts parts ih).of_ready (fun level c hc => ?_) (fun level c hover => laps_of_over hover level _)
      fun pos => rfl
    conv_lhs => unfold laps
    rw [if_neg (by simp [hc.unset])]
  | alt branches ih =>
    refine (judges_branches branches ih).of_ready (fun level c hc => ?_)
      (fun level c hover => laps_of_over hover level _) fun pos => rfl
    conv_lhs => unfold laps
    rw [if_neg (by simp [hc.unset])]
  | repeated inner min max ih => exact judges_repeated inner min max ih
  | _ =>
    refine Judges.nil.of_ready (fun level c hc => ?_) (fun level c hover => laps_of_over hover level _) fun pos => rfl
    conv_lhs => unfold laps
    rw [if_neg (by simp [hc.unset])]

end

/-! ## How many iterations progress allows -/

/-- How far the program has grown, the flag counting for two instructions that did not fit. -/
def fill (c : Compiler) : Nat := if c.isOver then maxProg + 2 else c.prog.length

theorem fill_of_over (hover : c.isOver = true) : fill c = maxProg + 2 := by
  unfold fill
  rw [if_pos hover]

theorem fill_of_ready (hc : Ready ci c) : fill c = c.prog.length := by
  unfold fill
  rw [if_neg (by simp [hc.unset])]

theorem fill_le (hc : Sound ci c) : fill c ≤ maxProg + 2 := by
  rcases hc with hover | hc
  · exact Nat.le_of_eq (fill_of_over hover)
  · rw [fill_of_ready hc]
    have := hc.room
    omega

/-- A step that keeps a compiler sound and does not shrink its program. -/
def Grows (ci : Bool) (step : Compiler → Compiler) : Prop :=
  ∀ c, Sound ci c → Sound ci (step c) ∧ fill c ≤ fill (step c)

theorem Follows.fill_le (h : Follows ci c c') (hc : Ready ci c) : fill c ≤ fill c' := by
  rw [fill_of_ready hc]
  rcases h with hover | ⟨hready, hle⟩
  · rw [fill_of_over hover]
    have := hc.room
    omega
  · rwa [fill_of_ready hready]

theorem grows_of_follows {step : Compiler → Compiler} (hfollows : ∀ c, Ready ci c → Follows ci c (step c))
    (hover : ∀ c, c.isOver = true → (step c).isOver = true) : Grows ci step := by
  rintro c (hc | hc)
  · exact ⟨.inl (hover c hc), Nat.le_of_eq (by rw [fill_of_over hc, fill_of_over (hover c hc)])⟩
  · exact ⟨(hfollows c hc).sound, (hfollows c hc).fill_le hc⟩

theorem grows_emit (i : Inst) (hi : i.isBackref = false) : Grows ci fun c => c.emit i :=
  grows_of_follows (fun c hc => (emits_emit c i hi).follows hc) fun _ hover => Compiler.over_emit hover i

theorem grows_patch (pos : Nat) (i : Inst) (hc : Sound ci c) :
    Sound ci (c.patch pos i) ∧ fill (c.patch pos i) = fill c := by
  refine ⟨hc.imp_right fun hc => ⟨?_, hc.unset, hc.ci_eq⟩, ?_⟩
  · simpa [Compiler.patch] using hc.room
  · simp [fill, Compiler.patch]

theorem loopLaps_succ (n : Nat) (hc : Ready ci c) :
    loopLaps round (n + 1) c = ⟨c, round c⟩ :: loopLaps round n (round c) := by
  rw [loopLaps, if_neg (by simp [hc.unset])]

theorem loopEnd_succ (n : Nat) (hc : Ready ci c) : loopEnd round (n + 1) c = loopEnd round n (round c) := by
  rw [loopEnd, if_neg (by simp [hc.unset])]

theorem loopEnd_of_over (hover : c.isOver = true) (n : Nat) : loopEnd round n c = c := by
  cases n with
  | zero => rfl
  | succ n => rw [loopEnd, if_pos hover]

variable (round) in
theorem length_loopLaps_of_over (hover : c.isOver = true) (n : Nat) : (loopLaps round n c).length ≤ 1 := by
  cases n with
  | zero => exact Nat.zero_le 1
  | succ n =>
    rw [loopLaps, if_pos hover]
    exact Nat.le_refl 1

/-- What an iteration that is not stuck adds. -/
theorem fill_lt_of_advances (hfollows : Follows ci c c') (hc : Ready ci c) (hlap : ¬ (Lap.mk c c').Stuck) :
    c'.isOver = true ∧ fill c + 2 ≤ fill c' ∨ Ready ci c' ∧ fill c + 1 ≤ fill c' := by
  rw [fill_of_ready hc]
  rcases hfollows with hover | ⟨hready, -⟩
  · rw [fill_of_over hover]
    exact .inl ⟨hover, Nat.add_le_add_right hc.room 2⟩
  · rw [fill_of_ready hready]
    refine .inr ⟨hready, ?_⟩
    rcases not_not.mp (not_and.mp hlap hc.unset) with hlt | hover
    · exact hlt
    · exact absurd hover (by simp [hready.unset])

/-- Unless one is stuck, the iterations take the compiler further by as much as they number. -/
theorem length_loopLaps_le (hround : ∀ c, Ready ci c → Follows ci c (round c)) (n : Nat) (hc : Ready ci c)
    (hfree : ∀ lap ∈ loopLaps round n c, ¬ lap.Stuck) :
    (loopLaps round n c).length + fill c ≤ fill (loopEnd round n c) := by
  induction n generalizing c with
  | zero => simp [loopLaps, loopEnd]
  | succ n ih =>
    rw [loopLaps_succ n hc] at hfree ⊢
    rw [loopEnd_succ n hc, List.length_cons]
    rcases fill_lt_of_advances (hround c hc) hc (hfree _ List.mem_cons_self) with ⟨hover, hlt⟩ | ⟨hready, hlt⟩
    · have hlast := length_loopLaps_of_over round hover n
      rw [loopEnd_of_over hover]
      omega
    · have hrest := ih hready fun lap hlap => hfree lap (List.mem_cons_of_mem _ hlap)
      omega

/-- What goes on inside the iterations takes it further by as much as that numbers. -/
theorem length_inside_le (hround : ∀ c, Ready ci c → Follows ci c (round c)) (inside : Compiler → List Lap)
    (hinside : ∀ c, Ready ci c → (∀ lap ∈ inside c, ¬ lap.Stuck) → (inside c).length + fill c ≤ fill (round c))
    (n : Nat) (hc : Ready ci c) (hfree : ∀ s ∈ startsOf (loopLaps round n c), ∀ lap ∈ inside s, ¬ lap.Stuck) :
    ((startsOf (loopLaps round n c)).flatMap inside).length + fill c ≤ fill (loopEnd round n c) := by
  induction n generalizing c with
  | zero => simp [loopLaps, loopEnd, startsOf]
  | succ n ih =>
    have hstarts : startsOf (loopLaps round (n + 1) c) = c :: startsOf (loopLaps round n (round c)) := by
      rw [loopLaps_succ n hc, startsOf, List.filter_cons_of_pos (by simp [hc.unset])]
      rfl
    rw [hstarts] at hfree ⊢
    rw [loopEnd_succ n hc, List.flatMap_cons, List.length_append]
    have hfirst := hinside c hc (hfree c List.mem_cons_self)
    rcases hround c hc with hover | ⟨hready, -⟩
    · rw [loopEnd_of_over hover, startsOf_of_over hover]
      simpa using hfirst
    · have hrest := ih hready fun s hs => hfree s (List.mem_cons_of_mem _ hs)
      omega

/-! ### The loops of a repetition -/

namespace Renders

variable {body : Nat → List Inst} {step : Compiler → Compiler} {len : Nat}

theorem mandatory_fst (step : Compiler → Compiler) (n : Nat) (c : Compiler) :
    (Compiler.mandatory step n c).1 = loopEnd step n c := by
  induction n generalizing c with
  | zero => rfl
  | succ n ih =>
    rw [Compiler.mandatory, loopEnd]
    split
    · rfl
    · exact ih _

theorem optional_fst (step : Compiler → Compiler) (n : Nat) (c : Compiler) :
    (Compiler.optional step n c).1 = loopEnd (optionalCopy step) n c := by
  induction n generalizing c with
  | zero => rfl
  | succ n ih =>
    rw [Compiler.optional, loopEnd]
    split
    · rfl
    · exact ih _

/-- Where the loop over the mandatory copies does not return, none of its iterations has found the flag set. -/
theorem length_mandatory_lt (h : Renders ci body step) (n : Nat) (hc : Ready ci c)
    (hfree : ∀ lap ∈ loopLaps step n c, ¬ lap.Stuck) (hstay : (Compiler.mandatory step n c).2 = false)
    (hover : (loopEnd step n c).isOver = true) : (loopLaps step n c).length + 1 + fill c ≤ maxProg + 2 := by
  induction n generalizing c with
  | zero =>
    rw [loopEnd, hc.unset] at hover
    cases hover
  | succ n ih =>
    rw [loopLaps_succ n hc] at hfree ⊢
    rw [loopEnd_succ n hc] at hover
    rw [Compiler.mandatory, if_neg (by simp [hc.unset])] at hstay
    rw [List.length_cons]
    rcases fill_lt_of_advances (h.follows c hc) hc (hfree _ List.mem_cons_self) with ⟨hset, hlt⟩ | ⟨hready, hlt⟩
    · cases n with
      | zero =>
        rw [fill_of_over hset] at hlt
        simp only [loopLaps, List.length_nil]
        omega
      | succ n =>
        rw [Compiler.mandatory, if_pos hset] at hstay
        cases hstay
    · have hrest := ih hready (fun lap hlap => hfree lap (List.mem_cons_of_mem _ hlap)) hstay hover
      omega

theorem fill_patchOut (out pos : Nat) (c : Compiler) : fill (c.patchOut out pos) = fill c := by
  unfold Compiler.patchOut
  split
  · simp [fill, Compiler.patch]
  · rfl

theorem fill_foldl_patchOut (out : Nat) (splits : List Nat) (c : Compiler) :
    fill (splits.foldl (fun c' s => c'.patchOut out s) c) = fill c := by
  induction splits generalizing c with
  | nil => rfl
  | cons s splits ih => rw [List.foldl_cons, ih, fill_patchOut]

theorem grows (h : Renders ci body step) : Grows ci step := grows_of_follows h.follows fun _ => h.isOver

/-- What follows the mandatory copies. -/
def optionalPart (step : Compiler → Compiler) (min : Nat) (max : Option Nat) (made : Compiler) : Compiler :=
  match max with
  | none =>
    ((step (made.emit (.split 0 0))).emit (.jmp made.prog.length)).patch made.prog.length
      (.split (made.emit (.split 0 0)).prog.length
        ((step (made.emit (.split 0 0))).emit (.jmp made.prog.length)).prog.length)
  | some max =>
    (Compiler.optional step (max - min) made).2.foldl
      (fun c' s => c'.patchOut (Compiler.optional step (max - min) made).1.prog.length s)
      (Compiler.optional step (max - min) made).1

theorem compileRepeat_eq (step : Compiler → Compiler) (min : Nat) (max : Option Nat) (c : Compiler) :
    Compiler.compileRepeat step min max c =
      if (Compiler.mandatory step min c).2 then (Compiler.mandatory step min c).1
      else optionalPart step min max (Compiler.mandatory step min c).1 := by
  cases max <;> rfl

theorem fill_optionalPart_some (min max : Nat) (made : Compiler) :
    fill (optionalPart step min (some max) made) = fill (loopEnd (optionalCopy step) (max - min) made) := by
  rw [optionalPart, fill_foldl_patchOut, optional_fst]

/-- The star: what its body adds, it adds. -/
theorem fill_star (h : Renders ci body step) (min : Nat) {made : Compiler} (hmade : Sound ci made) :
    Sound ci (made.emit (.split 0 0)) ∧ fill made ≤ fill (made.emit (.split 0 0)) ∧
      fill (step (made.emit (.split 0 0))) ≤ fill (optionalPart step min none made) := by
  obtain ⟨hsplit, hle⟩ := grows_emit (.split 0 0) rfl made hmade
  obtain ⟨hbody, -⟩ := h.grows _ hsplit
  obtain ⟨hjmp, hle'⟩ := grows_emit (.jmp made.prog.length) rfl _ hbody
  refine ⟨hsplit, hle, ?_⟩
  rw [optionalPart, (grows_patch _ _ hjmp).2]
  exact hle'

/-- The iterations of both loops, together. -/
theorem length_repeatLaps_le (h : Renders ci body step) (hlen : ∀ pos, (body pos).length = len) (min : Nat)
    (max : Option Nat) (hc : Ready ci c) (hfree : ∀ lap ∈ repeatLaps step min max c, ¬ lap.Stuck) :
    (repeatLaps step min max c).length + fill c ≤ fill (Compiler.compileRepeat step min max c) := by
  have hfirst : ∀ lap ∈ loopLaps step min c, ¬ lap.Stuck := fun lap hlap => hfree lap (List.mem_append_left _ hlap)
  have hle := length_loopLaps_le h.follows min hc hfirst
  have hmade := (h.sound_mandatory hlen min hc).sound
  have hstrict := h.length_mandatory_lt min hc hfirst
  rw [compileRepeat_eq]
  unfold repeatLaps at hfree ⊢
  rw [← mandatory_fst] at hle hstrict
  generalize Compiler.mandatory step min c = made at hle hmade hstrict hfree ⊢
  obtain ⟨made, returned⟩ := made
  rcases returned with - | - <;> dsimp only at hle hmade hstrict
  · rcases max with - | max
    · obtain ⟨hsplit, hle₁, hle₂⟩ := h.fill_star min hmade
      have hle₃ := (h.grows _ hsplit).2
      rw [List.append_nil]
      show _ ≤ fill (optionalPart step min none made)
      omega
    · show (loopLaps step min c ++ loopLaps (optionalCopy step) (max - min) made).length + _ ≤
        fill (optionalPart step min (some max) made)
      rw [fill_optionalPart_some, List.length_append]
      rcases hmade with hover | hready
      · have hlast := length_loopLaps_of_over (optionalCopy step) hover (max - min)
        have hlt := hstrict rfl hover
        rw [loopEnd_of_over hover, fill_of_over hover]
        omega
      · have hrest := length_loopLaps_le (fun c hc => (h.emits_optionalCopy hc).follows hc) (max - min) hready
          fun lap hlap => hfree lap (List.mem_append_right _ hlap)
        omega
  · rw [List.append_nil]
    exact hle

/-- What goes on inside the body, together. -/
theorem length_bodies_le (h : Renders ci body step) (hlen : ∀ pos, (body pos).length = len) (min : Nat)
    (max : Option Nat) (hc : Ready ci c) (inside : Compiler → List Lap)
    (hinside : ∀ c, Sound ci c → (∀ lap ∈ inside c, ¬ lap.Stuck) → (inside c).length + fill c ≤ fill (step c))
    (hfree : ∀ s ∈ bodyStarts step min max c, ∀ lap ∈ inside s, ¬ lap.Stuck) :
    ((bodyStarts step min max c).flatMap inside).length + fill c ≤ fill (Compiler.compileRepeat step min max c) := by
  have hle := length_inside_le h.follows inside (fun c hc => hinside c (.inr hc)) min hc
    fun s hs => hfree s (List.mem_append_left _ hs)
  have hmade := (h.sound_mandatory hlen min hc).sound
  rw [compileRepeat_eq]
  unfold bodyStarts at hfree ⊢
  rw [← mandatory_fst] at hle
  generalize Compiler.mandatory step min c = made at hle hmade hfree ⊢
  obtain ⟨made, returned⟩ := made
  rw [List.flatMap_append, List.length_append]
  rcases returned with - | - <;> dsimp only at hle hmade
  · rcases max with - | max
    · obtain ⟨hsplit, hle₁, hle₂⟩ := h.fill_star min hmade
      have hstar := hinside _ hsplit (hfree _ (List.mem_append_right _ (List.mem_singleton_self _)))
      show _ ≤ fill (optionalPart step min none made)
      simp only [List.flatMap_cons, List.flatMap_nil, List.append_nil]
      omega
    · show _ + (((startsOf (loopLaps (optionalCopy step) (max - min) made)).map
        fun c => c.emit (.split 0 0)).flatMap inside).length + _ ≤ fill (optionalPart step min (some max) made)
      rw [fill_optionalPart_some, List.flatMap_map]
      rcases hmade with hover | hready
      · rw [loopEnd_of_over hover, startsOf_of_over hover]
        simpa using hle
      · have hrest := length_inside_le (fun c hc => (h.emits_optionalCopy hc).follows hc)
          (fun c => inside (c.emit (.split 0 0))) (fun c hc hnot => ?_) (max - min) hready
          fun s hs => hfree _ (List.mem_append_right _ (List.mem_map_of_mem hs))
        · omega
        · obtain ⟨hsplit, hle₁⟩ := grows_emit (.split 0 0) rfl c (.inr hc)
          have hbody := hinside _ hsplit hnot
          dsimp only at hsplit hle₁ hbody
          have hpatch := (grows_patch c.prog.length (.split (c.emit (.split 0 0)).prog.length 0) (h.grows _ hsplit).1).2
          show _ ≤ fill ((step (c.emit (.split 0 0))).patch _ _)
          omega
  · simpa using hle

end Renders

/-! ### Trees -/

/-- Unless one is stuck, the iterations take the compiler no further than `step` does. -/
def Charges (ci : Bool) (laps : Compiler → List Lap) (step : Compiler → Compiler) : Prop :=
  ∀ c, Sound ci c → (∀ lap ∈ laps c, ¬ lap.Stuck) → (laps c).length + fill c ≤ fill (step c)

namespace Charges

variable {laps laps' : Compiler → List Lap} {step step' : Compiler → Compiler}

/-- Between two steps that only grow the program. -/
theorem between (h : Charges ci laps step) (hstep : Grows ci step) {enter leave : Compiler → Compiler}
    (henter : Grows ci enter) (hleave : Grows ci leave) :
    Charges ci (fun c => laps (enter c)) fun c => leave (step (enter c)) := by
  intro c hc hfree
  show (laps (enter c)).length + fill c ≤ fill (leave (step (enter c)))
  obtain ⟨hsound, hle⟩ := henter c hc
  have hlaps := h _ hsound hfree
  have := (hleave _ (hstep _ hsound).1).2
  omega

theorem append (h : Charges ci laps step) (hstep : Grows ci step) (h' : Charges ci laps' step') :
    Charges ci (fun c => laps c ++ laps' (step c)) fun c => step' (step c) := by
  intro c hc hfree
  have hfirst := h c hc fun lap hlap => hfree lap (List.mem_append_left _ hlap)
  have hrest := h' _ (hstep c hc).1 fun lap hlap => hfree lap (List.mem_append_right _ hlap)
  show (laps c ++ laps' (step c)).length + fill c ≤ fill (step' (step c))
  rw [List.length_append]
  omega

end Charges

theorem fill_foldl_patch (i : Inst) (positions : List Nat) (c : Compiler) :
    fill (positions.foldl (fun c' j => c'.patch j i) c) = fill c := by
  induction positions generalizing c with
  | nil => rfl
  | cons j positions ih =>
    rw [List.foldl_cons, ih]
    simp [fill, Compiler.patch]

section

variable [CharData]

theorem grows_compile (ci : Bool) (node : Node) : Grows ci (compile node) := (renders_compile ci node).grows

theorem charges_parts (level : Nat) (parts : List Node)
    (h : ∀ part ∈ parts, Charges ci (laps level part) (compile part)) :
    Charges ci (lapsParts level parts) (compileParts parts) := by
  induction parts with
  | nil =>
    intro c _ _
    simp [lapsParts, compileParts]
  | cons part rest ih =>
    exact (h part (by simp)).append (grows_compile ci part) (ih fun p hp => h p (List.mem_cons_of_mem _ hp))

theorem charges_branches (level : Nat) (branches : List Node)
    (h : ∀ branch ∈ branches, Charges ci (laps level branch) (compile branch)) :
    Charges ci (lapsBranches level branches) fun c => (compileBranches branches c).1 := by
  induction branches with
  | nil =>
    intro c _ _
    simp [lapsBranches, compileBranches]
  | cons branch rest ih =>
    have hbranch := h branch (by simp)
    rcases rest with - | ⟨next, rest⟩
    · exact hbranch
    · have hrest := ih fun b hb => h b (List.mem_cons_of_mem _ hb)
      have hgrows := grows_compile ci branch
      intro c hc hfree
      obtain ⟨hsplit, hle₁⟩ := grows_emit (.split 0 0) rfl c hc
      obtain ⟨hjmp, hle₂⟩ := grows_emit (.jmp 0) rfl _ (hgrows _ hsplit).1
      obtain ⟨hpatch, hle₃⟩ := grows_patch c.prog.length (.split (c.emit (.split 0 0)).prog.length
        ((compile branch (c.emit (.split 0 0))).emit (.jmp 0)).prog.length) hjmp
      have hfirst := hbranch _ hsplit fun lap hlap => hfree lap (List.mem_append_left _ hlap)
      have hlast := hrest _ hpatch fun lap hlap => hfree lap (List.mem_append_right _ hlap)
      show (_ ++ _ : List Lap).length + _ ≤ fill (compileBranches (next :: rest) _).1
      rw [List.length_append]
      rw [hle₃] at hlast
      dsimp only at hle₁ hle₂ hfirst hlast
      omega

theorem laps_of_ready (hc : Ready ci c) (level : Nat) (node : Node) :
    laps level node c =
      match node with
      | .group idx inner => laps level inner (c.emit (.save (2 * idx)))
      | .concat parts => lapsParts level parts c
      | .alt branches => lapsBranches level branches c
      | .repeated inner min max =>
        match level with
        | 0 => repeatLaps (compile inner) min max c
        | level + 1 => (bodyStarts (compile inner) min max c).flatMap (laps level inner)
      | _ => [] := by
  conv_lhs => unfold laps
  rw [if_neg (by simp [hc.unset])]

/-- What compiling a node that nests others does. -/
theorem compile_of_ready (hc : Ready ci c) (node : Node) :
    compile node c =
      match node with
      | .group idx inner => (compile inner (c.emit (.save (2 * idx)))).emit (.save (2 * idx + 1))
      | .concat parts => compileParts parts c
      | .alt branches =>
        (compileBranches branches c).2.foldl
          (fun c' j => c'.patch j (.jmp (compileBranches branches c).1.prog.length)) (compileBranches branches c).1
      | .repeated inner min max => Compiler.compileRepeat (compile inner) min max c
      | leaf => compile leaf c := by
  cases node <;> simp [compile, hc.unset]

/-- **Iterations that make progress are paid for**: at each level of nesting, by what the program grows. -/
theorem charges_laps (ci : Bool) (level : Nat) (node : Node) : Charges ci (laps level node) (compile node) := by
  induction node using Node.induct generalizing level with
  | group idx inner ih =>
    rintro c (hover | hc) hfree
    · simp [laps_of_over hover, compile_of_over _ hover]
    · rw [laps_of_ready hc] at hfree ⊢
      rw [compile_of_ready hc]
      exact (ih level).between (grows_compile ci inner) (grows_emit _ rfl) (grows_emit _ rfl) c (.inr hc) hfree
  | concat parts ih =>
    rintro c (hover | hc) hfree
    · simp [laps_of_over hover, compile_of_over _ hover]
    · rw [laps_of_ready hc] at hfree ⊢
      rw [compile_of_ready hc]
      exact charges_parts level parts (fun part hpart => ih part hpart level) c (.inr hc) hfree
  | alt branches ih =>
    rintro c (hover | hc) hfree
    · simp [laps_of_over hover, compile_of_over _ hover]
    · rw [laps_of_ready hc] at hfree ⊢
      rw [compile_of_ready hc]
      show _ ≤ fill (List.foldl _ _ _)
      rw [fill_foldl_patch]
      exact charges_branches level branches (fun branch hbranch => ih branch hbranch level) c (.inr hc) hfree
  | repeated inner min max ih =>
    have hcode := renders_compile ci inner
    rintro c (hover | hc) hfree
    · simp [laps_of_over hover, compile_of_over _ hover]
    · rw [laps_of_ready hc] at hfree ⊢
      rw [compile_of_ready hc]
      cases level with
      | zero => exact hcode.length_repeatLaps_le (length_code ci inner) min max hc hfree
      | succ level =>
        exact hcode.length_bodies_le (length_code ci inner) min max hc (laps level inner) (ih level)
          fun s hs lap hlap => hfree lap (List.mem_flatMap.mpr ⟨s, hs, hlap⟩)
  | _ =>
    rintro c (hover | hc) -
    · simp [laps_of_over hover, compile_of_over _ hover]
    · rw [laps_of_ready hc, List.length_nil, Nat.zero_add]
      exact (grows_compile ci _ c (.inr hc)).2

/-! ## Patterns -/

/-- The iterations at one level of nesting while a pattern is compiled, behind its prefix. -/
def patternLaps (ci : Bool) (node : Node) (level : Nat) : List Lap := laps level node (searchPrefix ci)

/-- Each iteration that starts with the flag unset appends an instruction or sets the flag, and those at each level of
nesting number no more than the program's limit and one. -/
def MakesProgress (ci : Bool) (node : Node) : Prop :=
  (∀ level, ∀ lap ∈ patternLaps ci node level, lap.before.isOver = false → lap.Advances) ∧
    ∀ level, (patternLaps ci node level).length ≤ maxProg + 1

/-- **The loops that expand a pattern's repetitions make progress exactly when they do not stall.** -/
theorem expansion_makes_progress_iff (ci : Bool) (node : Node) : MakesProgress ci node ↔ stalls node 4 = false := by
  have hc := ready_searchPrefix ci
  have hpos : (searchPrefix ci).prog.length = 4 := by rw [searchPrefix_eq]; rfl
  have hjudge := (judges_laps ci node).stuck_iff _ hc
  rw [hpos] at hjudge
  rw [← Bool.not_eq_true, ← hjudge]
  constructor
  · rintro ⟨hprogress, -⟩ ⟨level, lap, hlap, hunset, hnot⟩
    exact hnot (hprogress level lap hlap hunset)
  · intro hfree
    have hprogress : ∀ level, ∀ lap ∈ patternLaps ci node level, ¬ lap.Stuck :=
      fun level lap hlap hstuck => hfree ⟨level, lap, hlap, hstuck⟩
    refine ⟨fun level lap hlap hunset => ?_, fun level => ?_⟩
    · by_contra hnot
      exact hprogress level lap hlap ⟨hunset, hnot⟩
    · have hpaid := charges_laps ci level node _ (.inr hc) (hprogress level)
      have hfull := fill_le (grows_compile ci node _ (.inr hc)).1
      rw [fill_of_ready hc, hpos] at hpaid
      show (laps level node (searchPrefix ci)).length ≤ _
      omega

end

/-! ### A repetition of nothing -/

theorem loopLaps_silent {step : Compiler → Compiler} (hc : c.isOver = false) (hstep : step c = c) (n : Nat) :
    loopLaps step n c = List.replicate n ⟨c, c⟩ ∧ Compiler.mandatory step n c = (c, false) := by
  have hunset : ¬ c.isOver = true := by simp [hc]
  induction n with
  | zero => exact ⟨rfl, rfl⟩
  | succ n ih =>
    rw [loopLaps, if_neg hunset, Compiler.mandatory, if_neg hunset, hstep, ih.1, ih.2]
    exact ⟨rfl, rfl⟩

theorem repeatLaps_silent {step : Compiler → Compiler} (hc : c.isOver = false) (hstep : step c = c) (n : Nat) :
    repeatLaps step n (some n) c = List.replicate n ⟨c, c⟩ ∧
      bodyStarts step n (some n) c = List.replicate n c ∧ Compiler.compileRepeat step n (some n) c = c := by
  obtain ⟨hlaps, hmand⟩ := loopLaps_silent hc hstep n
  refine ⟨?_, ?_, ?_⟩
  · simp [repeatLaps, hlaps, hmand, loopLaps]
  · simp [bodyStarts, hlaps, hmand, loopLaps, startsOf, hc]
  · simp [Compiler.compileRepeat, hmand, Compiler.optional]

/-- `a{0}{32767}{32767}`: exact repetitions of the empty expression, whose thousand million iterations emit
nothing. -/
theorem expansion_of_nothing_stalls :
    ∃ node p, parse ("a\x7b0\x7d\x7b32767\x7d\x7b32767\x7d".toList.map Ch.u) .posixExtended = .ok node p ∧
      ¬ @MakesProgress CharData.ascii false node ∧
      (@patternLaps CharData.ascii false node 1).length = 32767 * 32767 := by
  let _ := CharData.ascii
  refine ⟨.repeated (.repeated .empty 32767 (some 32767)) 32767 (some 32767), _, rfl, ?_⟩
  have hunset : (searchPrefix false).isOver = false := (ready_searchPrefix false).unset
  have hempty : compile .empty (searchPrefix false) = searchPrefix false := by simp [compile]
  obtain ⟨hlaps, -, hsame⟩ := repeatLaps_silent hunset hempty 32767
  have hinner : compile (.repeated .empty 32767 (some 32767)) (searchPrefix false) = searchPrefix false := by
    rw [compile_of_ready (ready_searchPrefix false)]
    exact hsame
  obtain ⟨-, hstarts, -⟩ := repeatLaps_silent hunset hinner 32767
  have hlength : (patternLaps false (.repeated (.repeated .empty 32767 (some 32767)) 32767 (some 32767)) 1).length =
      32767 * 32767 := by
    rw [patternLaps, laps_of_ready (ready_searchPrefix false)]
    dsimp only
    have hown : (laps 0 (.repeated .empty 32767 (some 32767)) (searchPrefix false)).length = 32767 := by
      rw [laps_of_ready (ready_searchPrefix false)]
      dsimp only
      rw [hlaps, List.length_replicate]
    rw [hstarts, List.length_flatMap, List.map_replicate, hown, List.sum_replicate_nat]
  refine ⟨fun hprogress => ?_, hlength⟩
  have hbound := hprogress.2 1
  rw [hlength] at hbound
  exact absurd hbound (by decide)

end SlateOS.Ere
