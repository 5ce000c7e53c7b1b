/-
# SlateOS.Ere.Pike -- the search that advances all threads together

`userspace/ere/src/engine.rs`: `add_thread` and `scan`. A thread is an instruction and its slots; a list of threads
marks the instructions it has seen, and adding one visits what it leads to at its position, depth first. `scan` takes
the threads of each position to those of the next, and steps over positions where no match begins while every thread
was seeded at its own. The scratch slots, and the generations that clear the marks, are left out.
-/
import SlateOS.Ere.Prefilter

namespace SlateOS.Ere

open Foundation.DepthFirst
open Relation (ReflTransGen)

/-- `Thread`, with its slots. -/
abbrev Thread := Nat × Slots

/-- `ThreadList`: its threads are what has been put out. -/
abbrev ThreadList := Visited Nat Slots

/-- What a position's pass over the threads has done so far. -/
structure Pass where
  nlist : ThreadList
  matched : Option Slots
  matchedAt : Option Nat
  older : Option Nat
  seeded : Nat

/-- The state of `scan` at the head of its loop: of the current list only its threads are read. -/
structure ScanState where
  threads : List Thread
  sp : Nat
  fresh : Bool
  matched : Option Slots
  matchedAt : Option Nat

namespace Regex

variable [CharData] (re : Regex) (input : List Ch) (bol : StartOfLine)

/-- `add_thread`, a level of fuel for each instruction that is not marked yet. -/
def addThread (sp : Nat) : Nat → Nat → Slots → ThreadList → ThreadList
  | 0, _, _, list => list
  | fuel + 1, pc, caps, list =>
    match re.prog[pc]? with
    | none => list
    | some inst =>
      if pc ∈ list.seen then list
      else
        let list : ThreadList := ⟨pc :: list.seen, list.out⟩
        match inst with
        | .jmp x => addThread sp fuel x caps list
        | .split x y => addThread sp fuel y caps (addThread sp fuel x caps list)
        | .save n => addThread sp fuel (pc + 1) (caps.set n (some sp)) list
        | .assertStart => if re.lineStartAt input bol sp then addThread sp fuel (pc + 1) caps list else list
        | .assertEnd => if re.lineEndAt input sp then addThread sp fuel (pc + 1) caps list else list
        | .assertBufStart => if sp = 0 then addThread sp fuel (pc + 1) caps list else list
        | .assertBufEnd => if sp = input.length then addThread sp fuel (pc + 1) caps list else list
        | .assertWord w => if w.holdsAt input sp then addThread sp fuel (pc + 1) caps list else list
        | _ => ⟨list.seen, list.out ++ [(pc, caps)]⟩

/-- A list with one thread added to it. -/
def added (sp pc : Nat) (caps : Slots) (list : ThreadList) : ThreadList :=
  re.addThread input bol sp (re.prog.length + 1) pc caps list

/-- The inner loop of `scan`, over the threads at a position. -/
def pass (longest : Bool) (sp : Nat) : List Thread → Pass → Pass
  | [], p => p
  | (pc, caps) :: rest, p =>
    match re.prog[pc]? with
    | none => pass longest sp rest p
    | some inst =>
      if inst.consumes && takes inst input[sp]? re.ci re.bytes then
        let nlist := re.added input bol (sp + 1) (pc + 1) caps p.nlist
        if pc < re.entry then
          pass longest sp rest { p with nlist := nlist, older := some p.nlist.out.length, seeded := nlist.out.length }
        else pass longest sp rest { p with nlist := nlist }
      else
        match inst with
        | .matched =>
          let p := if p.matchedAt.all (· < sp) then { p with matched := some caps, matchedAt := some sp } else p
          if longest then pass longest sp rest p else p
        | _ => pass longest sp rest p

/-- The threads of a search seeded at a position. -/
def seeds (seedPc nslots sp : Nat) : List Thread :=
  (re.added input bol sp seedPc (List.replicate nslots none) .none).out

/-- What a position's pass leaves for the next. -/
def advance (longest : Bool) (st : ScanState) : ScanState :=
  let p := re.pass input bol longest st.sp st.threads ⟨.none, st.matched, st.matchedAt, none, 0⟩
  ⟨p.nlist.out, st.sp + 1, p.older == some 0 && p.seeded == p.nlist.out.length, p.matched, p.matchedAt⟩

/-- The loop of `scan`. -/
def scanLoop (pf : Option Prefilter) (seedPc : Nat) (longest : Bool) (nslots : Nat) : Nat → ScanState → Option Slots
  | 0, st => st.matched
  | fuel + 1, st =>
    if input.length < st.sp then st.matched
    else if st.threads.isEmpty then st.matched
    else
      match pf.filter fun pf => st.fresh && !re.canStart input bol pf st.sp with
      | some pf' =>
        match re.nextStart input bol pf' (st.sp + 1) with
        | none => st.matched
        | some p => scanLoop pf seedPc longest nslots fuel { st with threads := re.seeds input bol seedPc nslots p, sp := p }
      | none => scanLoop pf seedPc longest nslots fuel (re.advance input bol longest st)

/-- `scan`. -/
def scan (start seedPc : Nat) (longest : Bool) (nslots : Nat) : Option Slots :=
  let pf := if seedPc = 0 then re.prefilter else none
  let sp := min start input.length
  match (match pf with | none => some sp | some pf => re.nextStart input bol pf sp) with
  | none => none
  | some sp =>
    re.scanLoop input bol pf seedPc longest nslots (input.length + 1) ⟨re.seeds input bol seedPc nslots sp, sp, true, none, none⟩

end Regex

/-- The pass after a thread that accepts. -/
def Pass.accepted (sp : Nat) (caps : Slots) (p : Pass) : Pass :=
  if p.matchedAt.all (· < sp) then { p with matched := some caps, matchedAt := some sp } else p

@[simp] theorem Pass.accepted_nlist (sp : Nat) (caps : Slots) (p : Pass) : (p.accepted sp caps).nlist = p.nlist := by
  unfold Pass.accepted
  split <;> rfl

@[simp] theorem Pass.accepted_older (sp : Nat) (caps : Slots) (p : Pass) : (p.accepted sp caps).older = p.older := by
  unfold Pass.accepted
  split <;> rfl

@[simp] theorem Pass.accepted_seeded (sp : Nat) (caps : Slots) (p : Pass) : (p.accepted sp caps).seeded = p.seeded := by
  unfold Pass.accepted
  split <;> rfl

/-! ## Adding a thread is a visit -/

/-- The instructions that become threads. -/
def Inst.waits : Inst → Bool
  | .jmp _ | .split _ _ | .save _ => false
  | inst => !inst.isAssert

namespace Regex

variable [CharData] (re : Regex) (input : List Ch) (bol : StartOfLine)

/-- What the instructions lead to at a position without consuming. -/
def threadGraph (sp : Nat) : Foundation.DepthFirst.Graph Nat Slots where
  nodes := Finset.range re.prog.length
  leaf pc := re.prog[pc]?.any Inst.waits
  succ pc :=
    match re.prog[pc]? with
    | some (.jmp x) => [x]
    | some (.split x y) => [x, y]
    | some (.save _) => [pc + 1]
    | some inst => if re.assertHolds input bol inst sp then [pc + 1] else []
    | none => []
  carry pc caps :=
    match re.prog[pc]? with
    | some (.save n) => caps.set n (some sp)
    | _ => caps

variable {re input bol}

/-- **Adding a thread visits what it leads to.** -/
theorem addThread_eq_visit (sp fuel pc : Nat) (caps : Slots) (list : ThreadList) :
    re.addThread input bol sp fuel pc caps list = visit (re.threadGraph input bol sp) fuel pc caps list := by
  induction fuel generalizing pc caps list with
  | zero => rfl
  | succ fuel ih =>
    rw [addThread]
    rcases hinst : re.prog[pc]? with - | inst
    · have hout : ¬ pc < re.prog.length := Nat.not_lt.mpr (List.getElem?_eq_none_iff.mp hinst)
      exact (visit_of_not fun h => hout (Finset.mem_range.mp h.1)).symm
    · have hnode : pc ∈ (re.threadGraph input bol sp).nodes :=
        Finset.mem_range.mpr (List.getElem?_eq_some_iff.mp hinst).1
      by_cases hseen : pc ∈ list.seen
      · simp only [if_pos hseen]
        exact (visit_of_not fun h => h.2 hseen).symm
      · simp only [if_neg hseen]
        have hleaf : (re.threadGraph input bol sp).leaf pc = inst.waits := by simp [threadGraph, hinst]
        rcases hwaits : inst.waits with - | -
        · rw [visit_inner ⟨hnode, hseen⟩ (hleaf.trans hwaits)]
          cases inst with
          | jmp _ | split _ _ | save _ => simp [threadGraph, hinst, visitAll, ih]
          | assertStart | assertEnd | assertBufStart | assertBufEnd | assertWord _ =>
            dsimp only
            split <;> simp_all [threadGraph, visitAll, assertHolds]
          | _ => cases hwaits
        · rw [visit_leaf ⟨hnode, hseen⟩ (hleaf.trans hwaits)]
          cases inst <;> first | rfl | cases hwaits

/-- What a visit steps to, a path steps to without moving on. -/
theorem step_of_threadStep {sp : Nat} {th th' : Thread} (h : (re.threadGraph input bol sp).Step th th') :
    re.Step input bol ⟨th.1, sp, th.2⟩ ⟨th'.1, sp, th'.2⟩ := by
  obtain ⟨pc, caps⟩ := th
  obtain ⟨pc', caps'⟩ := th'
  obtain ⟨⟨hnode, hleaf⟩, hsucc, hcarry⟩ := h
  have hlt : pc < re.prog.length := Finset.mem_range.mp hnode
  have hinst := List.getElem?_eq_getElem hlt
  generalize re.prog[pc] = inst at hinst
  simp only [threadGraph, hinst, Option.any_some] at hleaf hsucc hcarry
  unfold Step nexts
  simp only [hinst]
  cases inst <;> simp_all [Inst.waits, Inst.isAssert]

theorem path_of_threadSteps {sp : Nat} {th th' : Thread} (h : ReflTransGen (re.threadGraph input bol sp).Step th th') :
    ReflTransGen (re.Step input bol) ⟨th.1, sp, th.2⟩ ⟨th'.1, sp, th'.2⟩ := by
  induction h with
  | refl => exact .refl
  | tail _ hstep ih => exact ih.tail (step_of_threadStep hstep)

/-- A step of a path is one of a visit, or is made by an instruction that becomes a thread. -/
theorem edge_of_step {c c' : Config} (hstep : re.Step input bol c c') (hlt : c'.pc < re.prog.length)
    (hwaits : re.prog[c.pc]?.any Inst.waits = false) :
    c'.sp = c.sp ∧ (re.threadGraph input bol c.sp).Edge c.pc c'.pc := by
  unfold Step nexts at hstep
  rcases hinst : re.prog[c.pc]? with - | inst
  · simp [hinst] at hstep
  · have hnode : c.pc < re.prog.length := (List.getElem?_eq_some_iff.mp hinst).1
    simp only [hinst, Option.any_some] at hstep hwaits
    have hsucc : c'.sp = c.sp ∧ c'.pc ∈ (re.threadGraph input bol c.sp).succ c.pc := by
      simp only [threadGraph, hinst]
      cases inst with
      | jmp _ | save _ =>
        cases List.mem_singleton.mp hstep
        simp
      | split x y => rcases List.mem_cons.mp hstep with rfl | hstep <;> simp_all
      | assertStart | assertEnd | assertBufStart | assertBufEnd | assertWord _ =>
        dsimp only at hstep ⊢
        split at hstep
        next hholds =>
          cases List.mem_singleton.mp hstep
          simp [hholds]
        · cases hstep
      | _ => cases hwaits
    exact ⟨hsucc.1, ⟨Finset.mem_range.mpr hnode, by simpa [threadGraph, hinst] using hwaits⟩, hsucc.2,
      Finset.mem_range.mpr hlt⟩

/-! ### Seeding the search again -/

section

variable {sp : Nat}

/-- From the pattern's entry on, a visit stays behind it. -/
theorem WellFormed.succ_ge (h : WellFormed re) {pc pc' : Nat} (hpc : 3 ≤ pc)
    (hsucc : pc' ∈ (re.threadGraph input bol sp).succ pc) : 4 ≤ pc' := by
  rcases hinst : re.prog[pc]? with - | inst
  · simp [threadGraph, hinst] at hsucc
  · simp only [threadGraph, hinst] at hsucc
    cases inst with
    | jmp x =>
      obtain rfl := List.mem_singleton.mp hsucc
      exact (h.pc_of_target hpc (.inl hinst)).1
    | split x y => exact (h.pc_of_target hpc (.inr ⟨x, y, hinst, by simpa using hsucc⟩)).1
    | save n =>
      obtain rfl := List.mem_singleton.mp hsucc
      omega
    | _ =>
      simp only at hsucc
      split at hsucc
      · obtain rfl := List.mem_singleton.mp hsucc
        omega
      · cases hsucc

theorem WellFormed.steps_ge (h : WellFormed re) {th th' : Thread} (hpc : 3 ≤ th.1)
    (hsteps : ReflTransGen (re.threadGraph input bol sp).Step th th') : 3 ≤ th'.1 := by
  induction hsteps with
  | refl => exact hpc
  | tail _ hstep ih => exact Nat.le_of_succ_le (h.succ_ge ih hstep.2.1)

variable (input bol) in
/-- The search prefix, as the visits see it. -/
theorem WellFormed.graph_prefix (h : WellFormed re) (sp : Nat) :
    (∀ {pc}, pc ≤ 3 → pc ∈ (re.threadGraph input bol sp).nodes) ∧
      ((re.threadGraph input bol sp).leaf 0 = false ∧ (re.threadGraph input bol sp).leaf 1 = true ∧
        (re.threadGraph input bol sp).leaf 2 = false) ∧
      ((re.threadGraph input bol sp).succ 0 = [3, 1] ∧ (re.threadGraph input bol sp).succ 2 = [0]) ∧
      ∀ caps, (re.threadGraph input bol sp).carry 0 caps = caps ∧ (re.threadGraph input bol sp).carry 2 caps = caps := by
  have hlen := h.length_ge
  obtain ⟨h0, h1, h2, -⟩ := h.searching
  refine ⟨fun hle => Finset.mem_range.mpr (by omega), ?_, ?_, fun caps => ?_⟩ <;>
    simp [threadGraph, h0, h1, h2, Inst.waits, Inst.isAssert]

variable (input bol sp) in
/-- What seeding the pattern at the search prefix adds: the pattern's threads, and behind them the prefix's own. -/
theorem WellFormed.visit_seed (h : WellFormed re) (fuel : Nat) (hfuel : 2 ≤ fuel) (caps : Slots) {v : ThreadList}
    (hzero : 0 ∉ v.seen) (hleaves : LeavesOut (re.threadGraph input bol sp) v) (hout : ∀ th ∈ v.out, 3 ≤ th.1) :
    ∃ new, (visit (re.threadGraph input bol sp) fuel 0 caps v).out = v.out ++ (new ++ [(1, caps)]) ∧
      ∀ th ∈ new, ReflTransGen (re.threadGraph input bol sp).Step (3, caps) th := by
  obtain ⟨fuel, rfl⟩ := Nat.exists_eq_add_of_le' hfuel
  obtain ⟨hnode, ⟨hleaf, hskip, -⟩, ⟨hsucc, -⟩, hcarry⟩ := h.graph_prefix input bol sp
  obtain ⟨new, hnew, hreach⟩ := visit_out (g := re.threadGraph input bol sp) (fuel + 1) 3 caps ⟨0 :: v.seen, v.out⟩
  refine ⟨new, ?_, hreach⟩
  rw [visit_inner ⟨hnode (by omega), hzero⟩ hleaf, hsucc, (hcarry caps).1]
  simp only [List.map_cons, List.map_nil, visitAll_cons]
  -- the prefix's own thread is not there yet, since nothing before it leads to the prefix
  have hone : 1 ∉ (visit (re.threadGraph input bol sp) (fuel + 1) 3 caps ⟨0 :: v.seen, v.out⟩).seen := by
    intro hseen
    obtain ⟨d, hd⟩ := (leavesOut_visit (fuel + 1) 3 caps (hleaves.mark hleaf) 1).mpr ⟨hseen, hskip⟩
    rw [hnew] at hd
    rcases List.mem_append.mp hd with hd | hd
    · exact absurd (hout _ hd) (by simp)
    · exact absurd (h.steps_ge (Nat.le_refl _) (hreach _ hd)) (by simp)
  show (visit _ (fuel + 1) 1 caps _).out = _
  rw [visit_leaf ⟨hnode (by omega), hone⟩ hskip, hnew, List.append_assoc]

variable (input bol) in
/-- **The threads of a search seeded at a position**: the pattern's, which its paths from there come to, and behind them
the prefix's own. -/
theorem WellFormed.seeds_eq (h : WellFormed re) (nslots sp : Nat) :
    ∃ new, re.seeds input bol 0 nslots sp = new ++ [(1, List.replicate nslots none)] ∧
      ∀ th ∈ new, 3 ≤ th.1 ∧ re.Reaches input bol nslots sp ⟨th.1, sp, th.2⟩ := by
  have hlen := h.length_ge
  obtain ⟨new, hnew, hreach⟩ := h.visit_seed input bol sp (re.prog.length + 1)
    (by omega) (List.replicate nslots none) (v := .none) (by simp [Visited.none]) leavesOut_none (by simp [Visited.none])
  refine ⟨new, ?_, fun th hth => ?_⟩
  · rw [seeds, added, addThread_eq_visit, hnew]
    rfl
  · have hpath := path_of_threadSteps (hreach th hth)
    rw [Reaches, start, h.entry]
    exact ⟨h.steps_ge (Nat.le_refl _) (hreach th hth), hpath⟩

/-- The prefix's thread seeds the pattern again as a search at the next position is seeded. -/
theorem WellFormed.visit_again (h : WellFormed re) (caps : Slots) {v : ThreadList}
    (hv : Barren (re.threadGraph input bol sp) (· ∈ v.seen)) (hout : v.out = []) :
    (visit (re.threadGraph input bol sp) (re.prog.length + 1) 2 caps v).out =
      (visit (re.threadGraph input bol sp) (re.prog.length + 1) 0 caps .none).out := by
  have hlen := h.length_ge
  obtain ⟨hnode, ⟨-, hskip, hleaf⟩, ⟨hsucc0, hsucc⟩, hcarry⟩ := h.graph_prefix input bol sp
  have hbarren : AgreeOff (· ∈ v.seen) v .none := ⟨hout, fun x hx => by simp [hx, Visited.none]⟩
  have hclosed : ∀ x y, x ≠ 2 → (re.threadGraph input bol sp).Edge x y → y ≠ 2 := by
    intro x y hx hedge
    rcases Nat.lt_or_ge x 3 with hlt | hge
    · have hx : x = 0 ∨ x = 1 := by omega
      rcases hx with rfl | rfl
      · have hy := hedge.2.1
        simp [hsucc0] at hy
        omega
      · exact absurd (hskip.symm.trans hedge.1.2) (by decide)
    · have hge := h.succ_ge hge hedge.2.1
      omega
  have haway : AgreeOff (fun y => ¬ y ≠ 2) (⟨[2], []⟩ : ThreadList) .none := ⟨rfl, fun x hx => by simpa [Visited.none] using hx⟩
  have hunmarked : unmarked (re.threadGraph input bol sp) ⟨[2], []⟩ < re.prog.length := by
    have hlt := unmarked_lt (v := (.none : ThreadList)) ⟨@hnode 2 (by omega), List.not_mem_nil⟩ []
    rw [unmarked_none] at hlt
    simpa [threadGraph, Visited.none] using hlt
  calc (visit (re.threadGraph input bol sp) (re.prog.length + 1) 2 caps v).out
      = (visit (re.threadGraph input bol sp) (re.prog.length + 1) 2 caps .none).out := (visit_agree hv _ 2 caps hbarren).1
    _ = (visit (re.threadGraph input bol sp) re.prog.length 0 caps ⟨[2], []⟩).out := by
        rw [visit_inner ⟨hnode (by omega), List.not_mem_nil⟩ hleaf, hsucc, (hcarry caps).2]
        rfl
    _ = (visit (re.threadGraph input bol sp) (re.prog.length + 1) 0 caps ⟨[2], []⟩).out := by
        rw [visit_fuel 0 caps _ hunmarked (Nat.lt_succ_of_lt hunmarked)]
    _ = _ := (visit_agree_away hclosed _ (by omega) caps haway).1

end

/-! ## One position's pass -/

/-- The instruction at an address takes the character at a position. -/
def takesAt (re : Regex) (input : List Ch) (sp pc : Nat) : Prop :=
  ∃ inst, re.prog[pc]? = some inst ∧ (inst.consumes && takes inst input[sp]? re.ci re.bytes) = true

theorem step_of_takesAt {sp pc : Nat} {caps : Slots} (h : re.takesAt input sp pc) :
    re.Step input bol ⟨pc, sp, caps⟩ ⟨pc + 1, sp + 1, caps⟩ := by
  obtain ⟨inst, hinst, htakes⟩ := h
  rw [Bool.and_eq_true] at htakes
  unfold Step nexts
  simp only [hinst]
  cases inst <;> simp_all [Inst.consumes]

/-- The pass after a thread that takes its character. -/
def taken (re : Regex) (input : List Ch) (bol : StartOfLine) (sp : Nat) (th : Thread) (p : Pass) : Pass :=
  if th.1 < re.entry then
    { p with
      nlist := re.added input bol (sp + 1) (th.1 + 1) th.2 p.nlist
      older := some p.nlist.out.length
      seeded := (re.added input bol (sp + 1) (th.1 + 1) th.2 p.nlist).out.length }
  else { p with nlist := re.added input bol (sp + 1) (th.1 + 1) th.2 p.nlist }

theorem taken_nlist (sp : Nat) (th : Thread) (p : Pass) :
    (re.taken input bol sp th p).nlist = re.added input bol (sp + 1) (th.1 + 1) th.2 p.nlist := by
  unfold taken
  split <;> rfl

section

variable {longest : Bool} {sp pc : Nat} {caps : Slots} {rest threads : List Thread} {p : Pass}

/-- A thread that takes nothing and does not accept is passed by. -/
theorem pass_dead (htakes : ¬ re.takesAt input sp pc) (haccepts : re.prog[pc]? ≠ some .matched) :
    re.pass input bol longest sp ((pc, caps) :: rest) p = re.pass input bol longest sp rest p := by
  rw [pass]
  rcases hinst : re.prog[pc]? with - | inst
  · rfl
  · have hnot : ¬ (inst.consumes && takes inst input[sp]? re.ci re.bytes) = true := fun h => htakes ⟨inst, hinst, h⟩
    simp only [if_neg hnot]
    cases inst <;> first | rfl | exact absurd hinst haccepts

theorem pass_all_dead (hdead : ∀ th ∈ threads, ¬ re.takesAt input sp th.1 ∧ re.prog[th.1]? ≠ some .matched) :
    re.pass input bol longest sp (threads ++ rest) p = re.pass input bol longest sp rest p := by
  induction threads with
  | nil => rfl
  | cons th threads ih =>
    obtain ⟨htakes, haccepts⟩ := hdead th List.mem_cons_self
    rw [List.cons_append, pass_dead htakes haccepts]
    exact ih fun th hth => hdead th (List.mem_cons_of_mem _ hth)

theorem pass_takes (h : re.takesAt input sp pc) :
    re.pass input bol longest sp ((pc, caps) :: rest) p =
      re.pass input bol longest sp rest (re.taken input bol sp (pc, caps) p) := by
  obtain ⟨inst, hinst, htakes⟩ := h
  rw [pass, taken]
  simp only [hinst, htakes, if_true]
  split <;> rfl

theorem pass_accepts (h : re.prog[pc]? = some .matched) :
    re.pass input bol longest sp ((pc, caps) :: rest) p =
      if longest then re.pass input bol longest sp rest (p.accepted sp caps) else p.accepted sp caps := by
  rw [pass, Pass.accepted]
  simp only [h, Inst.consumes, Bool.false_and, Bool.false_eq_true, if_false]

end

/-- What every thread preserves, a pass over them does. -/
theorem pass_induct {P : Pass → Prop} {longest : Bool} {sp : Nat} {threads : List Thread}
    (htaken : ∀ th ∈ threads, re.takesAt input sp th.1 → ∀ p, P p → P (re.taken input bol sp th p))
    (haccepted : ∀ th ∈ threads, re.prog[th.1]? = some .matched → ∀ p, P p → P (p.accepted sp th.2)) {p : Pass}
    (hp : P p) : P (re.pass input bol longest sp threads p) := by
  induction threads generalizing p with
  | nil => exact hp
  | cons th threads ih =>
    have hrest := fun {p} => ih (fun th hth => htaken th (List.mem_cons_of_mem _ hth))
      (fun th hth => haccepted th (List.mem_cons_of_mem _ hth)) (p := p)
    by_cases htakes : re.takesAt input sp th.1
    · rw [pass_takes htakes]
      exact hrest (htaken th List.mem_cons_self htakes p hp)
    · by_cases haccepts : re.prog[th.1]? = some .matched
      · have hnext := haccepted th List.mem_cons_self haccepts p hp
        rw [pass_accepts haccepts]
        split
        · exact hrest hnext
        · exact hnext
      · rw [pass_dead htakes haccepts]
        exact hrest hp

end Regex

end SlateOS.Ere
