/-
# SlateOS.Ere.Search -- leftmost, then longest

`userspace/ere/src/engine.rs`: `run`. Without a backreference it scans twice. The first scan, from the search prefix,
keeps its threads in the order of where their matches began, and stops at the first that accepts, so that what it has
accepted began leftmost; the second, from there, goes on to the longest. Every instruction that a path has come to at a
position has a thread there, or something that began no later has accepted.
-/
import SlateOS.Ere.Backtrack
import SlateOS.Ere.Skipping

namespace SlateOS.Ere

open Foundation.DepthFirst
open Relation (ReflTransGen)

/-- `MATCH_SLOTS`. -/
def matchSlots : Nat := 2

/-- `run`. -/
def Regex.run [CharData] (re : Regex) (input : List Ch) (bol : StartOfLine) (start nslots : Nat) :
    Except MatchLimit (Option Slots) :=
  if re.hasBackref then re.runBacktrack input bol start
  else
    match re.scan input bol start 0 false nslots with
    | none => .ok none
    | some first =>
      match first[0]?.join with
      | none => .ok none
      | some s => .ok ((re.scan input bol s re.entry true nslots).or (some first))

namespace Regex

variable [CharData] {re : Regex} {input : List Ch} {bol : StartOfLine} {nslots s sp : Nat} {c c' : Config}

/-! ## Paths without backreferences -/

/-- The instruction at an address becomes a thread. -/
def waitsAt (re : Regex) (pc : Nat) : Prop := re.prog[pc]?.any Inst.waits = true

omit [CharData] in
theorem exists_of_waitsAt {pc : Nat} (h : re.waitsAt pc) : ∃ inst, re.prog[pc]? = some inst ∧ inst.waits = true := by
  unfold waitsAt at h
  rcases hinst : re.prog[pc]? with - | inst
  · simp [hinst] at h
  · exact ⟨inst, rfl, by simpa [hinst] using h⟩

theorem takesAt_of_waits {inst : Inst} (hinst : re.prog[c.pc]? = some inst) (hstep : re.Step input bol c c')
    (hback : re.hasBackref = false) (h : WellFormed re) (hwaits : inst.waits = true) :
    re.takesAt input c.sp c.pc ∧ c' = ⟨c.pc + 1, c.sp + 1, c.caps⟩ := by
  unfold Step nexts at hstep
  simp only [hinst] at hstep
  cases inst with
  | backref n => exact absurd hinst (h.no_backref hback)
  | matched => cases hstep
  | jmp _ | split _ _ | save _ | assertStart | assertEnd | assertBufStart | assertBufEnd | assertWord _ => cases hwaits
  | char _ | any | skip | cls _ =>
    dsimp only at hstep
    split at hstep
    next htakes => exact ⟨⟨_, hinst, by simp [Inst.consumes, htakes]⟩, List.mem_singleton.mp hstep⟩
    · cases hstep

/-- A step consumes a character at an instruction that waits for it, or stays at its position. -/
theorem WellFormed.step_moves (h : WellFormed re) (hback : re.hasBackref = false) (hstep : re.Step input bol c c')
    (hlt : c'.pc < re.prog.length) :
    (re.waitsAt c.pc ∧ re.takesAt input c.sp c.pc ∧ c' = ⟨c.pc + 1, c.sp + 1, c.caps⟩) ∨
      (c'.sp = c.sp ∧ (re.threadGraph input bol c.sp).Edge c.pc c'.pc) := by
  by_cases hwaits : re.waitsAt c.pc
  · obtain ⟨inst, hinst, hinstwaits⟩ := exists_of_waitsAt hwaits
    exact .inl ⟨hwaits, takesAt_of_waits hinst hstep hback h hinstwaits⟩
  · exact .inr (edge_of_step hstep hlt (by simpa [waitsAt] using hwaits))

/-- **How a path came to its position**: it began there, or a character was consumed at the one before. -/
theorem WellFormed.arrives (h : WellFormed re) (hback : re.hasBackref = false) (hslots : 2 ≤ nslots)
    (hs : s ≤ input.length) (hreach : re.Reaches input bol nslots s c) :
    (c.sp = s ∧ ReflTransGen (re.threadGraph input bol s).Edge 3 c.pc) ∨
      ∃ q : Config, re.Reaches input bol nslots s q ∧ q.sp + 1 = c.sp ∧ re.waitsAt q.pc ∧ re.takesAt input q.sp q.pc ∧
        ReflTransGen (re.threadGraph input bol c.sp).Edge (q.pc + 1) c.pc := by
  induction hreach with
  | refl => exact .inl ⟨rfl, by rw [start, h.entry]⟩
  | @tail d c hreach hstep ih =>
    have hlt := (h.since_of_reaches hslots hs (hreach.tail hstep)).pc_lt
    rcases h.step_moves hback hstep hlt with ⟨hwaits, htakes, rfl⟩ | ⟨hsp, hedge⟩
    · exact .inr ⟨d, hreach, rfl, hwaits, htakes, .refl⟩
    · rcases ih with ⟨rfl, hpath⟩ | ⟨q, hq, hqsp, hqwaits, htakes, hpath⟩
      · exact .inl ⟨hsp, hpath.tail hedge⟩
      · rw [hsp]
        exact .inr ⟨q, hq, hqsp, hqwaits, htakes, hpath.tail hedge⟩

/-- A path that has come past a position waited there. -/
theorem WellFormed.waited (h : WellFormed re) (hback : re.hasBackref = false) (hslots : 2 ≤ nslots)
    (hs : s ≤ input.length) (hreach : re.Reaches input bol nslots s c) (hle : s ≤ sp) (hlt : sp < c.sp) :
    ∃ q : Config, re.Reaches input bol nslots s q ∧ q.sp = sp ∧ re.waitsAt q.pc := by
  induction hreach with
  | refl => exact absurd hlt (Nat.not_lt.mpr hle)
  | @tail d c hreach hstep ih =>
    have hpc := (h.since_of_reaches hslots hs (hreach.tail hstep)).pc_lt
    rcases h.step_moves hback hstep hpc with ⟨hwaits, -, rfl⟩ | ⟨hsp, -⟩
    · rcases Nat.lt_or_ge sp d.sp with hlt' | hge
      · exact ih hlt'
      · have heq : d.sp = sp := by
          simp only at hlt
          omega
        exact ⟨d, hreach, heq, hwaits⟩
    · exact ih (hsp ▸ hlt)

/-- Without backreferences the slots decide nothing. -/
theorem WellFormed.reaches_slots (h : WellFormed re) (hback : re.hasBackref = false) (nslots' : Nat)
    (hreach : re.Reaches input bol nslots s c) : ∃ caps, re.Reaches input bol nslots' s ⟨c.pc, c.sp, caps⟩ := by
  induction hreach with
  | refl => exact ⟨_, .refl⟩
  | @tail d c _ hstep ih =>
    obtain ⟨caps, hreach⟩ := ih
    have hsame : ∃ caps', re.Step input bol ⟨d.pc, d.sp, caps⟩ ⟨c.pc, c.sp, caps'⟩ := by
      unfold Step nexts at hstep ⊢
      simp only
      rcases hinst : re.prog[d.pc]? with - | inst
      · simp [hinst] at hstep
      · simp only [hinst] at hstep
        cases inst with
        | backref n => exact absurd hinst (h.no_backref hback)
        | matched => cases hstep
        | split x y => rcases List.mem_cons.mp hstep with rfl | hstep <;> simp_all
        | jmp _ | save _ =>
          cases List.mem_singleton.mp hstep
          simp
        | char _ | any | skip | cls _ | assertStart | assertEnd | assertBufStart | assertBufEnd | assertWord _ =>
          dsimp only at hstep ⊢
          split at hstep <;> simp_all
    obtain ⟨caps', hstep'⟩ := hsame
    exact ⟨caps', hreach.tail hstep'⟩

theorem WellFormed.matchAt_iff_reaches (h : WellFormed re) (hback : re.hasBackref = false) (nslots : Nat) {e : Nat} :
    re.MatchAt input bol s e ↔
      s ≤ input.length ∧ ∃ c, re.Reaches input bol nslots s c ∧ re.Accepts c ∧ c.sp = e := by
  rw [matchAt_iff]
  refine and_congr_right fun _ => ⟨?_, ?_⟩
  · rintro ⟨c, hreach, haccepts, hsp⟩
    obtain ⟨caps, hreach'⟩ := h.reaches_slots hback nslots hreach
    exact ⟨_, hreach', haccepts, hsp⟩
  · rintro ⟨c, hreach, haccepts, hsp⟩
    obtain ⟨caps, hreach'⟩ := h.reaches_slots hback re.allSlots hreach
    exact ⟨_, hreach', haccepts, hsp⟩

/-! ## What one position's pass does -/

section

variable {longest : Bool} {threads rest : List Thread} {p : Pass}

/-- The instruction at an address accepts. -/
def accepting (re : Regex) (th : Thread) : Bool := re.prog[th.1]?.any fun inst => inst matches .matched

omit [CharData] in
theorem accepting_iff {th : Thread} : re.accepting th = true ↔ re.prog[th.1]? = some .matched := by
  unfold accepting
  rcases re.prog[th.1]? with - | inst
  · simp
  · cases inst <;> simp

open Classical in
/-- What the threads that take their character go on from at the next position. -/
noncomputable def onward (re : Regex) (input : List Ch) (sp : Nat) (threads : List Thread) : List Thread :=
  (threads.filter fun th => re.takesAt input sp th.1).map fun th => (th.1 + 1, th.2)

theorem mem_onward {th : Thread} : th ∈ re.onward input sp threads ↔
    ∃ from' ∈ threads, re.takesAt input sp from'.1 ∧ th = (from'.1 + 1, from'.2) := by
  simp [onward, and_assoc, eq_comm]

variable (re input bol sp longest rest p) in
/-- A pass over threads none of which accepts visits what they go on from. -/
theorem pass_onward (hnone : ∀ th ∈ threads, re.accepting th = false) :
    ∃ p', re.pass input bol longest sp (threads ++ rest) p = re.pass input bol longest sp rest p' ∧
      p'.nlist = visitAll (re.threadGraph input bol (sp + 1)) (re.prog.length + 1) (re.onward input sp threads) p.nlist ∧
      p'.matched = p.matched ∧ p'.matchedAt = p.matchedAt := by
  induction threads generalizing p with
  | nil => exact ⟨p, rfl, rfl, rfl, rfl⟩
  | cons th threads ih =>
    have hrest := fun th hth => hnone th (List.mem_cons_of_mem _ hth)
    have haccepts : re.prog[th.1]? ≠ some .matched := fun hmatched =>
      Bool.false_ne_true ((hnone th List.mem_cons_self).symm.trans (accepting_iff.mpr hmatched))
    by_cases htakes : re.takesAt input sp th.1
    · obtain ⟨p', hpass, hnlist, hmatched, hmatchedAt⟩ := ih hrest (p := re.taken input bol sp th p)
      refine ⟨p', by rw [List.cons_append, pass_takes htakes, hpass], ?_, ?_, ?_⟩
      · rw [hnlist, taken_nlist, added_eq_visit]
        simp [onward, htakes, visitAll_cons]
      · rw [hmatched, taken]
        split <;> rfl
      · rw [hmatchedAt, taken]
        split <;> rfl
    · obtain ⟨p', hpass, hnlist, hmatched, hmatchedAt⟩ := ih hrest (p := p)
      refine ⟨p', by rw [List.cons_append, pass_dead htakes haccepts, hpass], ?_, hmatched, hmatchedAt⟩
      rw [hnlist]
      simp [onward, htakes]

/-- The pass that runs on visits what all its threads go on from. -/
theorem pass_longest_nlist (threads : List Thread) (p : Pass) :
    (re.pass input bol true sp threads p).nlist =
      visitAll (re.threadGraph input bol (sp + 1)) (re.prog.length + 1) (re.onward input sp threads) p.nlist := by
  induction threads generalizing p with
  | nil => rfl
  | cons th threads ih =>
    by_cases htakes : re.takesAt input sp th.1
    · rw [pass_takes htakes, ih, taken_nlist, added_eq_visit]
      simp [onward, htakes, visitAll_cons]
    · have hsame : re.onward input sp (th :: threads) = re.onward input sp threads := by simp [onward, htakes]
      rw [hsame]
      by_cases haccepts : re.prog[th.1]? = some .matched
      · rw [pass_accepts haccepts, if_pos rfl, ih, Pass.accepted_nlist]
      · rw [pass_dead htakes haccepts, ih]

variable (re input bol) in
/-- What has been accepted at this position already is kept. -/
theorem pass_longest_kept (threads : List Thread) (hat : p.matchedAt = some sp) :
    (re.pass input bol true sp threads p).matched = p.matched ∧
      (re.pass input bol true sp threads p).matchedAt = p.matchedAt := by
  have hkept : ∀ q : Pass, q.matched = p.matched ∧ q.matchedAt = p.matchedAt →
      ∀ caps, (q.accepted sp caps).matched = p.matched ∧ (q.accepted sp caps).matchedAt = p.matchedAt := by
    intro q hq caps
    simp only [Pass.accepted, hq.2, hat]
    simpa [hat] using hq
  refine pass_induct (P := fun q => q.matched = p.matched ∧ q.matchedAt = p.matchedAt) (fun th _ _ q hq => ?_)
    (fun th _ _ q hq => hkept q hq th.2) ⟨rfl, rfl⟩
  unfold taken
  split <;> exact hq

/-- The pass that runs on keeps the first of its threads that accepts, if there is one. -/
theorem pass_longest_matched (threads : List Thread) (hbefore : p.matchedAt.all (· < sp) = true) :
    ((∀ th ∈ threads, re.accepting th = false) ∧ (re.pass input bol true sp threads p).matched = p.matched ∧
        (re.pass input bol true sp threads p).matchedAt = p.matchedAt) ∨
      ∃ th ∈ threads, re.accepting th = true ∧ (re.pass input bol true sp threads p).matched = some th.2 ∧
        (re.pass input bol true sp threads p).matchedAt = some sp := by
  rcases hfind : threads.find? re.accepting with - | th
  · have hnone : ∀ th ∈ threads, re.accepting th = false := fun th hth => by simpa using List.find?_eq_none.mp hfind th hth
    obtain ⟨p', hpass, -, hmatched, hmatchedAt⟩ := pass_onward re input bol sp true [] p hnone
    rw [List.append_nil] at hpass
    exact .inl ⟨hnone, by rw [hpass, pass, hmatched], by rw [hpass, pass, hmatchedAt]⟩
  · obtain ⟨haccepting, front, back, rfl, hnone⟩ := List.find?_eq_some_iff_append.mp hfind
    obtain ⟨p', hpass, -, -, hmatchedAt⟩ := pass_onward re input bol sp true (th :: back) p
      fun th' hth' => by simpa using hnone th' hth'
    have hat : (p'.accepted sp th.2).matchedAt = some sp ∧ (p'.accepted sp th.2).matched = some th.2 := by
      simp [Pass.accepted, hmatchedAt, hbefore]
    obtain ⟨hkept, hkeptAt⟩ := pass_longest_kept re input bol back hat.1
    rw [hpass, pass_accepts (accepting_iff.mp haccepting), if_pos rfl]
    exact .inr ⟨th, by simp, haccepting, hkept.trans hat.2, hkeptAt.trans hat.1⟩

end

/-! ## The longest match from a start -/

/-- What the anchored scan has come to: a thread wherever a path has come to at its position, and the longest of what
has accepted before. -/
structure Anchored (re : Regex) (input : List Ch) (bol : StartOfLine) (nslots s : Nat) (st : ScanState) : Prop where
  sp_ge : s ≤ st.sp
  sound : ∀ th ∈ st.threads, re.Reaches input bol nslots s ⟨th.1, st.sp, th.2⟩
  complete : ∀ c, re.Reaches input bol nslots s c → c.sp = st.sp → re.waitsAt c.pc → ∃ th ∈ st.threads, th.1 = c.pc
  before : st.matchedAt.all (· < st.sp) = true
  matched : (st.matched = none ∧ st.matchedAt = none) ∨
    ∃ c, re.Reaches input bol nslots s c ∧ re.Accepts c ∧ st.matched = some c.caps ∧ st.matchedAt = some c.sp
  longest : ∀ c, re.Reaches input bol nslots s c → re.Accepts c → c.sp < st.sp → ∃ e, st.matchedAt = some e ∧ c.sp ≤ e

omit [CharData] in
theorem before_succ {matchedAt : Option Nat} (h : matchedAt.all (· < sp) = true) :
    matchedAt.all (· < sp + 1) = true := by
  rcases matchedAt with - | e
  · rfl
  · have hlt : e < sp := by simpa using h
    simpa using Nat.lt_succ_of_lt hlt

omit [CharData] in
theorem waitsAt_of_accepts (h : re.Accepts c) : re.waitsAt c.pc := by
  have hinst : re.prog[c.pc]? = some .matched := h
  simp [waitsAt, hinst, Inst.waits, Inst.isAssert]

/-- What is put out from the threads that go on was reached by a path. -/
theorem reaches_of_onward {threads : List Thread} {th : Thread}
    (hsound : ∀ th ∈ threads, re.Reaches input bol nslots s ⟨th.1, sp, th.2⟩) {r : Thread}
    (hr : r ∈ re.onward input sp threads)
    (hsteps : ReflTransGen (re.threadGraph input bol (sp + 1)).Step r th) :
    re.Reaches input bol nslots s ⟨th.1, sp + 1, th.2⟩ := by
  obtain ⟨from', hmem, htakes, rfl⟩ := mem_onward.mp hr
  exact ((hsound from' hmem).tail (step_of_takesAt htakes)).trans (path_of_threadSteps hsteps)

theorem leaf_of_waitsAt {pc : Nat} (h : re.waitsAt pc) : (re.threadGraph input bol sp).leaf pc = true := h

/-- **Where paths have come to at the next position, threads do**, from the one that goes on there or one before it. -/
theorem WellFormed.onward_complete (h : WellFormed re) (hslots : 2 ≤ nslots) (hs : s ≤ input.length) {q : Config}
    (hq : re.Reaches input bol nslots s q) (hsp : q.sp = sp) (htakes : re.takesAt input sp q.pc) {pc : Nat}
    (hpath : ReflTransGen (re.threadGraph input bol (sp + 1)).Edge (q.pc + 1) pc) (hwaits : re.waitsAt pc)
    (before after : List Thread) (caps : Slots) :
    ∃ d, (pc, d) ∈ (visitAll (re.threadGraph input bol (sp + 1)) (re.prog.length + 1)
        (before ++ (q.pc + 1, caps) :: after) .none).out ∧
      ∃ r ∈ before ++ [(q.pc + 1, caps)], ReflTransGen (re.threadGraph input bol (sp + 1)).Step r (pc, d) := by
  subst hsp
  have hlt := (h.since_of_reaches hslots hs (hq.tail (step_of_takesAt htakes))).pc_lt
  exact visitAll_complete (r := (q.pc + 1, caps)) _ (by simp [threadGraph]) _ _ (Finset.mem_range.mpr hlt) hpath
    (leaf_of_waitsAt hwaits)

theorem WellFormed.anchored_advance (h : WellFormed re) (hback : re.hasBackref = false) (hslots : 2 ≤ nslots)
    (hs : s ≤ input.length) {st : ScanState} (hst : Anchored re input bol nslots s st) :
    Anchored re input bol nslots s (re.advance input bol true st) := by
  have hthreads : (re.advance input bol true st).threads =
      (visitAll (re.threadGraph input bol (st.sp + 1)) (re.prog.length + 1) (re.onward input st.sp st.threads) .none).out := by
    rw [advance]
    simp only [pass_longest_nlist]
  have hmatched : ((∀ th ∈ st.threads, re.accepting th = false) ∧ (re.advance input bol true st).matched = st.matched ∧
        (re.advance input bol true st).matchedAt = st.matchedAt) ∨
      ∃ th ∈ st.threads, re.accepting th = true ∧ (re.advance input bol true st).matched = some th.2 ∧
        (re.advance input bol true st).matchedAt = some st.sp :=
    pass_longest_matched (p := ⟨.none, st.matched, st.matchedAt, none, 0⟩) st.threads hst.before
  have hsp : (re.advance input bol true st).sp = st.sp + 1 := rfl
  have hge := hst.sp_ge
  refine ⟨by omega, fun th hth => ?_, fun c hreach hcsp hwaits => ?_, ?_, ?_, fun c hreach haccepts hlt => ?_⟩
  · rw [hthreads] at hth
    obtain ⟨r, hr, hsteps⟩ := (visitAll_sound _ _ _ th hth).resolve_left List.not_mem_nil
    exact reaches_of_onward hst.sound hr hsteps
  · rw [hsp] at hcsp
    rcases h.arrives hback hslots hs hreach with ⟨heq, -⟩ | ⟨q, hq, hqsp, hqwaits, htakes, hpath⟩
    · omega
    · have hqeq : q.sp = st.sp := by omega
      rw [hqeq] at htakes
      rw [hcsp] at hpath
      obtain ⟨th, hth, hpc⟩ := hst.complete q hq hqeq hqwaits
      have hr : (q.pc + 1, th.2) ∈ re.onward input st.sp st.threads :=
        mem_onward.mpr ⟨th, hth, by rwa [hpc], by rw [hpc]⟩
      obtain ⟨front, back, hsplit⟩ := List.append_of_mem hr
      obtain ⟨d, hd, -⟩ := h.onward_complete hslots hs hq hqeq htakes hpath hwaits front back th.2
      rw [hthreads, hsplit]
      exact ⟨_, hd, rfl⟩
  · rw [hsp]
    rcases hmatched with ⟨-, -, hat⟩ | ⟨th, -, -, -, hat⟩
    · rw [hat]
      exact before_succ hst.before
    · simp [hat]
  · rcases hmatched with ⟨-, hm, hat⟩ | ⟨th, hth, haccepts, hm, hat⟩
    · rw [hm, hat]
      exact hst.matched
    · exact .inr ⟨⟨th.1, st.sp, th.2⟩, hst.sound th hth, accepting_iff.mp haccepts, hm, hat⟩
  · rw [hsp] at hlt
    rcases hmatched with ⟨hnone, -, hat⟩ | ⟨th, -, -, -, hat⟩
    · rcases Nat.eq_or_lt_of_le (Nat.le_of_lt_succ hlt) with heq | hlt
      · -- a path that accepts here has a thread here, and none accepts
        obtain ⟨th, hth, hpc⟩ := hst.complete c hreach heq (waitsAt_of_accepts haccepts)
        have haccepting : re.accepting th = true := accepting_iff.mpr (hpc ▸ haccepts)
        rw [hnone th hth] at haccepting
        cases haccepting
      · rw [hat]
        exact hst.longest c hreach haccepts hlt
    · exact ⟨st.sp, hat, Nat.le_of_lt_succ hlt⟩

/-- What the anchored scan answers: the slots of the longest of the paths that accept. -/
def LongestFrom (re : Regex) (input : List Ch) (bol : StartOfLine) (nslots s : Nat) : Option Slots → Prop
  | none => ∀ c, re.Reaches input bol nslots s c → ¬ re.Accepts c
  | some caps => ∃ c, (re.Reaches input bol nslots s c ∧ re.Accepts c) ∧ c.caps = caps ∧
      ∀ c', re.Reaches input bol nslots s c' → re.Accepts c' → c'.sp ≤ c.sp

/-- When all paths have accepted that can, the longest of them is the answer. -/
theorem Anchored.settled {st : ScanState} (hst : Anchored re input bol nslots s st)
    (hall : ∀ c, re.Reaches input bol nslots s c → re.Accepts c → c.sp < st.sp) :
    LongestFrom re input bol nslots s st.matched := by
  rcases hst.matched with ⟨hm, hat⟩ | ⟨c, hreach, haccepts, hm, hat⟩
  · rw [hm]
    intro c hreach haccepts
    obtain ⟨e, he, -⟩ := hst.longest c hreach haccepts (hall c hreach haccepts)
    rw [hat] at he
    cases he
  · rw [hm]
    refine ⟨c, ⟨hreach, haccepts⟩, rfl, fun c' hreach' haccepts' => ?_⟩
    obtain ⟨e, he, hle⟩ := hst.longest c' hreach' haccepts' (hall c' hreach' haccepts')
    rw [hat] at he
    cases he
    exact hle

/-- With no thread left, no path accepts from here on. -/
theorem WellFormed.anchored_nil (h : WellFormed re) (hback : re.hasBackref = false) (hslots : 2 ≤ nslots)
    (hs : s ≤ input.length) {st : ScanState} (hst : Anchored re input bol nslots s st) (hnil : st.threads = []) :
    ∀ c, re.Reaches input bol nslots s c → re.Accepts c → c.sp < st.sp := by
  have hnone : ∀ q : Config, re.Reaches input bol nslots s q → q.sp = st.sp → ¬ re.waitsAt q.pc := by
    intro q hq hqsp hwaits
    obtain ⟨th, hth, -⟩ := hst.complete q hq hqsp hwaits
    rw [hnil] at hth
    cases hth
  intro c hreach haccepts
  by_contra hge
  rcases Nat.eq_or_lt_of_le (Nat.le_of_not_lt hge) with heq | hlt
  · exact hnone c hreach heq.symm (waitsAt_of_accepts haccepts)
  · obtain ⟨q, hq, hqsp, hwaits⟩ := h.waited hback hslots hs hreach hst.sp_ge hlt
    exact hnone q hq hqsp hwaits

theorem WellFormed.anchored_scanLoop (h : WellFormed re) (hback : re.hasBackref = false) (hslots : 2 ≤ nslots)
    (hs : s ≤ input.length) (seedPc fuel : Nat) {st : ScanState} (hst : Anchored re input bol nslots s st)
    (hfuel : input.length < fuel + st.sp) :
    LongestFrom re input bol nslots s (re.scanLoop input bol none seedPc true nslots fuel st) := by
  have hpast : input.length < st.sp → LongestFrom re input bol nslots s st.matched := fun hlt =>
    hst.settled fun c hreach _ => Nat.lt_of_le_of_lt (h.since_of_reaches hslots hs hreach).sp_le hlt
  induction fuel generalizing st with
  | zero => exact hpast (by omega)
  | succ fuel ih =>
    rw [scanLoop]
    split
    next hlt => exact hpast hlt
    · split
      next hempty => exact hst.settled (h.anchored_nil hback hslots hs hst (List.isEmpty_iff.mp hempty))
      · have hnext := h.anchored_advance hback hslots hs hst
        have hsp : (re.advance input bol true st).sp = st.sp + 1 := rfl
        exact ih hnext (by omega) fun hlt =>
          hnext.settled fun c hreach _ => Nat.lt_of_le_of_lt (h.since_of_reaches hslots hs hreach).sp_le hlt

theorem WellFormed.anchored_seeds (h : WellFormed re) (hback : re.hasBackref = false) (hslots : 2 ≤ nslots)
    (hs : s ≤ input.length) :
    Anchored re input bol nslots s ⟨re.seeds input bol re.entry nslots s, s, true, none, none⟩ := by
  have hseeds : re.seeds input bol re.entry nslots s =
      (visitAll (re.threadGraph input bol s) (re.prog.length + 1) ([] ++ (re.entry, List.replicate nslots none) :: [])
        .none).out := by
    rw [seeds, added_eq_visit]
    rfl
  refine ⟨Nat.le_refl _, fun th hth => ?_, fun c hreach hcsp hwaits => ?_, rfl, .inl ⟨rfl, rfl⟩, fun c hreach _ hlt => ?_⟩
  · simp only [hseeds] at hth
    obtain ⟨r, hr, hsteps⟩ := (visitAll_sound _ _ _ th hth).resolve_left List.not_mem_nil
    rw [List.mem_singleton.mp hr] at hsteps
    exact path_of_threadSteps hsteps
  · rcases h.arrives hback hslots hs hreach with ⟨-, hpath⟩ | ⟨q, hq, hqsp, -⟩
    · have hlen := h.length_ge
      rw [← h.entry] at hpath
      obtain ⟨d, hd, -⟩ := visitAll_complete (g := re.threadGraph input bol s)
        (r := (re.entry, List.replicate nslots none)) (re.prog.length + 1) (by simp [threadGraph]) [] []
        (Finset.mem_range.mpr (by rw [h.entry]; omega)) hpath (leaf_of_waitsAt hwaits)
      exact ⟨_, by rwa [hseeds], rfl⟩
    · have hge := (h.since_of_reaches hslots hs hq).sp_ge
      simp only at hcsp
      omega
  · have hge := (h.since_of_reaches hslots hs hreach).sp_ge
    simp only at hlt
    omega

variable (bol) in
/-- **The anchored scan finds the longest match from its start.** -/
theorem WellFormed.scan_longest (h : WellFormed re) (hback : re.hasBackref = false) (hslots : 2 ≤ nslots)
    (hs : s ≤ input.length) : LongestFrom re input bol nslots s (re.scan input bol s re.entry true nslots) := by
  have hentry : re.entry ≠ 0 := by
    rw [h.entry]
    decide
  rw [scan]
  simp only [if_neg hentry, Nat.min_eq_left hs]
  exact h.anchored_scanLoop hback hslots hs re.entry _ (h.anchored_seeds hback hslots hs) (by simp only; omega)

/-! ## The leftmost match -/

/-- Where a match began, by its slots. -/
def began (caps : Slots) : Nat := caps[0]?.join.getD 0

theorem WellFormed.began_of_reaches (h : WellFormed re) (hslots : 2 ≤ nslots) (hs : s ≤ input.length)
    (hreach : re.Reaches input bol nslots s c) (hwaits : re.waitsAt c.pc) : began c.caps = s := by
  have hsince := h.since_of_reaches hslots hs hreach
  have hpc : 4 ≤ c.pc := by
    refine Nat.lt_of_le_of_ne hsince.pc_ge fun heq => ?_
    rw [← heq, waitsAt, h.searching.2.2.2] at hwaits
    cases hwaits
  simp [began, hsince.begins hpc]

/-- A thread of the pattern: a path from where its match began, at or after the start, comes to it. -/
def Follows (re : Regex) (input : List Ch) (bol : StartOfLine) (nslots start sp : Nat) (th : Thread) : Prop :=
  (start ≤ began th.2 ∧ began th.2 ≤ input.length) ∧ re.Reaches input bol nslots (began th.2) ⟨th.1, sp, th.2⟩

/-- Threads in the order of where their matches began. -/
abbrev InOrder (threads : List Thread) : Prop := threads.Pairwise fun th th' => began th.2 ≤ began th'.2

variable (re input sp) in
theorem onward_inOrder {threads : List Thread} (h : InOrder threads) : InOrder (re.onward input sp threads) := by
  classical
  exact List.pairwise_map.mpr (h.filter _)

section

variable {start : Nat} {threads : List Thread}

theorem follows_onward (hfollows : ∀ th ∈ threads, Follows re input bol nslots start sp th) :
    ∀ r ∈ re.onward input sp threads, Follows re input bol nslots start (sp + 1) r := by
  intro r hr
  obtain ⟨th, hth, htakes, rfl⟩ := mem_onward.mp hr
  obtain ⟨hbegan, hreach⟩ := hfollows th hth
  exact ⟨hbegan, hreach.tail (step_of_takesAt htakes)⟩

/-- What a thread of the pattern leads to at its position follows on from where it began. -/
theorem WellFormed.follows_steps (h : WellFormed re) (hslots : 2 ≤ nslots) {r th : Thread}
    (hr : Follows re input bol nslots start sp r) (hsteps : ReflTransGen (re.threadGraph input bol sp).Step r th)
    (hwaits : re.waitsAt th.1) : Follows re input bol nslots start sp th ∧ began th.2 = began r.2 := by
  obtain ⟨hbegan, hreach⟩ := hr
  have hpath := hreach.trans (path_of_threadSteps hsteps)
  have heq : began th.2 = began r.2 := h.began_of_reaches hslots hbegan.2 hpath hwaits
  exact ⟨by rw [Follows, heq]; exact ⟨hbegan, hpath⟩, heq⟩

variable (input bol sp) in
theorem waitsAt_of_mem_out (roots : List Thread) {th : Thread}
    (hth : th ∈ (visitAll (re.threadGraph input bol sp) (re.prog.length + 1) roots .none).out) : re.waitsAt th.1 :=
  ((leavesOut_visitAll _ roots leavesOut_none th.1).mp ⟨th.2, hth⟩).2

/-- What the pattern's threads lead to at a position: each follows on from one of them, in their order. -/
theorem WellFormed.out_inOrder (h : WellFormed re) (hslots : 2 ≤ nslots) {roots : List Thread}
    (hroots : ∀ r ∈ roots, Follows re input bol nslots start sp r) (horder : InOrder roots) :
    (∀ th ∈ (visitAll (re.threadGraph input bol sp) (re.prog.length + 1) roots .none).out,
        Follows re input bol nslots start sp th ∧ ∃ r ∈ roots, began th.2 = began r.2) ∧
      InOrder (visitAll (re.threadGraph input bol sp) (re.prog.length + 1) roots .none).out := by
  constructor
  · intro th hth
    obtain ⟨r, hr, hsteps⟩ := (visitAll_sound _ _ _ th hth).resolve_left List.not_mem_nil
    obtain ⟨hfollows, heq⟩ := h.follows_steps hslots (hroots r hr) hsteps (waitsAt_of_mem_out _ _ _ _ hth)
    exact ⟨hfollows, r, hr, heq⟩
  · have hpairs := visitAll_pairwise (g := re.threadGraph input bol sp)
      (R := fun th th' => re.waitsAt th.1 → re.waitsAt th'.1 → began th.2 ≤ began th'.2) (re.prog.length + 1) roots .none
      (fun r hr o o' ho ho' hwaits hwaits' => ?_) ?_ (fun _ ho => absurd ho List.not_mem_nil) List.Pairwise.nil
    · exact hpairs.imp_of_mem fun hth hth' hle => hle (waitsAt_of_mem_out _ _ _ _ hth) (waitsAt_of_mem_out _ _ _ _ hth')
    · rw [(h.follows_steps hslots (hroots r hr) ho hwaits).2, (h.follows_steps hslots (hroots r hr) ho' hwaits').2]
    · refine horder.imp_of_mem fun {r r'} hr hr' hle o o' ho ho' hwaits hwaits' => ?_
      rw [(h.follows_steps hslots (hroots r hr) ho hwaits).2, (h.follows_steps hslots (hroots r' hr') ho' hwaits').2]
      exact hle

/-- **Where a path goes on from a thread, a thread comes to** that began no later. -/
theorem WellFormed.onward_began (h : WellFormed re) (hslots : 2 ≤ nslots)
    (hfollows : ∀ th ∈ threads, Follows re input bol nslots start sp th) (horder : InOrder threads) {th : Thread}
    (hth : th ∈ threads) (htakes : re.takesAt input sp th.1) {pc : Nat}
    (hpath : ReflTransGen (re.threadGraph input bol (sp + 1)).Edge (th.1 + 1) pc) (hwaits : re.waitsAt pc)
    (more : List Thread) :
    ∃ d, (pc, d) ∈ (visitAll (re.threadGraph input bol (sp + 1)) (re.prog.length + 1)
        (re.onward input sp threads ++ more) .none).out ∧ began d ≤ began th.2 := by
  have hr : (th.1 + 1, th.2) ∈ re.onward input sp threads := mem_onward.mpr ⟨th, hth, htakes, rfl⟩
  have hordered := onward_inOrder re input sp horder
  have hroots := follows_onward hfollows
  obtain ⟨front, back, hsplit⟩ := List.append_of_mem hr
  obtain ⟨hbegan, hreach⟩ := hfollows th hth
  obtain ⟨d, hd, r, hrmem, hsteps⟩ := h.onward_complete hslots hbegan.2 hreach rfl htakes hpath hwaits front (back ++ more) th.2
  refine ⟨d, by simpa [hsplit] using hd, ?_⟩
  have hrfront : r ∈ front ++ [(th.1 + 1, th.2)] := hrmem
  have hrroots : r ∈ re.onward input sp threads := by
    rw [hsplit]
    rcases List.mem_append.mp hrfront with hrm | hrm
    · exact List.mem_append_left _ hrm
    · exact List.mem_append_right _ (List.mem_cons.mpr (.inl (List.mem_singleton.mp hrm)))
  have heq : began d = began r.2 := (h.follows_steps hslots (hroots r hrroots) hsteps hwaits).2
  rw [heq]
  rcases List.mem_append.mp hrfront with hrm | hrm
  · rw [hsplit] at hordered
    exact (List.pairwise_append.mp hordered).2.2 r hrm (th.1 + 1, th.2) List.mem_cons_self
  · rw [List.mem_singleton.mp hrm]

end

end Regex

end SlateOS.Ere
