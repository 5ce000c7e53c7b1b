/-
# SlateOS.Ere.Backward -- the backward search, and the prefilter

`userspace/ere/src/engine.rs`: `rsearch` tries the starts of its window from the last down, the prefilter passing over
those where nothing begins. Without backreferences the prefilter changes no answer. With them a start that is passed
over costs nothing of the budget that the starts share, so a search may end that is abandoned without the prefilter.
-/
import SlateOS.Ere.Matches

namespace SlateOS.Ere

namespace Regex

variable [CharData] {re : Regex} {input : List Ch} {bol : StartOfLine} {nslots : Nat}

/-! ## The last match -/

section

variable (re : Regex) (input : List Ch)

/-- The loop of `rsearch`, over the starts before a position, from the last down. -/
def rsearchBefore : Nat → Nat → Except MatchLimit (Option (Nat × Nat))
  | 0, _ => .ok none
  | start + 1, budget =>
    if re.prefilter.any fun pf => !re.canStart input .yes pf start then rsearchBefore start budget
    else if re.hasBackref then
      match re.backtrackAt input .yes start budget with
      | .limit => .error .mk
      | .done best budget =>
        match (best.map Prod.fst).bind fun slots => slots[1]?.join with
        | some stop => .ok (some (start, stop))
        | none => rsearchBefore start budget
    else
      match (re.scan input .yes start re.entry true matchSlots).bind fun slots => slots[1]?.join with
      | some stop => .ok (some (start, stop))
      | none => rsearchBefore start budget

/-- What `rsearch` searches its window for. -/
def rsearch : Except MatchLimit (Option (Nat × Nat)) :=
  re.rsearchBefore input input.length (backtrackBudget input.length)

end

/-- The match that begins last before a position, and the longest from there. -/
def LastLongest (M : Nat → Nat → Prop) (bound : Nat) : Option (Nat × Nat) → Prop
  | none => ∀ s e, s < bound → ¬ M s e
  | some (s, e) => (s < bound ∧ M s e) ∧ (∀ e', M s e' → e' ≤ e) ∧ ∀ s' e', s' < bound → M s' e' → s' ≤ s

/-- The longest match from a start, by its slots. -/
def LongestAt (M : Nat → Nat → Prop) (s : Nat) : Option Slots → Prop
  | none => ∀ e, ¬ M s e
  | some slots => ∃ e, Spans slots s e ∧ M s e ∧ ∀ e', M s e' → e' ≤ e

section

omit [CharData]

variable {M : Nat → Nat → Prop} {start : Nat}

theorem LastLongest.below {res : Option (Nat × Nat)} (hnone : ∀ e, ¬ M start e) (h : LastLongest M start res) :
    LastLongest M (start + 1) res := by
  have hbelow : ∀ s e, s < start + 1 → M s e → s < start := by
    intro s e hs hmatch
    rcases Nat.eq_or_lt_of_le (Nat.le_of_lt_succ hs) with rfl | hlt
    · exact absurd hmatch (hnone e)
    · exact hlt
  match res, h with
  | none, h => exact fun s e hs hmatch => h s e (hbelow s e hs hmatch) hmatch
  | some (s, e), ⟨⟨hs, hmatch⟩, hlongest, hlast⟩ =>
    exact ⟨⟨Nat.lt_succ_of_lt hs, hmatch⟩, hlongest, fun s' e' hs' hmatch' => hlast s' e' (hbelow s' e' hs' hmatch') hmatch'⟩

/-- What an attempt finds at a start, if something matches there, begins last. -/
theorem LongestAt.cases {slots : Option Slots} (h : LongestAt M start slots) :
    (∃ stop, (slots.bind fun slots => slots[1]?.join) = some stop ∧ LastLongest M (start + 1) (some (start, stop))) ∨
      ((slots.bind fun slots => slots[1]?.join) = none ∧ ∀ e, ¬ M start e) := by
  rcases slots with - | slots
  · exact .inr ⟨rfl, h⟩
  · obtain ⟨e, hspans, hmatch, hlongest⟩ := h
    exact .inl ⟨e, by simp [hspans.2], ⟨Nat.lt_succ_self start, hmatch⟩, hlongest, fun s' _ hs' _ => Nat.le_of_lt_succ hs'⟩

end

theorem WellFormed.backtrackAt_longest (h : WellFormed re) {start budget left : Nat} {best : Best} (hs : start ≤ input.length)
    (hat : re.backtrackAt input bol start budget = .done best left) :
    LongestAt (re.GuardedMatchAt input bol) start (best.map Prod.fst) := by
  obtain ⟨hfound, hall⟩ := h.backtrackAt_spec hs hat
  rcases best with - | ⟨slots, e⟩
  · intro e hmatch
    obtain ⟨x, hx, -⟩ := hall e hmatch
    cases hx
  · obtain ⟨hspans, hmatch⟩ := hfound slots e rfl
    refine ⟨e, hspans, hmatch, fun e' hmatch' => ?_⟩
    obtain ⟨x, hx, hle⟩ := hall e' hmatch'
    cases hx
    exact hle

variable (bol) in
theorem WellFormed.scan_longestAt (h : WellFormed re) (hback : re.hasBackref = false) (hslots : 2 ≤ nslots) {start : Nat}
    (hs : start ≤ input.length) :
    LongestAt (re.MatchAt input bol) start (re.scan input bol start re.entry true nslots) := by
  have hlongest := h.scan_longest bol hback hslots hs
  rcases hscan : re.scan input bol start re.entry true nslots with - | slots
  · rw [hscan] at hlongest
    intro e hmatch
    obtain ⟨-, c, hreach, haccepts, -⟩ := (h.matchAt_iff_reaches hback nslots).mp hmatch
    exact hlongest c hreach haccepts
  · rw [hscan] at hlongest
    obtain ⟨c, ⟨hreach, haccepts⟩, rfl, hmost⟩ := hlongest
    refine ⟨c.sp, h.spans_of_accepts (h.since_of_reaches hslots hs hreach) haccepts,
      (h.matchAt_iff_reaches hback nslots).mpr ⟨hs, c, hreach, haccepts, rfl⟩, fun e hmatch => ?_⟩
    obtain ⟨-, d, hd, hdaccepts, rfl⟩ := (h.matchAt_iff_reaches hback nslots).mp hmatch
    exact hmost d hd hdaccepts

theorem WellFormed.rsearchBefore_spec (h : WellFormed re) (bound budget : Nat) (hbound : bound ≤ input.length) :
    (∀ res, re.rsearchBefore input bound budget = .ok res → LastLongest (re.Finding input .yes) bound res) ∧
      (re.hasBackref = false → ∃ res, re.rsearchBefore input bound budget = .ok res) := by
  induction bound generalizing budget with
  | zero => exact ⟨fun res hres => by cases hres; exact fun s e hs => absurd hs (Nat.not_lt_zero s), fun _ => ⟨none, rfl⟩⟩
  | succ start ih =>
    have hs : start ≤ input.length := Nat.le_of_succ_le hbound
    -- where nothing begins at the start, what the loop answers for those before it stands
    have hgoes : ∀ budget, (∀ e, ¬ re.Finding input .yes start e) →
        (∀ res, re.rsearchBefore input start budget = .ok res → LastLongest (re.Finding input .yes) (start + 1) res) ∧
          (re.hasBackref = false → ∃ res, re.rsearchBefore input start budget = .ok res) := fun budget hnone =>
      ⟨fun res hres => ((ih budget hs).1 res hres).below hnone, (ih budget hs).2⟩
    rw [rsearchBefore]
    split
    next hskips =>
      obtain ⟨pf, hpf, hcan⟩ := (Option.any_eq_true _ _).mp hskips
      refine hgoes budget fun e hfind => ?_
      obtain ⟨-, c, hreach, haccepts, -⟩ := matchAt_iff.mp hfind.matchAt
      exact (stuck_of_not_canStart h hpf (by simpa using hcan) hreach).2 haccepts
    · split
      next hback =>
        refine ⟨?_, fun hnot => absurd hback (by simp [hnot])⟩
        rcases hat : re.backtrackAt input .yes start budget with - | ⟨best, left⟩
        · intro res hres
          cases hres
        · have hlongest := h.backtrackAt_longest hs hat
          rw [← finding_of_backref hback] at hlongest
          rcases hlongest.cases with ⟨stop, hstop, hlast⟩ | ⟨hnothing, hnone⟩
          · simp only [hstop]
            exact fun res hres => by cases hres; exact hlast
          · simp only [hnothing]
            exact (hgoes left hnone).1
      next hback =>
        have hnot : re.hasBackref = false := by simpa using hback
        have hlongest := h.scan_longestAt .yes hnot (Nat.le_refl matchSlots) hs
        rw [← finding_of_not_backref hback] at hlongest
        rcases hlongest.cases with ⟨stop, hstop, hlast⟩ | ⟨hnothing, hnone⟩
        · simp only [hstop]
          exact ⟨fun res hres => by cases hres; exact hlast, fun _ => ⟨_, rfl⟩⟩
        · simp only [hnothing]
          exact hgoes budget hnone

/-- **The backward search answers the match that begins last, and the longest from there**, of those that begin before
the end; without backreferences it always answers. The prefilter passes over no match. -/
theorem rsearch_last_longest (h : Built re) (input : List Ch) :
    (∀ res, re.rsearch input = .ok res → LastLongest (re.Finding input .yes) input.length res) ∧
      (re.hasBackref = false → ∃ res, re.rsearch input = .ok res) :=
  h.wellFormed.rsearchBefore_spec _ _ (Nat.le_refl _)

/-! ## The prefilter in the backward search -/

theorem btLoop_unfiltered (fuel budget : Nat) (stack : List BtFrame) (best : Best) :
    re.unfiltered.btLoop input bol fuel budget stack best = re.btLoop input bol fuel budget stack best := by
  induction fuel generalizing budget stack best with
  | zero => cases stack <;> rfl
  | succ fuel ih =>
    cases stack with
    | nil => rfl
    | cons f stack =>
      rw [btLoop, btLoop]
      simp only [ih]
      rfl

theorem skips_unfiltered (start : Nat) :
    (re.unfiltered.prefilter.any fun pf => !re.unfiltered.canStart input bol pf start) = false := rfl

theorem backtrackAt_unfiltered (start budget : Nat) :
    re.unfiltered.backtrackAt input bol start budget = re.backtrackAt input bol start budget :=
  btLoop_unfiltered _ _ _ _

variable (input bol nslots) in
theorem WellFormed.scan_entry_unfiltered (h : WellFormed re) (start : Nat) :
    re.unfiltered.scan input bol start re.unfiltered.entry true nslots = re.scan input bol start re.entry true nslots := by
  have hentry : re.entry ≠ 0 := by
    rw [h.entry]
    decide
  rw [scan, scan]
  simp only [show re.unfiltered.entry = re.entry from rfl, if_neg hentry]
  rw [seeds_of_unfiltered]
  exact scanLoop_of_unfiltered none _ _ _

/-- A larger budget changes no attempt, and leaves as much more. -/
theorem backtrackAt_budget {start budget left : Nat} {best : Best} (more : Nat)
    (hat : re.backtrackAt input bol start budget = .done best left) :
    re.backtrackAt input bol start (budget + more) = .done best (left + more) ∧ left ≤ budget := by
  rw [backtrackAt, btLoop_fuel _ (budget + more + 1) _ _ _ (Nat.lt_succ_self budget) (by omega)] at hat
  exact btLoop_budget _ budget more _ _ _ _ hat

/-- Where the prefilter lets nothing begin, neither search finds anything. -/
theorem WellFormed.skips_nothing (h : WellFormed re) {start : Nat}
    (hskips : (re.prefilter.any fun pf => !re.canStart input bol pf start) = true) (e : Nat) : ¬ re.MatchAt input bol start e := by
  obtain ⟨pf, hpf, hcan⟩ := (Option.any_eq_true _ _).mp hskips
  intro hmatch
  obtain ⟨-, c, hreach, haccepts, -⟩ := matchAt_iff.mp hmatch
  exact (stuck_of_not_canStart h hpf (by simpa using hcan) hreach).2 haccepts

/-- Without backreferences the backward search answers as the one without a prefilter. -/
theorem WellFormed.rsearchBefore_unfiltered (h : WellFormed re) (hback : re.hasBackref = false) (bound budget : Nat)
    (hbound : bound ≤ input.length) :
    re.rsearchBefore input bound budget = re.unfiltered.rsearchBefore input bound budget := by
  induction bound with
  | zero => rfl
  | succ start ih =>
    have hs : start ≤ input.length := Nat.le_of_succ_le hbound
    have hscan := h.scan_entry_unfiltered input .yes matchSlots start
    have hback' : re.unfiltered.hasBackref = false := hback
    rw [rsearchBefore, rsearchBefore]
    simp only [skips_unfiltered, hback, hback', hscan, ih hs, Bool.false_eq_true, if_false]
    split
    next hskips =>
      rcases (h.scan_longestAt .yes hback (Nat.le_refl matchSlots) hs).cases with ⟨stop, -, ⟨-, hmatch⟩, -⟩ | ⟨hnothing, -⟩
      · exact absurd hmatch (h.skips_nothing hskips stop)
      · simp only [hnothing]
    · rfl

/-- A backtracking search that ends without a prefilter answers the same with one, whatever budget it has more. -/
theorem WellFormed.rsearchBefore_of_unfiltered (h : WellFormed re) (hback : re.hasBackref = true) (bound budget more : Nat)
    (hbound : bound ≤ input.length) {res : Option (Nat × Nat)}
    (hres : re.unfiltered.rsearchBefore input bound budget = .ok res) :
    re.rsearchBefore input bound (budget + more) = .ok res := by
  induction bound generalizing budget more with
  | zero => exact hres
  | succ start ih =>
    have hs : start ≤ input.length := Nat.le_of_succ_le hbound
    have hback' : re.unfiltered.hasBackref = true := hback
    rw [rsearchBefore, skips_unfiltered, if_neg Bool.false_ne_true, if_pos hback', backtrackAt_unfiltered] at hres
    rcases hat : re.backtrackAt input .yes start budget with - | ⟨best, left⟩
    · rw [hat] at hres
      cases hres
    · rw [hat] at hres
      simp only at hres
      obtain ⟨hmore, hleft⟩ := backtrackAt_budget more hat
      rw [rsearchBefore]
      split
      next hskips =>
        rcases (h.backtrackAt_longest hs hat).cases with ⟨stop, -, ⟨-, hmatch⟩, -⟩ | ⟨hnothing, -⟩
        · exact absurd hmatch.matchAt (h.skips_nothing hskips stop)
        · rw [hnothing] at hres
          have hrest := ih left (budget + more - left) hs hres
          rwa [show left + (budget + more - left) = budget + more by omega] at hrest
      · rw [hmore]
        simp only
        split at hres
        · exact hres
        · exact ih left more hs hres

/-- **The prefilter changes no answer**: the scan answers as the one without it, and so does the backward search, unless
it backtracks and is abandoned without it. -/
theorem prefilter_changes_no_answer (h : Built re) (input : List Ch) :
    (∀ bol start longest nslots,
        re.scan input bol start 0 longest nslots = re.unfiltered.scan input bol start 0 longest nslots) ∧
      (re.hasBackref = false → re.rsearch input = re.unfiltered.rsearch input) ∧
      ∀ res, re.unfiltered.rsearch input = .ok res → re.rsearch input = .ok res := by
  have hplain : re.hasBackref = false → re.rsearch input = re.unfiltered.rsearch input := fun hback =>
    h.wellFormed.rsearchBefore_unfiltered hback _ _ (Nat.le_refl _)
  refine ⟨fun bol start longest nslots => h.wellFormed.scan_unfiltered start longest nslots, hplain, fun res hres => ?_⟩
  by_cases hback : re.hasBackref
  · exact h.wellFormed.rsearchBefore_of_unfiltered hback _ _ 0 (Nat.le_refl _) hres
  · rw [hplain (by simpa using hback)]
    exact hres

end Regex

/-- On `xabb` both searches find `abb`, which the prefilter lets begin at its `a` only. -/
theorem prefilter_changes_no_answer_at_xabb :
    @Regex.scan CharData.ascii starred ("xabb".toList.map Ch.u) .yes 0 0 false 2 =
        @Regex.scan CharData.ascii starred.unfiltered ("xabb".toList.map Ch.u) .yes 0 0 false 2 ∧
      @Regex.rsearch CharData.ascii starred ("xabb".toList.map Ch.u) =
        @Regex.rsearch CharData.ascii starred.unfiltered ("xabb".toList.map Ch.u) := by
  obtain ⟨hscan, hsearch, -⟩ :=
    @Regex.prefilter_changes_no_answer CharData.ascii starred starred_built ("xabb".toList.map Ch.u)
  exact ⟨hscan .yes 0 false 2, hsearch rfl⟩

/-- Searching `xabb` backward finds `abb`. -/
theorem rsearch_last_longest_at_xabb :
    @Regex.rsearch CharData.ascii starred ("xabb".toList.map Ch.u) = .ok (some (1, 4)) ∧
      Regex.LastLongest (@Regex.Finding CharData.ascii starred ("xabb".toList.map Ch.u) .yes) 4 (some (1, 4)) := by
  have hrun : @Regex.rsearch CharData.ascii starred ("xabb".toList.map Ch.u) = .ok (some (1, 4)) := by decide +kernel
  exact ⟨hrun, (@Regex.rsearch_last_longest CharData.ascii starred starred_built ("xabb".toList.map Ch.u)).1 _ hrun⟩

namespace Regex

variable [CharData] {re : Regex} {input : List Ch} {bol : StartOfLine}

/-! ## What exploring costs -/

/-- Exploring one stack comes to another at a cost, unless the budget ends it. -/
def Costs (re : Regex) (input : List Ch) (bol : StartOfLine) (cost : Nat) (stack stack' : List BtFrame) : Prop :=
  ∀ fuel budget best, re.btLoop input bol fuel budget stack best = .limit ∨
    ∃ fuel' budget', budget' + cost ≤ budget ∧
      re.btLoop input bol fuel budget stack best = re.btLoop input bol fuel' budget' stack' best

theorem Costs.trans {cost cost' : Nat} {stack stack' stack'' : List BtFrame} (h : Costs re input bol cost stack stack')
    (h' : Costs re input bol cost' stack' stack'') : Costs re input bol (cost + cost') stack stack'' := by
  intro fuel budget best
  rcases h fuel budget best with hlimit | ⟨fuel', budget', hcost, heq⟩
  · exact .inl hlimit
  · rcases h' fuel' budget' best with hlimit | ⟨fuel'', budget'', hcost', heq'⟩
    · exact .inl (heq.trans hlimit)
    · exact .inr ⟨fuel'', budget'', by omega, heq.trans heq'⟩

theorem Costs.mono {cost cost' : Nat} {stack stack' : List BtFrame} (h : Costs re input bol cost stack stack')
    (hle : cost' ≤ cost) : Costs re input bol cost' stack stack' := by
  intro fuel budget best
  exact (h fuel budget best).imp_right fun ⟨fuel', budget', hcost, heq⟩ => ⟨fuel', budget', by omega, heq⟩

/-- A frame costs at least the iteration it goes on by. -/
theorem costs_frame {f : BtFrame} {inst : Inst} (hinst : re.prog[f.pc]? = some inst) (hne : inst ≠ .matched)
    {nexts : List BtFrame} (hnexts : re.frameNexts input bol f = nexts) (stack : List BtFrame) :
    Costs re input bol 1 (f :: stack) (nexts ++ stack) := by
  have haccepts : ¬ re.Accepts f.config := fun haccepts => hne (Option.some.inj (hinst.symm.trans haccepts))
  intro fuel budget best
  cases fuel with
  | zero => exact .inl rfl
  | succ fuel =>
    rw [btLoop_goes haccepts, hnexts]
    split
    · exact .inl rfl
    next henough => exact .inr ⟨fuel, budget - (1 + re.backrefCost f), by omega, rfl⟩

/-- An attempt that costs more than its budget is abandoned. -/
theorem backtrackAt_limit {start budget cost : Nat} (h : Costs re input bol cost [re.btStart start] [])
    (hcost : budget < cost) : re.backtrackAt input bol start budget = .limit := by
  rcases h (budget + 1) budget none with hlimit | ⟨fuel', budget', hle, -⟩
  · exact hlimit
  · omega

end Regex

/-! ## Twenty choices in a row -/

/-- The block of the group in a row of `(|)`. -/
def choice (pc : Nat) : List Inst := [.save 2, .split (pc + 2) (pc + 3), .jmp (pc + 3), .save 3]

/-- `(|){20}a\\1`. -/
def choices : Regex :=
  ⟨[.split 3 1, .skip, .jmp 0, .save 0] ++ ((List.range 20).flatMap fun i => choice (4 + 4 * i)) ++
    [.char (.u 'a'), .backref 1, .save 1, .matched], 1, 3, false, true, false, false, some ⟨1#256 <<< 97, [84], false⟩⟩

/-- What the compiler makes of a pattern, by what it is checked to be. -/
theorem compilePattern_of_checked [CharData] {chars : List Ch} {syn : Syntax} {prog : List Inst} {ngroups : Nat}
    {hasBackref : Bool} (hchecked : (match parse chars syn with
      | .ok node p => decide (p.ngroups = ngroups ∧ p.warnings = [] ∧ (compileTree false node).isOver = false ∧
          (compileTree false node).hasBackref = hasBackref ∧ (compileTree false node).prog = prog)
      | _ => false) = true) :
    compilePattern chars false syn =
      .ok ⟨prog, ngroups, 3, false, hasBackref, false, false, Prefilter.of prog 3 false⟩ [] := by
  split at hchecked
  next node p hparse =>
    obtain ⟨hgroups, hwarnings, hover, hback, hprog⟩ := of_decide_eq_true hchecked
    simp only [compilePattern, hparse, hgroups, hwarnings, hover, hback, hprog, Bool.false_eq_true, if_false]
  next => cases hchecked

theorem choices_built : @Regex.Built CharData.ascii choices := by
  let _ := CharData.ascii
  have hof : Prefilter.of choices.prog 3 false = choices.prefilter := by
    have hfirsts : firstsLoop choices.prog (6 * choices.prog.length + 1) [(3, false)] [] [] true = some ([84], false) := by
      decide +kernel
    simp only [Prefilter.of, hfirsts, List.mergeSort_singleton]
    decide +kernel
  have hcompiled : compilePattern ("(|){20}a\\1".toList.map Ch.u) false .posixExtended =
      .ok ⟨choices.prog, 1, 3, false, true, false, false, Prefilter.of choices.prog 3 false⟩ [] :=
    compilePattern_of_checked (by decide +kernel)
  rw [hof] at hcompiled
  exact .compiled hcompiled

/-- The instructions of a block. -/
theorem choices_prog : ∀ i < 20, choices.prog[4 + 4 * i]? = some (.save 2) ∧
    choices.prog[4 + 4 * i + 1]? = some (.split (4 + 4 * i + 2) (4 + 4 * i + 3)) ∧
    choices.prog[4 + 4 * i + 2]? = some (.jmp (4 + 4 * i + 3)) ∧ choices.prog[4 + 4 * i + 3]? = some (.save 3) := by
  decide +kernel

namespace Regex

section

variable [CharData] {input : List Ch} {bol : StartOfLine}

/-- Before a character that `a` does not take, every block doubles what exploring from it costs. -/
theorem costs_choices (hinput : input[0]? = some (.u 'z')) (n : Nat) (hn : n ≤ 20) {f : BtFrame} (hpc : f.pc = 84 - 4 * n)
    (hsp : f.sp = 0) (stack : List BtFrame) : Costs choices input bol (2 ^ n) (f :: stack) stack := by
  induction n generalizing f stack with
  | zero =>
    have hinst : choices.prog[f.pc]? = some (.char (.u 'a')) := by
      rw [hpc]
      rfl
    have hdies : choices.frameNexts input bol f = [] := by
      have hz : takes (.char (.u 'a')) (some (.u 'z')) choices.ci choices.bytes = false := rfl
      simp only [frameNexts, btStep, hinst, hsp, hinput, hz, Bool.false_eq_true, if_false]
    exact costs_frame hinst (by simp) hdies stack
  | succ n ih =>
    obtain ⟨i, hi⟩ := Nat.exists_eq_add_of_le hn
    obtain ⟨hopen, hsplit, hjmp, hclose⟩ := choices_prog i (by omega)
    have hfirst : f.pc = 4 + 4 * i := by omega
    -- what is left of the block, once its branches meet, is the rest of the row
    have hrest : ∀ g : BtFrame, g.pc = 4 + 4 * i + 3 → g.sp = 0 → ∀ stack, Costs choices input bol (2 ^ n) (g :: stack) stack := by
      intro g hg hgsp stack
      rw [← hg] at hclose
      let g' : BtFrame := { g with pc := g.pc + 1, caps := g.caps.set 3 (some g.sp) }
      have hsave : choices.frameNexts input bol g = [g'] := by
        simp only [frameNexts, btStep, hclose, g']
      have hnext : g'.pc = 84 - 4 * n := by
        show g.pc + 1 = _
        omega
      have hrow := ih (f := g') (by omega) hnext hgsp stack
      exact ((costs_frame hclose (by simp) hsave stack).trans hrow).mono (Nat.le_add_left (2 ^ n) 1)
    let f₁ : BtFrame := { f with pc := 4 + 4 * i + 1, caps := f.caps.set 2 (some f.sp) }
    let f₂ : BtFrame := { f₁ with pc := 4 + 4 * i + 2 }
    let f₃ : BtFrame := { f₁ with pc := 4 + 4 * i + 3 }
    have hsaves : choices.frameNexts input bol f = [f₁] := by
      simp only [frameNexts, btStep, hfirst, hopen, f₁]
    have hforks : choices.frameNexts input bol f₁ = [f₂, f₃] := by
      simp only [frameNexts, btStep, f₁, f₂, f₃, hsplit]
    have hjumps : choices.frameNexts input bol f₂ = [f₃] := by
      have hforward : ¬ 4 + 4 * i + 3 ≤ 4 + 4 * i + 2 := by omega
      simp only [frameNexts, btStep, f₂, f₃, hjmp, if_neg hforward]
    rw [← hfirst] at hopen
    have hrests := (hrest f₃ rfl hsp (f₃ :: stack)).trans (hrest f₃ rfl hsp stack)
    have hbranches := (costs_frame hsplit (by simp) hforks stack).trans
      ((costs_frame hjmp (by simp) hjumps (f₃ :: stack)).trans hrests)
    refine ((costs_frame hopen (by simp) hsaves stack).trans hbranches).mono ?_
    rw [Nat.pow_succ]
    omega

end

end Regex

/-- On `z` the prefilter passes over the only start, and without it the search is abandoned there. -/
theorem prefilter_spares_the_budget :
    @Regex.Built CharData.ascii choices ∧
      @Regex.rsearch CharData.ascii choices [.u 'z'] = .ok none ∧
      @Regex.rsearch CharData.ascii choices.unfiltered [.u 'z'] = .error .mk := by
  let _ := CharData.ascii
  refine ⟨choices_built, by decide +kernel, ?_⟩
  have hstart : choices.prog[(choices.btStart 0).pc]? = some (.save 0) := rfl
  have hcosts : Regex.Costs choices [.u 'z'] .yes (1 + 2 ^ 20) [choices.btStart 0] [] :=
    (Regex.costs_frame hstart (by simp) rfl []).trans (Regex.costs_choices rfl 20 (Nat.le_refl 20) rfl rfl [])
  have hlimit := Regex.backtrackAt_limit hcosts (show backtrackBudget 1 < 1 + 2 ^ 20 by decide)
  show choices.unfiltered.rsearchBefore [.u 'z'] 1 (backtrackBudget 1) = _
  rw [Regex.rsearchBefore, Regex.skips_unfiltered, if_neg Bool.false_ne_true, Regex.backtrackAt_unfiltered, hlimit]
  rfl

end SlateOS.Ere
