/-
# SlateOS.Ere.Backtrack -- the search for patterns with a backreference

`userspace/ere/src/engine.rs`: `backtrack_at` follows one path of the program after another, keeping on a stack the
points it may return to, until its budget is spent; `run_backtrack` tries the starts in turn. A path dies where it would
take a loop's back edge twice at one position, so what is found is the longest match of the guarded paths. The frame
that is being followed is the first of the stack here, and the best match so far is one value with its end.
-/
import Mathlib.Data.Nat.Find
import SlateOS.Ere.Programs

namespace SlateOS.Ere

open Relation (ReflTransGen)

/-- `MatchLimit`. -/
inductive MatchLimit where
  | mk
  deriving DecidableEq

/-- `BACKTRACK_BUDGET_BASE`. -/
def backtrackBudgetBase : Nat := 1000000

/-- `BACKTRACK_BUDGET_PER_CHAR`. -/
def backtrackBudgetPerChar : Nat := 1000

/-- `BACKTRACK_BUDGET_MAX`. -/
def backtrackBudgetMax : Nat := 100000000

/-- `backtrack_budget`. -/
def backtrackBudget (inputLen : Nat) : Nat :=
  min (backtrackBudgetBase + inputLen * backtrackBudgetPerChar) backtrackBudgetMax

/-- `BtFrame`. -/
structure BtFrame where
  pc : Nat
  sp : Nat
  caps : Slots
  backEdges : List Nat
  backEdgesSp : Nat

/-- What one iteration of the inner loop does with its frame. -/
inductive BtMove where
  | dies
  | goes (f : BtFrame)
  | forks (f pushed : BtFrame)
  | accepts

/-- A match, and where it ends. -/
abbrev Best := Option (Slots × Nat)

/-- What `backtrack_at` returns, and the budget it leaves. -/
inductive BtResult where
  | limit
  | done (best : Best) (budget : Nat)

/-- The best match once a frame has accepted. -/
def bestOf (best : Best) (f : BtFrame) : Best := if best.all fun b => b.2 < f.sp then some (f.caps, f.sp) else best

/-- A frame that accepts is counted in the best. -/
theorem bestOf_spec (best : Best) (f : BtFrame) :
    (∀ x, bestOf best f = some x → best = some x ∨ x = (f.caps, f.sp)) ∧
      (∃ x, bestOf best f = some x ∧ f.sp ≤ x.2) ∧ ∀ b, best = some b → ∃ x, bestOf best f = some x ∧ b.2 ≤ x.2 := by
  unfold bestOf
  rcases best with - | ⟨caps, e⟩
  · simp
  · by_cases hlt : e < f.sp
    · simp [hlt]
      omega
    · simp [hlt]
      omega

namespace Regex

variable [CharData] (re : Regex) (input : List Ch) (bol : StartOfLine)

/-- What a backreference is charged for its comparison. -/
def backrefCost (f : BtFrame) : Nat :=
  match re.prog[f.pc]? with
  | some (.backref n) =>
    match groupSpan f.caps n with
    | some (s, e) => e - s
    | none => 0
  | _ => 0

/-- One iteration of the inner loop of `backtrack_at`, apart from the budget. -/
def btStep (f : BtFrame) : BtMove :=
  match re.prog[f.pc]? with
  | none => .dies
  | some inst =>
    match inst with
    | .char _ | .any | .skip | .cls _ =>
      if takes inst input[f.sp]? re.ci re.bytes then .goes { f with pc := f.pc + 1, sp := f.sp + 1 } else .dies
    | .backref n =>
      match re.backrefEnd input f.caps f.sp n with
      | some sp => .goes { f with pc := f.pc + 1, sp := sp }
      | none => .dies
    | .save n => .goes { f with pc := f.pc + 1, caps := f.caps.set n (some f.sp) }
    | .jmp x =>
      if x ≤ f.pc then
        let f := if f.backEdgesSp = f.sp then f else { f with backEdges := [], backEdgesSp := f.sp }
        if x ∈ f.backEdges then .dies else .goes { f with pc := x, backEdges := f.backEdges ++ [x] }
      else .goes { f with pc := x }
    | .split x y => .forks { f with pc := x } { f with pc := y }
    | .assertStart | .assertEnd | .assertBufStart | .assertBufEnd | .assertWord _ =>
      if re.assertHolds input bol inst f.sp then .goes { f with pc := f.pc + 1 } else .dies
    | .matched => .accepts

/-- The loops of `backtrack_at`. -/
def btLoop : Nat → Nat → List BtFrame → Best → BtResult
  | _, budget, [], best => .done best budget
  | 0, _, _ :: _, _ => .limit
  | fuel + 1, budget, f :: stack, best =>
    if budget < 1 + re.backrefCost f then .limit
    else
      let budget := budget - (1 + re.backrefCost f)
      match re.btStep input bol f with
      | .dies => btLoop fuel budget stack best
      | .goes f' => btLoop fuel budget (f' :: stack) best
      | .forks f' pushed => btLoop fuel budget (f' :: pushed :: stack) best
      | .accepts =>
        let best := bestOf best f
        if f.sp = input.length then .done best budget else btLoop fuel budget stack best

/-- The frame an attempt begins with. -/
def btStart (s : Nat) : BtFrame := ⟨re.entry, s, List.replicate re.allSlots none, [], s⟩

/-- `backtrack_at`. -/
def backtrackAt (s budget : Nat) : BtResult := re.btLoop input bol (budget + 1) budget [re.btStart s] none

/-- The loop of `run_backtrack`, over the starts in turn. -/
def backtrackFrom : List Nat → Nat → Except MatchLimit (Option Slots)
  | [], _ => .ok none
  | s :: starts, budget =>
    match re.backtrackAt input bol s budget with
    | .limit => .error .mk
    | .done (some (caps, _)) _ => .ok (some caps)
    | .done none budget => backtrackFrom starts budget

/-- `run_backtrack`. -/
def runBacktrack (start : Nat) : Except MatchLimit (Option Slots) :=
  let start := min start input.length
  re.backtrackFrom input bol (List.range' start (input.length + 1 - start)) (backtrackBudget input.length)

end Regex

/-! ## Guarded paths -/

namespace Regex

section

variable [CharData] (re : Regex) (input : List Ch) (bol : StartOfLine)

/-- The back edge that a configuration takes, if it stands at a jump backward: its target, and the position. -/
def backEdge (c : Config) : List (Nat × Nat) :=
  match re.prog[c.pc]? with
  | some (.jmp x) => if x ≤ c.pc then [(x, c.sp)] else []
  | _ => []

/-- A path of a pattern from a position to a configuration, with the back edges it has taken. -/
inductive Trail (s : Nat) : List (Nat × Nat) → Config → Prop
  | start : Trail s [] (re.start re.allSlots s)
  | step {edges : List (Nat × Nat)} {c c' : Config} :
    Trail s edges c → re.Step input bol c c' → Trail s (re.backEdge c ++ edges) c'

/-- A pattern matches from one position to another: one of its paths accepts. -/
def MatchAt (s e : Nat) : Prop :=
  s ≤ input.length ∧ ∃ edges c, re.Trail input bol s edges c ∧ re.Accepts c ∧ c.sp = e

/-- It matches along a path that takes no back edge twice at one position. -/
def GuardedMatchAt (s e : Nat) : Prop :=
  s ≤ input.length ∧ ∃ edges c, (re.Trail input bol s edges c ∧ edges.Nodup) ∧ re.Accepts c ∧ c.sp = e

end

variable [CharData] {re : Regex} {input : List Ch} {bol : StartOfLine} {s e : Nat} {c c' : Config}

theorem Trail.reaches {edges : List (Nat × Nat)} (h : re.Trail input bol s edges c) :
    re.Reaches input bol re.allSlots s c := by
  induction h with
  | start => exact .refl
  | step _ hstep ih => exact ih.tail hstep

theorem exists_trail (h : re.Reaches input bol re.allSlots s c) : ∃ edges, re.Trail input bol s edges c := by
  induction h with
  | refl => exact ⟨[], .start⟩
  | tail _ hstep ih =>
    obtain ⟨edges, hedges⟩ := ih
    exact ⟨_, hedges.step hstep⟩

theorem matchAt_iff : re.MatchAt input bol s e ↔
    s ≤ input.length ∧ ∃ c, re.Reaches input bol re.allSlots s c ∧ re.Accepts c ∧ c.sp = e := by
  refine and_congr_right fun _ => ⟨?_, ?_⟩
  · rintro ⟨edges, c, htrail, haccepts⟩
    exact ⟨c, htrail.reaches, haccepts⟩
  · rintro ⟨c, hreach, haccepts⟩
    obtain ⟨edges, htrail⟩ := exists_trail hreach
    exact ⟨edges, c, htrail, haccepts⟩

theorem GuardedMatchAt.matchAt (h : re.GuardedMatchAt input bol s e) : re.MatchAt input bol s e := by
  obtain ⟨hs, edges, c, ⟨htrail, -⟩, haccepts⟩ := h
  exact ⟨hs, edges, c, htrail, haccepts⟩

end Regex

/-! ### Frames keep the back edges of their paths -/

/-- The configuration a frame is at. -/
def BtFrame.config (f : BtFrame) : Config := ⟨f.pc, f.sp, f.caps⟩

/-- A frame keeps the back edges taken at its position, and none were taken later. -/
structure BtFrame.Keeps (f : BtFrame) (edges : List (Nat × Nat)) : Prop where
  here : ∀ x, (x, f.sp) ∈ edges ↔ f.backEdgesSp = f.sp ∧ x ∈ f.backEdges
  earlier : ∀ p ∈ edges, p.2 ≤ f.backEdgesSp
  sp_le : f.backEdgesSp ≤ f.sp

theorem BtFrame.Keeps.moved {f f' : BtFrame} {edges : List (Nat × Nat)} (h : f.Keeps edges) (hsp : f.sp ≤ f'.sp)
    (hedges : f'.backEdges = f.backEdges) (hedgesSp : f'.backEdgesSp = f.backEdgesSp) : f'.Keeps edges := by
  refine ⟨fun x => ?_, hedgesSp ▸ h.earlier, hedgesSp ▸ Nat.le_trans h.sp_le hsp⟩
  have hle := h.sp_le
  rcases Nat.eq_or_lt_of_le hsp with heq | hlt
  · rw [hedges, hedgesSp, ← heq]
    exact h.here x
  · refine ⟨fun hx => ?_, fun hx => ?_⟩
    · have hearlier := h.earlier _ hx
      simp only at hearlier
      omega
    · omega

namespace Regex

variable [CharData] {re : Regex} {input : List Ch} {bol : StartOfLine} {s e : Nat} {c c' : Config}

/-- What a frame can go on as. -/
def frameNexts (re : Regex) (input : List Ch) (bol : StartOfLine) (f : BtFrame) : List BtFrame :=
  match re.btStep input bol f with
  | .dies | .accepts => []
  | .goes f' => [f']
  | .forks f' pushed => [f', pushed]

/-- A frame goes on as another. -/
def FrameStep (re : Regex) (input : List Ch) (bol : StartOfLine) (f f' : BtFrame) : Prop :=
  f' ∈ re.frameNexts input bol f

variable (input bol) in
/-- Away from a jump backward, a frame goes on as its configuration does, and keeps its back edges. -/
theorem frameNexts_of_forward (f : BtFrame) (h : ∀ x, re.prog[f.pc]? = some (.jmp x) → f.pc < x) :
    re.backEdge f.config = [] ∧ (re.frameNexts input bol f).map BtFrame.config = re.nexts input bol f.config ∧
      ∀ f' ∈ re.frameNexts input bol f, f'.backEdges = f.backEdges ∧ f'.backEdgesSp = f.backEdgesSp := by
  unfold backEdge frameNexts btStep nexts BtFrame.config
  simp only
  rcases hinst : re.prog[f.pc]? with - | inst
  · simp
  · cases inst with
    | jmp x =>
      have hnot : ¬ x ≤ f.pc := Nat.not_le.mpr (h x hinst)
      simp [hnot]
    | backref n =>
      dsimp only
      rcases re.backrefEnd input f.caps f.sp n with - | sp <;> simp
    | char _ | any | skip | cls _ =>
      dsimp only
      generalize takes _ input[f.sp]? re.ci re.bytes = taken
      cases taken <;> simp
    | assertStart | assertEnd | assertBufStart | assertBufEnd | assertWord _ =>
      dsimp only
      generalize re.assertHolds input bol _ f.sp = holds
      cases holds <;> simp
    | _ => simp

variable (input bol) in
/-- A jump backward is taken unless it has been at this position. -/
theorem frameNexts_of_backward {f : BtFrame} {x : Nat} (hinst : re.prog[f.pc]? = some (.jmp x)) (hle : x ≤ f.pc) :
    re.backEdge f.config = [(x, f.sp)] ∧ re.nexts input bol f.config = [⟨x, f.sp, f.caps⟩] ∧
      re.frameNexts input bol f =
        if f.backEdgesSp = f.sp ∧ x ∈ f.backEdges then []
        else [⟨x, f.sp, f.caps, (if f.backEdgesSp = f.sp then f.backEdges else []) ++ [x], f.sp⟩] := by
  unfold backEdge frameNexts btStep nexts BtFrame.config
  simp only [hinst, if_pos hle]
  by_cases hsp : f.backEdgesSp = f.sp
  · by_cases hx : x ∈ f.backEdges <;> simp [hsp, hx]
  · simp [hsp]

/-- A frame is at the end of a guarded path, and keeps its back edges. -/
structure Traces (re : Regex) (input : List Ch) (bol : StartOfLine) (s : Nat) (f : BtFrame) (edges : List (Nat × Nat)) :
    Prop where
  trail : re.Trail input bol s edges f.config
  nodup : edges.Nodup
  keeps : f.Keeps edges

theorem traces_start (s : Nat) : Traces re input bol s (re.btStart s) [] :=
  ⟨.start, List.nodup_nil, ⟨by simp [btStart], by simp, Nat.le_refl _⟩⟩

theorem sp_le_of_step (h : re.Step input bol c c') : c.sp ≤ c'.sp := by
  rcases Step.cases h with ⟨-, hge, -⟩ | ⟨hsp, -⟩ | ⟨n, -, rfl⟩
  · exact hge
  · exact Nat.le_of_eq hsp.symm
  · exact Nat.le_refl _

/-- **A frame goes on along a guarded path.** -/
theorem Traces.step {f f' : BtFrame} {edges : List (Nat × Nat)} (h : Traces re input bol s f edges)
    (hstep : FrameStep re input bol f f') : Traces re input bol s f' (re.backEdge f.config ++ edges) := by
  by_cases hback : ∃ x, re.prog[f.pc]? = some (.jmp x) ∧ x ≤ f.pc
  · obtain ⟨x, hinst, hle⟩ := hback
    obtain ⟨hedge, hnexts, hframes⟩ := frameNexts_of_backward input bol hinst hle
    rw [FrameStep, hframes] at hstep
    split at hstep
    · cases hstep
    next hnew =>
      obtain rfl := List.mem_singleton.mp hstep
      have hfresh : (x, f.sp) ∉ edges := fun hx => hnew ((h.keeps.here x).mp hx)
      have hpath : re.Step input bol f.config ⟨x, f.sp, f.caps⟩ := by
        rw [Step, hnexts]
        exact List.mem_singleton.mpr rfl
      refine ⟨h.trail.step hpath, ?_, ?_⟩
      · rw [hedge]
        exact List.nodup_cons.mpr ⟨hfresh, h.nodup⟩
      · rw [hedge]
        refine ⟨fun y => ?_, fun p hp => ?_, Nat.le_refl _⟩
        · have hhere := h.keeps.here y
          by_cases hsp : f.backEdgesSp = f.sp
          · simp_all [or_comm]
          · simp_all
        · rcases List.mem_cons.mp hp with rfl | hp
          · exact Nat.le_refl _
          · exact Nat.le_trans (h.keeps.earlier p hp) h.keeps.sp_le
  · have hforward : ∀ x, re.prog[f.pc]? = some (.jmp x) → f.pc < x := fun x hx =>
      Nat.lt_of_not_le fun hle => hback ⟨x, hx, hle⟩
    obtain ⟨hedge, hnexts, hkeep⟩ := frameNexts_of_forward input bol f hforward
    have hpath : re.Step input bol f.config f'.config := by
      rw [Step, ← hnexts]
      exact List.mem_map_of_mem hstep
    obtain ⟨hedges, hedgesSp⟩ := hkeep f' hstep
    have htrail := h.trail.step hpath
    rw [hedge] at htrail ⊢
    exact ⟨htrail, h.nodup, h.keeps.moved (sp_le_of_step hpath) hedges hedgesSp⟩

/-- **A guarded path is followed by frames.** -/
theorem Traces.follow {f : BtFrame} {edges : List (Nat × Nat)} (h : Traces re input bol s f edges)
    (hstep : re.Step input bol f.config c') (hnodup : (re.backEdge f.config ++ edges).Nodup) :
    ∃ f', FrameStep re input bol f f' ∧ f'.config = c' := by
  by_cases hback : ∃ x, re.prog[f.pc]? = some (.jmp x) ∧ x ≤ f.pc
  · obtain ⟨x, hinst, hle⟩ := hback
    obtain ⟨hedge, hnexts, hframes⟩ := frameNexts_of_backward input bol hinst hle
    rw [hedge] at hnodup
    rw [Step, hnexts] at hstep
    have hnew : ¬ (f.backEdgesSp = f.sp ∧ x ∈ f.backEdges) := fun hx =>
      (List.nodup_cons.mp hnodup).1 ((h.keeps.here x).mpr hx)
    rw [if_neg hnew] at hframes
    have hframe := List.mem_singleton_self
      (⟨x, f.sp, f.caps, (if f.backEdgesSp = f.sp then f.backEdges else []) ++ [x], f.sp⟩ : BtFrame)
    rw [← hframes] at hframe
    exact ⟨_, hframe, (List.mem_singleton.mp hstep).symm⟩
  · have hforward : ∀ x, re.prog[f.pc]? = some (.jmp x) → f.pc < x := fun x hx =>
      Nat.lt_of_not_le fun hle => hback ⟨x, hx, hle⟩
    obtain ⟨-, hnexts, -⟩ := frameNexts_of_forward input bol f hforward
    rw [Step, ← hnexts] at hstep
    obtain ⟨f', hf', heq⟩ := List.mem_map.mp hstep
    exact ⟨f', hf', heq⟩

/-- An attempt comes to a frame. -/
def Attempts (re : Regex) (input : List Ch) (bol : StartOfLine) (s : Nat) (f : BtFrame) : Prop :=
  ReflTransGen (FrameStep re input bol) (re.btStart s) f

theorem traces_of_attempts {f : BtFrame} (h : re.Attempts input bol s f) : ∃ edges, Traces re input bol s f edges := by
  induction h with
  | refl => exact ⟨[], traces_start s⟩
  | tail _ hstep ih =>
    obtain ⟨edges, hedges⟩ := ih
    exact ⟨_, hedges.step hstep⟩

theorem attempts_of_trail {edges : List (Nat × Nat)} (h : re.Trail input bol s edges c) (hnodup : edges.Nodup) :
    ∃ f, re.Attempts input bol s f ∧ f.config = c ∧ Traces re input bol s f edges := by
  induction h with
  | start => exact ⟨re.btStart s, .refl, rfl, traces_start s⟩
  | step _ hstep ih =>
    obtain ⟨f, hattempts, rfl, htraces⟩ := ih (List.nodup_append.mp hnodup).2.1
    obtain ⟨f', hframe, rfl⟩ := htraces.follow hstep hnodup
    exact ⟨f', hattempts.tail hframe, rfl, htraces.step hframe⟩

/-- **What attempts come to are the ends of the guarded paths.** -/
theorem guardedMatchAt_iff : re.GuardedMatchAt input bol s e ↔
    s ≤ input.length ∧ ∃ f, re.Attempts input bol s f ∧ re.Accepts f.config ∧ f.sp = e := by
  refine and_congr_right fun _ => ⟨?_, ?_⟩
  · rintro ⟨edges, c, ⟨htrail, hnodup⟩, haccepts, hsp⟩
    obtain ⟨f, hattempts, rfl, -⟩ := attempts_of_trail htrail hnodup
    exact ⟨f, hattempts, haccepts, hsp⟩
  · rintro ⟨f, hattempts, haccepts, hsp⟩
    obtain ⟨edges, htraces⟩ := traces_of_attempts hattempts
    exact ⟨edges, f.config, ⟨htraces.trail, htraces.nodup⟩, haccepts, hsp⟩

/-! ## What an attempt finds -/

theorem btStep_of_accepts {f : BtFrame} (h : re.Accepts f.config) : re.btStep input bol f = .accepts := by
  have hinst : re.prog[f.pc]? = some .matched := h
  rw [btStep, hinst]

theorem accepts_of_btStep {f : BtFrame} (h : re.btStep input bol f = .accepts) : re.Accepts f.config := by
  show re.prog[f.pc]? = some .matched
  unfold btStep at h
  split at h
  · cases h
  next inst hinst =>
    cases inst with
    | matched => exact hinst
    | backref n =>
      dsimp only at h
      split at h <;> cases h
    | jmp x =>
      dsimp only at h
      split at h
      · split at h <;> split at h <;> cases h
      · cases h
    | char _ | any | skip | cls _ | assertStart | assertEnd | assertBufStart | assertBufEnd | assertWord _ =>
      dsimp only at h
      split at h <;> cases h
    | _ => cases h

/-- One iteration at a frame that accepts. -/
theorem btLoop_accepts {f : BtFrame} (h : re.Accepts f.config) (fuel budget : Nat) (stack : List BtFrame) (best : Best) :
    re.btLoop input bol (fuel + 1) budget (f :: stack) best =
      if budget < 1 + re.backrefCost f then .limit
      else if f.sp = input.length then .done (bestOf best f) (budget - (1 + re.backrefCost f))
      else re.btLoop input bol fuel (budget - (1 + re.backrefCost f)) stack (bestOf best f) := by
  rw [btLoop]
  simp only [btStep_of_accepts h]

/-- One iteration at another: what the frame goes on as is put in front of the stack. -/
theorem btLoop_goes {f : BtFrame} (h : ¬ re.Accepts f.config) (fuel budget : Nat) (stack : List BtFrame) (best : Best) :
    re.btLoop input bol (fuel + 1) budget (f :: stack) best =
      if budget < 1 + re.backrefCost f then .limit
      else re.btLoop input bol fuel (budget - (1 + re.backrefCost f)) (re.frameNexts input bol f ++ stack) best := by
  rw [btLoop, frameNexts]
  split
  · rfl
  · rcases hmove : re.btStep input bol f with - | f' | ⟨f', pushed⟩ | -
    · rfl
    · rfl
    · rfl
    · exact absurd (accepts_of_btStep hmove) h

/-- **Fuel beyond the budget makes no difference**: every attempt ends by itself. -/
theorem btLoop_fuel (fuel fuel' budget : Nat) (stack : List BtFrame) (best : Best) (hfuel : budget < fuel)
    (hfuel' : budget < fuel') : re.btLoop input bol fuel budget stack best = re.btLoop input bol fuel' budget stack best := by
  induction fuel generalizing fuel' budget stack best with
  | zero => exact absurd hfuel (Nat.not_lt_zero _)
  | succ fuel ih =>
    obtain ⟨fuel', rfl⟩ := Nat.exists_eq_succ_of_ne_zero (Nat.ne_of_gt (Nat.zero_lt_of_lt hfuel'))
    rcases stack with - | ⟨f, stack⟩
    · rw [btLoop, btLoop]
    · by_cases haccepts : re.Accepts f.config
      · rw [btLoop_accepts haccepts, btLoop_accepts haccepts]
        split
        · rfl
        · split
          · rfl
          · exact ih _ _ _ _ (by omega) (by omega)
      · rw [btLoop_goes haccepts, btLoop_goes haccepts]
        split
        · rfl
        · exact ih _ _ _ _ (by omega) (by omega)

/-- **A larger budget changes no answer**, and leaves as much more. -/
theorem btLoop_budget (fuel budget more : Nat) (stack : List BtFrame) (best res : Best) (left : Nat)
    (h : re.btLoop input bol fuel budget stack best = .done res left) :
    re.btLoop input bol fuel (budget + more) stack best = .done res (left + more) ∧ left ≤ budget := by
  induction fuel generalizing budget stack best with
  | zero =>
    rcases stack with - | ⟨f, stack⟩
    · cases h
      exact ⟨rfl, Nat.le_refl _⟩
    · cases h
  | succ fuel ih =>
    rcases stack with - | ⟨f, stack⟩
    · cases h
      exact ⟨rfl, Nat.le_refl _⟩
    · have hsub : ¬ budget < 1 + re.backrefCost f →
          budget + more - (1 + re.backrefCost f) = budget - (1 + re.backrefCost f) + more := by omega
      by_cases haccepts : re.Accepts f.config
      · rw [btLoop_accepts haccepts] at h ⊢
        split at h
        · cases h
        next henough =>
          rw [if_neg (by omega), hsub henough]
          split at h
          next hend =>
            cases h
            rw [if_pos hend]
            exact ⟨rfl, Nat.sub_le _ _⟩
          next hgo =>
            rw [if_neg hgo]
            exact (ih _ _ _ h).imp_right fun hle => Nat.le_trans hle (Nat.sub_le _ _)
      · rw [btLoop_goes haccepts] at h ⊢
        split at h
        · cases h
        next henough =>
          rw [if_neg (by omega), hsub henough]
          exact (ih _ _ _ h).imp_right fun hle => Nat.le_trans hle (Nat.sub_le _ _)

/-- A frame of the stack comes to one that accepts. -/
def Finds (re : Regex) (input : List Ch) (bol : StartOfLine) (stack : List BtFrame) (g : BtFrame) : Prop :=
  (∃ f ∈ stack, ReflTransGen (FrameStep re input bol) f g) ∧ re.Accepts g.config

theorem finds_nil (g : BtFrame) : ¬ Finds re input bol [] g := fun ⟨⟨_, hf, _⟩, _⟩ => absurd hf List.not_mem_nil

theorem finds_cons {f g : BtFrame} {stack : List BtFrame} :
    Finds re input bol (f :: stack) g ↔
      (g = f ∧ re.Accepts f.config) ∨ Finds re input bol (re.frameNexts input bol f ++ stack) g := by
  constructor
  · rintro ⟨⟨f', hf', hreach⟩, haccepts⟩
    rcases List.mem_cons.mp hf' with rfl | hf'
    · rcases hreach.cases_head with rfl | ⟨next, hnext, hrest⟩
      · exact .inl ⟨rfl, haccepts⟩
      · exact .inr ⟨⟨next, List.mem_append_left _ hnext, hrest⟩, haccepts⟩
    · exact .inr ⟨⟨f', List.mem_append_right _ hf', hreach⟩, haccepts⟩
  · rintro (⟨rfl, haccepts⟩ | ⟨⟨f', hf', hreach⟩, haccepts⟩)
    · exact ⟨⟨g, List.mem_cons_self, .refl⟩, haccepts⟩
    · rcases List.mem_append.mp hf' with hf' | hf'
      · exact ⟨⟨f, List.mem_cons_self, hreach.head hf'⟩, haccepts⟩
      · exact ⟨⟨f', List.mem_cons_of_mem _ hf', hreach⟩, haccepts⟩

/-- The best of what was found before and of what the stack finds. -/
structure Settles (re : Regex) (input : List Ch) (bol : StartOfLine) (stack : List BtFrame) (best res : Best) : Prop where
  sound : ∀ x, res = some x → best = some x ∨ ∃ g, Finds re input bol stack g ∧ x = (g.caps, g.sp)
  longest : ∀ g, Finds re input bol stack g → ∃ x, res = some x ∧ g.sp ≤ x.2
  keeps : ∀ b, best = some b → ∃ x, res = some x ∧ b.2 ≤ x.2

/-- **What the loop comes to is the longest of all the stack finds**, when the budget lasts. -/
theorem btLoop_settles (fuel budget : Nat) (stack : List BtFrame) (best res : Best) (left : Nat)
    (hwithin : ∀ g, Finds re input bol stack g → g.sp ≤ input.length)
    (h : re.btLoop input bol fuel budget stack best = .done res left) : Settles re input bol stack best res := by
  induction fuel generalizing budget stack best with
  | zero =>
    rcases stack with - | ⟨f, stack⟩
    · cases h
      exact ⟨fun x hx => .inl hx, fun g hg => absurd hg (finds_nil g), fun b hb => ⟨b, hb, Nat.le_refl _⟩⟩
    · cases h
  | succ fuel ih =>
    rcases stack with - | ⟨f, stack⟩
    · cases h
      exact ⟨fun x hx => .inl hx, fun g hg => absurd hg (finds_nil g), fun b hb => ⟨b, hb, Nat.le_refl _⟩⟩
    · by_cases haccepts : re.Accepts f.config
      · rw [btLoop_accepts haccepts] at h
        obtain ⟨hbest, ⟨x, hx, hxle⟩, hkeeps⟩ := bestOf_spec best f
        have hself : Finds re input bol (f :: stack) f := finds_cons.mpr (.inl ⟨rfl, haccepts⟩)
        split at h
        · cases h
        · split at h
          next hend =>
            -- no match is longer than one that reaches the end
            cases h
            refine ⟨fun y hy => (hbest y hy).imp_right fun heq => ⟨f, hself, heq⟩, fun g hg => ⟨x, hx, ?_⟩, hkeeps⟩
            have hle := hwithin g hg
            omega
          next =>
            have hmove : re.btStep input bol f = .accepts := btStep_of_accepts haccepts
            have hnexts : re.frameNexts input bol f = [] := by rw [frameNexts, hmove]
            have hsplit : ∀ g, Finds re input bol (f :: stack) g ↔ (g = f ∧ re.Accepts f.config) ∨ Finds re input bol stack g := by
              intro g
              rw [finds_cons, hnexts, List.nil_append]
            have hrest := ih _ _ _ (fun g hg => hwithin g ((hsplit g).mpr (.inr hg))) h
            refine ⟨fun y hy => ?_, fun g hg => ?_, fun b hb => ?_⟩
            · rcases hrest.sound y hy with hy | ⟨g, hg, heq⟩
              · exact (hbest y hy).imp_right fun heq => ⟨f, hself, heq⟩
              · exact .inr ⟨g, (hsplit g).mpr (.inr hg), heq⟩
            · rcases (hsplit g).mp hg with ⟨rfl, -⟩ | hg
              · obtain ⟨y, hy, hle⟩ := hrest.keeps x hx
                exact ⟨y, hy, Nat.le_trans hxle hle⟩
              · exact hrest.longest g hg
            · obtain ⟨y, hy, hle⟩ := hkeeps b hb
              obtain ⟨z, hz, hle'⟩ := hrest.keeps y hy
              exact ⟨z, hz, Nat.le_trans hle hle'⟩
      · rw [btLoop_goes haccepts] at h
        have hsplit : ∀ g, Finds re input bol (f :: stack) g ↔ Finds re input bol (re.frameNexts input bol f ++ stack) g := by
          intro g
          rw [finds_cons]
          exact or_iff_right fun hcon => haccepts hcon.2
        split at h
        · cases h
        · have hrest := ih _ _ _ (fun g hg => hwithin g ((hsplit g).mpr hg)) h
          exact ⟨fun x hx => (hrest.sound x hx).imp_right fun ⟨g, hg, heq⟩ => ⟨g, (hsplit g).mpr hg, heq⟩,
            fun g hg => hrest.longest g ((hsplit g).mp hg), hrest.keeps⟩

theorem WellFormed.since_of_attempts (h : WellFormed re) (hs : s ≤ input.length) {f : BtFrame}
    (hattempts : re.Attempts input bol s f) : f.config.Since re input s := by
  obtain ⟨edges, htraces⟩ := traces_of_attempts hattempts
  have hslots : 2 ≤ re.allSlots := by
    unfold allSlots
    omega
  exact h.since_of_reaches hslots hs htraces.trail.reaches

/-- Slots that say where the whole match lies. -/
def Spans (caps : Slots) (s e : Nat) : Prop := caps[0]? = some (some s) ∧ caps[1]? = some (some e)

theorem WellFormed.spans_of_accepts (h : WellFormed re) (hc : c.Since re input s) (haccepts : re.Accepts c) :
    Spans c.caps s c.sp := by
  have hlast := h.pc_of_accepted haccepts
  have hlen := h.length_ge
  exact ⟨hc.begins (by omega), hc.ends haccepts⟩

/-- **What an attempt finds is the longest match from its start along a guarded path**, when the budget lasts. -/
theorem WellFormed.backtrackAt_spec (h : WellFormed re) (hs : s ≤ input.length) {budget left : Nat} {res : Best}
    (hres : re.backtrackAt input bol s budget = .done res left) :
    (∀ caps e, res = some (caps, e) → Spans caps s e ∧ re.GuardedMatchAt input bol s e) ∧
      ∀ e, re.GuardedMatchAt input bol s e → ∃ x, res = some x ∧ e ≤ x.2 := by
  have hfinds : ∀ g, Finds re input bol [re.btStart s] g ↔ re.Attempts input bol s g ∧ re.Accepts g.config := by
    simp [Finds, Attempts]
  have hsettles := btLoop_settles _ _ _ _ _ _
    (fun g hg => (h.since_of_attempts hs ((hfinds g).mp hg).1).sp_le) hres
  constructor
  · rintro caps e rfl
    obtain ⟨g, hg, heq⟩ := (hsettles.sound _ rfl).resolve_left (by simp)
    cases heq
    obtain ⟨hattempts, haccepts⟩ := (hfinds g).mp hg
    exact ⟨h.spans_of_accepts (h.since_of_attempts hs hattempts) haccepts,
      guardedMatchAt_iff.mpr ⟨hs, g, hattempts, haccepts, rfl⟩⟩
  · intro e he
    obtain ⟨-, g, hattempts, haccepts, rfl⟩ := guardedMatchAt_iff.mp he
    exact hsettles.longest g ((hfinds g).mpr ⟨hattempts, haccepts⟩)

end Regex

/-! ## Whole searches -/

/-- The leftmost match at or after a position, and the longest from there. -/
structure LeftmostLongest (M : Nat → Nat → Prop) (start s e : Nat) : Prop where
  start_le : start ≤ s
  isMatch : M s e
  leftmost : ∀ s' e', start ≤ s' → M s' e' → s ≤ s'
  longest : ∀ e', M s e' → e' ≤ e

/-- What a search answers: nothing where there is no match at or after the position, and otherwise the slots of the
leftmost and longest. -/
def Answers (M : Nat → Nat → Prop) (start : Nat) : Option Slots → Prop
  | none => ∀ s e, start ≤ s → ¬ M s e
  | some caps => ∃ s e, Regex.Spans caps s e ∧ LeftmostLongest M start s e

namespace Regex

variable [CharData] {re : Regex} {input : List Ch} {bol : StartOfLine} {s e : Nat}

theorem WellFormed.backtrackFrom_spec (h : WellFormed re) (n : Nat) {start budget : Nat} {res : Option Slots}
    (hn : start + n = input.length + 1) (hres : re.backtrackFrom input bol (List.range' start n) budget = .ok res) :
    Answers (re.GuardedMatchAt input bol) start res := by
  induction n generalizing start budget with
  | zero =>
    cases hres
    intro s e hs hmatch
    have hle := hmatch.1
    omega
  | succ n ih =>
    rw [List.range'_succ, backtrackFrom] at hres
    rcases hat : re.backtrackAt input bol start budget with - | ⟨best, left⟩
    · rw [hat] at hres
      cases hres
    · rw [hat] at hres
      obtain ⟨hsound, hlongest⟩ := h.backtrackAt_spec (by omega) hat
      rcases best with - | ⟨caps, e⟩
      · have hrest := ih (by omega) hres
        have hnone : ∀ e, ¬ re.GuardedMatchAt input bol start e := by
          intro e he
          obtain ⟨x, hx, -⟩ := hlongest e he
          cases hx
        have hlater : ∀ {s e}, start ≤ s → re.GuardedMatchAt input bol s e → start + 1 ≤ s := by
          intro s e hs hmatch
          rcases Nat.eq_or_lt_of_le hs with rfl | hlt
          · exact absurd hmatch (hnone e)
          · exact hlt
        rcases res with - | caps
        · exact fun s e hs hmatch => hrest s e (hlater hs hmatch) hmatch
        · obtain ⟨s, e, hspans, hfirst⟩ := hrest
          exact ⟨s, e, hspans, Nat.le_of_succ_le hfirst.start_le, hfirst.isMatch,
            fun s' e' hs' hmatch => hfirst.leftmost s' e' (hlater hs' hmatch) hmatch, hfirst.longest⟩
      · cases hres
        obtain ⟨hspans, hmatch⟩ := hsound caps e rfl
        refine ⟨start, e, hspans, Nat.le_refl _, hmatch, fun _ _ hs' _ => hs', fun e' he' => ?_⟩
        obtain ⟨x, hx, hle⟩ := hlongest e' he'
        cases hx
        exact hle

/-- **A search that does not exceed its budget finds the leftmost of the matches along guarded paths**, and the longest
from there. -/
theorem WellFormed.runBacktrack_spec (h : WellFormed re) (start : Nat) {res : Option Slots}
    (hres : re.runBacktrack input bol start = .ok res) :
    Answers (re.GuardedMatchAt input bol) (min start input.length) res := by
  refine h.backtrackFrom_spec _ ?_ hres
  have hle := Nat.min_le_right start input.length
  omega

end Regex

/-! ## Against all paths -/

theorem LeftmostLongest.unique {M : Nat → Nat → Prop} {start s e s' e' : Nat} (h : LeftmostLongest M start s e)
    (h' : LeftmostLongest M start s' e') : s = s' ∧ e = e' := by
  obtain rfl := Nat.le_antisymm (h.leftmost s' e' h'.start_le h'.isMatch) (h'.leftmost s e h.start_le h.isMatch)
  exact ⟨rfl, Nat.le_antisymm (h'.longest e h.isMatch) (h.longest e' h'.isMatch)⟩

/-- Where matches are within the subject, one of them is leftmost and longest. -/
theorem exists_leftmostLongest {M : Nat → Nat → Prop} {start n : Nat} (hM : ∀ s e, M s e → e ≤ n)
    (h : ∃ s e, start ≤ s ∧ M s e) : ∃ s e, LeftmostLongest M start s e := by
  classical
  have hfirst : ∃ s, start ≤ s ∧ ∃ e, M s e := h.imp fun s ⟨e, hs, he⟩ => ⟨hs, e, he⟩
  obtain ⟨hs, e, he⟩ := Nat.find_spec hfirst
  refine ⟨Nat.find hfirst, Nat.findGreatest (M (Nat.find hfirst)) n, hs, ?_, fun s' e' hs' he' => ?_, fun e' he' => ?_⟩
  · exact Nat.findGreatest_spec (hM _ _ he) he
  · exact Nat.find_min' hfirst ⟨hs', e', he'⟩
  · exact Nat.le_findGreatest (hM _ _ he') he'

/-- Answers for some of the matches are answers for all of them just where the leftmost and longest is one of those. -/
theorem answers_iff {G M : Nat → Nat → Prop} {start n : Nat} {res : Option Slots} (hsub : ∀ s e, G s e → M s e)
    (hM : ∀ s e, M s e → e ≤ n) (hres : Answers G start res) :
    Answers M start res ↔ ∀ s e, LeftmostLongest M start s e → G s e := by
  rcases res with - | caps
  · constructor
    · exact fun hnone s e hfirst => absurd hfirst.isMatch (hnone s e hfirst.start_le)
    · intro hguarded s e hs hmatch
      obtain ⟨s', e', hfirst⟩ := exists_leftmostLongest hM ⟨s, e, hs, hmatch⟩
      exact hres s' e' hfirst.start_le (hguarded s' e' hfirst)
  · obtain ⟨s, e, hspans, hfound⟩ := hres
    constructor
    · rintro ⟨s', e', hspans', hfirst'⟩ s'' e'' hfirst
      obtain ⟨rfl, rfl⟩ := hfirst'.unique hfirst
      have hs : s = s' := by simpa using hspans.1.symm.trans hspans'.1
      have he : e = e' := by simpa using hspans.2.symm.trans hspans'.2
      exact hs ▸ he ▸ hfound.isMatch
    · intro hguarded
      obtain ⟨s', e', hfirst⟩ := exists_leftmostLongest hM ⟨s, e, hfound.start_le, hsub s e hfound.isMatch⟩
      have hmatch := hguarded s' e' hfirst
      obtain rfl : s' = s := Nat.le_antisymm (hfirst.leftmost s e hfound.start_le (hsub s e hfound.isMatch))
        (hfound.leftmost s' e' hfirst.start_le hmatch)
      obtain rfl : e' = e := Nat.le_antisymm (hfound.longest e' hmatch) (hfirst.longest e (hsub s' e hfound.isMatch))
      exact ⟨s', e', hspans, hfirst⟩

namespace Regex

variable [CharData] {re : Regex} {input : List Ch} {bol : StartOfLine} {s e : Nat}

theorem WellFormed.matchAt_le (h : WellFormed re) (hmatch : re.MatchAt input bol s e) : e ≤ input.length := by
  obtain ⟨hs, c, hreach, -, rfl⟩ := matchAt_iff.mp hmatch
  have hslots : 2 ≤ re.allSlots := by
    unfold allSlots
    omega
  exact (h.since_of_reaches hslots hs hreach).sp_le

/-- **A search that does not exceed its budget is complete just where the guard loses nothing**: it answers for all the
accepting paths if and only if the leftmost and longest of their matches, if there is one, is that of a path taking no
back edge twice at one position. And every attempt ends by itself, whatever its budget. -/
theorem backtracking_complete_iff (h : Built re) (input : List Ch) (bol : StartOfLine) (start : Nat) :
    (∀ res, re.runBacktrack input bol start = .ok res →
      (Answers (re.MatchAt input bol) (min start input.length) res ↔
        ∀ s e, LeftmostLongest (re.MatchAt input bol) (min start input.length) s e → re.GuardedMatchAt input bol s e)) ∧
      ∀ s budget fuel, budget < fuel →
        re.btLoop input bol fuel budget [re.btStart s] none = re.backtrackAt input bol s budget := by
  have hwell := h.wellFormed
  constructor
  · intro res hres
    exact answers_iff (fun s e => GuardedMatchAt.matchAt) (fun s e => hwell.matchAt_le) (hwell.runBacktrack_spec start hres)
  · exact fun s budget fuel hfuel => btLoop_fuel _ _ _ _ _ hfuel (Nat.lt_succ_self budget)

/-- Takes the choices in turn, the first being numbered zero. -/
def follow (re : Regex) (input : List Ch) (bol : StartOfLine) : List Nat → Config → Option Config
  | [], c => some c
  | choice :: choices, c => (re.nexts input bol c)[choice]?.bind (follow re input bol choices)

theorem reaches_of_follow {choices : List Nat} {c c' : Config} (h : follow re input bol choices c = some c') :
    ReflTransGen (re.Step input bol) c c' := by
  induction choices generalizing c with
  | nil =>
    cases h
    exact .refl
  | cons choice choices ih =>
    obtain ⟨next, hnext, hrest⟩ := Option.bind_eq_some_iff.mp h
    exact (ih hrest).head (List.mem_of_getElem? hnext)

end Regex

/-- `(a*)*\1b`, compiled. -/
def emptyIteration : Regex :=
  ⟨[.split 3 1, .skip, .jmp 0, .save 0, .split 5 11, .save 2, .split 7 9, .char (.u 'a'), .jmp 6, .save 3, .jmp 4,
    .backref 1, .char (.u 'b'), .save 1, .matched], 1, 3, false, true, false, false, none⟩

theorem emptyIteration_built : @Regex.Built CharData.ascii emptyIteration := by
  have hcompiled : @compilePattern CharData.ascii ("(a*)*\\1b".toList.map Ch.u) false .posixExtended =
      .ok emptyIteration [] := by decide +kernel
  exact @Regex.Built.compiled CharData.ascii _ _ _ _ _ hcompiled

/-- On `b` the guard loses nothing. -/
theorem backtracking_complete_at_b :
    @Regex.runBacktrack CharData.ascii emptyIteration ("b".toList.map Ch.u) .yes 0 =
        .ok (some [some 0, some 1, some 0, some 0]) ∧
      (Answers (@Regex.MatchAt CharData.ascii emptyIteration ("b".toList.map Ch.u) .yes) 0
          (some [some 0, some 1, some 0, some 0]) ↔
        ∀ s e, LeftmostLongest (@Regex.MatchAt CharData.ascii emptyIteration ("b".toList.map Ch.u) .yes) 0 s e →
          @Regex.GuardedMatchAt CharData.ascii emptyIteration ("b".toList.map Ch.u) .yes s e) := by
  have hrun : @Regex.runBacktrack CharData.ascii emptyIteration ("b".toList.map Ch.u) .yes 0 =
      .ok (some [some 0, some 1, some 0, some 0]) := by decide +kernel
  exact ⟨hrun, (@Regex.backtracking_complete_iff CharData.ascii _ emptyIteration_built _ .yes 0).1 _ hrun⟩

/-- On `ab` the path that goes through the group once more, matching nothing, lets the backreference match nothing, and
so all of `ab`; the guard ends it, and the search answers `b`. -/
theorem backtracking_misses_empty_iteration :
    @Regex.Built CharData.ascii emptyIteration ∧
      @Regex.runBacktrack CharData.ascii emptyIteration ("ab".toList.map Ch.u) .yes 0 =
        .ok (some [some 1, some 2, some 1, some 1]) ∧
      @Regex.MatchAt CharData.ascii emptyIteration ("ab".toList.map Ch.u) .yes 0 2 ∧
      ¬ Answers (@Regex.MatchAt CharData.ascii emptyIteration ("ab".toList.map Ch.u) .yes) 0
        (some [some 1, some 2, some 1, some 1]) := by
  let _ := CharData.ascii
  have hmatch : emptyIteration.MatchAt ("ab".toList.map Ch.u) .yes 0 2 := by
    refine Regex.matchAt_iff.mpr ⟨Nat.zero_le _, ⟨14, 2, [some 0, some 2, some 1, some 1]⟩, ?_, rfl, rfl⟩
    have hfollow : Regex.follow emptyIteration ("ab".toList.map Ch.u) .yes
        [0, 0, 0, 0, 0, 0, 1, 0, 0, 0, 0, 1, 0, 0, 1, 0, 0, 0] (emptyIteration.start emptyIteration.allSlots 0) =
          some ⟨14, 2, [some 0, some 2, some 1, some 1]⟩ := by
      decide +kernel
    exact Regex.reaches_of_follow hfollow
  refine ⟨emptyIteration_built, by decide +kernel, hmatch, ?_⟩
  rintro ⟨s, e, hspans, hfirst⟩
  have hs : 1 = s := by simpa using hspans.1
  exact absurd (hfirst.leftmost 0 2 (Nat.zero_le _) hmatch) (by omega)

end SlateOS.Ere
