/-
# SlateOS.Sched.EevdfPreempt -- when the running task is preempted

`should_preempt` of `kernel/src/sched/eevdf.rs` is to find an eligible waiting task whose deadline is earlier than the
running task's projected one by more than the granularity. It looks at the first task of the deadline order alone and
gives up where that one is not eligible, so an eligible task behind it is not seen.
-/
import SlateOS.Sched.EevdfRuns

namespace SlateOS.Sched.EevdfScheduler

open Foundation Foundation.MachineInt Foundation.Runs

variable {s : EevdfScheduler} {q : Queue}

/-- The deadline the running task would have if it were enqueued now. -/
def projectedDeadline (s : EevdfScheduler) : Nat :=
  s.computeDeadline s.currentVruntime s.currentPriority s.currentWeight

/-- The task waits, is eligible, and its deadline is early enough. -/
def Preempts (s : EevdfScheduler) (e : EevdfEntry) : Prop :=
  (∃ k : TimeKey, s.tree[k]? = some e) ∧ e.vruntime ≤ s.minVruntime ∧
    e.deadline + minGranularity < s.projectedDeadline

/-- A task is running, and some waiting task is to preempt it. -/
def MustPreempt (s : EevdfScheduler) : Prop := s.currentWeight ≠ 0 ∧ ∃ e, s.Preempts e

/-- The waiting task with the earliest deadline. -/
def front (s : EevdfScheduler) : Option EevdfEntry := s.tree.minKey?.bind (s.tree[·]?)

theorem shouldPreempt_eq (s : EevdfScheduler) : s.shouldPreempt =
    if s.currentWeight = 0 then false
    else
      match s.front with
      | none => false
      | some e =>
        if e.vruntime > s.minVruntime then false
        else decide (saturatingAdd 64 e.deadline minGranularity < s.projectedDeadline) := rfl

/-- The sum stops at the largest word, above which no deadline is. -/
theorem saturated_lt_projected (s : EevdfScheduler) (d : Nat) :
    saturatingAdd 64 d minGranularity < s.projectedDeadline ↔ d + minGranularity < s.projectedDeadline := by
  have hle : s.projectedDeadline ≤ maxVal 64 := saturatingAdd_le_maxVal 64 _ _
  unfold saturatingAdd
  omega

/-- No waiting task has an earlier deadline than the first. -/
theorem Settled.front_le (h : s.Settled q) {f e : EevdfEntry} {k : TimeKey} (hf : s.front = some f)
    (he : s.tree[k]? = some e) : f.deadline ≤ e.deadline := by
  obtain ⟨k₀, hmin, hk₀⟩ := Option.bind_eq_some_iff.mp hf
  have hle : k₀ ≤ k := (OrderedMap.minKey_eq_some_iff.mp hmin).2 k (OrderedMap.mem_iff.mpr ⟨e, he⟩)
  have hd₀ : f.deadline = (ofLex k₀).1 := ((h.represents.tree k₀ f).mp hk₀).2
  have hd : e.deadline = (ofLex k).1 := ((h.represents.tree k e).mp he).2
  rw [hd₀, hd]
  exact Prod.Lex.monotone_fst_ofLex hle

theorem front_waits {f : EevdfEntry} (hf : s.front = some f) : ∃ k : TimeKey, s.tree[k]? = some f := by
  obtain ⟨k, -, hk⟩ := Option.bind_eq_some_iff.mp hf
  exact ⟨k, hk⟩

theorem front_of_waiting {e : EevdfEntry} {k : TimeKey} (he : s.tree[k]? = some e) : ∃ f, s.front = some f := by
  have hin : k ∈ s.tree := OrderedMap.mem_iff.mpr ⟨e, he⟩
  cases hmin : s.tree.minKey? with
  | none =>
    have hempty := Std.TreeMap.minKey?_eq_none_iff.mp hmin
    exact absurd hin (Std.TreeMap.not_mem_of_isEmpty hempty)
  | some k₀ =>
    obtain ⟨f, hf⟩ := OrderedMap.mem_iff.mp (OrderedMap.minKey_eq_some_iff.mp hmin).1
    exact ⟨f, by rw [front, hmin, Option.bind_some, hf]⟩

/-- What it answers is right where it answers yes. -/
theorem mustPreempt_of_shouldPreempt (h : s.shouldPreempt = true) : s.MustPreempt := by
  rw [shouldPreempt_eq] at h
  split at h
  · cases h
  rename_i hrunning
  split at h
  · cases h
  rename_i f hf
  split at h
  · cases h
  rename_i heligible
  refine ⟨hrunning, f, front_waits hf, Nat.le_of_not_gt heligible, ?_⟩
  exact (s.saturated_lt_projected f.deadline).mp (of_decide_eq_true h)

/-- **And where the first task is eligible.** -/
theorem Settled.shouldPreempt_iff (h : s.Settled q) (hfront : ∀ f, s.front = some f → f.vruntime ≤ s.minVruntime) :
    s.shouldPreempt = true ↔ s.MustPreempt := by
  refine ⟨mustPreempt_of_shouldPreempt, ?_⟩
  rintro ⟨hrunning, e, ⟨k, he⟩, -, hearly⟩
  obtain ⟨f, hf⟩ := front_of_waiting he
  have hle := h.front_le hf he
  rw [shouldPreempt_eq, if_neg hrunning, hf]
  dsimp only
  rw [if_neg (Nat.not_lt.mpr (hfront f hf)), decide_eq_true_eq, saturated_lt_projected]
  omega

/-- **The answer is right exactly where the first task is eligible or nobody is to preempt.** -/
theorem shouldPreempt_right_iff (h : Reach step (· = new) s) :
    (s.shouldPreempt = true ↔ s.MustPreempt) ↔
      ((∀ f, s.front = some f → f.vruntime ≤ s.minVruntime) ∨ s.currentWeight = 0 ∨ ∀ e, ¬s.Preempts e) := by
  obtain ⟨q, hq⟩ := reach_settled h
  constructor
  · intro hright
    by_cases hfront : ∀ f, s.front = some f → f.vruntime ≤ s.minVruntime
    · exact .inl hfront
    · right
      -- the first task is not eligible, so the answer is no
      push Not at hfront
      obtain ⟨f, hf, hineligible⟩ := hfront
      have hno : s.shouldPreempt = false := by
        rw [shouldPreempt_eq, hf]
        dsimp only
        rw [if_pos hineligible, ite_self]
      rw [hno] at hright
      have hnot : ¬s.MustPreempt := fun hmust => Bool.false_ne_true (hright.mpr hmust)
      by_cases hrunning : s.currentWeight = 0
      · exact .inl hrunning
      · exact .inr fun e he => hnot ⟨hrunning, e, he⟩
  · rintro (hfront | hidle | hnobody)
    · exact hq.shouldPreempt_iff hfront
    · refine iff_of_false ?_ fun hmust => hmust.1 hidle
      rw [shouldPreempt_eq, if_pos hidle]
      exact Bool.false_ne_true
    · exact iff_of_false (fun hyes => (mustPreempt_of_shouldPreempt hyes).2.elim hnobody)
        fun hmust => hmust.2.elim hnobody

/-! ## An eligible task behind one that is not -/

/-- The floor stays, and nothing becomes eligible. -/
def Still (s : EevdfScheduler) : Prop :=
  (s.eligible.isEmpty = false ∨ s.currentId ≠ 0 ∧ s.currentVruntime ≤ s.minVruntime) ∧
    ∀ k ∈ s.ineligibleByVrt.keys, s.minVruntime < (ofLex k).1

instance (s : EevdfScheduler) : Decidable s.Still := inferInstanceAs (Decidable (_ ∧ _))

theorem settle_of_still (h : s.Still) : s.settle = s := by
  obtain ⟨hfloor, hineligible⟩ := h
  -- the floor is already at the least vruntime, or there is none to follow
  have hupdate : s.updateMinVruntime = s := by
    unfold updateMinVruntime
    split
    · rename_i hempty
      obtain ⟨hid, hle⟩ := hfloor.resolve_left fun hnot => by
        rw [hempty] at hnot
        cases hnot
      have hmin : ∀ m, s.minAbove = some m → m ≤ s.minVruntime := by
        intro m hm
        unfold minAbove at hm
        rw [if_neg hid] at hm
        split at hm
        · rw [← Option.some.inj hm]
          exact le_trans (Nat.min_le_right _ _) hle
        · rw [← Option.some.inj hm]
          exact hle
      split
      · rename_i m hm
        rw [if_neg (Nat.not_lt.mpr (hmin m hm))]
      · rfl
    · rfl
  -- and the first of the ineligible map is not eligible yet
  have hloop : ∀ fuel, rebalanceLoop fuel s = s := by
    intro fuel
    cases fuel with
    | zero => rfl
    | succ fuel =>
      rw [rebalanceLoop]
      split
      · rfl
      · rename_i k hk
        have hin := OrderedMap.mem_keys.mpr (OrderedMap.minKey_eq_some_iff.mp hk).1
        rw [if_pos (hineligible k hin)]
  rw [settle, hupdate, rebalance, hloop]

/-- The state in which a pick leaves the maps to be settled. -/
def picked (s : EevdfScheduler) (k : TimeKey) (e : EevdfEntry) : EevdfScheduler :=
  { unindex { s with tree := s.tree.erase k, deadlines := s.deadlines.erase e.id } k e with
    nrRunning := s.nrRunning - 1
    currentRemaining := s.timeSlices (levelOf e.priority)
    currentWeight := e.weight
    currentVruntime := e.vruntime
    currentPriority := e.priority
    currentId := e.id }

theorem pickNext_of_head {k : TimeKey} {e : EevdfEntry} (hk : s.eligible.keys.head? = some k)
    (he : s.tree[k]? = some e) (hstill : (s.picked k e).Still) : s.pickNext.2 = s.picked k e := by
  have hnonempty : ¬s.tree.isEmpty = true := fun hempty =>
    Std.TreeMap.not_mem_of_isEmpty hempty (OrderedMap.mem_iff.mpr ⟨e, he⟩)
  have hmin : s.eligible.minKey? = some k := Std.TreeMap.minKey?_eq_head?_keys.trans hk
  have hpick : s.pickNext.2 = (s.picked k e).settle := by
    unfold EevdfScheduler.pickNext
    rw [if_neg hnonempty, hmin]
    simp only [Option.some_or, he]
    unfold picked unindex settle
    split <;> rfl
  rw [hpick, settle_of_still hstill]

/-- The state in which an `enqueue` leaves them. -/
def added (s : EevdfScheduler) (id : TaskId) (priority : Nat) : EevdfScheduler :=
  ((s.dropStale id).placement id).2.addEntry (freshEntry ((s.dropStale id).placement id) id priority)

theorem enqueue_of_still {id : TaskId} {priority : Nat} (hstill : (s.added id priority).Still) :
    s.enqueue id priority = s.added id priority := settle_of_still hstill

/-- A task is enqueued, and nothing else moves. -/
theorem reach_added (h : Reach step (· = new) s) {id : TaskId} {priority : Nat} (hstill : (s.added id priority).Still) :
    Reach step (· = new) (s.added id priority) := by
  refine .next h (a := .enqueue id priority) trivial ?_
  rw [← enqueue_of_still hstill]
  rfl

/-- The first eligible task is picked, and nothing else moves. -/
theorem reach_picked (h : Reach step (· = new) s) {k : TimeKey} {e : EevdfEntry} (hk : s.eligible.keys.head? = some k)
    (he : s.tree[k]? = some e) (hstill : (s.picked k e).Still) : Reach step (· = new) (s.picked k e) := by
  refine .next h (a := .pickNext) trivial ?_
  rw [← pickNext_of_head hk he hstill]
  rfl

theorem reach_tick (h : Reach step (· = new) s) : Reach step (· = new) s.tick.2 := .next h (a := .tick) trivial rfl

/-- The first task runs, and the third waits. -/
def running : EevdfScheduler := ((new.added 1 0).picked (toLex (22, 1)) ⟨1, 0, 88761, 0, 22, true⟩).added 3 31

/-- After a tick the third runs, and a second one wakes. -/
def woken : EevdfScheduler :=
  ((running.tick.2.added 1 0).picked (toLex (2200000, 3)) ⟨3, 31, 15, 0, 2200000, true⟩).added 2 16

theorem running_reached : Reach step (· = new) running := by
  refine reach_added (reach_picked (reach_added (.start rfl) ?_) ?_ ?_ ?_) ?_
  all_goals decide +kernel

theorem woken_reached : Reach step (· = new) woken := by
  refine reach_added (reach_picked (reach_added (reach_tick running_reached) ?_) ?_ ?_ ?_) ?_
  all_goals decide +kernel

theorem woken_preempts : ∃ e, woken.Preempts e := by
  have hany : (woken.tree[(toLex (7197, 2) : TimeKey)]?).any (fun e =>
      decide (e.vruntime ≤ woken.minVruntime ∧ e.deadline + minGranularity < woken.projectedDeadline)) = true := by
    decide +kernel
  obtain ⟨e, he, hearly⟩ := (Option.any_eq_true _ _).mp hany
  exact ⟨e, ⟨_, he⟩, of_decide_eq_true hearly⟩

/-- **The second task is not seen** behind the first, whose deadline is earlier and which is not eligible. -/
theorem preemption_missed : ¬∀ s : EevdfScheduler, Reach step (· = new) s →
    (s.shouldPreempt = true ↔ s.MustPreempt) := by
  intro hall
  have hrunning : woken.currentWeight ≠ 0 := by decide +kernel
  have hyes : woken.shouldPreempt = true := (hall woken woken_reached).mpr ⟨hrunning, woken_preempts⟩
  have hfront : woken.front = some ⟨1, 0, 88761, 11, 33, false⟩ := by
    have hkey : woken.tree.keys.head? = some (toLex (33, 1)) := by decide +kernel
    rw [front, Std.TreeMap.minKey?_eq_head?_keys, hkey, Option.bind_some]
    decide +kernel
  rw [shouldPreempt_eq, if_neg hrunning, hfront] at hyes
  exact absurd hyes (by decide +kernel)

/-- Before that the queue's first task is eligible, and the answer is right. -/
theorem shouldPreempt_right_iff_running :
    (∀ f, running.front = some f → f.vruntime ≤ running.minVruntime) ∧
      (running.shouldPreempt = true ↔ running.MustPreempt) := by
  have hkey : running.tree.keys.head? = some (toLex (2200000, 3)) := by decide +kernel
  have hentry : running.tree[(toLex (2200000, 3) : TimeKey)]? = some ⟨3, 31, 15, 0, 2200000, true⟩ := by
    decide +kernel
  have hfront : ∀ f, running.front = some f → f.vruntime ≤ running.minVruntime := by
    intro f hf
    rw [front, Std.TreeMap.minKey?_eq_head?_keys, hkey, Option.bind_some, hentry] at hf
    rw [← Option.some.inj hf]
    exact Nat.zero_le _
  exact ⟨hfront, (shouldPreempt_right_iff running_reached).mpr (.inl hfront)⟩

end SlateOS.Sched.EevdfScheduler
