/-
# SlateOS.Sched.DeadlineRuns -- the running deadline task never waits

The invariant of a deadline queue under every call, the timer included: the maps are views of one queue,
and the deadline task that runs is not in it. From it, where a task can come back from: a task that does
not wait, is not throttled and does not run as a deadline task stays so until it is enqueued.
-/
import SlateOS.Sched.DeadlineQueue

namespace SlateOS.Sched

open Foundation Foundation.MachineInt

namespace DeadlineScheduler

/-- The maps are views of `q`, and the running deadline task does not wait. -/
structure Coherent (s : DeadlineScheduler) (q : Queue) : Prop where
  indexed : s.Indexed q
  running : ∀ i, s.Running i → q i = none

variable {s t : DeadlineScheduler} {q : Queue}

theorem coherent_new : new.Coherent fun _ => none := ⟨indexed_new, fun _ _ => rfl⟩

/-- The running task and the maps are all that matters. -/
theorem Coherent.congr (h : s.Coherent q) (htree : t.tree = s.tree)
    (hdeadlines : t.deadlines = s.deadlines) (hid : t.currentId = s.currentId)
    (hflag : t.currentIsDeadline = s.currentIsDeadline) : t.Coherent q where
  indexed := h.indexed.congr htree hdeadlines
  running := fun i hi => h.running i ⟨hid ▸ hi.1, hflag ▸ hi.2⟩

theorem not_running_of_flag (h : s.currentIsDeadline = false) (i : TaskId) : ¬s.Running i := by
  intro hrun
  rw [hrun.2] at h
  exact Bool.noConfusion h

theorem Enqueued.running {id : TaskId} {q' : Queue} (h : Enqueued s q id t q')
    (hrunning : ∀ i, s.Running i → q i = none) : ∀ i, t.Running i → q' i = none := by
  intro i hi
  cases h with
  | putBack => exact absurd hi (not_running_of_flag rfl i)
  | activated _ _ _ _ _ hrun =>
    have hi' : s.Running i := hi
    have hne : i ≠ id := fun heq => hrun (heq ▸ hi')
    rw [Function.update_of_ne hne]
    exact hrunning i hi'
  | bestEffort _ _ _ _ hrun =>
    have hi' : s.Running i := hi
    have hne : i ≠ id := fun heq => hrun (heq ▸ hi')
    rw [Function.update_of_ne hne]
    exact hrunning i hi'

theorem Coherent.enqueue (h : s.Coherent q) (id : TaskId) (priority : Nat) :
    ∃ q', (s.enqueue id priority).Coherent q' ∧ Enqueued s q id (s.enqueue id priority) q' := by
  obtain ⟨q', hq', hspec⟩ := h.indexed.enqueue id priority
  exact ⟨q', ⟨hq', hspec.running h.running⟩, hspec⟩

theorem Coherent.popFirst (h : s.Coherent q) :
    ∃ q', s.popFirst.2.Coherent q' ∧ Picked s q s.popFirst.1 s.popFirst.2 q' := by
  obtain ⟨q', hq', hspec⟩ := h.indexed.popFirst
  refine ⟨q', ⟨hq', ?_⟩, hspec⟩
  revert hspec
  generalize s.popFirst.1 = picked
  generalize s.popFirst.2 = t
  intro hspec i hi
  cases hspec with
  | idle => exact h.running i hi
  | task _ _ _ _ e =>
    -- the picked task runs now, and only it
    obtain rfl : e.id = i := hi.1
    exact Function.update_self ..

theorem Coherent.dequeue (h : s.Coherent q) (id : TaskId) (priority : Nat) :
    ∃ q', (s.dequeue id priority).2.Coherent q' ∧ Dequeued s q id (s.dequeue id priority).2 q' := by
  obtain ⟨q', hq', hspec⟩ := h.indexed.dequeue id priority
  refine ⟨q', ⟨hq', ?_⟩, hspec⟩
  revert hspec
  generalize (s.dequeue id priority).2 = t
  intro hspec i hi
  cases hspec with
  | queued =>
    have hq : q i = none := h.running i hi
    by_cases heq : i = id
    · rw [heq]
      exact Function.update_self ..
    · rw [Function.update_of_ne heq]
      exact hq
  | stopped => exact absurd hi (not_running_of_flag rfl i)
  | absent => exact h.running i hi

theorem Coherent.tick (h : s.Coherent q) : s.tick.2.Coherent q := by
  refine ⟨h.indexed.tick, ?_⟩
  have hspec := s.tick_ticked
  revert hspec
  generalize s.tick.2 = t
  intro hspec i hi
  cases hspec with
  | idle => exact h.running i hi
  | charged => exact h.running i hi
  | throttled => exact absurd hi (not_running_of_flag rfl i)
  | ended => exact absurd hi (not_running_of_flag rfl i)

theorem Coherent.steal (h : s.Coherent q) (count : Nat) :
    ∃ q', (s.steal count).2.Coherent q' ∧ ∀ i, q i = none → q' i = none := by
  obtain ⟨⟨q', hq', hwaits⟩, ⟨_, _, _, hsame⟩, -⟩ := h.indexed.steal count
  refine ⟨q', ⟨hq', fun i hi => (hwaits i).2 (h.running i ?_)⟩, fun i hi => (hwaits i).2 hi⟩
  rw [hsame] at hi
  exact hi

/-! ## Registration -/

/-- Registration touches neither the queue nor what runs, and drops no registration. -/
theorem register_frame (s : DeadlineScheduler) (id : TaskId) (params : DeadlineParams) :
    ∃ params' total, (s.register id params).2 =
      { s with params := params', totalUtilization := total } ∧
        (∀ i : TaskId, i ≠ id → params'[i]? = s.params[i]?) ∧
        ∀ i : TaskId, s.params[i]? ≠ none → params'[i]? ≠ none := by
  unfold register
  split
  · exact ⟨s.params, s.totalUtilization, rfl, fun _ _ => rfl, fun _ h => h⟩
  · unfold dropParams
    split
    · refine ⟨_, _, rfl, fun i hi => ?_, fun i hi => ?_⟩
      · rw [OrderedMap.getElem?_insert, if_neg hi]
      · rw [OrderedMap.getElem?_insert]
        split
        · simp
        · exact hi
    · refine ⟨_, _, rfl, fun i hi => ?_, fun i hi => ?_⟩
      · rw [OrderedMap.getElem?_insert, if_neg hi, OrderedMap.getElem?_erase, if_neg hi]
      · rw [OrderedMap.getElem?_insert]
        split
        · simp
        next hne =>
          rw [OrderedMap.getElem?_erase, if_neg hne]
          exact hi

theorem unregister_frame (s : DeadlineScheduler) (id : TaskId) :
    ∃ params' total, s.unregister id =
      { s with params := params', totalUtilization := total, throttled := s.throttled.erase id } ∧
        params'[id]? = none ∧ ∀ i, i ≠ id → params'[i]? = s.params[i]? := by
  unfold unregister dropParams
  split
  next hnone => exact ⟨s.params, s.totalUtilization, rfl, hnone, fun _ _ => rfl⟩
  · refine ⟨_, _, rfl, ?_, fun i hi => ?_⟩
    · rw [OrderedMap.getElem?_erase, if_pos rfl]
    · rw [OrderedMap.getElem?_erase, if_neg hi]

theorem Coherent.register (h : s.Coherent q) (id : TaskId) (params : DeadlineParams) :
    (s.register id params).2.Coherent q := by
  obtain ⟨_, _, hsame, -⟩ := s.register_frame id params
  rw [hsame]
  exact h.congr rfl rfl rfl rfl

theorem Coherent.unregister (h : s.Coherent q) (id : TaskId) : (s.unregister id).Coherent q := by
  obtain ⟨_, _, hsame, -⟩ := s.unregister_frame id
  rw [hsame]
  exact h.congr rfl rfl rfl rfl

theorem Coherent.pickNext (h : s.Coherent q) : ∃ q', s.pickNext.2.Coherent q' := by
  rw [pickNext_eq]
  have hrest : ∃ q', s.replenishThrottled.Coherent q' := by
    apply replenish_rule (P := fun t => ∃ q', t.Coherent q') ⟨q, h⟩
    rintro t i deadline nextPeriod - - ⟨q', hq'⟩
    have hrest : Coherent { t with throttled := t.throttled.erase i } q' := hq'.congr rfl rfl rfl rfl
    obtain ⟨q'', hq'', -⟩ := hrest.enqueue i 0
    exact ⟨q'', hq''⟩
  obtain ⟨q', hq'⟩ := hrest
  obtain ⟨q'', hq'', -⟩ := hq'.popFirst
  exact ⟨q'', hq''⟩

/-! ## A task that is away -/

/-- The task is nowhere that a pick or a replenishment could draw it from: not waiting, not throttled, and
not running as a deadline task, which a tick could throttle. -/
structure Away (s : DeadlineScheduler) (q : Queue) (id : TaskId) : Prop where
  coherent : s.Coherent q
  absent : q id = none
  throttled : s.throttled[id]? = none
  running : ¬s.Running id

/-- The scheduler is coherent and the task away from it. -/
def IsAway (s : DeadlineScheduler) (id : TaskId) : Prop := ∃ q, s.Away q id

theorem Away.congr {id : TaskId} (h : s.Away q id) (htree : t.tree = s.tree)
    (hdeadlines : t.deadlines = s.deadlines) (hid : t.currentId = s.currentId)
    (hflag : t.currentIsDeadline = s.currentIsDeadline) (hthrottled : t.throttled[id]? = none) :
    t.Away q id where
  coherent := h.coherent.congr htree hdeadlines hid hflag
  absent := h.absent
  throttled := hthrottled
  running := fun hi => h.running ⟨hid ▸ hi.1, hflag ▸ hi.2⟩

variable {id : TaskId}

theorem erase_throttled (h : s.throttled[id]? = none) (i : TaskId) :
    (s.throttled.erase i)[id]? = none := by
  rw [OrderedMap.getElem?_erase]
  split
  · rfl
  · exact h

/-- Enqueueing another task keeps the task away. -/
theorem Away.enqueue (h : s.Away q id) {i : TaskId} (hne : i ≠ id) (priority : Nat) :
    (s.enqueue i priority).IsAway id := by
  obtain ⟨q', hq', hspec⟩ := h.coherent.enqueue i priority
  have hthrottled : (s.enqueue i priority).throttled[id]? = none := hspec.timers.2.1 ▸ h.throttled
  have habsent : q' id = none := by
    by_contra hwaits
    rcases hspec.waits.1 hwaits with heq | hwaits
    · exact hne heq.symm
    · exact hwaits h.absent
  refine ⟨q', hq', habsent, hthrottled, ?_⟩
  revert hspec
  generalize s.enqueue i priority = t
  intro hspec hrun
  cases hspec with
  | putBack => exact not_running_of_flag rfl id hrun
  | activated => exact h.running hrun
  | bestEffort => exact h.running hrun

theorem IsAway.replenish (h : s.IsAway id) (hthrottled : s.throttled[id]? = none) :
    s.replenishThrottled.IsAway id := by
  apply replenish_rule (P := fun t => t.IsAway id) h
  rintro t i deadline nextPeriod hi - ⟨q, hq⟩
  -- only throttled tasks are replenished
  have hne : i ≠ id := by
    rintro rfl
    rw [hthrottled] at hi
    exact absurd hi (by simp)
  have hq' : Away { t with throttled := t.throttled.erase i } q id :=
    hq.congr rfl rfl rfl rfl (erase_throttled hq.throttled i)
  exact hq'.enqueue hne 0

/-- A pick does not return the task and keeps it away. -/
theorem Away.pickNext (h : s.Away q id) : s.pickNext.1 ≠ some id ∧ s.pickNext.2.IsAway id := by
  rw [pickNext_eq]
  obtain ⟨q₁, h₁⟩ := IsAway.replenish ⟨q, h⟩ h.throttled
  obtain ⟨q', hq', hspec⟩ := h₁.coherent.popFirst
  have hpicked : s.replenishThrottled.popFirst.1 ≠ some id := by
    intro heq
    exact (hspec.waits id).2 heq h₁.absent
  refine ⟨hpicked, q', hq', ?_, hspec.throttled ▸ h₁.throttled, ?_⟩
  · by_contra hwaits
    exact ((hspec.waits id).1.1 hwaits).1 h₁.absent
  · revert hspec hpicked
    generalize s.replenishThrottled.popFirst.1 = picked
    generalize s.replenishThrottled.popFirst.2 = t
    intro hspec hpicked hrun
    cases hspec with
    | idle => exact h₁.running hrun
    | task => exact hpicked (congrArg some hrun.1)

theorem Away.dequeue (h : s.Away q id) (i : TaskId) (priority : Nat) :
    (s.dequeue i priority).2.IsAway id := by
  obtain ⟨q', hq', hspec⟩ := h.coherent.dequeue i priority
  refine ⟨q', hq', ?_, hspec.throttled ▸ h.throttled, ?_⟩
  · by_contra hwaits
    exact (hspec.waits.1 hwaits).2 h.absent
  · revert hspec
    generalize (s.dequeue i priority).2 = t
    intro hspec hrun
    cases hspec with
    | queued => exact h.running hrun
    | stopped => exact not_running_of_flag rfl id hrun
    | absent => exact h.running hrun

theorem Away.tick (h : s.Away q id) : s.tick.2.IsAway id := by
  have hcoherent := h.coherent.tick
  have hspec := s.tick_ticked
  revert hcoherent hspec
  generalize s.tick.2 = t
  intro hcoherent hspec
  refine ⟨q, hcoherent, h.absent, ?_, ?_⟩
  · cases hspec with
    | idle => exact h.throttled
    | charged => exact h.throttled
    | throttled params deadline nextPeriod _ hdeadline =>
      -- the throttled task was running as a deadline task
      have hne : id ≠ s.currentId := fun heq => h.running ⟨heq.symm, hdeadline⟩
      show (s.throttled.insert s.currentId (deadline, nextPeriod))[id]? = none
      rw [OrderedMap.getElem?_insert, if_neg hne]
      exact h.throttled
    | ended => exact h.throttled
  · intro hrun
    cases hspec with
    | idle => exact h.running hrun
    | charged => exact h.running hrun
    | throttled => exact not_running_of_flag rfl id hrun
    | ended => exact not_running_of_flag rfl id hrun

theorem Away.steal (h : s.Away q id) (count : Nat) : (s.steal count).2.IsAway id := by
  obtain ⟨q', hq', hwaits⟩ := h.coherent.steal count
  obtain ⟨-, ⟨_, _, _, hsame⟩, -⟩ := h.coherent.indexed.steal count
  refine ⟨q', hq', hwaits id h.absent, ?_, ?_⟩
  · rw [hsame]
    exact h.throttled
  · rw [hsame]
    exact h.running

theorem Away.register (h : s.Away q id) (i : TaskId) (params : DeadlineParams) :
    (s.register i params).2.IsAway id := by
  obtain ⟨_, _, hsame, -⟩ := s.register_frame i params
  rw [hsame]
  exact ⟨q, h.congr rfl rfl rfl rfl h.throttled⟩

theorem Away.unregister (h : s.Away q id) (i : TaskId) : (s.unregister i).IsAway id := by
  obtain ⟨_, _, hsame, -⟩ := s.unregister_frame i
  rw [hsame]
  exact ⟨q, h.congr rfl rfl rfl rfl (erase_throttled h.throttled i)⟩

/-- After `dequeue` a task that is not throttled is away. -/
theorem Coherent.away_of_dequeue (h : s.Coherent q) (hthrottled : s.throttled[id]? = none)
    (priority : Nat) : (s.dequeue id priority).2.IsAway id := by
  obtain ⟨q', hq', hspec⟩ := h.dequeue id priority
  refine ⟨q', hq', ?_, hspec.throttled ▸ hthrottled, ?_⟩
  · by_contra hwaits
    exact (hspec.waits.1 hwaits).1 rfl
  · revert hspec
    generalize (s.dequeue id priority).2 = t
    intro hspec hrun
    cases hspec with
    | queued _ _ _ hq => exact hq (h.running id hrun)
    | stopped => exact not_running_of_flag rfl id hrun
    | absent _ hne => exact hne hrun.1

/-! ## A task of one tick -/

/-- One tick every five ticks. -/
def oneTick : DeadlineParams := ⟨1, 5, 5⟩

/-- The queue with a task of this kind. -/
def oneTickQueued : DeadlineScheduler := (new.register 7 oneTick).2.enqueue 7 0

/-- The task runs. -/
def oneTickRunning : DeadlineScheduler := oneTickQueued.run (toLex (5, 7)) ⟨7, 0, oneTick, 5, 1, 0⟩

theorem oneTickQueued_pick : oneTickQueued.pickNext = (some 7, oneTickRunning) := by
  have hhead : oneTickQueued.replenishThrottled.tree.toList.head? =
      some (toLex (5, 7), ⟨7, 0, oneTick, 5, 1, 0⟩) := by
    decide +kernel
  exact pickNext_of_head hhead

end DeadlineScheduler

end SlateOS.Sched
