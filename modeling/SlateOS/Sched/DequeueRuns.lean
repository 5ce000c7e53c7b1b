/-
# SlateOS.Sched.DequeueRuns -- a dequeued task does not come back

Every call on a run queue, of whichever of the three algorithms, as one transition system. After `dequeue`
a task is returned by no pick until it is enqueued again. The deadline queue keeps this promise for tasks
that are not throttled only: its `dequeue` leaves the record of a throttled task, and the replenishment
of a later pick enqueues the task by itself.
-/
import SlateOS.Sched.Backend
import SlateOS.Sched.DeadlineRuns

namespace SlateOS.Sched

open Foundation

namespace SchedulerBackend

/-- The calls that change a run queue. -/
inductive Call
  | pickNextMasked (avoidBand : Bool)
  | enqueue (id : TaskId) (priority : Nat)
  | dequeue (id : TaskId) (priority : Nat)
  | tick
  | steal (count : Nat)
  | setTimeSlice (level ticks : Nat)
  | reconfigureSlices (base increment : Nat)
  | applyProfile (profile : WorkloadProfile)
  | setCurrentRemaining (ticks : Nat)
  | registerDeadline (id : TaskId) (params : DeadlineParams)
  | unregisterDeadline (id : TaskId)

/-- `tick`. -/
def tick : SchedulerBackend → Bool × SchedulerBackend
  | .priorityRR s => (s.tick.1, .priorityRR s.tick.2)
  | .eevdf s => (s.tick.1, .eevdf s.tick.2)
  | .deadline s => (s.tick.1, .deadline s.tick.2)

/-- The three ways to change the time slices, by what they make of them. -/
def withSlices (change : TimeSlices → Bool × TimeSlices) : SchedulerBackend → SchedulerBackend
  | .priorityRR s => .priorityRR { s with timeSlices := (change s.timeSlices).2 }
  | .eevdf s => .eevdf { s with timeSlices := (change s.timeSlices).2 }
  | .deadline s => .deadline { s with timeSlices := (change s.timeSlices).2 }

/-- `set_current_remaining`. -/
def setCurrentRemaining (ticks : Nat) : SchedulerBackend → SchedulerBackend
  | .priorityRR s => .priorityRR { s with currentRemaining := ticks }
  | .eevdf s => .eevdf { s with currentRemaining := ticks }
  | .deadline s => .deadline { s with currentRemaining := ticks }

/-- `register_deadline`: nothing but a deadline queue takes a registration. -/
def registerDeadline (id : TaskId) (params : DeadlineParams) :
    SchedulerBackend → Bool × SchedulerBackend
  | .deadline s => ((s.register id params).1, .deadline (s.register id params).2)
  | b => (false, b)

/-- `unregister_deadline`. -/
def unregisterDeadline (id : TaskId) : SchedulerBackend → SchedulerBackend
  | .deadline s => .deadline (s.unregister id)
  | b => b

/-- The run queue after a call. -/
def apply (b : SchedulerBackend) : Call → SchedulerBackend
  | .pickNextMasked avoidBand => (b.pickNextMasked avoidBand).2
  | .enqueue id priority => b.enqueue id priority
  | .dequeue id priority => (b.dequeue id priority).2
  | .tick => b.tick.2
  | .steal count => (b.steal count).2
  | .setTimeSlice level ticks => b.withSlices fun slices => Sched.setTimeSlice slices level ticks
  | .reconfigureSlices base increment =>
    b.withSlices fun slices => Sched.reconfigureSlices slices base increment
  | .applyProfile profile =>
    b.withSlices fun slices => Sched.reconfigureSlices slices profile.base profile.increment
  | .setCurrentRemaining ticks => b.setCurrentRemaining ticks
  | .registerDeadline id params => (b.registerDeadline id params).2
  | .unregisterDeadline id => b.unregisterDeadline id

/-- Every call is always possible. -/
def step (b : SchedulerBackend) (c : Call) : Option SchedulerBackend := some (b.apply c)

/-- A run queue as it is made: the one of the static initializer, or one of a chosen algorithm. -/
def Initial (b : SchedulerBackend) : Prop := b = newConst ∨ ∃ id, b = fromId id

/-- The run queues of all runs. -/
abbrev Reachable : SchedulerBackend → Prop := Runs.Reach step Initial

/-- The call enqueues the task. -/
def Call.Enqueues (id : TaskId) : Call → Prop
  | .enqueue i _ => i = id
  | _ => False

/-- The task is recorded as throttled; only the deadline queue keeps such records. -/
def throttles (b : SchedulerBackend) (id : TaskId) : Bool :=
  match b with
  | .deadline s => s.throttled.contains id
  | _ => false

/-! ## The invariant of every backend -/

/-- The backend's invariant, the timer included. -/
def Coherent : SchedulerBackend → Prop
  | .priorityRR s => s.Mirrors
  | .eevdf s => ∃ q, s.Settled q
  | .deadline s => ∃ q, s.Coherent q

/-- The task is nowhere that a pick could draw it from, now or later. -/
def Away (id : TaskId) : SchedulerBackend → Prop
  | .priorityRR s => s.Mirrors ∧ id ∉ queued (.priorityRR s)
  | .eevdf s => ∃ q, s.Settled q ∧ q id = none
  | .deadline s => s.IsAway id

variable {b : SchedulerBackend} {id : TaskId}

theorem mirrors_of_eq {s t : PriorityRoundRobin} (h : s.Mirrors) (hqueues : t.queues = s.queues)
    (hbitmap : t.bitmap = s.bitmap) : t.Mirrors := by
  intro i
  rw [hqueues, hbitmap]
  exact h i

theorem tick_queues (s : PriorityRoundRobin) :
    s.tick.2.queues = s.queues ∧ s.tick.2.bitmap = s.bitmap := by
  unfold PriorityRoundRobin.tick
  split <;> exact ⟨rfl, rfl⟩

/-- Where an EEVDF call leads, read as awayness. -/
theorem eevdf_away {s t : EevdfScheduler} {waiting : TaskId → Prop} (h : s.Becomes t waiting)
    (hnot : ¬waiting id) : Away id (.eevdf t) := by
  obtain ⟨q, hq, hw⟩ := h.queue
  refine ⟨q, hq, ?_⟩
  by_contra hwaits
  exact hnot ((hw id).1 hwaits)

theorem coherent_initial (h : b.Initial) : b.Coherent := by
  rcases h with rfl | ⟨id, rfl⟩
  · exact mirrors_of_eq PriorityRoundRobin.mirrors_new rfl rfl
  · unfold fromId
    split
    · exact ⟨_, EevdfScheduler.settled_new⟩
    · exact ⟨_, DeadlineScheduler.coherent_new⟩
    · exact PriorityRoundRobin.mirrors_new

theorem roundRobin_coherent {s : PriorityRoundRobin} (h : s.Mirrors) (c : Call) :
    (apply (.priorityRR s) c).Coherent := by
  cases c with
  | pickNextMasked avoidBand => exact PriorityRoundRobin.Mirrors.pickNextMasked h avoidBand
  | enqueue i priority => exact PriorityRoundRobin.Mirrors.enqueue h i priority
  | dequeue i priority => exact (PriorityRoundRobin.Mirrors.dequeue_spec h i priority).1
  | tick => exact mirrors_of_eq h (tick_queues s).1 (tick_queues s).2
  | steal count => exact (PriorityRoundRobin.Mirrors.steal_spec h count).2.2
  | setTimeSlice | reconfigureSlices | applyProfile | setCurrentRemaining =>
    exact mirrors_of_eq h rfl rfl
  | registerDeadline | unregisterDeadline => exact h

theorem eevdf_coherent {s : EevdfScheduler} {q : EevdfScheduler.Queue} (h : s.Settled q) (c : Call) :
    (apply (.eevdf s) c).Coherent := by
  have hbecomes : ∀ {t waiting}, s.Becomes t waiting → (Coherent (.eevdf t)) := by
    intro t waiting hstep
    obtain ⟨q', hq', -⟩ := hstep.queue
    exact ⟨q', hq'⟩
  cases c with
  | pickNextMasked => exact hbecomes h.pickNext
  | enqueue i priority => exact hbecomes (h.enqueue i priority)
  | dequeue i priority => exact hbecomes (h.dequeue i priority)
  | tick => exact hbecomes h.tick
  | steal count => exact hbecomes (h.steal count).1
  | setTimeSlice | reconfigureSlices | applyProfile => exact hbecomes (h.withSlices _)
  | setCurrentRemaining => exact ⟨q, ⟨h.represents.congr rfl rfl rfl rfl, h.flags⟩⟩
  | registerDeadline | unregisterDeadline => exact ⟨q, h⟩

theorem deadline_coherent {s : DeadlineScheduler} {q : DeadlineScheduler.Queue} (h : s.Coherent q)
    (c : Call) : (apply (.deadline s) c).Coherent := by
  cases c with
  | pickNextMasked => exact h.pickNext
  | enqueue i priority =>
    obtain ⟨q', hq', -⟩ := h.enqueue i priority
    exact ⟨q', hq'⟩
  | dequeue i priority =>
    obtain ⟨q', hq', -⟩ := h.dequeue i priority
    exact ⟨q', hq'⟩
  | tick => exact ⟨q, h.tick⟩
  | steal count =>
    obtain ⟨q', hq', -⟩ := h.steal count
    exact ⟨q', hq'⟩
  | setTimeSlice | reconfigureSlices | applyProfile | setCurrentRemaining =>
    exact ⟨q, h.congr rfl rfl rfl rfl⟩
  | registerDeadline i params => exact ⟨q, h.register i params⟩
  | unregisterDeadline i => exact ⟨q, h.unregister i⟩

/-- Every call keeps the invariant of its backend. -/
theorem Coherent.apply (h : b.Coherent) (c : Call) : (b.apply c).Coherent := by
  match b, h with
  | .priorityRR s, h => exact roundRobin_coherent h c
  | .eevdf s, ⟨q, hq⟩ => exact eevdf_coherent hq c
  | .deadline s, ⟨q, hq⟩ => exact deadline_coherent hq c

theorem Reachable.coherent (h : b.Reachable) : b.Coherent := by
  refine Runs.ReachBy.invariant (I := Coherent) (fun _ hb => coherent_initial hb) ?_ h
  intro b c b' hb _ hstep
  exact Option.some.inj hstep ▸ hb.apply c

/-! ## Staying away -/

theorem roundRobin_away {s : PriorityRoundRobin} (h : Away id (.priorityRR s)) {c : Call}
    (hno : ¬c.Enqueues id) : (apply (.priorityRR s) c).Away id := by
  obtain ⟨hmirrors, habsent⟩ := h
  have hsound : Sound (.priorityRR s) := hmirrors
  cases c with
  | pickNextMasked avoidBand =>
    obtain ⟨hm, hq⟩ := hsound.pick avoidBand
    refine ⟨hm, fun hin => habsent ?_⟩
    rw [← hq]
    exact Multiset.mem_add.2 (Or.inl hin)
  | enqueue i priority =>
    have hadded : (SchedulerBackend.enqueue (.priorityRR s) i priority).Sound ∧
        (SchedulerBackend.enqueue (.priorityRR s) i priority).queued = i ::ₘ queued (.priorityRR s) :=
      hsound.enqueue priority (Or.inl rfl)
    obtain ⟨hm, hq⟩ := hadded
    refine ⟨hm, fun hin => ?_⟩
    rcases Multiset.mem_cons.1 (hq ▸ hin) with heq | hin
    · exact hno heq.symm
    · exact habsent hin
  | dequeue i priority =>
    obtain ⟨hm, hq⟩ := hsound.dequeue i priority
    exact ⟨hm, fun hin => habsent (Multiset.mem_filter.1 (hq ▸ hin)).1⟩
  | tick =>
    obtain ⟨hqueues, hbitmap⟩ := tick_queues s
    refine ⟨mirrors_of_eq hmirrors hqueues hbitmap, ?_⟩
    show id ∉ Fifos.items s.tick.2.queues
    rw [hqueues]
    exact habsent
  | steal count =>
    obtain ⟨hm, hq, -⟩ := hsound.steal count
    refine ⟨hm, fun hin => habsent ?_⟩
    rw [← hq]
    exact Multiset.mem_add.2 (Or.inl hin)
  | setTimeSlice | reconfigureSlices | applyProfile | setCurrentRemaining =>
    exact ⟨mirrors_of_eq hmirrors rfl rfl, habsent⟩
  | registerDeadline | unregisterDeadline => exact ⟨hmirrors, habsent⟩

theorem eevdf_stays_away {s : EevdfScheduler} {q : EevdfScheduler.Queue} (h : s.Settled q)
    (habsent : q id = none) {c : Call} (hno : ¬c.Enqueues id) : (apply (.eevdf s) c).Away id := by
  cases c with
  | pickNextMasked => exact eevdf_away h.pickNext fun hw => hw.1 habsent
  | enqueue i priority =>
    apply eevdf_away (h.enqueue i priority)
    rintro (heq | hw)
    · exact hno heq.symm
    · exact hw habsent
  | dequeue i priority => exact eevdf_away (h.dequeue i priority) fun hw => hw.2 habsent
  | tick => exact eevdf_away h.tick fun hw => hw habsent
  | steal count => exact eevdf_away (h.steal count).1 fun hw => hw.1 habsent
  | setTimeSlice | reconfigureSlices | applyProfile =>
    exact eevdf_away (h.withSlices _) fun hw => hw habsent
  | setCurrentRemaining => exact ⟨q, ⟨h.represents.congr rfl rfl rfl rfl, h.flags⟩, habsent⟩
  | registerDeadline | unregisterDeadline => exact ⟨q, h, habsent⟩

theorem deadline_away {s : DeadlineScheduler} {q : DeadlineScheduler.Queue} (h : s.Away q id)
    {c : Call} (hno : ¬c.Enqueues id) : (apply (.deadline s) c).Away id := by
  cases c with
  | pickNextMasked => exact h.pickNext.2
  | enqueue i priority => exact h.enqueue (fun heq => hno heq) priority
  | dequeue i priority => exact h.dequeue i priority
  | tick => exact h.tick
  | steal count => exact h.steal count
  | setTimeSlice | reconfigureSlices | applyProfile | setCurrentRemaining =>
    exact ⟨q, h.congr rfl rfl rfl rfl h.throttled⟩
  | registerDeadline i params => exact h.register i params
  | unregisterDeadline i => exact h.unregister i

/-- **One call.** A task that is away stays away unless the call enqueues it. -/
theorem Away.apply (h : b.Away id) {c : Call} (hno : ¬c.Enqueues id) : (b.apply c).Away id := by
  match b, h with
  | .priorityRR s, h => exact roundRobin_away h hno
  | .eevdf s, ⟨q, hq, habsent⟩ => exact eevdf_stays_away hq habsent hno
  | .deadline s, ⟨q, hq⟩ => exact deadline_away hq hno

/-- No pick returns a task that is away. -/
theorem Away.not_picked (h : b.Away id) (avoidBand : Bool) :
    (b.pickNextMasked avoidBand).1 ≠ some id := by
  match b, h with
  | .priorityRR s, ⟨hmirrors, habsent⟩ =>
    intro hpick
    have hq := (Sound.pick (b := .priorityRR s) hmirrors avoidBand).2
    apply habsent
    rw [← hq]
    exact Multiset.mem_add.2 (Or.inr (mem_asked.2 hpick))
  | .eevdf s, ⟨q, hq, habsent⟩ => exact fun hpick => hq.picked_waits hpick habsent
  | .deadline s, ⟨q, hq⟩ => exact hq.pickNext.1

/-- A dequeue sends the task away, unless it leaves a throttle record behind. -/
theorem Coherent.away_of_dequeue (h : b.Coherent) (hthrottled : b.throttles id = false)
    (priority : Nat) : (b.dequeue id priority).2.Away id := by
  match b, h, hthrottled with
  | .priorityRR s, h, _ =>
    obtain ⟨hm, hq⟩ := Sound.dequeue (b := .priorityRR s) h id priority
    refine ⟨hm, fun hin => ?_⟩
    replace hin : id ∈ (queued (.priorityRR s)).filter (· ≠ id) := hq ▸ hin
    exact (Multiset.mem_filter.1 hin).2 rfl
  | .eevdf s, ⟨q, hq⟩, _ => exact eevdf_away (hq.dequeue id priority) fun hw => hw.1 rfl
  | .deadline s, ⟨q, hq⟩, hthrottled =>
    apply hq.away_of_dequeue
    have hnot : id ∉ s.throttled := by
      rw [← Std.TreeMap.contains_iff_mem]
      exact ne_true_of_eq_false hthrottled
    exact Std.TreeMap.getElem?_eq_none hnot

/-- **A run.** As long as the task is not enqueued, it stays away. -/
theorem Away.run (h : b.Away id) {cs : List Call} (hno : ∀ c ∈ cs, ¬c.Enqueues id)
    {b' : SchedulerBackend} (hrun : Runs.run step b cs = some b') : b'.Away id := by
  induction cs generalizing b with
  | nil => exact Option.some.inj hrun ▸ h
  | cons c cs ih =>
    have hnext : (b.apply c).Away id := h.apply (hno c List.mem_cons_self)
    exact ih hnext (fun c' hc' => hno c' (List.mem_cons_of_mem _ hc')) hrun

/-- **A dequeued task does not come back.** In every reachable run queue of every algorithm, after a
`dequeue` of a task that is not recorded as throttled no pick returns it, whatever calls come in between,
as long as none of them enqueues it. -/
theorem dequeued_task_stays_away (h : b.Reachable) (hthrottled : b.throttles id = false)
    (priority : Nat) {cs : List Call} (hno : ∀ c ∈ cs, ¬c.Enqueues id) {b' : SchedulerBackend}
    (hrun : Runs.run step (b.dequeue id priority).2 cs = some b') (avoidBand : Bool) :
    (b'.pickNextMasked avoidBand).1 ≠ some id :=
  ((h.coherent.away_of_dequeue hthrottled priority).run hno hrun).not_picked avoidBand

theorem reachable_of_run {b b' : SchedulerBackend} (h : b.Reachable) (cs : List Call)
    (hrun : Runs.run step b cs = some b') : b'.Reachable := Runs.Reach.of_run h hrun

theorem dequeued_task_stays_away_waiting :
    ((((fromId 2).apply (.enqueue 7 0)).dequeue 7 0).2.apply .tick |>.pickNextMasked false).1 ≠
      some 7 := by
  have hreach : ((fromId 2).apply (.enqueue 7 0)).Reachable :=
    reachable_of_run (.start (Or.inr ⟨2, rfl⟩)) [.enqueue 7 0] rfl
  have hthrottled : ((fromId 2).apply (.enqueue 7 0)).throttles 7 = false := by decide +kernel
  have hno : ∀ c ∈ [Call.tick], ¬c.Enqueues 7 := by simp [Call.Enqueues]
  exact dequeued_task_stays_away hreach hthrottled 0 hno rfl false

theorem oneTickRunning_reachable : Reachable (.deadline .oneTickRunning) := by
  have hqueued : Reachable (.deadline .oneTickQueued) :=
    reachable_of_run (.start (Or.inr ⟨2, rfl⟩))
      [.registerDeadline 7 DeadlineScheduler.oneTick, .enqueue 7 0] rfl
  refine .next (a := .pickNextMasked false) hqueued trivial ?_
  show some (SchedulerBackend.deadline DeadlineScheduler.oneTickQueued.pickNext.2) = _
  rw [DeadlineScheduler.oneTickQueued_pick]

/-- A throttled task is dequeued, and comes back when its next period begins. -/
theorem throttled_task_comes_back : ∃ b : SchedulerBackend, b.Reachable ∧
    ∃ cs b', (∀ c ∈ cs, ¬c.Enqueues 7) ∧ Runs.run step (b.dequeue 7 0).2 cs = some b' ∧
      (b'.pickNextMasked false).1 = some 7 := by
  -- the throttle record is due at tick 6, and the next pick enqueues the task again
  have hhead : (DeadlineScheduler.oneTickRunning.tick.2.dequeue 7
      0).2.tick.2.tick.2.tick.2.tick.2.tick.2.replenishThrottled.tree.toList.head? =
        some (toLex (11, 7), ⟨7, 0, DeadlineScheduler.oneTick, 11, 1, 6⟩) := by
    decide +kernel
  refine ⟨_, reachable_of_run oneTickRunning_reachable [.tick] rfl,
    [.tick, .tick, .tick, .tick, .tick], _, by simp [Call.Enqueues], rfl, ?_⟩
  exact congrArg Prod.fst (DeadlineScheduler.pickNext_of_head hhead)

end SchedulerBackend

end SlateOS.Sched
