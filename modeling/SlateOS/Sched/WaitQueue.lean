/-
# SlateOS.Sched.WaitQueue -- the slots of a wait queue and the loops that wait on it

`kernel/src/sched/waitqueue.rs`. A wait loop is cut at its atomic steps: a critical section of the queue's
lock, one call of `condition`, one reading of the clock, one critical section of the scheduler's lock.
`WaitPoint` names the places between them, so that any number of loops can be interleaved; what
`condition` does is left to the caller. `Tasks` is what the scheduler keeps of the tasks: where each one
is, and its `pending_wake`.
-/
import SlateOS.Foundation.SlotArray
import SlateOS.Sched.PriorityRr

namespace SlateOS.Sched

open Foundation Foundation.MachineInt

/-- `MAX_WAITERS`. -/
def maxWaiters : Nat := 32

/-- `WaitQueue`. An empty slot, `NO_WAITER`, is `none`. -/
structure WaitQueue where
  waiters : List (Option TaskId)
  length_waiters : waiters.length = maxWaiters

namespace WaitQueue

/-- `new`. -/
def new : WaitQueue where
  waiters := List.replicate maxWaiters none
  length_waiters := List.length_replicate

/-- The registered tasks, in slot order. -/
def tasks (q : WaitQueue) : List TaskId := SlotArray.contents q.waiters

/-- Registration: the first slot that holds `NO_WAITER`. -/
def register (q : WaitQueue) (t : TaskId) : Option WaitQueue :=
  match h : SlotArray.fill t q.waiters with
  | none => none
  | some l => some ⟨l, (SlotArray.length_fill h).trans q.length_waiters⟩

/-- De-registration: the first slot that holds the task. -/
def unregister (q : WaitQueue) (t : TaskId) : WaitQueue :=
  ⟨SlotArray.release t q.waiters, (SlotArray.length_release t _).trans q.length_waiters⟩

/-- The queue's part of `wake_one` and of `try_wake_one`: the first slot that is not `NO_WAITER`. -/
def takeOne (q : WaitQueue) : Option (TaskId × WaitQueue) :=
  match h : SlotArray.pop q.waiters with
  | none => none
  | some (t, l) => some (t, ⟨l, (SlotArray.length_pop h).trans q.length_waiters⟩)

/-- The queue's part of `wake_all`. -/
def takeAll (q : WaitQueue) : List TaskId × WaitQueue := (q.tasks, new)

@[simp] theorem tasks_new : new.tasks = [] := SlotArray.contents_replicate _

variable {q q' : WaitQueue} {t : TaskId}

theorem register_waiters (h : q.register t = some q') :
    SlotArray.fill t q.waiters = some q'.waiters := by
  unfold register at h
  split at h
  next => cases h
  next l hl =>
    cases h
    exact hl

theorem takeOne_waiters (h : q.takeOne = some (t, q')) :
    SlotArray.pop q.waiters = some (t, q'.waiters) := by
  unfold takeOne at h
  split at h
  next => cases h
  next u l hl =>
    cases h
    exact hl

theorem perm_tasks_register (h : q.register t = some q') :
    q'.tasks.Perm (t :: q.tasks) := SlotArray.perm_fill (register_waiters h)

theorem mem_tasks_register {t u : TaskId} (h : q.register t = some q') :
    u ∈ q'.tasks ↔ u = t ∨ u ∈ q.tasks := SlotArray.mem_fill (register_waiters h)

@[simp] theorem tasks_unregister (q : WaitQueue) (t : TaskId) :
    (q.unregister t).tasks = q.tasks.erase t := SlotArray.contents_release t _

theorem tasks_takeOne (h : q.takeOne = some (t, q')) :
    q.tasks = t :: q'.tasks := SlotArray.contents_pop (takeOne_waiters h)

end WaitQueue

/-! ## The wait loops -/

/-- The three loops, a timed one with its timeout. -/
inductive WaitKind
  | waitUntilWoken
  | waitTimeoutWoken (timeoutTicks : Nat)
  | waitTimeoutNsWoken (timeoutNs : Nat)
  deriving DecidableEq

/-- The calls of `condition` in a loop. -/
inductive Site
  /-- The first line of the loop's function. -/
  | entry
  /-- Past the deadline with every slot occupied. -/
  | full
  /-- Right after the registration. -/
  | registered
  /-- Past the deadline before the first sleep of this registration, the slot already given back. -/
  | expired
  /-- After a sleep, the slot already given back. -/
  | slept
  deriving DecidableEq

/-- The places of a loop between two atomic steps. `woken` is the loop's variable; it is `true` after
every sleep. -/
inductive WaitPoint
  | condition (site : Site) (woken : Bool)
  /-- About to look for an empty slot. -/
  | register (woken : Bool)
  /-- Every slot was occupied, and the task has yielded. -/
  | full (woken : Bool)
  /-- The condition held: about to give the slot back and return. -/
  | unregister
  /-- About to read the clock, still registered. -/
  | clock (woken : Bool)
  /-- Past the deadline: about to give the slot back. -/
  | expire (woken : Bool)
  /-- About to sleep. -/
  | sleep
  | asleep
  /-- The sleep is over: about to give the slot back. -/
  | awake
  /-- The condition failed after a sleep: about to read the clock. -/
  | deadline
  deriving DecidableEq

/-- How a loop goes on: at a place, or by returning. -/
inductive WaitNext
  | at (kind : WaitKind) (point : WaitPoint)
  | returned (met : Bool)
  deriving DecidableEq

namespace WaitKind

/-- From which timeout on a nanosecond wait becomes a wait in ticks. -/
def longTimeoutNs : Nat := 100000000

/-- After the first call of `condition` failed. -/
def begin : WaitKind → WaitNext
  | .waitUntilWoken => .at .waitUntilWoken (.register false)
  | .waitTimeoutWoken ticks =>
    if ticks = 0 then .returned false else .at (.waitTimeoutWoken ticks) (.register false)
  | .waitTimeoutNsWoken ns =>
    if ns = 0 then .returned false
    else if ns > longTimeoutNs then
      .at (.waitTimeoutWoken (saturatingAdd 64 ns 9999999 / 10000000)) (.condition .entry false)
    else .at (.waitTimeoutNsWoken ns) (.register false)

/-- After a call of `condition`. -/
def afterCondition (kind : WaitKind) (site : Site) (woken met : Bool) : WaitNext :=
  match met, site with
  | true, .registered => .at kind .unregister
  | true, _ => .returned true
  | false, .entry => kind.begin
  | false, .registered =>
    match kind with
    | .waitTimeoutNsWoken _ => .at kind (.clock woken)
    | _ => .at kind .sleep
  | false, .slept =>
    match kind with
    | .waitUntilWoken => .at kind (.register true)
    | _ => .at kind .deadline
  | false, .full => .returned false
  | false, .expired => .returned false

/-- A step of the loop of task `t` that neither calls `condition` nor ends a sleep. `late` is what the
environment decides there: that the clock is past the deadline, or that a timed sleep comes back
without having parked (no free sleep slot, interrupts off). -/
def step (kind : WaitKind) (t : TaskId) (late : Bool) (q : WaitQueue) (pending : Bool) :
    WaitPoint → Option (WaitNext × WaitQueue × Bool)
  | .condition _ _ => none
  | .register woken =>
    match q.register t with
    | some q' => some (.at kind (.condition .registered woken), q', pending)
    | none => some (.at kind (.full woken), q, pending)
  | .full woken =>
    if kind ≠ .waitUntilWoken ∧ late then some (.at kind (.condition .full woken), q, pending)
    else some (.at kind (.register woken), q, pending)
  | .unregister => some (.returned true, q.unregister t, pending)
  | .clock woken => some (.at kind (if late then .expire woken else .sleep), q, pending)
  | .expire woken => some (.at kind (.condition .expired woken), q.unregister t, pending)
  | .sleep =>
    if kind ≠ .waitUntilWoken ∧ late then some (.at kind .awake, q, pending)
    -- a recorded wake is consumed in place of the sleep
    else if pending then some (.at kind .awake, q, false)
    else some (.at kind .asleep, q, pending)
  | .asleep => none
  | .awake => some (.at kind (.condition .slept true), q.unregister t, pending)
  | .deadline => some (if late then .returned false else .at kind (.register true), q, pending)

end WaitKind

/-- At a place of the loop where the task has a registration it has not given back. -/
def WaitPoint.registered : WaitPoint → Bool
  | .condition .registered _ | .unregister | .clock _ | .expire _ | .sleep | .asleep | .awake => true
  | _ => false

def WaitNext.registered : WaitNext → Bool
  | .at _ point => point.registered
  | .returned _ => false

namespace WaitKind

/-- A loop that calls `condition` while registered stays registered. -/
theorem registered_afterCondition {kind : WaitKind} {site : Site} {woken met : Bool}
    (h : (WaitPoint.condition site woken).registered = true) :
    (kind.afterCondition site woken met).registered = true := by
  cases site with
  | registered =>
    cases met with
    | true => rfl
    | false => cases kind <;> rfl
  | _ => cases h

variable {kind : WaitKind} {t : TaskId} {late pending pending' : Bool} {q q' : WaitQueue}
  {point : WaitPoint} {next : WaitNext}

/-- What a step of the loop does to the queue: the task registers, gives its slot back, or leaves the
queue as it is and does not forget a registration. -/
theorem step_cases (h : kind.step t late q pending point = some (next, q', pending')) :
    (∃ woken, point = .register woken ∧ q.register t = some q' ∧
      next = .at kind (.condition .registered woken)) ∨
      (q' = q.unregister t ∧ point.registered = true) ∨
      (q' = q ∧ (point.registered = true → next.registered = true)) := by
  cases point with
  | condition site woken => cases h
  | register woken =>
    simp only [step] at h
    split at h
    next r hr =>
      cases h
      exact Or.inl ⟨woken, rfl, hr, rfl⟩
    next =>
      cases h
      exact Or.inr (Or.inr ⟨rfl, fun hc => Bool.noConfusion hc⟩)
  | full woken =>
    simp only [step] at h
    split at h <;> cases h <;> exact Or.inr (Or.inr ⟨rfl, fun hc => Bool.noConfusion hc⟩)
  | unregister =>
    cases h
    exact Or.inr (Or.inl ⟨rfl, rfl⟩)
  | clock woken =>
    cases h
    refine Or.inr (Or.inr ⟨rfl, fun _ => ?_⟩)
    cases late <;> rfl
  | expire woken =>
    cases h
    exact Or.inr (Or.inl ⟨rfl, rfl⟩)
  | sleep =>
    simp only [step] at h
    split at h
    · cases h
      exact Or.inr (Or.inr ⟨rfl, fun _ => rfl⟩)
    · split at h <;> cases h <;> exact Or.inr (Or.inr ⟨rfl, fun _ => rfl⟩)
  | asleep => cases h
  | awake =>
    cases h
    exact Or.inr (Or.inl ⟨rfl, rfl⟩)
  | deadline =>
    cases h
    exact Or.inr (Or.inr ⟨rfl, fun hc => Bool.noConfusion hc⟩)

end WaitKind

/-! ## The scheduler's side -/

/-- Where each task is, and its `pending_wake`. -/
structure Tasks (P : Type) where
  place : TaskId → P
  pendingWake : TaskId → Bool

namespace Tasks

variable {P : Type}

/-- The task goes on at `p`. -/
def goto (s : Tasks P) (t : TaskId) (p : P) : Tasks P :=
  { s with place := Function.update s.place t p }

def setPending (s : Tasks P) (t : TaskId) (b : Bool) : Tasks P :=
  { s with pendingWake := Function.update s.pendingWake t b }

/-- `wake`, which `try_wake` is when it gets the lock. `ready p` is where a task blocked at `p` goes on
once it is `Ready`, and `none` when a task at `p` is not `Blocked`. -/
def wake (ready : P → Option P) (s : Tasks P) (t : TaskId) : Bool × Tasks P :=
  match ready (s.place t) with
  | some p => (true, (s.goto t p).setPending t false)
  | none => (false, s.setPending t true)

variable {ready : P → Option P} {s : Tasks P} {t u : TaskId} {p : P}

@[simp] theorem goto_place_self : (s.goto t p).place t = p := Function.update_self ..

theorem goto_place_of_ne (h : u ≠ t) : (s.goto t p).place u = s.place u := Function.update_of_ne h ..

/-- A task that is not blocked stays where it is. -/
theorem wake_place_of_none (h : ready (s.place t) = none) : (s.wake ready t).2.place = s.place := by
  unfold wake
  rw [h]
  rfl

theorem wake_false_of_none (h : ready (s.place t) = none) : (s.wake ready t).1 = false := by
  unfold wake
  rw [h]

theorem wake_place_of_some (h : ready (s.place t) = some p) :
    (s.wake ready t).2.place = Function.update s.place t p := by
  unfold wake
  rw [h]
  rfl

/-- Nobody else moves. -/
theorem wake_place_of_ne (h : u ≠ t) : (s.wake ready t).2.place u = s.place u := by
  cases hr : ready (s.place t) with
  | none => rw [wake_place_of_none hr]
  | some p => rw [wake_place_of_some hr, Function.update_of_ne h]

/-- Nobody who is not blocked moves. -/
theorem wake_place_of_not_blocked (h : ready (s.place u) = none) :
    (s.wake ready t).2.place u = s.place u := by
  by_cases hut : u = t
  · subst hut
    rw [wake_place_of_none h]
  · exact wake_place_of_ne hut

end Tasks

end SlateOS.Sched
