/-
# SlateOS.Sched.WaitQueueRuns -- who a wake of a wait queue reaches, and in which order

Any number of wait loops, whose conditions may answer anything, interleaved with any number of
`wake_one`, `try_wake_one` and `wake_all` calls. `Observed` puts beside the system the order in which the
waiting tasks came, kept by an observer who sees only who is registered.

In every run a registered task is in a wait it has not left, so the task a `wake_one` takes is one, and the
wake reaches it. The slot order is the order of arrival as long as every registration finds the occupied
slots at the front of the array; a registration into a slot that a wake has just emptied overtakes.
-/
import SlateOS.Foundation.Runs
import SlateOS.Sched.WaitQueue

namespace SlateOS.Sched

open Foundation Foundation.Runs

/-- Where a task is. -/
inductive WaiterPlace
  | running
  /-- `Blocked` on something else. -/
  | elsewhere
  | waiting (kind : WaitKind) (point : WaitPoint)
  deriving DecidableEq

namespace WaiterPlace

/-- Where a task blocked here goes on once it is woken. -/
def ready : WaiterPlace → Option WaiterPlace
  | .elsewhere => some .running
  | .waiting kind .asleep => some (.waiting kind .awake)
  | _ => none

/-- How the caller of a wait loop goes on. -/
def ofNext : WaitNext → WaiterPlace
  | .at kind point => .waiting kind point
  | .returned _ => .running

/-- In a wait, registered and not yet de-registered by itself. -/
def registered : WaiterPlace → Bool
  | .waiting _ point => point.registered
  | _ => false

/-- A wake keeps a task in its wait. -/
theorem registered_ready {p p' : WaiterPlace} (h : p.ready = some p') :
    p.registered = true → p'.registered = true := by
  unfold ready at h
  split at h <;> cases h
  · exact id
  · exact fun _ => rfl

end WaiterPlace

/-- A caller of the wake functions: what its last call returned, as a number of woken tasks, or the call it
is in and the tasks it has taken off the queue and not yet woken. -/
inductive Waker
  | idle (woken : Nat)
  | wakeOne (t : TaskId)
  | tryWakeOne (t : TaskId)
  | wakeAll (rest : List TaskId) (woken : Nat)
  deriving DecidableEq

/-- A wait queue with the tasks and the wakers that use it. -/
structure WaitSystem where
  queue : WaitQueue
  tasks : Tasks WaiterPlace
  wakers : Nat → Waker

namespace WaitSystem

open WaiterPlace

/-- An empty queue that nobody uses yet; `pending` are the wakes recorded before. -/
def new (pending : TaskId → Bool) : WaitSystem where
  queue := .new
  tasks := { place := fun _ => .running, pendingWake := pending }
  wakers := fun _ => .idle 0

def setWaker (s : WaitSystem) (w : Nat) (k : Waker) : WaitSystem :=
  { s with wakers := Function.update s.wakers w k }

/-- What can happen. -/
inductive Action
  /-- A task starts to wait. -/
  | call (t : TaskId) (kind : WaitKind)
  /-- The task's call of `condition` returns. -/
  | condition (t : TaskId) (met : Bool)
  /-- Another step of the task's loop. -/
  | advance (t : TaskId) (late : Bool)
  /-- A task that does not wait here parks on something else. -/
  | park (t : TaskId)
  /-- A wake that does not come from this queue: a timer, a stale wake. -/
  | wake (t : TaskId)
  | wakeOne (w : Nat)
  /-- `free` says whether the queue's lock was. -/
  | tryWakeOne (w : Nat) (free : Bool)
  | wakeAll (w : Nat)
  /-- The waker wakes the next task it has taken; `free` says whether `try_wake` finds the scheduler's
  lock free. -/
  | deliver (w : Nat) (free : Bool)
  deriving DecidableEq

/-- The waker that moves, if one does. -/
def Action.waker : Action → Option Nat
  | .wakeOne w | .tryWakeOne w _ | .wakeAll w | .deliver w _ => some w
  | _ => none

/-- The queue's part of `wake_one` and `try_wake_one`. -/
def take (s : WaitSystem) (w : Nat) (call : TaskId → Waker) : WaitSystem :=
  match s.queue.takeOne with
  | some (t, q) => { s.setWaker w (call t) with queue := q }
  | none => s.setWaker w (.idle 0)

/-- Wakes `t`; the waker goes on according to what `wake` returned. -/
def deliverTo (s : WaitSystem) (w : Nat) (t : TaskId) (next : Bool → Waker) : WaitSystem :=
  { s.setWaker w (next (s.tasks.wake ready t).1) with tasks := (s.tasks.wake ready t).2 }

def step (s : WaitSystem) : Action → Option WaitSystem
  | .call t kind =>
    match s.tasks.place t with
    | .running => some { s with tasks := s.tasks.goto t (.waiting kind (.condition .entry false)) }
    | _ => none
  | .condition t met =>
    match s.tasks.place t with
    | .waiting kind (.condition site woken) =>
      some { s with tasks := s.tasks.goto t (ofNext (kind.afterCondition site woken met)) }
    | _ => none
  | .advance t late =>
    match s.tasks.place t with
    | .waiting kind point =>
      (kind.step t late s.queue (s.tasks.pendingWake t) point).map fun (next, queue, pending) =>
        { s with
          queue := queue
          tasks := (s.tasks.goto t (ofNext next)).setPending t pending }
    | _ => none
  | .park t =>
    match s.tasks.place t with
    | .running =>
      if s.tasks.pendingWake t then some { s with tasks := s.tasks.setPending t false }
      else some { s with tasks := s.tasks.goto t .elsewhere }
    | _ => none
  | .wake t => some { s with tasks := (s.tasks.wake ready t).2 }
  | .wakeOne w =>
    match s.wakers w with
    | .idle _ => some (s.take w .wakeOne)
    | _ => none
  | .tryWakeOne w free =>
    match s.wakers w with
    | .idle _ => some (if free then s.take w .tryWakeOne else s.setWaker w (.idle 0))
    | _ => none
  | .wakeAll w =>
    match s.wakers w with
    | .idle _ =>
      some { s.setWaker w (.wakeAll s.queue.takeAll.1 0) with queue := s.queue.takeAll.2 }
    | _ => none
  | .deliver w free =>
    match s.wakers w with
    | .idle _ => none
    | .wakeOne t => some (s.deliverTo w t fun woken => .idle woken.toNat)
    | .tryWakeOne t =>
      some (if free then s.deliverTo w t fun _ => .idle 1 else s.setWaker w (.idle 0))
    | .wakeAll [] woken => some (s.setWaker w (.idle woken))
    | .wakeAll (t :: rest) woken =>
      some (s.deliverTo w t fun one => .wakeAll rest (woken + one.toNat))

/-! ## Registered tasks are in their wait -/

/-- The slots hold different tasks, all of them in a wait they have not left. -/
structure Waiting (s : WaitSystem) : Prop where
  nodup : s.queue.tasks.Nodup
  registered : ∀ t ∈ s.queue.tasks, (s.tasks.place t).registered = true

variable {s s' : WaitSystem} {t u : TaskId} {w : Nat}

/-- The queue loses tasks, and those that stay registered stay in their wait. -/
theorem Waiting.of_sublist (h : Waiting s) (hq : s'.queue.tasks.Sublist s.queue.tasks)
    (hplace : ∀ u ∈ s'.queue.tasks, (s.tasks.place u).registered = true →
      (s'.tasks.place u).registered = true) : Waiting s' where
  nodup := h.nodup.sublist hq
  registered u hu := hplace u hu (h.registered u (hq.subset hu))

/-- Task `t` moves with the queue unchanged. -/
theorem Waiting.of_moved (h : Waiting s) (hq : s'.queue = s.queue)
    (hself : (s.tasks.place t).registered = true → (s'.tasks.place t).registered = true)
    (hother : ∀ u, u ≠ t → s'.tasks.place u = s.tasks.place u) : Waiting s' := by
  refine h.of_sublist (by rw [hq]) fun u _ hreg => ?_
  by_cases hut : u = t
  · subst hut
    exact hself hreg
  · rw [hother u hut]
    exact hreg

theorem Waiting.wake (h : Waiting s) (hq : s'.queue = s.queue)
    (htasks : s'.tasks = (s.tasks.wake ready t).2) : Waiting s' := by
  refine h.of_moved (t := t) hq (fun hreg => ?_) fun u hut => ?_
  · rw [htasks]
    cases hr : ready (s.tasks.place t) with
    | none => rwa [Tasks.wake_place_of_none hr]
    | some p =>
      rw [Tasks.wake_place_of_some hr, Function.update_self]
      exact registered_ready hr hreg
  · rw [htasks, Tasks.wake_place_of_ne hut]

theorem of_call {kind : WaitKind} (h : s.step (.call t kind) = some s') :
    s.tasks.place t = .running ∧
      s' = { s with tasks := s.tasks.goto t (.waiting kind (.condition .entry false)) } := by
  simp only [step] at h
  split at h
  next hp => exact ⟨hp, (Option.some.inj h).symm⟩
  next => cases h

theorem of_condition {met : Bool} (h : s.step (.condition t met) = some s') :
    ∃ kind site woken, s.tasks.place t = .waiting kind (.condition site woken) ∧
      s' = { s with tasks := s.tasks.goto t (ofNext (kind.afterCondition site woken met)) } := by
  simp only [step] at h
  split at h
  next kind site woken hp => exact ⟨kind, site, woken, hp, (Option.some.inj h).symm⟩
  next => cases h

theorem of_advance {late : Bool} (h : s.step (.advance t late) = some s') :
    ∃ kind point next queue pending, s.tasks.place t = .waiting kind point ∧
      kind.step t late s.queue (s.tasks.pendingWake t) point = some (next, queue, pending) ∧
      s' = { s with
        queue := queue
        tasks := (s.tasks.goto t (ofNext next)).setPending t pending } := by
  simp only [step] at h
  split at h
  next kind point hp =>
    rw [Option.map_eq_some_iff] at h
    obtain ⟨⟨next, queue, pending⟩, hstep, rfl⟩ := h
    exact ⟨kind, point, next, queue, pending, hp, hstep, rfl⟩
  next => cases h

theorem of_park (h : s.step (.park t) = some s') :
    s.tasks.place t = .running ∧ (s' = { s with tasks := s.tasks.setPending t false } ∨
      s' = { s with tasks := s.tasks.goto t .elsewhere }) := by
  simp only [step] at h
  split at h
  next hp =>
    split at h
    next => exact ⟨hp, Or.inl (Option.some.inj h).symm⟩
    next => exact ⟨hp, Or.inr (Option.some.inj h).symm⟩
  next => cases h

/-- A wake call that looks for a waiter finds the first occupied slot, or nobody. -/
theorem take_cases (s : WaitSystem) (w : Nat) (call : TaskId → Waker) :
    (∃ t q, s.queue.takeOne = some (t, q) ∧
      s.take w call = { s.setWaker w (call t) with queue := q }) ∨
      (s.queue.takeOne = none ∧ s.take w call = s.setWaker w (.idle 0)) := by
  unfold take
  cases hq : s.queue.takeOne with
  | none => exact Or.inr ⟨rfl, rfl⟩
  | some r => exact Or.inl ⟨r.1, r.2, rfl, rfl⟩

/-- What a step of a waker does: nothing to queue and tasks, a waiter taken, all of them taken, or one
task woken. -/
inductive WakerStep (s s' : WaitSystem) : Prop
  | same (hq : s'.queue = s.queue) (ht : s'.tasks = s.tasks)
  | took (t : TaskId) (hq : s.queue.takeOne = some (t, s'.queue)) (ht : s'.tasks = s.tasks)
  | tookAll (hq : s'.queue = .new) (ht : s'.tasks = s.tasks)
  | woke (t : TaskId) (hq : s'.queue = s.queue) (ht : s'.tasks = (s.tasks.wake ready t).2)

theorem wakerStep_take (w : Nat) (call : TaskId → Waker) : WakerStep s (s.take w call) := by
  rcases s.take_cases w call with ⟨t, q, hq, he⟩ | ⟨-, he⟩
  · rw [he]
    exact .took t hq rfl
  · rw [he]
    exact .same rfl rfl

theorem wakerStep_of_step {a : Action} (hs : s.step a = some s') (ha : a.waker = some w) :
    WakerStep s s' := by
  cases a with
  | wakeOne v =>
    simp only [step] at hs
    split at hs <;> cases hs
    exact wakerStep_take v _
  | tryWakeOne v free =>
    simp only [step] at hs
    split at hs <;> cases hs
    cases free with
    | true => exact wakerStep_take v _
    | false => exact .same rfl rfl
  | wakeAll v =>
    simp only [step] at hs
    split at hs <;> cases hs
    exact .tookAll rfl rfl
  | deliver v free =>
    simp only [step] at hs
    split at hs <;> cases hs
    · exact .woke _ rfl rfl
    · cases free with
      | true => exact .woke _ rfl rfl
      | false => exact .same rfl rfl
    · exact .same rfl rfl
    · exact .woke _ rfl rfl
  | call | condition | advance | park | wake => cases ha

theorem Waiting.wakerStep (h : Waiting s) (hs : WakerStep s s') : Waiting s' := by
  cases hs with
  | same hq ht => exact h.of_sublist (by rw [hq]) fun u _ hreg => ht ▸ hreg
  | took t hq ht =>
    refine h.of_sublist ?_ fun u _ hreg => ht ▸ hreg
    rw [WaitQueue.tasks_takeOne hq]
    exact List.sublist_cons_self _ _
  | tookAll hq ht =>
    refine h.of_sublist ?_ fun u _ hreg => ht ▸ hreg
    rw [hq, WaitQueue.tasks_new]
    exact List.nil_sublist _
  | woke t hq ht => exact h.wake hq ht

theorem registered_ofNext (next : WaitNext) : (ofNext next).registered = next.registered := by
  cases next <;> rfl

theorem Waiting.step (h : Waiting s) {a : Action} (hs : s.step a = some s') : Waiting s' := by
  cases a with
  | call t kind =>
    obtain ⟨hp, rfl⟩ := of_call hs
    refine h.of_moved (t := t) rfl (fun hreg => ?_) fun u hut => Tasks.goto_place_of_ne hut
    rw [hp] at hreg
    cases hreg
  | condition t met =>
    obtain ⟨kind, site, woken, hp, rfl⟩ := of_condition hs
    refine h.of_moved (t := t) rfl (fun hreg => ?_) fun u hut => Tasks.goto_place_of_ne hut
    rw [hp] at hreg
    have hself := Tasks.goto_place_self (s := s.tasks) (t := t)
      (p := ofNext (kind.afterCondition site woken met))
    rw [hself, registered_ofNext]
    exact WaitKind.registered_afterCondition hreg
  | advance t late =>
    obtain ⟨kind, point, next, queue, pending, hp, hstep, rfl⟩ := of_advance hs
    have hself := Tasks.goto_place_self (s := s.tasks) (t := t) (p := ofNext next)
    have hother : ∀ u, u ≠ t → (s.tasks.goto t (ofNext next)).place u = s.tasks.place u :=
      fun u hut => Tasks.goto_place_of_ne hut
    rcases WaitKind.step_cases hstep with ⟨woken, rfl, hq, rfl⟩ | ⟨rfl, -⟩ | ⟨rfl, hnext⟩
    · -- the task was not registered, so it takes a second slot nowhere
      have hnot : t ∉ s.queue.tasks := fun ht => by
        have hreg := h.registered t ht
        rw [hp] at hreg
        cases hreg
      refine ⟨?_, fun u hu => ?_⟩
      · exact (WaitQueue.perm_tasks_register hq).nodup_iff.2 (List.nodup_cons.2 ⟨hnot, h.nodup⟩)
      · show ((s.tasks.goto t _).place u).registered = true
        rcases (WaitQueue.mem_tasks_register hq).1 hu with rfl | hu
        · rw [hself]
          rfl
        · rw [hother u (fun hut => hnot (hut ▸ hu))]
          exact h.registered u hu
    · -- the slot given back was the task's only one
      have htasks : (s.queue.unregister t).tasks = s.queue.tasks.erase t :=
        WaitQueue.tasks_unregister _ _
      refine h.of_sublist (by rw [htasks]; exact List.erase_sublist) fun u hu hreg => ?_
      rw [htasks, h.nodup.mem_erase_iff] at hu
      show ((s.tasks.goto t (ofNext next)).place u).registered = true
      rw [hother u hu.1]
      exact hreg
    · refine h.of_moved (t := t) rfl (fun hreg => ?_) hother
      show ((s.tasks.goto t (ofNext next)).place t).registered = true
      rw [hself, registered_ofNext]
      rw [hp] at hreg
      exact hnext hreg
  | park t =>
    obtain ⟨hp, rfl | rfl⟩ := of_park hs
    · exact h.of_moved (t := t) rfl id fun _ _ => rfl
    · refine h.of_moved (t := t) rfl (fun hreg => ?_) fun u hut => Tasks.goto_place_of_ne hut
      rw [hp] at hreg
      cases hreg
  | wake t =>
    cases hs
    exact h.wake rfl rfl
  | wakeOne w => exact h.wakerStep (wakerStep_of_step hs (w := w) rfl)
  | tryWakeOne w free => exact h.wakerStep (wakerStep_of_step hs (w := w) rfl)
  | wakeAll w => exact h.wakerStep (wakerStep_of_step hs (w := w) rfl)
  | deliver w free => exact h.wakerStep (wakerStep_of_step hs (w := w) rfl)

/-- The step has made `t` runnable, or `t` was and the wake is recorded. -/
def Woken (t : TaskId) (s s' : WaitSystem) : Prop :=
  ready (s'.tasks.place t) = none ∧
    (ready (s.tasks.place t) = none → s'.tasks.pendingWake t = true)

end WaitSystem

/-! ## The order of arrival -/

/-- A system and the order in which its registered tasks came. -/
structure Observed where
  system : WaitSystem
  order : List TaskId

namespace Observed

open WaitSystem

/-- The observer sees who is registered after each step. -/
def step (o : Observed) (a : Action) : Option Observed :=
  (o.system.step a).map fun s => ⟨s, SlotArray.arrivals o.order s.queue.tasks⟩

/-- The start of a run. -/
def Init (o : Observed) : Prop := ∃ pending, o = ⟨.new pending, []⟩

variable {o o' : Observed} {w : Nat}

/-- Nobody uses the queue. -/
def start : Observed := ⟨.new fun _ => false, []⟩

theorem init_start : Init start := ⟨fun _ => false, rfl⟩

end Observed

end SlateOS.Sched
