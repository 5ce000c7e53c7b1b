/-
# SlateOS.Sched.KMutex -- the sleeping mutex

`kernel/src/sched/kmutex.rs`, with its calls cut at their atomic steps: each compare-exchange, store and
swap, each critical section of the wait queue and each wake is one step, and the wait itself is the loop
of `SlateOS.Sched.WaitQueue` with `try_acquire` as its condition. Tasks outside the mutex's code may park
on other things, ask again while they hold the mutex, and be woken by anyone at any time.
-/
import SlateOS.Sched.WaitQueue

namespace SlateOS.Sched

/-- The values of `state`. -/
inductive MutexState
  | unlocked | locked | handoff
  deriving DecidableEq

/-- The calls that ask for the mutex. -/
inductive MutexCall
  | lock
  | tryLock
  | lockTimeoutNs (timeoutNs : Nat)
  deriving DecidableEq

/-- Where a task is. -/
inductive MutexPlace
  /-- In the caller's code. -/
  | running
  /-- In the caller's code and `Blocked` on something else. -/
  | elsewhere
  /-- About to run the fast path's `try_take_free`. -/
  | fast (call : MutexCall)
  /-- In the adaptive spin, with this many attempts left. -/
  | spin (kind : WaitKind) (left : Nat)
  /-- In the wait loop; at a call of `try_acquire`, about to run its `try_take_free`. -/
  | waiting (kind : WaitKind) (point : WaitPoint)
  /-- In `try_acquire(true)`, about to try `HANDOFF` to `LOCKED`. -/
  | takeHandoff (kind : WaitKind) (site : Site)
  /-- In `try_acquire(true)`, about to set `starving`. -/
  | setStarving (kind : WaitKind) (site : Site)
  /-- In `unlock`, about to swap `starving`. -/
  | swapStarving
  /-- In `unlock`, about to store `HANDOFF`. -/
  | storeHandoff
  /-- In `unlock`, about to store `UNLOCKED`. -/
  | storeUnlocked
  /-- In the `wake_one` of a handoff, about to look for a waiter. -/
  | handoffTake
  /-- In the `wake_one` of a handoff, about to wake the waiter. -/
  | handoffWake (waiter : TaskId)
  /-- In `unlock`, nobody woken: about to try `HANDOFF` to `UNLOCKED`. -/
  | freeHandoff
  /-- In the `wake_one` after the mutex was freed. -/
  | freeTake
  | freeWake (waiter : TaskId)
  deriving DecidableEq

/-- `KMutex` and the tasks that use it. -/
structure KMutex where
  state : MutexState
  starving : Bool
  waiters : WaitQueue
  tasks : Tasks MutexPlace
  /-- The guards each task has, from the exchange that takes the mutex to the store that gives it up. -/
  guards : TaskId → Nat

namespace MutexPlace

/-- `spin` attempts of `lock_slow` and of `lock_timeout_ns`. -/
def spinAttempts : Nat := 40

/-- Where a task blocked here goes on once it is woken. -/
def ready : MutexPlace → Option MutexPlace
  | .elsewhere => some .running
  | .waiting kind .asleep => some (.waiting kind .awake)
  | _ => none

/-- How the caller of a wait loop goes on. -/
def ofNext : WaitNext → MutexPlace
  | .at kind point => .waiting kind point
  | .returned _ => .running

/-- After a failed fast path. -/
def slow : MutexCall → MutexPlace
  | .lock => .spin .waitUntilWoken spinAttempts
  | .tryLock => .running
  | .lockTimeoutNs ns =>
    if ns = 0 then .running else .spin (.waitTimeoutNsWoken ns) spinAttempts

end MutexPlace

namespace KMutex

open MutexPlace

/-- `new`, no task using it yet; `pending` are the wakes recorded before. -/
def new (pending : TaskId → Bool) : KMutex where
  state := .unlocked
  starving := false
  waiters := .new
  tasks := { place := fun _ => .running, pendingWake := pending }
  guards := fun _ => 0

/-- Task `t` goes on at `p`. -/
def goto (m : KMutex) (t : TaskId) (p : MutexPlace) : KMutex := { m with tasks := m.tasks.goto t p }

/-- Task `t` has taken the mutex and goes on at `p`. -/
def take (m : KMutex) (t : TaskId) (p : MutexPlace) : KMutex :=
  { m with
    state := .locked
    tasks := m.tasks.goto t p
    guards := Function.update m.guards t (m.guards t + 1) }

/-- Task `t` gives the mutex up, leaving `state`, and goes on at `p`. -/
def giveUp (m : KMutex) (t : TaskId) (state : MutexState) (p : MutexPlace) : KMutex :=
  { m with
    state := state
    tasks := m.tasks.goto t p
    guards := Function.update m.guards t (m.guards t - 1) }

/-- `try_take_free`: on to `won` with the mutex, or to `lost`. -/
def tryTakeFree (m : KMutex) (t : TaskId) (won lost : MutexPlace) : KMutex :=
  match m.state with
  | .unlocked => m.take t won
  | _ => m.goto t lost

/-- The second exchange of `try_acquire(true)`: on to `won` with the mutex, or to `lost`. -/
def tryTakeHandoff (m : KMutex) (t : TaskId) (won lost : MutexPlace) : KMutex :=
  match m.state with
  | .handoff => m.take t won
  | _ => m.goto t lost

/-- The exchange of an `unlock` that found nobody to hand over to: on to `freed`, or to `taken`. -/
def tryFreeHandoff (m : KMutex) (t : TaskId) (freed taken : MutexPlace) : KMutex :=
  match m.state with
  | .handoff => { m.goto t freed with state := .unlocked }
  | _ => m.goto t taken

/-- `wake_one` looks for a waiter: on to `found`, or to `empty`. -/
def takeOne (m : KMutex) (t : TaskId) (found : TaskId → MutexPlace) (empty : MutexPlace) : KMutex :=
  match m.waiters.takeOne with
  | some (u, q) => { m with waiters := q, tasks := m.tasks.goto t (found u) }
  | none => m.goto t empty

/-- One step of a task inside the mutex's code. `late` is what the environment decides in a wait loop. -/
def advance (m : KMutex) (t : TaskId) (late : Bool) : MutexPlace → Option KMutex
  | .running | .elsewhere => none
  | .fast call => some (m.tryTakeFree t .running (slow call))
  | .spin kind 0 => some (m.goto t (.waiting kind (.condition .entry false)))
  | .spin kind (left + 1) => some (m.tryTakeFree t .running (.spin kind left))
  | .waiting kind (.condition site woken) =>
    some (m.tryTakeFree t (ofNext (kind.afterCondition site woken true))
      (if woken then .takeHandoff kind site else ofNext (kind.afterCondition site woken false)))
  | .waiting kind point =>
    (kind.step t late m.waiters (m.tasks.pendingWake t) point).map fun (next, waiters, pending) =>
      { m with
        waiters := waiters
        tasks := (m.tasks.goto t (ofNext next)).setPending t pending }
  | .takeHandoff kind site =>
    some (m.tryTakeHandoff t (ofNext (kind.afterCondition site true true)) (.setStarving kind site))
  | .setStarving kind site =>
    some { m with
      starving := true
      tasks := m.tasks.goto t (ofNext (kind.afterCondition site true false)) }
  | .swapStarving =>
    some { m with
      starving := false
      tasks := m.tasks.goto t (if m.starving then .storeHandoff else .storeUnlocked) }
  | .storeHandoff => some (m.giveUp t .handoff .handoffTake)
  | .storeUnlocked => some (m.giveUp t .unlocked .freeTake)
  | .handoffTake => some (m.takeOne t .handoffWake .freeHandoff)
  | .handoffWake u =>
    let woken := m.tasks.wake ready u
    some { m with tasks := woken.2.goto t (if woken.1 then .running else .freeHandoff) }
  | .freeHandoff => some (m.tryFreeHandoff t .freeTake .running)
  | .freeTake => some (m.takeOne t .freeWake .running)
  | .freeWake u => some { m with tasks := (m.tasks.wake ready u).2.goto t .running }

/-- What can happen. -/
inductive Action
  /-- A task asks for the mutex. -/
  | call (t : TaskId) (call : MutexCall)
  /-- The guard is dropped. -/
  | unlock (t : TaskId)
  | advance (t : TaskId) (late : Bool)
  /-- A task in its caller's code parks on something else. -/
  | park (t : TaskId)
  /-- A wake from outside: a timer, a stale wake, the end of another wait. -/
  | wake (t : TaskId)
  deriving DecidableEq

def step (m : KMutex) : Action → Option KMutex
  | .call t call =>
    match m.tasks.place t with
    | .running => some (m.goto t (.fast call))
    | _ => none
  | .unlock t =>
    match m.tasks.place t with
    | .running => if m.guards t = 0 then none else some (m.goto t .swapStarving)
    | _ => none
  | .advance t late => m.advance t late (m.tasks.place t)
  | .park t =>
    match m.tasks.place t with
    | .running =>
      if m.tasks.pendingWake t then some { m with tasks := m.tasks.setPending t false }
      else some (m.goto t .elsewhere)
    | _ => none
  | .wake t => some { m with tasks := (m.tasks.wake ready t).2 }

end KMutex

end SlateOS.Sched
