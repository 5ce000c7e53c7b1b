/-
# SlateOS.Ipc.Semaphore.Model -- the counting semaphore

`kernel/src/ipc/semaphore.rs`: `signal` with `grant_batch`, `wait`, `try_wait`, `wait_timeout` and `close`
on one semaphore, cut at their sections under `SEM_TABLE`, their wakes and their parks. `close` removes the
semaphore from the table. Three numbers are kept beside it: the count it was created with, the units all
accepted signals brought, and the units waits have returned with.
-/
import SlateOS.Kernel.Error
import SlateOS.Sched.WaitQueue

namespace SlateOS.Ipc

open Kernel Sched Foundation.MachineInt

/-- `MAX_WAITERS`. -/
def semMaxWaiters : Nat := 256

/-- `WAKE_BATCH`. -/
def wakeBatch : Nat := 16

/-- `DEFAULT_MAX_COUNT`. -/
def defaultMaxCount : Nat := maxVal 64 / 2

/-- `Semaphore`. -/
structure Semaphore where
  count : Nat
  granting : Nat
  maxCount : Nat
  waiters : List Sched.TaskId
  closed : Bool

namespace Semaphore

/-- `Semaphore::new`. -/
def new (initial maxCount : Nat) : Semaphore where
  count := min initial maxCount
  granting := 0
  maxCount := maxCount
  waiters := []
  closed := false

/-- One unit is taken. -/
def takeUnit (s : Semaphore) : Semaphore := { s with count := s.count - 1 }

/-- The loop of `grant_batch` over the slots of a batch: the semaphore, what is left, and the tasks taken
off the queue. -/
def grantSlots : Nat → Semaphore → Nat → Semaphore × Nat × List Sched.TaskId
  | 0, s, left => (s, left, [])
  | n + 1, s, left =>
    if left = 0 then (s, left, [])
    else match s.waiters with
    | [] => (s, left, [])
    | t :: ts =>
      let rest := grantSlots n { s with waiters := ts, granting := s.granting - 1 } (left - 1)
      (rest.1, rest.2.1, t :: rest.2.2)

/-- The end of `grant_batch`: with nobody waiting, the units still left are counted. -/
def countLeft (s : Semaphore) (left : Nat) : Semaphore × Nat :=
  if s.waiters = [] then
    ({ s with granting := s.granting - left, count := saturatingAdd 64 s.count left }, 0)
  else (s, left)

/-- `grant_batch`. -/
def grantBatch (s : Semaphore) (left : Nat) : Semaphore × Nat × List Sched.TaskId :=
  let granted := grantSlots wakeBatch s left
  let counted := granted.1.countLeft granted.2.1
  (counted.1, counted.2, granted.2.2)

end Semaphore

/-- The calls on a semaphore. -/
inductive SemCall
  | signal (count : Nat)
  | wait
  | tryWait
  | waitTimeout (timeoutNs : Nat)
  | close
  deriving DecidableEq

/-- A call that waits. -/
inductive SemWait
  | plain
  | timed (timeoutNs : Nat)
  deriving DecidableEq

/-- The call it is. -/
def SemWait.call : SemWait → SemCall
  | .plain => .wait
  | .timed timeoutNs => .waitTimeout timeoutNs

/-- Where a task is. -/
inductive SemPlace
  /-- In no call on the semaphore; the last one and what it returned. -/
  | user (ret : Option (SemCall × KernelResult Unit))
  /-- The first section of a call. -/
  | enter (call : SemCall)
  /-- `signal`, accepted: the section of the next batch. -/
  | grantNext (count left : Nat)
  /-- `signal`: the wakes of a batch. -/
  | wakeBatch (count left : Nat) (toWake : List Sched.TaskId)
  /-- A pass of the loop of `wait_timeout`. -/
  | timedPass (timeoutNs : Nat) (queued : Bool)
  /-- `block_current_on`, queued. -/
  | park (w : SemWait)
  | parked (w : SemWait)
  /-- `wait`: the section after the park. -/
  | resumed
  /-- `close`: the wakes. -/
  | wakeClosed (toWake : List Sched.TaskId)
  deriving DecidableEq

namespace SemPlace

/-- After a park. -/
def afterPark : SemWait → SemPlace
  | .plain => .resumed
  | .timed timeoutNs => .timedPass timeoutNs true

/-- Where a parked task goes on once it is woken. -/
def ready : SemPlace → Option SemPlace
  | .parked w => some (afterPark w)
  | _ => none

end SemPlace

/-- The semaphore while it is in the table, the tasks, and the three numbers. -/
structure SemSystem where
  sem : Option Semaphore
  tasks : Tasks SemPlace
  initial : Nat
  accepted : Nat
  acquired : Nat

namespace SemSystem

/-- `create`, no task using the semaphore yet; `pending` are the wakes recorded before. -/
def create (initial maxCount : Nat) (pending : Sched.TaskId → Bool) : SemSystem :=
  let sem := Semaphore.new initial (if maxCount = 0 then defaultMaxCount else maxCount)
  { sem := some sem
    tasks := ⟨fun _ => .user none, pending⟩
    initial := sem.count, accepted := 0, acquired := 0 }

/-- Task `t` goes on at `p`. -/
def goto (m : SemSystem) (t : Sched.TaskId) (p : SemPlace) : SemSystem := { m with tasks := m.tasks.goto t p }

/-- The call of `t` returns. -/
def ret (m : SemSystem) (t : Sched.TaskId) (call : SemCall) (r : KernelResult Unit) : SemSystem :=
  m.goto t (.user (some (call, r)))

/-- The call of `t` returns with a unit. -/
def retUnit (m : SemSystem) (t : Sched.TaskId) (call : SemCall) : SemSystem :=
  { m with acquired := m.acquired + 1 }.ret t call (.ok ())

/-- A batch of a signal, under the lock; its wakes come next. -/
def grant (m : SemSystem) (t : Sched.TaskId) (s : Semaphore) (count left : Nat) : SemSystem :=
  let batch := s.grantBatch left
  { m with sem := some batch.1 }.goto t (.wakeBatch count batch.2.1 batch.2.2)

/-- `signal`'s first section. -/
def signal (m : SemSystem) (t : Sched.TaskId) (count : Nat) : SemSystem :=
  if count = 0 then m.ret t (.signal count) (.ok ())
  else match m.sem with
  | none => m.ret t (.signal count) (.error .invalidHandle)
  | some s =>
    if s.closed then m.ret t (.signal count) (.error .channelClosed)
    else if s.maxCount - saturatingAdd 64 s.count s.granting < count then
      m.ret t (.signal count) (.error .overflow)
    else
      { m with accepted := m.accepted + count }.grant t
        { s with granting := saturatingAdd 64 s.granting count } count count

/-- `signal`'s later sections. -/
def grantNext (m : SemSystem) (t : Sched.TaskId) (count left : Nat) : SemSystem :=
  match m.sem with
  | none => m.ret t (.signal count) (.ok ())
  | some s => m.grant t s count left

/-- `wait`'s first section. -/
def wait (m : SemSystem) (t : Sched.TaskId) : SemSystem :=
  match m.sem with
  | none => m.ret t .wait (.error .invalidHandle)
  | some s =>
    if 0 < s.count then { m with sem := some s.takeUnit }.retUnit t .wait
    else if s.closed then m.ret t .wait (.error .channelClosed)
    else if semMaxWaiters ≤ s.waiters.length then m.ret t .wait (.error .wouldBlock)
    else { m with sem := some { s with waiters := s.waiters ++ [t] } }.goto t (.park .plain)

/-- `wait`'s section after a park: off the queue is the grant. -/
def resumed (m : SemSystem) (t : Sched.TaskId) : SemSystem :=
  match m.sem with
  | none => m.ret t .wait (.error .channelClosed)
  | some s =>
    if s.closed then m.ret t .wait (.error .channelClosed)
    else if t ∈ s.waiters then m.goto t (.park .plain)
    else m.retUnit t .wait

/-- `try_wait`. -/
def tryWait (m : SemSystem) (t : Sched.TaskId) : SemSystem :=
  match m.sem with
  | none => m.ret t .tryWait (.error .invalidHandle)
  | some s =>
    if 0 < s.count then { m with sem := some s.takeUnit }.retUnit t .tryWait
    else if s.closed then m.ret t .tryWait (.error .channelClosed)
    else m.ret t .tryWait (.error .wouldBlock)

/-- `wait_timeout` up to its loop. -/
def waitTimeout (m : SemSystem) (t : Sched.TaskId) (timeoutNs : Nat) : SemSystem :=
  match m.sem with
  | none => m.ret t (.waitTimeout timeoutNs) (.error .invalidHandle)
  | some s =>
    if 0 < s.count then { m with sem := some s.takeUnit }.retUnit t (.waitTimeout timeoutNs)
    else if s.closed then m.ret t (.waitTimeout timeoutNs) (.error .channelClosed)
    else if timeoutNs = 0 then m.ret t (.waitTimeout timeoutNs) (.error .timedOut)
    else m.goto t (.timedPass timeoutNs false)

/-- A pass of the loop of `wait_timeout`; `expired` is whether the timer has fired or the clock is past the
deadline. -/
def timedPass (m : SemSystem) (t : Sched.TaskId) (timeoutNs : Nat) (queued expired : Bool) : SemSystem :=
  match m.sem with
  | none => m.ret t (.waitTimeout timeoutNs) (.error .channelClosed)
  | some s =>
    if s.closed then m.ret t (.waitTimeout timeoutNs) (.error .channelClosed)
    else if queued && decide (t ∉ s.waiters) then m.retUnit t (.waitTimeout timeoutNs)
    else if !queued && decide (0 < s.count) then
      { m with sem := some s.takeUnit }.retUnit t (.waitTimeout timeoutNs)
    else if expired then
      { m with sem := some { s with waiters := s.waiters.erase t } }.ret t (.waitTimeout timeoutNs)
        (.error .timedOut)
    else if queued then m.goto t (.park (.timed timeoutNs))
    else if semMaxWaiters ≤ s.waiters.length then
      m.ret t (.waitTimeout timeoutNs) (.error .wouldBlock)
    else { m with sem := some { s with waiters := s.waiters ++ [t] } }.goto t (.park (.timed timeoutNs))

/-- `close`'s section. -/
def close (m : SemSystem) (t : Sched.TaskId) : SemSystem :=
  match m.sem with
  | none => m.goto t (.wakeClosed [])
  | some s => { m with sem := none }.goto t (.wakeClosed s.waiters)

/-- `sched::wake`. -/
def wake (m : SemSystem) (t : Sched.TaskId) : SemSystem :=
  { m with tasks := (m.tasks.wake SemPlace.ready t).2 }

/-- `block_current_on`: a wake recorded before ends the park at once. -/
def park (m : SemSystem) (t : Sched.TaskId) (w : SemWait) : SemSystem :=
  if m.tasks.pendingWake t then
    { m with tasks := (m.tasks.goto t (.afterPark w)).setPending t false }
  else m.goto t (.parked w)

/-- The next step of the call `t` is in; a parked task does not move by itself. -/
def advance (m : SemSystem) (t : Sched.TaskId) (expired : Bool) : Option SemSystem :=
  match m.tasks.place t with
  | .user _ | .parked _ => none
  | .enter (.signal count) => some (m.signal t count)
  | .enter .wait => some (m.wait t)
  | .enter .tryWait => some (m.tryWait t)
  | .enter (.waitTimeout timeoutNs) => some (m.waitTimeout t timeoutNs)
  | .enter .close => some (m.close t)
  | .grantNext count left => some (m.grantNext t count left)
  | .wakeBatch count left [] =>
    some (if left = 0 then m.ret t (.signal count) (.ok ()) else m.goto t (.grantNext count left))
  | .wakeBatch count left (u :: us) => some ((m.goto t (.wakeBatch count left us)).wake u)
  | .timedPass timeoutNs queued => some (m.timedPass t timeoutNs queued expired)
  | .park w => some (m.park t w)
  | .resumed => some (m.resumed t)
  | .wakeClosed [] => some (m.ret t .close (.ok ()))
  | .wakeClosed (u :: us) => some ((m.goto t (.wakeClosed us)).wake u)

end SemSystem

/-- One step of the system. -/
inductive SemAction
  | call (t : Sched.TaskId) (call : SemCall)
  | advance (t : Sched.TaskId) (expired : Bool)
  /-- A timer, or any other wake. -/
  | wake (t : Sched.TaskId)

namespace SemSystem

/-- One step of the system. -/
def step (m : SemSystem) : SemAction → Option SemSystem
  | .call t call =>
    match m.tasks.place t with
    | .user _ => some (m.goto t (.enter call))
    | _ => none
  | .advance t expired => m.advance t expired
  | .wake t => some (m.wake t)

/-- A new semaphore. -/
def Init (m : SemSystem) : Prop :=
  ∃ initial maxCount pending, maxCount ≤ maxVal 64 ∧ m = create initial maxCount pending

end SemSystem

end SlateOS.Ipc
