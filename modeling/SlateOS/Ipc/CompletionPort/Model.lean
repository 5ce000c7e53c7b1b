/-
# SlateOS.Ipc.CompletionPort.Model -- waiting on several sources at once

`kernel/src/ipc/completion.rs` on one port: `register`, `unregister`, `notify`, `try_notify`, `wait`,
`try_wait` and `close`, with the loop of `wait_multiple` (`kernel/src/ipc/multiwait.rs`) that `wait` parks
in, cut at their sections under `CP_TABLE`, their polls of the sources, their wakes and their parks. What a
source is is left open: it is ready or not, and a change wakes the waiter set it has. Every posted event has
its number, and beside the port is kept what has been posted, what has been handed to a call in the order it
left the queue, what `unregister` and `close` discarded, and which tasks are in the loop of `wait`.
-/
import SlateOS.Ipc.WaiterSet
import SlateOS.Sched.WaitQueue

namespace SlateOS.Ipc

open Kernel Sched Foundation.MachineInt

/-- `MAX_REGISTRATIONS`. -/
def maxRegistrations : Nat := 256

/-- `MAX_EVENTS_PER_WAIT`. -/
def maxEventsPerWait : Nat := 64

/-- `WaitSource`; two sources are the same when their `key`s are, kind and handle. -/
inductive WaitSource
  | channel (h : Nat)
  | pipeRead (h : Nat)
  | pipeWrite (h : Nat)
  | eventFd (h : Nat)
  | processExit (pid : Nat)
  | timer (h : Nat)
  | semaphore (h : Nat)
  | ioCompletion (h : Nat)
  | listener (h : Nat)
  deriving DecidableEq

/-- `WaitTarget`, as far as a port uses it. -/
inductive WaitTarget
  | channel (h : Nat)
  | pipe (h : Nat)
  | eventFd (h : Nat)
  | listener (h : Nat)
  | pollOnly
  deriving DecidableEq

namespace WaitSource

/-- `wait_target`. -/
def waitTarget : WaitSource → Option WaitTarget
  | channel h => some (.channel h)
  | pipeRead h | pipeWrite h => some (.pipe h)
  | eventFd h => some (.eventFd h)
  | listener h => some (.listener h)
  | processExit _ | semaphore _ => some .pollOnly
  | timer _ | ioCompletion _ => none

end WaitSource

/-- `CompletionEvent`; a posted event has its number, a polled one none. -/
structure CompletionEvent where
  source : WaitSource
  userData : Nat
  number : Option Nat
  deriving DecidableEq

/-- `Registration`. -/
structure Registration where
  source : WaitSource
  userData : Nat
  deriving DecidableEq

/-- `CompletionPort`. -/
structure CompletionPort where
  registrations : List Registration
  eventQueue : List CompletionEvent
  waiter : Option Sched.TaskId
  closed : Bool
  generation : Nat

namespace CompletionPort

/-- `CompletionPort::new`. -/
def new : CompletionPort where
  registrations := []
  eventQueue := []
  waiter := none
  closed := false
  generation := 0

/-- The registration of a source. -/
def find (p : CompletionPort) (source : WaitSource) : Option Registration :=
  p.registrations.find? fun r => r.source = source

/-- The registrations changed. -/
def bump (p : CompletionPort) : CompletionPort := { p with generation := wrappingAdd 64 p.generation 1 }

/-- A registration is added at the end. -/
def add (p : CompletionPort) (r : Registration) : CompletionPort :=
  { p with registrations := p.registrations ++ [r] }.bump

/-- A failed registration is rolled back: the last one of the source goes. -/
def rollBack (p : CompletionPort) (source : WaitSource) : CompletionPort :=
  match p.registrations.reverse.findIdx? fun r => r.source = source with
  | none => p
  | some i => { p with registrations := (p.registrations.reverse.eraseIdx i).reverse }.bump

/-- `swap_remove`. -/
def swapRemove (rs : List Registration) (i : Nat) : List Registration :=
  match rs.getLast? with
  | none => rs
  | some last => (rs.set i last).dropLast

/-- The events queued for a source. -/
def eventsOf (p : CompletionPort) (source : WaitSource) : List CompletionEvent :=
  p.eventQueue.filter fun e => e.source = source

/-- `unregister` under the lock: the registration and the events queued for the source go. -/
def remove (p : CompletionPort) (i : Nat) (source : WaitSource) : CompletionPort :=
  { p with
    registrations := swapRemove p.registrations i
    eventQueue := p.eventQueue.filter fun e => e.source ≠ source
    waiter := none }.bump

/-- The events one call gets. -/
def batch (p : CompletionPort) : List CompletionEvent := p.eventQueue.take maxEventsPerWait

/-- The port without them. -/
def drain (p : CompletionPort) : CompletionPort :=
  { p with eventQueue := p.eventQueue.drop maxEventsPerWait }

end CompletionPort

/-- What `wait` remembers of the registrations. -/
structure Snapshot where
  regs : List Registration
  generation : Nat

/-- The waiter sets to join. -/
def Snapshot.targets (s : Snapshot) : List WaitTarget := s.regs.filterMap fun r => r.source.waitTarget

/-- The calls on a port. -/
inductive PortCall
  | register (source : WaitSource) (userData : Nat)
  | unregister (source : WaitSource)
  | notify (source : WaitSource)
  | tryNotify (source : WaitSource)
  | wait
  | tryWait
  | close
  deriving DecidableEq

/-- What a call returns. -/
inductive PortReturn
  | done (r : KernelResult Unit)
  | delivered (b : Bool)
  | events (r : KernelResult (List CompletionEvent))

/-- How `wait_multiple` ends: with what the last `Scan` found, or interrupted. -/
inductive ScanOutcome
  | events (evs : List CompletionEvent)
  | changed
  | closed
  | gone
  | interrupted

/-- Where a task is. -/
inductive PortPlace
  /-- In no call on the port; the last one and what it returned. -/
  | user (ret : Option (PortCall × PortReturn))
  /-- The first section of a call. -/
  | enter (call : PortCall)
  /-- `register`, between its sections. -/
  | wire (source : WaitSource) (userData : Nat)
  /-- The wake at the end of a call. -/
  | wake (call : PortCall) (r : PortReturn) (u : Sched.TaskId)
  /-- `try_wait`, polling. -/
  | pollOnce (rest : List Registration) (found : List CompletionEvent)
  /-- `wait_multiple`: joining the waiter sets. -/
  | join (snap : Snapshot)
  /-- `scan`, under the lock. -/
  | scan (snap : Snapshot)
  /-- `scan`, polling. -/
  | poll (snap : Snapshot) (rest : List Registration) (found : List CompletionEvent)
  | park (snap : Snapshot)
  | parked (snap : Snapshot)
  /-- After a park: leaving the waiter sets before joining them again. -/
  | again (snap : Snapshot)
  /-- Leaving the waiter sets for good. -/
  | leaveSets (snap : Snapshot) (outcome : ScanOutcome)
  /-- `wait` after `wait_multiple`. -/
  | leave (outcome : ScanOutcome)

namespace PortPlace

/-- Where a parked task goes on once it is woken. -/
def ready : PortPlace → Option PortPlace
  | parked snap => some (again snap)
  | _ => none

/-- The snapshot of a task in the loop of `wait_multiple` that has found nothing. -/
def waits : PortPlace → Option Snapshot
  | join snap | scan snap | poll snap _ _ | park snap | parked snap | again snap => some snap
  | _ => none

/-- The events a call holds on its way out. -/
def holds : PortPlace → Option (List CompletionEvent)
  | leaveSets _ (.events evs) | leave (.events evs) => some evs
  | _ => none

end PortPlace

/-- What a step finds outside the port: whether `CP_TABLE` and `SCHED` are taken (`try_notify` only), whether
a signal is pending, and how telling a ring its port went. -/
structure Chance where
  tableBusy : Bool
  schedBusy : Bool
  signal : Bool
  wired : KernelResult Unit

/-- A port while it is in the table, the sources, the tasks, and the history. -/
structure PortSystem where
  port : Option CompletionPort
  tasks : Tasks PortPlace
  sets : WaitTarget → WaiterSet
  sourceReady : WaitSource → Bool
  /-- Who holds `CP_WIRING`. -/
  wiring : Option Sched.TaskId
  posted : List CompletionEvent
  taken : List CompletionEvent
  dropped : List CompletionEvent
  /-- The tasks in the loop of `wait`. -/
  waiting : List Sched.TaskId

namespace PortSystem

/-- `create`, no task using the port yet. -/
def create (pending : Sched.TaskId → Bool) (sourceReady : WaitSource → Bool) : PortSystem where
  port := some .new
  tasks := ⟨fun _ => .user none, pending⟩
  sets := fun _ => []
  sourceReady := sourceReady
  wiring := none
  posted := []
  taken := []
  dropped := []
  waiting := []

/-- Task `t` goes on at `p`. -/
def goto (m : PortSystem) (t : Sched.TaskId) (p : PortPlace) : PortSystem :=
  { m with tasks := m.tasks.goto t p }

/-- The call of `t` returns, and lets go of `CP_WIRING`. -/
def ret (m : PortSystem) (t : Sched.TaskId) (call : PortCall) (r : PortReturn) : PortSystem :=
  { m with wiring := if m.wiring = some t then none else m.wiring }.goto t (.user (some (call, r)))

/-- The call of `t` wakes the task it took off the port, if any, and returns. -/
def finish (m : PortSystem) (t : Sched.TaskId) (call : PortCall) (r : PortReturn) : Option Sched.TaskId → PortSystem
  | none => m.ret t call r
  | some u => m.goto t (.wake call r u)

/-- `sched::wake`. -/
def wake (m : PortSystem) (t : Sched.TaskId) : PortSystem :=
  { m with tasks := (m.tasks.wake PortPlace.ready t).2 }

/-! ## Registering -/

/-- `register`'s first section. -/
def register (m : PortSystem) (t : Sched.TaskId) (source : WaitSource) (userData : Nat) : PortSystem :=
  let call := .register source userData
  match m.port with
  | none => m.ret t call (.done (.error .invalidHandle))
  | some p =>
    if p.closed then m.ret t call (.done (.error .channelClosed))
    else if (p.find source).isSome then m.ret t call (.done (.error .alreadyExists))
    else if maxRegistrations ≤ p.registrations.length then
      m.ret t call (.done (.error .invalidArgument))
    else { m with port := some (p.add ⟨source, userData⟩) }.goto t (.wire source userData)

/-- `register`'s last section; `wired` is how telling a ring its port went. -/
def registered (m : PortSystem) (t : Sched.TaskId) (source : WaitSource) (userData : Nat)
    (wired : KernelResult Unit) : PortSystem :=
  let call := .register source userData
  match source, wired with
  | .ioCompletion _, .error e =>
    { m with port := m.port.map fun p : CompletionPort => p.rollBack source }.ret t call
      (.done (.error e))
  | _, _ =>
    match m.port with
    | none => m.ret t call (.done (.ok ()))
    | some p =>
      { m with port := some { p with waiter := none } }.finish t call (.done (.ok ())) p.waiter

/-- `unregister`. -/
def unregister (m : PortSystem) (t : Sched.TaskId) (source : WaitSource) : PortSystem :=
  let call := .unregister source
  match m.port with
  | none => m.ret t call (.done (.error .invalidHandle))
  | some p =>
    match p.registrations.findIdx? fun r => r.source = source with
    | none => m.ret t call (.done (.error .notFound))
    | some i =>
      { m with
        port := some (p.remove i source)
        dropped := m.dropped ++ p.eventsOf source }.finish t call
          (.done (.ok ())) p.waiter

/-! ## Posting -/

/-- An event is queued. -/
def post (m : PortSystem) (p : CompletionPort) (r : Registration) : PortSystem :=
  let e : CompletionEvent := ⟨r.source, r.userData, some m.posted.length⟩
  { m with
    port := some { p with eventQueue := p.eventQueue ++ [e], waiter := none }
    posted := m.posted ++ [e] }

/-- `notify`. -/
def notify (m : PortSystem) (t : Sched.TaskId) (source : WaitSource) : PortSystem :=
  match m.port with
  | none => m.ret t (.notify source) (.done (.ok ()))
  | some p =>
    match p.find source with
    | none => m.ret t (.notify source) (.done (.ok ()))
    | some r => (m.post p r).finish t (.notify source) (.done (.ok ())) p.waiter

/-- `try_notify`: the wake comes before the event is queued, under the same lock. -/
def tryNotify (m : PortSystem) (t : Sched.TaskId) (source : WaitSource) (tableBusy schedBusy : Bool) :
    PortSystem :=
  let call := .tryNotify source
  if tableBusy then m.ret t call (.delivered false)
  else
    match m.port with
    | none => m.ret t call (.delivered true)
    | some p =>
      match p.find source with
      | none => m.ret t call (.delivered true)
      | some r =>
        match p.waiter with
        | none => (m.post p r).ret t call (.delivered true)
        | some u =>
          if schedBusy then m.ret t call (.delivered false)
          else ((m.post p r).ret t call (.delivered true)).wake u

/-- `close`. -/
def close (m : PortSystem) (t : Sched.TaskId) : PortSystem :=
  match m.port with
  | none => m.ret t .close (.done (.ok ()))
  | some p =>
    { m with port := none, dropped := m.dropped ++ p.eventQueue }.finish t .close (.done (.ok ()))
      p.waiter

/-! ## Waiting -/

/-- A call takes its batch off the queue. -/
def take (m : PortSystem) (p : CompletionPort) : PortSystem :=
  { m with port := some p.drain, taken := m.taken ++ p.batch }

/-- `try_wait`'s first section. -/
def tryWait (m : PortSystem) (t : Sched.TaskId) : PortSystem :=
  match m.port with
  | none => m.ret t .tryWait (.events (.error .invalidHandle))
  | some p =>
    if p.closed then m.ret t .tryWait (.events (.error .channelClosed))
    else if p.eventQueue ≠ [] then (m.take p).ret t .tryWait (.events (.ok p.batch))
    else m.goto t (.pollOnce p.registrations [])

/-- The event of a source that was found ready. -/
def polled (r : Registration) : CompletionEvent := ⟨r.source, r.userData, none⟩

/-- The next source of a poll, or `none` at its end. -/
def pollNext (m : PortSystem) (rest : List Registration) (found : List CompletionEvent) :
    Option (List Registration × List CompletionEvent) :=
  match rest with
  | [] => none
  | r :: rest =>
    if maxEventsPerWait ≤ found.length then none
    else some (rest, if m.sourceReady r.source then found ++ [polled r] else found)

/-- `try_wait`, polling. -/
def pollOnce (m : PortSystem) (t : Sched.TaskId) (rest : List Registration) (found : List CompletionEvent) :
    PortSystem :=
  match m.pollNext rest found with
  | some (rest, found) => m.goto t (.pollOnce rest found)
  | none =>
    if found = [] then m.ret t .tryWait (.events (.error .wouldBlock))
    else m.ret t .tryWait (.events (.ok found))

/-- The first section of a round of `wait`. -/
def wait (m : PortSystem) (t : Sched.TaskId) : PortSystem :=
  match m.port with
  | none => m.ret t .wait (.events (.error .invalidHandle))
  | some p =>
    if p.closed then m.ret t .wait (.events (.error .channelClosed))
    else if p.eventQueue ≠ [] then (m.take p).ret t .wait (.events (.ok p.batch))
    else
      { m with port := some { p with waiter := some t }, waiting := m.waiting ++ [t] }.goto t
        (.join ⟨p.registrations, p.generation⟩)

/-- `Registration::new`. -/
def join (m : PortSystem) (t : Sched.TaskId) (snap : Snapshot) : PortSystem :=
  { m with
    sets := fun target =>
      if target ∈ snap.targets ∧ target ≠ WaitTarget.pollOnly then (m.sets target).insert t
      else m.sets target }.goto t (.scan snap)

/-- `Registration::drop`. -/
def leaveSets (m : PortSystem) (t : Sched.TaskId) (snap : Snapshot) : PortSystem :=
  { m with
    sets := fun target => if target ∈ snap.targets then (m.sets target).remove t else m.sets target }

/-- `wait_multiple` ends. -/
def found (m : PortSystem) (t : Sched.TaskId) (snap : Snapshot) (outcome : ScanOutcome) : PortSystem :=
  { m with waiting := m.waiting.erase t }.goto t (.leaveSets snap outcome)

/-- `scan` under the lock. -/
def scan (m : PortSystem) (t : Sched.TaskId) (snap : Snapshot) : PortSystem :=
  match m.port with
  | none => m.found t snap .gone
  | some p =>
    if p.closed then m.found t snap .closed
    else if p.eventQueue ≠ [] then (m.take p).found t snap (.events p.batch)
    else if p.generation ≠ snap.generation then m.found t snap .changed
    else m.goto t (.poll snap snap.regs [])

/-- `scan`, polling, and what `wait_multiple` does when it finds nothing. -/
def poll (m : PortSystem) (t : Sched.TaskId) (snap : Snapshot) (rest : List Registration)
    (found : List CompletionEvent) (signal : Bool) : PortSystem :=
  match m.pollNext rest found with
  | some (rest, found) => m.goto t (.poll snap rest found)
  | none =>
    if found ≠ [] then m.found t snap (.events found)
    else if signal then m.found t snap .interrupted
    else m.goto t (.park snap)

/-- The park: a wake recorded before ends it at once. -/
def park (m : PortSystem) (t : Sched.TaskId) (snap : Snapshot) : PortSystem :=
  if m.tasks.pendingWake t then
    { m with tasks := (m.tasks.goto t (.again snap)).setPending t false }
  else m.goto t (.parked snap)

/-- The task is no longer the port's waiter. -/
def clearWaiter (m : PortSystem) (t : Sched.TaskId) : PortSystem :=
  { m with port := m.port.map fun p => if p.waiter = some t then { p with waiter := none } else p }

/-- The end of a round of `wait`. -/
def leave (m : PortSystem) (t : Sched.TaskId) (outcome : ScanOutcome) : PortSystem :=
  let m := m.clearWaiter t
  match outcome with
  | .events evs => m.ret t .wait (.events (.ok evs))
  | .changed => m.goto t (.enter .wait)
  | .closed => m.ret t .wait (.events (.error .channelClosed))
  | .gone => m.ret t .wait (.events (.error .invalidHandle))
  | .interrupted => m.ret t .wait (.events (.error .interrupted))

/-! ## The steps -/

/-- The first section of a call; `register` and `unregister` need `CP_WIRING`. -/
def enter (m : PortSystem) (t : Sched.TaskId) (chance : Chance) : PortCall → Option PortSystem
  | .register source userData =>
    if m.wiring = none then some ({ m with wiring := some t }.register t source userData) else none
  | .unregister source =>
    if m.wiring = none then some ({ m with wiring := some t }.unregister t source) else none
  | .notify source => some (m.notify t source)
  | .tryNotify source => some (m.tryNotify t source chance.tableBusy chance.schedBusy)
  | .wait => some (m.wait t)
  | .tryWait => some (m.tryWait t)
  | .close => some (m.close t)

/-- The next step of the call `t` is in; a parked task does not move by itself. -/
def advance (m : PortSystem) (t : Sched.TaskId) (chance : Chance) : Option PortSystem :=
  match m.tasks.place t with
  | .user _ | .parked _ => none
  | .enter call => m.enter t chance call
  | .wire source userData => some (m.registered t source userData chance.wired)
  | .wake call r u => some ((m.ret t call r).wake u)
  | .pollOnce rest found => some (m.pollOnce t rest found)
  | .join snap => some (m.join t snap)
  | .scan snap => some (m.scan t snap)
  | .poll snap rest found => some (m.poll t snap rest found chance.signal)
  | .park snap => some (m.park t snap)
  | .again snap => some ((m.leaveSets t snap).goto t (.join snap))
  | .leaveSets snap outcome => some ((m.leaveSets t snap).goto t (.leave outcome))
  | .leave outcome => some (m.leave t outcome)

end PortSystem

/-- One step of the system. -/
inductive PortAction
  | call (t : Sched.TaskId) (call : PortCall)
  | advance (t : Sched.TaskId) (chance : Chance)
  /-- A signal, a timer, or any other wake. -/
  | wake (t : Sched.TaskId)
  /-- A source becomes ready or stops being so, and wakes its waiter set. -/
  | source (source : WaitSource) (ready : Bool)

namespace PortSystem

/-- A source changes. -/
def change (m : PortSystem) (source : WaitSource) (ready : Bool) : PortSystem :=
  let set := source.waitTarget.elim [] m.sets
  set.foldl PortSystem.wake { m with sourceReady := Function.update m.sourceReady source ready }

/-- One step of the system. -/
def step (m : PortSystem) : PortAction → Option PortSystem
  | .call t call =>
    match m.tasks.place t with
    | .user _ => some (m.goto t (.enter call))
    | _ => none
  | .advance t chance => m.advance t chance
  | .wake t => some (m.wake t)
  | .source source ready => some (m.change source ready)

/-- A new port. -/
def Init (m : PortSystem) : Prop := ∃ pending sourceReady, m = create pending sourceReady

end PortSystem

end SlateOS.Ipc
