/-
# SlateOS.Ipc.EventFd.Model -- the eventfd counter

`kernel/src/ipc/eventfd.rs`: `write`, `read` and their non-blocking and timed forms, `dup` and `close` on one
eventfd, cut at their sections under `EVENTFD_TABLE`. A timed form has a fast path and then, with its timer
running, a loop. The final `close` removes the eventfd from the table. Beside it three numbers are kept: what it
was created with, and the sums of what accepted writes brought and of what reads returned.
-/
import SlateOS.Foundation.MachineInt
import SlateOS.Foundation.Runs
import SlateOS.Ipc.WaiterSet

namespace SlateOS.Ipc

open Foundation.MachineInt Foundation.Runs Kernel

/-- `EventFd`. -/
structure EventFd where
  counter : Nat
  readerWaiters : WaiterSet
  writerWaiters : WaiterSet
  closed : Bool
  semaphore : Bool
  refcount : Nat

namespace EventFd

/-- `MAX_COUNTER`. -/
def maxCounter : Nat := maxVal 64 - 1

/-- `EventFd::new`. -/
def new (initial : Nat) (semaphore : Bool) : EventFd where
  counter := min initial maxCounter
  readerWaiters := []
  writerWaiters := []
  closed := false
  semaphore := semaphore
  refcount := 1

/-! ## Sections -/

/-- How a section ends: the call returns, starts its timer and goes on with its loop, or parks. -/
inductive Next
  | ret (r : KernelResult Unit)
  | timer
  | park
  deriving DecidableEq

/-- What a section moved: nothing, the value of a write, or the value that a read returns. -/
inductive Moved
  | nothing
  | wrote (value : Nat)
  | took (value : Nat)

/-- A section: how it ends, the tasks it wakes, the eventfd after it, and what it moved. -/
structure Section where
  next : Next
  wakes : WaiterSet
  efd : EventFd
  moved : Moved

/-- What a section sees beside the eventfd: whether the deadline has passed, by the timer or by the clock, and
whether a deliverable signal is pending. -/
structure Env where
  expired : Bool
  signal : Bool

/-- The section gives up. -/
def refuse (e : EventFd) (err : KernelError) : Section := ⟨.ret (.error err), [], e, .nothing⟩

/-- The counter with the value added, where it does not overflow. -/
def added (e : EventFd) (value : Nat) : Option EventFd :=
  match checkedAdd 64 e.counter value with
  | some newVal => if newVal ≤ maxCounter then some { e with counter := newVal } else none
  | none => none

/-- The check and update of the writing side, `full` being what it does when the value does not fit. -/
def tryAdd (e : EventFd) (value : Nat) (full : Section) : Section :=
  if e.closed then e.refuse .channelClosed
  else
    match e.added value with
    | some e' => ⟨.ret (.ok ()), e'.readerWaiters, { e' with readerWaiters := [] }, .wrote value⟩
    | none => full

/-- What a read takes: one unit in semaphore mode, or all. -/
def unitOf (e : EventFd) : Nat := if e.semaphore then 1 else e.counter

/-- The check and update of the reading side, `empty` being what it does when the counter is 0. -/
def tryTake (e : EventFd) (empty : Section) : Section :=
  if 0 < e.counter then
    ⟨.ret (.ok ()), e.writerWaiters, { e with counter := e.counter - e.unitOf, writerWaiters := [] },
      .took e.unitOf⟩
  else if e.closed then e.refuse .channelClosed
  else empty

/-- The task is deregistered from the writers. -/
def leaveWriters (e : EventFd) (task : Nat) : EventFd :=
  { e with writerWaiters := WaiterSet.remove e.writerWaiters task }

/-- The task is deregistered from the readers. -/
def leaveReaders (e : EventFd) (task : Nat) : EventFd :=
  { e with readerWaiters := WaiterSet.remove e.readerWaiters task }

/-- The task registers as a writer and parks. -/
def parkWriter (e : EventFd) (task : Nat) : Section :=
  ⟨.park, [], { e with writerWaiters := WaiterSet.insert e.writerWaiters task }, .nothing⟩

/-- The task registers as a reader and parks. -/
def parkReader (e : EventFd) (task : Nat) : Section :=
  ⟨.park, [], { e with readerWaiters := WaiterSet.insert e.readerWaiters task }, .nothing⟩

/-- One pass of `write`. -/
def write (e : EventFd) (task value : Nat) (env : Env) : Section :=
  let e := e.leaveWriters task
  e.tryAdd value (if env.signal then e.refuse .interrupted else e.parkWriter task)

/-- `try_write`. -/
def tryWrite (e : EventFd) (value : Nat) : Section := e.tryAdd value (e.refuse .wouldBlock)

/-- The fast path of `write_timeout`. -/
def writeTimeoutFast (e : EventFd) (value timeout : Nat) : Section :=
  e.tryAdd value (if timeout = 0 then e.refuse .timedOut else ⟨.timer, [], e, .nothing⟩)

/-- One pass of the loop of `write_timeout`. -/
def writeTimeoutPass (e : EventFd) (task value : Nat) (env : Env) : Section :=
  let e := e.leaveWriters task
  e.tryAdd value
    (if env.expired then e.refuse .timedOut
    else if env.signal then e.refuse .interrupted
    else e.parkWriter task)

/-- One pass of `read`. -/
def read (e : EventFd) (task : Nat) (env : Env) : Section :=
  let e := e.leaveReaders task
  e.tryTake (if env.signal then e.refuse .interrupted else e.parkReader task)

/-- `try_read`. -/
def tryRead (e : EventFd) : Section := e.tryTake (e.refuse .wouldBlock)

/-- The fast path of `read_timeout`. -/
def readTimeoutFast (e : EventFd) (timeout : Nat) : Section :=
  e.tryTake (if timeout = 0 then e.refuse .timedOut else ⟨.timer, [], e, .nothing⟩)

/-- One pass of the loop of `read_timeout`. -/
def readTimeoutPass (e : EventFd) (task : Nat) (env : Env) : Section :=
  let e := e.leaveReaders task
  e.tryTake
    (if env.expired then e.refuse .timedOut
    else if env.signal then e.refuse .interrupted
    else e.parkReader task)

/-- `dup`. -/
def dup (e : EventFd) : KernelResult Unit × EventFd :=
  match checkedAdd 32 e.refcount 1 with
  | some refcount => (.ok (), { e with refcount := refcount })
  | none => (.error .invalidHandle, e)

/-- `close`: the tasks it wakes, and the eventfd unless this was its last reference. -/
def close (e : EventFd) : WaiterSet × Option EventFd :=
  if 0 < e.refcount - 1 then ([], some { e with refcount := e.refcount - 1 })
  else (e.readerWaiters ++ e.writerWaiters, none)

/-! ## Any number of tasks -/

/-- A call that may park; `timer` says whether the timer of a timed form runs. -/
inductive Call
  | write (value : Nat)
  | writeTimeout (value timeout : Nat) (timer : Bool)
  | read
  | readTimeout (timeout : Nat) (timer : Bool)
  deriving DecidableEq

/-- The section that a call comes to next. -/
def sectionOf (e : EventFd) (task : Nat) (env : Env) : Call → Section
  | .write value => e.write task value env
  | .writeTimeout value timeout timer =>
    if timer then e.writeTimeoutPass task value env else e.writeTimeoutFast value timeout
  | .read => e.read task env
  | .readTimeout timeout timer => if timer then e.readTimeoutPass task env else e.readTimeoutFast timeout

namespace Call

/-- A write of nothing returns at once. -/
def trivialWrite : Call → Bool
  | .write value => decide (value = 0)
  | .writeTimeout value _ _ => decide (value = 0)
  | _ => false

/-- The timer of the call runs. -/
def timed : Call → Call
  | .writeTimeout value timeout _ => .writeTimeout value timeout true
  | .readTimeout timeout _ => .readTimeout timeout true
  | c => c

/-- The value that a writing call adds. -/
def writes : Call → Option Nat
  | .write value => some value
  | .writeTimeout value _ _ => some value
  | _ => none

/-- A call begins without its timer. -/
def fresh : Call → Bool
  | .writeTimeout _ _ timer => !timer
  | .readTimeout _ timer => !timer
  | _ => true

end Call

/-- The eventfd until its final close, the calls under way and whether they are parked, the wakes on their way,
and the sums of the values that writes brought and reads returned. -/
structure System where
  efd : Option EventFd
  calls : Nat → Option (Call × Bool)
  waking : List Nat
  accepted : Nat
  returned : Nat

/-- A step. -/
inductive Act
  | call (task : Nat) (c : Call)
  | look (task : Nat) (env : Env)
  | wake (task : Nat)
  | rouse (task : Nat)
  | tryWrite (value : Nat)
  | tryRead
  | dup
  | close

namespace System

/-- The state with what a section moved. -/
def account (s : System) : Moved → System
  | .nothing => s
  | .wrote value => { s with accepted := s.accepted + value }
  | .took value => { s with returned := s.returned + value }

/-- The state after a section outside of the calls. -/
def after (s : System) (l : Section) : System :=
  { s with efd := some l.efd, waking := s.waking ++ l.wakes }.account l.moved

/-- A parked call passes again. -/
def roused (s : System) (task : Nat) : Nat → Option (Call × Bool) :=
  Function.update s.calls task ((s.calls task).map fun c => (c.1, false))

/-- What a call becomes after its section. -/
def resumed (c : Call) : Next → Option (Call × Bool)
  | .ret _ => none
  | .timer => some (c.timed, false)
  | .park => some (c, true)

/-- One step. -/
def step (s : System) : Act → Option System
  | .call task c =>
    if (s.calls task).isNone ∧ c.fresh = true then
      if c.trivialWrite then some s
      else some { s with calls := Function.update s.calls task (some (c, false)) }
    else none
  | .look task env =>
    match s.calls task with
    | some (c, false) =>
      match s.efd with
      | none => some { s with calls := Function.update s.calls task none }
      | some e =>
        let l := e.sectionOf task env c
        some { s.after l with calls := Function.update s.calls task (resumed c l.next) }
    | _ => none
  | .wake task =>
    if task ∈ s.waking then some { s with waking := s.waking.erase task, calls := s.roused task } else none
  | .rouse task =>
    match s.calls task with
    | some (_, true) => some { s with calls := s.roused task }
    | _ => none
  | .tryWrite value =>
    match s.efd with
    | none => some s
    | some e => if value = 0 then some s else some (s.after (e.tryWrite value))
  | .tryRead =>
    match s.efd with
    | none => some s
    | some e => some (s.after e.tryRead)
  | .dup => some { s with efd := s.efd.map fun e => e.dup.2 }
  | .close =>
    match s.efd with
    | none => some s
    | some e => some { s with efd := e.close.2, waking := s.waking ++ e.close.1 }

/-- An eventfd from `create_with_flags`, no call made yet. -/
def Start (initial : Nat) (semaphore : Bool) (s : System) : Prop :=
  s.efd = some (.new initial semaphore) ∧ (∀ task, s.calls task = none) ∧ s.waking = [] ∧ s.accepted = 0 ∧
    s.returned = 0

/-! ## The law -/

/-- The task is registered and what its call waits for is yet to come. -/
def Waits (e : EventFd) (task : Nat) (c : Call) : Prop :=
  match c.writes with
  | some value => task ∈ e.writerWaiters ∧ maxCounter < e.counter + value
  | none => task ∈ e.readerWaiters ∧ e.counter = 0

/-- What the eventfd promises in a state. -/
structure Sound (initial : Nat) (s : System) : Prop where
  conserved : ∀ e, s.efd = some e → min initial maxCounter + s.accepted = e.counter + s.returned
  bounded : ∀ e, s.efd = some e → e.counter ≤ maxCounter
  /-- A task without a call is in no waiter set. -/
  registered : ∀ e task, s.efd = some e → s.calls task = none → task ∉ e.readerWaiters ∧ task ∉ e.writerWaiters
  /-- A parked task waits for what is yet to come, or a wake is pending for it. -/
  parked : ∀ task c, s.calls task = some (c, true) → task ∈ s.waking ∨ ∃ e, s.efd = some e ∧ Waits e task c

/-- Nothing of the eventfd changed but for the registration of a task. -/
structure Untouched (task : Nat) (s s' : System) : Prop where
  accepted : s'.accepted = s.accepted
  returned : s'.returned = s.returned
  waking : s'.waking = s.waking
  efd : ∀ e, s.efd = some e → s'.efd = some (e.leaveReaders task) ∨ s'.efd = some (e.leaveWriters task) ∨
    s'.efd = some e
  others : ∀ t, t ≠ task → s'.calls t = s.calls t

/-- An operation that is refused, times out or is interrupted changes nothing. -/
def RefusedKept (s s' : System) : Act → Prop
  | .look task env => ∀ c e err, s.calls task = some (c, false) → s.efd = some e →
      (e.sectionOf task env c).next = .ret (.error err) → Untouched task s s'
  | .tryWrite value => ∀ e err, s.efd = some e → (e.tryWrite value).next = .ret (.error err) → s' = s
  | .tryRead => ∀ e err, s.efd = some e → e.tryRead.next = .ret (.error err) → s' = s
  | _ => True

end System

end EventFd

end SlateOS.Ipc
