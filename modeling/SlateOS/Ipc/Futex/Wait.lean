/-
# SlateOS.Ipc.Futex.Wait -- futex waits, wakes and requeues

The plain part of `kernel/src/ipc/futex.rs`: single-key waits (with a bitset, a timeout, signals),
`futex_wait_multiple`, `futex_wake_bitset` and `requeue_inner`. The table is one list of waiters in the
order they queued; an entry is found by its key, so the buckets make no difference. One step is one
section under the table lock or under `MULTI_WOKEN`'s, one wake, or a park. `taken` lists, for the wait a
task is in or has last returned from, the entries wakes have taken off a queue and counted.
-/
import Mathlib.Logic.Function.Basic
import Mathlib.Data.List.Count
import SlateOS.Kernel.Error

namespace SlateOS.Ipc.FutexWait

open Function (update update_self update_of_ne)

/-- Kernel task id. -/
abbrev TaskId := Nat

/-- `FUTEX_BITSET_MATCH_ANY`. -/
def bitsetMatchAny : BitVec 32 := BitVec.allOnes 32

/-- `Waiter`. -/
structure Waiter where
  key : Nat
  taskId : TaskId
  bitset : BitVec 32
  multiIndex : Option Nat
  deriving DecidableEq

/-- A wait and its arguments; `userProc` is whether the task is of a user process, which signals reach. -/
inductive WaitCall
  /-- `futex_wait_bitset`, `futex_wait_bitset_timeout`. -/
  | single (key : Nat) (bitset : BitVec 32) (timeoutNs : Option Nat) (userProc : Bool)
  /-- `futex_wait_multiple`. -/
  | multi (uaddrs : List Nat) (timeoutNs : Option Nat) (userProc : Bool)
  deriving DecidableEq

namespace WaitCall

def isMulti : WaitCall → Bool
  | .single .. => false
  | .multi .. => true

def timed : WaitCall → Bool
  | .single _ _ timeoutNs _ | .multi _ timeoutNs _ => timeoutNs.isSome

def userProc : WaitCall → Bool
  | .single _ _ _ userProc | .multi _ _ userProc => userProc

/-- The entries the call queues; a multi-key wait finds its keys anew on every pass. -/
def entries (keyIn : Nat → Nat) (t : TaskId) : WaitCall → List Waiter
  | .single key bitset _ _ => [⟨key, t, bitset, none⟩]
  | .multi uaddrs _ _ =>
    uaddrs.zipIdx.map fun (uaddr, i) => ⟨keyIn uaddr, t, bitsetMatchAny, some i⟩

/-- How many entries those are. -/
def size : WaitCall → Nat
  | .single .. => 1
  | .multi uaddrs _ _ => uaddrs.length

end WaitCall

/-- What a wait returns: `WaitvOutcome`, with no index for a single-key wait. A word that cannot be read
is a mismatch. -/
inductive WaitOutcome
  | woken (index : Option Nat)
  | mismatch
  | timedOut
  | interrupted
  deriving DecidableEq

/-- Where a task is. -/
inductive WaitPlace
  /-- In no futex call; the last wait and what it returned, if the last call was one. -/
  | user (ret : Option (WaitCall × WaitOutcome))
  /-- The section that compares the words and queues. -/
  | setup (c : WaitCall)
  /-- Queued: the deadline, and signals that are pending already. -/
  | arm (c : WaitCall)
  /-- `block_current_on`. -/
  | park (c : WaitCall)
  | parked (c : WaitCall)
  /-- Out of the park: a multi-key wait reads and clears its index. -/
  | resumed (c : WaitCall)
  /-- The section that takes the task's entries out; `forced` is an outcome decided before the park. -/
  | evict (c : WaitCall) (woken : Option Nat) (forced : Option WaitOutcome)
  /-- A multi-key wait that did not park clears its index. -/
  | clear (c : WaitCall) (o : WaitOutcome)
  /-- A wake that has its waiters: their indices are recorded. -/
  | record (rest : List (TaskId × Option Nat)) (toWake : List TaskId)
  /-- And the tasks woken. -/
  | wake (toWake : List TaskId)
  deriving DecidableEq

/-- What a step reads outside the table: the keys of the words, the words against the expected values,
the clock, signals. -/
structure WaitEnv where
  keyIn : Nat → Nat
  equal : Bool
  late : Bool
  signal : Bool

/-- `FUTEX_TABLE`, `MULTI_WOKEN`, and the tasks. -/
structure FutexTable where
  queue : List Waiter
  multiWoken : TaskId → Option Nat
  place : TaskId → WaitPlace
  pendingWake : TaskId → Bool
  taken : TaskId → List (Option Nat)

/-- The removal loop of a wake: up to `limit` matching waiters, and the others. -/
def takeWaiters (p : Waiter → Bool) : Nat → List Waiter → List Waiter × List Waiter
  | _, [] => ([], [])
  | limit, w :: ws =>
    match limit with
    | 0 => ([], w :: ws)
    | n + 1 =>
      if p w then (w :: (takeWaiters p n ws).1, (takeWaiters p n ws).2)
      else ((takeWaiters p (n + 1) ws).1, w :: (takeWaiters p (n + 1) ws).2)

/-- The second phase of a requeue: the next waiter of `key1` goes to the end under `key2`. -/
def requeueLoop (key1 key2 : Nat) : Nat → List Waiter → List Waiter
  | 0, q => q
  | n + 1, q =>
    match q.find? fun w => w.key = key1 with
    | none => q
    | some w => requeueLoop key1 key2 n ((q.eraseP fun w => w.key = key1) ++ [{ w with key := key2 }])

/-- `remove_self_waiter`: the first entry of the task. -/
def removeSelfWaiter (q : List Waiter) (t : TaskId) : List Waiter := q.eraseP fun w => w.taskId = t

/-- `remove_all_self_waiters`. -/
def removeAllSelfWaiters (q : List Waiter) (t : TaskId) : List Waiter :=
  q.filter fun w => w.taskId ≠ t

namespace FutexTable

/-- Task `t` goes on at `p`. -/
def goto (m : FutexTable) (t : TaskId) (p : WaitPlace) : FutexTable :=
  { m with place := update m.place t p }

/-- The wait of `t` returns. -/
def ret (m : FutexTable) (t : TaskId) (c : WaitCall) (o : WaitOutcome) : FutexTable :=
  m.goto t (.user (some (c, o)))

/-- The task is queued, under any key. -/
def stillQueued (m : FutexTable) (t : TaskId) : Bool := m.queue.any fun w => w.taskId = t

/-- The section that compares the words and queues. -/
def setup (m : FutexTable) (t : TaskId) (c : WaitCall) (env : WaitEnv) : FutexTable :=
  if !env.equal then m.ret t c .mismatch
  else match c with
  | .single _ _ (some 0) _ => m.ret t c .timedOut
  | _ => { m with queue := m.queue ++ c.entries env.keyIn t }.goto t (.arm c)

/-- A wait starts, counted by no wake yet. -/
def wait (m : FutexTable) (t : TaskId) (c : WaitCall) : FutexTable :=
  { m with taken := update m.taken t [] }.goto t (.setup c)

/-- Before the park: a multi-key wait whose deadline has passed, and a signal that is pending. -/
def arm (m : FutexTable) (t : TaskId) (c : WaitCall) (env : WaitEnv) : FutexTable :=
  if c.isMulti && c.timed && env.late then m.goto t (.evict c none (some .timedOut))
  else if c.userProc && env.signal then m.goto t (.evict c none (some .interrupted))
  else m.goto t (.park c)

/-- `block_current_on`: a wake that came before ends the park at once. -/
def park (m : FutexTable) (t : TaskId) (c : WaitCall) : FutexTable :=
  if m.pendingWake t then
    { m with pendingWake := update m.pendingWake t false }.goto t (.resumed c)
  else m.goto t (.parked c)

/-- Out of the park. A kernel task's untimed wait parks again while it is queued. -/
def resumed (m : FutexTable) (t : TaskId) (c : WaitCall) : FutexTable :=
  match c with
  | .multi .. =>
    { m with multiWoken := update m.multiWoken t none }.goto t
      (.evict c (m.multiWoken t) none)
  | .single _ _ none false =>
    if m.stillQueued t then m.goto t (.park c) else m.ret t c (.woken none)
  | .single .. => m.goto t (.evict c none none)

/-- The task's entries go, and why it woke is decided. -/
def evict (m : FutexTable) (t : TaskId) (c : WaitCall) (woken : Option Nat)
    (forced : Option WaitOutcome) (env : WaitEnv) : FutexTable :=
  match c with
  | .single .. =>
    let m' := { m with queue := removeSelfWaiter m.queue t }
    if !m.stillQueued t then m'.ret t c (.woken none)
    else match forced with
    | some o => m'.ret t c o
    | none =>
      if c.userProc && env.signal then m'.ret t c .interrupted
      else if c.timed && env.late then m'.ret t c .timedOut
      else m'.ret t c (.woken none)
  | .multi .. =>
    let m' := { m with queue := removeAllSelfWaiters m.queue t }
    match forced with
    | some o => m'.goto t (.clear c o)
    | none =>
      match woken with
      | some i => m'.ret t c (.woken (some i))
      | none =>
        if c.userProc && env.signal then m'.ret t c .interrupted
        else if c.timed && env.late then m'.ret t c .timedOut
        else m'.goto t (.setup c)

/-- `sched::wake`: a task not parked yet finds the wake at its next park. -/
def wakeTask (m : FutexTable) (t : TaskId) : FutexTable :=
  match m.place t with
  | .parked c => m.goto t (.resumed c)
  | _ => { m with pendingWake := update m.pendingWake t true }

/-- Entries are taken off the queue and counted. -/
def count (m : FutexTable) (ws : List Waiter) : FutexTable :=
  { m with taken := fun t =>
      m.taken t ++ (ws.filter fun w => w.taskId = t).map Waiter.multiIndex }

/-- The waiters a wake may take. -/
def matchesWake (key : Nat) (bitset : BitVec 32) (w : Waiter) : Bool :=
  decide (w.key = key) && decide (w.bitset &&& bitset ≠ 0)

/-- `futex_wake_bitset` of an address that is not null, up to the end of its table section; `room`
reservations succeed. -/
def wakeBitset (m : FutexTable) (u : TaskId) (key maxWake : Nat) (bitset : BitVec 32) (room : Nat) :
    FutexTable :=
  if maxWake = 0 ∨ bitset = 0 then m.goto u (.user none)
  else
    let r := takeWaiters (matchesWake key bitset) (min maxWake room) m.queue
    ({ m with queue := r.2 }.count r.1).goto u
      (.record (r.1.map fun w : Waiter => (w.taskId, w.multiIndex)) (r.1.map Waiter.taskId))

/-- `requeue_inner` up to the end of its table section, `key2` the key of an address that is not null;
`equal` answers the compare, if there is one. -/
def requeue (m : FutexTable) (u : TaskId) (key1 : Nat) (key2 : Option Nat) (maxWake maxRequeue : Nat)
    (room : Nat) (equal : Bool) : FutexTable :=
  if !equal then m.goto u (.user none)
  else
    let r := takeWaiters (fun w => decide (w.key = key1)) (min maxWake room) m.queue
    let queue := match key2 with
      | some key2 => requeueLoop key1 key2 maxRequeue r.2
      | none => r.2
    ({ m with queue := queue }.count r.1).goto u (.wake (r.1.map Waiter.taskId))

/-- `MULTI_WOKEN.entry(task).or_insert(index)`. -/
def recordIndex (m : FutexTable) (t : TaskId) (i : Nat) : FutexTable :=
  { m with multiWoken := update m.multiWoken t ((m.multiWoken t).or (some i)) }

/-- The next step of the call `t` is in; a parked task does not move by itself. -/
def advance (m : FutexTable) (t : TaskId) (env : WaitEnv) : Option FutexTable :=
  match m.place t with
  | .user _ | .parked _ => none
  | .setup c => some (m.setup t c env)
  | .arm c => some (m.arm t c env)
  | .park c => some (m.park t c)
  | .resumed c => some (m.resumed t c)
  | .evict c woken forced => some (m.evict t c woken forced env)
  | .clear c o => some ({ m with multiWoken := update m.multiWoken t none }.ret t c o)
  | .record [] toWake => some (m.goto t (.wake toWake))
  | .record ((_, none) :: rest) toWake => some (m.goto t (.record rest toWake))
  | .record ((x, some i) :: rest) toWake => some ((m.recordIndex x i).goto t (.record rest toWake))
  | .wake [] => some (m.goto t (.user none))
  | .wake (x :: rest) => some ((m.goto t (.wake rest)).wakeTask x)

end FutexTable

/-- One step of the system. -/
inductive FutexAction
  | wait (t : TaskId) (c : WaitCall)
  | wakeBitset (u : TaskId) (key maxWake : Nat) (bitset : BitVec 32) (room : Nat)
  | requeue (u : TaskId) (key1 : Nat) (key2 : Option Nat) (maxWake maxRequeue room : Nat) (equal : Bool)
  /-- A timer, a signal or any other wake of `t`. -/
  | unpark (t : TaskId)
  | advance (t : TaskId) (env : WaitEnv)

namespace FutexTable

/-- A call starts where the task is in no other. -/
def fromUser (m : FutexTable) (t : TaskId) (m' : FutexTable) : Option FutexTable :=
  match m.place t with
  | .user _ => some m'
  | _ => none

/-- One step of the system. -/
def step (m : FutexTable) : FutexAction → Option FutexTable
  | .wait t c => m.fromUser t (m.wait t c)
  | .wakeBitset u key maxWake bitset room => m.fromUser u (m.wakeBitset u key maxWake bitset room)
  | .requeue u key1 key2 maxWake maxRequeue room equal =>
    m.fromUser u (m.requeue u key1 key2 maxWake maxRequeue room equal)
  | .unpark t => some (m.wakeTask t)
  | .advance t env => m.advance t env

/-- Nobody waits. -/
structure Init (m : FutexTable) : Prop where
  queue : m.queue = []
  user : ∀ t, m.place t = .user none

variable {m : FutexTable} {t u : TaskId} {p : WaitPlace}

@[simp] theorem goto_place_self : (m.goto t p).place t = p := update_self ..

theorem goto_place_of_ne (h : u ≠ t) : (m.goto t p).place u = m.place u :=
  update_of_ne h ..

end FutexTable

end SlateOS.Ipc.FutexWait
