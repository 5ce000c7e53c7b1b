/-
# SlateOS.Ipc.Futex.Pi -- one priority-inheritance futex word and its waiters

The PI part of `kernel/src/ipc/futex.rs` for one word: `lock_pi_inner`, `futex_trylock_pi`,
`futex_unlock_pi` and the two userspace fast paths. The word is in user memory, the owner records and the
waiter queue in the kernel's table; a thread changes them in separate steps. One step here is one access to
the word or one section under the table lock, and `place` says which comes next. `owns` is who has the
lock: from the step that gives it (a fast path or a claim that took the word, or a park that found the
record) to the fast unlock, or the section of `futex_unlock_pi` that gives it away.
-/
import Mathlib.Logic.Function.Basic
import Mathlib.Data.Nat.Notation
import SlateOS.Kernel.Error

namespace SlateOS.Ipc.Futex

open Kernel

/-- `FUTEX_TID_MASK`. -/
def futexTidMask : Nat := 0x3FFFFFFF

/-- A task id. "Task IDs must stay within 30 bits" for the word to name its owner, and 0 is nobody. -/
abbrev TaskId := {id : Nat // 0 < id ∧ id ≤ futexTidMask}

instance : LawfulBEq TaskId := inferInstance

/-- `NUM_PRIORITIES`. -/
def numPriorities : Nat := 32

/-- The three fields of the futex word. -/
structure PiWord where
  tid : Option TaskId
  ownerDied : Bool
  waiters : Bool
  deriving DecidableEq

namespace PiWord

/-- The word 0. -/
def zero : PiWord := ⟨none, false, false⟩

/-- The word a fast path stores: the caller's id and no bit. -/
def held (t : TaskId) : PiWord := ⟨some t, false, false⟩

/-- The word with `FUTEX_WAITERS`. -/
def setWaiters (w : PiWord) : PiWord := { w with waiters := true }

/-- The word without `FUTEX_WAITERS`. -/
def clearWaiters (w : PiWord) : PiWord := { w with waiters := false }

end PiWord

/-- `ownerless_claim_value`: the recovery bits are carried over. -/
def ownerlessClaimValue (word : PiWord) (currentTid : TaskId) : Option PiWord :=
  match word.tid with
  | some _ => none
  | none => some ⟨some currentTid, word.ownerDied, word.waiters⟩

/-- `PiWaiter`. -/
structure PiWaiter where
  taskId : TaskId
  priority : Fin numPriorities
  deriving DecidableEq

/-- `PiHolder`. -/
inductive PiHolder
  | recordable | elsewhere | gone | kernel
  deriving DecidableEq, Repr

/-- The arguments of `lock_pi_inner`, and the priority read at its start. -/
structure LockArgs where
  timeoutNs : Option Nat
  priority : Fin numPriorities
  deriving DecidableEq

/-- A call that claims the word. -/
inductive PiCall
  | lock (args : LockArgs)
  | tryLock
  deriving DecidableEq

/-- Where a thread is. The places after `user` are one kernel step each. -/
inductive PiPlace
  /-- In userspace; the last kernel call returned `ret`. -/
  | user (ret : KernelResult Unit)
  /-- `try_acquire_ownerless`: the load. -/
  | claim (call : PiCall)
  /-- `try_acquire_ownerless`: the compare-and-swap on `word`. -/
  | claimCas (call : PiCall) (word : PiWord)
  /-- The word is taken: `register_pi_owner`. -/
  | register
  /-- The word was not ownerless: the load that names the owner. -/
  | read (call : PiCall)
  /-- `pi_holder_standing` of the task `word` names. -/
  | standing (args : LockArgs) (word : PiWord) (owner : TaskId)
  /-- The owner is gone: is the word still the same? -/
  | goneReload (args : LockArgs) (word : PiWord)
  /-- The section that queues the caller. -/
  | queue (args : LockArgs) (word : PiWord) (owner : TaskId) (recordable : Bool)
  /-- The compare-and-swap that sets `FUTEX_WAITERS`. -/
  | publish (args : LockArgs) (word : PiWord) (owner : TaskId) (recorded : Bool)
  /-- The section that takes the caller out again. -/
  | withdraw (args : LockArgs) (owner : TaskId) (recorded : Bool)
  /-- Parked; the step is a wake and the section after it. -/
  | parked (args : LockArgs)
  /-- `futex_unlock_pi`: the load. -/
  | unlockRead
  /-- `futex_unlock_pi`: the section that chooses the next owner. -/
  | unlockTable
  /-- `futex_unlock_pi`: the store. -/
  | unlockStore (waiterToWake : Option TaskId) (hasMoreWaiters : Bool)

/-- What a step reads outside the word and the table. -/
structure PiEnv where
  standing : PiHolder
  late : Bool
  signal : Bool

/-- One futex word, its entries in `PI_FUTEX_TABLE`, and the threads that use it. -/
structure PiFutex where
  word : PiWord
  owners : List TaskId
  waiters : List PiWaiter
  place : TaskId → PiPlace
  owns : TaskId → Bool

/-- The scan of `futex_unlock_pi` for the highest-priority waiter: position and priority of the best. -/
def scanWaiters : List PiWaiter → Nat → Option Nat × Nat → Option Nat × Nat
  | [], _, best => best
  | w :: ws, i, best =>
    scanWaiters ws (i + 1) (if w.priority.val < best.2 then (some i, w.priority.val) else best)

/-- `best_idx`. -/
def bestIdx (waiters : List PiWaiter) : Option Nat := (scanWaiters waiters 0 (none, 255)).1

/-- `chosen`: the waiter `futex_unlock_pi` removes. -/
def chosenWaiter (waiters : List PiWaiter) : Option PiWaiter :=
  (bestIdx waiters).bind fun i => waiters[i]?

/-- The queue without the chosen waiter. -/
def remainingWaiters (waiters : List PiWaiter) : List PiWaiter :=
  match bestIdx waiters with
  | some i => waiters.eraseIdx i
  | none => waiters

/-- Remove the first entry of `t`, as every withdrawal from the queue does. -/
def removeWaiter (waiters : List PiWaiter) (t : TaskId) : List PiWaiter :=
  waiters.eraseP fun w => w.taskId = t

/-- `unregister_pi_owner`. -/
def unregisterPiOwner (owners : List TaskId) (t : TaskId) : List TaskId :=
  owners.filter fun o => o ≠ t

namespace PiFutex

/-- Thread `t` goes on at `p`. -/
def goto (m : PiFutex) (t : TaskId) (p : PiPlace) : PiFutex :=
  { m with place := Function.update m.place t p }

/-- The call of `t` returns `ret`. -/
def ret (m : PiFutex) (t : TaskId) (r : KernelResult Unit) : PiFutex := m.goto t (.user r)

/-- `t` has the lock from here on. -/
def own (m : PiFutex) (t : TaskId) : PiFutex := { m with owns := Function.update m.owns t true }

/-- `t` has the lock no longer. -/
def disown (m : PiFutex) (t : TaskId) : PiFutex := { m with owns := Function.update m.owns t false }

/-- The userspace lock: compare-and-swap 0 to the own id. -/
def fastLock (m : PiFutex) (t : TaskId) : PiFutex :=
  if m.word = .zero then { m with word := .held t }.own t else m

/-- The userspace unlock: compare-and-swap the own id to 0. -/
def fastUnlock (m : PiFutex) (t : TaskId) : PiFutex :=
  if m.word = .held t then { m with word := .zero }.disown t else m

/-- The first half of `acquire_ownerless_with`. -/
def claim (m : PiFutex) (t : TaskId) (call : PiCall) : PiFutex :=
  match ownerlessClaimValue m.word t with
  | none => m.goto t (.read call)
  | some _ => m.goto t (.claimCas call m.word)

/-- The second half: a word that moved on is read again. -/
def claimCas (m : PiFutex) (t : TaskId) (call : PiCall) (word : PiWord) : PiFutex :=
  match ownerlessClaimValue word t with
  | none => m.goto t (.claim call)
  | some new =>
    if m.word = word then ({ m with word := new }.own t).goto t .register
    else m.goto t (.claim call)

/-- `register_pi_owner`, and the call returns. -/
def register (m : PiFutex) (t : TaskId) : PiFutex :=
  { m with owners := m.owners ++ [t] }.ret t (.ok ())

/-- The load that names the owner. -/
def read (m : PiFutex) (t : TaskId) : PiCall → PiFutex
  | .lock args =>
    match m.word.tid with
    | none => m.goto t (.claim (.lock args))
    | some o =>
      if o = t then m.ret t (.error .deadlock)
      else m.goto t (.standing args m.word o)
  | .tryLock =>
    if m.word.tid = some t then m.ret t (.error .deadlock)
    else m.ret t (.error .wouldBlock)

/-- What the owner's standing decides. -/
def standing (m : PiFutex) (t : TaskId) (args : LockArgs) (word : PiWord) (owner : TaskId)
    (s : PiHolder) : PiFutex :=
  match s with
  | .gone => m.goto t (.goneReload args word)
  | .kernel => m.ret t (.error .notPermitted)
  | .recordable | .elsewhere =>
    -- a zero timeout means "try once"
    if args.timeoutNs = some 0 then m.ret t (.error .timedOut)
    else m.goto t (.queue args word owner (s = .recordable))

/-- A word that changed since it was read is tried again. -/
def goneReload (m : PiFutex) (t : TaskId) (args : LockArgs) (word : PiWord) : PiFutex :=
  if m.word ≠ word then m.goto t (.claim (.lock args)) else m.ret t (.error .noSuchProcess)

/-- The owner is recorded by this queueing: the kernel has none for the word. -/
def records (m : PiFutex) (recordable : Bool) : Bool := m.owners.isEmpty && recordable

/-- Queue, and record the holder if the kernel has none. -/
def queue (m : PiFutex) (t : TaskId) (args : LockArgs) (word : PiWord) (owner : TaskId)
    (recordable : Bool) : PiFutex :=
  { m with
    owners := if m.records recordable then m.owners ++ [owner] else m.owners
    waiters := m.waiters ++ [PiWaiter.mk t args.priority] }.goto t
      (.publish args word owner (m.records recordable))

/-- `FUTEX_WAITERS` on the word as read; set already is as good. -/
def publish (m : PiFutex) (t : TaskId) (args : LockArgs) (word : PiWord) (owner : TaskId)
    (recorded : Bool) : PiFutex :=
  if m.word = word then { m with word := word.setWaiters }.goto t (.parked args)
  else if m.word = word.setWaiters then m.goto t (.parked args)
  else m.goto t (.withdraw args owner recorded)

/-- Out of the queue, this pass's record withdrawn, and round again. -/
def withdraw (m : PiFutex) (t : TaskId) (args : LockArgs) (owner : TaskId) (recorded : Bool) :
    PiFutex :=
  { m with
    owners := if recorded then unregisterPiOwner m.owners owner else m.owners
    waiters := removeWaiter m.waiters t }.goto t (.claim (.lock args))

/-- The caller leaves the queue, and the last one clears `FUTEX_WAITERS` if no owner is recorded. -/
def giveUp (m : PiFutex) (t : TaskId) : PiFutex :=
  let waiters := removeWaiter m.waiters t
  { m with
    waiters := waiters
    word := if waiters.isEmpty && m.owners.isEmpty then m.word.clearWaiters else m.word }

/-- The section after a wake: handed the word, expired, interrupted, or parked again. -/
def wake (m : PiFutex) (t : TaskId) (args : LockArgs) (late signal : Bool) : PiFutex :=
  if t ∈ m.owners then (m.own t).ret t (.ok ())
  else
    let expired := args.timeoutNs.isSome && late
    if !expired && !signal then m
    else (m.giveUp t).ret t (.error (if expired then .timedOut else .interrupted))

/-- `futex_unlock_pi` verifies that the caller is the owner. -/
def unlockRead (m : PiFutex) (t : TaskId) : PiFutex :=
  if m.word.tid = some t then m.goto t .unlockTable else m.ret t (.error .invalidArgument)

/-- The record is removed and the next owner dequeued and registered. -/
def unlockTable (m : PiFutex) (t : TaskId) : PiFutex :=
  let waiters := remainingWaiters m.waiters
  let waiterToWake := (chosenWaiter m.waiters).map PiWaiter.taskId
  ({ m with
    owners := unregisterPiOwner m.owners t ++ waiterToWake.toList
    waiters := waiters }.disown t).goto t (.unlockStore waiterToWake !waiters.isEmpty)

/-- Transfer ownership or clear the futex word. -/
def unlockStore (m : PiFutex) (t : TaskId) (waiterToWake : Option TaskId) (hasMoreWaiters : Bool) :
    PiFutex :=
  let word : PiWord := match waiterToWake with
    | some new => ⟨some new, false, hasMoreWaiters⟩
    | none => .zero
  { m with word := word }.ret t (.ok ())

end PiFutex

/-- One step of the system. -/
inductive PiAction
  | fastLock (t : TaskId)
  | fastUnlock (t : TaskId)
  | call (t : TaskId) (call : PiCall)
  | unlock (t : TaskId)
  /-- The next step of the kernel call `t` is in. -/
  | advance (t : TaskId) (env : PiEnv)

namespace PiFutex

/-- The next step of the kernel call `t` is in. -/
def advance (m : PiFutex) (t : TaskId) (env : PiEnv) : Option PiFutex :=
  match m.place t with
  | .user _ => none
  | .claim call => some (m.claim t call)
  | .claimCas call word => some (m.claimCas t call word)
  | .register => some (m.register t)
  | .read call => some (m.read t call)
  | .standing args word owner => some (m.standing t args word owner env.standing)
  | .goneReload args word => some (m.goneReload t args word)
  | .queue args word owner recordable => some (m.queue t args word owner recordable)
  | .publish args word owner recorded => some (m.publish t args word owner recorded)
  | .withdraw args owner recorded => some (m.withdraw t args owner recorded)
  | .parked args => some (m.wake t args env.late env.signal)
  | .unlockRead => some (m.unlockRead t)
  | .unlockTable => some (m.unlockTable t)
  | .unlockStore waiterToWake more => some (m.unlockStore t waiterToWake more)

/-- A step from userspace is enabled there. -/
def fromUser (m : PiFutex) (t : TaskId) (m' : PiFutex) : Option PiFutex :=
  match m.place t with
  | .user _ => some m'
  | _ => none

/-- One step of the system. -/
def step (m : PiFutex) : PiAction → Option PiFutex
  | .fastLock t => m.fromUser t (m.fastLock t)
  | .fastUnlock t => m.fromUser t (m.fastUnlock t)
  | .call t call => m.fromUser t (m.goto t (.claim call))
  | .unlock t => m.fromUser t (m.goto t .unlockRead)
  | .advance t env => m.advance t env

/-- An ownerless word that the kernel knows nothing of, and all threads in userspace. -/
structure Init (m : PiFutex) : Prop where
  ownerless : m.word.tid = none
  owners : m.owners = []
  waiters : m.waiters = []
  user : ∀ t, ∃ r, m.place t = .user r
  owns : ∀ t, m.owns t = false

variable {m : PiFutex} {t u : TaskId} {p : PiPlace}

@[simp] theorem goto_place_self : (m.goto t p).place t = p := Function.update_self ..

theorem goto_place_of_ne (h : u ≠ t) : (m.goto t p).place u = m.place u :=
  Function.update_of_ne h ..

end PiFutex

end SlateOS.Ipc.Futex
