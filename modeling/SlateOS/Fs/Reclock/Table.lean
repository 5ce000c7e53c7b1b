/-
# SlateOS.Fs.Reclock.Table -- the table of byte-range record locks

`kernel/src/fs/reclock.rs`: locks of owners on files, the tasks waiting for them, and what each call does in
its section under the table's lock. A section answers with its result, the tasks it wakes once the lock is
dropped, and the table; the pass of `set_wait` that parks has no result.
-/
import SlateOS.Foundation.MachineInt
import SlateOS.Kernel.Error
import Mathlib.Data.List.Basic

namespace SlateOS.Fs.Reclock

open Foundation.MachineInt Kernel

/-! ## Locks -/

/-- `RecordLockType`. -/
inductive RecordLockType where
  | read
  | write
  deriving DecidableEq

/-- `RecordLock`; `len` is 0 for "to end of file". -/
structure RecordLock where
  owner : Nat
  start : Nat
  len : Nat
  lockType : RecordLockType
  deriving DecidableEq

namespace RecordLock

/-- `end`: one past the last byte. -/
def stop (l : RecordLock) : Nat := if l.len = 0 then maxVal 64 else saturatingAdd 64 l.start l.len

/-- `overlaps`. -/
def overlaps (l other : RecordLock) : Bool := decide (l.start < other.stop) && decide (other.start < l.stop)

/-- `conflicts_with`. -/
def conflictsWith (l other : RecordLock) : Bool :=
  decide (l.owner ≠ other.owner) && l.overlaps other
    && (decide (l.lockType = .write) || decide (other.lockType = .write))

/-- `spanning`. -/
def spanning (owner start stop : Nat) (lockType : RecordLockType) : RecordLock where
  owner := owner
  start := start
  len := if stop = maxVal 64 then 0 else stop - start
  lockType := lockType

end RecordLock

/-- `FileId`. -/
structure FileId where
  fsId : Nat
  ino : Nat
  deriving DecidableEq

/-- `LockKey::File`. -/
structure LockKey where
  path : List UInt8
  id : Option FileId
  deriving DecidableEq

/-- `same_file`: identity decides when both sides have one, and the path otherwise. -/
def LockKey.sameFile (k other : LockKey) : Bool :=
  match k.id, other.id with
  | some x, some y => decide (x = y)
  | _, _ => decide (k.path = other.path)

/-- `FileLocks`. -/
structure FileLocks where
  key : LockKey
  locks : List RecordLock

/-- `Waiter`. -/
structure Waiter where
  task : Nat
  pid : Nat
  owner : Nat
  key : LockKey
  blockedOn : List Nat

/-- `Table`. -/
structure Table where
  files : List FileLocks
  waiters : List Waiter

/-- `MAX_LOCKED_FILES`. -/
def maxLockedFiles : Nat := 1024

/-- `MAX_LOCKS_PER_FILE`. -/
def maxLocksPerFile : Nat := 256

/-- `MAX_WAITERS`. -/
def maxWaiters : Nat := 1024

/-- `OFD_OWNER_TAG`. -/
def ofdOwnerTag : Nat := 2 ^ 63

/-- `ofd_owner`. -/
def ofdOwner (handle : Nat) : Nat := handle ||| ofdOwnerTag

/-- `posix_owner`: bit 63 masked off. -/
def posixOwner (pid : Nat) : Nat := pid % ofdOwnerTag

/-- `owner_is_ofd`. -/
def ownerIsOfd (owner : Nat) : Bool := owner.testBit 63

/-! ## Cutting and installing -/

/-- `subtract`: what remains held without `[start, stop)`. -/
def subtract (held : RecordLock) (start stop : Nat) : List RecordLock :=
  if stop ≤ held.start ∨ held.stop ≤ start then [held]
  else
    (if held.start < start then [.spanning held.owner held.start start held.lockType] else [])
      ++ (if stop < held.stop then [.spanning held.owner stop held.stop held.lockType] else [])

/-- A lock that the merged one absorbs: same owner and type, and touching. -/
def touches (merged h : RecordLock) : Bool :=
  decide (h.owner = merged.owner) && decide (h.lockType = merged.lockType)
    && (decide (h.stop = merged.start) || decide (merged.stop = h.start))

/-- The merged lock with `h` absorbed. -/
def merge (merged h : RecordLock) : RecordLock :=
  .spanning merged.owner (min h.start merged.start) (max h.stop merged.stop) merged.lockType

/-- The loop of `install` that absorbs touching locks until none is left. -/
def absorb (out : List RecordLock) (merged : RecordLock) : List RecordLock :=
  match _hfound : out.find? (touches merged) with
  | none => out ++ [merged]
  | some h => absorb (out.erase h) (merge merged h)
  termination_by out.length
  decreasing_by
    have hmem := List.mem_of_find?_eq_some _hfound
    rw [List.length_erase_of_mem hmem]
    exact Nat.sub_lt (List.length_pos_of_mem hmem) Nat.one_pos

/-- The owner's coverage of the range is taken out. -/
def clearOwn (held : List RecordLock) (owner start stop : Nat) : List RecordLock :=
  held.flatMap fun h =>
    if h.owner = owner ∧ h.start < stop ∧ start < h.stop then subtract h start stop else [h]

/-- `install`: the new list, and whether any of the owner's coverage was replaced. -/
def install (held : List RecordLock) (want : RecordLock) : List RecordLock × Bool :=
  (absorb (clearOwn held want.owner want.start want.stop) want,
    held.any fun h => decide (h.owner = want.owner) && h.overlaps want)

/-! ## The table -/

namespace Table

/-- `position`. -/
def position (t : Table) (key : LockKey) : Option Nat := t.files.findIdx? fun f => f.key.sameFile key

/-- The locks on a file; none where the table has no entry for it. -/
def locksOn (t : Table) (key : LockKey) : List RecordLock :=
  ((t.files.find? fun f => f.key.sameFile key).map FileLocks.locks).getD []

/-- `blockers`, each owner once, in the order of their first locks. -/
def blockers (t : Table) (key : LockKey) (want : RecordLock) : List Nat :=
  ((t.locksOn key).filter fun h => h.conflictsWith want).foldl
    (fun out h => if h.owner ∈ out then out else out ++ [h.owner]) []

/-- `try_set` from the file entry on. -/
def trySetAt (t : Table) (idx : Nat) (want : RecordLock) : KernelResult Bool × Table :=
  match t.files[idx]? with
  | none => (.error .internalError, t)
  | some file =>
    if file.locks.any (fun h => h.conflictsWith want) then (.error .wouldBlock, t)
    else if maxLocksPerFile < (install file.locks want).1.length then (.error .resourceExhausted, t)
    else
      (.ok (install file.locks want).2,
        { t with files := t.files.set idx { file with locks := (install file.locks want).1 } })

/-- `try_set`. -/
def trySet (t : Table) (key : LockKey) (want : RecordLock) : KernelResult Bool × Table :=
  match t.position key with
  | some idx => t.trySetAt idx want
  | none =>
    if maxLockedFiles ≤ t.files.length then (.error .resourceExhausted, t)
    else trySetAt { t with files := t.files ++ [⟨key, []⟩] } t.files.length want

/-- `unlock` under the lock: whether anything was held there. -/
def unlockRange (t : Table) (key : LockKey) (owner start stop : Nat) : Bool × Table :=
  match t.position key with
  | none => (false, t)
  | some idx =>
    match t.files[idx]? with
    | none => (false, t)
    | some file =>
      let kept := clearOwn file.locks owner start stop
      (file.locks.any fun h => decide (h.owner = owner ∧ h.start < stop ∧ start < h.stop),
        { t with
          files := if kept.isEmpty then t.files.eraseIdx idx else t.files.set idx { file with locks := kept } })

/-- `take_waiters_on`. -/
def takeWaitersOn (t : Table) (key : LockKey) : List Nat × Table :=
  ((t.waiters.filter fun w => w.key.sameFile key).map Waiter.task,
    { t with waiters := t.waiters.filter fun w => !w.key.sameFile key })

/-- The waiters on each of the files, in turn. -/
def takeWaitersOnAll (t : Table) : List LockKey → List Nat × Table
  | [] => ([], t)
  | key :: keys =>
    let taken := t.takeWaitersOn key
    let rest := taken.2.takeWaitersOnAll keys
    (taken.1 ++ rest.1, rest.2)

/-- The files the owner holds locks on. -/
def heldBy (t : Table) (owner : Nat) : List LockKey :=
  (t.files.filter fun f => f.locks.any fun h => decide (h.owner = owner)).map FileLocks.key

/-- `release_everywhere`. -/
def releaseEverywhere (t : Table) (owner : Nat) : List Nat × Table :=
  let files := t.files.map fun f => { f with locks := f.locks.filter fun h => decide (h.owner ≠ owner) }
  { t with files := files.filter fun f => !f.locks.isEmpty }.takeWaitersOnAll (t.heldBy owner)

/-- `remove_waiter`. -/
def removeWaiter (t : Table) (task : Nat) : Table :=
  { t with waiters := t.waiters.filter fun w => decide (w.task ≠ task) }

/-- How many waiters of owners not yet expanded there are: what the search has left to push. -/
def unexpanded (waiters : List Waiter) (seen : List Nat) : Nat :=
  waiters.countP fun w => decide (w.owner ∉ seen)

/-- Whom an owner's waiters wait for. -/
def edgesOf (waiters : List Waiter) (owner : Nat) : List Nat :=
  (waiters.filter fun w => decide (w.owner = owner)).flatMap Waiter.blockedOn

theorem unexpanded_expand {waiters : List Waiter} {seen : List Nat} {owner : Nat} (h : owner ∉ seen) :
    unexpanded waiters seen
      = unexpanded waiters (seen ++ [owner]) + waiters.countP fun w => decide (w.owner = owner) := by
  unfold unexpanded
  induction waiters with
  | nil => rfl
  | cons w ws ih =>
    simp only [List.countP_cons, List.mem_append, List.mem_singleton, not_or, decide_eq_true_eq] at ih ⊢
    by_cases hw : w.owner = owner
    · rw [if_pos (hw ▸ h), if_neg (fun hand => hand.2 hw), if_pos hw]
      omega
    · by_cases hin : w.owner ∈ seen
      · rw [if_neg (not_not_intro hin), if_neg (fun hand => hand.1 hin), if_neg hw]
        omega
      · rw [if_pos hin, if_pos ⟨hin, hw⟩, if_neg hw]
        omega

/-- The search of `would_deadlock`; the top of the stack is the head of the list. -/
def search (waiters : List Waiter) (me : Nat) (seen : List Nat) : List Nat → Bool
  | [] => false
  | owner :: stack =>
    if owner = me then true
    else if ownerIsOfd owner ∨ owner ∈ seen then search waiters me seen stack
    else search waiters me (seen ++ [owner]) ((edgesOf waiters owner).reverse ++ stack)
  termination_by stack => (unexpanded waiters seen, stack.length)
  decreasing_by
    · exact Prod.Lex.right _ (by simp)
    · next hseen =>
        rw [not_or] at hseen
        rw [unexpanded_expand hseen.2]
        by_cases hnone : (waiters.countP fun w => decide (w.owner = owner)) = 0
        · have hedges : edgesOf waiters owner = [] := by
            rw [List.countP_eq_length_filter, List.length_eq_zero_iff] at hnone
            rw [edgesOf, hnone, List.flatMap_nil]
          rw [hnone, hedges]
          exact Prod.Lex.right _ (by simp)
        · exact Prod.Lex.left _ _ (by omega)

/-- `would_deadlock`. -/
def wouldDeadlock (t : Table) (me : Nat) (blockers : List Nat) : Bool :=
  if ownerIsOfd me then false else search t.waiters me [] blockers.reverse

end Table

/-! ## The calls -/

/-- What `set` and `set_wait` are asked for, and by which process. -/
structure Request where
  pid : Nat
  key : LockKey
  want : RecordLock

namespace Table

/-- `set`. -/
def set (t : Table) (key : LockKey) (want : RecordLock) : KernelResult Unit × List Nat × Table :=
  let tried := t.trySet key want
  match tried.1 with
  | .ok true => (.ok (), tried.2.takeWaitersOn key)
  | .ok false => (.ok (), [], tried.2)
  | .error e => (.error e, [], tried.2)

/-- One pass of the loop of `set_wait`; `signal` is `deliverable_signal_pending`. -/
def setWaitPass (t : Table) (task : Nat) (req : Request) (signal : Bool) :
    Option (KernelResult Unit) × List Nat × Table :=
  let t := t.removeWaiter task
  let tried := t.trySet req.key req.want
  match tried.1 with
  | .ok true => (some (.ok ()), tried.2.takeWaitersOn req.key)
  | .ok false => (some (.ok ()), [], tried.2)
  | .error .wouldBlock =>
    if signal then (some (.error .interrupted), [], tried.2)
    else
      let blockedOn := tried.2.blockers req.key req.want
      if tried.2.wouldDeadlock req.want.owner blockedOn then (some (.error .deadlock), [], tried.2)
      else if maxWaiters ≤ tried.2.waiters.length then (some (.error .resourceExhausted), [], tried.2)
      else
        (none, [], { tried.2 with
          waiters := tried.2.waiters ++ [⟨task, req.pid, req.want.owner, req.key, blockedOn⟩] })
  | .error e => (some (.error e), [], tried.2)

/-- The end of a range, `len` 0 being "to end of file". -/
def rangeStop (start len : Nat) : Nat := if len = 0 then maxVal 64 else saturatingAdd 64 start len

/-- `unlock`. -/
def unlock (t : Table) (key : LockKey) (owner start len : Nat) : List Nat × Table :=
  let unlocked := t.unlockRange key owner start (rangeStop start len)
  if unlocked.1 then unlocked.2.takeWaitersOn key else ([], unlocked.2)

/-- `release_on`. -/
def releaseOn (t : Table) (key : LockKey) (owner : Nat) : List Nat × Table := t.unlock key owner 0 0

/-- `release_all`. -/
def releaseAll (t : Table) (owner : Nat) : List Nat × Table := t.releaseEverywhere owner

/-- `release_ofd`. -/
def releaseOfd (t : Table) (handle : Nat) : List Nat × Table := t.releaseAll (ofdOwner handle)

/-- `release_process`. -/
def releaseProcess (t : Table) (pid : Nat) : List Nat × Table :=
  releaseEverywhere
    (if pid ≠ 0 then { t with waiters := t.waiters.filter fun w => decide (w.pid ≠ pid) } else t) (posixOwner pid)

/-- `query`. -/
def query (t : Table) (key : LockKey) (want : RecordLock) : Option RecordLock :=
  (t.locksOn key).find? fun h => h.conflictsWith want

end Table

end SlateOS.Fs.Reclock
