/-
# SlateOS.Ipc.Futex.Requeue -- `futex_requeue` on the table as it is, bucket by bucket

`requeue_inner` of `kernel/src/ipc/futex.rs`: a wake of the first word's waiters, then the loop that takes
one waiter of the first word out of its bucket and puts it, under the second word's key, at the back of the
other's. `Requeues` is the effect: the bucket of the first word loses its first waiters and keeps all others
in place, and the moved ones stand in order behind the second word's bucket. The loop searches the queue it
appends to, so with both words in one queue it would find again what it has moved.
-/
import SlateOS.Foundation.FirstMatches
import SlateOS.Foundation.MachineInt
import SlateOS.Kernel.Error

namespace SlateOS.Ipc.FutexRequeue

open Foundation.FirstMatches Foundation.MachineInt Kernel
open Function (update update_self)

/-! ## The table -/

/-- Kernel task id. -/
abbrev TaskId := Nat

/-- `NUM_BUCKETS`. -/
def numBuckets : Nat := 64

/-- `SHARED_KEY_SPACE`. -/
def sharedKeySpace : BitVec 64 := 1

/-- `FutexKey`. -/
structure FutexKey where
  addr : BitVec 64
  space : BitVec 64
  deriving DecidableEq

/-- `FutexTable::bucket_index`. -/
def bucketIndex (addr addrSpace : BitVec 64) : Fin numBuckets :=
  let hash := addr ^^^ (addr >>> 12) ^^^ (addr >>> 24) ^^^ addrSpace ^^^ (addrSpace >>> 12)
  ⟨hash.toNat &&& (numBuckets - 1), Nat.lt_of_le_of_lt Nat.and_le_right (by decide)⟩

/-- `FutexKey::bucket`. -/
def FutexKey.bucket (key : FutexKey) : Fin numBuckets := bucketIndex key.addr key.space

/-- What the key of a word depends on: the current address space, and `page_table::shared_phys`. -/
structure KeyEnv where
  currentAddrSpace : BitVec 64
  sharedPhys : BitVec 64 → BitVec 64 → Option (BitVec 64)

/-- `key_in`: a word on a page shared by design goes by its physical address. -/
def KeyEnv.keyIn (env : KeyEnv) (space uaddr : BitVec 64) : FutexKey :=
  match if space ≠ 0 then env.sharedPhys space uaddr else none with
  | some phys => ⟨phys, sharedKeySpace⟩
  | none => ⟨uaddr, space⟩

/-- `futex_key`. -/
def KeyEnv.futexKey (env : KeyEnv) (uaddr : BitVec 64) : FutexKey :=
  env.keyIn env.currentAddrSpace uaddr

/-- `Waiter`. -/
structure Waiter where
  key : FutexKey
  taskId : TaskId
  bitset : BitVec 32
  multiIndex : Option (BitVec 32)
  deriving DecidableEq

/-- `FutexTable`: the queue of each bucket, its front first. -/
abbrev FutexTable := Fin numBuckets → List Waiter

/-- The waiter is queued on the word of `key`. -/
def queuedOn (key : FutexKey) (w : Waiter) : Bool := decide (w.key = key)

/-- The waiter under another key. -/
def Waiter.rekey (key : FutexKey) (w : Waiter) : Waiter := { w with key := key }

/-! ## The requeue -/

/-- Phase 1 over a bucket: the tasks to wake, and what is left. `room` reservations succeed. -/
def wakeLoop (key1 : FutexKey) : (limit room : Nat) → List Waiter → List TaskId × List Waiter
  | 0, _, bucket => ([], bucket)
  | _ + 1, _, [] => ([], [])
  | limit + 1, room, w :: bucket =>
    if w.key = key1 then
      match room with
      -- `try_reserve` fails: the phase ends with the waiter still queued.
      | 0 => ([], w :: bucket)
      | room + 1 =>
        let r := wakeLoop key1 limit room bucket
        (w.taskId :: r.1, r.2)
    else
      let r := wakeLoop key1 (limit + 1) room bucket
      (r.1, w :: r.2)

/-- Phase 2 with `max_requeue - requeued` left: the table, how many more it moves, and how many more times
its body is run. -/
def requeueLoop (key1 key2 : FutexKey) : Nat → FutexTable → FutexTable × Nat × Nat
  | 0, table => (table, 0, 0)
  | left + 1, table =>
    match detach (queuedOn key1) (table key1.bucket) with
    | none => (table, 0, 1)
    | some (waiter, bucket) =>
      let detached := update table key1.bucket bucket
      let r := requeueLoop key1 key2 left
        (update detached key2.bucket (detached key2.bucket ++ [waiter.rekey key2]))
      (r.1, r.2.1 + 1, r.2.2 + 1)

/-- What a requeue does: the tasks it wakes, the table it leaves, how many moves it counts and what it
returns, and how many times the body of phase 2 is run. -/
structure Requeued where
  toWake : List TaskId
  table : FutexTable
  requeued : Nat
  ret : Nat
  bodies : Nat

/-- `requeue_inner`. A compare is the expected value and what the load of the word answers. -/
def requeueInner (env : KeyEnv) (table : FutexTable) (addr1 addr2 : BitVec 64)
    (maxWake maxRequeue : BitVec 32) (compare : Option (BitVec 32 × KernelResult (BitVec 32)))
    (room : Nat) : KernelResult Requeued := do
  if addr1 = 0 then return ⟨[], table, 0, 0, 0⟩
  let key1 := env.futexKey addr1
  if let some (expected, load) := compare then
    let actual ← load
    if actual ≠ expected then throw .wouldBlock
  let woken := wakeLoop key1 maxWake.toNat room (table key1.bucket)
  let table := update table key1.bucket woken.2
  let moved := if addr2 = 0 then (table, 0, 0)
    else requeueLoop key1 (env.futexKey addr2) maxRequeue.toNat table
  return {
    toWake := woken.1
    table := moved.1
    requeued := moved.2.1
    ret := saturatingAdd 32 (min woken.1.length (maxVal 32)) moved.2.1
    bodies := moved.2.2 }

/-- `futex_requeue`. -/
def futexRequeue (env : KeyEnv) (table : FutexTable) (addr1 addr2 : BitVec 64)
    (maxWake maxRequeue : BitVec 32) (room : Nat) : Requeued :=
  match requeueInner env table addr1 addr2 maxWake maxRequeue none room with
  | .ok r => r
  | .error _ => ⟨[], table, 0, 0, 0⟩

/-- `futex_cmp_requeue`. -/
def futexCmpRequeue (env : KeyEnv) (table : FutexTable) (addr1 addr2 : BitVec 64)
    (maxWake maxRequeue expected : BitVec 32) (load : KernelResult (BitVec 32)) (room : Nat) :
    KernelResult Requeued :=
  requeueInner env table addr1 addr2 maxWake maxRequeue (some (expected, load)) room

/-! ## The effect -/

/-- The waiters queued on the word of `key`, in order. -/
def queueOf (table : FutexTable) (key : FutexKey) : List Waiter :=
  (table key.bucket).filter (queuedOn key)

/-- The table without the first `n` waiters of `key`. -/
def wakeOff (key : FutexKey) (n : Nat) (table : FutexTable) : FutexTable :=
  update table key.bucket (dropFirst (queuedOn key) n (table key.bucket))

/-- The table with the first `n` waiters of `key1` at the back of `key2`'s bucket, under `key2`. -/
def passOn (key1 key2 : FutexKey) (n : Nat) (table : FutexTable) : FutexTable := fun b =>
  (if b = key1.bucket then dropFirst (queuedOn key1) n (table b) else table b) ++
    if b = key2.bucket then ((queueOf table key1).take n).map (Waiter.rekey key2) else []

/-- How many waiters of `n` a requeue is to wake, and then to move. -/
def toWakeOf (n maxWake : Nat) : Nat := min maxWake n

@[inherit_doc toWakeOf]
def toMoveOf (n maxWake maxRequeue : Nat) : Nat := min maxRequeue (n - toWakeOf n maxWake)

/-- A requeue as it is meant: no waiter is moved more than once. The body of phase 2 is run once for a moved
waiter, and once more if it finds none. -/
structure Requeues (table : FutexTable) (key1 key2 : FutexKey) (maxWake maxRequeue : Nat)
    (r : Requeued) : Prop where
  wakes : r.toWake =
    ((queueOf table key1).take (toWakeOf (queueOf table key1).length maxWake)).map Waiter.taskId
  moves : r.table = passOn key1 key2 (toMoveOf (queueOf table key1).length maxWake maxRequeue)
    (wakeOff key1 (toWakeOf (queueOf table key1).length maxWake) table)
  requeues : r.requeued = toMoveOf (queueOf table key1).length maxWake maxRequeue
  returns : r.ret = toWakeOf (queueOf table key1).length maxWake +
    toMoveOf (queueOf table key1).length maxWake maxRequeue
  returns_le : r.ret ≤ (queueOf table key1).length
  bodies_le : r.bodies ≤ (queueOf table key1).length + 1

/-! ## The first phase -/

variable {key key1 key2 : FutexKey} {n k limit room : Nat} {table : FutexTable} {bucket : List Waiter}

theorem wakeLoop_eq : wakeLoop key1 limit room bucket =
    (((bucket.filter (queuedOn key1)).take (min limit room)).map Waiter.taskId,
      dropFirst (queuedOn key1) (min limit room) bucket) := by
  induction bucket generalizing limit room with
  | nil => cases limit <;> simp [wakeLoop]
  | cons w bucket ih =>
    cases limit with
    | zero => simp [wakeLoop]
    | succ limit =>
      by_cases hw : w.key = key1
      · have hq : queuedOn key1 w = true := by simpa [queuedOn] using hw
        cases room with
        | zero => simp [wakeLoop, hw]
        | succ room =>
          simp only [wakeLoop, hw, if_true, ih]
          rw [List.filter_cons_of_pos hq, Nat.add_min_add_right, dropFirst_cons_of_pos hq]
          simp
      · have hq : queuedOn key1 w = false := by simpa [queuedOn] using hw
        simp only [wakeLoop, hw, if_false, ih]
        rw [List.filter_cons_of_neg (by simp [hq]), dropFirst_cons_of_neg hq]

/-! ## The second phase -/

/-- A moved waiter is on the second word. -/
theorem queuedOn_of_mem_rekeyed {ws : List Waiter} {w : Waiter} (hw : w ∈ ws.map (Waiter.rekey key2)) :
    queuedOn key1 w = decide (key2 = key1) := by
  obtain ⟨v, _, rfl⟩ := List.mem_map.mp hw
  rfl

@[simp] theorem passOn_zero : passOn key1 key2 0 table = table := by
  funext b
  simp [passOn]

/-- One body of the loop: the front waiter of `key1` is passed on. -/
theorem detached_eq_passOn {w : Waiter} (h : detach (queuedOn key1) (table key1.bucket) = some (w, bucket)) :
    update (update table key1.bucket bucket) key2.bucket
      (update table key1.bucket bucket key2.bucket ++ [w.rekey key2]) =
    passOn key1 key2 1 table := by
  obtain ⟨hfront, hrest⟩ := detach_eq_some h
  have htake : (queueOf table key1).take 1 = [w] := by simp [queueOf, hfront]
  have hupdate : ∀ b, update table key1.bucket bucket b =
      if b = key1.bucket then dropFirst (queuedOn key1) 1 (table b) else table b := by
    intro b
    by_cases hb : b = key1.bucket
    · subst hb
      simp [hrest]
    · simp [hb]
  funext b
  rw [passOn, htake, ← hupdate b]
  by_cases hb : b = key2.bucket
  · subst hb
    simp
  · simp [hb]

/-- Passing on `i` waiters and then `k` is passing on `i + k`, if none of the `i` is among the `k`: the words
are different, or there are enough waiters before the moved ones. -/
theorem passOn_passOn {i : Nat} (h : key1 ≠ key2 ∨ i + k ≤ (queueOf table key1).length) :
    passOn key1 key2 k (passOn key1 key2 i table) = passOn key1 key2 (i + k) table := by
  let moved := ((queueOf table key1).take i).map (Waiter.rekey key2)
  have hreach : (∀ w ∈ (if key1.bucket = key2.bucket then moved else []), queuedOn key1 w = false) ∨
      k ≤ ((dropFirst (queuedOn key1) i (table key1.bucket)).filter (queuedOn key1)).length := by
    rcases h with h | h
    · left
      intro w hw
      have hw' : w ∈ moved := by
        split at hw
        · exact hw
        · cases hw
      rw [queuedOn_of_mem_rekeyed hw', decide_eq_false (Ne.symm h)]
    · right
      rw [filter_dropFirst, List.length_drop]
      exact Nat.le_sub_of_add_le (by rwa [Nat.add_comm])
  have hsource : passOn key1 key2 i table key1.bucket =
      dropFirst (queuedOn key1) i (table key1.bucket) ++
        if key1.bucket = key2.bucket then moved else [] := by
    simp only [passOn, if_true, moved]
  have hnext : (queueOf (passOn key1 key2 i table) key1).take k = ((queueOf table key1).drop i).take k := by
    rw [queueOf, hsource, take_filter_append hreach, filter_dropFirst]
    rfl
  funext b
  rw [passOn, hnext]
  by_cases hb : b = key1.bucket
  · subst hb
    rw [hsource, if_pos rfl, dropFirst_append hreach, dropFirst_dropFirst, List.append_assoc]
    simp only [passOn, if_true]
    by_cases hsame : key1.bucket = key2.bucket
    · simp only [hsame, if_true, moved, ← List.map_append, List.take_add]
    · simp only [hsame, if_false, List.append_nil]
  · simp only [passOn, hb, if_false, List.append_assoc]
    by_cases hb2 : b = key2.bucket
    · simp only [hb2, if_true, ← List.map_append, List.take_add]
    · simp only [hb2, if_false, List.append_nil]

/-- The first word's queue after `n` are passed on. -/
theorem queueOf_passOn : queueOf (passOn key1 key2 n table) key1 =
    (queueOf table key1).drop n ++
      if key1 = key2 then ((queueOf table key1).take n).map (Waiter.rekey key2) else [] := by
  rw [queueOf, passOn, if_pos rfl, List.filter_append, filter_dropFirst]
  by_cases hkey : key1 = key2
  · subst hkey
    have hall : (((queueOf table key1).take n).map (Waiter.rekey key1)).filter (queuedOn key1) =
        ((queueOf table key1).take n).map (Waiter.rekey key1) :=
      List.filter_eq_self.mpr fun w hw => by simp [queuedOn_of_mem_rekeyed hw]
    simp only [if_true, hall]
    rfl
  · have hnone : (if key1.bucket = key2.bucket then
        ((queueOf table key1).take n).map (Waiter.rekey key2) else []).filter (queuedOn key1) = [] := by
      refine List.filter_eq_nil_iff.mpr fun w hw => ?_
      split at hw
      · simp [queuedOn_of_mem_rekeyed hw, Ne.symm hkey]
      · cases hw
    rw [hnone, if_neg hkey]
    rfl

/-- **The loop moves no waiter twice** when the words are different, when it is to move no more than there are,
or when there is none. -/
theorem requeueLoop_eq
    (h : key1 ≠ key2 ∨ k ≤ (queueOf table key1).length ∨ (queueOf table key1).length = 0) :
    requeueLoop key1 key2 k table =
      (passOn key1 key2 (min k (queueOf table key1).length) table, min k (queueOf table key1).length,
        min k ((queueOf table key1).length + 1)) := by
  induction k generalizing table with
  | zero => simp [requeueLoop]
  | succ k ih =>
    unfold requeueLoop
    split
    next hnone =>
      have hempty : queueOf table key1 = [] := detach_eq_none.mp hnone
      simp [hempty]
    next w bucket hsome =>
    have hpos : 0 < (queueOf table key1).length := by
      rw [queueOf, (detach_eq_some hsome).1]
      simp
    -- One is passed on; if the words are different, the queue is one shorter.
    have hleft : (key1 ≠ key2 ∧
        (queueOf (passOn key1 key2 1 table) key1).length + 1 = (queueOf table key1).length) ∨
        (k + 1 ≤ (queueOf table key1).length ∧
          k ≤ (queueOf (passOn key1 key2 1 table) key1).length) := by
      rw [queueOf_passOn, List.length_append, List.length_drop]
      rcases h with h | h | h
      · left
        simp only [h, if_false, List.length_nil]
        exact ⟨h, by omega⟩
      · right
        exact ⟨h, by omega⟩
      · omega
    have hmin : min k (queueOf (passOn key1 key2 1 table) key1).length + 1 =
        min (k + 1) (queueOf table key1).length := by
      omega
    have hreach : key1 ≠ key2 ∨ 1 + min k (queueOf (passOn key1 key2 1 table) key1).length ≤
        (queueOf table key1).length := h.imp_right fun h => by omega
    simp only [detached_eq_passOn hsome]
    rw [ih (hleft.imp And.left fun h => Or.inl h.2)]
    simp only [passOn_passOn hreach]
    rw [Nat.add_comm 1, hmin]
    congr 2
    omega

/-- With both words in one queue every body of the loop finds a waiter, once there is one. -/
theorem requeueLoop_same (h : queueOf table key ≠ []) : (requeueLoop key key k table).2.1 = k := by
  induction k generalizing table with
  | zero => simp [requeueLoop]
  | succ k ih =>
    unfold requeueLoop
    split
    next hnone => exact absurd (detach_eq_none.mp hnone) h
    next w bucket hsome =>
    simp only [detached_eq_passOn hsome]
    rw [ih]
    rw [queueOf_passOn]
    simp [h]

/-! ## The call -/

theorem queueOf_wakeOff : queueOf (wakeOff key n table) key = (queueOf table key).drop n := by
  rw [queueOf, wakeOff, update_self, filter_dropFirst]
  rfl

/-- A wake of more than there are is a wake of all. -/
theorem wakeOff_min : wakeOff key (min n (queueOf table key).length) table = wakeOff key n table := by
  rcases Nat.le_total n (queueOf table key).length with h | h
  · rw [Nat.min_eq_left h]
  · rw [Nat.min_eq_right h, wakeOff, wakeOff, dropFirst_eq_of_le h]
    rfl

/-- What the call computes from the two keys. -/
def requeueKeys (table : FutexTable) (key1 key2 : FutexKey) (maxWake maxRequeue room : Nat) : Requeued :=
  let woken := (queueOf table key1).take (min maxWake room)
  let moved := requeueLoop key1 key2 maxRequeue (wakeOff key1 (min maxWake room) table)
  ⟨woken.map Waiter.taskId, moved.1, moved.2.1, min (woken.length + moved.2.1) (maxVal 32), moved.2.2⟩

theorem futexRequeue_eq (env : KeyEnv) {addr1 addr2 : BitVec 64} (h1 : addr1 ≠ 0) (h2 : addr2 ≠ 0)
    (maxWake maxRequeue : BitVec 32) : futexRequeue env table addr1 addr2 maxWake maxRequeue room =
      requeueKeys table (env.futexKey addr1) (env.futexKey addr2) maxWake.toNat maxRequeue.toNat room := by
  have hsmall : min maxWake.toNat room ≤ maxVal 32 :=
    (Nat.min_le_left _ _).trans (Nat.le_pred_of_lt maxWake.isLt)
  have hlength : ((queueOf table (env.futexKey addr1)).take (min maxWake.toNat room)).length ≤ maxVal 32 :=
    (List.length_take_le _ _).trans hsmall
  have hwoken := Nat.min_eq_left hlength
  simp only [queueOf] at hwoken
  simp only [futexRequeue, requeueInner, h1, h2, if_false, wakeLoop_eq, saturatingAdd, List.length_map, hwoken]
  rfl

section Effect

variable {maxWake maxRequeue : Nat}

theorem length_queueOf_wakeOff :
    (queueOf (wakeOff key n table) key).length = (queueOf table key).length - n := by
  rw [queueOf_wakeOff, List.length_drop]

/-- Enough memory, queues that differ or waiters enough, and a sum that fits. -/
theorem requeues_of_distinct (hroom : toWakeOf (queueOf table key1).length maxWake ≤ room)
    (hkeys : key1 ≠ key2 ∨
      maxRequeue ≤ (queueOf table key1).length - toWakeOf (queueOf table key1).length maxWake ∨
        (queueOf table key1).length = toWakeOf (queueOf table key1).length maxWake)
    (hfits : toWakeOf (queueOf table key1).length maxWake +
      toMoveOf (queueOf table key1).length maxWake maxRequeue < 2 ^ 32) :
    Requeues table key1 key2 maxWake maxRequeue (requeueKeys table key1 key2 maxWake maxRequeue room) := by
  have hmax : maxVal 32 = 2 ^ 32 - 1 := rfl
  have hwake : toWakeOf (queueOf table key1).length maxWake = min maxWake (queueOf table key1).length := rfl
  have hmove : toMoveOf (queueOf table key1).length maxWake maxRequeue = min maxRequeue
      ((queueOf table key1).length - toWakeOf (queueOf table key1).length maxWake) := rfl
  have hlimit : min (min maxWake room) (queueOf table key1).length =
      toWakeOf (queueOf table key1).length maxWake := by
    omega
  have htake : (queueOf table key1).take (min maxWake room) =
      (queueOf table key1).take (toWakeOf (queueOf table key1).length maxWake) := by
    rw [List.take_eq_take_min, hlimit]
  have htable : wakeOff key1 (min maxWake room) table =
      wakeOff key1 (toWakeOf (queueOf table key1).length maxWake) table := by
    rw [← hlimit, wakeOff_min]
  have hleft := @length_queueOf_wakeOff key1 (toWakeOf (queueOf table key1).length maxWake) table
  have hreach : key1 ≠ key2 ∨
      maxRequeue ≤ (queueOf (wakeOff key1 (toWakeOf (queueOf table key1).length maxWake) table) key1).length ∨
        (queueOf (wakeOff key1 (toWakeOf (queueOf table key1).length maxWake) table) key1).length = 0 := by
    rw [hleft]
    exact hkeys.imp_right fun h => h.imp_right fun h => by omega
  have hloop := requeueLoop_eq hreach
  rw [hleft, ← hmove] at hloop
  have hwoken : ((queueOf table key1).take (toWakeOf (queueOf table key1).length maxWake)).length =
      toWakeOf (queueOf table key1).length maxWake := by
    rw [List.length_take]
    omega
  simp only [requeueKeys, htake, htable, hloop, hwoken]
  refine ⟨rfl, rfl, rfl, ?_, ?_, ?_⟩
  · show min _ _ = _
    omega
  · show min _ _ ≤ _
    omega
  · show min _ _ ≤ _
    omega

theorem room_of_requeues
    (h : Requeues table key1 key2 maxWake maxRequeue (requeueKeys table key1 key2 maxWake maxRequeue room)) :
    toWakeOf (queueOf table key1).length maxWake ≤ room := by
  have hwakes := congrArg List.length h.wakes
  simp only [requeueKeys, List.length_map, List.length_take] at hwakes
  unfold toWakeOf at hwakes ⊢
  omega

theorem distinct_of_requeues
    (h : Requeues table key1 key2 maxWake maxRequeue (requeueKeys table key1 key2 maxWake maxRequeue room)) :
    key1 ≠ key2 ∨
      maxRequeue ≤ (queueOf table key1).length - toWakeOf (queueOf table key1).length maxWake ∨
        (queueOf table key1).length = toWakeOf (queueOf table key1).length maxWake := by
  have hroom := room_of_requeues h
  have hrequeues := h.requeues
  unfold toWakeOf at hroom ⊢
  by_contra hfew
  simp only [not_or, not_not] at hfew
  obtain ⟨rfl, hfew, hone⟩ := hfew
  -- With too few waiters, but one, the loop counts every move it was asked for.
  have hne : queueOf (wakeOff key1 (min maxWake room) table) key1 ≠ [] := by
    rw [ne_eq, ← List.length_eq_zero_iff, length_queueOf_wakeOff]
    omega
  simp only [requeueKeys, requeueLoop_same hne, toMoveOf, toWakeOf] at hrequeues
  omega

theorem fits_of_requeues
    (h : Requeues table key1 key2 maxWake maxRequeue (requeueKeys table key1 key2 maxWake maxRequeue room)) :
    toWakeOf (queueOf table key1).length maxWake + toMoveOf (queueOf table key1).length maxWake maxRequeue <
      2 ^ 32 := by
  rw [← h.returns]
  exact Nat.lt_of_le_of_lt (Nat.min_le_right _ _) (by decide)

end Effect

/-- **`futex_requeue` moves each waiter at most once** exactly when the tasks to wake find memory, the words are
in different queues or there are waiters enough for all moves it is to make, and the sum fits the result. -/
theorem requeue_moves_once (env : KeyEnv) (table : FutexTable) {addr1 addr2 : BitVec 64} (h1 : addr1 ≠ 0)
    (h2 : addr2 ≠ 0) (maxWake maxRequeue : BitVec 32) (room : Nat) :
    Requeues table (env.futexKey addr1) (env.futexKey addr2) maxWake.toNat maxRequeue.toNat
        (futexRequeue env table addr1 addr2 maxWake maxRequeue room) ↔
      let n := (queueOf table (env.futexKey addr1)).length
      let woken := toWakeOf n maxWake.toNat
      woken ≤ room ∧
        (env.futexKey addr1 ≠ env.futexKey addr2 ∨ maxRequeue.toNat ≤ n - woken ∨ n = woken) ∧
        woken + toMoveOf n maxWake.toNat maxRequeue.toNat < 2 ^ 32 := by
  rw [futexRequeue_eq env h1 h2]
  constructor
  · intro h
    exact ⟨room_of_requeues h, distinct_of_requeues h, fits_of_requeues h⟩
  · rintro ⟨hroom, hkeys, hfits⟩
    exact requeues_of_distinct hroom hkeys hfits

/-- A process without shared pages. -/
def privateWords : KeyEnv := ⟨0x5000, fun _ _ => none⟩

/-- Tasks waiting on one of its words, all others of the table's queues being empty. -/
def waitingAt (addr : BitVec 64) (tasks : List TaskId) : FutexTable := fun b =>
  if b = (privateWords.futexKey addr).bucket then
    tasks.map fun t => ⟨privateWords.futexKey addr, t, BitVec.allOnes 32, none⟩
  else []

/-- A condition variable's broadcast: one of three waiters is woken, and the others go to the mutex. -/
theorem requeue_moves_once_broadcast :
    Requeues (waitingAt 0x1000 [1, 2, 3]) (privateWords.futexKey 0x1000) (privateWords.futexKey 0x2000)
      1 4294967295 (futexRequeue privateWords (waitingAt 0x1000 [1, 2, 3]) 0x1000 0x2000 1 4294967295 8) :=
  (requeue_moves_once privateWords (waitingAt 0x1000 [1, 2, 3]) (by decide) (by decide) 1 4294967295 8).mpr
    ⟨by decide, by decide, by decide⟩

/-- The one waiter of a word requeued onto the same word is moved twice and counted twice. -/
theorem one_waiter_moved_twice :
    (futexRequeue privateWords (waitingAt 0x1000 [1]) 0x1000 0x1000 0 2 8).ret = 2 ∧
      (queueOf (waitingAt 0x1000 [1]) (privateWords.futexKey 0x1000)).length = 1 ∧
      ¬ Requeues (waitingAt 0x1000 [1]) (privateWords.futexKey 0x1000) (privateWords.futexKey 0x1000) 0 2
        (futexRequeue privateWords (waitingAt 0x1000 [1]) 0x1000 0x1000 0 2 8) := by
  refine ⟨by decide, by decide, fun h => ?_⟩
  have hcount := h.returns_le
  exact absurd hcount (by decide)

end SlateOS.Ipc.FutexRequeue
