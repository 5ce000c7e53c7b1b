/-
# SlateOS.Ipc.Channel.Model -- a channel and its lock sections

A channel pairs two sides. Everything an operation does to it happens in sections under the
`CHANNELS` lock; between two sections of one call the task wakes others, or blocks. A section is a
function from the channel to the changed channel and a `Verdict`: what the call goes on with once the
lock is dropped. A call that loops is described by the point it resumes at.
-/
import SlateOS.Foundation.MachineInt
import SlateOS.Kernel.Error

namespace SlateOS.Ipc

open Foundation.MachineInt Kernel
open Function (update)

/-- `TaskId`. -/
abbrev TaskId := Nat

/-- `MAX_QUEUE_DEPTH`. -/
def maxQueueDepth : Nat := 64

/-! ## Sides -/

/-- An end of the channel, the bit 0 of a `ChannelHandle`. -/
inductive Side
  | zero | one
  deriving DecidableEq, Repr

/-- `peer_side`. -/
def Side.peer : Side → Side
  | .zero => .one
  | .one => .zero

@[simp] theorem Side.peer_peer (p : Side) : p.peer.peer = p := by cases p <;> rfl

@[simp] theorem Side.peer_ne (p : Side) : p.peer ≠ p := by cases p <;> decide

theorem Side.eq_or_eq_peer (p q : Side) : q = p ∨ q = p.peer := by
  cases p <;> cases q <;> decide

theorem Side.peer_inj {p q : Side} : p.peer = q.peer ↔ p = q := by
  cases p <;> cases q <;> decide

theorem Side.peer_eq_iff {p q : Side} : p.peer = q ↔ p = q.peer := by
  cases p <;> cases q <;> decide

/-! ## The channel -/

/-- `Channel`, over messages of any type. -/
structure Channel (M : Type) where
  /-- `queues d` holds what side `d` has to receive (async channels only). -/
  queues : Side → List M
  closed : Side → Bool
  /-- The task blocked in a receive on each side. -/
  waiters : Side → Option TaskId
  /-- The task blocked in a send from each side. -/
  senderWaiters : Side → Option TaskId
  readyWaiters : Side → List TaskId
  sync : Bool
  /-- `rendezvousSlots p` holds what side `p` has parked (sync channels only). -/
  rendezvousSlots : Side → Option M
  refs : Side → Nat

/-! ## Calls, and where they resume -/

variable {M : Type}

/-- What a call returns: a send's result, a receive's, or that of `dup` and `close`. -/
inductive Outcome (M : Type)
  | sent (result : KernelResult Unit)
  | received (result : KernelResult (Option M))
  | done (result : KernelResult Unit)

/-- The lock section a call is about to run. A send that loops carries `pending`: the message as long
as it has not been put into the channel. -/
inductive Point (M : Type)
  | send (p : Side) (msg : M)
  | sendBlocking (p : Side) (pending : Option M)
  /-- `send_blocking` after it was woken. -/
  | sendBlockingWoken (p : Side) (pending : Option M)
  | sendTimeoutFast (p : Side) (msg : M) (timeoutNs : Nat)
  | sendTimeout (p : Side) (pending : Option M)
  | tryRecv (d : Side)
  | recv (d : Side)
  | recvTimeoutFast (d : Side) (timeoutNs : Nat)
  | recvTimeout (d : Side)
  | dup (p : Side)
  | close (p : Side)

/-- How a call goes on after a section. `ready` is the side whose readiness waiters `wake_ready`
takes in a section of its own. -/
inductive Verdict (M : Type)
  /-- Wake the tasks, then return. -/
  | ret (outcome : Outcome M) (wakes : List TaskId) (ready : Option Side)
  /-- Block, and resume at the point when woken. -/
  | wait (ready : Option Side) (next : Point M)
  /-- Go on without blocking. -/
  | goto (next : Point M)

namespace Channel

/-- `Channel::new`. -/
def new : Channel M where
  queues _ := []
  closed _ := false
  waiters _ := none
  senderWaiters _ := none
  readyWaiters _ := []
  sync := false
  rendezvousSlots _ := none
  refs _ := 1

/-- `Channel::new_sync`. -/
def newSync : Channel M := { (new : Channel M) with sync := true }

/-! ## Sends -/

/-- A send from side `p` finds an end closed. -/
def shut (ch : Channel M) (p : Side) : Bool := ch.closed p || ch.closed p.peer

/-- A send from side `p` need not wait: a receiver is registered (sync), or the queue has room. -/
def accepts (ch : Channel M) (p : Side) : Bool :=
  if ch.sync then (ch.waiters p.peer).isSome
  else decide ((ch.queues p.peer).length < maxQueueDepth)

/-- `ch.rendezvous_slots[p] = pending.take()`, when there is something pending. -/
def fillSlot (ch : Channel M) (p : Side) : Option M → Channel M
  | some m => { ch with rendezvousSlots := update ch.rendezvousSlots p (some m) }
  | none => ch

/-- `ch.queues[peer].push_back(pending.take())`, when there is something pending. -/
def pushBack (ch : Channel M) (p : Side) : Option M → Channel M
  | some m =>
    { ch with queues := update ch.queues p.peer (ch.queues p.peer ++ [m]) }
  | none => ch

/-- Put what is pending where the receiver finds it, and take the registered receiver. -/
def deliver (ch : Channel M) (p : Side) (pending : Option M) : Option TaskId × Channel M :=
  let put := if ch.sync then ch.fillSlot p pending else ch.pushBack p pending
  (put.waiters p.peer, { put with waiters := update put.waiters p.peer none })

/-- A sync send without a receiver parks its message, unless the slot is occupied. -/
def park (ch : Channel M) (p : Side) (pending : Option M) : Option M × Channel M :=
  if ch.sync && (ch.rendezvousSlots p).isNone then (none, ch.fillSlot p pending)
  else (pending, ch)

def registerSender (ch : Channel M) (p : Side) (task : TaskId) : Channel M :=
  { ch with senderWaiters := update ch.senderWaiters p (some task) }

/-- What `send_timeout` does to its slot when it gives up. -/
def clearSlot (ch : Channel M) (p : Side) : Channel M :=
  if ch.sync then { ch with rendezvousSlots := update ch.rendezvousSlots p none } else ch

/-- The section of `send_or_return`: the receiver to wake, or the refusal. -/
def sendOrReturn (ch : Channel M) (p : Side) (msg : M) : KernelResult (Option TaskId) × Channel M :=
  if ch.shut p then (.error .channelClosed, ch)
  else if ch.accepts p then
    let r := ch.deliver p (some msg)
    (.ok r.1, r.2)
  else (.error .channelFull, ch)

/-- `send`. -/
def send (ch : Channel M) (p : Side) (msg : M) : Verdict M × Channel M :=
  match ch.sendOrReturn p msg with
  | (.ok wake, ch') => (.ret (.sent (.ok ())) wake.toList (some p.peer), ch')
  | (.error e, ch') => (.ret (.sent (.error e)) [] none, ch')

/-- One pass of `send_blocking`, up to the block. -/
def sendBlocking (ch : Channel M) (p : Side) (task : TaskId) (pending : Option M) :
    Verdict M × Channel M :=
  if ch.shut p then (.ret (.sent (.error .channelClosed)) [] none, ch)
  else if ch.accepts p then
    let r := ch.deliver p pending
    (.ret (.sent (.ok ())) r.1.toList (some p.peer), r.2)
  else
    let r := ch.park p pending
    (.wait (some p.peer) (.sendBlockingWoken p r.1), r.2.registerSender p task)

/-- The check of `send_blocking` after it was woken: an empty slot counts as delivered. -/
def sendBlockingWoken (ch : Channel M) (p : Side) (pending : Option M) : Verdict M × Channel M :=
  if ch.sync && (ch.rendezvousSlots p).isNone then (.ret (.sent (.ok ())) [] none, ch)
  else (.goto (.sendBlocking p pending), ch)

/-- The fast path of `send_timeout`: the section of `send_or_return`, going on where that one refuses
for want of room. -/
def sendTimeoutFast (ch : Channel M) (p : Side) (msg : M) (timeoutNs : Nat) :
    Verdict M × Channel M :=
  match ch.sendOrReturn p msg with
  | (.ok wake, ch') => (.ret (.sent (.ok ())) wake.toList (some p.peer), ch')
  | (.error .channelFull, ch') =>
    if timeoutNs = 0 then (.ret (.sent (.error .timedOut)) [] none, ch')
    else (.goto (.sendTimeout p (some msg)), ch')
  | (.error e, ch') => (.ret (.sent (.error e)) [] none, ch')

/-- One pass of `send_timeout`'s loop; `expired` says whether the timer has fired or the clock is past
the deadline. -/
def sendTimeout (ch : Channel M) (p : Side) (task : TaskId) (expired : Bool) (pending : Option M) :
    Verdict M × Channel M :=
  if ch.shut p then (.ret (.sent (.error .channelClosed)) [] none, ch.clearSlot p)
  else if ch.sync && (ch.rendezvousSlots p).isNone && pending.isNone then
    (.ret (.sent (.ok ())) [] none, ch)
  else if ch.accepts p then
    let r := ch.deliver p pending
    (.ret (.sent (.ok ())) r.1.toList (some p.peer), r.2)
  else
    let r := ch.park p pending
    let ch' := r.2.registerSender p task
    if expired then (.ret (.sent (.error .timedOut)) [] none, ch'.clearSlot p)
    else (.wait (some p.peer) (.sendTimeout p r.1), ch')

/-! ## Receives -/

/-- `rendezvous_slots[peer].take()` or `queues[our_side].pop_front()`. -/
def takeMessage (ch : Channel M) (d : Side) : Option (M × Channel M) :=
  if ch.sync then
    match ch.rendezvousSlots d.peer with
    | some m =>
      some (m, { ch with rendezvousSlots := update ch.rendezvousSlots d.peer none })
    | none => none
  else
    match ch.queues d with
    | m :: rest => some (m, { ch with queues := update ch.queues d rest })
    | [] => none

/-- `take_ready`. -/
def takeReady (ch : Channel M) (d : Side) : List TaskId × Channel M :=
  (ch.readyWaiters d, { ch with readyWaiters := update ch.readyWaiters d [] })

/-- `sender_waiters[p].take()`, then `room_waiters`. -/
def wakeSender (ch : Channel M) (p : Side) (wasFull : Bool) : List TaskId × Channel M :=
  let ch' := { ch with senderWaiters := update ch.senderWaiters p none }
  if wasFull then
    let r := ch'.takeReady p
    ((ch.senderWaiters p).toList ++ r.1, r.2)
  else ((ch.senderWaiters p).toList, ch')

/-- What every receive starts with: take a message, or find that there will be none; `empty` says how
the call goes on when it may still come. -/
def receive (ch : Channel M) (d : Side) (empty : Verdict M × Channel M) : Verdict M × Channel M :=
  let wasFull := !ch.sync && decide (maxQueueDepth ≤ (ch.queues d).length)
  match ch.takeMessage d with
  | some (m, ch') =>
    let r := ch'.wakeSender d.peer wasFull
    (.ret (.received (.ok (some m))) r.1 none, r.2)
  | none =>
    if ch.closed d.peer then (.ret (.received (.error .channelClosed)) [] none, ch) else empty

def registerReceiver (ch : Channel M) (d : Side) (task : TaskId) : Channel M :=
  { ch with waiters := update ch.waiters d (some task) }

/-- `try_recv`. -/
def tryRecv (ch : Channel M) (d : Side) : Verdict M × Channel M :=
  ch.receive d (.ret (.received (.ok none)) [] none, ch)

/-- One pass of `recv`. -/
def recv (ch : Channel M) (d : Side) (task : TaskId) : Verdict M × Channel M :=
  ch.receive d (.wait none (.recv d), ch.registerReceiver d task)

/-- The fast path of `recv_timeout`. -/
def recvTimeoutFast (ch : Channel M) (d : Side) (timeoutNs : Nat) : Verdict M × Channel M :=
  ch.receive d (if timeoutNs = 0 then .ret (.received (.error .timedOut)) [] none
    else .goto (.recvTimeout d), ch)

/-- One pass of `recv_timeout`'s loop. A call that times out leaves its registration behind. -/
def recvTimeout (ch : Channel M) (d : Side) (task : TaskId) (expired : Bool) :
    Verdict M × Channel M :=
  ch.receive d (if expired then (.ret (.received (.error .timedOut)) [] none, ch)
    else (.wait none (.recvTimeout d), ch.registerReceiver d task))

/-! ## Holders -/

/-- `dup`. -/
def dup (ch : Channel M) (p : Side) : Verdict M × Channel M :=
  if ch.closed p then (.ret (.done (.error .invalidHandle)) [] none, ch)
  else
    (.ret (.done (.ok ())) [] none,
      { ch with refs := update ch.refs p (saturatingAdd 32 (ch.refs p) 1) })

/-- The side closes with this `close`. -/
def lastHolder (ch : Channel M) (p : Side) : Bool := !ch.closed p && decide (ch.refs p - 1 = 0)

/-- What the last holder's `close` does. -/
def shutDown (ch : Channel M) (p : Side) : List TaskId × Channel M :=
  ((ch.waiters p.peer).toList ++ (ch.senderWaiters p.peer).toList ++ ch.readyWaiters p.peer,
    { ch with
      refs := update ch.refs p (ch.refs p - 1)
      closed := update ch.closed p true
      waiters := update ch.waiters p.peer none
      senderWaiters := update ch.senderWaiters p.peer none
      readyWaiters := update ch.readyWaiters p.peer []
      rendezvousSlots :=
        if ch.sync then update ch.rendezvousSlots p none else ch.rendezvousSlots })

/-- `close`; the channel goes when both sides are closed. -/
def close (ch : Channel M) (p : Side) : Verdict M × Option (Channel M) :=
  if ch.closed p then (.ret (.done (.ok ())) [] none, some ch)
  else if ch.lastHolder p then
    let r := ch.shutDown p
    (.ret (.done (.ok ())) r.1 none,
      if r.2.closed .zero && r.2.closed .one then none else some r.2)
  else
    (.ret (.done (.ok ())) [] none,
      some { ch with refs := update ch.refs p (ch.refs p - 1) })

/-! ## Readiness waiters -/

/-- `register_waiter`. -/
def registerWaiter (ch : Channel M) (d : Side) (task : TaskId) : Channel M :=
  if task ∈ ch.readyWaiters d then ch
  else { ch with readyWaiters := update ch.readyWaiters d (ch.readyWaiters d ++ [task]) }

/-- `deregister_waiter`. -/
def deregisterWaiter (ch : Channel M) (d : Side) (task : TaskId) : Channel M :=
  { ch with readyWaiters :=
      update ch.readyWaiters d ((ch.readyWaiters d).filter fun t => t ≠ task) }

/-! ## What the operations leave alone -/

section

variable (ch : Channel M) (p : Side)

@[simp] theorem clearSlot_fields : (ch.clearSlot p).queues = ch.queues ∧
    (ch.clearSlot p).closed = ch.closed ∧ (ch.clearSlot p).waiters = ch.waiters ∧
    (ch.clearSlot p).senderWaiters = ch.senderWaiters ∧ (ch.clearSlot p).sync = ch.sync := by
  unfold clearSlot
  split <;> exact ⟨rfl, rfl, rfl, rfl, rfl⟩

@[simp] theorem fillSlot_fields (pending : Option M) :
    (ch.fillSlot p pending).queues = ch.queues ∧ (ch.fillSlot p pending).closed = ch.closed ∧
    (ch.fillSlot p pending).waiters = ch.waiters ∧
    (ch.fillSlot p pending).senderWaiters = ch.senderWaiters ∧
    (ch.fillSlot p pending).sync = ch.sync := by
  cases pending <;> exact ⟨rfl, rfl, rfl, rfl, rfl⟩

@[simp] theorem pushBack_fields (pending : Option M) :
    (ch.pushBack p pending).rendezvousSlots = ch.rendezvousSlots ∧
    (ch.pushBack p pending).closed = ch.closed ∧ (ch.pushBack p pending).waiters = ch.waiters ∧
    (ch.pushBack p pending).senderWaiters = ch.senderWaiters ∧
    (ch.pushBack p pending).sync = ch.sync := by
  cases pending <;> exact ⟨rfl, rfl, rfl, rfl, rfl⟩

@[simp] theorem park_fields (pending : Option M) : (ch.park p pending).2.queues = ch.queues ∧
    (ch.park p pending).2.closed = ch.closed ∧ (ch.park p pending).2.waiters = ch.waiters ∧
    (ch.park p pending).2.senderWaiters = ch.senderWaiters ∧
    (ch.park p pending).2.sync = ch.sync := by
  unfold park
  split
  · exact ch.fillSlot_fields p pending
  · exact ⟨rfl, rfl, rfl, rfl, rfl⟩

@[simp] theorem deliver_fields (pending : Option M) :
    (ch.deliver p pending).1 = ch.waiters p.peer ∧ (ch.deliver p pending).2.closed = ch.closed ∧
    (ch.deliver p pending).2.waiters = update ch.waiters p.peer none ∧
    (ch.deliver p pending).2.senderWaiters = ch.senderWaiters ∧
    (ch.deliver p pending).2.sync = ch.sync := by
  unfold deliver
  rcases Bool.eq_false_or_eq_true ch.sync with hsync | hsync <;> simp [hsync]

theorem deliver_queues (h : ch.sync = false) (x : M) : (ch.deliver p (some x)).2.queues =
    update ch.queues p.peer (ch.queues p.peer ++ [x]) := by
  simp [deliver, h, pushBack]

theorem deliver_slots (h : ch.sync = true) (x : M) : (ch.deliver p (some x)).2.rendezvousSlots =
    update ch.rendezvousSlots p (some x) := by
  simp [deliver, h, fillSlot]

theorem deliver_none :
    (ch.deliver p none).2 = { ch with waiters := update ch.waiters p.peer none } := by
  unfold deliver
  rcases Bool.eq_false_or_eq_true ch.sync with hsync | hsync <;> simp [hsync, fillSlot, pushBack]

@[simp] theorem wakeSender_fields (wasFull : Bool) :
    (ch.wakeSender p wasFull).2.queues = ch.queues ∧
    (ch.wakeSender p wasFull).2.closed = ch.closed ∧
    (ch.wakeSender p wasFull).2.waiters = ch.waiters ∧
    (ch.wakeSender p wasFull).2.senderWaiters = update ch.senderWaiters p none ∧
    (ch.wakeSender p wasFull).2.sync = ch.sync ∧
    (ch.wakeSender p wasFull).2.rendezvousSlots = ch.rendezvousSlots := by
  unfold wakeSender
  split <;> exact ⟨rfl, rfl, rfl, rfl, rfl, rfl⟩

/-- What a receive takes, of a buffered channel. -/
theorem takeMessage_async (h : ch.sync = false) (d : Side) : ch.takeMessage d =
    match ch.queues d with
    | x :: rest => some (x, { ch with queues := update ch.queues d rest })
    | [] => none := by
  unfold takeMessage
  rw [h]
  rfl

/-- What a receive takes, of a rendezvous channel. -/
theorem takeMessage_sync (h : ch.sync = true) (d : Side) : ch.takeMessage d =
    match ch.rendezvousSlots d.peer with
    | some x =>
      some (x, { ch with rendezvousSlots := update ch.rendezvousSlots d.peer none })
    | none => none := by
  unfold takeMessage
  rw [h]
  rfl

end

end Channel

/-! ## Sections -/

/-- What the call at this point returns when the channel is gone. -/
def Point.missing : Point M → Outcome M
  | .send .. | .sendBlocking .. | .sendBlockingWoken .. | .sendTimeoutFast .. | .sendTimeout .. =>
    .sent (.error .invalidHandle)
  | .tryRecv _ | .recv _ | .recvTimeoutFast .. | .recvTimeout _ => .received (.error .invalidHandle)
  | .dup _ => .done (.error .invalidHandle)
  | .close _ => .done (.ok ())

/-- The section at this point, on the channel found in the table. -/
def Point.onChannel (ch : Channel M) (task : TaskId) (expired : Bool) :
    Point M → Verdict M × Option (Channel M)
  | .send p msg => (ch.send p msg).map id some
  | .sendBlocking p pending => (ch.sendBlocking p task pending).map id some
  | .sendBlockingWoken p pending => (ch.sendBlockingWoken p pending).map id some
  | .sendTimeoutFast p msg timeoutNs => (ch.sendTimeoutFast p msg timeoutNs).map id some
  | .sendTimeout p pending => (ch.sendTimeout p task expired pending).map id some
  | .tryRecv d => (ch.tryRecv d).map id some
  | .recv d => (ch.recv d task).map id some
  | .recvTimeoutFast d timeoutNs => (ch.recvTimeoutFast d timeoutNs).map id some
  | .recvTimeout d => (ch.recvTimeout d task expired).map id some
  | .dup p => (ch.dup p).map id some
  | .close p => ch.close p

/-- One lock section of a call: look the channel up, and run the section on it. -/
def Point.enter (c : Option (Channel M)) (task : TaskId) (expired : Bool) (pt : Point M) :
    Verdict M × Option (Channel M) :=
  match c with
  | none => (.ret pt.missing [] none, none)
  | some ch => pt.onChannel ch task expired

end SlateOS.Ipc
