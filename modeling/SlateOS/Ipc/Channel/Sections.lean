/-
# SlateOS.Ipc.Channel.Sections -- what a lock section can do

Each call comes to one section after another. Whatever the section, a send refuses, delivers, finds its
message gone, or waits; a receive takes a message, refuses, or waits. These two relations are all the
later modules know of the sections. `Orderly` is what holds of the calls themselves: each has its own
number, is at a point of its own operation, and is settled at most once.
-/
import SlateOS.Ipc.Channel.System

namespace SlateOS.Ipc

open Kernel

variable {M : Type}

/-! ## Points -/

/-- The side a point sends from, and the message it still has to put into the channel. -/
def Point.sends : Point M → Option (Side × Option M)
  | .send p msg => some (p, some msg)
  | .sendBlocking p pending => some (p, pending)
  | .sendBlockingWoken p pending => some (p, pending)
  | .sendTimeoutFast p msg _ => some (p, some msg)
  | .sendTimeout p pending => some (p, pending)
  | _ => none

/-- The side a point receives on. -/
def Point.receives : Point M → Option Side
  | .tryRecv d | .recv d | .recvTimeoutFast d _ | .recvTimeout d => some d
  | _ => none

/-- The point belongs to `send_timeout`. -/
def Point.timed : Point M → Bool
  | .sendTimeoutFast .. | .sendTimeout .. => true
  | _ => false

theorem Point.receives_of_sends {pt : Point M} {r : Side × Option M} (h : pt.sends = some r) :
    pt.receives = none := by
  cases pt <;> first | rfl | cases h

/-- A send's call returns an error from this point. -/
def Point.givesUp (c : Option (Channel M)) (expired : Bool) : Point M → Bool
  | .send p _ => c.all fun ch => ch.shut p || !ch.accepts p
  | .sendBlocking p _ => c.all fun ch => ch.shut p
  | .sendBlockingWoken _ _ => c.isNone
  | .sendTimeoutFast p _ timeoutNs =>
    c.all fun ch => ch.shut p || (!ch.accepts p && decide (timeoutNs = 0))
  | .sendTimeout p pending =>
    c.all fun ch => ch.shut p ||
      (expired && !(ch.sync && (ch.rendezvousSlots p).isNone && pending.isNone) && !ch.accepts p)
  | _ => false

/-- Where a task waits: to receive on a side, or to send from one. -/
inductive Post
  | receiver (d : Side)
  | sender (p : Side)
  deriving DecidableEq

/-- The end the waiting task uses. -/
def Post.side : Post → Side
  | .receiver d => d
  | .sender p => p

/-- The task the channel has recorded there. -/
def Channel.holder (ch : Channel M) : Post → Option TaskId
  | .receiver d => ch.waiters d
  | .sender p => ch.senderWaiters p

def Point.post : Point M → Option Post
  | .sendBlocking p _ | .sendBlockingWoken p _ | .sendTimeout p _ => some (.sender p)
  | .recv d | .recvTimeout d => some (.receiver d)
  | _ => none

/-- The place in which the section at this point records its own task. -/
def Point.registers (ch : Channel M) (expired : Bool) : Point M → Option Post
  | .sendBlocking p _ => if !ch.shut p && !ch.accepts p then some (.sender p) else none
  | .sendTimeout p pending =>
    if !ch.shut p && !ch.accepts p &&
      !(ch.sync && (ch.rendezvousSlots p).isNone && pending.isNone) then some (.sender p) else none
  | .recv d => if (ch.takeMessage d).isNone && !ch.closed d.peer then some (.receiver d) else none
  | .recvTimeout d =>
    if (ch.takeMessage d).isNone && !ch.closed d.peer && !expired then some (.receiver d) else none
  | _ => none

/-- The section at this point delivers, and returns `Ok`. -/
def Point.delivers (ch : Channel M) : Point M → Bool
  | .send p _ | .sendBlocking p _ | .sendTimeoutFast p _ _ => !ch.shut p && ch.accepts p
  | .sendTimeout p pending => !ch.shut p && ch.accepts p &&
      !(ch.sync && (ch.rendezvousSlots p).isNone && pending.isNone)
  | _ => false

/-! ## Sends -/

/-- What the section of a send from `p` can do. -/
inductive SendStep (ch : Channel M) (task : TaskId) (expired : Bool) (pt : Point M) (p : Side)
    (pending : Option M) : Verdict M → Channel M → Prop
  /-- It gives up. -/
  | refused {e : KernelError} (hgive : pt.givesUp (some ch) expired = true) :
      SendStep ch task expired pt p pending (.ret (.sent (.error e)) [] none) ch
  /-- `send_timeout` finds an end closed. -/
  | closed (hpt : pt = .sendTimeout p pending) (hgive : pt.givesUp (some ch) expired = true)
      (hshut : ch.shut p = true) :
      SendStep ch task expired pt p pending (.ret (.sent (.error .channelClosed)) [] none)
        (ch.clearSlot p)
  /-- `send_timeout` has registered once more before it sees that its time is over. -/
  | expired (hpt : pt = .sendTimeout p pending) (hgive : pt.givesUp (some ch) expired = true)
      (hopen : ch.shut p = false) (hacc : ch.accepts p = false)
      (hreg : pt.registers ch expired = some (.sender p)) :
      SendStep ch task expired pt p pending (.ret (.sent (.error .timedOut)) [] none)
        (((ch.park p pending).2.registerSender p task).clearSlot p)
  | delivered (hopen : ch.shut p = false) (hacc : ch.accepts p = true)
      (hdelivers : pt.delivers ch = true) :
      SendStep ch task expired pt p pending
        (.ret (.sent (.ok ())) (ch.deliver p pending).1.toList (some p.peer)) (ch.deliver p pending).2
  /-- The slot is empty. -/
  | found (hsync : ch.sync = true) (hslot : ch.rendezvousSlots p = none)
      (hwhy : pt = .sendBlockingWoken p pending ∨ (pending = none ∧ ch.shut p = false)) :
      SendStep ch task expired pt p pending (.ret (.sent (.ok ())) [] none) ch
  | waits {next : Point M} (hopen : ch.shut p = false) (hacc : ch.accepts p = false)
      (hnext : next.sends = some (p, (ch.park p pending).1)) (htimed : next.timed = pt.timed)
      (hpost : next.post = some (.sender p)) (hreg : pt.registers ch expired = some (.sender p)) :
      SendStep ch task expired pt p pending (.wait (some p.peer) next)
        ((ch.park p pending).2.registerSender p task)
  | goes {next : Point M} (hnext : next.sends = some (p, pending)) (htimed : next.timed = pt.timed) :
      SendStep ch task expired pt p pending (.goto next) ch

section

variable (ch : Channel M) (task : TaskId) (expired : Bool) (p : Side)

theorem send_spec (msg : M) : SendStep ch task expired (.send p msg) p (some msg)
    (ch.send p msg).1 (ch.send p msg).2 := by
  unfold Channel.send Channel.sendOrReturn
  by_cases hshut : ch.shut p = true
  · rw [if_pos hshut]
    exact .refused (by simp [Point.givesUp, hshut])
  · rw [if_neg hshut]
    by_cases hacc : ch.accepts p = true
    · rw [if_pos hacc]
      exact .delivered (Bool.eq_false_iff.mpr hshut) hacc (by simp [Point.delivers, hshut, hacc])
    · rw [if_neg hacc]
      exact .refused (by simp [Point.givesUp, hacc])

theorem sendBlocking_spec (pending : Option M) :
    SendStep ch task expired (.sendBlocking p pending) p pending
      (ch.sendBlocking p task pending).1 (ch.sendBlocking p task pending).2 := by
  unfold Channel.sendBlocking
  by_cases hshut : ch.shut p = true
  · rw [if_pos hshut]
    exact .refused (by simp [Point.givesUp, hshut])
  · rw [if_neg hshut]
    by_cases hacc : ch.accepts p = true
    · rw [if_pos hacc]
      exact .delivered (Bool.eq_false_iff.mpr hshut) hacc (by simp [Point.delivers, hshut, hacc])
    · rw [if_neg hacc]
      refine .waits (Bool.eq_false_iff.mpr hshut) (Bool.eq_false_iff.mpr hacc) rfl rfl rfl ?_
      simp [Point.registers, hshut, hacc]

theorem sendBlockingWoken_spec (pending : Option M) :
    SendStep ch task expired (.sendBlockingWoken p pending) p pending
      (ch.sendBlockingWoken p pending).1 (ch.sendBlockingWoken p pending).2 := by
  unfold Channel.sendBlockingWoken
  by_cases hslot : (ch.sync && (ch.rendezvousSlots p).isNone) = true
  · rw [if_pos hslot]
    rw [Bool.and_eq_true, Option.isNone_iff_eq_none] at hslot
    exact .found hslot.1 hslot.2 (.inl rfl)
  · rw [if_neg hslot]
    exact .goes rfl rfl

theorem sendTimeoutFast_spec (msg : M) (timeoutNs : Nat) :
    SendStep ch task expired (.sendTimeoutFast p msg timeoutNs) p (some msg)
      (ch.sendTimeoutFast p msg timeoutNs).1 (ch.sendTimeoutFast p msg timeoutNs).2 := by
  unfold Channel.sendTimeoutFast Channel.sendOrReturn
  by_cases hshut : ch.shut p = true
  · rw [if_pos hshut]
    exact .refused (by simp [Point.givesUp, hshut])
  · rw [if_neg hshut]
    by_cases hacc : ch.accepts p = true
    · rw [if_pos hacc]
      exact .delivered (Bool.eq_false_iff.mpr hshut) hacc (by simp [Point.delivers, hshut, hacc])
    · rw [if_neg hacc]
      by_cases hns : timeoutNs = 0
      · simp only [if_pos hns]
        exact .refused (by simp [Point.givesUp, hacc, hns])
      · simp only [if_neg hns]
        exact .goes rfl rfl

theorem sendTimeout_spec (pending : Option M) :
    SendStep ch task expired (.sendTimeout p pending) p pending
      (ch.sendTimeout p task expired pending).1 (ch.sendTimeout p task expired pending).2 := by
  unfold Channel.sendTimeout
  by_cases hshut : ch.shut p = true
  · rw [if_pos hshut]
    exact .closed rfl (by simp [Point.givesUp, hshut]) hshut
  · rw [if_neg hshut]
    have hopen : ch.shut p = false := Bool.eq_false_iff.mpr hshut
    by_cases hslot : (ch.sync && (ch.rendezvousSlots p).isNone && pending.isNone) = true
    · rw [if_pos hslot]
      simp only [Bool.and_eq_true, Option.isNone_iff_eq_none] at hslot
      exact .found hslot.1.1 hslot.1.2 (.inr ⟨hslot.2, hopen⟩)
    · rw [if_neg hslot]
      by_cases hacc : ch.accepts p = true
      · rw [if_pos hacc]
        refine .delivered hopen hacc ?_
        simp only [Point.delivers, hopen, hacc, Bool.eq_false_iff.mpr hslot]
        rfl
      · rw [if_neg hacc]
        have hfull : ch.accepts p = false := Bool.eq_false_iff.mpr hacc
        have hreg : (Point.sendTimeout p pending).registers ch expired = some (.sender p) := by
          simp only [Point.registers, hopen, hfull, Bool.eq_false_iff.mpr hslot]
          rfl
        rcases Bool.eq_false_or_eq_true expired with rfl | rfl
        · refine .expired rfl ?_ hopen hfull hreg
          simp only [Point.givesUp, Option.all_some, hopen, hfull, Bool.eq_false_iff.mpr hslot]
          decide
        · exact .waits hopen hfull rfl rfl rfl hreg

end

/-- The section of a send does one of these things. -/
theorem sendStep (ch : Channel M) (task : TaskId) (expired : Bool) {pt : Point M} {p : Side}
    {pending : Option M} (h : pt.sends = some (p, pending)) :
    ∃ v ch', pt.onChannel ch task expired = (v, some ch') ∧
      SendStep ch task expired pt p pending v ch' := by
  cases pt with
  | send q msg =>
    obtain ⟨rfl, rfl⟩ : q = p ∧ some msg = pending := by simpa [Point.sends] using h
    exact ⟨_, _, rfl, send_spec ch task expired q msg⟩
  | sendBlocking q pend =>
    obtain ⟨rfl, rfl⟩ : q = p ∧ pend = pending := by simpa [Point.sends] using h
    exact ⟨_, _, rfl, sendBlocking_spec ch task expired q pend⟩
  | sendBlockingWoken q pend =>
    obtain ⟨rfl, rfl⟩ : q = p ∧ pend = pending := by simpa [Point.sends] using h
    exact ⟨_, _, rfl, sendBlockingWoken_spec ch task expired q pend⟩
  | sendTimeoutFast q msg timeoutNs =>
    obtain ⟨rfl, rfl⟩ : q = p ∧ some msg = pending := by simpa [Point.sends] using h
    exact ⟨_, _, rfl, sendTimeoutFast_spec ch task expired q msg timeoutNs⟩
  | sendTimeout q pend =>
    obtain ⟨rfl, rfl⟩ : q = p ∧ pend = pending := by simpa [Point.sends] using h
    exact ⟨_, _, rfl, sendTimeout_spec ch task expired q pend⟩
  | tryRecv d => cases h
  | recv d => cases h
  | recvTimeoutFast d timeoutNs => cases h
  | recvTimeout d => cases h
  | dup q => cases h
  | close q => cases h

/-! ## Receives -/

/-- What the section of a receive on `d` can do. -/
inductive RecvStep (ch : Channel M) (task : TaskId) (expired : Bool) (pt : Point M) (d : Side) :
    Verdict M → Channel M → Prop
  | got {x : M} {ch' : Channel M} (htake : ch.takeMessage d = some (x, ch')) (wasFull : Bool) :
      RecvStep ch task expired pt d
        (.ret (.received (.ok (some x))) (ch'.wakeSender d.peer wasFull).1 none)
        (ch'.wakeSender d.peer wasFull).2
  | closed (htake : ch.takeMessage d = none) (hclosed : ch.closed d.peer = true) :
      RecvStep ch task expired pt d (.ret (.received (.error .channelClosed)) [] none) ch
  /-- Nothing there, and no time to wait. -/
  | nothing {r : KernelResult (Option M)} (htake : ch.takeMessage d = none)
      (hr : r = .ok none ∨ r = .error .timedOut) :
      RecvStep ch task expired pt d (.ret (.received r) [] none) ch
  | waits {next : Point M} (htake : ch.takeMessage d = none) (hopen : ch.closed d.peer = false)
      (hreg : pt.registers ch expired = some (.receiver d))
      (hnext : next = .recv d ∨ next = .recvTimeout d) :
      RecvStep ch task expired pt d (.wait none next) (ch.registerReceiver d task)
  | goes (htake : ch.takeMessage d = none) :
      RecvStep ch task expired pt d (.goto (.recvTimeout d)) ch

/-- A receive takes what is there or finds the peer closed; the rest is up to `empty`. -/
theorem receive_spec {ch : Channel M} {task : TaskId} {expired : Bool} {pt : Point M} {d : Side}
    {empty : Verdict M × Channel M}
    (hempty : ch.takeMessage d = none → ch.closed d.peer = false →
      RecvStep ch task expired pt d empty.1 empty.2) :
    RecvStep ch task expired pt d (ch.receive d empty).1 (ch.receive d empty).2 := by
  unfold Channel.receive
  rcases htake : ch.takeMessage d with _ | ⟨x, ch'⟩
  · by_cases hclosed : ch.closed d.peer = true
    · simp only [if_pos hclosed]
      exact .closed htake hclosed
    · simp only [if_neg hclosed]
      exact hempty htake (Bool.eq_false_iff.mpr hclosed)
  · exact .got htake _

/-- The section of a receive does one of these things. -/
theorem recvStep (ch : Channel M) (task : TaskId) (expired : Bool) {pt : Point M} {d : Side}
    (h : pt.receives = some d) :
    ∃ v ch', pt.onChannel ch task expired = (v, some ch') ∧
      RecvStep ch task expired pt d v ch' := by
  cases pt with
  | tryRecv e =>
    obtain rfl : e = d := by simpa [Point.receives] using h
    refine ⟨_, _, rfl, receive_spec fun htake _ => ?_⟩
    exact .nothing htake (.inl rfl)
  | recv e =>
    obtain rfl : e = d := by simpa [Point.receives] using h
    refine ⟨_, _, rfl, receive_spec fun htake hopen => ?_⟩
    exact .waits htake hopen (by simp [Point.registers, htake, hopen]) (.inl rfl)
  | recvTimeoutFast e timeoutNs =>
    obtain rfl : e = d := by simpa [Point.receives] using h
    refine ⟨_, _, rfl, receive_spec fun htake _ => ?_⟩
    by_cases hns : timeoutNs = 0
    · rw [if_pos hns]
      exact .nothing htake (.inr rfl)
    · rw [if_neg hns]
      exact .goes htake
  | recvTimeout e =>
    obtain rfl : e = d := by simpa [Point.receives] using h
    refine ⟨_, _, rfl, receive_spec fun htake hopen => ?_⟩
    rcases Bool.eq_false_or_eq_true expired with rfl | rfl
    · exact .nothing htake (.inr rfl)
    · exact .waits htake hopen (by simp [Point.registers, htake, hopen]) (.inr rfl)
  | send q msg => cases h
  | sendBlocking q pend => cases h
  | sendBlockingWoken q pend => cases h
  | sendTimeoutFast q msg timeoutNs => cases h
  | sendTimeout q pend => cases h
  | dup q => cases h
  | close q => cases h

theorem takeMessage_fields {ch ch' : Channel M} {d : Side} {x : M}
    (h : ch.takeMessage d = some (x, ch')) : ch'.closed = ch.closed ∧ ch'.waiters = ch.waiters ∧
    ch'.senderWaiters = ch.senderWaiters ∧ ch'.sync = ch.sync := by
  unfold Channel.takeMessage at h
  split at h
  · split at h
    · obtain ⟨-, rfl⟩ := Prod.mk.inj (Option.some.inj h)
      exact ⟨rfl, rfl, rfl, rfl⟩
    · cases h
  · split at h
    · obtain ⟨-, rfl⟩ := Prod.mk.inj (Option.some.inj h)
      exact ⟨rfl, rfl, rfl, rfl⟩
    · cases h

/-! ## Holders -/

/-- What `dup` and `close` can do. -/
inductive HolderStep (ch : Channel M) (pt : Point M) : Verdict M → Option (Channel M) → Prop
  | count (r : KernelResult Unit) (refs : Side → Nat)
      (hkeep : ∀ p, pt = .close p → ch.lastHolder p = false) :
      HolderStep ch pt (.ret (.done r) [] none) (some { ch with refs })
  | last {p : Side} (hpt : pt = .close p) (hlast : ch.lastHolder p = true)
      (hpeer : ch.closed p.peer = false) :
      HolderStep ch pt (.ret (.done (.ok ())) (ch.shutDown p).1 none) (some (ch.shutDown p).2)
  | gone {p : Side} (hpt : pt = .close p) (hlast : ch.lastHolder p = true)
      (hpeer : ch.closed p.peer = true) :
      HolderStep ch pt (.ret (.done (.ok ())) (ch.shutDown p).1 none) none

theorem shutDown_closed (ch : Channel M) (p : Side) :
    ((ch.shutDown p).2.closed .zero && (ch.shutDown p).2.closed .one) = ch.closed p.peer := by
  cases p <;> simp [Channel.shutDown, Side.peer]

theorem holderStep (ch : Channel M) (task : TaskId) (expired : Bool) {pt : Point M}
    (hs : pt.sends = none) (hr : pt.receives = none) :
    HolderStep ch pt (pt.onChannel ch task expired).1 (pt.onChannel ch task expired).2 := by
  cases pt with
  | dup p =>
    show HolderStep ch _ (ch.dup p).1 (some (ch.dup p).2)
    unfold Channel.dup
    split
    · exact .count _ ch.refs fun _ h => (nomatch h)
    · exact .count _ _ fun _ h => (nomatch h)
  | close p =>
    show HolderStep ch _ (ch.close p).1 (ch.close p).2
    unfold Channel.close
    split
    · next hclosed =>
        refine .count _ ch.refs fun q hq => ?_
        obtain rfl := Point.close.inj hq
        rw [Channel.lastHolder, hclosed]
        rfl
    · split
      · next hlast =>
          simp only [shutDown_closed]
          split
          · next hpeer => exact .gone rfl hlast hpeer
          · next hpeer => exact .last rfl hlast (Bool.eq_false_iff.mpr hpeer)
      · next hlast =>
          refine .count _ _ fun q hq => ?_
          obtain rfl := Point.close.inj hq
          exact Bool.eq_false_iff.mpr hlast
  | send q msg => cases hs
  | sendBlocking q pend => cases hs
  | sendBlockingWoken q pend => cases hs
  | sendTimeoutFast q msg timeoutNs => cases hs
  | sendTimeout q pend => cases hs
  | tryRecv d => cases hr
  | recv d => cases hr
  | recvTimeoutFast d timeoutNs => cases hr
  | recvTimeout d => cases hr

end SlateOS.Ipc
