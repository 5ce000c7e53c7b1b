/-
# SlateOS.Ipc.Channel.Recorded -- the tasks a channel has recorded

What each section does to the recorded tasks: they stay recorded or are woken, but for a task written
over by another, and for the tasks of an end that closes. A section that brings a message, or makes
room, wakes the task recorded for it.
-/
import SlateOS.Ipc.Channel.Sections

namespace SlateOS.Ipc

open Kernel
open Function (update update_self update_of_ne)

variable {M : Type}

/-! ## What a section owes the recorded tasks -/

/-- The tasks a verdict wakes. -/
def Verdict.wakes : Verdict M → List TaskId
  | .ret _ wakes _ => wakes
  | _ => []

/-- The messages side `d` can take. -/
def Channel.available (ch : Channel M) (d : Side) : Nat :=
  (ch.queues d).length + (ch.rendezvousSlots d.peer).toList.length

/-- This section closes the end. -/
def Closes (ch : Channel M) (pt : Point M) (p : Side) : Prop :=
  pt = .close p ∧ ch.lastHolder p = true

/-- What a section does to the tasks the channel has recorded. -/
structure Handles (ch : Channel M) (task : TaskId) (expired : Bool) (pt : Point M) (v : Verdict M)
    (channel : Option (Channel M)) : Prop where
  /-- A recorded task stays recorded or is woken, unless it is written over or its own end closes. -/
  keeps : ∀ {q : Post} {u : TaskId}, ch.holder q = some u →
    (∃ ch', channel = some ch' ∧ ch'.holder q = some u) ∨ u ∈ v.wakes ∨
    pt.registers ch expired = some q ∨ Closes ch pt q.side
  records : ∀ {ready : Option Side} {next : Point M} {q : Post}, v = .wait ready next →
    next.post = some q → (∃ ch', channel = some ch' ∧ ch'.holder q = some task) ∧
      (∀ p, q = .sender p → ch.shut p = false) ∧ ∀ p, ¬ Closes ch pt p
  shut : ∀ {ch' : Channel M} {p : Side}, channel = some ch' → ch'.shut p = true →
    ch.shut p = true ∨ Closes ch pt p ∨ Closes ch pt p.peer
  closing : ∀ {p : Side} {q : Post} {u : TaskId}, Closes ch pt p → q.side = p.peer →
    ch.holder q = some u → u ∈ v.wakes
  closes : ∀ {p : Side}, ch.closed p = false →
    (∀ ch', channel = some ch' → ch'.closed p = true) → Closes ch pt p
  arrival : ∀ {ch' : Channel M} {d : Side} {u : TaskId}, channel = some ch' →
    ch.available d < ch'.available d → ch.waiters d = some u → u ∈ v.wakes
  room : ∀ {ch' : Channel M} {p : Side} {u : TaskId}, channel = some ch' →
    ch'.available p.peer < ch.available p.peer → ch.senderWaiters p = some u →
    u ∈ v.wakes ∨ pt.registers ch expired = some (.sender p) ∨ ch.shut p = true ∨ Closes ch pt p

variable {ch ch' : Channel M} {task : TaskId} {expired : Bool} {pt : Point M} {v : Verdict M}

/-- A section that closes no end. -/
theorem Handles.stays (hclosed : ch'.closed = ch.closed) (hpt : ∀ p, ¬ Closes ch pt p)
    (hkeeps : ∀ q u, ch.holder q = some u →
      ch'.holder q = some u ∨ u ∈ v.wakes ∨ pt.registers ch expired = some q)
    (hrecords : ∀ ready next q, v = .wait ready next → next.post = some q →
      ch'.holder q = some task ∧ ∀ p, q = .sender p → ch.shut p = false)
    (harrival : ∀ d u, ch.available d < ch'.available d → ch.waiters d = some u → u ∈ v.wakes)
    (hroom : ∀ p u, ch'.available p.peer < ch.available p.peer → ch.senderWaiters p = some u →
      u ∈ v.wakes ∨ pt.registers ch expired = some (.sender p) ∨ ch.shut p = true) :
    Handles ch task expired pt v (some ch') where
  keeps hu := (hkeeps _ _ hu).imp (fun hsame => ⟨ch', rfl, hsame⟩) fun hor => hor.imp_right .inl
  records hv hq := by
    obtain ⟨hholder, hopen⟩ := hrecords _ _ _ hv hq
    exact ⟨⟨ch', rfl, hholder⟩, hopen, hpt⟩
  shut := by
    intro ch₁ p hch₁ hshut
    cases hch₁
    rw [Channel.shut, hclosed] at hshut
    exact .inl hshut
  closing h := absurd h (hpt _)
  closes := by
    intro p hopen hall
    have hp := hall ch' rfl
    rw [hclosed, hopen] at hp
    cases hp
  arrival := by
    intro ch₁ d u hch₁
    cases hch₁
    exact harrival d u
  room := by
    intro ch₁ p u hch₁ hlt hu
    cases hch₁
    exact (hroom p u hlt hu).imp_right fun hor => hor.imp_right .inl

/-- A section that leaves the recorded tasks, the ends and the messages as they are. -/
theorem Handles.same (hwaiters : ch'.waiters = ch.waiters)
    (hsenders : ch'.senderWaiters = ch.senderWaiters) (hclosed : ch'.closed = ch.closed)
    (hpt : ∀ p, ¬ Closes ch pt p) (hv : ∀ ready next, v ≠ .wait ready next)
    (harrival : ∀ d, ch'.available d ≤ ch.available d)
    (hroom : ∀ p, ch'.available p.peer < ch.available p.peer → ch.shut p = true) :
    Handles ch task expired pt v (some ch') := by
  refine .stays hclosed hpt (fun q u hu => .inl ?_) (fun ready next _ h => absurd h (hv ready next))
    (fun d u hlt => absurd hlt (Nat.not_lt.mpr (harrival d))) fun p u hlt _ => .inr (.inr (hroom p hlt))
  rw [← hu]
  rcases q with d | p
  · exact congrFun hwaiters d
  · exact congrFun hsenders p

theorem available_clearSlot_le (ch : Channel M) (p d : Side) :
    (ch.clearSlot p).available d ≤ ch.available d := by
  unfold Channel.available Channel.clearSlot
  split
  · refine Nat.add_le_add_left ?_ _
    show (update ch.rendezvousSlots p none d.peer).toList.length ≤ _
    by_cases hd : d.peer = p
    · rw [hd, update_self]
      exact Nat.zero_le _
    · rw [update_of_ne hd]
  · exact Nat.le_refl _

/-- Clearing a slot frees room only for its own side. -/
theorem available_clearSlot_lt (ch : Channel M) {p q : Side}
    (h : (ch.clearSlot p).available q.peer < ch.available q.peer) : q = p := by
  unfold Channel.available Channel.clearSlot at h
  split at h
  · by_contra hne
    change _ + (update ch.rendezvousSlots p none q.peer.peer).toList.length < _ at h
    rw [Side.peer_peer, update_of_ne hne] at h
    exact Nat.lt_irrefl _ h
  · exact absurd h (Nat.lt_irrefl _)

variable {p d : Side}

theorem available_fillSlot (ch : Channel M) (pending : Option M) (hd : d ≠ p.peer) :
    (ch.fillSlot p pending).available d = ch.available d := by
  cases pending with
  | none => rfl
  | some x =>
    have hne : d.peer ≠ p := fun h => hd (Side.peer_eq_iff.mp h)
    show _ + (update ch.rendezvousSlots p (some x) d.peer).toList.length = _
    rw [update_of_ne hne]
    rfl

theorem available_le_fillSlot (ch : Channel M) (p d : Side) (pending : Option M) :
    ch.available d ≤ (ch.fillSlot p pending).available d := by
  cases pending with
  | none => exact Nat.le_refl _
  | some x =>
    refine Nat.add_le_add_left ?_ _
    show _ ≤ (update ch.rendezvousSlots p (some x) d.peer).toList.length
    by_cases hd : d.peer = p
    · rw [hd, update_self]
      exact Option.length_toList_le
    · rw [update_of_ne hd]

theorem available_pushBack (ch : Channel M) (pending : Option M) (hd : d ≠ p.peer) :
    (ch.pushBack p pending).available d = ch.available d := by
  cases pending with
  | none => rfl
  | some x =>
    show (update ch.queues p.peer _ d).length + _ = _
    rw [update_of_ne hd]
    rfl

theorem available_le_pushBack (ch : Channel M) (p d : Side) (pending : Option M) :
    ch.available d ≤ (ch.pushBack p pending).available d := by
  cases pending with
  | none => exact Nat.le_refl _
  | some x =>
    refine Nat.add_le_add_right ?_ _
    show _ ≤ (update ch.queues p.peer (ch.queues p.peer ++ [x]) d).length
    by_cases hd : d = p.peer
    · subst hd
      rw [update_self, List.length_append]
      exact Nat.le_add_right _ _
    · rw [update_of_ne hd]

theorem available_deliver (ch : Channel M) (pending : Option M) (hd : d ≠ p.peer) :
    (ch.deliver p pending).2.available d = ch.available d := by
  unfold Channel.deliver
  rcases Bool.eq_false_or_eq_true ch.sync with hsync | hsync
  · rw [hsync]
    exact available_fillSlot ch pending hd
  · rw [hsync]
    exact available_pushBack ch pending hd

theorem available_le_deliver (ch : Channel M) (p d : Side) (pending : Option M) :
    ch.available d ≤ (ch.deliver p pending).2.available d := by
  unfold Channel.deliver
  rcases Bool.eq_false_or_eq_true ch.sync with hsync | hsync
  · rw [hsync]
    exact available_le_fillSlot ch p d pending
  · rw [hsync]
    exact available_le_pushBack ch p d pending

theorem available_le_park (ch : Channel M) (p d : Side) (pending : Option M) :
    ch.available d ≤ (ch.park p pending).2.available d := by
  unfold Channel.park
  split
  · exact available_le_fillSlot ch p d pending
  · exact Nat.le_refl _

/-- Parking adds a message only where no receiver is recorded. -/
theorem park_available_lt {pending : Option M}
    (hacc : ch.accepts p = false) (h : ch.available d < (ch.park p pending).2.available d) :
    ch.waiters d = none := by
  unfold Channel.park at h
  split at h
  · next hcond =>
      rw [Bool.and_eq_true] at hcond
      by_cases hd : d = p.peer
      · subst hd
        simpa [Channel.accepts, hcond.1] using hacc
      · rw [available_fillSlot ch pending hd] at h
        exact absurd h (Nat.lt_irrefl _)
  · exact absurd h (Nat.lt_irrefl _)

/-- A timed-out send leaves no more messages than it found, and less only in its own slot. -/
theorem available_expired (ch : Channel M) (p d : Side) (task : TaskId) (pending : Option M) :
    (((ch.park p pending).2.registerSender p task).clearSlot p).available d ≤ ch.available d := by
  unfold Channel.park
  split
  · next hcond =>
      rw [Bool.and_eq_true] at hcond
      have hsync : ((ch.fillSlot p pending).registerSender p task).sync = true :=
        (ch.fillSlot_fields p pending).2.2.2.2.trans hcond.1
      unfold Channel.clearSlot
      rw [if_pos hsync]
      unfold Channel.available
      refine Nat.add_le_add ?_ ?_
      · show ((ch.fillSlot p pending).queues d).length ≤ _
        rw [(ch.fillSlot_fields p pending).1]
      · show (update (ch.fillSlot p pending).rendezvousSlots p none d.peer).toList.length ≤ _
        by_cases hd : d.peer = p
        · rw [hd, update_self]
          exact Nat.zero_le _
        · rw [update_of_ne hd]
          rcases pending with _ | x
          · exact Nat.le_refl _
          · show (update ch.rendezvousSlots p (some x) d.peer).toList.length ≤ _
            rw [update_of_ne hd]
  · exact available_clearSlot_le (ch.registerSender p task) p d

theorem available_expired_lt {p q : Side} {pending : Option M}
    (h : (((ch.park p pending).2.registerSender p task).clearSlot p).available q.peer <
      ch.available q.peer) : q = p := by
  refine available_clearSlot_lt ((ch.park p pending).2.registerSender p task) ?_
  exact Nat.lt_of_lt_of_le h (available_le_park ch p q.peer pending)

theorem not_closes_of_sends (ch : Channel M) {r : Side × Option M}
    (h : pt.sends = some r) (p : Side) : ¬ Closes ch pt p := by
  rintro ⟨rfl, -⟩
  cases h

theorem not_closes_of_receives (ch : Channel M)
    (h : pt.receives = some d) (p : Side) : ¬ Closes ch pt p := by
  rintro ⟨rfl, -⟩
  cases h

theorem registerSender_holder (ch : Channel M) (p : Side) (task : TaskId) {q : Post}
    (hq : q ≠ .sender p) : (ch.registerSender p task).holder q = ch.holder q := by
  rcases q with d | r
  · rfl
  · have hne : r ≠ p := fun h => hq (congrArg Post.sender h)
    exact update_of_ne hne ..

/-- Registering as a sender writes over the sender recorded there, and over nothing else. -/
theorem park_registerSender_holder (ch : Channel M) (p : Side) (task : TaskId) (pending : Option M)
    {q : Post} (hq : q ≠ .sender p) :
    ((ch.park p pending).2.registerSender p task).holder q = ch.holder q := by
  rw [registerSender_holder _ p task hq]
  rcases q with d | r
  · exact congrFun (ch.park_fields p pending).2.2.1 d
  · exact congrFun (ch.park_fields p pending).2.2.2.1 r

section

variable {ch : Channel M} {task : TaskId} {expired : Bool} {pt : Point M} {p : Side} {pending : Option M}

/-- The message is handed to the receiver that is recorded. -/
theorem Handles.delivered (hpt : ∀ r, ¬ Closes ch pt r) (o : Outcome M) (ready : Option Side) :
    Handles ch task expired pt (.ret o (ch.deliver p pending).1.toList ready)
      (some (ch.deliver p pending).2) := by
  have hwoken : ∀ u, ch.waiters p.peer = some u → u ∈ (ch.deliver p pending).1.toList := by
    intro u hu
    rw [(ch.deliver_fields p pending).1]
    exact Option.mem_toList.mpr hu
  refine .stays (ch.deliver_fields p pending).2.1 hpt ?_ (fun _ _ _ h => (nomatch h)) ?_ ?_
  · intro q u hu
    rcases q with d | r
    · by_cases hd : d = p.peer
      · subst hd
        exact .inr (.inl (hwoken u hu))
      · refine .inl ?_
        show (ch.deliver p pending).2.waiters d = some u
        rw [(ch.deliver_fields p pending).2.2.1, update_of_ne hd]
        exact hu
    · refine .inl ?_
      show (ch.deliver p pending).2.senderWaiters r = some u
      rw [(ch.deliver_fields p pending).2.2.2.1]
      exact hu
  · intro d u hlt hu
    by_cases hd : d = p.peer
    · subst hd
      exact hwoken u hu
    · rw [available_deliver ch pending hd] at hlt
      exact absurd hlt (Nat.lt_irrefl _)
  · intro r u hlt _
    exact absurd hlt (Nat.not_lt.mpr (available_le_deliver ch p r.peer pending))

/-- A send that registers and sees that its time is over. -/
theorem Handles.sendExpired (hpt : ∀ r, ¬ Closes ch pt r)
    (hreg : pt.registers ch expired = some (.sender p)) (o : Outcome M) :
    Handles ch task expired pt (.ret o [] none)
      (some (((ch.park p pending).2.registerSender p task).clearSlot p)) := by
  refine .stays ((Channel.clearSlot_fields _ p).2.1.trans (ch.park_fields p pending).2.1) hpt ?_
    (fun _ _ _ h => (nomatch h)) ?_ ?_
  · intro q u hu
    by_cases hq : q = .sender p
    · exact .inr (.inr (hq ▸ hreg))
    · refine .inl ?_
      rw [← hu, ← park_registerSender_holder ch p task pending hq]
      rcases q with d | r
      · exact congrFun (Channel.clearSlot_fields _ p).2.2.1 d
      · exact congrFun (Channel.clearSlot_fields _ p).2.2.2.1 r
  · intro d u hlt
    exact absurd hlt (Nat.not_lt.mpr (available_expired ch p d task pending))
  · intro r u hlt _
    rw [available_expired_lt hlt]
    exact .inr (.inl hreg)

/-- A send that parks its message and waits. -/
theorem Handles.sendWaits (hpt : ∀ r, ¬ Closes ch pt r) (hopen : ch.shut p = false)
    (hacc : ch.accepts p = false) (hreg : pt.registers ch expired = some (.sender p)) {next : Point M}
    (hpost : next.post = some (.sender p)) (ready : Option Side) :
    Handles ch task expired pt (.wait ready next)
      (some ((ch.park p pending).2.registerSender p task)) := by
  refine .stays (ch.park_fields p pending).2.1 hpt ?_ ?_ ?_ ?_
  · intro q u hu
    by_cases hq : q = .sender p
    · exact .inr (.inr (hq ▸ hreg))
    · exact .inl ((park_registerSender_holder ch p task pending hq).trans hu)
  · intro ready next q hwait hq
    obtain ⟨-, rfl⟩ := Verdict.wait.inj hwait
    obtain rfl := Option.some.inj (hpost.symm.trans hq)
    refine ⟨update_self .., fun r hr => ?_⟩
    obtain rfl := Post.sender.inj hr
    exact hopen
  · intro d u hlt hu
    rw [park_available_lt hacc hlt] at hu
    cases hu
  · intro r u hlt _
    exact absurd hlt (Nat.not_lt.mpr (available_le_park ch p r.peer pending))

theorem Handles.send (hs : pt.sends = some (p, pending))
    (hstep : SendStep ch task expired pt p pending v ch') :
    Handles ch task expired pt v (some ch') := by
  have hpt := not_closes_of_sends ch hs
  have hleave : ∀ {v : Verdict M}, (∀ ready next, v ≠ .wait ready next) →
      Handles ch task expired pt v (some ch) := fun hv =>
    .same rfl rfl rfl hpt hv (fun _ => Nat.le_refl _) fun _ h => absurd h (Nat.lt_irrefl _)
  cases hstep with
  | refused => exact hleave nofun
  | found => exact hleave nofun
  | goes => exact hleave nofun
  | closed _ _ hshut =>
    refine .same (by simp) (by simp) (by simp) hpt nofun (available_clearSlot_le ch p) ?_
    intro q hlt
    rw [available_clearSlot_lt _ hlt]
    exact hshut
  | delivered => exact .delivered hpt _ _
  | expired _ _ _ _ hreg => exact .sendExpired hpt hreg _
  | waits hopen hacc _ _ hpost hreg => exact .sendWaits hpt hopen hacc hreg hpost _

end

theorem mem_wakeSender {u : TaskId} (h : ch.senderWaiters p = some u)
    (wasFull : Bool) : u ∈ (ch.wakeSender p wasFull).1 := by
  unfold Channel.wakeSender
  split
  · exact List.mem_append_left _ (Option.mem_toList.mpr h)
  · exact Option.mem_toList.mpr h

/-- Taking a message frees room only on the side it came from. -/
theorem takeMessage_available {x : M}
    (h : ch.takeMessage d = some (x, ch')) (e : Side) :
    ch'.available e ≤ ch.available e ∧ (ch'.available e < ch.available e → e = d) := by
  have hsame : ∀ ch₁ : Channel M, e ≠ d → ch₁.queues e = ch.queues e →
      ch₁.rendezvousSlots e.peer = ch.rendezvousSlots e.peer →
      ch₁.available e ≤ ch.available e ∧ (ch₁.available e < ch.available e → e = d) := by
    intro ch₁ _ hq hslot
    have heq : ch₁.available e = ch.available e := by rw [Channel.available, hq, hslot]; rfl
    exact ⟨heq.le, fun hlt => absurd hlt (heq ▸ Nat.lt_irrefl _)⟩
  unfold Channel.takeMessage at h
  split at h
  · split at h
    · obtain ⟨-, rfl⟩ := Prod.mk.inj (Option.some.inj h)
      by_cases hed : e = d
      · subst hed
        refine ⟨Nat.add_le_add_left ?_ _, fun _ => rfl⟩
        show (update ch.rendezvousSlots e.peer none e.peer).toList.length ≤ _
        rw [update_self]
        exact Nat.zero_le _
      · refine hsame _ hed rfl ?_
        exact update_of_ne (fun hpeer => hed (Side.peer_inj.mp hpeer)) ..
    · cases h
  · split at h
    · next y rest hq =>
        obtain ⟨-, rfl⟩ := Prod.mk.inj (Option.some.inj h)
        by_cases hed : e = d
        · subst hed
          refine ⟨Nat.add_le_add_right ?_ _, fun _ => rfl⟩
          show (update ch.queues e rest e).length ≤ _
          rw [update_self, hq]
          exact Nat.le_succ _
        · exact hsame _ hed (update_of_ne hed ..) rfl
    · cases h

theorem wakeSender_available (ch : Channel M) (p : Side) (wasFull : Bool) (d : Side) :
    (ch.wakeSender p wasFull).2.available d = ch.available d := by
  rw [Channel.available, (ch.wakeSender_fields p wasFull).1,
    (ch.wakeSender_fields p wasFull).2.2.2.2.2]
  rfl

/-- A receive that takes a message wakes the sender that waits for the room. -/
theorem Handles.took {ch ch₀ : Channel M}
    (hpt : ∀ r, ¬ Closes ch pt r) {x : M} (htake : ch.takeMessage d = some (x, ch₀)) (wasFull : Bool)
    (o : Outcome M) (ready : Option Side) :
    Handles ch task expired pt (.ret o (ch₀.wakeSender d.peer wasFull).1 ready)
      (some (ch₀.wakeSender d.peer wasFull).2) := by
  rcases takeMessage_fields htake with ⟨hclosed, hwaiters, hsenders, -⟩
  rcases ch₀.wakeSender_fields d.peer wasFull with ⟨-, hclosed', hwaiters', hsenders', -⟩
  refine .stays (hclosed'.trans hclosed) hpt ?_ (fun _ _ _ h => (nomatch h)) ?_ ?_
  · intro q u hu
    rcases q with e | r
    · refine .inl ?_
      show (ch₀.wakeSender d.peer wasFull).2.waiters e = some u
      rw [hwaiters', hwaiters]
      exact hu
    · by_cases hrd : r = d.peer
      · subst hrd
        exact .inr (.inl (mem_wakeSender ((congrFun hsenders _).trans hu) wasFull))
      · refine .inl ?_
        show (ch₀.wakeSender d.peer wasFull).2.senderWaiters r = some u
        rw [hsenders', update_of_ne hrd, hsenders]
        exact hu
  · intro e u hlt
    rw [wakeSender_available] at hlt
    exact absurd hlt (Nat.not_lt.mpr (takeMessage_available htake e).1)
  · intro r u hlt hu
    rw [wakeSender_available] at hlt
    have hrd : r = d.peer := Side.peer_eq_iff.mp ((takeMessage_available htake r.peer).2 hlt)
    subst hrd
    exact .inl (mem_wakeSender ((congrFun hsenders _).trans hu) wasFull)

theorem Handles.receive (hr : pt.receives = some d)
    (hstep : RecvStep ch task expired pt d v ch') : Handles ch task expired pt v (some ch') := by
  have hpt := not_closes_of_receives ch hr
  have hleave : ∀ {v : Verdict M}, (∀ ready next, v ≠ .wait ready next) →
      Handles ch task expired pt v (some ch) := fun hv =>
    .same rfl rfl rfl hpt hv (fun _ => Nat.le_refl _) fun _ h => absurd h (Nat.lt_irrefl _)
  cases hstep with
  | closed => exact hleave nofun
  | nothing => exact hleave nofun
  | goes => exact hleave nofun
  | got htake wasFull => exact .took hpt htake wasFull _ _
  | waits htake hopen hreg hnext =>
    refine .stays rfl hpt ?_ ?_ (fun _ _ hlt => absurd hlt (Nat.lt_irrefl _))
      fun _ _ hlt => absurd hlt (Nat.lt_irrefl _)
    · intro q u hu
      rcases q with e | r
      · by_cases hed : e = d
        · subst hed
          exact .inr (.inr hreg)
        · exact .inl ((update_of_ne hed ..).trans hu)
      · exact .inl hu
    · intro ready next q hwait hq
      obtain ⟨-, rfl⟩ := Verdict.wait.inj hwait
      have hpost : q = .receiver d := by
        rcases hnext with rfl | rfl <;> exact (Option.some.inj hq).symm
      subst hpost
      exact ⟨update_self .., fun p hp => (nomatch hp)⟩

/-- The tasks recorded on the other end are woken when an end closes. -/
theorem mem_shutDown {q : Post} {u : TaskId} (hq : q.side = p.peer)
    (hu : ch.holder q = some u) : u ∈ (ch.shutDown p).1 := by
  rcases q with d | r
  · obtain rfl : d = p.peer := hq
    exact List.mem_append_left _ (List.mem_append_left _ (Option.mem_toList.mpr hu))
  · obtain rfl : r = p.peer := hq
    exact List.mem_append_left _ (List.mem_append_right _ (Option.mem_toList.mpr hu))

theorem shutDown_available_le (ch : Channel M) (p d : Side) :
    (ch.shutDown p).2.available d ≤ ch.available d := by
  refine Nat.add_le_add_left ?_ _
  show ((if ch.sync then update ch.rendezvousSlots p none else ch.rendezvousSlots)
    d.peer).toList.length ≤ _
  split
  · by_cases hd : d.peer = p
    · rw [hd, update_self]
      exact Nat.zero_le _
    · rw [update_of_ne hd]
  · exact Nat.le_refl _

theorem shutDown_available_lt {p r : Side}
    (h : (ch.shutDown p).2.available r.peer < ch.available r.peer) : r = p := by
  by_contra hne
  have heq : (ch.shutDown p).2.available r.peer = ch.available r.peer := by
    show _ + ((if ch.sync then update ch.rendezvousSlots p none else ch.rendezvousSlots)
      r.peer.peer).toList.length = _ + _
    rw [Side.peer_peer]
    split
    · rw [update_of_ne hne]
      rfl
    · rfl
  rw [heq] at h
  exact Nat.lt_irrefl _ h

/-- A side is the closing one, or the one across. -/
theorem post_side_cases (p : Side) (q : Post) : q.side = p ∨ q.side = p.peer :=
  Side.eq_or_eq_peer p q.side

theorem Handles.holder {channel : Option (Channel M)}
    (hstep : HolderStep ch pt v channel) : Handles ch task expired pt v channel := by
  cases hstep with
  | count r refs hkeep =>
    refine .same rfl rfl rfl (fun p hcloses => ?_) nofun (fun _ => Nat.le_refl _)
      fun _ h => absurd h (Nat.lt_irrefl _)
    have hlast := hcloses.2
    rw [hkeep p hcloses.1] at hlast
    cases hlast
  | @last p hpt hlast hpeer =>
    have hcloses : Closes ch pt p := ⟨hpt, hlast⟩
    have honly : ∀ {r}, Closes ch pt r → r = p := by
      rintro r ⟨hptr, -⟩
      exact Point.close.inj (hptr.symm.trans hpt)
    refine ⟨?_, fun h => (nomatch h), ?_, ?_, ?_, ?_, ?_⟩
    · intro q u hu
      rcases post_side_cases p q with hq | hq
      · exact .inr (.inr (.inr (hq ▸ hcloses)))
      · exact .inr (.inl (mem_shutDown hq hu))
    · intro ch₁ r hch₁ _
      cases hch₁
      rcases Side.eq_or_eq_peer p r with rfl | rfl
      · exact .inr (.inl hcloses)
      · rw [Side.peer_peer]
        exact .inr (.inr hcloses)
    · intro r q u hr' hq hu
      obtain rfl := honly hr'
      exact mem_shutDown hq hu
    · intro r hopen hall
      have hclosing := hall _ rfl
      change update ch.closed p true r = true at hclosing
      by_cases hrp : r = p
      · exact hrp ▸ hcloses
      · rw [update_of_ne hrp, hopen] at hclosing
        cases hclosing
    · intro ch₁ e u hch₁ hlt
      cases hch₁
      exact absurd hlt (Nat.not_lt.mpr (shutDown_available_le ch p e))
    · intro ch₁ r u hch₁ hlt _
      cases hch₁
      exact .inr (.inr (.inr (shutDown_available_lt hlt ▸ hcloses)))
  | @gone p hpt hlast hpeer =>
    have hcloses : Closes ch pt p := ⟨hpt, hlast⟩
    have honly : ∀ {r}, Closes ch pt r → r = p := by
      rintro r ⟨hptr, -⟩
      exact Point.close.inj (hptr.symm.trans hpt)
    refine ⟨?_, fun h => (nomatch h), fun h => (nomatch h), ?_, ?_, fun h => (nomatch h),
      fun h => (nomatch h)⟩
    · intro q u hu
      rcases post_side_cases p q with hq | hq
      · exact .inr (.inr (.inr (hq ▸ hcloses)))
      · exact .inr (.inl (mem_shutDown hq hu))
    · intro r q u hr' hq hu
      obtain rfl := honly hr'
      exact mem_shutDown hq hu
    · intro r hopen _
      rcases Side.eq_or_eq_peer p r with rfl | rfl
      · exact hcloses
      · rw [hpeer] at hopen
        cases hopen

/-- Whatever the point, the section handles the recorded tasks so. -/
theorem handles (ch : Channel M) (task : TaskId) (expired : Bool) (pt : Point M) :
    Handles ch task expired pt (pt.onChannel ch task expired).1 (pt.onChannel ch task expired).2 := by
  rcases hs : pt.sends with _ | ⟨p, pending⟩
  · rcases hr : pt.receives with _ | d
    · exact .holder (holderStep _ _ _ hs hr)
    · rcases recvStep ch task expired hr with ⟨v, ch', hv, hstep⟩
      rw [hv]
      exact .receive hr hstep
  · rcases sendStep ch task expired hs with ⟨v, ch', hv, hstep⟩
    rw [hv]
    exact .send hs hstep

end SlateOS.Ipc
