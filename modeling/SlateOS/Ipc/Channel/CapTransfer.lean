/-
# SlateOS.Ipc.Channel.CapTransfer -- sending capabilities with a message

`send_with_caps` takes the capabilities out of the sender's table before it knows whether the channel
accepts the message. A refusal by the channel drops the message, and the capabilities with it.
-/
import SlateOS.Ipc.Channel.Model
import SlateOS.Cap.TableRuns
import Mathlib.Data.List.Dedup

namespace SlateOS.Ipc.CapTransfer

open Kernel Ipc Cap Cap.Table

/-! ## Messages -/

/-- `MAX_MESSAGE_SIZE`. -/
def maxMessageSize : Nat := 64 * 1024

/-- `MAX_CAPS_PER_MESSAGE`. -/
def maxCapsPerMessage : Nat := 64

/-- `TransferredCap`. -/
structure TransferredCap where
  resourceType : ResourceType
  resourceId : Nat
  rights : Rights
  deriving DecidableEq

/-- `Message`. -/
structure Message where
  data : List UInt8
  caps : List TransferredCap
  deriving DecidableEq

/-- `Message::from_bytes_and_caps`. -/
def Message.fromBytesAndCaps (data : List UInt8) (caps : List TransferredCap) :
    KernelResult Message :=
  if data.length > maxMessageSize then .error .messageTooLarge
  else if caps.length > maxCapsPerMessage then .error .invalidArgument
  else .ok ⟨data, caps⟩

/-! ## The call -/

/-- What the call reads and changes: the capability table of each process, and the channel. -/
structure World where
  processes : Nat → Option CapTable
  channel : Option (Channel Message)

def World.setTable (w : World) (pid : Nat) (table : CapTable) : World :=
  { w with processes := Function.update w.processes pid (some table) }

/-- `pcb::remove_caps`. -/
def removeCaps (w : World) (pid : Nat) (handles : List Nat) : KernelResult (List CapEntry) × World :=
  match w.processes pid with
  | none => (.error .noSuchProcess, w)
  | some table =>
    match table.removeCaps handles with
    | .error e => (.error e, w)
    | .ok (entries, table') =>
      (.ok entries, w.setTable pid table')

/-- `send`, up to the wakes. -/
def send (w : World) (p : Side) (msg : Message) : KernelResult Unit × World :=
  match w.channel with
  | none => (.error .invalidHandle, w)
  | some ch =>
    match ch.sendOrReturn p msg with
    | (.ok _, ch') => (.ok (), { w with channel := some ch' })
    | (.error e, ch') => (.error e, { w with channel := some ch' })

/-- An entry as it travels. -/
def transfer (e : CapEntry) : TransferredCap := ⟨e.resourceType, e.resourceId, e.rights⟩

/-- `send_with_caps`. -/
def sendWithCaps (w : World) (p : Side) (data : List UInt8) (capHandles : List Nat)
    (senderPid : Nat) : KernelResult Unit × World :=
  if capHandles.length > maxCapsPerMessage then (.error .invalidArgument, w)
  else if data.length > maxMessageSize then (.error .messageTooLarge, w)
  else
    -- Phase 1: the capabilities leave the table.
    let removed := if capHandles.isEmpty then (.ok [], w) else removeCaps w senderPid capHandles
    match removed with
    | (.error e, w') => (.error e, w')
    | (.ok entries, w') =>
      -- Phase 2: the message is built and sent.
      match Message.fromBytesAndCaps data (entries.map transfer) with
      | .error e => (.error e, w')
      | .ok msg => send w' p msg

/-! ## All or nothing -/

/-- The entry a handle of a process names. -/
def World.entryOf (w : World) (pid h : Nat) : Option CapEntry :=
  (w.processes pid).bind fun t => t.entries[h]?

/-- The message is the one the channel now holds for the peer of `p`. -/
def Holds (w w' : World) (p : Side) (msg : Message) : Prop :=
  ∃ ch ch', w.channel = some ch ∧ w'.channel = some ch' ∧
    if ch.sync then ch'.rendezvousSlots = Function.update ch.rendezvousSlots p (some msg)
    else ch'.queues = Function.update ch.queues p.peer (ch.queues p.peer ++ [msg])

/-- Every listed capability has left the sender and travels in the one message, which carries no
others. -/
def Moved (w w' : World) (p : Side) (data : List UInt8) (capHandles : List Nat) (pid : Nat) : Prop :=
  (∀ h, w'.entryOf pid h = if h ∈ capHandles then none else w.entryOf pid h) ∧
  ∃ msg, Holds w w' p msg ∧ msg.data = data ∧
    (∀ h ∈ capHandles, ∃ e, w.entryOf pid h = some e ∧ transfer e ∈ msg.caps) ∧
    msg.caps.Perm (capHandles.dedup.filterMap fun h => (w.entryOf pid h).map transfer)

/-- What the call leaves is what its result says: after an error the sender has what it had, after
`Ok` the capabilities are in the message. -/
def AllOrNothing (w : World) (p : Side) (data : List UInt8) (capHandles : List Nat) (pid : Nat) :
    Prop :=
  match (sendWithCaps w p data capHandles pid).1 with
  | .error _ => ∀ h, (sendWithCaps w p data capHandles pid).2.entryOf pid h = w.entryOf pid h
  | .ok _ => Moved w (sendWithCaps w p data capHandles pid).2 p data capHandles pid

/-- The channel takes a message from this side: it exists, both ends are open, and there is room, or a
receiver waits. -/
def Accepts (w : World) (p : Side) : Prop :=
  ∃ ch, w.channel = some ch ∧ ch.shut p = false ∧ ch.accepts p = true

/-- The capabilities stay in the sender's table whatever the channel says: there are none, the call is
refused for its size, or a handle names no valid capability. -/
def Untaken (w : World) (data : List UInt8) (capHandles : List Nat) (pid : Nat) : Prop :=
  capHandles = [] ∨ maxCapsPerMessage < capHandles.length ∨ maxMessageSize < data.length ∨
  ∃ h ∈ capHandles, ∀ e, w.entryOf pid h = some e → e.valid = false

/-! ## Taking capabilities out of a table -/

theorem lookupAll_error_iff (t : CapTable) (hs : List Nat) :
    (∃ err, t.lookupAll hs = .error err) ↔
      ∃ h ∈ hs, ∀ e, t.entries[h]? = some e → e.valid = false := by
  induction hs with
  | nil =>
    constructor
    · rintro ⟨err, h⟩
      cases h
    · rintro ⟨h, hmem, -⟩
      cases hmem
  | cons k hs ih =>
    rcases hk : t.lookup k with err | e
    · have hleft : ∃ err, t.lookupAll (k :: hs) = .error err := ⟨err, by rw [CapTable.lookupAll, hk]⟩
      refine ⟨fun _ => ⟨k, List.mem_cons_self, ?_⟩, fun _ => hleft⟩
      intro e he
      rcases Bool.eq_false_or_eq_true e.valid with hv | hv
      · rw [CapTable.lookup_ok.mpr ⟨he, hv⟩] at hk
        cases hk
      · exact hv
    · have hstep : t.lookupAll (k :: hs) = t.lookupAll hs := by rw [CapTable.lookupAll, hk]
      rw [hstep, ih]
      have hvalid := CapTable.lookup_ok.mp hk
      constructor
      · rintro ⟨h, hmem, hbad⟩
        exact ⟨h, List.mem_cons_of_mem _ hmem, hbad⟩
      · rintro ⟨h, hmem, hbad⟩
        rcases List.mem_cons.mp hmem with rfl | hmem
        · exact absurd (hbad e hvalid.1) (by rw [hvalid.2]; decide)
        · exact ⟨h, hmem, hbad⟩

/-- A list without repetition, read through a function that forgets one of its items. -/
theorem filterMap_forget {β : Type} (f : Nat → Option β) {l : List Nat} (hl : l.Nodup) {k : Nat}
    {b : β} (hk : f k = some b) (hmem : k ∈ l) :
    (l.filterMap f).Perm (b :: l.filterMap fun h => if k = h then none else f h) := by
  have hperm := List.perm_cons_erase hmem
  have hnot : ∀ h ∈ l.erase k, k ≠ h := by
    rintro h hh rfl
    exact (List.Nodup.mem_erase_iff hl).mp hh |>.1 rfl
  have hrest : (l.erase k).filterMap (fun h => if k = h then none else f h) =
      (l.erase k).filterMap f := by
    refine List.filterMap_congr fun h hh => ?_
    rw [if_neg (hnot h hh)]
  calc (l.filterMap f).Perm ((k :: l.erase k).filterMap f) := hperm.filterMap f
    _ = b :: (l.erase k).filterMap f := List.filterMap_cons_some hk
    _ = b :: (l.erase k).filterMap (fun h => if k = h then none else f h) := by rw [hrest]
    _ |>.Perm (b :: l.filterMap fun h => if k = h then none else f h) := by
        refine List.Perm.cons b ?_
        have hboth := hperm.filterMap fun h => if k = h then none else f h
        rw [List.filterMap_cons_none (by exact if_pos rfl)] at hboth
        exact hboth.symm

/-- What is taken out is the entry of each listed handle, once. -/
theorem removeAll_perm (t : CapTable) (hs : List Nat) :
    (t.removeAll hs).1.Perm (hs.dedup.filterMap fun h => t.entries[h]?) := by
  induction hs generalizing t with
  | nil => exact List.Perm.refl _
  | cons k hs ih =>
    have hih := ih (t.remove k).2
    have hentries : (fun h : Nat => (t.remove k).2.entries[h]?) =
        fun h => if k = h then none else t.entries[h]? := by
      funext h
      exact CapTable.getElem?_erase t.entries k h
    rw [hentries] at hih
    rcases hk : t.entries[k]? with _ | e
    · have hstep : (t.removeAll (k :: hs)).1 = ((t.remove k).2.removeAll hs).1 := by
        simp [CapTable.removeAll, CapTable.remove, hk]
      have hsame : (fun h : Nat => if k = h then none else t.entries[h]?) =
          fun h => t.entries[h]? := by
        funext h
        by_cases heq : k = h
        · rw [if_pos heq, ← heq, hk]
        · rw [if_neg heq]
      rw [hstep]
      rw [hsame] at hih
      by_cases hmem : k ∈ hs
      · rw [List.dedup_cons_of_mem hmem]
        exact hih
      · rw [List.dedup_cons_of_notMem hmem, List.filterMap_cons_none hk]
        exact hih
    · have hstep : (t.removeAll (k :: hs)).1 = e :: ((t.remove k).2.removeAll hs).1 := by
        simp [CapTable.removeAll, CapTable.remove, hk]
      rw [hstep]
      by_cases hmem : k ∈ hs
      · rw [List.dedup_cons_of_mem hmem]
        exact (hih.cons e).trans
          (filterMap_forget _ hs.nodup_dedup hk (List.mem_dedup.mpr hmem)).symm
      · rw [List.dedup_cons_of_notMem hmem, List.filterMap_cons_some hk]
        refine List.Perm.cons e (hih.trans (List.Perm.of_eq ?_))
        refine List.filterMap_congr fun h hh => ?_
        have hne : k ≠ h := by
          rintro rfl
          exact hmem (List.mem_dedup.mp hh)
        exact if_neg hne

theorem removeAll_length_le (t : CapTable) (hs : List Nat) :
    (t.removeAll hs).1.length ≤ hs.length :=
  calc (t.removeAll hs).1.length
      = (hs.dedup.filterMap fun h => t.entries[h]?).length := (removeAll_perm t hs).length_eq
    _ ≤ hs.dedup.length := List.length_filterMap_le _ _
    _ ≤ hs.length := hs.dedup_sublist.length_le

/-! ## The steps of the call -/

theorem send_of_accepts {w : World} {p : Side} (h : Accepts w p) (msg : Message) :
    ∃ w', send w p msg = (.ok (), w') ∧ w'.processes = w.processes ∧ Holds w w' p msg := by
  rcases h with ⟨ch, hch, hopen, hacc⟩
  have hsend : ch.sendOrReturn p msg =
      (.ok (ch.deliver p (some msg)).1, (ch.deliver p (some msg)).2) := by
    simp [Channel.sendOrReturn, hopen, hacc]
  refine ⟨{ w with channel := some (ch.deliver p (some msg)).2 }, ?_, rfl, ch, _, hch, rfl, ?_⟩
  · simp only [send, hch, hsend]
  · rcases Bool.eq_false_or_eq_true ch.sync with hsync | hsync
    · rw [if_pos hsync]
      exact ch.deliver_slots p hsync msg
    · rw [if_neg (by rw [hsync]; decide)]
      exact ch.deliver_queues p hsync msg

theorem send_of_not_accepts {w : World} {p : Side} (h : ¬ Accepts w p) (msg : Message) :
    ∃ e w', send w p msg = (.error e, w') ∧ w'.processes = w.processes := by
  unfold send
  rcases hch : w.channel with _ | ch
  · exact ⟨_, w, rfl, rfl⟩
  · rcases Bool.eq_false_or_eq_true (ch.shut p) with hshut | hopen
    · exact ⟨.channelClosed, { w with channel := some ch }, by simp [Channel.sendOrReturn, hshut], rfl⟩
    · have hacc : ch.accepts p = false :=
        Bool.eq_false_iff.mpr fun hacc => h ⟨ch, hch, hopen, hacc⟩
      exact ⟨.channelFull, { w with channel := some ch },
        by simp [Channel.sendOrReturn, hopen, hacc], rfl⟩

/-- Where no capability is taken, the call is refused before the send, or sends none. -/
theorem sendWithCaps_untaken {w : World} {data : List UInt8} {capHandles : List Nat} {pid : Nat}
    (h : Untaken w data capHandles pid) (p : Side) :
    (∃ e, sendWithCaps w p data capHandles pid = (.error e, w)) ∨
    (capHandles = [] ∧ sendWithCaps w p data capHandles pid = send w p ⟨data, []⟩) := by
  unfold sendWithCaps
  by_cases hlen : capHandles.length > maxCapsPerMessage
  · exact .inl ⟨_, by rw [if_pos hlen]⟩
  · by_cases hdata : data.length > maxMessageSize
    · exact .inl ⟨_, by rw [if_neg hlen, if_pos hdata]⟩
    · rw [if_neg hlen, if_neg hdata]
      rcases h with rfl | hlen' | hdata' | ⟨k, hk, hbad⟩
      · exact .inr ⟨rfl, by simp [Message.fromBytesAndCaps, hdata, maxCapsPerMessage]⟩
      · exact absurd hlen' hlen
      · exact absurd hdata' hdata
      · refine .inl ?_
        have hne : capHandles.isEmpty = false := by
          cases capHandles with
          | nil => cases hk
          | cons _ _ => rfl
        rcases hproc : w.processes pid with _ | table
        · exact ⟨.noSuchProcess, by simp [hne, removeCaps, hproc]⟩
        · have hlook : ∃ err, table.lookupAll capHandles = .error err := by
            refine (lookupAll_error_iff table capHandles).mpr ⟨k, hk, fun e he => hbad e ?_⟩
            simp [World.entryOf, hproc, he]
          rcases hlook with ⟨err, hlook⟩
          exact ⟨err, by simp [hne, removeCaps, hproc, CapTable.removeCaps, hlook]⟩

/-- Otherwise the capabilities are out of the table when the message is sent. -/
theorem sendWithCaps_taken {w : World} {data : List UInt8} {capHandles : List Nat} {pid : Nat}
    (h : ¬ Untaken w data capHandles pid) (p : Side) : ∃ table,
    w.processes pid = some table ∧ (∀ k ∈ capHandles, ∃ e, table.entries[k]? = some e) ∧
    sendWithCaps w p data capHandles pid =
      send (w.setTable pid (table.removeAll capHandles).2) p
        ⟨data, (table.removeAll capHandles).1.map transfer⟩ := by
  simp only [Untaken, not_or, Nat.not_lt, not_exists, not_and] at h
  rcases h with ⟨hne, hlen, hdata, hgood⟩
  have hvalid : ∀ k ∈ capHandles, ∃ e, w.entryOf pid k = some e ∧ e.valid = true := by
    intro k hk
    have hex := hgood k hk
    push Not at hex
    rcases hex with ⟨e, he, hv⟩
    exact ⟨e, he, Bool.eq_true_of_not_eq_false hv⟩
  obtain ⟨k₀, hk₀⟩ := List.exists_mem_of_ne_nil _ hne
  rcases hproc : w.processes pid with _ | table
  · rcases hvalid k₀ hk₀ with ⟨e, he, -⟩
    simp [World.entryOf, hproc] at he
  · have hentry : ∀ k, w.entryOf pid k = table.entries[k]? := by
      intro k
      simp [World.entryOf, hproc]
    have hlook : table.lookupAll capHandles = .ok () := by
      rcases hl : table.lookupAll capHandles with err | ⟨⟩
      · rcases (lookupAll_error_iff table capHandles).mp ⟨err, hl⟩ with ⟨k, hk, hbad⟩
        rcases hvalid k hk with ⟨e, he, hv⟩
        rw [hentry] at he
        rw [hbad e he] at hv
        cases hv
      · rfl
    have hcaps : ((table.removeAll capHandles).1.map transfer).length ≤ maxCapsPerMessage := by
      rw [List.length_map]
      exact (removeAll_length_le table capHandles).trans hlen
    refine ⟨table, rfl, ?_, ?_⟩
    · intro k hk
      rcases hvalid k hk with ⟨e, he, -⟩
      exact ⟨e, hentry k ▸ he⟩
    · have hempty : capHandles.isEmpty = false := by
        rcases capHandles with _ | ⟨k, ks⟩
        · exact absurd rfl hne
        · rfl
      unfold sendWithCaps
      rw [if_neg (Nat.not_lt.mpr hlen), if_neg (Nat.not_lt.mpr hdata)]
      simp only [hempty, Bool.false_eq_true, if_false, removeCaps, hproc, CapTable.removeCaps, hlook,
        Message.fromBytesAndCaps, if_neg (Nat.not_lt.mpr hdata), if_neg (Nat.not_lt.mpr hcaps)]

theorem entryOf_of_processes {w w' : World} (h : w'.processes = w.processes) (pid k : Nat) :
    w'.entryOf pid k = w.entryOf pid k := by
  rw [World.entryOf, h]
  rfl

theorem entryOf_taken {w w' : World} {pid : Nat} {table : CapTable} {capHandles : List Nat}
    (hproc : w.processes pid = some table)
    (h : w'.processes = Function.update w.processes pid (some (table.removeAll capHandles).2))
    (k : Nat) : w'.entryOf pid k = if k ∈ capHandles then none else w.entryOf pid k := by
  rw [World.entryOf, h, Function.update_self, Option.bind_some, TableRuns.getElem?_removeAll,
    World.entryOf, hproc, Option.bind_some]
  rcases table.entries[k]? with _ | e
  · exact (ite_self none).symm
  · rfl

/-- **Capability transfer is all or nothing exactly** where no capability is taken out, or the channel
accepts the message. -/
theorem sendWithCaps_allOrNothing_iff (w : World) (p : Side) (data : List UInt8)
    (capHandles : List Nat) (pid : Nat) :
    AllOrNothing w p data capHandles pid ↔ Untaken w data capHandles pid ∨ Accepts w p := by
  by_cases hun : Untaken w data capHandles pid
  · refine iff_of_true ?_ (.inl hun)
    unfold AllOrNothing
    rcases sendWithCaps_untaken hun p with ⟨e, heq⟩ | ⟨rfl, heq⟩
    · rw [heq]
      exact fun h => rfl
    · rw [heq]
      by_cases hacc : Accepts w p
      · rcases send_of_accepts hacc ⟨data, []⟩ with ⟨w', hsend, hproc, hholds⟩
        rw [hsend]
        refine ⟨?_, ⟨data, []⟩, hholds, rfl, fun h hh => (nomatch hh), List.Perm.refl _⟩
        intro h
        rw [if_neg List.not_mem_nil]
        exact entryOf_of_processes hproc pid h
      · rcases send_of_not_accepts hacc ⟨data, []⟩ with ⟨e, w', hsend, hproc⟩
        rw [hsend]
        exact fun h => entryOf_of_processes hproc pid h
  · rcases sendWithCaps_taken hun p with ⟨table, hproc, hall, heq⟩
    have hentry : ∀ k, w.entryOf pid k = table.entries[k]? := by
      intro k
      simp [World.entryOf, hproc]
    unfold AllOrNothing
    rw [heq]
    by_cases hacc : Accepts w p
    · refine iff_of_true ?_ (.inr hacc)
      have hacc' : Accepts (w.setTable pid (table.removeAll capHandles).2) p := hacc
      rcases send_of_accepts hacc' ⟨data, (table.removeAll capHandles).1.map transfer⟩ with
        ⟨w', hsend, hproc', hholds⟩
      rw [hsend]
      have hperm : ((table.removeAll capHandles).1.map transfer).Perm
          (capHandles.dedup.filterMap fun h => (w.entryOf pid h).map transfer) := by
        have hmap := (removeAll_perm table capHandles).map transfer
        rw [List.map_filterMap] at hmap
        simpa only [hentry] using hmap
      refine ⟨fun h => entryOf_taken hproc hproc' h, _, hholds, rfl, ?_, hperm⟩
      intro h hh
      rcases hall h hh with ⟨e, he⟩
      refine ⟨e, (hentry h).trans he, hperm.mem_iff.mpr ?_⟩
      rw [List.mem_filterMap]
      exact ⟨h, List.mem_dedup.mpr hh, by rw [hentry, he]; rfl⟩
    · refine iff_of_false ?_ (not_or.mpr ⟨hun, hacc⟩)
      have hacc' : ¬ Accepts (w.setTable pid (table.removeAll capHandles).2) p := hacc
      rcases send_of_not_accepts hacc' ⟨data, (table.removeAll capHandles).1.map transfer⟩ with
        ⟨e, w', hsend, hproc'⟩
      rw [hsend]
      intro hsame
      have hne : capHandles ≠ [] := fun hnil => hun (.inl hnil)
      obtain ⟨k, hk⟩ := List.exists_mem_of_ne_nil _ hne
      rcases hall k hk with ⟨e₀, he₀⟩
      have hgone : w'.entryOf pid k = none := by
        rw [entryOf_taken hproc hproc' k, if_pos hk]
      rw [hsame k, hentry, he₀] at hgone
      cases hgone

/-- A process with one capability, and a channel whose other end is closed. -/
def closedPeer : World where
  processes pid := if pid = 1 then
      some ⟨(∅ : Std.TreeMap Nat CapEntry).insert 1 ⟨.channel, 7, .none, .none, true⟩, 2⟩ else none
  channel := some { (Channel.new : Channel Message) with closed := Function.update (fun _ => false) .one true }

/-- The send is refused, and the capability is nowhere. -/
theorem closedPeer_loses_capability : ¬ ∀ (w : World) (p : Side) (data : List UInt8)
    (capHandles : List Nat) (pid : Nat), AllOrNothing w p data capHandles pid := by
  intro hall
  have hcall := hall closedPeer .zero [] [1] 1
  have hresult : (sendWithCaps closedPeer .zero [] [1] 1).1.toOption = none := by decide +kernel
  have hafter : ((sendWithCaps closedPeer .zero [] [1] 1).2.entryOf 1 1).isSome = false := by
    decide +kernel
  have hbefore : (closedPeer.entryOf 1 1).isSome = true := by decide +kernel
  unfold AllOrNothing at hcall
  split at hcall
  · rw [hcall 1, hbefore] at hafter
    cases hafter
  · next heq =>
      rw [heq] at hresult
      cases hresult

end SlateOS.Ipc.CapTransfer
