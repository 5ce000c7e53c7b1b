/-
# SlateOS.Net.Tcp.ReceiveRuns -- what the application is given is what the peer sent

Runs of one established connection: segments that carry pieces of the peer's stream, reads, and both kinds of
shutdown. The history kept beside the connection is what has ever been appended to the receive buffer and
how much has been discarded after the read side was shut down. As long as no range is recorded in the SACK
list that the out-of-order buffer refuses, and no segment is mistaken for one half the number space away, the
history is a prefix of the peer's stream and `rcv_nxt` counts it. One refused range is enough to break this:
the buffer's zero filler is then delivered in its place.
-/
import SlateOS.Kernel.Error
import SlateOS.Net.Tcp.ReceiveSegment

namespace SlateOS.Net.Tcp

open Foundation Kernel

namespace TcpConnection

/-! ## The application's calls -/

/-- `read_up_to`: what the reader gets, and the connection after it. The window update it may send is left
out. -/
def readUpTo (c : TcpConnection) (maxBytes : Nat) : Except KernelError (List UInt8) × TcpConnection :=
  if !c.active then (.error .channelClosed, c)
  else if c.localReadClosed then (.ok [], c)
  else
    let take := min maxBytes c.rxBuffer.length
    (.ok (c.rxBuffer.take take), { c with rxBuffer := c.rxBuffer.drop take })

/-- `shutdown` for reading. -/
def shutdownRead (c : TcpConnection) : TcpConnection :=
  if c.active then { c with localReadClosed := true, rxBuffer := [] } else c

/-- The last lock section of `shutdown` for writing, given the state and `snd_nxt` its first one saw. -/
def shutdownWrite (c : TcpConnection) (seen : TcpState) (seq : Seq) : TcpConnection :=
  match seen with
  | .established => { c with state := .finWait1, sndNxt := seq + 1, localWriteClosed := true }
  | .closeWait => { c with state := .lastAck, sndNxt := seq + 1, localWriteClosed := true }
  | _ => { c with localWriteClosed := true }

end TcpConnection

/-! ## The system -/

/-- A connection and its history. -/
structure ReceiveSystem where
  conn : TcpConnection
  /-- Everything ever appended to the receive buffer. -/
  appended : List UInt8
  /-- How many bytes have been discarded since the read side was shut down. -/
  discarded : Nat

/-- What can happen. A segment comes with the position in the peer's stream that its data has. -/
inductive ReceiveAction
  | segment (a : Arrival) (pos : Nat)
  | readUpTo (maxBytes : Nat)
  | shutdownRead
  | shutdownWrite (seen : TcpState) (seq : Seq)

namespace ReceiveSystem

/-- How many bytes of the stream have been received. -/
def received (s : ReceiveSystem) : Nat := s.appended.length + s.discarded

/-- The history after a segment: what the receive buffer has gained, and, once the read side is shut down,
how far `rcv_nxt` has moved other than for the peer's FIN. -/
def afterSegment (s : ReceiveSystem) (c' : TcpConnection) : ReceiveSystem where
  conn := c'
  appended := s.appended ++ c'.rxBuffer.drop s.conn.rxBuffer.length
  discarded :=
    if s.conn.localReadClosed then
      s.discarded + ((c'.rcvNxt - s.conn.rcvNxt).toNat
        - (c'.remoteClosed && !s.conn.remoteClosed).toNat)
    else s.discarded

/-- One step. There is none when the segment's processing never returns. -/
def step (s : ReceiveSystem) : ReceiveAction → Option ReceiveSystem
  | .segment a _ => (s.conn.step a).map s.afterSegment
  | .readUpTo maxBytes => some { s with conn := (s.conn.readUpTo maxBytes).2 }
  | .shutdownRead => some { s with conn := s.conn.shutdownRead }
  | .shutdownWrite seen seq => some { s with conn := s.conn.shutdownWrite seen seq }

/-- **Stream integrity.** What has been appended is a prefix of the peer's stream, `rcv_nxt` has moved past
the SYN by exactly the bytes received (and by one for the peer's FIN), and nothing is discarded while the
read side is open. -/
structure Intact (irs : Seq) (stream : List UInt8) (s : ReceiveSystem) : Prop where
  isPrefix : s.appended <+: stream
  advanced : s.conn.rcvNxt =
    irs + 1 + BitVec.ofNat 32 (s.appended.length + s.discarded + s.conn.remoteClosed.toNat)
  kept : s.conn.localReadClosed = false → s.discarded = 0

end ReceiveSystem

/-- Arriving segments carry pieces of the peer's stream, and a FIN comes at its end. -/
def Carries (irs : Seq) (stream : List UInt8) : ReceiveAction → Prop
  | .segment a pos => a.header.Bears →
    a.header.seq = seqAt irs pos ∧ TcpConnection.PieceAt stream pos a.header.payload ∧
      (a.header.has tcpFin = true → pos + a.header.payload.length = stream.length)
  | _ => True

/-- A segment that passes the window check really lies within half the number space of the receive
position, and data out of order ends within `MAX_OOO_BUF` of it. -/
def Recordable (s : ReceiveSystem) : ReceiveAction → Prop
  | .segment a pos => a.header.Bears → s.conn.acceptable a.header = true →
    s.received + 1 < pos + 2 ^ 31 ∧ pos + a.header.payload.length < s.received + 2 ^ 31 ∧
      (s.conn.sackOk = true → s.received < pos →
        pos + a.header.payload.length ≤ s.received + maxOooBuf)
  | _ => True

instance (h : TcpHeaderView) : Decidable h.Bears :=
  inferInstanceAs (Decidable (_ ∨ _))

instance (stream : List UInt8) (p : Nat) (payload : List UInt8) :
    Decidable (TcpConnection.PieceAt stream p payload) :=
  inferInstanceAs (Decidable (_ <+: _))

instance (irs : Seq) (stream : List UInt8) (a : ReceiveAction) : Decidable (Carries irs stream a) :=
  match a with
  | .segment a _ => inferInstanceAs (Decidable (a.header.Bears → _))
  | .readUpTo _ | .shutdownRead | .shutdownWrite _ _ => inferInstanceAs (Decidable True)

instance (s : ReceiveSystem) (a : ReceiveAction) : Decidable (Recordable s a) :=
  match a with
  | .segment a _ => inferInstanceAs (Decidable (a.header.Bears → _ → _))
  | .readUpTo _ | .shutdownRead | .shutdownWrite _ _ => inferInstanceAs (Decidable True)

/-- A connection that has just been established by a peer whose SYN had number `irs`. -/
structure JustEstablished (irs : Seq) (c : TcpConnection) : Prop where
  state : c.state = .established
  rcvNxt : c.rcvNxt = irs + 1
  rxBuffer : c.rxBuffer = []
  sackBlocks : c.sackBlocks = []
  oooBuf : c.oooBuf = []
  remoteClosed : c.remoteClosed = false
  localReadClosed : c.localReadClosed = false

/-- The start of a run. -/
def ReceiveSystem.start (c : TcpConnection) : ReceiveSystem where
  conn := c
  appended := []
  discarded := 0

namespace TcpConnection

end TcpConnection

/-! ## Every run -/

/-- A prefix followed by the next bytes is a prefix. -/
theorem prefix_append_next {stream taken : List UInt8} (h : taken <+: stream) (n : Nat) :
    taken ++ (stream.drop taken.length).take n <+: stream := by
  obtain ⟨rest, rfl⟩ := h
  rw [List.drop_left, List.prefix_append_right_inj]
  exact List.take_prefix n rest

namespace ReceiveSystem

variable {irs : Seq} {stream : List UInt8}

/-- The invariant of a run. -/
structure Inv (irs : Seq) (stream : List UInt8) (s : ReceiveSystem) : Prop where
  conn : s.conn.Received irs stream s.received
  isPrefix : s.appended <+: stream
  kept : s.conn.localReadClosed = false → s.discarded = 0

variable {s : ReceiveSystem}

theorem Inv.intact (h : s.Inv irs stream) : s.Intact irs stream :=
  ⟨h.isPrefix, h.conn.rcvNxt, h.kept⟩

theorem Inv.start {c : TcpConnection} (hc : JustEstablished irs c) : (start c).Inv irs stream where
  conn :=
    { rcvNxt := by
        show c.rcvNxt = seqAt irs (0 + c.remoteClosed.toNat)
        rw [hc.rcvNxt, hc.remoteClosed]
        exact (seqAt_zero irs).symm
      le := Nat.zero_le _
      opened := by
        show c.state ≠ _ ∧ c.state ≠ _
        rw [hc.state]
        exact ⟨by simp, by simp⟩
      stage := fun _ => .inl ⟨hc.remoteClosed,
        { rcvNxt := hc.rcvNxt.trans (seqAt_zero irs).symm
          le := Nat.zero_le _
          base := fun hne => absurd hc.oooBuf hne
          short := by
            show c.oooBuf.length ≤ _
            rw [hc.oooBuf]
            exact Nat.zero_le _
          blocks := by
            show ∀ b ∈ c.sackBlocks, _
            rw [hc.sackBlocks]
            simp }⟩ }
  isPrefix := List.nil_prefix
  kept := fun _ => rfl

/-- The history keeps count of an outcome. -/
theorem Inv.afterSegment (hs : s.Inv irs stream) {r' : Nat} {c' : TcpConnection}
    (hout : s.conn.Outcome irs stream s.received r' c') : (s.afterSegment c').Inv irs stream := by
  have hgained := hout.gained
  have hle := hout.le
  have hnear := hout.near
  have hr' := hout.received.le
  cases hclosed : s.conn.localReadClosed with
  | false =>
    have hkept := hs.kept hclosed
    have hreceived : s.received = s.appended.length := by
      unfold received
      omega
    rw [hclosed, hreceived] at hgained
    simp only [Bool.false_eq_true, if_false] at hgained
    have happended : (s.afterSegment c').appended
        = s.appended ++ (stream.drop s.appended.length).take (r' - s.appended.length) := by
      unfold ReceiveSystem.afterSegment
      rw [hgained]
    have hdiscarded : (s.afterSegment c').discarded = 0 := by
      unfold ReceiveSystem.afterSegment
      simp [hclosed, hkept]
    have hcount : (s.afterSegment c').received = r' := by
      unfold received
      rw [happended, hdiscarded, List.length_append, List.length_take, List.length_drop]
      omega
    refine ⟨?_, ?_, fun _ => hdiscarded⟩
    · rw [hcount]
      exact hout.received
    · rw [happended]
      exact prefix_append_next hs.isPrefix _
  | true =>
    rw [hclosed] at hgained
    simp only [if_true] at hgained
    have happended : (s.afterSegment c').appended = s.appended := by
      unfold ReceiveSystem.afterSegment
      rw [hgained, List.append_nil]
    have hcount : (s.afterSegment c').received = r' := by
      have hfin : (c'.remoteClosed && !s.conn.remoteClosed).toNat
          = c'.remoteClosed.toNat - s.conn.remoteClosed.toNat := by
        cases c'.remoteClosed <;> cases s.conn.remoteClosed <;> rfl
      have hmono : s.conn.remoteClosed.toNat ≤ c'.remoteClosed.toNat := by
        have := hout.fin
        cases hc : s.conn.remoteClosed with
        | false => exact Nat.zero_le _
        | true => rw [this hc]
      have hone : c'.remoteClosed.toNat ≤ 1 := Bool.toNat_le _
      have hmoved : (c'.rcvNxt - s.conn.rcvNxt).toNat
          = r' + c'.remoteClosed.toNat - (s.received + s.conn.remoteClosed.toNat) := by
        rw [hout.received.rcvNxt, hs.conn.rcvNxt]
        exact seqAt_sub (by omega) (by omega)
      have hdiscarded : (s.afterSegment c').discarded = s.discarded + (r' - s.received) := by
        unfold ReceiveSystem.afterSegment
        dsimp only
        rw [if_pos hclosed, hmoved, hfin]
        omega
      show (s.afterSegment c').appended.length + (s.afterSegment c').discarded = r'
      rw [happended, hdiscarded]
      unfold received at hle ⊢
      omega
    refine ⟨?_, ?_, ?_⟩
    · rw [hcount]
      exact hout.received
    · rw [happended]
      exact hs.isPrefix
    · intro hopen
      have : c'.localReadClosed = true := hout.closed.trans hclosed
      exact absurd (hopen.symm.trans this) (by simp)

/-- A call of the application that leaves the sequence numbers and the buffered data alone. -/
theorem Inv.withConn (hs : s.Inv irs stream) {c' : TcpConnection}
    (hrcv : c'.rcvNxt = s.conn.rcvNxt) (hremote : c'.remoteClosed = s.conn.remoteClosed)
    (hclosed : c'.localReadClosed = false → s.conn.localReadClosed = false)
    (hopened : c'.state ≠ .synSent ∧ c'.state ≠ .synReceived)
    (hstage : c'.active = true → c'.Stage irs stream s.received) :
    ({ s with conn := c' } : ReceiveSystem).Inv irs stream where
  conn :=
    { rcvNxt := by
        show c'.rcvNxt = seqAt irs (s.received + c'.remoteClosed.toNat)
        rw [hrcv, hremote]
        exact hs.conn.rcvNxt
      le := hs.conn.le
      opened := hopened
      stage := hstage }
  isPrefix := hs.isPrefix
  kept := fun hc => hs.kept (hclosed hc)

theorem Inv.readUpTo (hs : s.Inv irs stream) (maxBytes : Nat) :
    ({ s with conn := (s.conn.readUpTo maxBytes).2 } : ReceiveSystem).Inv irs stream := by
  unfold TcpConnection.readUpTo
  split
  · exact hs
  · split
    · exact hs
    · exact hs.withConn rfl rfl id hs.conn.opened
        fun hon => (hs.conn.stage hon).withReads _ _ _ _ _

theorem Inv.shutdownRead (hs : s.Inv irs stream) :
    ({ s with conn := s.conn.shutdownRead } : ReceiveSystem).Inv irs stream := by
  unfold TcpConnection.shutdownRead
  split
  · refine hs.withConn rfl rfl (fun h => ?_) hs.conn.opened
      fun hon => (hs.conn.stage hon).withReads _ _ _ _ _
    exact absurd h (by simp)
  · exact hs

theorem Inv.shutdownWrite (hs : s.Inv irs stream) (seen : TcpState) (seq : Seq) :
    ({ s with conn := s.conn.shutdownWrite seen seq } : ReceiveSystem).Inv irs stream := by
  have hstage (state : TcpState) (sndNxt : Seq) (hon : s.conn.active = true) :=
    (hs.conn.stage hon).withReads state sndNxt s.conn.rxBuffer true s.conn.localReadClosed
  unfold TcpConnection.shutdownWrite
  split
  · exact hs.withConn rfl rfl id ⟨by simp, by simp⟩ (hstage _ _)
  · exact hs.withConn rfl rfl id ⟨by simp, by simp⟩ (hstage _ _)
  · exact hs.withConn rfl rfl id hs.conn.opened (hstage s.conn.state s.conn.sndNxt)

/-- **One step keeps the invariant.** -/
theorem Inv.step {s s' : ReceiveSystem} (hs : s.Inv irs stream) {a : ReceiveAction}
    (hcarries : Carries irs stream a) (hok : Recordable s a) (hstep : s.step a = some s') :
    s'.Inv irs stream := by
  cases a with
  | segment a pos =>
    obtain ⟨c', hc, rfl⟩ := Option.map_eq_some_iff.mp hstep
    have hplaced (hbears : a.header.Bears) (hin : s.conn.acceptable a.header = true) :
        TcpConnection.Placed irs stream s.received pos s.conn a.header := by
      obtain ⟨hseq, hpiece, hfin⟩ := hcarries hbears
      obtain ⟨hafter, hbefore, hfits⟩ := hok hbears hin
      exact ⟨hseq, hpiece, hfin, hafter, hbefore, hfits⟩
    obtain ⟨r', hout⟩ := TcpConnection.step_outcome hs.conn hplaced hc
    exact hs.afterSegment hout
  | readUpTo maxBytes =>
    cases hstep
    exact hs.readUpTo maxBytes
  | shutdownRead =>
    cases hstep
    exact hs.shutdownRead
  | shutdownWrite seen seq =>
    cases hstep
    exact hs.shutdownWrite seen seq

end ReceiveSystem

/-- **Stream integrity of every run whose segments are recorded only where their data is kept.** -/
theorem receive_stream_intact {irs : Seq} {stream : List UInt8} {c : TcpConnection}
    (hc : JustEstablished irs c) {s : ReceiveSystem}
    (h : Runs.ReachBy ReceiveSystem.step (fun s a => Carries irs stream a ∧ Recordable s a)
      (fun s => s = .start c) s) : s.Intact irs stream := by
  refine ReceiveSystem.Inv.intact (h.invariant ?_ ?_)
  · rintro s rfl
    exact .start hc
  · intro s a s' hs hok hstep
    exact hs.step hok.1 hok.2 hstep

/-- A data segment of at most one MSS at a position of the stream. -/
def dataSegment (irs : Seq) (pos : Nat) (payload : List UInt8) (h : payload.length ≤ mss) : Arrival where
  now := 0
  ipEcnCe := false
  header :=
    { srcPort := 80, dstPort := 49200, seq := seqAt irs pos, ack := 1001, flags := tcpAck, window := 1000
      options := [], payload := payload, payload_lt := by unfold mss at h; omega }

/-- A connection established after this end opened it with number 1000 and the peer with 5000. -/
def sackConnection : TcpConnection :=
  { freshConnection 1000 with
    state := .established, sndUna := 1001, sndWnd := 1000, rcvNxt := 5001, sackOk := true }

theorem sackConnection_justEstablished : JustEstablished 5000 sackConnection :=
  ⟨rfl, rfl, rfl, rfl, rfl, rfl, rfl⟩

/-- The second half of a stream comes first. -/
def reordered : List ReceiveAction :=
  [.segment (dataSegment 5000 2 [3, 4] (by decide)) 2, .readUpTo 9,
    .segment (dataSegment 5000 0 [1, 2] (by decide)) 0, .readUpTo 3]

/-- After a reordered run the whole stream has been appended, and what the theorem says holds. -/
theorem receive_stream_intact_reordered :
    ∃ s, Runs.run ReceiveSystem.step (.start sackConnection) reordered = some s ∧
      s.appended = [1, 2, 3, 4] ∧ s.Intact 5000 [1, 2, 3, 4] := by
  refine ⟨_, rfl, rfl, receive_stream_intact sackConnection_justEstablished ?_⟩
  have hcheck : Runs.checkAlong ReceiveSystem.step
      (fun s a => decide (Carries 5000 [1, 2, 3, 4] a ∧ Recordable s a)) (.start sackConnection) reordered
      = true := by decide
  exact Runs.ReachBy.of_run (.start rfl) rfl (Runs.Along.of_check (fun s a h => of_decide_eq_true h) hcheck)

/-! ## A range that was refused -/

namespace TcpConnection

/-- An established connection with nothing to send, SACK agreed and no other option. -/
structure Ordinary (c : TcpConnection) : Prop where
  active : c.active = true
  state : c.state = .established
  sndUna : c.sndUna = 1001
  sndWnd : c.sndWnd = 1000
  wscaleOk : c.wscaleOk = false
  rcvWndScale : c.rcvWndScale = 0
  sackOk : c.sackOk = true
  tsOk : c.tsOk = false
  ecnOk : c.ecnOk = false
  remoteClosed : c.remoteClosed = false
  localReadClosed : c.localReadClosed = false

theorem Ordinary.of_receiveFrame {c d : TcpConnection} (h : c.Ordinary) (hframe : ReceiveFrame c d) :
    d.Ordinary where
  active := (hframe.read TcpConnection.active).trans h.active
  state := (hframe.read TcpConnection.state).trans h.state
  sndUna := (hframe.read TcpConnection.sndUna).trans h.sndUna
  sndWnd := (hframe.read TcpConnection.sndWnd).trans h.sndWnd
  wscaleOk := (hframe.read TcpConnection.wscaleOk).trans h.wscaleOk
  rcvWndScale := (hframe.read TcpConnection.rcvWndScale).trans h.rcvWndScale
  sackOk := (hframe.read TcpConnection.sackOk).trans h.sackOk
  tsOk := (hframe.read TcpConnection.tsOk).trans h.tsOk
  ecnOk := (hframe.read TcpConnection.ecnOk).trans h.ecnOk
  remoteClosed := (hframe.read TcpConnection.remoteClosed).trans h.remoteClosed
  localReadClosed := (hframe.read TcpConnection.localReadClosed).trans h.localReadClosed

variable {payload : List UInt8}

/-- Such a connection hands a data segment inside the window straight to the data stage. -/
theorem step_dataSegment {c : TcpConnection} (hc : c.Ordinary) {irs : Seq} {pos : Nat} {hmss : payload.length ≤ mss}
    (hin : c.acceptable (dataSegment irs pos payload hmss).header = true) (hne : payload ≠ [])
    (hdata : c.takesData (dataSegment irs pos payload hmss).header = true) :
    c.step (dataSegment irs pos payload hmss)
      = c.receiveData (dataSegment irs pos payload hmss).header := by
  set h := (dataSegment irs pos payload hmss).header with hh
  have hflag (flag : UInt8) : h.has flag = (tcpAck &&& flag != 0) := rfl
  have hwindow : c.updateWindow h = c := by
    have hannounced : c.announcedWindow h = c.sndWnd := by
      rw [hc.sndWnd]
      unfold announcedWindow
      rw [hc.wscaleOk, hflag]
      rfl
    unfold updateWindow
    rw [hannounced]
  have hstamp : c.timestampOf h = none := by
    unfold timestampOf
    rw [hc.tsOk]
    rfl
  have htimestamp : c.updateTimestamp 0 h = c := by
    unfold updateTimestamp
    rw [hstamp]
  have hecn : c.updateEcn false h = c := by
    have hpending : (if c.ecnOk && h.has tcpCwr then false
        else if c.ecnOk && false then true else c.ecnCePending) = c.ecnCePending := by
      rw [hc.ecnOk]
      rfl
    unfold updateEcn
    rw [hpending]
  have hack : c.establishedAck h = (c, none) := by
    have hold : ¬ 0 < c.bytesAcked h.ack := by
      rw [bytesAcked_pos_iff, hc.sndUna]
      rintro ⟨hack, -⟩
      exact hack rfl
    unfold establishedAck
    rw [if_pos (show h.has tcpAck = true from hflag tcpAck), if_neg hold, if_neg (show ¬ h.payload = [] from hne),
      advanceUna_of_bytesAcked hold]
  unfold step receive
  rw [if_pos hc.active]
  unfold processTcpCommon
  dsimp only
  rw [hwindow, hstamp]
  unfold afterPaws
  dsimp only
  show (Option.map Prod.fst (if Option.any _ none = true then _ else _)) = _
  rw [show (dataSegment irs pos payload hmss).now = 0 from rfl,
    show (dataSegment irs pos payload hmss).ipEcnCe = false from rfl, ← hh, htimestamp, hecn, hin]
  simp only [Option.any_none, Bool.false_eq_true, if_false, Bool.not_true, Bool.and_false]
  rw [hflag, if_neg (by decide)]
  unfold onState
  rw [hc.state]
  dsimp only
  unfold onEstablished
  rw [hack]
  dsimp only
  rw [if_pos hdata]
  cases c.receiveData h <;> rfl

/-- Everything up to `r` has been received and delivered. A block promises positions 65534 to 65538, but the
buffer holds its zero filler at the first of them. -/
structure Poisoned (irs : Seq) (r : Nat) (c : TcpConnection) : Prop where
  ordinary : c.Ordinary
  rcvNxt : c.rcvNxt = seqAt irs r
  rxBuffer : c.rxBuffer.length ≤ r - 3
  sackBlocks : c.sackBlocks = [(seqAt irs 65534, seqAt irs 65538)]
  oooBase : c.oooBase = seqAt irs r
  oooBuf : c.oooBuf.length = 65538 - r
  filler : c.oooBuf[65534 - r]? = some 0

variable {irs : Seq} {r : Nat} {c : TcpConnection}

/-- In-order data fits the window and is accepted whole. -/
theorem Poisoned.step_eq (hp : c.Poisoned irs r) (hr : 3 ≤ r)
    (hmss : payload.length ≤ mss) (hne : payload ≠ []) (hend : r + payload.length ≤ 65534) :
    c.step (dataSegment irs r payload hmss) = (c.accept payload).oooDeliver.map sackAdvance ∧
      c.accepted payload = payload.length := by
  set h := (dataSegment irs r payload hmss).header with hh
  have hpos := List.length_pos_iff.mpr hne
  have hrx := hp.rxBuffer
  have hseq : h.seq = c.rcvNxt := hp.rcvNxt.symm
  have hwnd : 0 < c.rcvWnd := by
    unfold rcvWnd advertisedWindow maxRxBuffer u16Max
    rw [hp.ordinary.rcvWndScale]
    dsimp only
    rw [Nat.shiftRight_zero, Nat.shiftLeft_zero]
    omega
  have hin : c.acceptable h = true := by
    have hlen : segLen h ≠ 0 := by
      rw [segLen_eq]
      have : payload.length ≤ occupied h := by
        unfold occupied
        exact (Nat.le_add_right _ _).trans (Nat.le_add_right _ _)
      omega
    unfold acceptable
    rw [if_neg (by omega), if_neg hlen, hseq, BitVec.sub_self]
    simp [hwnd]
  have hdata : c.takesData h = true := by
    unfold takesData
    rw [hseq]
    simp [show h.payload ≠ [] from hne]
  refine ⟨?_, ?_⟩
  · rw [step_dataSegment hp.ordinary hin hne hdata]
    unfold receiveData
    rw [if_neg (show ¬ h.payload = [] from hne), if_pos hseq]
    rfl
  · unfold accepted maxRxBuffer
    rw [hp.ordinary.localReadClosed]
    simp only [Bool.false_eq_true, if_false]
    omega

/-- What in-order data does before delivery is tried. -/
theorem Poisoned.accept_eq (hp : c.Poisoned irs r)
    (hall : c.accepted payload = payload.length) :
    (c.accept payload).rcvNxt = seqAt irs (r + payload.length) ∧
      (c.accept payload).rxBuffer = c.rxBuffer ++ payload := by
  unfold accept
  rw [hall, hp.rcvNxt, hp.ordinary.localReadClosed, seqAt_add, List.take_length]
  exact ⟨rfl, rfl⟩

/-- Filling a part of the gap leaves the block where it is. -/
theorem Poisoned.step_fill (hp : c.Poisoned irs r) (hr : 3 ≤ r)
    (hmss : payload.length ≤ mss) (hne : payload ≠ []) (hend : r + payload.length < 65534) :
    ∃ c', c.step (dataSegment irs r payload hmss) = some c' ∧ c'.Poisoned irs (r + payload.length) := by
  obtain ⟨hstep, hall⟩ := hp.step_eq hr hmss hne (by omega)
  obtain ⟨hrcv, hrx⟩ := hp.accept_eq hall
  have hpos := List.length_pos_iff.mpr hne
  have hlen := hp.oooBuf
  have hrxlen := hp.rxBuffer
  set d := c.accept payload with hd
  have hblocks : d.sackBlocks = [(seqAt irs 65534, seqAt irs 65538)] := hp.sackBlocks
  have hfull : ¬ d.oooBuf = [] := by
    intro hnil
    have : c.oooBuf.length = 0 := congrArg List.length hnil
    omega
  have hbefore : seqLt (seqAt irs (r + payload.length)) (seqAt irs 65534) = true :=
    (seqLt_seqAt (by omega) (by omega)).mpr hend
  have hbefore' : seqLt (seqAt irs (r + payload.length)) (seqAt irs 65538) = true :=
    (seqLt_seqAt (by omega) (by omega)).mpr (by omega)
  have hnotBehind : seqLt (seqAt irs 65534) (seqAt irs (r + payload.length)) = false := by
    rw [← Bool.not_eq_true, seqLt_seqAt (by omega) (by omega)]
    omega
  have hround : d.oooRound = none := by
    unfold oooRound
    rw [hblocks, hrcv]
    simp [hbefore]
  have hrounds : oooRounds d.oooBuf.length d = some d := oooRounds_of_none hround
  have hconsumed : (d.rcvNxt - d.oooBase).toNat = payload.length := by
    have hbase : d.oooBase = seqAt irs r := hp.oooBase
    rw [hrcv, hbase, seqAt_sub (by omega) (by omega)]
    omega
  have htrim : d.oooTrim = { d with oooBuf := d.oooBuf.drop payload.length, oooBase := d.rcvNxt } := by
    have hdlen : d.oooBuf.length = c.oooBuf.length := rfl
    unfold oooTrim
    dsimp only
    rw [hconsumed, if_pos (by omega)]
  refine ⟨d.oooTrim.sackAdvance, ?_, ?_⟩
  · rw [hstep]
    unfold oooDeliver
    rw [if_neg hfull, hrounds]
    rfl
  · rw [htrim]
    exact
      { ordinary := hp.ordinary.of_receiveFrame rfl
        rcvNxt := hrcv
        rxBuffer := by
          show d.rxBuffer.length ≤ _
          rw [hrx, List.length_append]
          omega
        sackBlocks := by
          unfold sackAdvance
          dsimp only
          rw [hblocks, hrcv]
          simp [hbefore', hnotBehind]
        oooBase := hrcv
        oooBuf := by
          show (c.oooBuf.drop payload.length).length = _
          rw [List.length_drop, hlen]
          omega
        filler := by
          show (c.oooBuf.drop payload.length)[65534 - (r + payload.length)]? = some 0
          have hindex : payload.length + (65534 - (r + payload.length)) = 65534 - r := by omega
          rw [List.getElem?_drop, hindex]
          exact hp.filler }

/-- Filling the rest of the gap delivers the filler. -/
theorem Poisoned.step_last (hp : c.Poisoned irs r) (hr : 3 ≤ r)
    (hmss : payload.length ≤ mss) (hne : payload ≠ []) (hend : r + payload.length = 65534) :
    ∃ c', c.step (dataSegment irs r payload hmss) = some c' ∧
      0 ∈ c'.rxBuffer.drop c.rxBuffer.length := by
  obtain ⟨hstep, hall⟩ := hp.step_eq hr hmss hne (by omega)
  obtain ⟨hrcv, hrx⟩ := hp.accept_eq hall
  rw [hend] at hrcv
  have hlen := hp.oooBuf
  have hrxlen := hp.rxBuffer
  have hpos := List.length_pos_iff.mpr hne
  set d := c.accept payload with hd
  have hblocks : d.sackBlocks = [(seqAt irs 65534, seqAt irs 65538)] := hp.sackBlocks
  have hdlen : d.oooBuf.length = c.oooBuf.length := rfl
  have hbase : d.oooBase = seqAt irs r := hp.oooBase
  have hopen : d.localReadClosed = false := hp.ordinary.localReadClosed
  have hfull : ¬ d.oooBuf = [] := by
    intro hnil
    have := congrArg List.length hnil
    rw [hdlen, List.length_nil] at this
    omega
  set e : TcpConnection :=
    { d with
      rxBuffer := d.rxBuffer ++ (d.oooBuf.drop payload.length).take 4
      rcvNxt := seqAt irs 65538 } with he
  have hround : d.oooRound = some e := by
    have hroom : min 4 (maxRxBuffer - d.rxBuffer.length) = 4 := by
      rw [hrx, List.length_append]
      unfold maxRxBuffer
      omega
    have hstart : (seqAt irs 65534 - seqAt irs r).toNat = payload.length := by
      rw [seqAt_sub (by omega) (by omega)]
      omega
    have hstop : (seqAt irs 65538 - seqAt irs r).toNat = payload.length + 4 := by
      rw [seqAt_sub (by omega) (by omega)]
      omega
    have hbefore : seqLt (seqAt irs 65534) (seqAt irs 65538) = true :=
      (seqLt_seqAt (by omega) (by omega)).mpr (by omega)
    have hfind : d.sackBlocks.find? (fun b => !seqLt d.rcvNxt b.1 && seqLt d.rcvNxt b.2)
        = some (seqAt irs 65534, seqAt irs 65538) := by
      rw [hblocks, hrcv]
      simp [seqLt_self, hbefore]
    unfold oooRound
    rw [hfind]
    dsimp only
    rw [hrcv, hbase, hstart, hstop, if_neg (by omega), if_neg (by omega), hopen]
    simp only [Bool.false_eq_true, if_false, Nat.add_sub_cancel_left, hroom]
    rw [show seqAt irs 65534 + BitVec.ofNat 32 4 = seqAt irs 65538 from seqAt_add irs 65534 4, he, hbase,
      hopen]
  have hdone : e.oooRound = none := by
    have hfind : e.sackBlocks.find? (fun b => !seqLt e.rcvNxt b.1 && seqLt e.rcvNxt b.2) = none := by
      show d.sackBlocks.find? (fun b => !seqLt (seqAt irs 65538) b.1 && seqLt (seqAt irs 65538) b.2) = none
      rw [hblocks]
      simp [seqLt_self]
    unfold oooRound
    rw [hfind]
  have hrounds : oooRounds d.oooBuf.length d = some e := by
    obtain ⟨k, hk⟩ : ∃ k, d.oooBuf.length = k + 1 := ⟨d.oooBuf.length - 1, by omega⟩
    rw [hk, oooRounds_of_some hround, oooRounds_of_none hdone]
  refine ⟨e.oooTrim.sackAdvance, ?_, ?_⟩
  · rw [hstep]
    unfold oooDeliver
    rw [if_neg hfull, hrounds]
    rfl
  · have hkeeps : e.oooTrim.sackAdvance.rxBuffer = e.rxBuffer := e.sackAdvance_oooTrim_rxBuffer
    have hrxe : e.rxBuffer = c.rxBuffer ++ (payload ++ (c.oooBuf.drop payload.length).take 4) := by
      show d.rxBuffer ++ (c.oooBuf.drop payload.length).take 4 = _
      rw [hrx, List.append_assoc]
    rw [hkeeps, hrxe, List.drop_left]
    refine List.mem_append_right _ (List.mem_of_getElem? (i := 0) ?_)
    have hindex : 65534 - r = payload.length := by omega
    have hfiller := hp.filler
    rw [hindex] at hfiller
    have hfirst : ((c.oooBuf.drop payload.length).take 4)[0]? = c.oooBuf[payload.length]? := by
      rw [List.getElem?_take_of_lt (Nat.succ_pos 3), List.getElem?_drop, Nat.add_zero]
    exact hfirst.trans hfiller

end TcpConnection

/-- Arriving segments are of at most one MSS. -/
def UpToMss : ReceiveAction → Prop
  | .segment a _ => a.header.payload.length ≤ mss
  | _ => True

/-- A stream of ones. -/
def ones : List UInt8 := List.replicate 65538 1

theorem ones_carries (irs : Seq) (pos n : Nat) (hmss : (List.replicate n (1 : UInt8)).length ≤ mss)
    (hend : pos + n ≤ 65538) :
    Carries irs ones (.segment (dataSegment irs pos (List.replicate n 1) hmss) pos) ∧
      UpToMss (.segment (dataSegment irs pos (List.replicate n 1) hmss) pos) := by
  refine ⟨fun _ => ⟨rfl, ?_, fun hfin => ?_⟩, hmss⟩
  · show List.replicate n 1 <+: ones.drop pos
    unfold ones
    rw [List.drop_replicate]
    refine ⟨List.replicate (65538 - pos - n) 1, ?_⟩
    rw [List.replicate_append_replicate]
    congr 1
    omega
  · exact absurd (show (tcpAck &&& tcpFin != 0) = true from hfin) (by decide)

/-- Three bytes come that end one past what the buffer takes: their range is recorded, their data refused.
The first three bytes come and are read, and then the byte after the refused ones. -/
def refusedRange : List ReceiveAction :=
  [.segment (dataSegment 5000 65534 (List.replicate 3 1) (by decide)) 65534,
    .segment (dataSegment 5000 0 (List.replicate 3 1) (by decide)) 0,
    .readUpTo 3,
    .segment (dataSegment 5000 65537 (List.replicate 1 1) (by decide)) 65537]

/-- The connection after that. -/
def poisonedConnection : TcpConnection :=
  { sackConnection with
    rcvNxt := seqAt 5000 3
    sackBlocks := [(seqAt 5000 65534, seqAt 5000 65538)]
    oooBase := seqAt 5000 3
    oooBuf := GrowingBuffer.write 0 [] 65534 [1] }

theorem poisonedConnection_poisoned : poisonedConnection.Poisoned 5000 3 where
  ordinary := ⟨rfl, rfl, rfl, rfl, rfl, rfl, rfl, rfl, rfl, rfl, rfl⟩
  rcvNxt := rfl
  rxBuffer := Nat.le_refl _
  sackBlocks := rfl
  oooBase := rfl
  oooBuf := GrowingBuffer.length_write ..
  filler := by
    show (GrowingBuffer.write 0 [] 65534 [1])[65534 - 3]? = some (0 : UInt8)
    exact GrowingBuffer.getElem?_write_gap (Nat.zero_le _) (by omega)

/-- The runs of the stream of ones. -/
abbrev OnesReach : ReceiveSystem → Prop :=
  Runs.ReachBy ReceiveSystem.step (fun _ a => Carries 5000 ones a ∧ UpToMss a)
    (fun s => s = .start sackConnection)

theorem onesReach_poisoned :
    OnesReach { conn := poisonedConnection, appended := List.replicate 3 1, discarded := 0 } := by
  have hrun : Runs.run ReceiveSystem.step (.start sackConnection) refusedRange
      = some { conn := poisonedConnection, appended := List.replicate 3 1, discarded := 0 } := rfl
  refine Runs.ReachBy.of_run (.start rfl) hrun ?_
  refine ⟨ones_carries 5000 65534 3 (by decide) (by omega), fun _ _ => ⟨?_, fun _ _ => ?_⟩⟩
  · exact ones_carries 5000 0 3 (by decide) (by omega)
  · refine ⟨⟨trivial, trivial⟩, fun _ _ => ⟨?_, fun _ _ => trivial⟩⟩
    exact ones_carries 5000 65537 1 (by decide) (by omega)

theorem ones_ne_nil {n : Nat} (hn : 0 < n) : List.replicate n (1 : UInt8) ≠ [] := by
  rw [← List.length_pos_iff, List.length_replicate]
  exact hn

/-- The gap is filled one MSS after another. -/
theorem onesReach_fill (n : Nat) (hn : n ≤ 44) :
    ∃ s, OnesReach s ∧ s.conn.Poisoned 5000 (3 + n * 1460) := by
  induction n with
  | zero => exact ⟨_, onesReach_poisoned, poisonedConnection_poisoned⟩
  | succ n ih =>
    obtain ⟨s, hs, hp⟩ := ih (by omega)
    have hlen : (List.replicate 1460 (1 : UInt8)).length = 1460 := List.length_replicate
    obtain ⟨c', hstep, hp'⟩ :=
      hp.step_fill (by omega) hlen.le (ones_ne_nil (by omega)) (by rw [hlen]; omega)
    refine ⟨s.afterSegment c', hs.next (ones_carries 5000 (3 + n * 1460) 1460 hlen.le (by omega)) ?_, ?_⟩
    · show (s.conn.step _).map s.afterSegment = _
      rw [hstep]
      rfl
    · have hnext : 3 + (n + 1) * 1460 = 3 + n * 1460 + (List.replicate 1460 (1 : UInt8)).length := by
        rw [hlen]
        omega
      rw [hnext]
      exact hp'

/-- **One refused range is enough.** A peer that sends only ones, in segments of at most one MSS, has a zero
delivered to the application. -/
theorem receive_stream_not_intact :
    JustEstablished 5000 sackConnection ∧ ∃ s, OnesReach s ∧ ¬ s.Intact 5000 ones := by
  refine ⟨sackConnection_justEstablished, ?_⟩
  obtain ⟨s, hs, hp⟩ := onesReach_fill 44 (Nat.le_refl _)
  generalize hr : 3 + 44 * 1460 = r at hp
  have hlen : (List.replicate 1291 (1 : UInt8)).length = 1291 := List.length_replicate
  have hmss : (List.replicate 1291 (1 : UInt8)).length ≤ mss := by
    rw [hlen]
    unfold mss
    omega
  obtain ⟨c', hstep, hzero⟩ :=
    hp.step_last (by omega) hmss (ones_ne_nil (by omega)) (by rw [hlen]; omega)
  refine ⟨s.afterSegment c', hs.next (ones_carries 5000 r 1291 hmss (by omega)) ?_, ?_⟩
  · show (s.conn.step _).map s.afterSegment = _
    rw [hstep]
    rfl
  · rintro ⟨hpre, -, -⟩
    have hmem : (0 : UInt8) ∈ ones := hpre.subset (List.mem_append_right _ hzero)
    exact absurd (List.eq_of_mem_replicate hmem) (by decide)

end SlateOS.Net.Tcp
