/-
# SlateOS.Net.Tcp.Process -- a segment arrives

`process_tcp_common` of `kernel/src/net/tcp.rs` from the point where the segment's connection has been
found, one definition for each stage and each state's branch. The clock is read once; the segments the
stages send are returned, and what becomes of them is ignored, as the code ignores it. `none` stands for a
call that never returns (`ooo_deliver`). The listener's backlog is left out.
-/
import SlateOS.Net.Tcp.Receive
import SlateOS.Net.Tcp.Connection

namespace SlateOS.Net.Tcp

/-- `PAWS_IDLE_NS`: 24 days. -/
def pawsIdleNs : Nat := 24 * 86400 * 1000000000

namespace TcpConnection

/-! ## Segments sent in answer -/

/-- The plain ACK of the paths that drop a segment. -/
def plainAck (c : TcpConnection) : SentSegment where
  seq := c.sndNxt
  ack := c.rcvNxt
  flags := tcpAck
  window := c.advertisedWindow
  payload := []

/-- `send_ack_with_sack`. -/
def ackWithSack (c : TcpConnection) : SentSegment where
  seq := c.sndNxt
  ack := c.rcvNxt
  flags := if c.ecnOk && c.ecnCePending then tcpAck ||| tcpEce else tcpAck
  window := c.advertisedWindow
  payload := []

/-- A control segment sent with `send_segment`. -/
def controlSegment (seq ack : Seq) (flags : UInt8) : SentSegment where
  seq := seq
  ack := ack
  flags := flags
  window := defaultWindow
  payload := []

/-! ## The stages before the state's own branch -/

/-- The window a segment announces: raw in a SYN or without scaling, else shifted. -/
def announcedWindow (c : TcpConnection) (h : TcpHeaderView) : Nat :=
  if h.has tcpSyn then h.window
  else if c.wscaleOk then h.window <<< c.sndWndScale
  else h.window

/-- The peer's window is taken over from every segment. -/
def updateWindow (c : TcpConnection) (h : TcpHeaderView) : TcpConnection :=
  { c with sndWnd := c.announcedWindow h }

/-- The timestamp that counts: the segment's, once timestamps are negotiated. -/
def timestampOf (c : TcpConnection) (h : TcpHeaderView) : Option Seq :=
  if c.tsOk then (parseTcpOptions h.options).timestamp.map Prod.fst else none

/-- The PAWS check finds an old duplicate. -/
def pawsRejects (c : TcpConnection) (now : Nat) (tsval : Seq) : Bool :=
  decide (0x80000000 ≤ (tsval - c.tsRecent).toNat)
    && !decide (pawsIdleNs < now - c.tsRecentAgeNs) && c.tsRecent != 0

/-- The segment is not older than what has been received, so its timestamp is recorded. -/
def recordsTimestamp (c : TcpConnection) (h : TcpHeaderView) : Bool :=
  decide ((h.seq - c.rcvNxt).toNat < 0x80000000) || h.seq == c.rcvNxt

/-- The update of `ts_recent`. -/
def updateTimestamp (c : TcpConnection) (now : Nat) (h : TcpHeaderView) : TcpConnection :=
  match c.timestampOf h with
  | none => c
  | some tsval =>
    if c.recordsTimestamp h then { c with tsRecent := tsval, tsRecentAgeNs := now } else c

/-- The ECN marks of a segment: CE on its packet is to be echoed, CWR ends the echo. -/
def updateEcn (c : TcpConnection) (ipEcnCe : Bool) (h : TcpHeaderView) : TcpConnection :=
  { c with
    ecnCePending :=
      if c.ecnOk && h.has tcpCwr then false
      else if c.ecnOk && ipEcnCe then true
      else c.ecnCePending }

/-- What a RST does. -/
def reset (c : TcpConnection) : TcpConnection :=
  { c.deactivate with lastError := if c.state = .synSent then .refused else .reset }

/-- The sequence numbers a segment takes up, as the window check counts them. -/
def segLen (h : TcpHeaderView) : Nat :=
  min (min (h.payload.length + (h.has tcpSyn).toNat) u32Max + (h.has tcpFin).toNat) u32Max

/-- The receive window of the window check. -/
def rcvWnd (c : TcpConnection) : Nat := c.advertisedWindow <<< c.rcvWndScale

/-- The window check. -/
def acceptable (c : TcpConnection) (h : TcpHeaderView) : Bool :=
  if c.rcvWnd = 0 then decide (segLen h = 0) && h.seq == c.rcvNxt
  else if segLen h = 0 then decide ((h.seq - c.rcvNxt).toNat < c.rcvWnd)
  else
    decide ((h.seq - c.rcvNxt).toNat < c.rcvWnd)
      || decide ((h.seq + BitVec.ofNat 32 (segLen h - 1) - c.rcvNxt).toNat < c.rcvWnd)

/-- The states whose segments go through the window check. -/
def checksWindow (c : TcpConnection) : Bool := c.state != .synSent && c.state != .synReceived

/-! ## The handshake -/

/-- The `SynSent` branch. -/
def onSynSent (c : TcpConnection) (now : Nat) (h : TcpHeaderView) :
    TcpConnection × List SentSegment :=
  if h.has tcpSyn && h.has tcpAck then
    let opts := parseTcpOptions h.options
    let c := { c with
      rcvIrs := h.seq
      rcvNxt := h.seq + 1
      sndUna := h.ack
      wscaleOk := opts.wscale.isSome
      sndWndScale := opts.wscale.getD 0
      rcvWndScale := if opts.wscale.isSome then c.rcvWndScale else 0
      sackOk := opts.sackPermitted
      peerMss := opts.mss
      ecnOk := (h.has tcpEce && !h.has tcpCwr) || c.ecnOk
      tsOk := opts.timestamp.isSome || c.tsOk
      tsRecent := (opts.timestamp.map Prod.fst).getD c.tsRecent
      tsRecentAgeNs := if opts.timestamp.isSome then now else c.tsRecentAgeNs
      state := .established }
    (c, [controlSegment c.sndNxt c.rcvNxt tcpAck])
  else (c, [])

/-- The `SynReceived` branch. -/
def onSynReceived (c : TcpConnection) (h : TcpHeaderView) : TcpConnection × List SentSegment :=
  if h.has tcpAck then ({ c with sndUna := h.ack, state := .established }, [])
  else if h.has tcpRst then ({ c with lastError := .refused, active := false, state := .closed }, [])
  else if h.has tcpSyn then
    (c, [controlSegment c.sndIss c.rcvNxt
      (if c.ecnOk then tcpSyn ||| tcpAck ||| tcpEce else tcpSyn ||| tcpAck)])
  else (c, [])

/-! ## Acknowledgements -/

/-- `snd_una` moves up to an acknowledgement number between it and `snd_nxt`. -/
def advanceUna (c : TcpConnection) (ack : Seq) : TcpConnection :=
  if (ack - c.sndUna).toNat ≤ (c.sndNxt - c.sndUna).toNat then { c with sndUna := ack } else c

/-- `bytes_acked`. -/
def bytesAcked (c : TcpConnection) (ack : Seq) : Nat := ((c.advanceUna ack).sndUna - c.sndUna).toNat

/-- New data is acknowledged: counters start over, the retransmission buffer is trimmed, the congestion
window grows. -/
def acknowledge (c : TcpConnection) (ack : Seq) : TcpConnection :=
  let bytes := c.bytesAcked ack
  (({ c.advanceUna ack with dupAckCount := 0, retransmitCount := 0 }).txBufferTrim bytes).onAckCongestion
    bytes

/-- The reaction to ECE on an acknowledgement of new data: one reduction for each congestion event. -/
def reactToEce (c : TcpConnection) (h : TcpHeaderView) : TcpConnection :=
  if c.ecnOk && h.has tcpEce && !c.ecnCwrSent then { c.onLossCongestion with ecnCwrSent := true }
  else if c.ecnOk && !h.has tcpEce && c.ecnCwrSent then { c with ecnCwrSent := false }
  else c

/-- The Nagle flush: the held-back data goes out, up to one segment, and is kept for retransmission as far
as there is room. -/
def nagleFlush (c : TcpConnection) : TcpConnection × List SentSegment :=
  let flushLen := min c.nagleBuf.length c.effectiveMss
  let flushData := c.nagleBuf.take flushLen
  let txCopy := min flushLen (maxTxBuffer - c.txBuffer.length)
  ({ c with
      sndNxt := c.sndNxt + BitVec.ofNat 32 flushLen
      txBuffer := c.txBuffer ++ flushData.take txCopy
      nagleBuf := c.nagleBuf.drop flushLen },
    [{ seq := c.sndNxt, ack := c.rcvNxt
       flags := if c.ecnOk && c.ecnCwrSent then tcpAck ||| tcpPsh ||| tcpCwr else tcpAck ||| tcpPsh
       window := c.advertisedWindow, payload := flushData }])

/-- The third duplicate acknowledgement: the windows shrink and the first unacknowledged segment goes out
again. -/
def fastRetransmit (c : TcpConnection) : TcpConnection × List SentSegment :=
  let emss := c.effectiveMss
  let ssthresh := max ((c.sndNxt - c.sndUna).toNat / 2) emss
  let c := { c with ssthresh := ssthresh, cwnd := min (ssthresh + 3 * emss) u32Max }
  (c, (c.retransmitFromBuffer (tcpAck ||| tcpPsh)).toList)

/-- The ACK processing of `Established`; `some` list when the call returns there. -/
def establishedAck (c : TcpConnection) (h : TcpHeaderView) :
    TcpConnection × Option (List SentSegment) :=
  if h.has tcpAck then
    if 0 < c.bytesAcked h.ack then
      let c := (c.acknowledge h.ack).reactToEce h
      if c.sndUna = c.sndNxt ∧ c.nagleBuf ≠ [] then
        let flushed := c.nagleFlush
        (flushed.1, some flushed.2)
      else (c, none)
    else if h.payload = [] then
      let c := { c.advanceUna h.ack with dupAckCount := min (c.dupAckCount + 1) 255 }
      if c.dupAckCount = 3 then
        let retransmitted := c.fastRetransmit
        (retransmitted.1, some retransmitted.2)
      else if 3 < c.dupAckCount then ({ c with cwnd := min (c.cwnd + c.effectiveMss) u32Max }, none)
      else (c, none)
    else (c.advanceUna h.ack, none)
  else (c, none)

/-- The ACK processing of `FinWait1`. -/
def finWaitAck (c : TcpConnection) (h : TcpHeaderView) : TcpConnection :=
  if h.has tcpAck then
    if 0 < c.bytesAcked h.ack then c.acknowledge h.ack else c.advanceUna h.ack
  else c

/-! ## Data and FIN -/

/-- The payload is data to deliver or to buffer. -/
def takesData (c : TcpConnection) (h : TcpHeaderView) : Bool :=
  h.payload != [] && (h.seq == c.rcvNxt || (c.sackOk && seqLt c.rcvNxt h.seq))

/-- The data of a segment. -/
def receiveData (c : TcpConnection) (h : TcpHeaderView) : Option TcpConnection :=
  if h.payload = [] then some c
  else if h.seq = c.rcvNxt then c.inOrderData h.payload
  else if c.sackOk && seqLt c.rcvNxt h.seq then some (c.outOfOrderData h.seq h.payload)
  else some c

/-- The segment's FIN comes right after everything received. -/
def finInOrder (c : TcpConnection) (h : TcpHeaderView) : Bool :=
  h.has tcpFin && h.seq + BitVec.ofNat 32 h.payload.length == c.rcvNxt

/-- The peer has closed: its FIN takes up one sequence number. -/
def takeFin (c : TcpConnection) (state : TcpState) : TcpConnection :=
  { c with rcvNxt := c.rcvNxt + 1, remoteClosed := true, state := state }

/-! ## The branches of the synchronised states -/

/-- The `Established` branch. -/
def onEstablished (c : TcpConnection) (h : TcpHeaderView) :
    Option (TcpConnection × List SentSegment) :=
  match c.establishedAck h with
  | (c, some sent) => some (c, sent)
  | (c, none) =>
    if c.takesData h then (c.receiveData h).map fun c => (c, [c.ackWithSack])
    else if c.finInOrder h then
      let c := c.takeFin .closeWait
      some (c, [controlSegment c.sndNxt c.rcvNxt tcpAck])
    else some (c, [])

/-- The FIN processing of `FinWait1`. -/
def finWait1Fin (c : TcpConnection) (h : TcpHeaderView) : TcpConnection :=
  if c.finInOrder h then c.takeFin .timeWait
  else if !h.has tcpFin && c.sndUna == c.sndNxt then { c with state := .finWait2 }
  else c

/-- The `FinWait1` branch. -/
def onFinWait1 (c : TcpConnection) (h : TcpHeaderView) :
    Option (TcpConnection × List SentSegment) :=
  ((c.finWaitAck h).receiveData h).map fun c =>
    let c := c.finWait1Fin h
    (c, [c.ackWithSack])

/-- The `FinWait2` branch. -/
def onFinWait2 (c : TcpConnection) (h : TcpHeaderView) :
    Option (TcpConnection × List SentSegment) :=
  (c.receiveData h).map fun c =>
    let c := if c.finInOrder h then c.takeFin .timeWait else c
    (c, [c.ackWithSack])

/-- The `LastAck` branch. -/
def onLastAck (c : TcpConnection) (h : TcpHeaderView) : TcpConnection :=
  if h.has tcpAck then { c with lastError := .none, active := false, state := .closed } else c

/-- The branch of the connection's state. -/
def onState (c : TcpConnection) (now : Nat) (h : TcpHeaderView) :
    Option (TcpConnection × List SentSegment) :=
  match c.state with
  | .synSent => some (c.onSynSent now h)
  | .synReceived => some (c.onSynReceived h)
  | .established => c.onEstablished h
  | .finWait1 => c.onFinWait1 h
  | .finWait2 => c.onFinWait2 h
  | .lastAck => some (c.onLastAck h, [])
  | .closed | .listen | .timeWait | .closeWait => some (c, [])

/-- What follows the PAWS check. -/
def afterPaws (c : TcpConnection) (now : Nat) (ipEcnCe : Bool) (h : TcpHeaderView) :
    Option (TcpConnection × List SentSegment) :=
  let c := (c.updateTimestamp now h).updateEcn ipEcnCe h
  if h.has tcpRst then some (c.reset, [])
  else if c.checksWindow && !c.acceptable h then some (c, [c.plainAck])
  else c.onState now h

/-- `process_tcp_common` on the connection the segment belongs to. -/
def processTcpCommon (c : TcpConnection) (now : Nat) (ipEcnCe : Bool) (h : TcpHeaderView) :
    Option (TcpConnection × List SentSegment) :=
  let c := c.updateWindow h
  if (c.timestampOf h).any (c.pawsRejects now) then some (c, [c.plainAck])
  else c.afterPaws now ipEcnCe h

/-! ## The length of a segment -/

/-- How many sequence numbers a segment takes up. -/
def occupied (h : TcpHeaderView) : Nat :=
  h.payload.length + (h.has tcpSyn).toNat + (h.has tcpFin).toNat

/-- Segments are too short for the window check's additions to saturate. -/
theorem segLen_eq (h : TcpHeaderView) : segLen h = occupied h := by
  unfold segLen occupied u32Max
  have hlen := h.payload_lt
  have hsyn : (h.has tcpSyn).toNat ≤ 1 := Bool.toNat_le _
  have hfin : (h.has tcpFin).toNat ≤ 1 := Bool.toNat_le _
  omega

/-! ## Whether anything is acknowledged -/

theorem bytesAcked_pos_iff (c : TcpConnection) (ack : Seq) :
    0 < c.bytesAcked ack ↔
      ack ≠ c.sndUna ∧ (ack - c.sndUna).toNat ≤ (c.sndNxt - c.sndUna).toNat := by
  unfold bytesAcked advanceUna
  split
  · next hle =>
    have hzero : (ack - c.sndUna).toNat = 0 ↔ ack = c.sndUna := by
      constructor
      · intro h
        bv_omega
      · rintro rfl
        simp
    rw [Nat.pos_iff_ne_zero, Ne, hzero]
    exact ⟨fun hne => ⟨hne, hle⟩, And.left⟩
  · next hle =>
    rw [BitVec.sub_self]
    exact ⟨fun hlt => absurd hlt (by simp), fun hand => absurd hand.2 hle⟩

theorem advanceUna_of_bytesAcked {c : TcpConnection} {ack : Seq} (h : ¬ 0 < c.bytesAcked ack) :
    c.advanceUna ack = c := by
  rw [bytesAcked_pos_iff] at h
  unfold advanceUna
  split
  · next hle =>
    have hack : ack = c.sndUna := by
      by_contra hne
      exact h ⟨hne, hle⟩
    rw [hack]
  · rfl

/-! ## What acknowledging leaves alone -/

/-- Only the send half and the recorded timestamp may differ. -/
def SendFrame (c c' : TcpConnection) : Prop :=
  c' = { c with
    sndUna := c'.sndUna, sndNxt := c'.sndNxt, sndWnd := c'.sndWnd, retransmitCount := c'.retransmitCount
    nagleBuf := c'.nagleBuf, cwnd := c'.cwnd, ssthresh := c'.ssthresh, dupAckCount := c'.dupAckCount
    txBuffer := c'.txBuffer, txBufSeq := c'.txBufSeq, ecnCePending := c'.ecnCePending
    ecnCwrSent := c'.ecnCwrSent, tsRecent := c'.tsRecent, tsRecentAgeNs := c'.tsRecentAgeNs }

/-- Whatever is read off a connection may be read off the frame. -/
theorem SendFrame.read {α : Type} {c c' : TcpConnection} (h : SendFrame c c') (f : TcpConnection → α) :
    f c' = f { c with
      sndUna := c'.sndUna, sndNxt := c'.sndNxt, sndWnd := c'.sndWnd, retransmitCount := c'.retransmitCount
      nagleBuf := c'.nagleBuf, cwnd := c'.cwnd, ssthresh := c'.ssthresh, dupAckCount := c'.dupAckCount
      txBuffer := c'.txBuffer, txBufSeq := c'.txBufSeq, ecnCePending := c'.ecnCePending
      ecnCwrSent := c'.ecnCwrSent, tsRecent := c'.tsRecent, tsRecentAgeNs := c'.tsRecentAgeNs } :=
  congrArg f h

theorem SendFrame.refl (c : TcpConnection) : SendFrame c c := rfl

theorem SendFrame.trans {a b c : TcpConnection} (hab : SendFrame a b) (hbc : SendFrame b c) :
    SendFrame a c := by
  unfold SendFrame at *
  rw [hab] at hbc
  exact hbc

theorem updateTimestamp_frame (c : TcpConnection) (now : Nat) (h : TcpHeaderView) :
    SendFrame c (c.updateTimestamp now h) := by
  unfold updateTimestamp
  split
  · exact .refl c
  · split <;> rfl

theorem prelude_frame (c : TcpConnection) (now : Nat) (ipEcnCe : Bool) (h : TcpHeaderView) :
    SendFrame c (((c.updateWindow h).updateTimestamp now h).updateEcn ipEcnCe h) :=
  (SendFrame.trans (b := c.updateWindow h) rfl (updateTimestamp_frame ..)).trans rfl

theorem txBufferTrim_frame (c : TcpConnection) (n : Nat) : SendFrame c (c.txBufferTrim n) := by
  unfold txBufferTrim
  dsimp only
  split <;> rfl

theorem onAckCongestion_frame (c : TcpConnection) (n : Nat) : SendFrame c (c.onAckCongestion n) := by
  unfold onAckCongestion
  split
  · exact .refl c
  · split <;> rfl

theorem advanceUna_frame (c : TcpConnection) (ack : Seq) : SendFrame c (c.advanceUna ack) := by
  unfold advanceUna
  split <;> rfl

theorem acknowledge_frame (c : TcpConnection) (ack : Seq) : SendFrame c (c.acknowledge ack) := by
  unfold acknowledge
  dsimp only
  refine ((advanceUna_frame c ack).trans ?_).trans (onAckCongestion_frame ..)
  exact SendFrame.trans (b := { c.advanceUna ack with dupAckCount := 0, retransmitCount := 0 }) rfl
    (txBufferTrim_frame ..)

theorem reactToEce_frame (c : TcpConnection) (h : TcpHeaderView) : SendFrame c (c.reactToEce h) := by
  unfold reactToEce
  split
  · rfl
  · split <;> rfl

theorem establishedAck_frame (c : TcpConnection) (h : TcpHeaderView) :
    SendFrame c (c.establishedAck h).1 := by
  unfold establishedAck
  split
  · split
    · have hacked := (acknowledge_frame c h.ack).trans (reactToEce_frame (c.acknowledge h.ack) h)
      dsimp only
      split
      · exact hacked.trans rfl
      · exact hacked
    · split
      · have hadvanced := advanceUna_frame c h.ack
        dsimp only
        split
        · exact hadvanced.trans rfl
        · split
          · exact hadvanced.trans rfl
          · exact hadvanced.trans rfl
      · exact advanceUna_frame c h.ack
  · exact .refl c

theorem finWaitAck_frame (c : TcpConnection) (h : TcpHeaderView) : SendFrame c (c.finWaitAck h) := by
  unfold finWaitAck
  split
  · split
    · exact acknowledge_frame c h.ack
    · exact advanceUna_frame c h.ack
  · exact .refl c

/-- Data changes the receive half only. -/
theorem receiveData_frame {c c' : TcpConnection} {h : TcpHeaderView} (hdata : c.receiveData h = some c') :
    ReceiveFrame c c' := by
  unfold receiveData at hdata
  split at hdata
  · cases hdata
    exact .refl c
  · split at hdata
    · exact inOrderData_frame hdata
    · split at hdata
      · cases hdata
        exact outOfOrderData_frame ..
      · cases hdata
        exact .refl c

end TcpConnection

end SlateOS.Net.Tcp
