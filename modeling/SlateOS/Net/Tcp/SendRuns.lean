/-
# SlateOS.Net.Tcp.SendRuns -- what is retransmitted is what was sent

Runs of `send` calls, segments of the peer and timeouts on one connection that carries data. The law:
`tx_buf_seq` is `snd_una`, `tx_buffer` holds the bytes from `snd_una` to `snd_nxt`, every data segment ever
sent carries the bytes of the stream at its sequence number, and what has been accepted is what has been
given sequence numbers followed by what Nagle holds back. It is kept as long as no direct send starts while
bytes are held back or another call is under way, nothing is sent that `tx_buffer` has no room for, and no
call fails after a part of its data has gone out. A direct send past held-back bytes breaks it at once.
-/
import Mathlib.Data.List.Infix
import SlateOS.Net.Tcp.Send

namespace SlateOS.Net.Tcp

open Foundation

/-- The segment carries the bytes of the stream at its sequence number. -/
def SentSegment.Carried (iss : Seq) (stream : List UInt8) (g : SentSegment) : Prop :=
  g.payload ≠ [] → ∃ pos, g.seq = seqAt iss pos ∧ g.payload <+: stream.drop pos

theorem SentSegment.Carried.mono {iss : Seq} {stream stream' : List UInt8} {g : SentSegment}
    (h : g.Carried iss stream) (hle : stream <+: stream') : g.Carried iss stream' := by
  intro hne
  obtain ⟨pos, hseq, hpiece⟩ := h hne
  exact ⟨pos, hseq, hpiece.trans (List.IsPrefix.drop hle pos)⟩

/-- **The law of the send side** while the connection carries data. -/
structure SendLaw (iss : Seq) (s : SendSystem) : Prop where
  bufSeq : s.conn.txBufSeq = s.conn.sndUna
  buffer : ∃ acked ≤ s.assigned.length, s.conn.sndUna = seqAt iss acked ∧
    s.conn.sndNxt = seqAt iss s.assigned.length ∧ s.conn.txBuffer = s.assigned.drop acked
  order : s.accepted = s.assigned ++ s.conn.nagleBuf
  wire : ∀ g ∈ s.wire, g.Carried iss (s.assigned ++ s.pending.flatMap PendingSend.onWire)

/-- A flush in the Nagle section fits the retransmission buffer. -/
def PendingSend.FlushFits (c : TcpConnection) : PendingSend → Prop
  | .heldBack data =>
    let c := c.nagleAppend data
    c.effectiveMss ≤ c.nagleBuf.length →
      c.txBuffer.length + min c.nagleBuf.length c.effectiveMss ≤ maxTxBuffer
  | .direct _ => True

/-- Nothing of the call has gone out. -/
def PendingSend.NothingSent : PendingSend → Prop
  | .heldBack _ => True
  | .direct d => d.offset = 0

/-- The data of the call fits the retransmission buffer. -/
def PendingSend.DataFits (c : TcpConnection) : PendingSend → Prop
  | .heldBack _ => True
  | .direct d => c.txBuffer.length + d.data.length ≤ maxTxBuffer

instance (c : TcpConnection) (p : PendingSend) : Decidable (p.FlushFits c) :=
  match p with
  | .heldBack _ => inferInstanceAs (Decidable (_ → _))
  | .direct _ => inferInstanceAs (Decidable True)

instance (p : PendingSend) : Decidable p.NothingSent :=
  match p with
  | .heldBack _ => inferInstanceAs (Decidable True)
  | .direct _ => inferInstanceAs (Decidable (_ = _))

instance (c : TcpConnection) (p : PendingSend) : Decidable (p.DataFits c) :=
  match p with
  | .heldBack _ => inferInstanceAs (Decidable True)
  | .direct _ => inferInstanceAs (Decidable (_ ≤ _))

/-- The condition on a step: a call starts when no other is under way and sends directly only when nothing
is held back; what is sent fits the retransmission buffer; and no call fails after its first chunk. -/
def Undisturbed (s : SendSystem) : SendAction → Prop
  | .send data =>
    s.pending = [] ∧ ((s.conn.sendPath data).isDirect = true → s.conn.nagleBuf = [])
  | .nagleSection call => ∀ p ∈ s.pending[call]?, p.FlushFits s.conn
  | .transmit call ok => ok = false → ∀ p ∈ s.pending[call]?, p.NothingSent
  | .finish call => ∀ p ∈ s.pending[call]?, p.DataFits s.conn
  | .segment _ | .timeout | .setNodelay _ => True

instance (s : SendSystem) (a : SendAction) : Decidable (Undisturbed s a) :=
  match a with
  | .send _ => inferInstanceAs (Decidable (_ ∧ (_ → _)))
  | .nagleSection call => inferInstanceAs (Decidable (∀ p ∈ s.pending[call]?, p.FlushFits s.conn))
  | .transmit call _ => inferInstanceAs (Decidable (_ → ∀ p ∈ s.pending[call]?, p.NothingSent))
  | .finish call => inferInstanceAs (Decidable (∀ p ∈ s.pending[call]?, p.DataFits s.conn))
  | .segment _ | .timeout | .setNodelay _ => inferInstanceAs (Decidable True)

/-- A connection just established whose own initial sequence number was `iss`, acknowledged as it should
be. -/
structure ReadyToSend (iss : Seq) (c : TcpConnection) : Prop where
  takes : c.TakesData
  sndUna : c.sndUna = iss + 1
  sndNxt : c.sndNxt = iss + 1
  txBufSeq : c.txBufSeq = iss + 1
  txBuffer : c.txBuffer = []
  nagleBuf : c.nagleBuf = []

namespace TcpConnection

variable {iss : Seq} {assigned : List UInt8} {acked : Nat}

/-- The bytes up to `assigned` have sequence numbers, those up to `acked` are acknowledged, and the
retransmission buffer holds the ones in between. -/
structure Sending (iss : Seq) (assigned : List UInt8) (acked : Nat) (c : TcpConnection) : Prop where
  una : c.sndUna = seqAt iss acked
  nxt : c.sndNxt = seqAt iss assigned.length
  bufSeq : c.txBufSeq = c.sndUna
  buffer : c.txBuffer = assigned.drop acked
  le : acked ≤ assigned.length
  short : c.txBuffer.length ≤ maxTxBuffer

/-- The fields that sending is about are the same. -/
structure SameSend (c d : TcpConnection) : Prop where
  active : d.active = c.active
  state : d.state = c.state
  sndUna : d.sndUna = c.sndUna
  sndNxt : d.sndNxt = c.sndNxt
  txBuffer : d.txBuffer = c.txBuffer
  txBufSeq : d.txBufSeq = c.txBufSeq
  nagleBuf : d.nagleBuf = c.nagleBuf

theorem SameSend.refl (c : TcpConnection) : SameSend c c := ⟨rfl, rfl, rfl, rfl, rfl, rfl, rfl⟩

theorem SameSend.trans {c d e : TcpConnection} (h : SameSend c d) (h' : SameSend d e) : SameSend c e :=
  ⟨h'.active.trans h.active, h'.state.trans h.state, h'.sndUna.trans h.sndUna,
    h'.sndNxt.trans h.sndNxt, h'.txBuffer.trans h.txBuffer, h'.txBufSeq.trans h.txBufSeq,
    h'.nagleBuf.trans h.nagleBuf⟩

variable {c d : TcpConnection}

theorem Sending.of_same (hs : c.Sending iss assigned acked) (h : SameSend c d) :
    d.Sending iss assigned acked where
  una := h.sndUna.trans hs.una
  nxt := h.sndNxt.trans hs.nxt
  bufSeq := h.txBufSeq.trans (hs.bufSeq.trans h.sndUna.symm)
  buffer := h.txBuffer.trans hs.buffer
  le := hs.le
  short := by
    rw [h.txBuffer]
    exact hs.short

theorem SameSend.takes (h : SameSend c d) (hc : c.TakesData) : d.TakesData := by
  unfold TakesData
  rw [h.active, h.state]
  exact hc

theorem ReceiveFrame.sameSend (h : ReceiveFrame c d) : SameSend c d where
  active := h.read TcpConnection.active
  state := h.read TcpConnection.state
  sndUna := h.read TcpConnection.sndUna
  sndNxt := h.read TcpConnection.sndNxt
  txBuffer := h.read TcpConnection.txBuffer
  txBufSeq := h.read TcpConnection.txBufSeq
  nagleBuf := h.read TcpConnection.nagleBuf

theorem prelude_sameSend (c : TcpConnection) (now : Nat) (ce : Bool) (h : TcpHeaderView) :
    SameSend c (((c.updateWindow h).updateTimestamp now h).updateEcn ce h) := by
  have hstamp (d : TcpConnection) : SameSend d (d.updateTimestamp now h) := by
    unfold updateTimestamp
    split
    · exact .refl d
    · split <;> exact ⟨rfl, rfl, rfl, rfl, rfl, rfl, rfl⟩
  refine SameSend.trans (d := (c.updateWindow h).updateTimestamp now h) ?_
    ⟨rfl, rfl, rfl, rfl, rfl, rfl, rfl⟩
  exact SameSend.trans (d := c.updateWindow h) ⟨rfl, rfl, rfl, rfl, rfl, rfl, rfl⟩ (hstamp _)

theorem onAckCongestion_sameSend (c : TcpConnection) (n : Nat) : SameSend c (c.onAckCongestion n) := by
  unfold onAckCongestion
  split
  · exact .refl c
  · split <;> exact ⟨rfl, rfl, rfl, rfl, rfl, rfl, rfl⟩

theorem reactToEce_sameSend (c : TcpConnection) (h : TcpHeaderView) : SameSend c (c.reactToEce h) := by
  unfold reactToEce
  split
  · exact ⟨rfl, rfl, rfl, rfl, rfl, rfl, rfl⟩
  · split <;> exact ⟨rfl, rfl, rfl, rfl, rfl, rfl, rfl⟩

theorem Sending.length (hs : c.Sending iss assigned acked) :
    c.txBuffer.length = assigned.length - acked := by
  rw [hs.buffer, List.length_drop]

theorem Sending.near (hs : c.Sending iss assigned acked) :
    assigned.length ≤ acked + 65536 := by
  have hlen := hs.length
  have hshort : c.txBuffer.length ≤ 65536 := hs.short
  omega

theorem Sending.inFlight (hs : c.Sending iss assigned acked) :
    (c.sndNxt - c.sndUna).toNat = assigned.length - acked := by
  have hnear := hs.near
  rw [hs.nxt, hs.una]
  exact seqAt_sub hs.le (by omega)

/-- Everything is acknowledged exactly when nothing is kept. -/
theorem Sending.una_eq_nxt (hs : c.Sending iss assigned acked) :
    c.sndUna = c.sndNxt ↔ acked = assigned.length := by
  have hnear := hs.near
  have hle := hs.le
  rw [hs.una, hs.nxt]
  exact seqAt_inj (by omega) (by omega)

/-! ## Acknowledgements -/

/-- New data is acknowledged: the buffer loses exactly the bytes that `snd_una` has moved past. -/
theorem acknowledge_sending (hs : c.Sending iss assigned acked) {ack : Seq}
    (hnew : 0 < c.bytesAcked ack) :
    ∃ acked', acked ≤ acked' ∧ (c.acknowledge ack).Sending iss assigned acked' ∧
      (c.acknowledge ack).nagleBuf = c.nagleBuf := by
  obtain ⟨-, hle⟩ := (bytesAcked_pos_iff c ack).mp hnew
  set k := (ack - c.sndUna).toNat with hk
  have hback : ack = seqAt iss (acked + k) := by
    rw [← seqAt_add, ← hs.una, hk]
    bv_omega
  have hadvance : c.advanceUna ack = { c with sndUna := ack } := by
    unfold advanceUna
    rw [if_pos hle]
  have hbytes : c.bytesAcked ack = k := by
    unfold bytesAcked
    rw [hadvance]
  rw [hs.inFlight] at hle
  rw [hbytes] at hnew
  have hlen := hs.length
  set d : TcpConnection := { c with sndUna := ack, dupAckCount := 0, retransmitCount := 0 } with hd
  have htrim : d.txBufferTrim k
      = { d with txBuffer := c.txBuffer.drop k, txBufSeq := c.txBufSeq + BitVec.ofNat 32 k } := by
    have hmin : min k d.txBuffer.length = k := by
      show min k c.txBuffer.length = k
      omega
    unfold txBufferTrim
    dsimp only
    rw [hmin, if_pos hnew]
  have hacked : c.acknowledge ack = (d.txBufferTrim k).onAckCongestion k := by
    unfold acknowledge
    rw [hbytes, hadvance]
  have hsame : SameSend (d.txBufferTrim k) (c.acknowledge ack) := by
    rw [hacked]
    exact onAckCongestion_sameSend _ _
  refine ⟨acked + k, by omega, Sending.of_same ?_ hsame, ?_⟩
  · rw [htrim]
    exact
      { una := hback
        nxt := hs.nxt
        bufSeq := by
          show c.txBufSeq + BitVec.ofNat 32 k = ack
          rw [hs.bufSeq, hs.una, hback, seqAt_add]
        buffer := by
          show c.txBuffer.drop k = _
          rw [hs.buffer, List.drop_drop]
        le := by omega
        short := by
          show (c.txBuffer.drop k).length ≤ _
          rw [List.length_drop]
          exact (Nat.sub_le ..).trans hs.short }
  · rw [hsame.nagleBuf, htrim]

/-! ## What a step sends -/

/-- A step that sends `r.2`: the stream is extended by the data sent at `snd_nxt`, which has left the
held-back bytes, and every segment carries its bytes of the stream. -/
structure Emission (iss : Seq) (assigned : List UInt8) (acked : Nat) (c : TcpConnection)
    (r : TcpConnection × List SentSegment) : Prop where
  takes : r.1.TakesData
  sending : ∃ acked', acked ≤ acked' ∧ r.1.Sending iss (assigned ++ newData c r.2) acked'
  held : c.nagleBuf = newData c r.2 ++ r.1.nagleBuf
  carried : ∀ g ∈ r.2, g.Carried iss (assigned ++ newData c r.2)

theorem newData_of_empty {sent : List SentSegment}
    (h : ∀ g ∈ sent, g.payload = []) : newData c sent = [] := by
  unfold newData
  rw [List.flatMap_eq_nil_iff]
  intro g hg
  exact h g (List.mem_of_mem_filter hg)

/-- Segments without data carry nothing. -/
theorem Emission.of_empty {sent : List SentSegment} {acked' : Nat}
    (htakes : d.TakesData) (hle : acked ≤ acked') (hs : d.Sending iss assigned acked')
    (hheld : d.nagleBuf = c.nagleBuf) (hempty : ∀ g ∈ sent, g.payload = []) :
    Emission iss assigned acked c (d, sent) := by
  have hnone : newData c sent = [] := newData_of_empty hempty
  refine ⟨htakes, ⟨acked', hle, ?_⟩, ?_, ?_⟩
  · show d.Sending iss (assigned ++ newData c sent) acked'
    rw [hnone, List.append_nil]
    exact hs
  · show c.nagleBuf = newData c sent ++ d.nagleBuf
    rw [hnone, List.nil_append, hheld]
  · intro g hg hne
    exact absurd (hempty g hg) hne

/-- Nothing happens. -/
theorem Emission.quiet (htakes : c.TakesData)
    (hs : c.Sending iss assigned acked) : Emission iss assigned acked c (c, []) :=
  .of_empty htakes (Nat.le_refl _) hs rfl (by simp)

/-- The Nagle flush sends the front of the held-back bytes at `snd_nxt`. -/
theorem nagleFlush_emission (htakes : c.TakesData)
    (hs : c.Sending iss assigned acked)
    (hfits : c.txBuffer.length + min c.nagleBuf.length c.effectiveMss ≤ maxTxBuffer) :
    Emission iss assigned acked c c.nagleFlush := by
  set n := min c.nagleBuf.length c.effectiveMss with hn
  have hnew : newData c c.nagleFlush.2 = c.nagleBuf.take n := by
    unfold newData nagleFlush
    simp [← hn]
  have hlen : (c.nagleBuf.take n).length = n := by
    rw [List.length_take]
    omega
  have hcopy : (c.nagleBuf.take n).take (min n (maxTxBuffer - c.txBuffer.length))
      = c.nagleBuf.take n := by
    rw [List.take_of_length_le]
    omega
  refine ⟨htakes, ⟨acked, Nat.le_refl _, ?_⟩, ?_, ?_⟩
  · rw [hnew]
    have hle := hs.le
    exact
      { una := hs.una
        nxt := by
          show c.sndNxt + BitVec.ofNat 32 n = _
          rw [hs.nxt, seqAt_add, List.length_append, hlen]
        bufSeq := hs.bufSeq
        buffer := by
          show c.txBuffer ++ (c.nagleBuf.take n).take (min n (maxTxBuffer - c.txBuffer.length)) = _
          rw [hcopy, hs.buffer, List.drop_append_of_le_length hle]
        le := by
          rw [List.length_append]
          omega
        short := by
          show (c.txBuffer ++ (c.nagleBuf.take n).take
            (min n (maxTxBuffer - c.txBuffer.length))).length ≤ _
          rw [hcopy, List.length_append, hlen]
          exact hfits }
  · rw [hnew]
    exact (List.take_append_drop n c.nagleBuf).symm
  · rw [hnew]
    intro g hg hne
    have hseg : g.seq = c.sndNxt ∧ g.payload = c.nagleBuf.take n := by
      unfold nagleFlush at hg
      simp only [List.mem_singleton, ← hn] at hg
      rw [hg]
      exact ⟨rfl, rfl⟩
    refine ⟨assigned.length, hseg.1.trans hs.nxt, ?_⟩
    rw [hseg.2, List.drop_left]

/-- A retransmission carries the first unacknowledged bytes, and is no new data. -/
theorem retransmit_emission (hc : c.Sending iss assigned acked)
    (hsame : SameSend c d) (htakes : d.TakesData) (flags : UInt8) (e : TcpConnection)
    (he : SameSend d e) : Emission iss assigned acked c (e, (d.retransmitFromBuffer flags).toList) := by
  have hd := hc.of_same hsame
  have hes := hd.of_same he
  cases hretx : d.retransmitFromBuffer flags with
  | none =>
    exact .of_empty (he.takes htakes) (Nat.le_refl _) hes (he.nagleBuf.trans hsame.nagleBuf) (by simp)
  | some g =>
    unfold retransmitFromBuffer at hretx
    dsimp only at hretx
    split at hretx
    · exact absurd hretx (by simp)
    · next hlen =>
      -- Something is kept, so `snd_una` is not `snd_nxt`.
      have hold : ¬ c.sndUna = c.sndNxt := by
        rw [hc.una_eq_nxt]
        have hdlen := hd.length
        omega
      have hseq : g.seq = c.sndUna := by
        cases hretx
        exact hsame.sndUna
      have hpayload : g.payload = c.txBuffer.take (min d.txBuffer.length d.effectiveMss) := by
        cases hretx
        show d.txBuffer.take _ = _
        rw [hsame.txBuffer]
      have hnone : newData c (some g).toList = [] := by
        unfold newData
        simp [hseq, hold]
      refine ⟨he.takes htakes, ⟨acked, Nat.le_refl _, ?_⟩, ?_, ?_⟩
      · show e.Sending iss (assigned ++ newData c (some g).toList) acked
        rw [hnone, List.append_nil]
        exact hes
      · show c.nagleBuf = newData c (some g).toList ++ e.nagleBuf
        rw [hnone, List.nil_append]
        exact (he.nagleBuf.trans hsame.nagleBuf).symm
      · intro f hf _
        have hfg : f = g := by simpa using hf
        subst hfg
        refine ⟨acked, hseq.trans hc.una, ?_⟩
        show f.payload <+: (assigned ++ newData c (some f).toList).drop acked
        rw [hnone, List.append_nil, hpayload, hc.buffer]
        exact List.take_prefix _ _

/-- A step that begins by taking an acknowledgement. -/
theorem Emission.of_base {r : TcpConnection × List SentSegment} {acked' : Nat}
    (hle : acked ≤ acked') (hnxt : d.sndNxt = c.sndNxt) (hheld : d.nagleBuf = c.nagleBuf)
    (h : Emission iss assigned acked' d r) : Emission iss assigned acked c r := by
  have hnew : newData d r.2 = newData c r.2 := by
    unfold newData
    rw [hnxt]
  obtain ⟨acked'', hle', hs⟩ := h.sending
  have hheld' := h.held
  have hcarried := h.carried
  rw [hnew] at hs hheld' hcarried
  exact ⟨h.takes, ⟨acked'', hle.trans hle', hs⟩, hheld.symm.trans hheld', hcarried⟩

/-- The ACK processing of `Established` sends a flush or a retransmission and is done, or leaves the
connection sending. -/
theorem establishedAck_spec (htakes : c.TakesData)
    (hs : c.Sending iss assigned acked) (h : TcpHeaderView) :
    (∀ sent, (c.establishedAck h).2 = some sent →
      Emission iss assigned acked c ((c.establishedAck h).1, sent)) ∧
      ((c.establishedAck h).2 = none → ∃ acked', acked ≤ acked' ∧
        (c.establishedAck h).1.Sending iss assigned acked' ∧
        (c.establishedAck h).1.nagleBuf = c.nagleBuf) := by
  have hstay : ∃ acked', acked ≤ acked' ∧ c.Sending iss assigned acked' ∧ c.nagleBuf = c.nagleBuf :=
    ⟨acked, Nat.le_refl _, hs, rfl⟩
  unfold establishedAck
  split
  · split
    · next hnew =>
      obtain ⟨acked', hle, hacked, hheld⟩ := acknowledge_sending hs hnew
      have hece := reactToEce_sameSend (c.acknowledge h.ack) h
      have hd := hacked.of_same hece
      have hheld' := hece.nagleBuf.trans hheld
      have hdtakes : ((c.acknowledge h.ack).reactToEce h).TakesData := by
        refine hece.takes ?_
        have hframe := acknowledge_frame c h.ack
        have hactive : (c.acknowledge h.ack).active = c.active := hframe.read TcpConnection.active
        have hstate : (c.acknowledge h.ack).state = c.state := hframe.read TcpConnection.state
        unfold TakesData
        rw [hactive, hstate]
        exact htakes
      dsimp only
      split
      · next hflush =>
        refine ⟨fun sent hsent => ?_, fun hnone => absurd hnone (by simp)⟩
        cases hsent
        -- All is acknowledged, so the flush fits an empty buffer.
        have hall := hd.una_eq_nxt.mp hflush.1
        have hlen := hd.length
        refine .of_base hle (hd.nxt.trans hs.nxt.symm) hheld' (nagleFlush_emission hdtakes hd ?_)
        have hmss : ((c.acknowledge h.ack).reactToEce h).effectiveMss ≤ 1460 := effectiveMss_le _
        unfold maxTxBuffer
        omega
      · exact ⟨fun sent hsent => absurd hsent (by simp), fun _ => ⟨acked', hle, hd, hheld'⟩⟩
    · next hold =>
      rw [advanceUna_of_bytesAcked hold]
      split
      · dsimp only
        split
        · refine ⟨fun sent hsent => ?_, fun hnone => absurd hnone (by simp)⟩
          cases hsent
          set e : TcpConnection :=
            ({ c with dupAckCount := min (c.dupAckCount + 1) 255 } : TcpConnection).fastRetransmit.1
          have hsame : SameSend c e := ⟨rfl, rfl, rfl, rfl, rfl, rfl, rfl⟩
          exact retransmit_emission hs hsame htakes (tcpAck ||| tcpPsh) e (.refl e)
        · split
          · refine ⟨fun sent hsent => absurd hsent (by simp), fun _ => ⟨acked, Nat.le_refl _, ?_, rfl⟩⟩
            exact hs.of_same ⟨rfl, rfl, rfl, rfl, rfl, rfl, rfl⟩
          · refine ⟨fun sent hsent => absurd hsent (by simp), fun _ => ⟨acked, Nat.le_refl _, ?_, rfl⟩⟩
            exact hs.of_same ⟨rfl, rfl, rfl, rfl, rfl, rfl, rfl⟩
      · exact ⟨fun sent hsent => absurd hsent (by simp), fun _ => hstay⟩
  · exact ⟨fun sent hsent => absurd hsent (by simp), fun _ => hstay⟩

theorem onEstablished_emission {c c' : TcpConnection} {h : TcpHeaderView} {sent : List SentSegment}
    (htakes : c.TakesData) (hs : c.Sending iss assigned acked)
    (hc : c.onEstablished h = some (c', sent)) : Emission iss assigned acked c (c', sent) := by
  obtain ⟨hanswered, hgoes⟩ := establishedAck_spec htakes hs h
  have hframe := establishedAck_frame c h
  unfold onEstablished at hc
  cases hack : c.establishedAck h with
  | mk d answer =>
    rw [hack] at hc hanswered hgoes hframe
    cases answer with
    | some answered =>
      obtain ⟨rfl, rfl⟩ := Prod.mk.inj (Option.some.inj hc)
      exact hanswered answered rfl
    | none =>
      obtain ⟨acked', hle, hd, hheld⟩ := hgoes rfl
      have hdtakes : d.TakesData := by
        have hactive : d.active = c.active := hframe.read TcpConnection.active
        have hstate : d.state = c.state := hframe.read TcpConnection.state
        unfold TakesData
        rw [hactive, hstate]
        exact htakes
      dsimp only at hc
      split at hc
      · obtain ⟨e, hdata, heq⟩ := Option.map_eq_some_iff.mp hc
        cases heq
        have hsame := (receiveData_frame hdata).sameSend
        refine .of_empty (hsame.takes hdtakes) hle (hd.of_same hsame)
          (hsame.nagleBuf.trans hheld) ?_
        simp [ackWithSack]
      · split at hc
        · cases hc
          refine .of_empty ⟨hdtakes.1, .inr rfl⟩ hle ?_ hheld ?_
          · exact ⟨hd.una, hd.nxt, hd.bufSeq, hd.buffer, hd.le, hd.short⟩
          · simp [controlSegment]
        · cases hc
          exact .of_empty hdtakes hle hd hheld (by simp)

/-- **A segment resets the connection or is one more step of sending.** -/
theorem receive_emission (htakes : c.TakesData)
    (hs : c.Sending iss assigned acked) {a : Arrival} {r : TcpConnection × List SentSegment}
    (hr : c.receive a = some r) : r.1.active = false ∨ Emission iss assigned acked c r := by
  unfold receive at hr
  rw [if_pos htakes.1] at hr
  unfold processTcpCommon at hr
  dsimp only at hr
  split at hr
  · cases hr
    right
    refine .of_empty htakes (Nat.le_refl _) ?_ rfl ?_
    · exact hs.of_same (d := c.updateWindow a.header) ⟨rfl, rfl, rfl, rfl, rfl, rfl, rfl⟩
    · simp [plainAck]
  · unfold afterPaws at hr
    dsimp only at hr
    have hsame := prelude_sameSend c a.now a.ipEcnCe a.header
    set d := ((c.updateWindow a.header).updateTimestamp a.now a.header).updateEcn a.ipEcnCe a.header
    have hd := hs.of_same hsame
    have hdtakes := hsame.takes htakes
    split at hr
    · cases hr
      exact .inl rfl
    · right
      split at hr
      · cases hr
        exact .of_empty hdtakes (Nat.le_refl _) hd hsame.nagleBuf (by simp [plainAck])
      · refine .of_base (Nat.le_refl _) hsame.sndNxt hsame.nagleBuf ?_
        unfold onState at hr
        rcases hdtakes.2 with hstate | hstate
        · rw [hstate] at hr
          obtain ⟨c', sent⟩ := r
          exact onEstablished_emission hdtakes hd hr
        · rw [hstate] at hr
          cases hr
          exact .quiet hdtakes hd

/-- A timeout gives the connection up or is one more step of sending. -/
theorem tickRetransmit_emission (htakes : c.TakesData)
    (hs : c.Sending iss assigned acked) :
    c.tickRetransmit.1.active = false ∨ Emission iss assigned acked c c.tickRetransmit := by
  unfold tickRetransmit
  split
  · exact .inr (.quiet htakes hs)
  · dsimp only
    split
    · exact .inl rfl
    · exact .inr (retransmit_emission hs ⟨rfl, rfl, rfl, rfl, rfl, rfl, rfl⟩ htakes _ _
        ⟨rfl, rfl, rfl, rfl, rfl, rfl, rfl⟩)

/-- The last section of a direct send that took its sequence number at `snd_nxt`. -/
theorem finishSend_sending (hs : c.Sending iss assigned acked) {d : DirectSend}
    (hseq : d.seq = c.sndNxt) (hfits : c.txBuffer.length + d.data.length ≤ maxTxBuffer) :
    (c.finishSend d).Sending iss (assigned ++ d.data) acked := by
  have hcopy : d.data.take (min d.data.length (maxTxBuffer - c.txBuffer.length)) = d.data := by
    rw [List.take_of_length_le]
    omega
  have hle := hs.le
  exact
    { una := hs.una
      nxt := by
        show d.seq + BitVec.ofNat 32 d.data.length = _
        rw [hseq, hs.nxt, seqAt_add, List.length_append]
      bufSeq := hs.bufSeq
      buffer := by
        show c.txBuffer ++ d.data.take (min d.data.length (maxTxBuffer - c.txBuffer.length)) = _
        rw [hcopy, hs.buffer, List.drop_append_of_le_length hle]
      le := by
        rw [List.length_append]
        omega
      short := by
        show (c.txBuffer ++ d.data.take
          (min d.data.length (maxTxBuffer - c.txBuffer.length))).length ≤ _
        rw [hcopy, List.length_append]
        exact hfits }

end TcpConnection

/-! ## Every run -/

namespace SendSystem

variable {iss : Seq}

/-- The calls under way: at most one, and a direct send has its sequence number at `snd_nxt` with nothing
held back. -/
def PendingOk (s : SendSystem) : Prop :=
  s.pending = [] ∨ (∃ data, s.pending = [.heldBack data]) ∨
    ∃ d, s.pending = [.direct d] ∧ d.seq = s.conn.sndNxt ∧ s.conn.nagleBuf = [] ∧
      d.offset ≤ d.data.length

/-- The invariant of a run while the connection carries data. -/
structure Live (iss : Seq) (s : SendSystem) : Prop where
  takes : s.conn.TakesData
  sending : ∃ acked, s.conn.Sending iss s.assigned acked
  order : s.accepted = s.assigned ++ s.conn.nagleBuf
  wire : ∀ g ∈ s.wire, g.Carried iss (s.assigned ++ s.pending.flatMap PendingSend.onWire)
  pending : s.PendingOk

/-- The invariant of a run: a connection that is gone stays gone. -/
def Inv (iss : Seq) (s : SendSystem) : Prop := s.conn.active = false ∨ s.Live iss

variable {s : SendSystem}

theorem Live.law (h : s.Live iss) : SendLaw iss s := by
  obtain ⟨acked, hs⟩ := h.sending
  exact ⟨hs.bufSeq, ⟨acked, hs.le, hs.una, hs.nxt, hs.buffer⟩, h.order, h.wire⟩

theorem Live.start {c : TcpConnection} (hc : ReadyToSend iss c) : (start c).Live iss where
  takes := hc.takes
  sending := ⟨0,
    { una := hc.sndUna.trans (seqAt_zero iss).symm
      nxt := hc.sndNxt.trans (seqAt_zero iss).symm
      bufSeq := hc.txBufSeq.trans hc.sndUna.symm
      buffer := hc.txBuffer
      le := Nat.le_refl _
      short := by
        show c.txBuffer.length ≤ _
        rw [hc.txBuffer]
        exact Nat.zero_le _ }⟩
  order := hc.nagleBuf.symm
  wire := by simp [SendSystem.start]
  pending := .inl rfl

/-- An emission under any of the calls that may be under way. -/
theorem Live.emit (h : s.Live iss) {r : TcpConnection × List SentSegment}
    (he : ∀ acked, s.conn.Sending iss s.assigned acked →
      TcpConnection.Emission iss s.assigned acked s.conn r) : (s.emit r).Live iss := by
  obtain ⟨acked, hs⟩ := h.sending
  have he := he acked hs
  obtain ⟨acked', -, hs'⟩ := he.sending
  refine ⟨he.takes, ⟨acked', hs'⟩, ?_, ?_, ?_⟩
  · show s.accepted = (s.assigned ++ newData s.conn r.2) ++ r.1.nagleBuf
    rw [h.order, List.append_assoc, ← he.held]
  · intro g hg
    rcases List.mem_append.mp hg with hold | hnew
    · refine (h.wire g hold).mono ?_
      show s.assigned ++ s.pending.flatMap PendingSend.onWire
        <+: (s.assigned ++ newData s.conn r.2) ++ s.pending.flatMap PendingSend.onWire
      rcases h.pending with hp | ⟨data, hp⟩ | ⟨d, hp, -, hnone, -⟩
      · rw [hp]
        simp
      · rw [hp]
        simp [PendingSend.onWire]
      · -- Nothing is held back during a direct send, so nothing new is sent.
        have hempty : newData s.conn r.2 = [] := by
          have := he.held
          rw [hnone] at this
          exact (List.append_eq_nil_iff.mp this.symm).1
        rw [hempty, List.append_nil]
    · exact (he.carried g hnew).mono (List.prefix_append _ _)
  · rcases h.pending with hp | hp | ⟨d, hp, hseq, hnone, hoff⟩
    · exact .inl hp
    · exact .inr (.inl hp)
    · have hheld := he.held
      rw [hnone] at hheld
      obtain ⟨hempty, hnone'⟩ := List.append_eq_nil_iff.mp hheld.symm
      refine .inr (.inr ⟨d, hp, ?_, hnone', hoff⟩)
      show d.seq = r.1.sndNxt
      rw [hs'.nxt, hempty, List.append_nil, hseq, hs.nxt]

/-- A call starts. -/
theorem Live.beginSend (h : s.Live iss) {data : List UInt8} (hnone : s.pending = [])
    (hfree : (s.conn.sendPath data).isDirect = true → s.conn.nagleBuf = []) :
    (s.beginSend data).Live iss := by
  have hwire := h.wire
  rw [hnone] at hwire
  unfold SendSystem.beginSend
  cases hpath : s.conn.sendPath data with
  | refused => exact h
  | wouldBlock => exact h
  | heldBack =>
    rw [hnone]
    exact ⟨h.takes, h.sending, h.order, hwire, .inr (.inl ⟨data, rfl⟩)⟩
  | direct n =>
    rw [hnone]
    have hnothing := hfree (by rw [hpath]; rfl)
    refine ⟨h.takes, h.sending, h.order, ?_, .inr (.inr ⟨_, rfl, rfl, hnothing, Nat.zero_le _⟩)⟩
    simpa [PendingSend.onWire, TcpConnection.directSend] using hwire

variable {call : Nat}

/-- The Nagle section of the call under way. -/
theorem Live.holdBack (h : s.Live iss) {data : List UInt8}
    (hcall : s.pending[call]? = some (.heldBack data))
    (hfits : (PendingSend.heldBack data).FlushFits s.conn) : (s.holdBack call data).Live iss := by
  -- The call is the only one under way.
  obtain ⟨hzero, hpending⟩ : call = 0 ∧ s.pending = [.heldBack data] := by
    rcases h.pending with hp | ⟨data', hp⟩ | ⟨d, hp, -⟩
    · rw [hp] at hcall
      exact absurd hcall (by simp)
    · rw [hp, List.getElem?_singleton] at hcall
      split at hcall
      · next hz => exact ⟨hz, by rw [hp, Option.some.inj hcall]⟩
      · exact absurd hcall (by simp)
    · rw [hp, List.getElem?_singleton] at hcall
      split at hcall
      · exact absurd hcall (by simp)
      · exact absurd hcall (by simp)
  subst hzero
  set c := s.conn.nagleAppend data with hc
  set taken := data.take (s.conn.nagleTakes data) with htaken
  obtain ⟨acked, hs⟩ := h.sending
  have hsc : c.Sending iss s.assigned acked := ⟨hs.una, hs.nxt, hs.bufSeq, hs.buffer, hs.le, hs.short⟩
  have hctakes : c.TakesData := h.takes
  have he : TcpConnection.Emission iss s.assigned acked c (s.conn.nagleSection data) := by
    unfold TcpConnection.nagleSection
    dsimp only
    rw [← hc]
    split
    · next hfull => exact TcpConnection.nagleFlush_emission hctakes hsc (hfits hfull)
    · exact .quiet hctakes hsc
  have hnew : newData c (s.conn.nagleSection data).2 = newData s.conn (s.conn.nagleSection data).2 := rfl
  obtain ⟨acked', -, hs'⟩ := he.sending
  have hheld := he.held
  have hcarried := he.carried
  rw [hnew] at hs' hheld hcarried
  refine ⟨he.takes, ⟨acked', hs'⟩, ?_, ?_, .inl ?_⟩
  · show s.accepted ++ taken
      = (s.assigned ++ newData s.conn (s.conn.nagleSection data).2) ++ (s.conn.nagleSection data).1.nagleBuf
    rw [h.order, List.append_assoc, List.append_assoc, ← hheld]
    rfl
  · intro g hg
    rcases List.mem_append.mp hg with hold | hsent
    · refine (h.wire g hold).mono ?_
      show s.assigned ++ s.pending.flatMap PendingSend.onWire
        <+: (s.assigned ++ newData s.conn (s.conn.nagleSection data).2) ++ _
      rw [hpending, List.append_assoc]
      simp [PendingSend.onWire]
    · exact (hcarried g hsent).mono (List.prefix_append _ _)
  · show s.pending.eraseIdx 0 = []
    rw [hpending]
    rfl

/-- The direct send under way. -/
theorem Live.direct_unique (h : s.Live iss) {d : DirectSend}
    (hcall : s.pending[call]? = some (.direct d)) :
    call = 0 ∧ s.pending = [.direct d] ∧ d.seq = s.conn.sndNxt ∧ s.conn.nagleBuf = [] ∧
      d.offset ≤ d.data.length := by
  rcases h.pending with hp | ⟨data, hp⟩ | ⟨d', hp, hseq, hnone, hoff⟩
  · rw [hp] at hcall
    exact absurd hcall (by simp)
  · rw [hp, List.getElem?_singleton] at hcall
    split at hcall
    · exact absurd hcall (by simp)
    · exact absurd hcall (by simp)
  · rw [hp, List.getElem?_singleton] at hcall
    split at hcall
    · next hz =>
      obtain rfl : d' = d := by simpa using hcall
      exact ⟨hz, hp, hseq, hnone, hoff⟩
    · exact absurd hcall (by simp)

/-- A chunk goes out. -/
theorem Live.transmit (h : s.Live iss) {d : DirectSend}
    (hcall : s.pending[call]? = some (.direct d)) :
    ({ s with
      pending := s.pending.set call (.direct d.advance), wire := s.wire ++ [d.nextChunk] } :
      SendSystem).Live iss := by
  obtain ⟨rfl, hpending, hseq, hnone, hoff⟩ := h.direct_unique hcall
  obtain ⟨acked, hs⟩ := h.sending
  have hset : s.pending.set 0 (.direct d.advance) = [.direct d.advance] := by rw [hpending]; rfl
  -- What is on the wire now is what was there followed by the chunk.
  have hgrown : d.data.take d.advance.offset = d.data.take d.offset ++ d.nextChunk.payload := by
    show d.data.take (min (d.offset + d.effMss) d.data.length)
      = d.data.take d.offset ++ (d.data.drop d.offset).take d.effMss
    rw [← List.take_add, List.take_eq_take_iff]
    omega
  refine ⟨h.takes, ⟨acked, hs⟩, h.order, ?_, ?_⟩
  · show ∀ g ∈ s.wire ++ [d.nextChunk],
      g.Carried iss (s.assigned ++ (s.pending.set 0 (.direct d.advance)).flatMap PendingSend.onWire)
    have hwire := h.wire
    rw [hpending] at hwire
    rw [hset]
    intro g hg
    rcases List.mem_append.mp hg with hold | hchunk
    · refine (hwire g hold).mono ?_
      simp only [List.flatMap_cons, List.flatMap_nil, List.append_nil, PendingSend.onWire]
      show _ <+: s.assigned ++ d.data.take d.advance.offset
      rw [hgrown, ← List.append_assoc]
      exact List.prefix_append _ _
    · rw [List.mem_singleton.mp hchunk]
      intro _
      refine ⟨s.assigned.length + d.offset, ?_, ?_⟩
      · show d.seq + BitVec.ofNat 32 d.offset = _
        rw [hseq, hs.nxt, seqAt_add]
      · simp only [List.flatMap_cons, List.flatMap_nil, List.append_nil, PendingSend.onWire]
        show _ <+: (s.assigned ++ d.data.take d.advance.offset).drop _
        have hlen : (d.data.take d.offset).length = d.offset := by
          rw [List.length_take]
          omega
        rw [hgrown, List.drop_length_add_append, List.drop_append_of_le_length (by omega),
          List.drop_of_length_le (by omega), List.nil_append]
  · refine .inr (.inr ⟨d.advance, hset, hseq, hnone, ?_⟩)
    show min (d.offset + d.effMss) d.data.length ≤ d.data.length
    omega

/-- The first chunk of a call fails. -/
theorem Live.fail (h : s.Live iss) {d : DirectSend}
    (hcall : s.pending[call]? = some (.direct d)) (hfirst : d.offset = 0) :
    ({ s with pending := s.pending.eraseIdx call } : SendSystem).Live iss := by
  obtain ⟨rfl, hpending, -⟩ := h.direct_unique hcall
  have hwire := h.wire
  rw [hpending] at hwire
  refine ⟨h.takes, h.sending, h.order, ?_, .inl ?_⟩
  · show ∀ g ∈ s.wire, g.Carried iss (s.assigned ++ (s.pending.eraseIdx 0).flatMap PendingSend.onWire)
    rw [hpending]
    simpa [PendingSend.onWire, hfirst] using hwire
  · show s.pending.eraseIdx 0 = []
    rw [hpending]
    rfl

/-- The last section of a call. -/
theorem Live.commit (h : s.Live iss) {d : DirectSend}
    (hcall : s.pending[call]? = some (.direct d))
    (hfits : s.conn.txBuffer.length + d.data.length ≤ maxTxBuffer) : (s.commit call d).Live iss := by
  obtain ⟨rfl, hpending, hseq, hnone, hoff⟩ := h.direct_unique hcall
  obtain ⟨acked, hs⟩ := h.sending
  have hwire := h.wire
  rw [hpending] at hwire
  have herased : s.pending.eraseIdx 0 = [] := by
    rw [hpending]
    rfl
  refine ⟨h.takes, ⟨acked, TcpConnection.finishSend_sending hs hseq hfits⟩, ?_, ?_, .inl herased⟩
  · show s.accepted ++ d.data = (s.assigned ++ d.data) ++ s.conn.nagleBuf
    rw [h.order, hnone]
    simp
  · show ∀ g ∈ s.wire,
      g.Carried iss ((s.assigned ++ d.data) ++ (s.pending.eraseIdx 0).flatMap PendingSend.onWire)
    rw [herased]
    intro g hg
    refine (hwire g hg).mono ?_
    simp only [List.flatMap_cons, List.flatMap_nil, List.append_nil, PendingSend.onWire]
    exact (List.prefix_append_right_inj _).mpr (List.take_prefix _ _)

/-! ## What a step of a call can be -/

variable {s' : SendSystem}

theorem step_nagleSection
    (h : s.step (.nagleSection call) = some s') :
    ∃ data, s.pending[call]? = some (.heldBack data) ∧ s' = s.holdBack call data := by
  simp only [SendSystem.step] at h
  split at h
  · next data hcall => exact ⟨data, hcall, (Option.some.inj h).symm⟩
  · exact absurd h (by simp)

theorem step_transmit {ok : Bool}
    (h : s.step (.transmit call ok) = some s') :
    ∃ d, s.pending[call]? = some (.direct d) ∧
      (ok = true ∧ s' = { s with
          pending := s.pending.set call (.direct d.advance), wire := s.wire ++ [d.nextChunk] } ∨
        ok = false ∧ s' = { s with pending := s.pending.eraseIdx call }) := by
  simp only [SendSystem.step] at h
  split at h
  · next d hcall =>
    split at h
    · exact absurd h (by simp)
    · split at h
      · next hok => exact ⟨d, hcall, .inl ⟨hok, (Option.some.inj h).symm⟩⟩
      · next hok => exact ⟨d, hcall, .inr ⟨by simpa using hok, (Option.some.inj h).symm⟩⟩
  · exact absurd h (by simp)

theorem step_finish (h : s.step (.finish call) = some s') :
    ∃ d, s.pending[call]? = some (.direct d) ∧ s' = s.commit call d := by
  simp only [SendSystem.step] at h
  split at h
  · next d hcall =>
    split at h
    · exact ⟨d, hcall, (Option.some.inj h).symm⟩
    · exact absurd h (by simp)
  · exact absurd h (by simp)

/-- A connection that is gone stays gone. -/
theorem step_inactive (h : s.conn.active = false) {a : SendAction}
    (hstep : s.step a = some s') : s'.conn.active = false := by
  have htakes : ¬ s.conn.TakesData := fun ht => absurd (ht.1.symm.trans h) (by simp)
  cases a with
  | send data =>
    cases hstep
    show (s.beginSend data).conn.active = false
    unfold SendSystem.beginSend TcpConnection.sendPath
    rw [if_pos htakes]
    exact h
  | nagleSection call =>
    obtain ⟨data, -, rfl⟩ := step_nagleSection hstep
    show (s.conn.nagleSection data).1.active = false
    unfold TcpConnection.nagleSection
    dsimp only
    split
    · exact h
    · exact h
  | transmit call ok =>
    obtain ⟨d, -, ⟨-, rfl⟩ | ⟨-, rfl⟩⟩ := step_transmit hstep
    · exact h
    · exact h
  | finish call =>
    obtain ⟨d, -, rfl⟩ := step_finish hstep
    exact h
  | segment a =>
    obtain ⟨r, hr, rfl⟩ := Option.map_eq_some_iff.mp hstep
    unfold TcpConnection.receive at hr
    rw [h] at hr
    cases hr
    exact h
  | timeout =>
    cases hstep
    show s.conn.tickRetransmit.1.active = false
    unfold TcpConnection.tickRetransmit
    rw [if_pos (.inl htakes)]
    exact h
  | setNodelay nodelay =>
    cases hstep
    show (s.conn.setNodelay nodelay).active = false
    unfold TcpConnection.setNodelay
    rw [h]
    exact h

/-- **One step keeps the invariant.** -/
theorem Live.step (h : s.Live iss) {a : SendAction} (hok : Undisturbed s a)
    (hstep : s.step a = some s') : s'.Inv iss := by
  cases a with
  | send data =>
    cases hstep
    exact .inr (h.beginSend hok.1 hok.2)
  | nagleSection call =>
    obtain ⟨data, hcall, rfl⟩ := step_nagleSection hstep
    exact .inr (h.holdBack hcall (hok _ hcall))
  | transmit call ok =>
    obtain ⟨d, hcall, ⟨-, rfl⟩ | ⟨hfailed, rfl⟩⟩ := step_transmit hstep
    · exact .inr (h.transmit hcall)
    · exact .inr (h.fail hcall (hok hfailed _ hcall))
  | finish call =>
    obtain ⟨d, hcall, rfl⟩ := step_finish hstep
    exact .inr (h.commit hcall (hok _ hcall))
  | segment a =>
    obtain ⟨r, hr, rfl⟩ := Option.map_eq_some_iff.mp hstep
    by_cases hgone : r.1.active = false
    · exact .inl hgone
    · refine .inr (h.emit fun acked hs => ?_)
      exact (TcpConnection.receive_emission h.takes hs hr).resolve_left hgone
  | timeout =>
    cases hstep
    by_cases hgone : s.conn.tickRetransmit.1.active = false
    · exact .inl hgone
    · refine .inr (h.emit fun acked hs => ?_)
      exact (TcpConnection.tickRetransmit_emission h.takes hs).resolve_left hgone
  | setNodelay nodelay =>
    cases hstep
    obtain ⟨acked, hs⟩ := h.sending
    have hset : s.conn.setNodelay nodelay = { s.conn with nagleEnabled := !nodelay } := by
      unfold TcpConnection.setNodelay
      rw [if_pos h.takes.1]
    right
    show ({ s with conn := s.conn.setNodelay nodelay } : SendSystem).Live iss
    rw [hset]
    refine ⟨h.takes, ⟨acked, ?_⟩, h.order, h.wire, h.pending⟩
    exact ⟨hs.una, hs.nxt, hs.bufSeq, hs.buffer, hs.le, hs.short⟩

end SendSystem

/-- **The law of the send side in every undisturbed run**, as long as the connection carries data. -/
theorem send_law {iss : Seq} {c : TcpConnection} (hc : ReadyToSend iss c) {s : SendSystem}
    (h : Runs.ReachBy SendSystem.step Undisturbed (fun s => s = .start c) s)
    (htakes : s.conn.TakesData) : SendLaw iss s := by
  have hinv : s.Inv iss := by
    refine h.invariant ?_ ?_
    · rintro s rfl
      exact .inr (.start hc)
    · intro s a s' hs hok hstep
      rcases hs with hgone | hlive
      · exact .inl (SendSystem.step_inactive hgone hstep)
      · exact hlive.step hok hstep
  rcases hinv with hgone | hlive
  · exact absurd (htakes.1.symm.trans hgone) (by simp)
  · exact hlive.law

/-- A connection established after this end opened it with number 1000; its peer takes segments of up to 536
bytes. -/
def sendConnection : TcpConnection :=
  { freshConnection 1000 with state := .established, sndUna := 1001, peerMss := 536 }

theorem sendConnection_ready : ReadyToSend 1000 sendConnection :=
  ⟨⟨rfl, .inl rfl⟩, rfl, rfl, rfl, rfl, rfl⟩

/-- The peer acknowledges everything before a sequence number. -/
def ackSegment (ack : Seq) : Arrival where
  now := 0
  ipEcnCe := false
  header :=
    { srcPort := 80, dstPort := 49200, seq := 0, ack := ack, flags := tcpAck, window := 1000
      options := [], payload := [], payload_lt := length_nil_lt }

/-- Three bytes are sent, a fourth is held back, the first three are sent again and then acknowledged. -/
def lossyRun : List SendAction :=
  [.send [1, 2, 3], .transmit 0 true, .finish 0, .send [4], .nagleSection 0, .timeout,
    .segment (ackSegment 1004)]

/-- After that run all four bytes have been accepted and given sequence numbers, and what the theorem says
holds. -/
theorem send_law_lossy :
    ∃ s, Runs.run SendSystem.step (.start sendConnection) lossyRun = some s ∧
      s.accepted = [1, 2, 3, 4] ∧ s.assigned = [1, 2, 3, 4] ∧ SendLaw 1000 s := by
  have hcheck : Runs.checkAlong SendSystem.step (fun s a => decide (Undisturbed s a))
      (.start sendConnection) lossyRun = true := by decide
  exact ⟨_, rfl, rfl, rfl, send_law sendConnection_ready (Runs.ReachBy.of_run (.start rfl) rfl
    (Runs.Along.of_check (fun s a h => of_decide_eq_true h) hcheck)) ⟨rfl, .inl rfl⟩⟩

/-- One byte is sent and not acknowledged, so the next is held back; then a write of a full segment goes out
at once. -/
def overtaking : List SendAction :=
  [.send [1], .transmit 0 true, .finish 0, .send [2], .nagleSection 0,
    .send (List.replicate 536 3), .transmit 0 true, .finish 0]

set_option maxRecDepth 4000 in
/-- **A full segment overtakes the bytes held back.** The calls come one after another and nothing fails, but
what has been given sequence numbers is not what has been accepted in call order. -/
theorem send_law_overtaken :
    ReadyToSend 1000 sendConnection ∧
      ∃ s, Runs.run SendSystem.step (.start sendConnection) overtaking = some s ∧ s.conn.TakesData ∧
        s.pending = [] ∧ ¬ SendLaw 1000 s := by
  refine ⟨sendConnection_ready, _, rfl, ⟨rfl, .inl rfl⟩, rfl, ?_⟩
  rintro ⟨-, -, horder, -⟩
  have hsecond := congrArg (fun l => l[1]?) horder
  exact absurd hsecond (by decide)

end SlateOS.Net.Tcp
