/-
# SlateOS.Net.Tcp.CloseRuns -- the states of a close are entered by the right acknowledgements

The law of closing in every run: `FinWait2` and the end of `LastAck` are reached only by an acknowledgement
of this end's FIN, and a valid acknowledgement moves `snd_una` and trims the retransmission buffer in every
state after the handshake. It holds along every run whose segments do not hit the two gaps of
`process_tcp_common`: `LastAck` takes any acknowledgement for that of the FIN, and `CloseWait` and `TimeWait`
have no acknowledgement processing at all. Both gaps are reached by ordinary traffic.
-/
import SlateOS.Net.Tcp.Close

namespace SlateOS.Net.Tcp

open Foundation

/-- A FIN is covered by the acknowledgement of the number after it. -/
theorem seqLt_next (f : Seq) : seqLt f (f + 1) = true := by
  rw [seqLt_iff]
  bv_omega

namespace TcpConnection

variable {c d c' : TcpConnection} {h : TcpHeaderView} {a : Arrival}
  {r : TcpConnection × List SentSegment} {fin : Option Seq} {f ack : Seq}

/-! ## Acknowledged alike -/

theorem Acked.of_same (hacked : c.Acked ack d) (hsame : SameSend d c') : c.Acked ack c' where
  sndUna := hsame.sndUna.trans hacked.sndUna
  txBuffer := by
    rw [hsame.txBuffer]
    exact hacked.txBuffer
  txBufSeq := hsame.txBufSeq.trans hacked.txBufSeq

theorem Acked.of_base (hsame : SameSend c d) (hacked : d.Acked ack c') : c.Acked ack c' where
  sndUna := hacked.sndUna
  txBuffer := by
    rw [← hsame.txBuffer, ← hsame.sndUna]
    exact hacked.txBuffer
  txBufSeq := by
    rw [← hsame.txBuffer, ← hsame.sndUna, ← hsame.txBufSeq]
    exact hacked.txBufSeq

/-- The FIN of the peer, or another state, changes nothing about what is acknowledged. -/
theorem Acked.takeFin (hacked : c.Acked ack d) (state : TcpState) : c.Acked ack (d.takeFin state) :=
  ⟨hacked.sndUna, hacked.txBuffer, hacked.txBufSeq⟩

/-- An acknowledgement of what is acknowledged already finds its work done. -/
theorem Acked.of_old (c : TcpConnection) : c.Acked c.sndUna c := by
  have hzero : (c.sndUna - c.sndUna).toNat = 0 := by simp
  refine ⟨rfl, ?_, ?_⟩
  · rw [hzero]
    exact List.prefix_refl _
  · rw [hzero, Nat.zero_min]
    simp

theorem ValidAck.old (hvalid : c.ValidAck h) (hold : ¬ 0 < c.bytesAcked h.ack) : h.ack = c.sndUna := by
  rw [bytesAcked_pos_iff] at hold
  by_contra hne
  exact hold ⟨hne, hvalid.2⟩

theorem ValidAck.of_same (hvalid : c.ValidAck h) (hsame : SameSend c d) : d.ValidAck h := by
  unfold ValidAck
  rw [hsame.sndUna, hsame.sndNxt]
  exact hvalid

theorem txBufferTrim_txBuffer (c : TcpConnection) (n : Nat) :
    (c.txBufferTrim n).txBuffer = c.txBuffer.drop n := by
  unfold txBufferTrim
  dsimp only
  split
  · show c.txBuffer.drop (min n c.txBuffer.length) = _
    by_cases hle : n ≤ c.txBuffer.length
    · rw [Nat.min_eq_left hle]
    · rw [Nat.min_eq_right (by omega), List.drop_length, List.drop_of_length_le (by omega)]
  · next hnot =>
    rcases Nat.eq_zero_or_pos n with rfl | hpos
    · rfl
    · have hnil : c.txBuffer = [] := List.length_eq_zero_iff.mp (by omega)
      simp [hnil]

theorem txBufferTrim_txBufSeq (c : TcpConnection) (n : Nat) :
    (c.txBufferTrim n).txBufSeq = c.txBufSeq + BitVec.ofNat 32 (min n c.txBuffer.length) := by
  unfold txBufferTrim
  dsimp only
  split
  · rfl
  · next hnot =>
    have hzero : min n c.txBuffer.length = 0 := by omega
    simp [hzero]

/-- New data is acknowledged. -/
theorem acknowledge_acked (hnew : 0 < c.bytesAcked ack) : c.Acked ack (c.acknowledge ack) := by
  have hadvance : c.advanceUna ack = { c with sndUna := ack } := by
    unfold advanceUna
    rw [if_pos ((bytesAcked_pos_iff c ack).mp hnew).2]
  have hbytes : c.bytesAcked ack = (ack - c.sndUna).toNat := by
    unfold bytesAcked
    rw [hadvance]
  set e : TcpConnection := { c with sndUna := ack, dupAckCount := 0, retransmitCount := 0 } with he
  have hsame : SameSend (e.txBufferTrim (ack - c.sndUna).toNat) (c.acknowledge ack) := by
    unfold acknowledge
    dsimp only
    rw [hbytes, hadvance]
    exact onAckCongestion_sameSend _ _
  refine Acked.of_same ⟨?_, ?_, ?_⟩ hsame
  · exact hsame.sndUna.symm.trans (acknowledge_sndUna hnew)
  · rw [txBufferTrim_txBuffer]
  · exact txBufferTrim_txBufSeq ..

theorem acknowledge_sndNxt (c : TcpConnection) (ack : Seq) : (c.acknowledge ack).sndNxt = c.sndNxt := by
  have hadvance : (c.advanceUna ack).sndNxt = c.sndNxt := by
    unfold advanceUna
    split <;> rfl
  unfold acknowledge
  dsimp only
  rw [(onAckCongestion_sameSend _ _).sndNxt]
  unfold txBufferTrim
  dsimp only
  split
  · exact hadvance
  · exact hadvance

/-! ## The branch of `Established` -/

/-- The Nagle flush appends to the retransmission buffer. -/
theorem Acked.nagleFlush (hacked : c.Acked ack d) : c.Acked ack d.nagleFlush.1 :=
  ⟨hacked.sndUna, hacked.txBuffer.trans (List.prefix_append _ _), hacked.txBufSeq⟩

theorem establishedAck_acked (hvalid : c.ValidAck h) : c.Acked h.ack (c.establishedAck h).1 := by
  unfold establishedAck
  rw [if_pos hvalid.1]
  split
  · next hnew =>
    have hacked := (acknowledge_acked hnew).of_same (reactToEce_sameSend (c.acknowledge h.ack) h)
    dsimp only
    split
    · exact hacked.nagleFlush
    · exact hacked
  · next hold =>
    have hkeep : c.Acked h.ack c := by
      rw [hvalid.old hold]
      exact .of_old c
    rw [advanceUna_of_bytesAcked hold]
    have hsame : ∀ e : TcpConnection, SameSend c e → c.Acked h.ack e := fun e => hkeep.of_same
    split
    · dsimp only
      split
      · exact hsame _ ⟨rfl, rfl, rfl, rfl, rfl, rfl, rfl⟩
      · split
        · exact hsame _ ⟨rfl, rfl, rfl, rfl, rfl, rfl, rfl⟩
        · exact hsame _ ⟨rfl, rfl, rfl, rfl, rfl, rfl, rfl⟩
    · exact hkeep

/-- The branch of `Established` stays there or goes to `CloseWait`, and takes a valid acknowledgement. -/
theorem onEstablished_spec (hr : c.onEstablished h = some r) (hstate : c.state = .established) :
    (r.1.state = .established ∨ r.1.state = .closeWait) ∧ (c.ValidAck h → c.Acked h.ack r.1) := by
  have hframe : (c.establishedAck h).1.state = c.state :=
    (establishedAck_frame c h).read TcpConnection.state
  have hacks : c.ValidAck h → c.Acked h.ack (c.establishedAck h).1 := establishedAck_acked
  unfold onEstablished at hr
  cases hack : c.establishedAck h with
  | mk d answer =>
    rw [hack] at hr hframe hacks
    have hd : d.state = .established := hframe.trans hstate
    cases answer with
    | some sent =>
      cases hr
      exact ⟨.inl hd, hacks⟩
    | none =>
      dsimp only at hr
      split at hr
      · obtain ⟨e, hdata, rfl⟩ := Option.map_eq_some_iff.mp hr
        have hsame := (receiveData_frame hdata).sameSend
        exact ⟨.inl (hsame.state.trans hd), fun hvalid => (hacks hvalid).of_same hsame⟩
      · split at hr
        · cases hr
          exact ⟨.inr rfl, fun hvalid => (hacks hvalid).takeFin _⟩
        · cases hr
          exact ⟨.inl hd, hacks⟩

/-! ## The branch of `FinWait1` -/

theorem finWaitAck_acked (hvalid : c.ValidAck h) : c.Acked h.ack (c.finWaitAck h) := by
  unfold finWaitAck
  rw [if_pos hvalid.1]
  split
  · next hnew => exact acknowledge_acked hnew
  · next hold =>
    rw [advanceUna_of_bytesAcked hold, hvalid.old hold]
    exact .of_old c

theorem finWaitAck_sndNxt (c : TcpConnection) (h : TcpHeaderView) :
    (c.finWaitAck h).sndNxt = c.sndNxt := by
  unfold finWaitAck
  split
  · split
    · exact acknowledge_sndNxt c h.ack
    · next hold => rw [advanceUna_of_bytesAcked hold]
  · rfl

/-- `snd_una` stays or goes to the segment's acknowledgement number. -/
theorem finWaitAck_sndUna (c : TcpConnection) (h : TcpHeaderView) :
    (c.finWaitAck h).sndUna = c.sndUna ∨
      h.has tcpAck = true ∧ (c.finWaitAck h).sndUna = h.ack := by
  unfold finWaitAck
  split
  · next hack =>
    split
    · next hnew => exact .inr ⟨hack, acknowledge_sndUna hnew⟩
    · next hold =>
      rw [advanceUna_of_bytesAcked hold]
      exact .inl rfl
  · exact .inl rfl

/-- The FIN processing of `FinWait1` waits on, takes the peer's FIN, or finds everything acknowledged by a
segment without one. -/
theorem finWait1Fin_cases (c : TcpConnection) (h : TcpHeaderView) :
    c.finWait1Fin h = c ∨ c.finWait1Fin h = c.takeFin .timeWait ∨
      c.finWait1Fin h = { c with state := .finWait2 } ∧ h.has tcpFin = false ∧ c.sndUna = c.sndNxt := by
  unfold finWait1Fin
  split
  · exact .inr (.inl rfl)
  · split
    · next hdone =>
      obtain ⟨hfin, hall⟩ := Bool.and_eq_true_iff.mp hdone
      exact .inr (.inr ⟨rfl, by simpa using hfin, beq_iff_eq.mp hall⟩)
    · exact .inl rfl

theorem onFinWait1_eq (hr : c.onFinWait1 h = some r) :
    ∃ d, SameSend (c.finWaitAck h) d ∧ r.1 = d.finWait1Fin h := by
  obtain ⟨d, hdata, rfl⟩ := Option.map_eq_some_iff.mp hr
  exact ⟨d, (receiveData_frame hdata).sameSend, rfl⟩

/-! ## A segment up to its state's branch -/

theorem receive_gone (hgone : ¬ c.active = true) (hr : c.receive a = some r) : r = (c, []) := by
  unfold receive at hr
  rw [if_neg hgone] at hr
  exact (Option.some.inj hr).symm

/-- A segment is stopped on its way, where it resets the connection or changes nothing about sending, or
reaches the branch of the state. -/
theorem receive_cases (hactive : c.active = true) (hr : c.receive a = some r) :
    ¬ c.Passes a ∧
        (a.header.has tcpRst = true ∧ r.1.active = false ∧ r.1.state = .closed ∨ SameSend c r.1) ∨
      c.Passes a ∧ ∃ d, SameSend c d ∧ d.onState a.now a.header = some r := by
  unfold receive at hr
  rw [if_pos hactive] at hr
  unfold processTcpCommon at hr
  dsimp only at hr
  split at hr
  · next hpaws =>
    cases hr
    have hold : (c.timestampOf a.header).any (c.pawsRejects a.now) = true := hpaws
    refine .inl ⟨fun hpass => ?_, .inr ⟨rfl, rfl, rfl, rfl, rfl, rfl, rfl⟩⟩
    exact absurd (hold.symm.trans hpass.2.1) (by simp)
  · next hpaws =>
    have hfresh : (c.timestampOf a.header).any (c.pawsRejects a.now) = false :=
      Bool.eq_false_iff.mpr hpaws
    unfold afterPaws at hr
    dsimp only at hr
    have hsame := prelude_sameSend c a.now a.ipEcnCe a.header
    obtain ⟨ts, age, pending, hprelude, -⟩ := prelude_eq c a.now a.ipEcnCe a.header
    set d := ((c.updateWindow a.header).updateTimestamp a.now a.header).updateEcn a.ipEcnCe a.header
    -- The window check looks at nothing that the stages before it change.
    have hcheck : (d.checksWindow && !d.acceptable a.header)
        = (c.checksWindow && !c.acceptable a.header) := by
      rw [hprelude]
      rfl
    split at hr
    · next hrst =>
      cases hr
      exact .inl ⟨fun hpass => absurd (hrst.symm.trans hpass.2.2.1) (by simp), .inl ⟨hrst, rfl, rfl⟩⟩
    · next hrst =>
      have hrst' : a.header.has tcpRst = false := Bool.eq_false_iff.mpr hrst
      rw [hcheck] at hr
      split at hr
      · next hout =>
        cases hr
        exact .inl ⟨fun hpass => absurd (hout.symm.trans hpass.2.2.2) (by simp), .inr hsame⟩
      · next hin =>
        exact .inr ⟨⟨hactive, hfresh, hrst', Bool.eq_false_iff.mpr hin⟩, d, hsame, hr⟩

/-! ## The phase of a connection -/

/-- This end has not sent a FIN. -/
def Unfinished (c : TcpConnection) : Prop :=
  c.state = .synSent ∨ c.state = .synReceived ∨ c.state = .established ∨ c.state = .closeWait

/-- This end has sent its FIN with the number `f`, the last one. -/
structure Finished (f : Seq) (c : TcpConnection) : Prop where
  state : c.state = .finWait1 ∨ c.state = .finWait2 ∨ c.state = .timeWait ∨ c.state = .lastAck
  sndNxt : c.sndNxt = f + 1
  acked : c.state = .finWait2 → c.sndUna = c.sndNxt

/-- The connection is in a state that fits the FIN sent, if any. -/
def Phase (fin : Option Seq) (c : TcpConnection) : Prop :=
  match fin with
  | none => c.Unfinished
  | some f => c.Finished f

theorem Phase.of_same (hphase : c.Phase fin) (hsame : SameSend c d) : d.Phase fin := by
  cases fin with
  | none =>
    unfold Phase Unfinished
    rw [hsame.state]
    exact hphase
  | some f =>
    refine ⟨?_, hsame.sndNxt.trans hphase.sndNxt, ?_⟩
    · rw [hsame.state]
      exact hphase.state
    · rw [hsame.state, hsame.sndUna, hsame.sndNxt]
      exact hphase.acked

theorem onSynSent_unfinished (now : Nat) (hstate : c.state = .synSent) :
    (c.onSynSent now h).1.Unfinished := by
  unfold onSynSent
  split
  · exact .inr (.inr (.inl rfl))
  · exact .inl hstate

theorem onSynReceived_unfinished (hstate : c.state = .synReceived) :
    (c.onSynReceived h).1.active = false ∨ (c.onSynReceived h).1.Unfinished := by
  unfold onSynReceived
  split
  · exact .inr (.inr (.inr (.inl rfl)))
  · split
    · exact .inl rfl
    · split
      · exact .inr (.inr (.inl hstate))
      · exact .inr (.inr (.inl hstate))

/-- The branch of a state before the FIN stays before it. -/
theorem onState_unfinished {now : Nat} (hc : c.Unfinished) (hr : c.onState now h = some r) :
    r.1.active = false ∨ r.1.Unfinished := by
  unfold onState at hr
  rcases hc with hstate | hstate | hstate | hstate
  · rw [hstate] at hr
    cases hr
    exact .inr (onSynSent_unfinished now hstate)
  · rw [hstate] at hr
    cases hr
    exact onSynReceived_unfinished hstate
  · rw [hstate] at hr
    exact .inr (.inr (.inr (onEstablished_spec hr hstate).1))
  · rw [hstate] at hr
    cases hr
    exact .inr (.inr (.inr (.inr hstate)))

/-- The branch of a state after the FIN stays after it. -/
theorem onState_finished {now : Nat} (hc : c.Finished f) (hr : c.onState now h = some r) :
    r.1.active = false ∨ r.1.Finished f := by
  unfold onState at hr
  rcases hc.state with hstate | hstate | hstate | hstate
  · rw [hstate] at hr
    obtain ⟨d, hsame, hr⟩ := onFinWait1_eq hr
    have hnxt : d.sndNxt = f + 1 := hsame.sndNxt.trans ((finWaitAck_sndNxt c h).trans hc.sndNxt)
    have hd : d.state = .finWait1 :=
      hsame.state.trans (((finWaitAck_frame c h).read TcpConnection.state).trans hstate)
    right
    rcases finWait1Fin_cases d h with heq | heq | ⟨heq, -, hall⟩
    · rw [hr, heq]
      exact ⟨.inl hd, hnxt, fun h2 => absurd (hd.symm.trans h2) (by simp)⟩
    · rw [hr, heq]
      exact ⟨.inr (.inr (.inl rfl)), hnxt, fun h2 => absurd h2 (by simp [takeFin])⟩
    · rw [hr, heq]
      exact ⟨.inr (.inl rfl), hnxt, fun _ => hall⟩
  · rw [hstate] at hr
    obtain ⟨d, hdata, rfl⟩ := Option.map_eq_some_iff.mp hr
    have hsame := (receiveData_frame hdata).sameSend
    right
    dsimp only
    split
    · refine ⟨.inr (.inr (.inl rfl)), hsame.sndNxt.trans hc.sndNxt, fun h2 => ?_⟩
      exact absurd h2 (by simp [takeFin])
    · have hphase : c.Phase (some f) := hc
      exact hphase.of_same hsame
  · rw [hstate] at hr
    cases hr
    exact .inr hc
  · rw [hstate] at hr
    cases hr
    show (c.onLastAck h).active = false ∨ (c.onLastAck h).Finished f
    unfold onLastAck
    split
    · exact .inl rfl
    · exact .inr hc

/-- **A segment keeps the phase.** -/
theorem receive_phase (hactive : c.active = true) (hphase : c.Phase fin) (hr : c.receive a = some r) :
    r.1.active = false ∨ r.1.Phase fin := by
  rcases receive_cases hactive hr with ⟨-, ⟨-, hgone, -⟩ | hsame⟩ | ⟨-, d, hsame, hstate⟩
  · exact .inl hgone
  · exact .inr (hphase.of_same hsame)
  · have hd := hphase.of_same hsame
    cases fin with
    | none => exact onState_unfinished hd hstate
    | some f => exact onState_finished hd hstate

/-! ## A segment obeys the law -/

/-- What has reached `FinWait1` leaves it for `FinWait2` by acknowledging the FIN. -/
theorem onFinWait1_covers (hc : c.Finished f) (hr : c.onFinWait1 h = some r)
    (hcond : c.sndUna = c.sndNxt → h.has tcpFin = false → h.Covers (some f))
    (hstate : c.state = .finWait1) (h2 : r.1.state = .finWait2) : h.Covers (some f) := by
  obtain ⟨d, hsame, hr⟩ := onFinWait1_eq hr
  have hd : d.state = .finWait1 :=
    hsame.state.trans (((finWaitAck_frame c h).read TcpConnection.state).trans hstate)
  rcases finWait1Fin_cases d h with heq | heq | ⟨-, hfin, hall⟩
  · rw [hr, heq, hd] at h2
    exact absurd h2 (by simp)
  · rw [hr, heq] at h2
    exact absurd h2 (by simp [takeFin])
  · rw [hsame.sndUna, hsame.sndNxt, finWaitAck_sndNxt] at hall
    rcases finWaitAck_sndUna c h with hold | ⟨hack, hnew⟩
    · exact hcond (hold.symm.trans hall) hfin
    · refine ⟨hack, f, rfl, ?_⟩
      rw [← hnew, hall, hc.sndNxt]
      exact seqLt_next f

/-- The branch of a synchronised state takes a valid acknowledgement, unless it is one of those that take
none and there is something new in it. -/
theorem onState_acked {now : Nat} (hsync : c.Synchronised) (hphase : c.Phase fin)
    (hr : c.onState now h = some r) (hvalid : c.ValidAck h) (hactive : r.1.active = true)
    (hcond : c.state = .closeWait ∨ c.state = .timeWait → ¬ 0 < c.bytesAcked h.ack) :
    c.Acked h.ack r.1 := by
  have hkeep : h.ack = c.sndUna → c.Acked h.ack c := by
    intro heq
    rw [heq]
    exact .of_old c
  unfold onState at hr
  rcases hsync with hstate | hstate | hstate | hstate | hstate | hstate
  · rw [hstate] at hr
    exact (onEstablished_spec hr hstate).2 hvalid
  · rw [hstate] at hr
    obtain ⟨d, hsame, hr⟩ := onFinWait1_eq hr
    have hd := (finWaitAck_acked hvalid).of_same hsame
    rcases finWait1Fin_cases d h with heq | heq | ⟨heq, -⟩
    · rw [hr, heq]
      exact hd
    · rw [hr, heq]
      exact hd.takeFin _
    · rw [hr, heq]
      exact ⟨hd.sndUna, hd.txBuffer, hd.txBufSeq⟩
  · -- In `FinWait2` everything is acknowledged, so a valid acknowledgement is an old one.
    have hall : c.sndUna = c.sndNxt := by
      cases fin with
      | none =>
        have hopen : c.Unfinished := hphase
        simp [Unfinished, hstate] at hopen
      | some f => exact hphase.acked hstate
    have hold : h.ack = c.sndUna := by
      have hle := hvalid.2
      rw [← hall, BitVec.sub_self] at hle
      bv_omega
    rw [hstate] at hr
    obtain ⟨d, hdata, rfl⟩ := Option.map_eq_some_iff.mp hr
    have hd := (hkeep hold).of_same (receiveData_frame hdata).sameSend
    dsimp only
    split
    · exact hd.takeFin _
    · exact hd
  · rw [hstate] at hr
    cases hr
    exact hkeep (hvalid.old (hcond (.inl hstate)))
  · rw [hstate] at hr
    cases hr
    exact hkeep (hvalid.old (hcond (.inr hstate)))
  · -- An acknowledgement ends `LastAck`.
    rw [hstate] at hr
    cases hr
    have hgone : (c.onLastAck h).active = false := by
      unfold onLastAck
      rw [if_pos hvalid.1]
    exact absurd (hgone.symm.trans hactive) (by simp)

end TcpConnection

namespace CloseSystem

open TcpConnection

/-- The invariant: while the connection is in use, its state fits the FIN sent. -/
def Inv (s : CloseSystem) : Prop := s.conn.active = true → s.conn.Phase s.fin

variable {s s' : CloseSystem}

/-- A segment for a connection that is gone changes nothing, so it cannot break the law. -/
theorem lawful_gone {c : TcpConnection} {fin : Option Seq} {a : Arrival} (hgone : ¬ c.active = true) :
    CloseLaw fin c a c where
  finWait2 h1 h2 := absurd (h1.symm.trans h2) (by simp)
  closed h1 h2 := absurd (h1.symm.trans h2) (by simp)
  acked _ hpass := absurd hpass.1 hgone

/-- **A segment that meets the condition obeys the law.** -/
theorem Inv.lawful_segment (hinv : s.Inv) {a : Arrival} (hcond : s.SegmentCloses a)
    {r : TcpConnection × List SentSegment} (hr : s.conn.receive a = some r) :
    CloseLaw s.fin s.conn a r.1 := by
  by_cases hactive : s.conn.active = true
  · have hphase := hinv hactive
    rcases receive_cases hactive hr with ⟨hstop, hout⟩ | ⟨hpass, d, hsame, hd⟩
    · -- A segment that is stopped moves neither state the law speaks of.
      refine ⟨fun h1 h2 => ?_, fun h1 h2 hrst => ?_, fun _ hpass => absurd hpass hstop⟩
      · rcases hout with ⟨-, -, hclosed⟩ | hsame
        · exact absurd (hclosed.symm.trans h2) (by simp)
        · exact absurd (h1.symm.trans (hsame.state.symm.trans h2)) (by simp)
      · rcases hout with ⟨hrst', -⟩ | hsame
        · exact absurd (hrst'.symm.trans hrst) (by simp)
        · exact absurd (h1.symm.trans (hsame.state.symm.trans h2)) (by simp)
    · obtain ⟨hwait, hlast, hdeaf⟩ := hcond hpass
      have hdphase := hphase.of_same hsame
      refine ⟨fun h1 h2 => ?_, fun h1 h2 _ => ?_, fun hsync _ hvalid hlive => ?_⟩
      · have hdstate : d.state = .finWait1 := hsame.state.trans h1
        unfold onState at hd
        rw [hdstate] at hd
        cases hfin : s.fin with
        | none =>
          rw [hfin] at hphase
          have hopen : s.conn.Unfinished := hphase
          simp [Unfinished, h1] at hopen
        | some f =>
          rw [hfin] at hdphase hwait
          refine onFinWait1_covers hdphase hd ?_ hdstate h2
          rw [hsame.sndUna, hsame.sndNxt]
          exact hwait h1
      · have hdstate : d.state = .lastAck := hsame.state.trans h1
        unfold onState at hd
        rw [hdstate] at hd
        cases hd
        by_cases hack : a.header.has tcpAck = true
        · exact hlast h1 hack
        · have hstay : (d.onLastAck a.header).state = .lastAck := by
            unfold onLastAck
            rw [if_neg hack]
            exact hdstate
          exact absurd (hstay.symm.trans h2) (by simp)
      · refine .of_base hsame (onState_acked ?_ hdphase hd (hvalid.of_same hsame) hlive ?_)
        · unfold Synchronised
          rw [hsame.state]
          exact hsync
        · rw [hsame.state, bytesAcked_pos_iff, hsame.sndUna, hsame.sndNxt, ← bytesAcked_pos_iff]
          exact fun hstate => hdeaf hstate hvalid.1
  · obtain rfl := receive_gone hactive hr
    exact lawful_gone hactive

/-! ## Every step keeps the invariant -/

/-- A step that leaves the connection as it was as far as sending goes. -/
theorem Inv.of_same (hinv : s.Inv) (hsame : SameSend s.conn s'.conn) (hfin : s'.fin = s.fin) :
    s'.Inv := by
  intro hactive
  rw [hfin]
  exact (hinv (hsame.active.symm.trans hactive)).of_same hsame

/-- A step that ends the use of the connection. -/
theorem Inv.of_gone (hgone : s'.conn.active = false) : s'.Inv :=
  fun hactive => absurd (hgone.symm.trans hactive) (by simp)

/-- A step before the FIN that keeps the state. -/
theorem Inv.unfinished (hinv : s.Inv) (hfin : s.fin = none) (hactive : s'.conn.active = s.conn.active)
    (hstate : s'.conn.state = s.conn.state) (hfin' : s'.fin = none) : s'.Inv := by
  intro hlive
  have hphase := hinv (hactive.symm.trans hlive)
  rw [hfin] at hphase
  rw [hfin']
  show s'.conn.Unfinished
  unfold Unfinished
  rw [hstate]
  exact hphase

theorem tickRetransmit_cases (c : TcpConnection) :
    c.tickRetransmit.1.active = false ∨ SameSend c c.tickRetransmit.1 := by
  unfold tickRetransmit
  split
  · exact .inr (.refl c)
  · dsimp only
    split
    · exact .inl rfl
    · exact .inr ⟨rfl, rfl, rfl, rfl, rfl, rfl, rfl⟩

theorem countRetransmit_cases {c : TcpConnection}
    {again : TcpConnection → TcpConnection × List SentSegment} (hagain : ∀ d, SameSend d (again d).1) :
    (c.countRetransmit again).1.active = false ∨ SameSend c (c.countRetransmit again).1 := by
  unfold countRetransmit
  dsimp only
  split
  · exact .inl rfl
  · refine .inr (SameSend.trans ?_ (hagain _))
    exact ⟨rfl, rfl, rfl, rfl, rfl, rfl, rfl⟩

/-- A timeout ends the connection or leaves it as it was as far as sending goes. -/
theorem tick_cases (c : TcpConnection) : c.tick.1.active = false ∨ SameSend c c.tick.1 := by
  unfold tick
  split
  · exact .inr (.refl c)
  · split
    · exact countRetransmit_cases fun d => .refl d
    iterate 2
      · refine countRetransmit_cases fun d => ?_
        split
        · exact ⟨rfl, rfl, rfl, rfl, rfl, rfl, rfl⟩
        · exact .refl d
    · exact tickRetransmit_cases c

/-- A step of the connection that ends it or leaves it as it was as far as sending goes. -/
theorem Inv.emit (hinv : s.Inv) {r : TcpConnection × List SentSegment}
    (h : r.1.active = false ∨ SameSend s.conn r.1) : (s.emit r).Inv := by
  rcases h with hgone | hsame
  · exact .of_gone hgone
  · exact hinv.of_same hsame rfl

theorem nagleSection_kept (c : TcpConnection) (data : List UInt8) :
    (c.nagleSection data).1.active = c.active ∧ (c.nagleSection data).1.state = c.state := by
  unfold nagleSection
  dsimp only
  split
  · exact ⟨rfl, rfl⟩
  · exact ⟨rfl, rfl⟩

/-- A step of sending, or a segment. -/
theorem Inv.sending (hinv : s.Inv) {t : SendSystem} {a : SendAction} (hok : s.ClosesWell (.send a))
    (hstep : s.sending.step a = some t) : ({ s with sending := t } : CloseSystem).Inv := by
  cases a with
  | send data =>
    cases hstep
    refine hinv.of_same ?_ rfl
    show SameSend s.sending.conn (s.sending.beginSend data).conn
    unfold SendSystem.beginSend
    split
    all_goals exact .refl _
  | nagleSection call =>
    obtain ⟨data, -, rfl⟩ := SendSystem.step_nagleSection hstep
    obtain ⟨hactive, hstate⟩ := nagleSection_kept s.sending.conn data
    exact hinv.unfinished hok hactive hstate hok
  | transmit call ok =>
    obtain ⟨d, -, ⟨-, rfl⟩ | ⟨-, rfl⟩⟩ := SendSystem.step_transmit hstep
    · exact hinv.of_same (.refl _) rfl
    · exact hinv.of_same (.refl _) rfl
  | finish call =>
    obtain ⟨d, -, rfl⟩ := SendSystem.step_finish hstep
    exact hinv.unfinished hok rfl rfl hok
  | segment a =>
    obtain ⟨r, hr, rfl⟩ := Option.map_eq_some_iff.mp hstep
    by_cases hactive : s.conn.active = true
    · rcases receive_phase hactive (hinv hactive) hr with hgone | hphase
      · exact .of_gone hgone
      · exact fun _ => hphase
    · obtain rfl := receive_gone hactive hr
      exact .of_gone (Bool.eq_false_iff.mpr hactive)
  | timeout =>
    cases hstep
    exact hinv.emit (tickRetransmit_cases s.conn)
  | setNodelay nodelay =>
    cases hstep
    refine hinv.of_same ?_ rfl
    show SameSend s.sending.conn (s.sending.conn.setNodelay nodelay)
    unfold setNodelay
    split
    · exact ⟨rfl, rfl, rfl, rfl, rfl, rfl, rfl⟩
    · exact .refl _

/-- A call that sends the FIN leaves the connection waiting for its acknowledgement. -/
theorem finished_of_sendsFin {c : TcpConnection} {p : PendingClose} (hfin : p.sendsFin = true) :
    (if p.shutdown then c.shutdownWrite p.seen p.seq else c.finishClose p).Finished p.seq := by
  obtain ⟨hdue, hsends⟩ := Bool.and_eq_true_iff.mp hfin
  have hseen : p.seen = .established ∨ p.seen = .closeWait := by
    simpa [PendingClose.finDue] using hdue
  split
  · unfold shutdownWrite
    rcases hseen with hseen | hseen
    · rw [hseen]
      exact ⟨.inl rfl, rfl, fun h2 => absurd h2 (by simp)⟩
    · rw [hseen]
      exact ⟨.inr (.inr (.inr rfl)), rfl, fun h2 => absurd h2 (by simp)⟩
  · next hclose =>
    have hread : (p.unread && p.finDue) = false := by
      simp only [hclose, Bool.false_or, Bool.not_eq_true'] at hsends
      simp [hsends]
    unfold finishClose
    rw [hread]
    rcases hseen with hseen | hseen
    · rw [hseen]
      exact ⟨.inl rfl, rfl, fun h2 => absurd h2 (by simp)⟩
    · rw [hseen]
      exact ⟨.inr (.inr (.inr rfl)), rfl, fun h2 => absurd h2 (by simp)⟩

/-- A call that sends no FIN ends the connection or leaves it as it was as far as sending goes. -/
theorem settle_without_fin {c : TcpConnection} {p : PendingClose} (hfin : p.sendsFin = false) :
    (if p.shutdown then c.shutdownWrite p.seen p.seq else c.finishClose p).active = false ∨
      SameSend c (if p.shutdown then c.shutdownWrite p.seen p.seq else c.finishClose p) := by
  split
  · next hshutdown =>
    have hdue : p.finDue = false := by
      simpa [PendingClose.sendsFin, hshutdown] using hfin
    right
    unfold shutdownWrite
    split
    · next hseen => simp [PendingClose.finDue, hseen] at hdue
    · next hseen => simp [PendingClose.finDue, hseen] at hdue
    · exact ⟨rfl, rfl, rfl, rfl, rfl, rfl, rfl⟩
  · next hclose =>
    left
    unfold finishClose
    split
    · rfl
    · next hread =>
      have hdue : p.finDue = false := by
        unfold PendingClose.sendsFin at hfin
        cases hdue : p.finDue with
        | false => rfl
        | true => simp [hdue, hclose] at hfin hread; simp [hfin] at hread
      split
      · next hseen => simp [PendingClose.finDue, hseen] at hdue
      · next hseen => simp [PendingClose.finDue, hseen] at hdue
      · rfl

/-- The last section of a call that closes. -/
theorem Inv.settle (hinv : s.Inv) (call : Nat) (p : PendingClose) (ok : Bool) :
    (s.settle call p ok).Inv := by
  unfold CloseSystem.settle
  dsimp only
  split
  · exact hinv.of_same (.refl _) rfl
  · cases hfin : p.sendsFin with
    | true => exact fun _ => finished_of_sendsFin hfin
    | false =>
      rcases settle_without_fin (c := s.conn) hfin with hgone | hsame
      · exact .of_gone hgone
      · exact hinv.of_same hsame rfl

/-- **Every step keeps the invariant.** -/
theorem Inv.step {a : CloseAction} (hinv : s.Inv) (hok : s.ClosesWell a) (hstep : s.step a = some s') :
    s'.Inv := by
  cases a with
  | send a =>
    obtain ⟨t, ht, rfl⟩ := Option.map_eq_some_iff.mp hstep
    exact hinv.sending hok ht
  | shutdownRead =>
    cases hstep
    refine hinv.emit (.inr ?_)
    unfold shutdownRead
    split
    · exact ⟨rfl, rfl, rfl, rfl, rfl, rfl, rfl⟩
    · exact .refl _
  | close | shutdown =>
    cases hstep
    exact hinv.of_same (.refl _) rfl
  | finish call ok =>
    obtain ⟨p, -, rfl⟩ := Option.map_eq_some_iff.mp hstep
    exact hinv.settle call p ok
  | tick =>
    cases hstep
    exact hinv.emit (tick_cases s.conn)
  | abort e =>
    cases hstep
    refine hinv.emit ?_
    unfold TcpConnection.abort
    split
    · exact .inl rfl
    · exact .inr (.refl _)

theorem Inv.start (o : Opening) : (start o).Inv := by
  intro _
  cases o with
  | connect isn => exact .inl rfl
  | incomingSyn isn now syn => exact .inr (.inl rfl)

theorem Inv.lawful {a : CloseAction} (hinv : s.Inv) (hok : s.ClosesWell a) : s.Lawful a := by
  cases a with
  | send a =>
    cases a with
    | segment a => exact fun r hr => hinv.lawful_segment hok hr
    | _ => exact trivial
  | _ => exact trivial

end CloseSystem

/-- **Every run whose steps all meet the condition obeys the law of closing at each of them.** -/
theorem close_law (o : Opening) (as : List CloseAction)
    (h : Runs.Along CloseSystem.step CloseSystem.ClosesWell (.start o) as) :
    Runs.Along CloseSystem.step CloseSystem.Lawful (.start o) as :=
  h.of_invariant (fun _ _ _ hinv hok hstep => CloseSystem.Inv.step hinv hok hstep)
    (fun _ _ hinv hok => hinv.lawful hok) (.start o)

/-- A segment of the peer once its number 0 has been taken: 100 was the SYN. -/
def peerSegment (seq ack : Seq) (flags : UInt8) : Arrival where
  now := 0
  ipEcnCe := false
  header :=
    { srcPort := 80, dstPort := 49200, seq := seq, ack := ack, flags := flags, window := 1000
      options := [], payload := [], payload_lt := length_nil_lt }

/-- The connection is opened and three bytes are sent on it. -/
def openedRun : List CloseAction :=
  [.send (.segment (peerSegment 100 1001 (tcpSyn ||| tcpAck))), .send (.send [1, 2, 3]),
    .send (.transmit 0 true), .send (.finish 0)]

/-- This end closes, the data and the FIN are acknowledged one after the other, and the peer closes. -/
def orderlyClose : List CloseAction :=
  openedRun ++ [.close, .finish 0 true, .send (.segment (peerSegment 101 1004 tcpAck)),
    .send (.segment (peerSegment 101 1005 tcpAck)),
    .send (.segment (peerSegment 101 1005 (tcpFin ||| tcpAck)))]

theorem close_law_orderly :
    Runs.Along CloseSystem.step CloseSystem.Lawful (.start (.connect 1000)) orderlyClose :=
  close_law (.connect 1000) orderlyClose
    (Runs.Along.of_check (fun _ _ h => of_decide_eq_true h)
      (by decide : Runs.checkAlong CloseSystem.step (fun s a => decide (s.ClosesWell a))
        (.start (.connect 1000)) orderlyClose = true))

/-- The peer closes with three bytes of this end on their way. -/
def halfClosed : List CloseAction :=
  openedRun ++ [.send (.segment (peerSegment 101 1001 (tcpFin ||| tcpAck)))]

/-- After that this end sends its FIN behind the three bytes. -/
def dataAcked : List CloseAction := halfClosed ++ [.shutdown, .finish 0 true]

/-- The next segment breaks the law: it ends `LastAck` without covering the FIN, or its valid
acknowledgement is not taken. -/
def CloseSystem.Breaks (s : CloseSystem) (a : Arrival) : Prop :=
  ∃ r ∈ s.conn.receive a,
    s.conn.state = .lastAck ∧ r.1.state = .closed ∧ a.header.has tcpRst = false ∧
        ¬ a.header.Covers s.fin ∨
      s.conn.state = .closeWait ∧ s.conn.Passes a ∧ a.header.has tcpAck = true ∧
        (a.header.ack - s.conn.sndUna).toNat ≤ (s.conn.sndNxt - s.conn.sndUna).toNat ∧
        r.1.active = true ∧ r.1.sndUna ≠ a.header.ack

instance (s : CloseSystem) (a : Arrival) : Decidable (s.Breaks a) :=
  inferInstanceAs (Decidable (∃ r ∈ s.conn.receive a, _))

theorem CloseSystem.Breaks.not_lawful {s : CloseSystem} {a : Arrival} (h : s.Breaks a) :
    ¬ s.Lawful (.send (.segment a)) := by
  intro hlaw
  obtain ⟨r, hr, ⟨hlast, hclosed, hrst, hcovers⟩ | ⟨hwait, hpass, hack, hvalid, hactive, hdeaf⟩⟩ := h
  · exact hcovers ((hlaw r hr).closed hlast hclosed hrst)
  · have hsync : s.conn.Synchronised := .inr (.inr (.inr (.inl hwait)))
    exact hdeaf ((hlaw r hr).acked hsync hpass ⟨hack, hvalid⟩ hactive).sndUna

set_option maxRecDepth 4000 in
/-- **The acknowledgement of data before the FIN ends `LastAck`, and one of data in `CloseWait` is not
taken.** -/
theorem close_law_broken :
    (∃ s, Runs.run CloseSystem.step (.start (.connect 1000)) dataAcked = some s ∧
      ¬ s.Lawful (.send (.segment (peerSegment 102 1004 tcpAck)))) ∧
    ∃ s, Runs.run CloseSystem.step (.start (.connect 1000)) halfClosed = some s ∧
      ¬ s.Lawful (.send (.segment (peerSegment 102 1004 tcpAck))) := by
  have hbreaks : ∀ as ∈ [dataAcked, halfClosed],
      ∃ s ∈ Runs.run CloseSystem.step (.start (.connect 1000)) as,
        s.Breaks (peerSegment 102 1004 tcpAck) := by
    decide
  obtain ⟨s, hs, hlast⟩ := hbreaks dataAcked (by simp)
  obtain ⟨t, ht, hwait⟩ := hbreaks halfClosed (by simp)
  exact ⟨⟨s, hs, hlast.not_lawful⟩, ⟨t, ht, hwait.not_lawful⟩⟩

end SlateOS.Net.Tcp
