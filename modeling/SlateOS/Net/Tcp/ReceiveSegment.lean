/-
# SlateOS.Net.Tcp.ReceiveSegment -- one segment against the peer's stream

What a segment does to a connection that has received the first `r` bytes of the peer's stream, in every
state after the handshake: the connection has received `r'` bytes afterwards, and its receive buffer has
gained the bytes in between. The branch of each state is followed once; acknowledgements leave the receive
half alone, and the peer's FIN is taken only at the end of the stream.
-/
import SlateOS.Net.Tcp.Handshake
import SlateOS.Net.Tcp.Reassembly

namespace SlateOS.Net.Tcp

/-- The segment has data or a FIN, which have positions in the stream. -/
def TcpHeaderView.Bears (h : TcpHeaderView) : Prop := h.payload ≠ [] ∨ h.has tcpFin = true

namespace TcpConnection

variable {irs : Seq} {stream : List UInt8}

/-! ## The invariant -/

/-- While the connection is active: the peer's FIN has not come and the receive half is in step with the stream, or
it has come and the whole stream has been received. -/
def Stage (irs : Seq) (stream : List UInt8) (r : Nat) (c : TcpConnection) : Prop :=
  c.remoteClosed = false ∧ c.Buffered irs stream r ∨
    c.remoteClosed = true ∧ r = stream.length ∧ c.rcvNxt = seqAt irs (r + 1)

/-- The invariant of a connection that has received `r` bytes of the stream. -/
structure Received (irs : Seq) (stream : List UInt8) (r : Nat) (c : TcpConnection) : Prop where
  rcvNxt : c.rcvNxt = seqAt irs (r + c.remoteClosed.toNat)
  le : r ≤ stream.length
  opened : c.state ≠ .synSent ∧ c.state ≠ .synReceived
  stage : c.active = true → c.Stage irs stream r

/-- What a segment may do to a connection that has received `r` bytes: it has received `r'` afterwards, and
the receive buffer has gained the bytes in between unless they are discarded. -/
structure Outcome (irs : Seq) (stream : List UInt8) (r : Nat) (c : TcpConnection) (r' : Nat)
    (c' : TcpConnection) : Prop where
  received : c'.Received irs stream r'
  le : r ≤ r'
  near : r' < r + 2 ^ 18
  closed : c'.localReadClosed = c.localReadClosed
  fin : c.remoteClosed = true → c'.remoteClosed = true
  gained : c'.rxBuffer.drop c.rxBuffer.length
    = if c.localReadClosed then [] else (stream.drop r).take (r' - r)

variable {r : Nat} {c d : TcpConnection}

theorem Buffered.of_sendFrame (h : c.Buffered irs stream r)
    (hframe : SendFrame c d) : d.Buffered irs stream r := by
  have hbuf : d.oooBuf = c.oooBuf := hframe.read TcpConnection.oooBuf
  have hbase : d.oooBase = c.oooBase := hframe.read TcpConnection.oooBase
  have hblocks : d.sackBlocks = c.sackBlocks := hframe.read TcpConnection.sackBlocks
  have hrcv : d.rcvNxt = c.rcvNxt := hframe.read TcpConnection.rcvNxt
  refine ⟨hrcv.trans h.rcvNxt, h.le, ?_, ?_, ?_⟩
  · rw [hbuf, hbase]
    exact h.base
  · rw [hbuf]
    exact h.short
  · rw [hbuf, hblocks]
    exact h.blocks

theorem Stage.of_sendFrame (h : c.Stage irs stream r)
    (hframe : SendFrame c d) : d.Stage irs stream r := by
  rcases h with ⟨hopen, hb⟩ | ⟨hclosed, hr, hrcv⟩
  · exact .inl ⟨(hframe.read TcpConnection.remoteClosed).trans hopen, hb.of_sendFrame hframe⟩
  · exact .inr ⟨(hframe.read TcpConnection.remoteClosed).trans hclosed, hr,
      (hframe.read TcpConnection.rcvNxt).trans hrcv⟩

theorem Received.of_sendFrame (h : c.Received irs stream r)
    (hframe : SendFrame c d) : d.Received irs stream r := by
  have hstate : d.state = c.state := hframe.read TcpConnection.state
  have hactive : d.active = c.active := hframe.read TcpConnection.active
  have hremote : d.remoteClosed = c.remoteClosed := hframe.read TcpConnection.remoteClosed
  have hrcv : d.rcvNxt = c.rcvNxt := hframe.read TcpConnection.rcvNxt
  refine ⟨?_, h.le, by rw [hstate]; exact h.opened, ?_⟩
  · rw [hrcv, hremote]
    exact h.rcvNxt
  · intro hon
    exact (h.stage (hactive ▸ hon)).of_sendFrame hframe

theorem Stage.rcvNxt (h : c.Stage irs stream r) :
    c.rcvNxt = seqAt irs (r + c.remoteClosed.toNat) := by
  rcases h with ⟨hopen, hb⟩ | ⟨hclosed, -, hrcv⟩
  · rw [hopen]
    exact hb.rcvNxt
  · rw [hclosed]
    exact hrcv

theorem Stage.le (h : c.Stage irs stream r) : r ≤ stream.length := by
  rcases h with ⟨-, hb⟩ | ⟨-, hr, -⟩
  · exact hb.le
  · exact Nat.le_of_eq hr

/-- A step that leaves the receive half alone. -/
theorem Outcome.of_sendFrame (h : c.Received irs stream r)
    (hframe : SendFrame c d) : Outcome irs stream r c r d where
  received := h.of_sendFrame hframe
  le := Nat.le_refl _
  near := by omega
  closed := hframe.read TcpConnection.localReadClosed
  fin := fun hfin => (hframe.read TcpConnection.remoteClosed).trans hfin
  gained := by
    have hrx : d.rxBuffer = c.rxBuffer := hframe.read TcpConnection.rxBuffer
    rw [hrx]
    simp

/-! ## One segment -/

/-- What the window check and the condition on arrivals give about a segment at position `p`. -/
structure Placed (irs : Seq) (stream : List UInt8) (r p : Nat) (c : TcpConnection) (h : TcpHeaderView) :
    Prop where
  seq : h.seq = seqAt irs p
  piece : PieceAt stream p h.payload
  fin : h.has tcpFin = true → p + h.payload.length = stream.length
  after : r + 1 < p + 2 ^ 31
  before : p + h.payload.length < r + 2 ^ 31
  fits : c.sackOk = true → r < p → p + h.payload.length ≤ r + maxOooBuf

variable {p : Nat} {c' : TcpConnection} {h : TcpHeaderView}

/-- The data of a segment. -/
theorem receiveData_stage
    (hs : c.Stage irs stream r) (hp : h.payload ≠ [] → Placed irs stream r p c h)
    (hdata : c.receiveData h = some c') :
    ∃ r', r ≤ r' ∧ r' < r + 2 ^ 18 ∧ c'.Stage irs stream r' ∧ ReceiveFrame c c' ∧
      c'.rxBuffer = extendRx c.localReadClosed stream c.rxBuffer r r' := by
  have hstay : ∃ r', r ≤ r' ∧ r' < r + 2 ^ 18 ∧ c.Stage irs stream r' ∧ ReceiveFrame c c ∧
      c.rxBuffer = extendRx c.localReadClosed stream c.rxBuffer r r' :=
    ⟨r, Nat.le_refl _, by omega, hs, .refl c, (extendRx_self ..).symm⟩
  unfold receiveData at hdata
  by_cases hempty : h.payload = []
  · rw [if_pos hempty] at hdata
    cases hdata
    exact hstay
  · have hp := hp hempty
    have hend := hp.piece.le hempty
    have hafter := hp.after
    have hbefore := hp.before
    have hlen := h.payload_lt
    rw [if_neg hempty, hp.seq, hs.rcvNxt] at hdata
    rcases hs with ⟨hopen, hb⟩ | ⟨hclosed, hr, hrcv⟩
    · rw [hopen] at hdata
      by_cases hin : seqAt irs p = seqAt irs (r + false.toNat)
      · rw [if_pos hin] at hdata
        have hpr : p = r := (seqAt_inj (by omega) (by omega)).mp hin
        subst hpr
        obtain ⟨r', hle, hnear, hb', hrx⟩ := inOrderData_spec hb hp.piece hlen hempty hdata
        have hframe := inOrderData_frame hdata
        have hopen' : c'.remoteClosed = c.remoteClosed := hframe.read TcpConnection.remoteClosed
        exact ⟨r', hle, hnear, .inl ⟨hopen'.trans hopen, hb'⟩, hframe, hrx⟩
      · rw [if_neg hin] at hdata
        split at hdata
        · next hsack =>
          cases hdata
          rw [Bool.and_eq_true, seqLt_seqAt (by simp; omega) (by simp; omega)] at hsack
          obtain ⟨hok, hlt⟩ := hsack
          have hlt : r < p := hlt
          obtain ⟨hb', hrx⟩ := outOfOrderData_spec hb hp.piece hempty hlt (hp.fits hok hlt)
          have hframe := outOfOrderData_frame c (seqAt irs p) h.payload
          have hopen' : (c.outOfOrderData (seqAt irs p) h.payload).remoteClosed = c.remoteClosed :=
            hframe.read TcpConnection.remoteClosed
          refine ⟨r, Nat.le_refl _, by omega, .inl ⟨hopen'.trans hopen, hb'⟩, hframe, ?_⟩
          rw [hrx, extendRx_self]
        · cases hdata
          exact hstay
    · -- The whole stream has been received, so the piece lies before the receive position.
      rw [hclosed] at hdata
      have hne : ¬ seqAt irs p = seqAt irs (r + true.toNat) := by
        rw [seqAt_inj (by simp; omega) (by simp; omega)]
        simp only [Bool.toNat_true]
        omega
      have hnotAfter : ¬ (c.sackOk && seqLt (seqAt irs (r + true.toNat)) (seqAt irs p)) = true := by
        rw [Bool.and_eq_true, seqLt_seqAt (by simp; omega) (by simp; omega)]
        simp only [Bool.toNat_true]
        omega
      rw [if_neg hne, if_neg hnotAfter] at hdata
      cases hdata
      exact hstay

/-- The FIN of a segment. -/
theorem takeFin_stage (hs : c.Stage irs stream r)
    (hseq : h.seq = seqAt irs p) (hend : p + h.payload.length = stream.length)
    (hafter : stream.length < r + 2 ^ 31) (hfin : c.finInOrder h = true) (state : TcpState) :
    (c.takeFin state).Stage irs stream r := by
  unfold finInOrder at hfin
  rw [Bool.and_eq_true, beq_iff_eq, hseq, seqAt_add, hend, hs.rcvNxt] at hfin
  have hle := hs.le
  have hbool : c.remoteClosed.toNat ≤ 1 := Bool.toNat_le _
  have hpos := (seqAt_inj (by omega) (by omega)).mp hfin.2
  have hopen : c.remoteClosed = false := by
    rcases hs with ⟨hopen, -⟩ | ⟨hclosed, hr, -⟩
    · exact hopen
    · rw [hclosed, Bool.toNat_true] at hpos
      omega
  rw [hopen] at hpos
  have hr : stream.length = r := hpos
  refine .inr ⟨rfl, hr.symm, ?_⟩
  show c.rcvNxt + 1 = _
  rw [hs.rcvNxt, hopen]
  exact seqAt_add irs r 1

/-- An outcome whose stage is known, for any state it ends in other than those of the handshake. -/
theorem Outcome.of_stage {r r' : Nat} (hs : c'.Stage irs stream r') (hle : r ≤ r')
    (hnear : r' < r + 2 ^ 18) (hstate : c'.state ≠ .synSent ∧ c'.state ≠ .synReceived)
    (hclosed : c'.localReadClosed = c.localReadClosed)
    (hfin : c.remoteClosed = true → c'.remoteClosed = true)
    (hrx : c'.rxBuffer = extendRx c.localReadClosed stream c.rxBuffer r r') :
    Outcome irs stream r c r' c' where
  received := ⟨hs.rcvNxt, hs.le, hstate, fun _ => hs⟩
  le := hle
  near := hnear
  closed := hclosed
  fin := hfin
  gained := by
    rw [hrx]
    unfold extendRx
    split
    · exact List.drop_length
    · exact List.drop_left

/-- The stage does not depend on the state, on what this end has still to read or on what it has shut
down. -/
theorem Stage.withReads (h : c.Stage irs stream r) (state : TcpState)
    (sndNxt : Seq) (rxBuffer : List UInt8) (writeClosed readClosed : Bool) :
    ({ c with
      state := state, sndNxt := sndNxt, rxBuffer := rxBuffer, localWriteClosed := writeClosed
      localReadClosed := readClosed } : TcpConnection).Stage irs stream r := by
  rcases h with ⟨hopen, hb⟩ | hclosed
  · exact .inl ⟨hopen, hb.rcvNxt, hb.le, hb.base, hb.short, hb.blocks⟩
  · exact .inr hclosed

/-- An outcome counts from before the acknowledgement was processed. -/
theorem Outcome.of_frame_left {r r' : Nat} (hframe : SendFrame c d)
    (h : Outcome irs stream r d r' c') : Outcome irs stream r c r' c' := by
  have hclosed : d.localReadClosed = c.localReadClosed := hframe.read TcpConnection.localReadClosed
  have hremote : d.remoteClosed = c.remoteClosed := hframe.read TcpConnection.remoteClosed
  have hrx : d.rxBuffer = c.rxBuffer := hframe.read TcpConnection.rxBuffer
  exact
    { received := h.received
      le := h.le
      near := h.near
      closed := h.closed.trans hclosed
      fin := fun hc => h.fin (hremote.trans hc)
      gained := by
        rw [← hclosed, ← hrx]
        exact h.gained }

theorem Placed.of_frame
    (hp : Placed irs stream r p c h) (hframe : SendFrame c d) : Placed irs stream r p d h :=
  have hsack : d.sackOk = c.sackOk := hframe.read TcpConnection.sackOk
  { hp with fits := fun hok => hp.fits (hsack ▸ hok) }

/-- The peer's FIN of a placed segment. -/
theorem takeFin_placed {r r' p : Nat} {c e : TcpConnection}
    (hp : h.Bears → Placed irs stream r p c h) (hle : r ≤ r') (hs : e.Stage irs stream r')
    (hfin : e.finInOrder h = true) (state : TcpState) : (e.takeFin state).Stage irs stream r' := by
  have hflag : h.has tcpFin = true := by
    unfold finInOrder at hfin
    exact (Bool.and_eq_true _ _ ▸ hfin).1
  have hp := hp (.inr hflag)
  have hend := hp.fin hflag
  have hbefore := hp.before
  exact takeFin_stage hs hp.seq hend (by omega) hfin state

variable {sent : List SentSegment}

theorem onEstablished_outcome (hr : c.Received irs stream r) (hactive : c.active = true)
    (hp : h.Bears → Placed irs stream r p c h)
    (hc : c.onEstablished h = some (c', sent)) : ∃ r', Outcome irs stream r c r' c' := by
  have hframe := establishedAck_frame c h
  unfold onEstablished at hc
  cases hack : c.establishedAck h with
  | mk d answer =>
    rw [hack] at hc hframe
    have hd := (hr.stage hactive).of_sendFrame hframe
    have hdstate : d.state = c.state := hframe.read TcpConnection.state
    have hopened : d.state ≠ .synSent ∧ d.state ≠ .synReceived := by
      rw [hdstate]
      exact hr.opened
    cases answer with
    | some answered =>
      cases hc
      exact ⟨r, .of_sendFrame hr hframe⟩
    | none =>
      dsimp only at hc
      split at hc
      · obtain ⟨e, hdata, heq⟩ := Option.map_eq_some_iff.mp hc
        obtain ⟨rfl, -⟩ := Prod.mk.inj heq
        obtain ⟨r', hle, hnear, hs, hrecv, hrx⟩ :=
          receiveData_stage hd (fun hne => (hp (.inl hne)).of_frame hframe) hdata
        refine ⟨r', .of_frame_left hframe (.of_stage hs hle hnear ?_ ?_ ?_ hrx)⟩
        · have hestate : e.state = d.state := hrecv.read TcpConnection.state
          rw [hestate]
          exact hopened
        · exact hrecv.read TcpConnection.localReadClosed
        · intro hclosed
          exact (hrecv.read TcpConnection.remoteClosed).trans hclosed
      · split at hc
        · next hfin =>
          cases hc
          have hs := takeFin_placed hp (Nat.le_refl r) hd hfin .closeWait
          refine ⟨r, .of_frame_left hframe (.of_stage hs (Nat.le_refl r) (by omega) ?_ rfl ?_ ?_)⟩
          · exact ⟨by simp [takeFin], by simp [takeFin]⟩
          · exact fun _ => rfl
          · exact (extendRx_self ..).symm
        · cases hc
          exact ⟨r, .of_sendFrame hr hframe⟩

/-- What follows the data of a segment in `FinWait1` and `FinWait2`: the peer's FIN is taken or the state
changes. -/
theorem Outcome.of_finished {c d e f : TcpConnection}
    (hd : d.Stage irs stream r) (hframe : SendFrame c d) (hp : h.Bears → Placed irs stream r p c h)
    (hdata : d.receiveData h = some e)
    (hf : e.finInOrder h = true ∧ f = e.takeFin .timeWait ∨ f = { e with state := .finWait2 } ∨
      f = e ∧ (d.state ≠ .synSent ∧ d.state ≠ .synReceived)) :
    ∃ r', Outcome irs stream r c r' f := by
  obtain ⟨r', hle, hnear, hs, hrecv, hrx⟩ :=
    receiveData_stage hd (fun hne => (hp (.inl hne)).of_frame hframe) hdata
  have hclosed : e.localReadClosed = d.localReadClosed := hrecv.read TcpConnection.localReadClosed
  have hremote : e.remoteClosed = d.remoteClosed := hrecv.read TcpConnection.remoteClosed
  have hestate : e.state = d.state := hrecv.read TcpConnection.state
  rcases hf with ⟨hfin, rfl⟩ | rfl | ⟨rfl, hstate⟩
  · have hs' := takeFin_placed hp hle hs hfin .timeWait
    refine ⟨r', .of_frame_left hframe (.of_stage hs' hle hnear ?_ hclosed (fun _ => rfl) hrx)⟩
    exact ⟨by simp [takeFin], by simp [takeFin]⟩
  · refine ⟨r', .of_frame_left hframe (.of_stage (hs.withReads _ _ _ _ _) hle hnear ?_ hclosed ?_ hrx)⟩
    · exact ⟨by simp, by simp⟩
    · exact fun hc => hremote.trans hc
  · refine ⟨r', .of_frame_left hframe (.of_stage hs hle hnear ?_ hclosed ?_ hrx)⟩
    · rw [hestate]
      exact hstate
    · exact fun hc => hremote.trans hc

theorem onFinWait1_outcome (hr : c.Received irs stream r) (hactive : c.active = true)
    (hp : h.Bears → Placed irs stream r p c h)
    (hc : c.onFinWait1 h = some (c', sent)) : ∃ r', Outcome irs stream r c r' c' := by
  have hframe := finWaitAck_frame c h
  have hd := (hr.stage hactive).of_sendFrame hframe
  have hdstate : (c.finWaitAck h).state = c.state := hframe.read TcpConnection.state
  obtain ⟨e, hdata, heq⟩ := Option.map_eq_some_iff.mp hc
  cases heq
  refine Outcome.of_finished hd hframe hp hdata ?_
  unfold finWait1Fin
  split
  · next hfin => exact .inl ⟨hfin, rfl⟩
  · split
    · exact .inr (.inl rfl)
    · refine .inr (.inr ⟨rfl, ?_⟩)
      rw [hdstate]
      exact hr.opened

theorem onFinWait2_outcome (hr : c.Received irs stream r) (hactive : c.active = true)
    (hp : h.Bears → Placed irs stream r p c h)
    (hc : c.onFinWait2 h = some (c', sent)) : ∃ r', Outcome irs stream r c r' c' := by
  obtain ⟨e, hdata, heq⟩ := Option.map_eq_some_iff.mp hc
  cases heq
  refine Outcome.of_finished (hr.stage hactive) (.refl c) hp hdata ?_
  split
  · next hfin => exact .inl ⟨hfin, rfl⟩
  · exact .inr (.inr ⟨rfl, hr.opened⟩)

/-- A connection that is closed keeps what it has received. -/
theorem Outcome.of_closed (hr : c.Received irs stream r)
    (hrcv : c'.rcvNxt = c.rcvNxt) (hremote : c'.remoteClosed = c.remoteClosed)
    (hclosed : c'.localReadClosed = c.localReadClosed) (hactive : c'.active = false)
    (hstate : c'.state = .closed) (hrx : c'.rxBuffer = c.rxBuffer ∨ c'.rxBuffer = []) :
    Outcome irs stream r c r c' where
  received := by
    refine ⟨?_, hr.le, ?_, fun hon => ?_⟩
    · rw [hrcv, hremote]
      exact hr.rcvNxt
    · rw [hstate]
      exact ⟨by simp, by simp⟩
    · exact absurd hon (by simp [hactive])
  le := Nat.le_refl _
  near := by omega
  closed := hclosed
  fin := fun hfin => hremote.trans hfin
  gained := by
    rcases hrx with hrx | hrx <;> simp [hrx]

theorem onState_outcome {now : Nat} (hr : c.Received irs stream r) (hactive : c.active = true)
    (hp : h.Bears → Placed irs stream r p c h) (hc : c.onState now h = some (c', sent)) :
    ∃ r', Outcome irs stream r c r' c' := by
  unfold onState at hc
  split at hc
  · next hstate => exact absurd hstate hr.opened.1
  · next hstate => exact absurd hstate hr.opened.2
  · exact onEstablished_outcome hr hactive hp hc
  · exact onFinWait1_outcome hr hactive hp hc
  · exact onFinWait2_outcome hr hactive hp hc
  · cases hc
    refine ⟨r, ?_⟩
    unfold onLastAck
    split
    · exact .of_closed hr rfl rfl rfl rfl rfl (.inl rfl)
    · exact .of_sendFrame hr (.refl c)
  all_goals
    cases hc
    exact ⟨r, .of_sendFrame hr (.refl c)⟩

/-- **What a segment does to a connection.** -/
theorem step_outcome {a : Arrival} (hr : c.Received irs stream r)
    (hp : a.header.Bears → c.acceptable a.header = true → Placed irs stream r p c a.header)
    (hc : c.step a = some c') : ∃ r', Outcome irs stream r c r' c' := by
  unfold step receive at hc
  obtain ⟨⟨d, sent⟩, hd, rfl⟩ := Option.map_eq_some_iff.mp hc
  clear hc
  split at hd
  · next hactive =>
    unfold processTcpCommon at hd
    dsimp only at hd
    split at hd
    · cases hd
      exact ⟨r, .of_sendFrame hr rfl⟩
    · unfold afterPaws at hd
      dsimp only at hd
      have hframe := prelude_frame c a.now a.ipEcnCe a.header
      set e := ((c.updateWindow a.header).updateTimestamp a.now a.header).updateEcn a.ipEcnCe a.header
      have her := hr.of_sendFrame hframe
      have heactive : e.active = true := (hframe.read TcpConnection.active).trans hactive
      have hesame : e.acceptable a.header = c.acceptable a.header :=
        hframe.read fun d => d.acceptable a.header
      split at hd
      · cases hd
        exact ⟨r, .of_frame_left hframe (.of_closed her rfl rfl rfl rfl rfl (.inr rfl))⟩
      · split at hd
        · obtain ⟨rfl, -⟩ := Prod.mk.inj (Option.some.inj hd)
          exact ⟨r, .of_sendFrame hr hframe⟩
        · next hcheck =>
          -- The window check is on, so the segment passed it.
          have hon : e.checksWindow = true := by
            unfold checksWindow
            simp [her.opened.1, her.opened.2]
          have hok : c.acceptable a.header = true := by
            rw [← hesame]
            simpa [hon] using hcheck
          obtain ⟨r', hout⟩ :=
            onState_outcome her heactive (fun hb => (hp hb hok).of_frame hframe) hd
          exact ⟨r', .of_frame_left hframe hout⟩
  · cases hd
    exact ⟨r, .of_sendFrame hr (.refl _)⟩

end TcpConnection

end SlateOS.Net.Tcp
