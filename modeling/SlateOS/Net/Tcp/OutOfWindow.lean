/-
# SlateOS.Net.Tcp.OutOfWindow -- segments outside the receive window

In the synchronised states a segment that lies outside the receive window should have no effect. The window
check does see to that for everything that comes after it. The peer's window, the recorded timestamp and a
RST are taken over before it, so a segment is harmless exactly when those stages happen to change nothing.
When the window is closed, the check lets the empty segment at `rcv_nxt` through, and its acknowledgement
is processed.
-/
import SlateOS.Net.Tcp.Handshake

namespace SlateOS.Net.Tcp

/-- The segment is a bare acknowledgement. -/
def SentSegment.IsAck (s : SentSegment) : Prop :=
  s.payload = [] ∧ (s.flags = tcpAck ∨ s.flags = tcpAck ||| tcpEce)

namespace TcpConnection

/-- The states after the handshake. -/
def Synchronised (c : TcpConnection) : Prop :=
  c.state = .established ∨ c.state = .finWait1 ∨ c.state = .finWait2 ∨ c.state = .closeWait ∨
    c.state = .timeWait ∨ c.state = .lastAck

/-- A sequence number of the receive window. -/
def InWindow (c : TcpConnection) (s : Seq) : Prop := (s - c.rcvNxt).toNat < c.rcvWnd

/-- Neither the segment's own number nor any number it takes up is in the window. -/
def WhollyOutside (c : TcpConnection) (h : TcpHeaderView) : Prop :=
  ∀ i, i = 0 ∨ i < occupied h → ¬ c.InWindow (h.seq + BitVec.ofNat 32 i)

/-- What a segment outside the window must leave as it is. -/
structure Unchanged (c c' : TcpConnection) : Prop where
  state : c'.state = c.state
  sndUna : c'.sndUna = c.sndUna
  sndWnd : c'.sndWnd = c.sndWnd
  tsRecent : c'.tsRecent = c.tsRecent
  rcvNxt : c'.rcvNxt = c.rcvNxt
  rxBuffer : c'.rxBuffer = c.rxBuffer
  oooBuf : c'.oooBuf = c.oooBuf
  txBuffer : c'.txBuffer = c.txBuffer
  nagleBuf : c'.nagleBuf = c.nagleBuf

/-- A segment leaves the connection as it was and prompts at most acknowledgements. -/
def NoEffect (c : TcpConnection) (now : Nat) (ipEcnCe : Bool) (h : TcpHeaderView) : Prop :=
  ∃ c' sent, c.processTcpCommon now ipEcnCe h = some (c', sent) ∧ c.Unchanged c' ∧ ∀ s ∈ sent, s.IsAck

/-! ## When such a segment is harmless -/

/-- A timestamp that would be recorded is the one already recorded. -/
def KeepsTimestamp (c : TcpConnection) (h : TcpHeaderView) : Prop :=
  ∀ tsval, c.timestampOf h = some tsval → c.recordsTimestamp h = true → tsval = c.tsRecent

/-- The one segment outside the window that the check lets through: empty, at `rcv_nxt`, the window
closed. -/
def ClosedWindowProbe (c : TcpConnection) (h : TcpHeaderView) : Prop :=
  c.rcvWnd = 0 ∧ occupied h = 0 ∧ h.seq = c.rcvNxt

/-- The segment acknowledges nothing new. -/
def AcksNothing (c : TcpConnection) (h : TcpHeaderView) : Prop :=
  h.has tcpAck = false ∨ h.ack = c.sndUna ∨ (c.sndNxt - c.sndUna).toNat < (h.ack - c.sndUna).toNat

/-- A segment the check lets through changes nothing: it acknowledges nothing new, is not the third
duplicate with data to send again, and finds neither a FIN of this end acknowledged nor the last
acknowledgement awaited. -/
def ProbeHarmless (c : TcpConnection) (h : TcpHeaderView) : Prop :=
  match c.state with
  | .established =>
    c.AcksNothing h ∧ ¬ (h.has tcpAck = true ∧ c.dupAckCount = 2 ∧ c.txBuffer ≠ [])
  | .finWait1 => c.AcksNothing h ∧ c.sndUna ≠ c.sndNxt
  | .lastAck => h.has tcpAck = false
  | _ => True

/-- The segment announces the window already known, and either the PAWS check drops it, or it is no RST,
keeps the timestamp and, if the window check lets it through, is harmless there. -/
def Harmless (c : TcpConnection) (now : Nat) (h : TcpHeaderView) : Prop :=
  c.announcedWindow h = c.sndWnd ∧
    ((c.timestampOf h).any (c.pawsRejects now) = true ∨
      h.has tcpRst = false ∧ c.KeepsTimestamp h ∧ (c.ClosedWindowProbe h → c.ProbeHarmless h))

/-! ## The window check -/

variable {c : TcpConnection} {h : TcpHeaderView}

/-- Of the segments outside the window, the check lets exactly the probe of a closed window through. -/
theorem acceptable_of_outside (hout : c.WhollyOutside h) :
    c.acceptable h = true ↔ c.ClosedWindowProbe h := by
  have hstart : ¬ (h.seq - c.rcvNxt).toNat < c.rcvWnd := by
    have := hout 0 (.inl rfl)
    simpa [InWindow] using this
  unfold acceptable ClosedWindowProbe
  rw [segLen_eq]
  by_cases hwnd : c.rcvWnd = 0
  · simp [hwnd]
  · by_cases hlen : occupied h = 0
    · simp [hwnd, hlen, hstart, -BitVec.toNat_sub]
    · -- The last number of the segment is outside as well.
      have hlast : ¬ (h.seq + BitVec.ofNat 32 (occupied h - 1) - c.rcvNxt).toNat < c.rcvWnd :=
        hout (occupied h - 1) (.inr (by omega))
      simp [hwnd, hlen, hstart, hlast, -BitVec.toNat_sub]

/-- The stages before the RST change the window, the timestamp and the ECN echo. -/
theorem prelude_eq (c : TcpConnection) (now : Nat) (ce : Bool) (h : TcpHeaderView) :
    ∃ ts age pending,
      ((c.updateWindow h).updateTimestamp now h).updateEcn ce h =
          { c with
            sndWnd := c.announcedWindow h, tsRecent := ts, tsRecentAgeNs := age
            ecnCePending := pending } ∧
        (ts = c.tsRecent ↔ c.KeepsTimestamp h) := by
  have hstamp : (c.updateWindow h).timestampOf h = c.timestampOf h := rfl
  have hrecords : (c.updateWindow h).recordsTimestamp h = c.recordsTimestamp h := rfl
  unfold updateTimestamp KeepsTimestamp
  rw [hstamp, hrecords]
  cases c.timestampOf h with
  | none => exact ⟨c.tsRecent, c.tsRecentAgeNs, _, rfl, by simp⟩
  | some tsval =>
    cases c.recordsTimestamp h with
    | true => exact ⟨tsval, now, _, rfl, by simp⟩
    | false => exact ⟨c.tsRecent, c.tsRecentAgeNs, _, rfl, by simp⟩

/-! ## A probe of a closed window -/

theorem acknowledge_sndUna {ack : Seq} (h : 0 < c.bytesAcked ack) :
    (c.acknowledge ack).sndUna = ack := by
  have hadvance : (c.advanceUna ack).sndUna = ack := by
    rw [bytesAcked_pos_iff] at h
    unfold advanceUna
    rw [if_pos h.2]
  have htrim (d : TcpConnection) (n : Nat) : (d.txBufferTrim n).sndUna = d.sndUna := by
    unfold txBufferTrim
    dsimp only
    split <;> rfl
  have hcong (d : TcpConnection) (n : Nat) : (d.onAckCongestion n).sndUna = d.sndUna := by
    unfold onAckCongestion
    split
    · rfl
    · split <;> rfl
  unfold acknowledge
  dsimp only
  rw [hcong, htrim]
  exact hadvance

theorem reactToEce_sndUna (c : TcpConnection) (h : TcpHeaderView) :
    (c.reactToEce h).sndUna = c.sndUna := by
  unfold reactToEce
  split
  · rfl
  · split <;> rfl

theorem acksNothing_iff (c : TcpConnection) (h : TcpHeaderView) :
    c.AcksNothing h ↔ ¬ (h.has tcpAck = true ∧ 0 < c.bytesAcked h.ack) := by
  unfold AcksNothing
  rw [bytesAcked_pos_iff]
  cases h.has tcpAck with
  | false => simp
  | true =>
    simp only [Bool.true_eq_false, false_or, true_and, not_and, Nat.not_le]
    constructor
    · rintro (heq | hlt) hne
      · exact absurd heq hne
      · exact hlt
    · intro himp
      by_cases heq : h.ack = c.sndUna
      · exact .inl heq
      · exact .inr (himp heq)

/-- Nothing is retransmitted only when nothing is kept. -/
theorem retransmitFromBuffer_eq_none_iff (c : TcpConnection) (flags : UInt8) :
    c.retransmitFromBuffer flags = none ↔ c.txBuffer = [] := by
  have hmss := c.effectiveMss_pos
  unfold retransmitFromBuffer
  dsimp only
  rw [← List.length_eq_zero_iff]
  split
  · next h => simp only [true_iff]; omega
  · next h => simp only [reduceCtorEq, false_iff]; omega

theorem retransmitFromBuffer_not_ack {flags : UInt8} {s : SentSegment}
    (h : c.retransmitFromBuffer flags = some s) : ¬ s.IsAck := by
  have hmss := c.effectiveMss_pos
  unfold retransmitFromBuffer at h
  dsimp only at h
  split at h
  · exact absurd h (by simp)
  · next hlen =>
    cases h
    rintro ⟨hpayload, -⟩
    have := congrArg List.length hpayload
    simp only [List.length_take, List.length_nil] at this
    omega

theorem ackWithSack_isAck (c : TcpConnection) : c.ackWithSack.IsAck := by
  refine ⟨rfl, ?_⟩
  unfold ackWithSack
  dsimp only
  split
  · exact .inr rfl
  · exact .inl rfl

/-- What a branch did changed nothing and prompted at most acknowledgements. -/
def Quiet (c : TcpConnection) (r : TcpConnection × List SentSegment) : Prop :=
  c.Unchanged r.1 ∧ ∀ s ∈ r.2, s.IsAck

/-- What a branch did can be seen in the state, in `snd_una` or in what it sent. -/
def Disturbed (c : TcpConnection) (r : TcpConnection × List SentSegment) : Prop :=
  r.1.state ≠ c.state ∨ r.1.sndUna ≠ c.sndUna ∨ ∃ s ∈ r.2, ¬ s.IsAck

theorem Unchanged.refl (c : TcpConnection) : c.Unchanged c :=
  ⟨rfl, rfl, rfl, rfl, rfl, rfl, rfl, rfl, rfl⟩

theorem Quiet.of_self (c : TcpConnection) : c.Quiet (c, []) :=
  ⟨.refl c, by simp⟩

theorem receiveData_probe (hempty : h.payload = []) :
    c.receiveData h = some c := by
  unfold receiveData
  rw [if_pos hempty]

theorem finInOrder_probe (hfin : h.has tcpFin = false) :
    c.finInOrder h = false := by
  unfold finInOrder
  rw [hfin]
  rfl

theorem takesData_probe (hempty : h.payload = []) :
    c.takesData h = false := by
  unfold takesData
  simp [hempty]

theorem onEstablished_of_ack {c d : TcpConnection} (hempty : h.payload = [])
    (hfin : h.has tcpFin = false) (hack : c.establishedAck h = (d, none)) :
    c.onEstablished h = some (d, []) := by
  unfold onEstablished
  rw [hack]
  dsimp only
  rw [takesData_probe hempty, finInOrder_probe hfin]
  rfl

/-- An acknowledgement of new data moves `snd_una`. -/
theorem onEstablished_acks (hempty : h.payload = [])
    (hfin : h.has tcpFin = false) (hack : h.has tcpAck = true) (hnew : 0 < c.bytesAcked h.ack) :
    ∃ r, c.onEstablished h = some r ∧ r.1.sndUna = h.ack := by
  set d := (c.acknowledge h.ack).reactToEce h with hd
  have huna : d.sndUna = h.ack := by
    rw [hd, reactToEce_sndUna, acknowledge_sndUna hnew]
  have hcases : c.establishedAck h
      = if d.sndUna = d.sndNxt ∧ d.nagleBuf ≠ [] then (d.nagleFlush.1, some d.nagleFlush.2)
        else (d, none) := by
    unfold establishedAck
    rw [if_pos hack, if_pos hnew]
  by_cases hflush : d.sndUna = d.sndNxt ∧ d.nagleBuf ≠ []
  · rw [if_pos hflush] at hcases
    refine ⟨(d.nagleFlush.1, d.nagleFlush.2), ?_, huna⟩
    unfold onEstablished
    rw [hcases]
  · rw [if_neg hflush] at hcases
    exact ⟨(d, []), onEstablished_of_ack hempty hfin hcases, huna⟩

/-- A probe that acknowledges nothing new counts as a duplicate acknowledgement. -/
theorem onEstablished_duplicate (hempty : h.payload = [])
    (hfin : h.has tcpFin = false) (hack : h.has tcpAck = true) (hold : ¬ 0 < c.bytesAcked h.ack) :
    ∃ r, c.onEstablished h = some r ∧
      (c.Quiet r ∧ ¬ (c.dupAckCount = 2 ∧ c.txBuffer ≠ []) ∨
        c.Disturbed r ∧ c.dupAckCount = 2 ∧ c.txBuffer ≠ []) := by
  set d := { c with dupAckCount := min (c.dupAckCount + 1) 255 } with hd
  have hcases : c.establishedAck h
      = if d.dupAckCount = 3 then (d.fastRetransmit.1, some d.fastRetransmit.2)
        else if 3 < d.dupAckCount then
          ({ d with cwnd := min (d.cwnd + d.effectiveMss) u32Max }, none)
        else (d, none) := by
    unfold establishedAck
    rw [if_pos hack, if_neg hold, if_pos hempty, advanceUna_of_bytesAcked hold]
  have hcount : d.dupAckCount = 3 ↔ c.dupAckCount = 2 := by
    show min (c.dupAckCount + 1) 255 = 3 ↔ _
    omega
  by_cases hthird : d.dupAckCount = 3
  · rw [if_pos hthird] at hcases
    refine ⟨(d.fastRetransmit.1, d.fastRetransmit.2), ?_, ?_⟩
    · unfold onEstablished
      rw [hcases]
    · set e : TcpConnection := d.fastRetransmit.1
      have hsent : d.fastRetransmit.2 = (e.retransmitFromBuffer (tcpAck ||| tcpPsh)).toList := rfl
      have hbuf : e.txBuffer = c.txBuffer := rfl
      rw [hsent]
      cases hretx : e.retransmitFromBuffer (tcpAck ||| tcpPsh) with
      | none =>
        left
        have hnone := (retransmitFromBuffer_eq_none_iff _ _).mp hretx
        rw [hbuf] at hnone
        refine ⟨⟨⟨rfl, rfl, rfl, rfl, rfl, rfl, rfl, rfl, rfl⟩, by simp⟩, ?_⟩
        simp [hnone]
      | some s =>
        right
        refine ⟨.inr (.inr ⟨s, by simp, retransmitFromBuffer_not_ack hretx⟩), hcount.mp hthird, ?_⟩
        intro hnil
        have := (retransmitFromBuffer_eq_none_iff e (tcpAck ||| tcpPsh)).mpr (hbuf.trans hnil)
        rw [hretx] at this
        exact absurd this (by simp)
  · rw [if_neg hthird] at hcases
    have hno : ¬ (c.dupAckCount = 2 ∧ c.txBuffer ≠ []) := fun hand => hthird (hcount.mpr hand.1)
    by_cases hmore : 3 < d.dupAckCount
    · rw [if_pos hmore] at hcases
      refine ⟨_, onEstablished_of_ack hempty hfin hcases, .inl ⟨⟨?_, by simp⟩, hno⟩⟩
      exact ⟨rfl, rfl, rfl, rfl, rfl, rfl, rfl, rfl, rfl⟩
    · rw [if_neg hmore] at hcases
      refine ⟨_, onEstablished_of_ack hempty hfin hcases, .inl ⟨⟨?_, by simp⟩, hno⟩⟩
      exact ⟨rfl, rfl, rfl, rfl, rfl, rfl, rfl, rfl, rfl⟩

theorem onEstablished_probe (hstate : c.state = .established)
    (hempty : h.payload = []) (hfin : h.has tcpFin = false) :
    ∃ r, c.onEstablished h = some r ∧
      (c.ProbeHarmless h ∧ c.Quiet r ∨ ¬ c.ProbeHarmless h ∧ c.Disturbed r) := by
  unfold ProbeHarmless
  rw [hstate]
  dsimp only
  rw [acksNothing_iff]
  cases hack : h.has tcpAck with
  | false =>
    have hcases : c.establishedAck h = (c, none) := by
      unfold establishedAck
      simp [hack]
    exact ⟨(c, []), onEstablished_of_ack hempty hfin hcases, .inl ⟨by simp, .of_self c⟩⟩
  | true =>
    by_cases hnew : 0 < c.bytesAcked h.ack
    · obtain ⟨r, hr, huna⟩ := onEstablished_acks hempty hfin hack hnew
      refine ⟨r, hr, .inr ⟨by simp [hnew], .inr (.inl ?_)⟩⟩
      rw [huna]
      exact ((bytesAcked_pos_iff c h.ack).mp hnew).1
    · obtain ⟨r, hr, ⟨hquiet, hno⟩ | ⟨hdisturbed, hyes⟩⟩ :=
        onEstablished_duplicate hempty hfin hack hnew
      · exact ⟨r, hr, .inl ⟨⟨by simp [hnew], by simpa using hno⟩, hquiet⟩⟩
      · exact ⟨r, hr, .inr ⟨by simp [hnew, hyes], hdisturbed⟩⟩

theorem onFinWait1_probe (hstate : c.state = .finWait1)
    (hempty : h.payload = []) (hfin : h.has tcpFin = false) :
    ∃ r, c.onFinWait1 h = some r ∧
      (c.ProbeHarmless h ∧ c.Quiet r ∨ ¬ c.ProbeHarmless h ∧ c.Disturbed r) := by
  unfold ProbeHarmless
  rw [hstate]
  dsimp only
  rw [acksNothing_iff]
  have hfinished (d : TcpConnection) :
      d.finWait1Fin h = if d.sndUna = d.sndNxt then { d with state := .finWait2 } else d := by
    unfold finWait1Fin
    rw [finInOrder_probe hfin, hfin]
    simp
  refine ⟨((c.finWaitAck h).finWait1Fin h, [((c.finWaitAck h).finWait1Fin h).ackWithSack]), ?_, ?_⟩
  · unfold onFinWait1
    rw [receiveData_probe hempty]
    rfl
  · by_cases hnew : h.has tcpAck = true ∧ 0 < c.bytesAcked h.ack
    · right
      have hacked : c.finWaitAck h = c.acknowledge h.ack := by
        unfold finWaitAck
        rw [if_pos hnew.1, if_pos hnew.2]
      have huna : ((c.finWaitAck h).finWait1Fin h).sndUna = h.ack := by
        rw [hfinished, hacked]
        split
        · exact acknowledge_sndUna hnew.2
        · exact acknowledge_sndUna hnew.2
      refine ⟨by simp [hnew], .inr (.inl ?_)⟩
      rw [huna]
      exact ((bytesAcked_pos_iff c h.ack).mp hnew.2).1
    · have hkept : c.finWaitAck h = c := by
        unfold finWaitAck
        split
        · next hack =>
          have hold : ¬ 0 < c.bytesAcked h.ack := fun hlt => hnew ⟨hack, hlt⟩
          rw [if_neg hold, advanceUna_of_bytesAcked hold]
        · rfl
      rw [hkept, hfinished]
      by_cases hdone : c.sndUna = c.sndNxt
      · right
        rw [if_pos hdone]
        refine ⟨fun hand => hand.2 hdone, .inl ?_⟩
        simp [hstate]
      · left
        rw [if_neg hdone]
        refine ⟨⟨hnew, hdone⟩, .refl c, ?_⟩
        simpa using ackWithSack_isAck c

/-- **What the probe of a closed window does in each synchronised state.** -/
theorem onState_probe (hsync : c.Synchronised) (now : Nat)
    (hempty : h.payload = []) (hfin : h.has tcpFin = false) :
    ∃ r, c.onState now h = some r ∧
      (c.ProbeHarmless h ∧ c.Quiet r ∨ ¬ c.ProbeHarmless h ∧ c.Disturbed r) := by
  unfold onState
  rcases hsync with hs | hs | hs | hs | hs | hs
  · rw [hs]
    exact onEstablished_probe hs hempty hfin
  · rw [hs]
    exact onFinWait1_probe hs hempty hfin
  · rw [hs]
    refine ⟨(c, [c.ackWithSack]), ?_, .inl ⟨?_, .refl c, ?_⟩⟩
    · unfold onFinWait2
      rw [receiveData_probe hempty]
      simp [finInOrder_probe hfin]
    · unfold ProbeHarmless
      simp [hs]
    · simpa using ackWithSack_isAck c
  · rw [hs]
    exact ⟨(c, []), rfl, .inl ⟨by unfold ProbeHarmless; simp [hs], .of_self c⟩⟩
  · rw [hs]
    exact ⟨(c, []), rfl, .inl ⟨by unfold ProbeHarmless; simp [hs], .of_self c⟩⟩
  · rw [hs]
    refine ⟨(c.onLastAck h, []), rfl, ?_⟩
    unfold ProbeHarmless onLastAck
    rw [hs]
    dsimp only
    cases h.has tcpAck with
    | true => exact .inr ⟨by simp, .inl (by simp [hs])⟩
    | false => exact .inl ⟨rfl, .of_self c⟩

/-! ## Segments outside the window -/

/-- **A segment outside the receive window has no effect exactly when it is harmless before the window
check.** -/
theorem out_of_window_no_effect_iff (c : TcpConnection) (now : Nat) (ipEcnCe : Bool) (h : TcpHeaderView)
    (hsync : c.Synchronised) (hout : c.WhollyOutside h) :
    c.NoEffect now ipEcnCe h ↔ c.Harmless now h := by
  have hnot : c.state ≠ .closed := by
    rcases hsync with hs | hs | hs | hs | hs | hs <;> simp [hs]
  have hpaws : ((c.updateWindow h).timestampOf h).any ((c.updateWindow h).pawsRejects now)
      = (c.timestampOf h).any (c.pawsRejects now) := rfl
  unfold NoEffect Harmless processTcpCommon
  dsimp only
  rw [hpaws]
  cases (c.timestampOf h).any (c.pawsRejects now) with
  | true =>
    -- Dropped, but the window has been taken over.
    simp only [if_true, Option.some.injEq, true_or, and_true]
    constructor
    · rintro ⟨c', sent, heq, hsame, -⟩
      cases heq
      exact hsame.sndWnd
    · intro hwnd
      refine ⟨_, _, rfl, ⟨rfl, rfl, hwnd, rfl, rfl, rfl, rfl, rfl, rfl⟩, ?_⟩
      simp [SentSegment.IsAck, plainAck]
  | false =>
    obtain ⟨ts, age, pending, hprelude, hts⟩ := prelude_eq c now ipEcnCe h
    simp only [Bool.false_eq_true, if_false, false_or]
    unfold afterPaws
    rw [hprelude]
    set d : TcpConnection :=
      { c with
        sndWnd := c.announcedWindow h, tsRecent := ts, tsRecentAgeNs := age
        ecnCePending := pending } with hd
    dsimp only
    cases h.has tcpRst with
    | true =>
      -- A RST closes the connection wherever it lies.
      simp only [if_true, Option.some.injEq, Bool.true_eq_false, false_and, and_false, iff_false]
      rintro ⟨c', sent, heq, hsame, -⟩
      cases heq
      exact hnot hsame.state.symm
    | false =>
      have hchecks : d.checksWindow = true := by
        have hstate : d.state = c.state := rfl
        unfold checksWindow
        rw [hstate]
        rcases hsync with hs | hs | hs | hs | hs | hs <;> simp [hs]
      have hacceptable : d.acceptable h = true ↔ c.ClosedWindowProbe h :=
        acceptable_of_outside (c := d) hout
      simp only [Bool.false_eq_true, if_false, hchecks, Bool.true_and, true_and]
      by_cases hprobe : c.ClosedWindowProbe h
      · have hempty : h.payload = [] := by
          have := hprobe.2.1
          unfold occupied at this
          exact List.eq_nil_of_length_eq_zero (by omega)
        have hfin : h.has tcpFin = false := by
          have := hprobe.2.1
          unfold occupied at this
          cases hfin : h.has tcpFin with
          | false => rfl
          | true =>
            rw [hfin] at this
            simp at this
        have hsyncd : d.Synchronised := hsync
        obtain ⟨r, hr, hcases⟩ := onState_probe hsyncd now hempty hfin
        have hharmless : d.ProbeHarmless h ↔ c.ProbeHarmless h := Iff.rfl
        rw [hharmless] at hcases
        rw [hacceptable.mpr hprobe]
        simp only [Bool.not_true, Bool.false_eq_true, if_false, hr, Option.some.injEq, hprobe,
          forall_const]
        rcases hcases with ⟨hok, hquiet⟩ | ⟨hbad, hdisturbed⟩
        · constructor
          · rintro ⟨c', sent, rfl, hsame, -⟩
            exact ⟨hquiet.1.sndWnd.symm.trans hsame.sndWnd,
              hts.mp (hquiet.1.tsRecent.symm.trans hsame.tsRecent), hok⟩
          · rintro ⟨hwnd, hkeeps, -⟩
            have hu := hquiet.1
            exact ⟨r.1, r.2, rfl,
              ⟨hu.state, hu.sndUna, hu.sndWnd.trans hwnd, hu.tsRecent.trans (hts.mpr hkeeps),
                hu.rcvNxt, hu.rxBuffer, hu.oooBuf, hu.txBuffer, hu.nagleBuf⟩, hquiet.2⟩
        · constructor
          · rintro ⟨c', sent, rfl, hsame, hsent⟩
            rcases hdisturbed with hstate | huna | ⟨s, hs, hack⟩
            · exact absurd hsame.state hstate
            · exact absurd hsame.sndUna huna
            · exact absurd (hsent s hs) hack
          · rintro ⟨-, -, hok⟩
            exact absurd hok hbad
      · have hrefused : d.acceptable h = false := by
          rw [← Bool.not_eq_true, hacceptable]
          exact hprobe
        simp only [hrefused, Bool.not_false, if_true, Option.some.injEq, hprobe, false_imp_iff,
          and_true]
        constructor
        · rintro ⟨c', sent, heq, hsame, -⟩
          cases heq
          exact ⟨hsame.sndWnd, hts.mp hsame.tsRecent⟩
        · rintro ⟨hwnd, hkeeps⟩
          refine ⟨d, _, rfl, ⟨rfl, rfl, hwnd, hts.mpr hkeeps, rfl, rfl, rfl, rfl, rfl⟩, ?_⟩
          simp [SentSegment.IsAck, plainAck]

/-- A connection established after this end opened it with number 1000. -/
def quietConnection : TcpConnection :=
  { freshConnection 1000 with state := .established, sndUna := 1001, sndWnd := 1000, rcvNxt := 5001 }

/-- A RST far behind the receive window, with the window the peer last announced. -/
def strayReset : TcpHeaderView :=
  { srcPort := 80, dstPort := 49200, seq := 0, ack := 0, flags := tcpRst, window := 1000
    options := [], payload := [], payload_lt := length_nil_lt }

theorem strayReset_outside : quietConnection.WhollyOutside strayReset := by
  intro i hi
  have hzero : i = 0 := by
    have hnone : occupied strayReset = 0 := by decide
    omega
  subst hzero
  unfold InWindow
  decide

/-- A RST outside the window closes the connection. -/
theorem out_of_window_reset :
    quietConnection.Synchronised ∧ quietConnection.WhollyOutside strayReset ∧
      ¬ quietConnection.NoEffect 0 false strayReset := by
  refine ⟨.inl rfl, strayReset_outside, ?_⟩
  rintro ⟨c', sent, heq, hsame, -⟩
  cases heq
  exact absurd hsame.state (by decide)

/-- The same RST: by the rule it has an effect because it is a RST. -/
theorem out_of_window_no_effect_iff_at_reset :
    quietConnection.NoEffect 0 false strayReset ↔ quietConnection.Harmless 0 strayReset :=
  out_of_window_no_effect_iff quietConnection 0 false strayReset (.inl rfl) strayReset_outside

end TcpConnection

end SlateOS.Net.Tcp
