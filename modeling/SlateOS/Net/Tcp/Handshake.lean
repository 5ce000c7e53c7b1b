/-
# SlateOS.Net.Tcp.Handshake -- how a connection becomes established

A connection is opened by `connect_start` or by a listener's `handle_incoming_syn`, and then hears any
sequence of segments. It becomes established exactly on a segment that carries the flags its state waits
for and gets past the PAWS check; `snd_una` is then that segment's acknowledgement number, whatever it is.
The established state's own branch takes an acknowledgement number only between `snd_una` and `snd_nxt`.
-/
import SlateOS.Foundation.Runs
import SlateOS.Net.Tcp.Process

namespace SlateOS.Net.Tcp

open Foundation

/-- The fields of a connection that both ways of opening set alike. -/
def freshConnection (isn : Seq) : TcpConnection where
  active := true
  state := .synSent
  sndUna := isn
  sndNxt := isn + 1
  sndIss := isn
  sndWnd := defaultWindow
  rcvNxt := 0
  rcvIrs := 0
  rxBuffer := []
  remoteClosed := false
  localWriteClosed := false
  localReadClosed := false
  retransmitCount := 0
  nagleEnabled := nagleDefault
  nagleBuf := []
  cwnd := initialCwndSegs * mss
  ssthresh := u32Max
  wscaleOk := false
  sndWndScale := 0
  rcvWndScale := ourWscale
  sackOk := false
  sackBlocks := []
  oooBuf := []
  oooBase := 0
  dupAckCount := 0
  txBuffer := []
  txBufSeq := isn + 1
  peerMss := 0
  ecnOk := false
  ecnCePending := false
  ecnCwrSent := false
  tsOk := false
  tsRecent := 0
  tsRecentAgeNs := 0
  lastError := .none

/-- The connection `connect_start` sets up (`connect_tagged` sets up the same). -/
def connectStart (isn : Seq) : TcpConnection := freshConnection isn

/-- The connection `handle_incoming_syn` sets up for a SYN. -/
def handleIncomingSyn (isn : Seq) (now : Nat) (syn : TcpHeaderView) : TcpConnection :=
  let opts := parseTcpOptions syn.options
  { freshConnection isn with
    state := .synReceived
    sndWnd := syn.window
    rcvIrs := syn.seq
    rcvNxt := syn.seq + 1
    oooBase := syn.seq + 1
    wscaleOk := opts.wscale.isSome
    sndWndScale := opts.wscale.getD 0
    rcvWndScale := if opts.wscale.isSome then ourWscale else 0
    sackOk := opts.sackPermitted
    peerMss := opts.mss
    ecnOk := syn.has tcpEce && syn.has tcpCwr
    tsOk := opts.timestamp.isSome
    tsRecent := (opts.timestamp.map Prod.fst).getD 0
    tsRecentAgeNs := if opts.timestamp.isSome then now else 0 }

/-- How a connection comes about. -/
inductive Opening
  | connect (isn : Seq)
  | incomingSyn (isn : Seq) (now : Nat) (syn : TcpHeaderView)

namespace Opening

/-- The initial sequence number this end chose. -/
def isn : Opening → Seq
  | connect isn => isn
  | incomingSyn isn _ _ => isn

/-- The connection as it is set up. -/
def connection : Opening → TcpConnection
  | connect isn => connectStart isn
  | incomingSyn isn now syn => handleIncomingSyn isn now syn

end Opening

/-- A segment as it reaches a connection. -/
structure Arrival where
  now : Nat
  ipEcnCe : Bool
  header : TcpHeaderView

namespace TcpConnection

/-- A segment for the connection; a slot that is no longer active is not found. -/
def receive (c : TcpConnection) (a : Arrival) : Option (TcpConnection × List SentSegment) :=
  if c.active then c.processTcpCommon a.now a.ipEcnCe a.header else some (c, [])

/-- The connection after a segment. -/
def step (c : TcpConnection) (a : Arrival) : Option TcpConnection := (c.receive a).map Prod.fst

/-- The handshake is under way. -/
def Unestablished (c : TcpConnection) : Prop := c.state = .synSent ∨ c.state = .synReceived

/-- What the handshake owes: a step that establishes the connection is by a segment that acknowledges
exactly this end's SYN, and leaves `snd_una` there. -/
def Authentic (isn : Seq) (c : TcpConnection) (a : Arrival) : Prop :=
  c.Unestablished → ∀ c', c.step a = some c' → c'.state = .established →
    a.header.ack = isn + 1 ∧ c'.sndUna = isn + 1

/-- The segment is one that the state waits for: it gets to a live connection, past the PAWS check, resets
nothing and has the flags of the next message of the handshake. -/
def Completes (c : TcpConnection) (a : Arrival) : Prop :=
  c.active = true ∧ (c.timestampOf a.header).any (c.pawsRejects a.now) = false ∧
    a.header.has tcpRst = false ∧ a.header.has tcpAck = true ∧
    (c.state = .synSent → a.header.has tcpSyn = true)

/-- Whatever completes the handshake acknowledges exactly this end's SYN. -/
def Acknowledged (isn : Seq) (c : TcpConnection) (a : Arrival) : Prop :=
  c.Unestablished → c.Completes a → a.header.ack = isn + 1

/-! ## One step of the handshake -/

theorem updateTimestamp_state (c : TcpConnection) (now : Nat) (h : TcpHeaderView) :
    (c.updateTimestamp now h).state = c.state := by
  unfold updateTimestamp
  split
  · rfl
  · split <;> rfl

theorem onSynSent_established (c : TcpConnection) (now : Nat) (h : TcpHeaderView)
    (hstate : c.state = .synSent) :
    ((c.onSynSent now h).1.state = .established ↔ h.has tcpSyn = true ∧ h.has tcpAck = true) ∧
      ((c.onSynSent now h).1.state = .established → (c.onSynSent now h).1.sndUna = h.ack) := by
  unfold onSynSent
  cases hflags : h.has tcpSyn && h.has tcpAck with
  | true => simpa using hflags
  | false => simpa [hstate] using hflags

theorem onSynReceived_established (c : TcpConnection) (h : TcpHeaderView)
    (hstate : c.state = .synReceived) :
    ((c.onSynReceived h).1.state = .established ↔ h.has tcpAck = true) ∧
      ((c.onSynReceived h).1.state = .established → (c.onSynReceived h).1.sndUna = h.ack) := by
  unfold onSynReceived
  cases hack : h.has tcpAck with
  | true => simp
  | false =>
    simp only [Bool.false_eq_true, if_false, iff_false]
    split
    · simp
    · split <;> simp [hstate]

/-- What follows the PAWS check establishes a connection on exactly the segments it waits for. -/
theorem afterPaws_established {c : TcpConnection} (hopen : c.Unestablished) (now : Nat) (ce : Bool)
    (h : TcpHeaderView) :
    ∃ c' sent, c.afterPaws now ce h = some (c', sent) ∧
      (c'.state = .established ↔ h.has tcpRst = false ∧ h.has tcpAck = true ∧
        (c.state = .synSent → h.has tcpSyn = true)) ∧
      (c'.state = .established → c'.sndUna = h.ack) := by
  set d := (c.updateTimestamp now h).updateEcn ce h with hd
  have hstate : d.state = c.state := updateTimestamp_state c now h
  unfold afterPaws
  dsimp only
  rw [← hd]
  cases hrst : h.has tcpRst with
  | true =>
    have hclosed : d.reset.state = .closed := rfl
    exact ⟨d.reset, [], rfl, by simp [hclosed], by simp [hclosed]⟩
  | false =>
    have hunchecked : d.checksWindow = false := by
      unfold checksWindow
      rcases hopen with hopen | hopen <;> simp [hstate, hopen]
    simp only [Bool.false_eq_true, if_false, hunchecked, Bool.false_and]
    unfold onState
    rcases hopen with hopen | hopen
    · rw [hstate, hopen]
      obtain ⟨hiff, huna⟩ := onSynSent_established d now h (hstate.trans hopen)
      refine ⟨(d.onSynSent now h).1, (d.onSynSent now h).2, rfl, ?_, huna⟩
      rw [hiff]
      simp [and_comm]
    · rw [hstate, hopen]
      obtain ⟨hiff, huna⟩ := onSynReceived_established d h (hstate.trans hopen)
      refine ⟨(d.onSynReceived h).1, (d.onSynReceived h).2, rfl, ?_, huna⟩
      rw [hiff]
      simp

/-- **A segment establishes a connection exactly when it completes the handshake, and its acknowledgement
number is then `snd_una`.** -/
theorem step_established {c : TcpConnection} (hopen : c.Unestablished) (a : Arrival) :
    ∃ c', c.step a = some c' ∧ (c'.state = .established ↔ c.Completes a) ∧
      (c'.state = .established → c'.sndUna = a.header.ack) := by
  have hnot : c.state ≠ .established := by
    rcases hopen with hopen | hopen <;> simp [hopen]
  unfold step receive Completes
  cases hactive : c.active with
  | false => exact ⟨c, rfl, by simp [hnot], fun h => absurd h hnot⟩
  | true =>
    unfold processTcpCommon
    dsimp only
    -- Taking over the window changes nothing the PAWS check or the handshake looks at.
    have hpaws : ((c.updateWindow a.header).timestampOf a.header).any
        ((c.updateWindow a.header).pawsRejects a.now)
          = (c.timestampOf a.header).any (c.pawsRejects a.now) := rfl
    rw [hpaws]
    cases (c.timestampOf a.header).any (c.pawsRejects a.now) with
    | true =>
      refine ⟨c.updateWindow a.header, rfl, ?_, fun h => absurd h hnot⟩
      have : (c.updateWindow a.header).state ≠ .established := hnot
      simp [this]
    | false =>
      have hopen' : (c.updateWindow a.header).Unestablished := hopen
      obtain ⟨c', sent, hafter, hiff, huna⟩ :=
        afterPaws_established hopen' a.now a.ipEcnCe a.header
      refine ⟨c', by simp [hafter], ?_, huna⟩
      rw [hiff]
      have hsame : (c.updateWindow a.header).state = c.state := rfl
      simp [hsame]

theorem authentic_iff (isn : Seq) (c : TcpConnection) (a : Arrival) :
    c.Authentic isn a ↔ c.Acknowledged isn a := by
  unfold Authentic Acknowledged
  refine forall_congr' fun hopen => ?_
  obtain ⟨c', hstep, hiff, huna⟩ := step_established hopen a
  constructor
  · intro h hcompletes
    exact (h c' hstep (hiff.mpr hcompletes)).1
  · intro h d hd hest
    obtain rfl : c' = d := Option.some.inj (hstep.symm.trans hd)
    have hack := h (hiff.mp hest)
    exact ⟨hack, (huna hest).trans hack⟩

end TcpConnection

/-! ## Every sequence of segments -/

/-- **The handshake is authentic along a sequence of segments exactly when every segment that completes it
happens to acknowledge this end's SYN.** -/
theorem handshake_authentic_iff (o : Opening) (as : List Arrival) :
    Runs.Along TcpConnection.step (TcpConnection.Authentic o.isn) o.connection as ↔
      Runs.Along TcpConnection.step (TcpConnection.Acknowledged o.isn) o.connection as :=
  Runs.Along.congr (TcpConnection.authentic_iff o.isn) o.connection as

/-- A SYN-ACK from someone who does not know the initial sequence number. -/
def blindSynAck : Arrival where
  now := 0
  ipEcnCe := false
  header := { srcPort := 80, dstPort := 49200, seq := 5000, ack := 0, flags := tcpSyn ||| tcpAck, window := 1000
              options := [], payload := [], payload_lt := length_nil_lt }

/-- A connection that sent its SYN with number 1000 is established by a SYN-ACK for number 0. -/
theorem handshake_accepts_blind_ack :
    ¬ Runs.Along TcpConnection.step (TcpConnection.Authentic (Opening.connect 1000).isn)
      (Opening.connect 1000).connection [blindSynAck] := by
  rintro ⟨h, -⟩
  have hack := (h (.inl rfl) _ rfl rfl).1
  exact absurd hack (by decide)

end SlateOS.Net.Tcp
