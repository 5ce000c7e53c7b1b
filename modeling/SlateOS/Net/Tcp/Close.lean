/-
# SlateOS.Net.Tcp.Close -- closing a connection

`close`, `shutdown`, `abort` and all of `tick_retransmit` of `kernel/src/net/tcp.rs`, added to the system
that data is sent in: any number of calls and of segments, from the opening of the connection on, interleaved
where the code lets go of the table's lock. Both ways of closing read the state and `snd_nxt` under the lock,
send the FIN without it, and take the lock again to enter `FinWait1` or `LastAck`. The history adds the
sequence number of this end's FIN. The wait at the end of `close` reclaims only what is closed already and is
left out, and `abort` also stands for the clean-up after a time in `TimeWait` and `FinWait2`.
-/
import SlateOS.Net.Tcp.OutOfWindow
import SlateOS.Net.Tcp.ReceiveRuns
import SlateOS.Net.Tcp.SendRuns

namespace SlateOS.Net.Tcp

open Foundation

/-- A `close`, or a `shutdown` for writing, between its two lock sections. -/
structure PendingClose where
  /-- The call is `shutdown`. -/
  shutdown : Bool
  seen : TcpState
  seq : Seq
  ack : Seq
  /-- There is unread data, so `close` sends a RST. -/
  unread : Bool
  deriving DecidableEq

namespace PendingClose

/-- The state seen is one in which a FIN is due. -/
def finDue (p : PendingClose) : Bool := p.seen = .established || p.seen = .closeWait

/-- The call sends a FIN. -/
def sendsFin (p : PendingClose) : Bool := p.finDue && (p.shutdown || !p.unread)

/-- What the call sends. -/
def segment (p : PendingClose) : List SentSegment :=
  if p.finDue then
    [TcpConnection.controlSegment p.seq p.ack
      (if p.sendsFin then tcpFin ||| tcpAck else tcpRst ||| tcpAck)]
  else []

end PendingClose

namespace TcpConnection

/-- The first lock section of `close`. -/
def beginClose (c : TcpConnection) : Option PendingClose :=
  if !c.active then none
  else some
    { shutdown := false, seen := c.state, seq := c.sndNxt, ack := c.rcvNxt
      unread := c.rxBuffer != [] && !c.localReadClosed }

/-- The first lock section of `shutdown` for writing. -/
def beginShutdown (c : TcpConnection) : Option PendingClose :=
  if !c.active || c.localWriteClosed then none
  else some { shutdown := true, seen := c.state, seq := c.sndNxt, ack := c.rcvNxt, unread := false }

/-- The last lock section of `close`. -/
def finishClose (c : TcpConnection) (p : PendingClose) : TcpConnection :=
  if p.unread && p.finDue then c.deactivate
  else
    match p.seen with
    | .established => { c with state := .finWait1, sndNxt := p.seq + 1 }
    | .closeWait => { c with state := .lastAck, sndNxt := p.seq + 1 }
    | _ => c.deactivate

/-- `abort`, and the clean-up of a connection that has lingered. -/
def abort (c : TcpConnection) (e : TcpError) : TcpConnection :=
  if c.active then { c with lastError := e }.deactivate else c

/-- One more retransmission, or the end of the connection. -/
def countRetransmit (c : TcpConnection)
    (again : TcpConnection → TcpConnection × List SentSegment) : TcpConnection × List SentSegment :=
  let c := { c with retransmitCount := min (c.retransmitCount + 1) u16Max }
  if maxRetransmits < c.retransmitCount then ({ c with lastError := .timedout }.deactivate, [])
  else again c

/-- `tick_retransmit` on a connection whose timeout has passed: the SYN, the data before the FIN and the FIN
are sent again, and what carries data is as `tickRetransmit` has it. -/
def tick (c : TcpConnection) : TcpConnection × List SentSegment :=
  if !c.active then (c, [])
  else
    match c.state with
    | .synSent => c.countRetransmit fun c => (c, [controlSegment c.sndIss 0 (tcpSyn ||| tcpEce ||| tcpCwr)])
    | .finWait1 | .lastAck =>
      c.countRetransmit fun c =>
        match c.retransmitFromBuffer (tcpAck ||| tcpPsh) with
        | some g => (c.onLossCongestion, [g])
        | none => (c, [controlSegment (c.sndNxt - 1) c.rcvNxt (tcpFin ||| tcpAck)])
    | _ => c.tickRetransmit

end TcpConnection

/-! ## The system -/

/-- A connection with the calls under way and the history. -/
structure CloseSystem where
  sending : SendSystem
  closing : List PendingClose
  /-- The sequence number of this end's FIN, once it has been sent. -/
  fin : Option Seq

/-- What can happen. A call under way is named by its place among those of its kind; a FIN may fail to go
out. -/
inductive CloseAction
  | send (a : SendAction)
  | shutdownRead
  | close
  | shutdown
  | finish (call : Nat) (ok : Bool)
  | tick
  | abort (e : TcpError)

namespace CloseSystem

/-- The connection. -/
def conn (s : CloseSystem) : TcpConnection := s.sending.conn

/-- The start of a run. -/
def start (o : Opening) : CloseSystem where
  sending := .start o.connection
  closing := []
  fin := none

/-- A step of the connection and what it sent. -/
def emit (s : CloseSystem) (r : TcpConnection × List SentSegment) : CloseSystem :=
  { s with sending := s.sending.emit r }

/-- The last lock section of a call that closes. A call whose FIN does not go out fails there. -/
def settle (s : CloseSystem) (call : Nat) (p : PendingClose) (ok : Bool) : CloseSystem :=
  let s := { s with closing := s.closing.eraseIdx call }
  if p.sendsFin && !ok then s
  else
    let c := if p.shutdown then s.conn.shutdownWrite p.seen p.seq else s.conn.finishClose p
    { s.emit (c, if ok then p.segment else []) with fin := if p.sendsFin then some p.seq else s.fin }

/-- One step. The timeout of a connection that only carries data is part of `tick`. -/
def step (s : CloseSystem) : CloseAction → Option CloseSystem
  | .send a => (s.sending.step a).map fun sending => { s with sending := sending }
  | .shutdownRead => some (s.emit (s.conn.shutdownRead, []))
  | .close => some { s with closing := s.closing ++ s.conn.beginClose.toList }
  | .shutdown => some { s with closing := s.closing ++ s.conn.beginShutdown.toList }
  | .finish call ok => s.closing[call]?.map fun p => s.settle call p ok
  | .tick => some (s.emit s.conn.tick)
  | .abort e => some (s.emit (s.conn.abort e, []))

end CloseSystem

/-! ## The law of closing -/

/-- The segment's acknowledgement covers this end's FIN. -/
def TcpHeaderView.Covers (h : TcpHeaderView) (fin : Option Seq) : Prop :=
  h.has tcpAck = true ∧ ∃ f ∈ fin, seqLt f h.ack = true

theorem TcpHeaderView.covers_iff (h : TcpHeaderView) (f : Seq) :
    h.Covers (some f) ↔ h.has tcpAck = true ∧ 2 ^ 31 ≤ (f - h.ack).toNat := by
  unfold Covers
  simp only [Option.mem_def, Option.some.injEq, exists_eq_left', seqLt_iff]

theorem TcpHeaderView.not_covers_none (h : TcpHeaderView) : ¬ h.Covers none := by
  rintro ⟨-, f, hf, -⟩
  cases hf

instance (h : TcpHeaderView) (fin : Option Seq) : Decidable (h.Covers fin) :=
  match fin with
  | none => isFalse h.not_covers_none
  | some f => decidable_of_iff _ (h.covers_iff f).symm

namespace TcpConnection

/-- The segment reaches the branch of the connection's state. -/
def Passes (c : TcpConnection) (a : Arrival) : Prop :=
  c.active = true ∧ (c.timestampOf a.header).any (c.pawsRejects a.now) = false ∧
    a.header.has tcpRst = false ∧ (c.checksWindow && !c.acceptable a.header) = false

instance (c : TcpConnection) (a : Arrival) : Decidable (c.Passes a) :=
  inferInstanceAs (Decidable (_ ∧ _))

/-- The segment acknowledges something between `snd_una` and `snd_nxt`. -/
def ValidAck (c : TcpConnection) (h : TcpHeaderView) : Prop :=
  h.has tcpAck = true ∧ (h.ack - c.sndUna).toNat ≤ (c.sndNxt - c.sndUna).toNat

/-- What a valid acknowledgement does in `Established`: `snd_una` is where it says, and the retransmission
buffer has lost what it acknowledges. -/
structure Acked (c : TcpConnection) (ack : Seq) (c' : TcpConnection) : Prop where
  sndUna : c'.sndUna = ack
  txBuffer : c.txBuffer.drop (ack - c.sndUna).toNat <+: c'.txBuffer
  txBufSeq :
    c'.txBufSeq = c.txBufSeq + BitVec.ofNat 32 (min (ack - c.sndUna).toNat c.txBuffer.length)

end TcpConnection

/-- **The law of closing** for a segment that takes `c` to `c'`. `Closing` is not among the states: a FIN
that meets the own one unacknowledged leads to `TimeWait`, which stands for it here. -/
structure CloseLaw (fin : Option Seq) (c : TcpConnection) (a : Arrival) (c' : TcpConnection) : Prop where
  finWait2 : c.state = .finWait1 → c'.state = .finWait2 → a.header.Covers fin
  closed : c.state = .lastAck → c'.state = .closed → a.header.has tcpRst = false → a.header.Covers fin
  acked : c.Synchronised → c.Passes a → c.ValidAck a.header → c'.active = true →
    c.Acked a.header.ack c'

namespace CloseSystem

/-- The next step obeys the law. -/
def Lawful (s : CloseSystem) : CloseAction → Prop
  | .send (.segment a) => ∀ r, s.conn.receive a = some r → CloseLaw s.fin s.conn a r.1
  | _ => True

/-- The condition on a segment: in `FinWait1` with everything acknowledged it has the FIN or covers this
end's; in `LastAck` an acknowledgement covers the FIN; in `CloseWait` and `TimeWait` nothing new is
acknowledged. -/
def SegmentCloses (s : CloseSystem) (a : Arrival) : Prop :=
  s.conn.Passes a →
    (s.conn.state = .finWait1 → s.conn.sndUna = s.conn.sndNxt → a.header.has tcpFin = false →
      a.header.Covers s.fin) ∧
    (s.conn.state = .lastAck → a.header.has tcpAck = true → a.header.Covers s.fin) ∧
    (s.conn.state = .closeWait ∨ s.conn.state = .timeWait → a.header.has tcpAck = true →
      ¬ 0 < s.conn.bytesAcked a.header.ack)

/-- The condition on a step: a segment meets its own, and no call to send gives out sequence numbers after
the FIN. -/
def ClosesWell (s : CloseSystem) : CloseAction → Prop
  | .send (.segment a) => s.SegmentCloses a
  | .send (.nagleSection _) | .send (.finish _) => s.fin = none
  | _ => True

instance (s : CloseSystem) (a : Arrival) : Decidable (s.SegmentCloses a) :=
  inferInstanceAs (Decidable (_ → _ ∧ _))

instance (s : CloseSystem) (a : CloseAction) : Decidable (s.ClosesWell a) :=
  match a with
  | .send (.segment a) => inferInstanceAs (Decidable (s.SegmentCloses a))
  | .send (.nagleSection _) | .send (.finish _) => inferInstanceAs (Decidable (_ = _))
  | .send (.send _) | .send (.transmit _ _) | .send .timeout | .send (.setNodelay _)
  | .shutdownRead | .close | .shutdown | .finish _ _ | .tick | .abort _ => inferInstanceAs (Decidable True)

end CloseSystem

end SlateOS.Net.Tcp
