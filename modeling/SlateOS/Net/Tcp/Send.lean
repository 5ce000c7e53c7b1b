/-
# SlateOS.Net.Tcp.Send -- sending data

`send` and the data part of `tick_retransmit` of `kernel/src/net/tcp.rs`, and the system they run in: any
number of `send` calls, segments of the peer and timeouts, interleaved at the points where the code lets go
of the table's lock. The history kept beside the connection is what `send` has reported as accepted, what
has been given sequence numbers, and every segment handed to the network layer. The wait for a zero
window (the persist timer) changes nothing here.
-/
import SlateOS.Net.Tcp.Handshake
import SlateOS.Net.Tcp.Reassembly

namespace SlateOS.Net.Tcp

/-- `MAX_RETRANSMITS`. -/
def maxRetransmits : Nat := 15

/-- What the first lock section of `send` decides. -/
inductive SendPath
  /-- The connection takes no data: the call fails. -/
  | refused
  /-- Nagle: a small write while data is unacknowledged. -/
  | heldBack
  /-- No room in the window: the call fails. -/
  | wouldBlock
  /-- The first bytes go out at once. -/
  | direct (sendable : Nat)
  deriving DecidableEq

/-- The bytes go out at once. -/
def SendPath.isDirect : SendPath → Bool
  | .direct _ => true
  | _ => false

/-- A direct send on its way: what its first lock section read, the bytes it sends, and how many of them
have been handed to the network layer. -/
structure DirectSend where
  seq : Seq
  ack : Seq
  flags : UInt8
  window : Nat
  effMss : Nat
  data : List UInt8
  offset : Nat

/-- A `send` call between two of its lock sections. -/
inductive PendingSend
  | heldBack (data : List UInt8)
  | direct (d : DirectSend)

/-- The bytes a pending call has put on the wire without having given them sequence numbers yet. -/
def PendingSend.onWire : PendingSend → List UInt8
  | .heldBack _ => []
  | .direct d => d.data.take d.offset

/-- The segment for the next chunk of a direct send. -/
def DirectSend.nextChunk (d : DirectSend) : SentSegment where
  seq := d.seq + BitVec.ofNat 32 d.offset
  ack := d.ack
  flags := d.flags
  window := d.window
  payload := (d.data.drop d.offset).take d.effMss

/-- A direct send whose next chunk has been handed over. -/
def DirectSend.advance (d : DirectSend) : DirectSend :=
  { d with offset := min (d.offset + d.effMss) d.data.length }

namespace TcpConnection

/-- The connection can carry data of this end. -/
def TakesData (c : TcpConnection) : Prop :=
  c.active = true ∧ (c.state = .established ∨ c.state = .closeWait)

instance (c : TcpConnection) : Decidable c.TakesData := inferInstanceAs (Decidable (_ ∧ _))

/-- The decision of `send`'s first lock section. -/
def sendPath (c : TcpConnection) (data : List UInt8) : SendPath :=
  if ¬ c.TakesData then .refused
  else if c.localWriteClosed then .refused
  else if c.nagleEnabled && c.sndNxt != c.sndUna && decide (data.length < c.effectiveMss) then .heldBack
  else
    let sendable := min data.length c.effectiveWindow
    if sendable = 0 ∧ data ≠ [] then .wouldBlock else .direct sendable

/-- What a direct send reads in its first lock section. -/
def directSend (c : TcpConnection) (data : List UInt8) (sendable : Nat) : DirectSend where
  seq := c.sndNxt
  ack := c.rcvNxt
  flags := if c.ecnOk && c.ecnCwrSent then tcpAck ||| tcpPsh ||| tcpCwr else tcpAck ||| tcpPsh
  window := c.advertisedWindow
  effMss := c.effectiveMss
  data := data.take sendable
  offset := 0

/-- How many bytes the Nagle section takes. -/
def nagleTakes (c : TcpConnection) (data : List UInt8) : Nat :=
  min data.length (c.effectiveMss - c.nagleBuf.length)

/-- The start of the Nagle section: the write joins the held-back bytes. -/
def nagleAppend (c : TcpConnection) (data : List UInt8) : TcpConnection :=
  { c with nagleBuf := c.nagleBuf ++ data.take (c.nagleTakes data) }

/-- The Nagle section of `send`: a full segment goes out. -/
def nagleSection (c : TcpConnection) (data : List UInt8) : TcpConnection × List SentSegment :=
  let c := c.nagleAppend data
  if c.effectiveMss ≤ c.nagleBuf.length then c.nagleFlush else (c, [])

/-- The last lock section of a direct send. -/
def finishSend (c : TcpConnection) (d : DirectSend) : TcpConnection :=
  { c with
    sndNxt := d.seq + BitVec.ofNat 32 d.data.length
    txBuffer := c.txBuffer ++ d.data.take (min d.data.length (maxTxBuffer - c.txBuffer.length)) }

/-- What `tick_retransmit` does to a connection that carries data when its timeout has passed: it gives up,
or sends the first unacknowledged segment again. -/
def tickRetransmit (c : TcpConnection) : TcpConnection × List SentSegment :=
  if ¬ c.TakesData ∨ c.txBuffer = [] then (c, [])
  else
    let c := { c with retransmitCount := min (c.retransmitCount + 1) u16Max }
    if maxRetransmits < c.retransmitCount then ({ c with lastError := .timedout }.deactivate, [])
    else (c.onLossCongestion, (c.retransmitFromBuffer (tcpAck ||| tcpPsh)).toList)

/-- `set_nodelay`. -/
def setNodelay (c : TcpConnection) (nodelay : Bool) : TcpConnection :=
  if c.active then { c with nagleEnabled := !nodelay } else c

end TcpConnection

/-! ## The system -/

/-- A connection, the `send` calls under way and the history. -/
structure SendSystem where
  conn : TcpConnection
  pending : List PendingSend
  /-- What `send` has reported as accepted, in call order. -/
  accepted : List UInt8
  /-- What has been given consecutive sequence numbers, in their order. -/
  assigned : List UInt8
  /-- Every segment handed to the network layer. -/
  wire : List SentSegment

/-- What can happen; a call under way is named by its place among them. -/
inductive SendAction
  | send (data : List UInt8)
  | nagleSection (call : Nat)
  | transmit (call : Nat) (ok : Bool)
  | finish (call : Nat)
  | segment (a : Arrival)
  | timeout
  | setNodelay (nodelay : Bool)

/-- The bytes that a step sends for the first time: those sent at `snd_nxt`. -/
def newData (c : TcpConnection) (sent : List SentSegment) : List UInt8 :=
  (sent.filter fun g => g.seq == c.sndNxt).flatMap SentSegment.payload

namespace SendSystem

/-- The start of a run. -/
def start (c : TcpConnection) : SendSystem where
  conn := c
  pending := []
  accepted := []
  assigned := []
  wire := []

/-- A step of the connection and what it sent. -/
def emit (s : SendSystem) (r : TcpConnection × List SentSegment) : SendSystem :=
  { s with
    conn := r.1, assigned := s.assigned ++ newData s.conn r.2, wire := s.wire ++ r.2 }

/-- The first lock section of `send`. -/
def beginSend (s : SendSystem) (data : List UInt8) : SendSystem :=
  match s.conn.sendPath data with
  | .refused | .wouldBlock => s
  | .heldBack => { s with pending := s.pending ++ [.heldBack data] }
  | .direct sendable => { s with pending := s.pending ++ [.direct (s.conn.directSend data sendable)] }

/-- The Nagle section, after which the call returns. -/
def holdBack (s : SendSystem) (call : Nat) (data : List UInt8) : SendSystem :=
  let s' := s.emit (s.conn.nagleSection data)
  { s' with
    pending := s.pending.eraseIdx call
    accepted := s.accepted ++ data.take (s.conn.nagleTakes data) }

/-- The last lock section of a direct send, after which the call returns. -/
def commit (s : SendSystem) (call : Nat) (d : DirectSend) : SendSystem :=
  { s with
    conn := s.conn.finishSend d
    pending := s.pending.eraseIdx call
    accepted := s.accepted ++ d.data
    assigned := s.assigned ++ d.data }

/-- One step. -/
def step (s : SendSystem) : SendAction → Option SendSystem
  | .send data => some (s.beginSend data)
  | .nagleSection call =>
    match s.pending[call]? with
    | some (.heldBack data) => some (s.holdBack call data)
    | _ => none
  | .transmit call ok =>
    match s.pending[call]? with
    | some (.direct d) =>
      if d.data.length ≤ d.offset then none
      else if ok then
        some { s with pending := s.pending.set call (.direct d.advance), wire := s.wire ++ [d.nextChunk] }
      else some { s with pending := s.pending.eraseIdx call }
    | _ => none
  | .finish call =>
    match s.pending[call]? with
    | some (.direct d) => if d.data.length ≤ d.offset then some (s.commit call d) else none
    | _ => none
  | .segment a => (s.conn.receive a).map s.emit
  | .timeout => some (s.emit s.conn.tickRetransmit)
  | .setNodelay nodelay => some { s with conn := s.conn.setNodelay nodelay }

end SendSystem

end SlateOS.Net.Tcp
