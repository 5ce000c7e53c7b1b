/-
# SlateOS.Net.Tcp.Connection -- the state of one TCP connection

`TcpConnection` of `kernel/src/net/tcp.rs` with its helpers for windows, congestion control and the
retransmission buffer. Sequence numbers and timestamps are 32-bit words and wrap as the code's do; windows
and byte counts never wrap and are natural numbers. Left out: the addresses and ports that find a
connection, its slot's generation and pins, the round-trip estimator, and the keepalive and persist timers.
-/
import Mathlib.Algebra.Group.Nat.Defs
import Mathlib.Data.List.Basic

namespace SlateOS.Net.Tcp

/-- A sequence number, or any other `u32` that wraps. -/
abbrev Seq := BitVec 32

/-- `MAX_SACK_BLOCKS`. -/
def maxSackBlocks : Nat := 4

/-- `DEFAULT_WINDOW`. -/
def defaultWindow : Nat := 16384

/-- `MAX_RX_BUFFER`. -/
def maxRxBuffer : Nat := 65536

/-- `MSS`. -/
def mss : Nat := 1460

/-- `MAX_TX_BUFFER`. -/
def maxTxBuffer : Nat := 65536

/-- `NAGLE_DEFAULT`. -/
def nagleDefault : Bool := true

/-- `INITIAL_CWND_SEGS`. -/
def initialCwndSegs : Nat := 4

/-- `OUR_WSCALE`. -/
def ourWscale : Nat := 0

/-- `u32::MAX`. -/
def u32Max : Nat := 4294967295

/-- `u16::MAX`. -/
def u16Max : Nat := 65535

/-- `TcpState`. -/
inductive TcpState
  | closed
  | listen
  | synSent
  | synReceived
  | established
  | finWait1
  | finWait2
  | timeWait
  | closeWait
  | lastAck
  deriving DecidableEq

/-- The `TCP_ERR_*` codes. -/
inductive TcpError
  | none
  | refused
  | reset
  | timedout
  deriving DecidableEq

/-- `TcpConnection`. The array of SACK blocks and its count are one list. -/
structure TcpConnection where
  active : Bool
  state : TcpState
  sndUna : Seq
  sndNxt : Seq
  sndIss : Seq
  sndWnd : Nat
  rcvNxt : Seq
  rcvIrs : Seq
  rxBuffer : List UInt8
  remoteClosed : Bool
  localWriteClosed : Bool
  localReadClosed : Bool
  retransmitCount : Nat
  nagleEnabled : Bool
  nagleBuf : List UInt8
  cwnd : Nat
  ssthresh : Nat
  wscaleOk : Bool
  sndWndScale : Nat
  rcvWndScale : Nat
  sackOk : Bool
  sackBlocks : List (Seq × Seq)
  oooBuf : List UInt8
  oooBase : Seq
  dupAckCount : Nat
  txBuffer : List UInt8
  txBufSeq : Seq
  peerMss : Nat
  ecnOk : Bool
  ecnCePending : Bool
  ecnCwrSent : Bool
  tsOk : Bool
  tsRecent : Seq
  tsRecentAgeNs : Nat
  lastError : TcpError

/-- A segment handed to the network layer; its options are left out. -/
structure SentSegment where
  seq : Seq
  ack : Seq
  flags : UInt8
  window : Nat
  payload : List UInt8
  deriving DecidableEq

/-- `seq_lt`: `a` comes before `b`, by the sign of their difference. -/
def seqLt (a b : Seq) : Bool := decide ((a - b).toInt < 0)

/-- `a` comes before `b` when going back from `a` to `b` takes at least half the number space. -/
theorem seqLt_iff (a b : Seq) : seqLt a b = true ↔ 2 ^ 31 ≤ (a - b).toNat := by
  unfold seqLt
  rw [decide_eq_true_iff, BitVec.toInt_eq_toNat_cond]
  have := (a - b).isLt
  split <;> omega

theorem seqLt_self (a : Seq) : seqLt a a = false := by
  unfold seqLt
  simp

namespace TcpConnection

/-- `TcpConnection::deactivate`. -/
def deactivate (c : TcpConnection) : TcpConnection :=
  { c with active := false, state := .closed, rxBuffer := [], txBuffer := [], nagleBuf := [], oooBuf := [] }

/-- `advertised_window`. -/
def advertisedWindow (c : TcpConnection) : Nat :=
  let free := maxRxBuffer - c.rxBuffer.length
  let trueWnd := min free u16Max
  min (trueWnd >>> c.rcvWndScale) u16Max

/-- `effective_window`. -/
def effectiveWindow (c : TcpConnection) : Nat :=
  min c.sndWnd c.cwnd - (c.sndNxt - c.sndUna).toNat

/-- `effective_mss`. -/
def effectiveMss (c : TcpConnection) : Nat :=
  if 0 < c.peerMss then min mss c.peerMss else mss

theorem effectiveMss_pos (c : TcpConnection) : 0 < c.effectiveMss := by
  unfold effectiveMss mss
  split <;> omega

theorem effectiveMss_le (c : TcpConnection) : c.effectiveMss ≤ mss := by
  unfold effectiveMss
  split
  · exact Nat.min_le_left ..
  · exact Nat.le_refl _

/-- `on_ack_congestion`. -/
def onAckCongestion (c : TcpConnection) (bytesAcked : Nat) : TcpConnection :=
  if bytesAcked = 0 then c
  else if c.cwnd < c.ssthresh then
    { c with cwnd := min (c.cwnd + min bytesAcked c.effectiveMss) u32Max }
  else
    { c with cwnd := min (c.cwnd + min (c.effectiveMss * bytesAcked / c.cwnd) c.effectiveMss) u32Max }

/-- `on_loss_congestion`. -/
def onLossCongestion (c : TcpConnection) : TcpConnection :=
  { c with
    ssthresh := max ((c.sndNxt - c.sndUna).toNat / 2) (c.effectiveMss * 2)
    cwnd := c.effectiveMss }

/-- `tx_buffer_trim`. -/
def txBufferTrim (c : TcpConnection) (bytesAcked : Nat) : TcpConnection :=
  let trim := min bytesAcked c.txBuffer.length
  if 0 < trim then
    { c with txBuffer := c.txBuffer.drop trim, txBufSeq := c.txBufSeq + BitVec.ofNat 32 trim }
  else c

/-- `retransmit_from_buffer`: the first unacknowledged segment, with the flags its caller gives it. -/
def retransmitFromBuffer (c : TcpConnection) (flags : UInt8) : Option SentSegment :=
  let retxLen := min c.txBuffer.length c.effectiveMss
  if retxLen = 0 then none
  else some
    { seq := c.sndUna, ack := c.rcvNxt, flags := flags, window := c.advertisedWindow
      payload := c.txBuffer.take retxLen }

end TcpConnection

end SlateOS.Net.Tcp

/-! ## Reading a segment

`parse_tcp_header` and `parse_tcp_options` of `kernel/src/net/tcp.rs`: what a segment off the wire says.
-/

namespace SlateOS.Net.Tcp

/-- `TCP_FIN`. -/
def tcpFin : UInt8 := 0x01

/-- `TCP_SYN`. -/
def tcpSyn : UInt8 := 0x02

/-- `TCP_RST`. -/
def tcpRst : UInt8 := 0x04

/-- `TCP_PSH`. -/
def tcpPsh : UInt8 := 0x08

/-- `TCP_ACK`. -/
def tcpAck : UInt8 := 0x10

/-- `TCP_ECE`. -/
def tcpEce : UInt8 := 0x40

/-- `TCP_CWR`. -/
def tcpCwr : UInt8 := 0x80

/-- `u16::from_be_bytes`. -/
def u16FromBe (hi lo : UInt8) : Nat := hi.toNat * 256 + lo.toNat

/-- `u32::from_be_bytes`. -/
def u32FromBe (b₀ b₁ b₂ b₃ : UInt8) : Seq :=
  BitVec.ofNat 32 (((b₀.toNat * 256 + b₁.toNat) * 256 + b₂.toNat) * 256 + b₃.toNat)

/-- The bytes of a segment. An IP packet's length field has 16 bits, so there are fewer than `2 ^ 16`. -/
abbrev SegmentBytes := { data : List UInt8 // data.length < 2 ^ 16 }

theorem length_nil_lt : ([] : List UInt8).length < 2 ^ 16 := by decide

/-- `TcpHeaderView`. -/
structure TcpHeaderView where
  srcPort : Nat
  dstPort : Nat
  seq : Seq
  ack : Seq
  flags : UInt8
  window : Nat
  options : List UInt8
  payload : List UInt8
  /-- The payload is part of a segment. -/
  payload_lt : payload.length < 2 ^ 16

/-- Whether a flag is set. -/
def TcpHeaderView.has (h : TcpHeaderView) (flag : UInt8) : Bool := h.flags &&& flag != 0

/-- `TCP_HEADER_SIZE`. -/
def tcpHeaderSize : Nat := 20

/-- `parse_tcp_header`. -/
def parseTcpHeader (data : SegmentBytes) : Option TcpHeaderView :=
  match data.val with
  | spHi :: spLo :: dpHi :: dpLo :: sq₀ :: sq₁ :: sq₂ :: sq₃ :: ak₀ :: ak₁ :: ak₂ :: ak₃ :: offNibble
      :: flags :: wndHi :: wndLo :: _ =>
    let dataOffset := (offNibble >>> 4).toNat * 4
    if dataOffset < tcpHeaderSize ∨ data.val.length < dataOffset then none
    else some
      { srcPort := u16FromBe spHi spLo
        dstPort := u16FromBe dpHi dpLo
        seq := u32FromBe sq₀ sq₁ sq₂ sq₃
        ack := u32FromBe ak₀ ak₁ ak₂ ak₃
        flags := flags
        window := u16FromBe wndHi wndLo
        options := (data.val.take dataOffset).drop tcpHeaderSize
        payload := data.val.drop dataOffset
        payload_lt := by
          rw [List.length_drop]
          exact Nat.lt_of_le_of_lt (Nat.sub_le ..) data.property }
  | _ => none

/-- `TcpOptions`. -/
structure TcpOptions where
  mss : Nat
  wscale : Option Nat
  sackPermitted : Bool
  timestamp : Option (Seq × Seq)
  deriving DecidableEq

/-- No option present. -/
def TcpOptions.empty : TcpOptions where
  mss := 0
  wscale := none
  sackPermitted := false
  timestamp := none

/-- One option of the block: a known kind with the right length is recorded, anything else is skipped. -/
def TcpOptions.record (opts : TcpOptions) (option : List UInt8) : TcpOptions :=
  match option with
  | [2, _, hi, lo] => { opts with mss := u16FromBe hi lo }
  | [3, _, shift] => { opts with wscale := some (min shift.toNat 14) }
  | [4, _] => { opts with sackPermitted := true }
  | [8, _, v₀, v₁, v₂, v₃, e₀, e₁, e₂, e₃] =>
    { opts with timestamp := some (u32FromBe v₀ v₁ v₂ v₃, u32FromBe e₀ e₁ e₂ e₃) }
  | _ => opts

/-- The loop of `parse_tcp_options` over what is left of the block. Every round takes at least one byte
off, so the block's length bounds the rounds. -/
def parseOptionsFrom : Nat → List UInt8 → TcpOptions → TcpOptions
  | 0, _, opts => opts
  | _ + 1, [], opts => opts
  | n + 1, kind :: tail, opts =>
    if kind = 0 then opts
    else if kind = 1 then parseOptionsFrom n tail opts
    else match tail with
      | [] => opts
      | declared :: _ =>
        let len := declared.toNat
        if len < 2 ∨ (kind :: tail).length < len then opts
        else parseOptionsFrom n ((kind :: tail).drop len) (opts.record ((kind :: tail).take len))

/-- `parse_tcp_options`. -/
def parseTcpOptions (optionBytes : List UInt8) : TcpOptions :=
  parseOptionsFrom optionBytes.length optionBytes .empty

end SlateOS.Net.Tcp
