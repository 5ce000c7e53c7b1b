/-
# SlateOS.Net.Tcp.Wire -- the segments this end writes, and the check the other end makes

`build_segment` and `build_segment_with_options` of `kernel/src/net/tcp.rs`, the checksum they write (`kernel/src/
net/checksum.rs` over the loops of `netproto/src/checksum.rs`), and `process_tcp` and `process_tcp_v6` up to the
header they hand on. A segment that is built is taken by the other end, and says there what was put in.
-/
import SlateOS.Foundation.MachineInt
import SlateOS.Foundation.OnesComplement
import SlateOS.Net.Interface
import SlateOS.Net.Tcp.Connection

namespace SlateOS.Net.Checksum

open Foundation.MachineInt
open Foundation.OnesComplement (sumWords sumWords_le sumWords_set fold_spec fold_add_complement)

/-! ## The checksum -/

/-- `netproto::checksum::accumulate`, on a `u32`; an odd last byte is the high byte of a word. -/
def accumulate (sum : Nat) : List UInt8 → Nat
  | [] => sum
  | [hi] => wrappingAdd 32 sum (hi.toNat * 256)
  | hi :: lo :: rest => accumulate (wrappingAdd 32 sum (Tcp.u16FromBe hi lo)) rest

/-- `netproto::checksum::fold`, which the kernel calls `finish`: the loop over the carries, and the complement. -/
def finish (sum : Nat) : Nat := 0xFFFF - Foundation.OnesComplement.fold sum

/-- The kernel's `fold`: without the complement. -/
def fold (sum : Nat) : Nat := 0xFFFF - finish sum

/-- `VALID`. -/
def valid : Nat := 0xFFFF

/-- `u16::to_be_bytes`. -/
def u16ToBe (v : Nat) : List UInt8 := [.ofNat (v / 256), .ofNat v]

/-- `u32::to_be_bytes`. -/
def u32ToBe (v : Nat) : List UInt8 :=
  [.ofNat (v / 256 / 256 / 256), .ofNat (v / 256 / 256), .ofNat (v / 256), .ofNat v]

/-- `pseudo_v4`: the addresses, a zero byte, the protocol and the length, which is cut to 16 bits. -/
def pseudoV4 (src dst : Ipv4Addr) (protocol : UInt8) (segLen : Nat) : Nat :=
  accumulate 0 (src.toList ++ dst.toList ++ [0, protocol] ++ u16ToBe (segLen % 2 ^ 16))

/-- `pseudo_v6`: the addresses, then the length in 32 bits, three zero bytes and the next header. -/
def pseudoV6 (src dst : Ipv6Addr) (nextHeader : UInt8) (segLen : Nat) : Nat :=
  accumulate (accumulate (accumulate 0 src.toList) dst.toList)
    (u32ToBe (segLen % 2 ^ 32) ++ [0, 0, 0, nextHeader])

variable {sum : Nat} {data : List UInt8}

theorem accumulate_eq (data : List UInt8) (h : sum + sumWords data < 2 ^ 32) :
    accumulate sum data = sum + sumWords data := by
  induction sum, data using accumulate.induct with
  | case1 => rfl
  | case2 sum hi =>
    simp only [sumWords] at h ⊢
    rw [accumulate, wrappingAdd, Nat.mod_eq_of_lt h]
  | case3 sum hi lo rest ih =>
    simp only [sumWords] at h ⊢
    have hword : wrappingAdd 32 sum (Tcp.u16FromBe hi lo) = sum + (hi.toNat * 256 + lo.toNat) := by
      unfold wrappingAdd Tcp.u16FromBe
      omega
    rw [hword] at ih
    rw [accumulate, hword, ih (by omega)]
    omega

/-- A pseudo-header leaves room in the accumulator for any segment. -/
theorem accumulate_lt {n : Nat} (hsum : sum ≤ n * 65535) (hlen : data.length ≤ 32)
    (hn : n ≤ 32) : accumulate sum data ≤ (n + 16) * 65535 := by
  have hle := sumWords_le data
  rw [accumulate_eq data (by omega)]
  omega

theorem pseudoV4_le (src dst : Ipv4Addr) (protocol : UInt8) (segLen : Nat) :
    pseudoV4 src dst protocol segLen ≤ 48 * 65535 :=
  Nat.le_trans (accumulate_lt (n := 0) (Nat.zero_le _) (by simp [u16ToBe]) (by decide)) (by decide)

theorem pseudoV6_le (src dst : Ipv6Addr) (nextHeader : UInt8) (segLen : Nat) :
    pseudoV6 src dst nextHeader segLen ≤ 48 * 65535 :=
  accumulate_lt (n := 32)
    (accumulate_lt (n := 16) (accumulate_lt (n := 0) (Nat.zero_le _) (by simp) (by decide)) (by simp) (by decide))
    (by simp [u32ToBe]) (by decide)

theorem finish_lt (sum : Nat) : finish sum < 2 ^ 16 := by
  unfold finish
  omega

/-- **With its checksum in place a message folds to `VALID`.** -/
theorem fold_checked {blank checked : List UInt8} (hsum : sum ≤ 48 * 65535)
    (hlen : checked.length < 2 ^ 16) (hblank : blank.length = checked.length)
    (hadd : sumWords checked = sumWords blank + finish (accumulate sum blank)) :
    fold (accumulate sum checked) = valid := by
  have hle := sumWords_le checked
  have hle' := sumWords_le blank
  have heq := @accumulate_eq sum blank (by omega)
  rw [accumulate_eq checked (by omega), hadd, heq, ← Nat.add_assoc]
  unfold fold finish
  rw [fold_add_complement]
  rfl

theorem valid_iff (hsum : sum ≤ 48 * 65535) (hlen : data.length < 2 ^ 16) :
    fold (accumulate sum data) = valid ↔ (sum + sumWords data) % 65535 = 0 ∧ sum + sumWords data ≠ 0 := by
  have hle := sumWords_le data
  rw [accumulate_eq data (by omega)]
  obtain ⟨hlt, hmod, hzero⟩ := fold_spec (sum + sumWords data)
  unfold fold finish valid
  omega

/-- **No message keeps its sum when one byte changes.** -/
theorem eq_of_both_valid (hsum : sum ≤ 48 * 65535) (hlen : data.length < 2 ^ 16) {i : Nat} {b : UInt8}
    (hi : i < data.length) (hvalid : fold (accumulate sum data) = valid)
    (hvalid' : fold (accumulate sum (data.set i b)) = valid) : b = data[i] := by
  have hset := sumWords_set hi b
  have hmod := ((valid_iff hsum hlen).mp hvalid).1
  have hmod' := ((valid_iff hsum (by rwa [List.length_set])).mp hvalid').1
  have hb := b.toNat_lt
  have ho := data[i].toNat_lt
  apply UInt8.toNat_inj.mp
  split at hset
  · omega
  · omega

end SlateOS.Net.Checksum

namespace SlateOS.Net.Tcp

open Foundation.MachineInt
open Foundation.OnesComplement (sumWords sumWords_append)
open Net.Checksum

/-- `IpAddr`. -/
inductive IpAddr
  | v4 (addr : Ipv4Addr)
  | v6 (addr : Ipv6Addr)
  deriving DecidableEq

/-- `src` and `dst` of one packet are of one family. -/
def IpAddr.sameFamily : IpAddr → IpAddr → Bool
  | .v4 _, .v4 _ | .v6 _, .v6 _ => true
  | _, _ => false

/-- `PROTO_TCP`. -/
def protoTcp : UInt8 := 6

/-- `PROTO_UDP`. -/
def protoUdp : UInt8 := 17

/-- `tcp_checksum`. -/
def tcpChecksum (segment : List UInt8) (src dst : Ipv4Addr) : Nat :=
  finish (accumulate (pseudoV4 src dst protoTcp segment.length) segment)

/-- `tcp_checksum_v6`. -/
def tcpChecksumV6 (segment : List UInt8) (src dst : Ipv6Addr) : Nat :=
  finish (accumulate (pseudoV6 src dst protoTcp segment.length) segment)

/-- `tcp_checksum_ip`. -/
def tcpChecksumIp (segment : List UInt8) : IpAddr → IpAddr → Nat
  | .v4 s, .v4 d => tcpChecksum segment s d
  | .v6 s, .v6 d => tcpChecksumV6 segment s d
  | _, _ => 0

/-- `verify_transport_checksum` of `ipv4.rs`: a UDP datagram may do without. -/
def verifyTransportChecksum (src dst : Ipv4Addr) (protocol : UInt8) (segment : List UInt8) : Bool :=
  (protocol == protoUdp && decide (8 ≤ segment.length) && (segment.drop 6).take 2 == [0, 0]) ||
    fold (accumulate (pseudoV4 src dst protocol segment.length) segment) == valid

/-- `verify_transport_checksum` of `ipv6.rs`. -/
def verifyTransportChecksumV6 (src dst : Ipv6Addr) (nextHeader : UInt8) (segment : List UInt8) : Bool :=
  fold (accumulate (pseudoV6 src dst nextHeader segment.length) segment) == valid

/-! ## Building -/

variable (srcPort dstPort : UInt16) (seq ack : Seq)

/-- What both builders write before the checksum. -/
def fixedHeader (headerWords flags : UInt8) (window : UInt16) : List UInt8 :=
  u16ToBe srcPort.toNat ++ u16ToBe dstPort.toNat ++ u32ToBe seq.toNat ++ u32ToBe ack.toNat ++
    [headerWords <<< 4, flags] ++ u16ToBe window.toNat

/-- `write_checksum`. -/
def writeChecksum (seg : List UInt8) (offset checksum : Nat) : List UInt8 :=
  if offset + 2 ≤ seg.length then seg.take offset ++ u16ToBe checksum ++ seg.drop (offset + 2) else seg

/-- `build_segment`. -/
def buildSegment (flags : UInt8) (window : UInt16) (payload : List UInt8) (srcIp dstIp : IpAddr) : List UInt8 :=
  let front := fixedHeader srcPort dstPort seq ack 5 flags window
  let seg := front ++ u16ToBe 0 ++ u16ToBe 0 ++ payload
  writeChecksum seg front.length (tcpChecksumIp seg srcIp dstIp)

/-- The options' length rounded up to a multiple of 4. -/
def optPadded (options : List UInt8) : Nat := saturatingAdd 64 options.length 3 &&& (2 ^ 64 - 2 ^ 2)

/-- `build_segment_with_options`. -/
def buildSegmentWithOptions (flags : UInt8) (window : UInt16) (options payload : List UInt8)
    (srcIp dstIp : IpAddr) : List UInt8 :=
  let headerLen := saturatingAdd 64 tcpHeaderSize (optPadded options)
  let front := fixedHeader srcPort dstPort seq ack (.ofNat (headerLen / 4)) flags window
  -- `TCP_OPT_END` is 0
  let seg := front ++ u16ToBe 0 ++ u16ToBe 0 ++ (options ++ List.replicate (optPadded options - options.length) 0) ++
    payload
  writeChecksum seg front.length (tcpChecksumIp seg srcIp dstIp)

/-! ## Receiving -/

/-- `process_tcp` up to the header it hands on. -/
def processTcp (src dst : Ipv4Addr) (data : SegmentBytes) : Option TcpHeaderView :=
  if data.val.length < tcpHeaderSize then none
  else if !verifyTransportChecksum src dst protoTcp data.val then none
  else parseTcpHeader data

/-- `process_tcp_v6` up to the header it hands on. -/
def processTcpV6 (src dst : Ipv6Addr) (data : SegmentBytes) : Option TcpHeaderView :=
  if data.val.length < tcpHeaderSize then none
  else if !verifyTransportChecksumV6 src dst protoTcp data.val then none
  else parseTcpHeader data

/-- A segment on its way: it arrives in a packet of the family it was sent in. -/
def receive (data : SegmentBytes) : IpAddr → IpAddr → Option TcpHeaderView
  | .v4 s, .v4 d => processTcp s d data
  | .v6 s, .v6 d => processTcpV6 s d data
  | _, _ => none

/-! ## The round trip -/

theorem u16FromBe_toBe (v : UInt16) : u16FromBe (.ofNat (v.toNat / 256)) (.ofNat v.toNat) = v.toNat := by
  have hlt := v.toNat_lt
  simp only [u16FromBe, UInt8.toNat_ofNat']
  omega

theorem u32FromBe_toBe (v : Seq) :
    u32FromBe (.ofNat (v.toNat / 256 / 256 / 256)) (.ofNat (v.toNat / 256 / 256)) (.ofNat (v.toNat / 256))
      (.ofNat v.toNat) = v := by
  apply BitVec.eq_of_toNat_eq
  have hlt := v.isLt
  simp only [u32FromBe, UInt8.toNat_ofNat', BitVec.toNat_ofNat]
  omega

theorem optPadded_eq {options : List UInt8} (h : options.length ≤ 40) :
    optPadded options = (options.length + 3) / 4 * 4 := by
  unfold optPadded
  rw [saturatingAdd_of_lt (by omega), and_sub_two_pow (by omega) (by decide), show 2 ^ 2 = 4 from rfl]

/-- A segment around its checksum. -/
def framed (front : List UInt8) (checksum : Nat) (rest : List UInt8) : List UInt8 :=
  front ++ u16ToBe checksum ++ u16ToBe 0 ++ rest

variable {front : List UInt8} (checksum : Nat) (rest : List UInt8)

theorem length_framed (h : front.length = 16) :
    (framed front checksum rest).length = 20 + rest.length := by
  simp only [framed, u16ToBe, List.length_append, List.length_cons, List.length_nil, h]

theorem writeChecksum_framed :
    writeChecksum (framed front 0 rest) front.length checksum = framed front checksum rest := by
  simp [writeChecksum, framed, u16ToBe]

theorem sumWords_framed (h : front.length = 16) (hlt : checksum < 2 ^ 16) :
    sumWords (framed front checksum rest) = sumWords (framed front 0 rest) + checksum := by
  have heven : front.length % 2 = 0 := by rw [h]
  simp only [framed, List.append_assoc, sumWords_append heven]
  simp only [u16ToBe, List.cons_append, List.nil_append, sumWords, UInt8.toNat_ofNat']
  omega

/-- What follows the fixed header: the options, filled up, and the payload. -/
def behind (options payload : List UInt8) : List UInt8 :=
  options ++ List.replicate (optPadded options - options.length) 0 ++ payload

variable (flags : UInt8) (window : UInt16) {srcIp dstIp : IpAddr} {seg : SegmentBytes}

theorem buildSegmentWithOptions_eq {options : List UInt8} {n : Nat}
    (hn : saturatingAdd 64 tcpHeaderSize (optPadded options) / 4 = n)
    (hfront : fixedHeader srcPort dstPort seq ack (.ofNat n) flags window = front) (payload : List UInt8)
    (srcIp dstIp : IpAddr) :
    buildSegmentWithOptions srcPort dstPort seq ack flags window options payload srcIp dstIp =
      framed front (tcpChecksumIp (framed front 0 (behind options payload)) srcIp dstIp) (behind options payload) := by
  subst hn hfront
  unfold buildSegmentWithOptions
  dsimp only
  rw [List.append_assoc _ (options ++ _) payload]
  exact writeChecksum_framed ..

/-- Without options both builders write the same. -/
theorem buildSegment_eq (payload : List UInt8) (srcIp dstIp : IpAddr) :
    buildSegment srcPort dstPort seq ack flags window payload srcIp dstIp =
      buildSegmentWithOptions srcPort dstPort seq ack flags window [] payload srcIp dstIp := by
  have hpad : optPadded [] = 0 := by decide
  have hwords : (UInt8.ofNat (saturatingAdd 64 tcpHeaderSize 0 / 4)) = 5 := by decide
  unfold buildSegment buildSegmentWithOptions
  simp only [hpad, hwords, List.length_nil, Nat.sub_zero, List.replicate_zero, List.append_nil]

/-- Within a family there is one pseudo-header sum for the segments of a length, and both ends use it. -/
theorem pseudo_spec (hfamily : srcIp.sameFamily dstIp = true) (n : Nat) :
    ∃ sum ≤ 48 * 65535,
      (∀ seg : List UInt8, seg.length = n → tcpChecksumIp seg srcIp dstIp = finish (accumulate sum seg)) ∧
      ∀ data : SegmentBytes, data.val.length = n → receive data srcIp dstIp =
        if n < tcpHeaderSize then none
        else if fold (accumulate sum data.val) = valid then parseTcpHeader data else none := by
  cases srcIp <;> cases dstIp
  case v4.v4 s d =>
    refine ⟨pseudoV4 s d protoTcp n, pseudoV4_le .., ?_, ?_⟩
    · rintro seg rfl
      rfl
    · rintro data rfl
      have hudp : (protoTcp == protoUdp) = false := by decide
      simp only [receive, processTcp, verifyTransportChecksum, hudp, Bool.false_and, Bool.false_or,
        Bool.not_eq_true', beq_eq_false_iff_ne, ne_eq, ite_not]
  case v6.v6 s d =>
    refine ⟨pseudoV6 s d protoTcp n, pseudoV6_le .., ?_, ?_⟩
    · rintro seg rfl
      rfl
    · rintro data rfl
      simp only [receive, processTcpV6, verifyTransportChecksumV6, Bool.not_eq_true', beq_eq_false_iff_ne, ne_eq,
        ite_not]
  all_goals cases hfamily

/-- The other end's check passes. -/
theorem receive_framed (hfront : front.length = 16) (hfamily : srcIp.sameFamily dstIp = true)
    (hseg : seg.val = framed front (tcpChecksumIp (framed front 0 rest) srcIp dstIp) rest) :
    receive seg srcIp dstIp = parseTcpHeader seg := by
  have hblank := length_framed 0 rest hfront
  obtain ⟨sum, hsum, hbuilt, htaken⟩ := pseudo_spec hfamily (20 + rest.length)
  rw [hbuilt _ hblank] at hseg
  have hfits : seg.val.length = 20 + rest.length := by rw [hseg, length_framed _ rest hfront]
  have hvalid : fold (accumulate sum seg.val) = valid := by
    refine fold_checked hsum seg.property (hblank.trans hfits.symm) ?_
    rw [hseg]
    exact sumWords_framed _ rest hfront (finish_lt _)
  have hlong : ¬ 20 + rest.length < tcpHeaderSize := by
    unfold tcpHeaderSize
    omega
  rw [htaken seg hfits, if_neg hlong, if_pos hvalid]

/-- What a header says: everything but the bound of its payload. -/
theorem parseTcpHeader_framed {options payload : List UInt8} {n : Nat} (hn : 5 ≤ n ∧ n ≤ 15)
    (hoptions : options.length = n * 4 - 20)
    (hseg : seg.val = framed (fixedHeader srcPort dstPort seq ack (.ofNat n) flags window) checksum
      (options ++ payload)) :
    ∃ hlt, parseTcpHeader seg =
      some ⟨srcPort.toNat, dstPort.toNat, seq, ack, flags, window.toNat, options, payload, hlt⟩ := by
  have hoffset : ((UInt8.ofNat n <<< 4) >>> 4).toNat = n := by
    have h : ∀ k : Fin 16, ((UInt8.ofNat k <<< 4) >>> 4).toNat = k := by decide
    exact h ⟨n, by omega⟩
  have hlen := congrArg List.length hseg
  rw [length_framed _ _ rfl, List.length_append] at hlen
  obtain ⟨data, hlt⟩ := seg
  subst hseg
  refine ⟨by dsimp only at hlen; omega, ?_⟩
  obtain ⟨k, hk⟩ : ∃ k, n * 4 = k + 20 := ⟨n * 4 - 20, by omega⟩
  have hk' : options.length = k := by omega
  simp only [parseTcpHeader, framed, fixedHeader, u16ToBe, u32ToBe, List.cons_append, List.nil_append, hoffset, hk]
  rw [if_neg (by simp only [tcpHeaderSize, List.length_cons, List.length_append]; omega)]
  simp only [tcpHeaderSize, List.take_succ_cons, List.drop_succ_cons, List.drop_zero, List.take_left' hk',
    List.drop_left' hk', u16FromBe_toBe, u32FromBe_toBe]

/-- **What is sent is received.** A segment built between two addresses of one family passes the other end's check,
and is read there as it was put in, its options filled up to a multiple of 4 with end marks. -/
theorem segment_round_trip {options payload : List UInt8} (hoptions : options.length ≤ 40)
    (hfamily : srcIp.sameFamily dstIp = true)
    (hlen : tcpHeaderSize + optPadded options + payload.length < 2 ^ 16) :
    ∃ seg : SegmentBytes,
      seg.val = buildSegmentWithOptions srcPort dstPort seq ack flags window options payload srcIp dstIp ∧
      (options = [] → seg.val = buildSegment srcPort dstPort seq ack flags window payload srcIp dstIp) ∧
      ∃ hlt, receive seg srcIp dstIp = some ⟨srcPort.toNat, dstPort.toNat, seq, ack, flags, window.toNat,
        options ++ List.replicate (optPadded options - options.length) 0, payload, hlt⟩ := by
  have hpad := optPadded_eq hoptions
  have hwords : saturatingAdd 64 tcpHeaderSize (optPadded options) / 4 = 5 + (options.length + 3) / 4 := by
    rw [saturatingAdd_of_lt (by omega), hpad]
    unfold tcpHeaderSize
    omega
  have hbehind : 20 + (behind options payload).length < 2 ^ 16 := by
    unfold tcpHeaderSize at hlen
    unfold behind
    rw [List.length_append, List.length_append, List.length_replicate]
    omega
  have heq := buildSegmentWithOptions_eq srcPort dstPort seq ack flags window hwords rfl payload srcIp dstIp
  have hfits := congrArg List.length heq
  rw [length_framed _ _ rfl] at hfits
  refine ⟨⟨_, hfits.trans_lt hbehind⟩, rfl, ?_, ?_⟩
  · rintro rfl
    exact (buildSegment_eq ..).symm
  · rw [receive_framed _ rfl hfamily heq]
    refine parseTcpHeader_framed _ _ _ _ _ _ _ ⟨Nat.le_add_right 5 _, by omega⟩ ?_ heq
    rw [List.length_append, List.length_replicate]
    omega

def server : IpAddr := .v4 #v[10, 0, 2, 15]

def client : IpAddr := .v4 #v[10, 0, 2, 2]

/-- A SYN-ACK with a window scale option and three bytes of data. -/
theorem segment_round_trip_synAck :
    ∃ seg : SegmentBytes,
      seg.val = buildSegmentWithOptions 80 49200 5000 1001 (tcpSyn ||| tcpAck) 1000 [3, 3, 7] [1, 2, 3] server client ∧
      (([3, 3, 7] : List UInt8) = [] →
        seg.val = buildSegment 80 49200 5000 1001 (tcpSyn ||| tcpAck) 1000 [1, 2, 3] server client) ∧
      ∃ hlt, receive seg server client = some
        ⟨(80 : UInt16).toNat, (49200 : UInt16).toNat, 5000, 1001, tcpSyn ||| tcpAck, (1000 : UInt16).toNat,
          [3, 3, 7] ++ List.replicate (optPadded [3, 3, 7] - [3, 3, 7].length) 0, [1, 2, 3], hlt⟩ :=
  segment_round_trip 80 49200 5000 1001 (tcpSyn ||| tcpAck) 1000 (by decide) rfl (by decide)

/-! ## Damage -/

/-- **A damaged byte is noticed.** Of two segments that differ in one byte at most one is taken. -/
theorem damaged_segment_dropped {damaged : SegmentBytes} {h : TcpHeaderView} {i : Nat} {b : UInt8}
    (hi : i < seg.val.length) (hb : b ≠ seg.val[i]) (hdamaged : damaged.val = seg.val.set i b)
    (htaken : receive seg srcIp dstIp = some h) : receive damaged srcIp dstIp = none := by
  have hfamily : srcIp.sameFamily dstIp = true := by
    cases srcIp <;> cases dstIp
    any_goals rfl
    all_goals cases htaken
  obtain ⟨sum, hsum, -, hreceive⟩ := pseudo_spec hfamily seg.val.length
  have hsame : damaged.val.length = seg.val.length := by rw [hdamaged, List.length_set]
  rw [hreceive seg rfl] at htaken
  rw [hreceive damaged hsame, hdamaged]
  split at htaken
  · cases htaken
  · split at htaken
    next hlong hvalid =>
      rw [if_neg hlong, if_neg fun hvalid' => hb (eq_of_both_valid hsum seg.property hi hvalid hvalid')]
    · cases htaken

/-- A RST of port 80 to port 49200 for the number 7. -/
def wireReset : SegmentBytes :=
  ⟨buildSegment 80 49200 7 0 tcpRst 1000 [] server client, by decide +kernel⟩

theorem wireReset_long : 7 < wireReset.val.length := by decide +kernel

/-- With another sequence number it is dropped. -/
theorem damaged_segment_dropped_reset :
    receive ⟨wireReset.val.set 7 8, by decide +kernel⟩ server client = none := by
  have htaken : (receive wireReset server client).isSome = true := by decide +kernel
  obtain ⟨h, heq⟩ := Option.isSome_iff_exists.mp htaken
  have hb : (8 : UInt8) ≠ getElem wireReset.val 7 wireReset_long := by decide +kernel
  exact damaged_segment_dropped wireReset_long hb rfl heq

end SlateOS.Net.Tcp
