/-
# SlateOS.Net.Frag -- reassembly of IP fragments

`kernel/src/net/frag.rs`. The two address families run the same code over two entry types; `FragContext`
is that code once, over the key of a context and over what a family stores beside it, and each family's
functions are its instances. Bytes are `UInt8`, the bitmap's bytes are bit vectors. `has_first` of IPv6 is
left out: it is written and never read. Each call holds its table's lock throughout.
-/
import SlateOS.Foundation.GrowingBuffer
import SlateOS.Foundation.MachineInt
import SlateOS.Net.Interface

namespace SlateOS.Net

open Foundation Foundation.MachineInt

/-- `MAX_REASSEMBLY_ENTRIES`. -/
def maxReassemblyEntries : Nat := 8

/-- `REASSEMBLY_TIMEOUT_V4_NS`. -/
def reassemblyTimeoutV4Ns : Nat := 30000000000

/-- `REASSEMBLY_TIMEOUT_V6_NS`. -/
def reassemblyTimeoutV6Ns : Nat := 60000000000

/-- `MAX_PAYLOAD_V4`. -/
def maxPayloadV4 : Nat := 65535 - 20

/-- `MAX_PAYLOAD_V6`. -/
def maxPayloadV6 : Nat := 65535

/-- `FRAG_BLOCK_SIZE`. -/
def fragBlockSize : Nat := 8

/-- `div_ceil`. -/
def divCeil (a b : Nat) : Nat := (a + b - 1) / b

/-- `FragEntry` and `FragEntryV6`: one reassembly context. -/
structure FragContext (κ ν : Type) where
  active : Bool
  key : κ
  /-- What the family stores with the key. -/
  note : ν
  buffer : List UInt8
  received : List (BitVec 8)
  totalLen : Option Nat
  createdNs : Nat

namespace FragContext

variable {κ ν : Type}

/-- `is_complete`. -/
def isComplete (e : FragContext κ ν) : Bool :=
  match e.totalLen with
  | none => false
  | some total =>
    if total = 0 then true
    else GrowingBuffer.prefixFull e.received (divCeil total fragBlockSize)

/-- `add_fragment` on one context; `maxPayload` is the family's bound. -/
def addFragment (maxPayload : Nat) (e : FragContext κ ν) (byteOffset : Nat) (data : List UInt8)
    (moreFragments : Bool) : Bool × FragContext κ ν :=
  if data = [] then (false, e)
  else
    let stop := saturatingAdd 64 byteOffset data.length
    if stop > maxPayload then (false, e)
    else
      let lastBlock := divCeil stop fragBlockSize
      let firstBlock := byteOffset / fragBlockSize
      let e' : FragContext κ ν :=
        { e with
          totalLen := if moreFragments then e.totalLen else some stop
          buffer := GrowingBuffer.write 0 e.buffer byteOffset data
          received := GrowingBuffer.markFrom (GrowingBuffer.grow 0 (divCeil lastBlock 8) e.received)
            firstBlock (lastBlock - firstBlock) }
      (e'.isComplete, e')

/-- `clear`. -/
def clear (e : FragContext κ ν) : FragContext κ ν :=
  { e with active := false, buffer := [], received := [], totalLen := none }

end FragContext

/-- A reassembly table, `ENTRIES` or `ENTRIES_V6`. -/
abbrev FragTable (κ ν : Type) := List (FragContext κ ν)

/-- What one call of `add_fragment` gets: the key it forms and the rest of its arguments, with the
clock as it reads it. -/
structure Fragment (κ ν : Type) where
  key : κ
  note : ν
  offsetUnits : Nat
  moreFragments : Bool
  data : List UInt8
  nowNs : Nat

namespace FragTable

variable {κ ν : Type} [DecidableEq κ]

/-- The first active context with the key. -/
def findKey (table : FragTable κ ν) (key : κ) : Option Nat :=
  table.findIdx? fun e => e.active && e.key = key

/-- The scan for the oldest context: its index and its time, from the index and the time so far. -/
def oldestFrom : FragTable κ ν → Nat → Nat × Nat → Nat × Nat
  | [], _, best => best
  | e :: table, i, best =>
    oldestFrom table (i + 1) (if e.createdNs < best.2 then (i, e.createdNs) else best)

/-- The slot for a new context: the first free one, or else the oldest. -/
def slotFor (table : FragTable κ ν) : Nat :=
  (table.findIdx? fun e => !e.active).getD (table.oldestFrom 0 (0, maxVal 64)).1

/-- A slot taken for the fragment's key, evicting the context that is there. -/
def openAt (table : FragTable κ ν) (slot : Nat) (f : Fragment κ ν) : FragTable κ ν :=
  table.modify slot fun e =>
    { (if e.active then e.clear else e) with
      active := true
      key := f.key
      note := f.note
      createdNs := f.nowNs }

/-- The fragment's data into the context at `idx`; the note and the payload of a complete datagram. -/
def addAt (maxPayload : Nat) (table : FragTable κ ν) (idx : Nat) (f : Fragment κ ν) :
    Option (ν × List UInt8) × FragTable κ ν :=
  match table[idx]? with
  | none => (none, table)
  | some entry =>
    let (complete, entry) :=
      entry.addFragment maxPayload (f.offsetUnits * fragBlockSize) f.data f.moreFragments
    if complete then
      let total := entry.totalLen.getD entry.buffer.length
      (some (entry.note, entry.buffer.take total), table.set idx entry.clear)
    else if entry.buffer = [] then (none, table.set idx entry.clear)
    else (none, table.set idx entry)

/-- `add_fragment` on the table. -/
def addFragment (maxPayload : Nat) (table : FragTable κ ν) (f : Fragment κ ν) :
    Option (ν × List UInt8) × FragTable κ ν :=
  match table.findKey f.key with
  | some idx => table.addAt maxPayload idx f
  | none => (table.openAt table.slotFor f).addAt maxPayload table.slotFor f

/-- `tick_expire` on one table. -/
def tickExpire (timeoutNs : Nat) (table : FragTable κ ν) (nowNs : Nat) : FragTable κ ν :=
  table.map fun e => if e.active ∧ timeoutNs ≤ nowNs - e.createdNs then e.clear else e

end FragTable

/-! ## IPv4 -/

/-- `FragKey`. -/
structure FragKey where
  src : Ipv4Addr
  dst : Ipv4Addr
  identification : Nat
  protocol : Nat
  deriving DecidableEq

/-- `FragEntry`. -/
abbrev FragEntry := FragContext FragKey Unit

/-- `FragEntry::empty`. -/
def FragEntry.empty : FragEntry where
  active := false
  key := ⟨.unspecified, .unspecified, 0, 0⟩
  note := ()
  buffer := []
  received := []
  totalLen := none
  createdNs := 0

/-- `ENTRIES` at first. -/
def fragEntries : FragTable FragKey Unit := List.replicate maxReassemblyEntries FragEntry.empty

/-- `ReassembledPacket`. -/
structure ReassembledPacket where
  src : Ipv4Addr
  dst : Ipv4Addr
  protocol : Nat
  payload : List UInt8
  deriving DecidableEq

/-- `add_fragment`. -/
def addFragment (entries : FragTable FragKey Unit) (src dst : Ipv4Addr) (identification protocol : Nat)
    (fragmentOffsetUnits : Nat) (moreFragments : Bool) (data : List UInt8) (nowNs : Nat) :
    Option ReassembledPacket × FragTable FragKey Unit :=
  let r := entries.addFragment maxPayloadV4
    ⟨⟨src, dst, identification, protocol⟩, (), fragmentOffsetUnits, moreFragments, data, nowNs⟩
  (r.1.map fun p => ⟨src, dst, protocol, p.2⟩, r.2)

/-! ## IPv6 -/

/-- `FragKeyV6`. -/
structure FragKeyV6 where
  src : Ipv6Addr
  dst : Ipv6Addr
  identification : Nat
  deriving DecidableEq

/-- `FragEntryV6`; the note is `upper_protocol`. -/
abbrev FragEntryV6 := FragContext FragKeyV6 Nat

/-- `Ipv6Addr::UNSPECIFIED`. -/
def ipv6Unspecified : Ipv6Addr := Vector.replicate 16 0

/-- `FragEntryV6::empty`. -/
def FragEntryV6.empty : FragEntryV6 where
  active := false
  key := ⟨ipv6Unspecified, ipv6Unspecified, 0⟩
  note := 0
  buffer := []
  received := []
  totalLen := none
  createdNs := 0

/-- `ENTRIES_V6` at first. -/
def fragEntriesV6 : FragTable FragKeyV6 Nat := List.replicate maxReassemblyEntries FragEntryV6.empty

/-- `ReassembledPacketV6`. -/
structure ReassembledPacketV6 where
  src : Ipv6Addr
  dst : Ipv6Addr
  upperProtocol : Nat
  payload : List UInt8
  deriving DecidableEq

/-- `add_fragment_v6`. -/
def addFragmentV6 (entries : FragTable FragKeyV6 Nat) (src dst : Ipv6Addr)
    (identification upperProtocol : Nat) (fragmentOffsetUnits : Nat) (moreFragments : Bool)
    (data : List UInt8) (nowNs : Nat) : Option ReassembledPacketV6 × FragTable FragKeyV6 Nat :=
  let r := entries.addFragment maxPayloadV6
    ⟨⟨src, dst, identification⟩, upperProtocol, fragmentOffsetUnits, moreFragments, data, nowNs⟩
  (r.1.map fun p => ⟨src, dst, p.1, p.2⟩, r.2)

end SlateOS.Net
