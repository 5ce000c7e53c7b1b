/-
# SlateOS.Net.NatTable -- network address translation

`NatTable` of `kernel/src/net/nat.rs` with the operations that change it. Ports and namespace ids are
natural numbers; the port counter stays inside the ephemeral range, so its wrapping addition never
wraps. Each operation holds the table's lock throughout and is one step. The counters that `stats`
reports are left out.
-/
import SlateOS.Foundation.Runs
import SlateOS.Net.Interface

namespace SlateOS.Net

open Foundation

/-- `MAX_NAT_ENTRIES`. -/
def maxNatEntries : Nat := 256

/-- `NAT_PORT_START`. -/
def natPortStart : Nat := 32768

/-- `NAT_PORT_END`, inclusive. -/
def natPortEnd : Nat := 60999

/-- `TCP_TIMEOUT_SECS`. -/
def tcpTimeoutSecs : Nat := 300

/-- `UDP_TIMEOUT_SECS`. -/
def udpTimeoutSecs : Nat := 30

/-- `NatProto`. -/
inductive NatProto
  | tcp
  | udp
  deriving DecidableEq

/-- The lifetime of a fresh or refreshed entry. -/
def NatProto.timeoutSecs : NatProto → Nat
  | .tcp => tcpTimeoutSecs
  | .udp => udpTimeoutSecs

/-- The arguments of `translate_outgoing`: a namespace and the 5-tuple of a packet. -/
structure Flow where
  nsId : NetNsId
  proto : NatProto
  srcIp : Ipv4Addr
  srcPort : Nat
  dstIp : Ipv4Addr
  dstPort : Nat
  deriving DecidableEq

/-- `NatEntry`. -/
structure NatEntry where
  active : Bool
  proto : NatProto
  origSrcIp : Ipv4Addr
  origSrcPort : Nat
  dstIp : Ipv4Addr
  dstPort : Nat
  natPort : Nat
  nsId : NetNsId
  ttl : Nat
  deriving DecidableEq

namespace NatEntry

/-- The entry every slot starts with. -/
def unused : NatEntry where
  active := false
  proto := .tcp
  origSrcIp := .unspecified
  origSrcPort := 0
  dstIp := .unspecified
  dstPort := 0
  natPort := 0
  nsId := 0
  ttl := 0

/-- The flow an entry was created for. -/
def flow (e : NatEntry) : Flow := ⟨e.nsId, e.proto, e.origSrcIp, e.origSrcPort, e.dstIp, e.dstPort⟩

/-- The comparison of `translate_outgoing` against an existing mapping. -/
def carries (e : NatEntry) (f : Flow) : Bool :=
  e.active && decide (e.proto = f.proto) && decide (e.nsId = f.nsId) && decide (e.origSrcIp = f.srcIp) &&
    decide (e.origSrcPort = f.srcPort) && decide (e.dstIp = f.dstIp) && decide (e.dstPort = f.dstPort)

/-- The comparison of `translate_incoming`. -/
def answers (e : NatEntry) (proto : NatProto) (natPort : Nat) (remoteIp : Ipv4Addr)
    (remotePort : Nat) : Bool :=
  e.active && decide (e.proto = proto) && decide (e.natPort = natPort) && decide (e.dstIp = remoteIp) &&
    decide (e.dstPort = remotePort)

/-- The pass of `tick` over one entry. -/
def tick (e : NatEntry) : NatEntry :=
  if e.active then
    if e.ttl = 0 then { e with active := false } else { e with ttl := e.ttl - 1 }
  else e

/-- The pass of `flush_namespace` over one entry. -/
def flush (nsId : NetNsId) (e : NatEntry) : NatEntry :=
  if e.active ∧ e.nsId = nsId then { e with active := false } else e

end NatEntry

/-- `NatMapping`. -/
structure NatMapping where
  origSrcIp : Ipv4Addr
  origSrcPort : Nat
  nsId : NetNsId
  deriving DecidableEq

/-- `NatTable`, without its statistics. -/
structure NatTable where
  entries : List NatEntry
  nextPort : Nat
  enabled : Bool
  deriving DecidableEq

namespace NatTable

/-- The initial value of `NAT`. -/
def new : NatTable where
  entries := List.replicate maxNatEntries .unused
  nextPort := natPortStart
  enabled := false

/-- `enable`. -/
def enable (table : NatTable) : NatTable := { table with enabled := true }

/-- `disable`. -/
def disable (table : NatTable) : NatTable := { table with enabled := false }

/-! ## Port allocation -/

/-- The advance of `next_port` in `alloc_port`. -/
def advance (nextPort : Nat) : Nat := if nextPort ≥ natPortEnd then natPortStart else nextPort + 1

/-- `in_use` of `alloc_port`. -/
def inUse (entries : List NatEntry) (proto : NatProto) (candidate : Nat) : Bool :=
  entries.any fun e => e.active && decide (e.proto = proto) && decide (e.natPort = candidate)

/-- The loop of `alloc_port` with the rounds that are left: the port found and the new `next_port`. -/
def allocLoop (entries : List NatEntry) (proto : NatProto) : Nat → Nat → Option Nat × Nat
  | 0, nextPort => (none, nextPort)
  | rounds + 1, nextPort =>
    if inUse entries proto nextPort then allocLoop entries proto rounds (advance nextPort)
    else (some nextPort, advance nextPort)

/-- `alloc_port`. -/
def allocPort (table : NatTable) (proto : NatProto) : Option Nat × NatTable :=
  let r := allocLoop table.entries proto (natPortEnd - natPortStart + 1) table.nextPort
  (r.1, { table with nextPort := r.2 })

/-! ## Translation -/

/-- The entry `translate_outgoing` writes for a new mapping. -/
def entryFor (f : Flow) (natPort : Nat) : NatEntry where
  active := true
  proto := f.proto
  origSrcIp := f.srcIp
  origSrcPort := f.srcPort
  dstIp := f.dstIp
  dstPort := f.dstPort
  natPort := natPort
  nsId := f.nsId
  ttl := f.proto.timeoutSecs

/-- The second half of `translate_outgoing`: allocate a port, then a slot. -/
def createMapping (table : NatTable) (f : Flow) : Option Nat × NatTable :=
  match table.allocPort f.proto with
  | (none, table) => (none, table)
  | (some natPort, table) =>
    match table.entries.findIdx? fun e => !e.active with
    -- no free slot: `next_port` has moved on all the same
    | none => (none, table)
    | some slot =>
      (some natPort, { table with entries := table.entries.set slot (entryFor f natPort) })

/-- `translate_outgoing`. -/
def translateOutgoing (table : NatTable) (f : Flow) : Option Nat × NatTable :=
  if f.nsId = rootNs then (none, table)
  else if !table.enabled then (none, table)
  else
    match table.entries.find? fun e => e.carries f with
    | some e => (some e.natPort, table)
    | none => table.createMapping f

/-- `translate_incoming`. -/
def translateIncoming (table : NatTable) (proto : NatProto) (natPort : Nat) (remoteIp : Ipv4Addr)
    (remotePort : Nat) : Option NatMapping × NatTable :=
  if !table.enabled then (none, table)
  else
    match table.entries.findIdx? fun e => e.answers proto natPort remoteIp remotePort with
    | none => (none, table)
    | some idx =>
      match table.entries[idx]? with
      | none => (none, table)
      | some e =>
        (some ⟨e.origSrcIp, e.origSrcPort, e.nsId⟩,
          { table with entries := table.entries.set idx { e with ttl := proto.timeoutSecs } })

/-- `tick`. -/
def tick (table : NatTable) : NatTable :=
  if !table.enabled then table else { table with entries := table.entries.map NatEntry.tick }

/-- `flush_namespace`. -/
def flushNamespace (table : NatTable) (nsId : NetNsId) : NatTable :=
  { table with entries := table.entries.map (NatEntry.flush nsId) }

/-! ## The table as a transition system -/

/-- One call. -/
inductive Action
  | enable
  | disable
  | outgoing (f : Flow)
  | incoming (proto : NatProto) (natPort : Nat) (remoteIp : Ipv4Addr) (remotePort : Nat)
  | tick
  | flushNamespace (nsId : NetNsId)

/-- The table after one call. -/
def call (table : NatTable) : Action → NatTable
  | .enable => table.enable
  | .disable => table.disable
  | .outgoing f => (table.translateOutgoing f).2
  | .incoming proto natPort remoteIp remotePort =>
    (table.translateIncoming proto natPort remoteIp remotePort).2
  | .tick => table.tick
  | .flushNamespace nsId => table.flushNamespace nsId

/-- Every call is possible in every state. -/
def step (table : NatTable) (a : Action) : Option NatTable := some (table.call a)

/-- The tables of all runs from boot. -/
abbrev Reachable : NatTable → Prop := Runs.Reach step (· = new)

end NatTable

end SlateOS.Net
