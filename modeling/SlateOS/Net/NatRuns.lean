/-
# SlateOS.Net.NatRuns -- mappings over whole runs

What each operation of the NAT table can do, the invariant of the table and what it says about replies:
a port names one mapping of its protocol, a flow has one mapping, and a mapping keeps its port for as
long as it lives.
-/
import SlateOS.Foundation.Slots
import SlateOS.Net.NatTable

namespace SlateOS.Net

open Foundation

namespace NatEntry

/-- The slot is in use. -/
def Active (e : NatEntry) : Prop := e.active = true

/-- What a reply is matched on, apart from the remote end: the protocol and the external port. -/
def portKey (e : NatEntry) : NatProto × Nat := (e.proto, e.natPort)

theorem carries_iff (e : NatEntry) (f : Flow) : e.carries f = true ↔ e.Active ∧ e.flow = f := by
  obtain ⟨nsId, proto, srcIp, srcPort, dstIp, dstPort⟩ := f
  simp only [carries, Active, flow, Bool.and_eq_true, decide_eq_true_eq, Flow.mk.injEq]
  constructor
  · rintro ⟨⟨⟨⟨⟨⟨ha, hp⟩, hn⟩, hs⟩, hsp⟩, hd⟩, hdp⟩
    exact ⟨ha, hn, hp, hs, hsp, hd, hdp⟩
  · rintro ⟨ha, hn, hp, hs, hsp, hd, hdp⟩
    exact ⟨⟨⟨⟨⟨⟨ha, hp⟩, hn⟩, hs⟩, hsp⟩, hd⟩, hdp⟩

theorem answers_iff (e : NatEntry) (proto : NatProto) (natPort : Nat) (remoteIp : Ipv4Addr)
    (remotePort : Nat) : e.answers proto natPort remoteIp remotePort = true ↔
      e.Active ∧ e.portKey = (proto, natPort) ∧ e.dstIp = remoteIp ∧ e.dstPort = remotePort := by
  simp only [answers, Active, portKey, Bool.and_eq_true, decide_eq_true_eq, Prod.mk.injEq]
  constructor
  · rintro ⟨⟨⟨⟨ha, hp⟩, hn⟩, hi⟩, hr⟩
    exact ⟨ha, ⟨hp, hn⟩, hi, hr⟩
  · rintro ⟨ha, ⟨hp, hn⟩, hi, hr⟩
    exact ⟨⟨⟨⟨ha, hp⟩, hn⟩, hi⟩, hr⟩

/-- A pass over the table that may end mappings and touches nothing else of a live one. -/
def Fades (pass : NatEntry → NatEntry) : Prop :=
  ∀ e, (pass e).Active → e.Active ∧ (pass e).flow = e.flow ∧ (pass e).natPort = e.natPort

theorem tick_fades : Fades tick := by
  intro e
  unfold tick
  split
  next ha =>
    split
    · intro h
      exact absurd h Bool.false_ne_true
    · intro _
      exact ⟨ha, rfl, rfl⟩
  next => exact fun h => ⟨h, rfl, rfl⟩

theorem flush_fades (nsId : NetNsId) : Fades (flush nsId) := by
  intro e
  unfold flush
  split
  · intro h
    exact absurd h Bool.false_ne_true
  · exact fun h => ⟨h, rfl, rfl⟩

theorem Fades.portKey {pass : NatEntry → NatEntry} (h : Fades pass) {e : NatEntry}
    (he : (pass e).Active) : (pass e).portKey = e.portKey :=
  Prod.ext (congrArg Flow.proto (h e he).2.1) (h e he).2.2

end NatEntry

namespace NatTable

/-- A port of the ephemeral range. -/
def InRange (port : Nat) : Prop := natPortStart ≤ port ∧ port ≤ natPortEnd

/-- The flow is mapped to the external port. -/
def Maps (table : NatTable) (f : Flow) (natPort : Nat) : Prop :=
  ∃ e ∈ table.entries, e.Active ∧ e.flow = f ∧ e.natPort = natPort

/-- The flow has a mapping. -/
def Lives (table : NatTable) (f : Flow) : Prop := ∃ natPort, table.Maps f natPort

/-- The invariant of the table. -/
structure Wf (table : NatTable) : Prop where
  /-- Active entries of one protocol have distinct external ports. -/
  ports : Slots.Unique NatEntry.Active NatEntry.portKey table.entries
  /-- A flow has at most one active entry. -/
  flows : Slots.Unique NatEntry.Active NatEntry.flow table.entries
  range : ∀ e ∈ table.entries, e.Active → InRange e.natPort
  next : InRange table.nextPort

/-! ## What the operations do -/

theorem advance_inRange {port : Nat} (h : InRange port) : InRange (advance port) := by
  unfold advance
  obtain ⟨hlo, hhi⟩ := h
  split
  · exact ⟨Nat.le_refl _, by decide⟩
  next hlt => exact ⟨Nat.le_succ_of_le hlo, Nat.lt_of_not_le hlt⟩

variable {proto : NatProto}

theorem not_inUse {entries : List NatEntry} {port : Nat}
    (h : inUse entries proto port = false) :
    ∀ e ∈ entries, e.Active → e.portKey ≠ (proto, port) := by
  intro e he ha hkey
  obtain ⟨hp, hn⟩ := Prod.mk.inj hkey
  have hno := List.any_eq_false.mp h e he
  apply hno
  rw [ha, decide_eq_true hp, decide_eq_true hn]
  rfl

/-- The scan stays in the range and stops only at a port that no active entry of the protocol has. -/
theorem allocLoop_spec {entries : List NatEntry} {rounds port next : Nat}
    {found : Option Nat} (h : allocLoop entries proto rounds port = (found, next))
    (hport : InRange port) :
    InRange next ∧ ∀ c, found = some c → InRange c ∧ inUse entries proto c = false := by
  induction rounds generalizing port with
  | zero =>
    cases h
    exact ⟨hport, fun c hc => absurd hc (by simp)⟩
  | succ rounds ih =>
    unfold allocLoop at h
    split at h
    next => exact ih h (advance_inRange hport)
    next hfree =>
    cases h
    refine ⟨advance_inRange hport, ?_⟩
    rintro c ⟨⟩
    exact ⟨hport, Bool.not_eq_true _ ▸ hfree⟩

/-- Everything `translate_outgoing` can do: move the port counter, answer from an existing mapping, or
write a mapping of a fresh port into a free slot. -/
inductive Outgoing (table : NatTable) (f : Flow) : Option Nat → NatTable → Prop
  | refused (next : Nat) (hnext : InRange next) : Outgoing table f none { table with nextPort := next }
  | reused (e : NatEntry) (he : e ∈ table.entries) (ha : e.Active) (hf : e.flow = f) :
      Outgoing table f (some e.natPort) table
  | created (port next slot : Nat) (free : NatEntry) (hport : InRange port) (hnext : InRange next)
      (hslot : table.entries[slot]? = some free) (hfree : ¬free.Active)
      (hunused : ∀ e ∈ table.entries, e.Active → e.portKey ≠ (f.proto, port))
      (hnew : ∀ e ∈ table.entries, e.Active → e.flow ≠ f) :
      Outgoing table f (some port)
        { table with nextPort := next, entries := table.entries.set slot (entryFor f port) }

variable {table : NatTable} {f : Flow}

theorem createMapping_outgoing (hnext : InRange table.nextPort)
    (hnew : ∀ e ∈ table.entries, e.Active → e.flow ≠ f) :
    Outgoing table f (table.createMapping f).1 (table.createMapping f).2 := by
  obtain ⟨found, next, hloop⟩ : ∃ found next, allocLoop table.entries f.proto
      (natPortEnd - natPortStart + 1) table.nextPort = (found, next) := ⟨_, _, rfl⟩
  obtain ⟨hnext', hfound⟩ := allocLoop_spec hloop hnext
  simp only [createMapping, allocPort, hloop]
  cases found with
  | none => exact .refused next hnext'
  | some port =>
    obtain ⟨hport, hunused⟩ := hfound port rfl
    cases hslot : table.entries.findIdx? fun e => !e.active with
    | none =>
      simp only [hslot]
      exact .refused next hnext'
    | some slot =>
      simp only [hslot]
      obtain ⟨hlt, hdead, -⟩ := List.findIdx?_eq_some_iff_getElem.mp hslot
      refine .created port next slot table.entries[slot] hport hnext'
        (List.getElem?_eq_getElem hlt) ?_ (not_inUse hunused) hnew
      intro ha
      rw [show table.entries[slot].active = true from ha] at hdead
      exact Bool.false_ne_true hdead

theorem translateOutgoing_outgoing (hnext : InRange table.nextPort) (f : Flow) :
    Outgoing table f (table.translateOutgoing f).1 (table.translateOutgoing f).2 := by
  unfold translateOutgoing
  split
  next => exact .refused table.nextPort hnext
  next =>
  split
  next => exact .refused table.nextPort hnext
  next =>
  split
  next e hfind =>
    have hcarries : e.carries f = true := by
      have hsome := List.find?_some hfind
      exact hsome
    obtain ⟨ha, hf⟩ := (e.carries_iff f).mp hcarries
    exact .reused e (List.mem_of_find?_eq_some hfind) ha hf
  next hfind =>
  apply createMapping_outgoing hnext
  intro e he ha hf
  exact List.find?_eq_none.mp hfind e he ((e.carries_iff f).mpr ⟨ha, hf⟩)

/-- Everything `translate_incoming` can do: nothing, or answer from an active entry and refresh it. -/
inductive Incoming (table : NatTable) (proto : NatProto) (natPort : Nat) (remoteIp : Ipv4Addr)
    (remotePort : Nat) : Option NatMapping → NatTable → Prop
  | dropped (hno : table.enabled = true → ∀ e ∈ table.entries, e.Active → e.portKey = (proto, natPort) →
      ¬(e.dstIp = remoteIp ∧ e.dstPort = remotePort)) :
      Incoming table proto natPort remoteIp remotePort none table
  | answered (idx : Nat) (e : NatEntry) (henabled : table.enabled = true)
      (hidx : table.entries[idx]? = some e) (ha : e.Active)
      (hkey : e.portKey = (proto, natPort)) (hip : e.dstIp = remoteIp) (hport : e.dstPort = remotePort) :
      Incoming table proto natPort remoteIp remotePort (some ⟨e.origSrcIp, e.origSrcPort, e.nsId⟩)
        { table with entries := table.entries.set idx { e with ttl := proto.timeoutSecs } }

theorem translateIncoming_incoming (table : NatTable) (proto : NatProto) (natPort : Nat)
    (remoteIp : Ipv4Addr) (remotePort : Nat) :
    Incoming table proto natPort remoteIp remotePort
      (table.translateIncoming proto natPort remoteIp remotePort).1
      (table.translateIncoming proto natPort remoteIp remotePort).2 := by
  unfold translateIncoming
  split
  next hoff =>
    apply Incoming.dropped
    intro hon
    rw [hon] at hoff
    exact absurd hoff Bool.false_ne_true
  next hon =>
  have henabled : table.enabled = true := by simpa using hon
  split
  next hnone =>
    apply Incoming.dropped
    intro _ e he ha hkey hremote
    have hno := List.findIdx?_eq_none_iff.mp hnone e he
    rw [(e.answers_iff proto natPort remoteIp remotePort).mpr ⟨ha, hkey, hremote⟩] at hno
    exact absurd hno.symm Bool.false_ne_true
  next idx hidx =>
  obtain ⟨hlt, hyes, -⟩ := List.findIdx?_eq_some_iff_getElem.mp hidx
  obtain ⟨ha, hkey, hip, hport⟩ := (NatEntry.answers_iff _ _ _ _ _).mp hyes
  simp only [List.getElem?_eq_getElem hlt]
  exact .answered idx table.entries[idx] henabled (List.getElem?_eq_getElem hlt) ha hkey hip hport

/-! ## The invariant -/

theorem wf_new : Wf new where
  ports := Slots.Unique.of_free fun e he => by
    rw [List.eq_of_mem_replicate he]
    exact Bool.false_ne_true
  flows := Slots.Unique.of_free fun e he => by
    rw [List.eq_of_mem_replicate he]
    exact Bool.false_ne_true
  range := fun e he ha => by
    rw [List.eq_of_mem_replicate he] at ha
    exact absurd ha Bool.false_ne_true
  next := ⟨by decide, by decide⟩

variable {table' : NatTable}

theorem Outgoing.wf {answer : Option Nat} (hwf : table.Wf)
    (h : Outgoing table f answer table') : table'.Wf := by
  cases h with
  | refused next hnext => exact ⟨hwf.ports, hwf.flows, hwf.range, hnext⟩
  | reused => exact hwf
  | created port next slot free hport hnext hslot hfree hunused hnew =>
    refine ⟨hwf.ports.set_of_fresh hunused, hwf.flows.set_of_fresh hnew, ?_, hnext⟩
    intro e he ha
    rcases Slots.mem_set_cases he with rfl | he
    · exact hport
    · exact hwf.range e he ha

theorem Incoming.wf {natPort remotePort : Nat}
    {remoteIp : Ipv4Addr} {answer : Option NatMapping} (hwf : table.Wf)
    (h : Incoming table proto natPort remoteIp remotePort answer table') : table'.Wf := by
  cases h with
  | dropped => exact hwf
  | answered idx e _ hidx ha =>
    refine ⟨hwf.ports.set_of_same hidx (fun _ => ha) rfl,
      hwf.flows.set_of_same hidx (fun _ => ha) rfl, ?_, hwf.next⟩
    intro e' he' ha'
    rcases Slots.mem_set_cases he' with rfl | he'
    · exact hwf.range e (List.mem_of_getElem? hidx) ha
    · exact hwf.range e' he' ha'

theorem wf_map (hwf : table.Wf) {pass : NatEntry → NatEntry}
    (hpass : NatEntry.Fades pass) : Wf { table with entries := table.entries.map pass } where
  ports := hwf.ports.map (fun e he => (hpass e he).1) fun _ he => hpass.portKey he
  flows := hwf.flows.map (fun e he => (hpass e he).1) fun e he => (hpass e he).2.1
  range := by
    intro e' he' ha'
    obtain ⟨e, he, rfl⟩ := List.mem_map.mp he'
    obtain ⟨ha, -, hport⟩ := hpass e ha'
    rw [hport]
    exact hwf.range e he ha
  next := hwf.next

theorem tick_eq (table : NatTable) :
    table.tick = table ∨ table.tick = { table with entries := table.entries.map NatEntry.tick } := by
  unfold tick
  split
  · exact Or.inl rfl
  · exact Or.inr rfl

/-- Every call keeps the invariant. -/
theorem wf_step {a : Action} (hwf : table.Wf)
    (h : table.step a = some table') : table'.Wf := by
  cases h
  cases a with
  | enable => exact ⟨hwf.ports, hwf.flows, hwf.range, hwf.next⟩
  | disable => exact ⟨hwf.ports, hwf.flows, hwf.range, hwf.next⟩
  | outgoing f => exact (translateOutgoing_outgoing hwf.next f).wf hwf
  | incoming proto natPort remoteIp remotePort =>
    exact (table.translateIncoming_incoming proto natPort remoteIp remotePort).wf hwf
  | tick =>
    show table.tick.Wf
    rcases table.tick_eq with heq | heq
    · rw [heq]
      exact hwf
    · rw [heq]
      exact wf_map hwf NatEntry.tick_fades
  | flushNamespace nsId => exact wf_map hwf (NatEntry.flush_fades nsId)

theorem Reachable.wf (h : table.Reachable) : table.Wf := by
  refine Runs.ReachBy.invariant (fun _ hs => ?_) (fun _ _ _ hwf _ hs => wf_step hwf hs) h
  rw [hs]
  exact wf_new

/-! ## The life of a mapping -/

/-- A flow is mapped to one port only. -/
theorem Wf.maps_unique (hwf : table.Wf) {p q : Nat}
    (hp : table.Maps f p) (hq : table.Maps f q) : p = q := by
  obtain ⟨a, ha, hla, hfa, rfl⟩ := hp
  obtain ⟨b, hb, hlb, hfb, rfl⟩ := hq
  rw [hwf.flows.eq_of_mem ha hb hla hlb (hfa.trans hfb.symm)]

variable {p : Nat}

theorem Maps.enable (h : table.Maps f p) :
    table.enable.Maps f p := h

theorem Maps.disable (h : table.Maps f p) :
    table.disable.Maps f p := h

theorem Outgoing.maps {f g : Flow} {answer : Option Nat}
    (h : Outgoing table f answer table') (hp : table.Maps g p) : table'.Maps g p := by
  obtain ⟨e, he, ha, hf, hn⟩ := hp
  cases h with
  | refused => exact ⟨e, he, ha, hf, hn⟩
  | reused => exact ⟨e, he, ha, hf, hn⟩
  | created port next slot free _ _ hslot hfree =>
    exact ⟨e, Slots.mem_set_of_mem hslot hfree he ha, ha, hf, hn⟩

/-- The port that `translate_outgoing` answers is the flow's mapping. -/
theorem Outgoing.maps_answer
    (h : Outgoing table f (some p) table') : table'.Maps f p := by
  cases h with
  | reused e he ha hf => exact ⟨e, he, ha, hf, rfl⟩
  | created port next slot free _ _ hslot =>
    have hlt : slot < table.entries.length := (List.getElem?_eq_some_iff.mp hslot).1
    exact ⟨entryFor f p, List.mem_set hlt _, rfl, rfl, rfl⟩

theorem Incoming.maps {natPort remotePort p : Nat}
    {remoteIp : Ipv4Addr} {answer : Option NatMapping}
    (h : Incoming table proto natPort remoteIp remotePort answer table') (hp : table.Maps f p) :
    table'.Maps f p := by
  obtain ⟨e, he, ha, hf, hn⟩ := hp
  cases h with
  | dropped => exact ⟨e, he, ha, hf, hn⟩
  | answered idx c _ hidx =>
    obtain ⟨j, hj⟩ := List.mem_iff_getElem?.mp he
    by_cases hij : idx = j
    · -- the refreshed entry is the flow's own: only its lifetime changes
      obtain rfl : c = e := by
        rw [hij, hj] at hidx
        exact (Option.some.inj hidx).symm
      have hlt : idx < table.entries.length := (List.getElem?_eq_some_iff.mp hidx).1
      exact ⟨_, List.mem_set hlt _, ha, hf, hn⟩
    · refine ⟨e, List.mem_of_getElem? (i := j) ?_, ha, hf, hn⟩
      rw [List.getElem?_set_ne hij, hj]

/-- A pass ends a mapping or leaves it with its port. -/
theorem Wf.maps_of_map (hwf : table.Wf) {pass : NatEntry → NatEntry}
    (hpass : NatEntry.Fades pass) {p q : Nat} (hp : table.Maps f p)
    (hq : Maps { table with entries := table.entries.map pass } f q) : p = q := by
  obtain ⟨e', he', ha', hf', hn'⟩ := hq
  obtain ⟨e, he, rfl⟩ := List.mem_map.mp he'
  obtain ⟨ha, hflow, hport⟩ := hpass e ha'
  exact hwf.maps_unique hp ⟨e, he, ha, hflow.symm.trans hf', hport.symm.trans hn'⟩

/-- **One step of a mapping.** Whatever is called, a mapping that still lives afterwards has the port
it had. -/
theorem maps_step {a : Action} (hwf : table.Wf)
    (h : table.step a = some table') (hp : table.Maps f p)
    (hlives : table'.Lives f) : table'.Maps f p := by
  have hwf' : table'.Wf := wf_step hwf h
  obtain ⟨q, hq⟩ := hlives
  cases h
  have hpass : ∀ pass, NatEntry.Fades pass →
      Maps { table with entries := table.entries.map pass } f q →
      Maps { table with entries := table.entries.map pass } f p := by
    intro pass hfades hmaps
    rw [hwf.maps_of_map hfades hp hmaps]
    exact hmaps
  cases a with
  | enable => exact hp.enable
  | disable => exact hp.disable
  | outgoing g => exact (translateOutgoing_outgoing hwf.next g).maps hp
  | incoming proto natPort remoteIp remotePort =>
    exact (table.translateIncoming_incoming proto natPort remoteIp remotePort).maps hp
  | tick =>
    replace hq : table.tick.Maps f q := hq
    show table.tick.Maps f p
    rcases table.tick_eq with heq | heq
    · rw [heq]
      exact hp
    · rw [heq] at hq ⊢
      exact hpass _ NatEntry.tick_fades hq
  | flushNamespace nsId => exact hpass _ (NatEntry.flush_fades nsId) hq

/-- **A run of a mapping.** As long as a flow stays mapped, it stays mapped to the same port. -/
theorem maps_run {as : List Action} (hwf : table.Wf)
    (hrun : Runs.run step table as = some table') (hp : table.Maps f p)
    (hlives : Runs.Along step (fun s _ => s.Lives f) table as) (hlives' : table'.Lives f) :
    table'.Wf ∧ table'.Maps f p := by
  induction as generalizing table with
  | nil =>
    cases hrun
    exact ⟨hwf, hp⟩
  | cons a as ih =>
    rw [Runs.run_cons, Option.bind_eq_some_iff] at hrun
    obtain ⟨next, hstep, hrest⟩ := hrun
    have hrestLives : Runs.Along step (fun s _ => s.Lives f) next as := hlives.2 next hstep
    -- the flow lives in the state between: there the rest of the run starts or ends
    have hnext : next.Lives f := by
      cases as with
      | nil =>
        cases hrest
        exact hlives'
      | cons b bs => exact hrestLives.1
    exact ih (wf_step hwf hstep) hrest (maps_step hwf hstep hp hnext) hrestLives

/-! ## Replies -/

/-- A reply to a mapped port is answered with the mapped endpoint, unless translation is off. -/
theorem Wf.reply (hwf : table.Wf) (hp : table.Maps f p) :
    (table.translateIncoming f.proto p f.dstIp f.dstPort).1 =
      if table.enabled then some ⟨f.srcIp, f.srcPort, f.nsId⟩ else none := by
  obtain ⟨e, he, ha, rfl, rfl⟩ := hp
  by_cases hon : table.enabled = true
  · rw [if_pos hon]
    have hin := table.translateIncoming_incoming e.flow.proto e.natPort e.flow.dstIp e.flow.dstPort
    revert hin
    generalize table.translateIncoming e.flow.proto e.natPort e.flow.dstIp e.flow.dstPort = r
    rintro hin
    obtain ⟨answer, table'⟩ := r
    cases hin with
    | dropped hno => exact absurd ⟨rfl, rfl⟩ (hno hon e he ha rfl)
    | answered idx c _ hidx hc hkey =>
      -- the port belongs to one active entry of the protocol
      have hce : c = e := hwf.ports.eq_of_mem (List.mem_of_getElem? hidx) he hc ha hkey
      rw [hce]
      rfl
  · rw [if_neg hon]
    unfold translateIncoming
    rw [if_pos (by simpa using hon)]

/-- Only the endpoint of a live mapping of that port and remote end is ever answered. -/
theorem answer_maps {natPort remotePort : Nat}
    {remoteIp : Ipv4Addr} {m : NatMapping}
    (h : (table.translateIncoming proto natPort remoteIp remotePort).1 = some m) :
    table.Maps ⟨m.nsId, proto, m.origSrcIp, m.origSrcPort, remoteIp, remotePort⟩ natPort := by
  have hin := table.translateIncoming_incoming proto natPort remoteIp remotePort
  revert h hin
  generalize table.translateIncoming proto natPort remoteIp remotePort = r
  obtain ⟨answer, table'⟩ := r
  rintro rfl hin
  cases hin with
  | answered idx e _ hidx ha hkey hip hport =>
    cases hkey
    subst hip
    subst hport
    exact ⟨e, List.mem_of_getElem? hidx, ha, rfl, rfl⟩

/-- A port of one protocol belongs to one flow. -/
theorem Wf.port_unique (hwf : table.Wf) {f g : Flow}
    (hf : table.Maps f p) (hg : table.Maps g p) (hproto : f.proto = g.proto) : f = g := by
  obtain ⟨a, ha, hla, rfl, rfl⟩ := hf
  obtain ⟨b, hb, hlb, rfl, hp⟩ := hg
  rw [hwf.ports.eq_of_mem ha hb hla hlb (Prod.ext hproto hp.symm)]

/-- **Mappings are unique and replies reach them.** In every reachable table the active entries of one
protocol have distinct ports of the ephemeral range and a flow has one active entry. From the moment
`translate_outgoing` answers a port for a flow and for as long as the flow stays mapped, a reply to that
port is answered with the flow's own address, port and namespace while translation is enabled and with
nothing while it is disabled; an answer always names a live mapping of the port it came to, and no other
flow has that port. -/
theorem mappings_unique_and_replies_reach_them {table : NatTable} (h : table.Reachable) :
    (∀ (i j : Nat) (a b : NatEntry), table.entries[i]? = some a → table.entries[j]? = some b → a.active = true →
      b.active = true → a.proto = b.proto ∧ a.natPort = b.natPort ∨ a.flow = b.flow → i = j) ∧
    (∀ e ∈ table.entries, e.active = true → 32768 ≤ e.natPort ∧ e.natPort ≤ 60999) ∧
    (∀ f p table', table.translateOutgoing f = (some p, table') →
      ∀ as later, Runs.run step table' as = some later →
        Runs.Along step (fun s _ => s.Lives f) table' as → later.Lives f →
        later.Maps f p ∧
        (later.translateIncoming f.proto p f.dstIp f.dstPort).1 =
          if later.enabled then some ⟨f.srcIp, f.srcPort, f.nsId⟩ else none) ∧
    (∀ proto natPort remoteIp remotePort m,
      (table.translateIncoming proto natPort remoteIp remotePort).1 = some m →
        table.Maps ⟨m.nsId, proto, m.origSrcIp, m.origSrcPort, remoteIp, remotePort⟩ natPort ∧
        ∀ g : Flow, g.proto = proto → table.Maps g natPort →
          g = ⟨m.nsId, proto, m.origSrcIp, m.origSrcPort, remoteIp, remotePort⟩) := by
  have hwf : table.Wf := h.wf
  refine ⟨?_, hwf.range, ?_, ?_⟩
  · rintro i j a b hi hj ha hb (⟨hproto, hport⟩ | hflow)
    · exact hwf.ports i j a b hi hj ha hb (Prod.ext hproto hport)
    · exact hwf.flows i j a b hi hj ha hb hflow
  · intro f p table' hout as later hrun hlives hlater
    have hspec := translateOutgoing_outgoing hwf.next f
    rw [hout] at hspec
    obtain ⟨hwf', hmaps⟩ := maps_run (hspec.wf hwf) hrun hspec.maps_answer hlives hlater
    exact ⟨hmaps, hwf'.reply hmaps⟩
  · intro proto natPort remoteIp remotePort m hm
    have hmaps := answer_maps hm
    exact ⟨hmaps, fun g hg hmapsg => hwf.port_unique hmapsg hmaps hg⟩

/-- A packet of a container in namespace 42. -/
def containerFlow : Flow where
  nsId := 42
  proto := .tcp
  srcIp := #v[10, 88, 0, 2]
  srcPort := 5000
  dstIp := #v[93, 184, 216, 34]
  dstPort := 80

/-- The table after the packet went out. -/
def afterPacket : NatTable := (new.enable.translateOutgoing containerFlow).2

theorem enabled_reachable : new.enable.Reachable := .next (a := .enable) (.start rfl) trivial rfl

theorem afterPacket_reachable : afterPacket.Reachable :=
  .next (a := .outgoing containerFlow) enabled_reachable trivial rfl

theorem afterPacket_maps : afterPacket.Maps containerFlow 32768 :=
  ⟨entryFor containerFlow 32768, by decide +kernel, rfl, rfl, rfl⟩

theorem mappings_unique_and_replies_reach_them_container :
    (afterPacket.translateIncoming containerFlow.proto 32768 containerFlow.dstIp containerFlow.dstPort).1 =
      some ⟨containerFlow.srcIp, containerFlow.srcPort, containerFlow.nsId⟩ := by
  have hout : new.enable.translateOutgoing containerFlow = (some 32768, afterPacket) := by
    decide +kernel
  have hreplies := (mappings_unique_and_replies_reach_them enabled_reachable).2.2.1
  have hreply := hreplies containerFlow 32768 afterPacket hout [] afterPacket rfl trivial
    ⟨32768, afterPacket_maps⟩
  have hon : afterPacket.enabled = true := by decide +kernel
  rw [hreply.2, if_pos hon]

/-- While translation is disabled a live mapping answers no reply. -/
theorem disabled_table_answers_no_reply : ∃ table : NatTable, table.Reachable ∧
    table.Maps containerFlow 32768 ∧
    (table.translateIncoming containerFlow.proto 32768 containerFlow.dstIp containerFlow.dstPort).1 ≠
      some ⟨containerFlow.srcIp, containerFlow.srcPort, containerFlow.nsId⟩ := by
  refine ⟨afterPacket.disable, .next (a := .disable) afterPacket_reachable trivial rfl,
    afterPacket_maps.disable, ?_⟩
  decide +kernel

end NatTable

end SlateOS.Net
