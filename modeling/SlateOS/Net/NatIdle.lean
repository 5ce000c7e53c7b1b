/-
# SlateOS.Net.NatIdle -- how long a mapping that is in use lives

`tick` ends a mapping whose lifetime has run out. `translate_incoming` renews the lifetime of the mapping it
answers from (`Refresh TTL on activity`), and `translate_outgoing` sets it when it makes a mapping and leaves
it alone when it reuses one. `Watched` keeps beside the table how many ticks ago each flow had its last
packet translated: lifetime and idle time together are the timeout at least, for as long as no mapping
with some of its lifetime gone is reused.
-/
import SlateOS.Net.NatRuns

namespace SlateOS.Net

open Foundation Foundation.Runs
open Function (update update_self update_of_ne)

/-- The table, and for each flow the number of calls of `tick` since a packet of it was translated. -/
structure Watched where
  table : NatTable
  idle : Flow → Nat

namespace Watched

open NatTable

/-- The flow of a reply that was answered. -/
def replyFlow (m : NatMapping) (proto : NatProto) (remoteIp : Ipv4Addr) (remotePort : Nat) : Flow :=
  ⟨m.nsId, proto, m.origSrcIp, m.origSrcPort, remoteIp, remotePort⟩

/-- An answered packet of a flow starts its idle time anew. -/
def packet {α : Type} (idle : Flow → Nat) (flow : α → Flow) : Option α → Flow → Nat
  | some answer => update idle (flow answer) 0
  | none => idle

/-- The idle times after one call. -/
def idleAfter (s : Watched) : Action → Flow → Nat
  | .outgoing f => packet s.idle (fun _ => f) (s.table.translateOutgoing f).1
  | .incoming proto natPort remoteIp remotePort =>
    packet s.idle (fun m => replyFlow m proto remoteIp remotePort)
      (s.table.translateIncoming proto natPort remoteIp remotePort).1
  | .tick => fun f => s.idle f + 1
  | _ => s.idle

def step (s : Watched) (a : Action) : Option Watched := some ⟨s.table.call a, s.idleAfter a⟩

/-- The table at boot. -/
def Boot (s : Watched) : Prop := s.table = NatTable.new

/-- The call reuses no mapping that has some of its lifetime gone. -/
def Unaged (s : Watched) : Action → Prop
  | .outgoing f => s.table.enabled = true → f.nsId ≠ rootNs →
      ∀ e ∈ s.table.entries, e.Active → e.flow = f → f.proto.timeoutSecs ≤ e.ttl
  | _ => True

/-- A mapping in use survives a tick: one that translated a packet less than its timeout ago. -/
def Survives (s : Watched) : Prop :=
  ∀ (i : Nat) (e : NatEntry), s.table.entries[i]? = some e → e.Active →
    s.idle e.flow < e.proto.timeoutSecs → ∃ e', s.table.tick.entries[i]? = some e' ∧ e'.Active

/-- Lifetime and idle time of a mapping make up its timeout. -/
def Timed (entries : List NatEntry) (idle : Flow → Nat) : Prop :=
  ∀ e ∈ entries, e.Active → e.proto.timeoutSecs ≤ e.ttl + idle e.flow

/-! ## One call -/

/-- An entry with its whole lifetime goes into a slot, and the idle time of its flow starts anew. -/
theorem Timed.set_renewed {entries : List NatEntry} {idle : Flow → Nat} (h : Timed entries idle)
    {slot : Nat} {e : NatEntry} (hnew : e.ttl = e.proto.timeoutSecs)
    (hothers : ∀ a ∈ entries.set slot e, a.Active → a = e ∨ a ∈ entries ∧ a.flow ≠ e.flow) :
    Timed (entries.set slot e) (update idle e.flow 0) := by
  intro a ha hactive
  rcases hothers a ha hactive with rfl | ⟨hold, hflow⟩
  · omega
  · rw [update_of_ne hflow]
    exact h a hold hactive

theorem translateOutgoing_enabled {table : NatTable} {f : Flow} {p : Nat}
    (h : (table.translateOutgoing f).1 = some p) : table.enabled = true ∧ f.nsId ≠ rootNs := by
  unfold translateOutgoing at h
  split at h
  · cases h
  · next hns =>
    split at h
    · cases h
    · next hon => exact ⟨by simpa using hon, hns⟩

theorem timed_outgoing {s : Watched} (hwf : s.table.Wf) (h : Timed s.table.entries s.idle) {f : Flow}
    (hok : s.Unaged (.outgoing f)) :
    Timed (s.table.translateOutgoing f).2.entries (s.idleAfter (.outgoing f)) := by
  have hspec := translateOutgoing_outgoing hwf.next f
  have henabled : ∀ p, (s.table.translateOutgoing f).1 = some p →
      s.table.enabled = true ∧ f.nsId ≠ rootNs := fun _ => translateOutgoing_enabled
  show Timed _ (packet s.idle (fun _ => f) (s.table.translateOutgoing f).1)
  revert hspec henabled
  generalize s.table.translateOutgoing f = r
  obtain ⟨answer, table'⟩ := r
  intro hspec henabled
  cases hspec with
  | refused => exact h
  | reused e he ha hf =>
    -- the mapping that is reused has its whole lifetime
    obtain ⟨hon, hns⟩ := henabled _ rfl
    have hfull := hok hon hns e he ha hf
    intro a hmem hactive
    show _ ≤ a.ttl + update s.idle f 0 a.flow
    by_cases hflow : a.flow = f
    · obtain rfl := hwf.flows.eq_of_mem hmem he hactive ha (hflow.trans hf.symm)
      have hproto : a.proto = f.proto := congrArg Flow.proto hflow
      rw [hproto]
      exact Nat.le_trans hfull (Nat.le_add_right _ _)
    · rw [update_of_ne hflow]
      exact h a hmem hactive
  | created port next slot free hport hnext hslot hfree hunused hnew =>
    refine h.set_renewed (e := entryFor f port) rfl fun a ha hactive => ?_
    rcases Slots.mem_set_cases ha with rfl | hold
    · exact .inl rfl
    · exact .inr ⟨hold, hnew a hold hactive⟩

theorem timed_incoming {s : Watched} (hwf : s.table.Wf) (h : Timed s.table.entries s.idle)
    (proto : NatProto) (natPort : Nat) (remoteIp : Ipv4Addr) (remotePort : Nat) :
    Timed (s.table.translateIncoming proto natPort remoteIp remotePort).2.entries
      (s.idleAfter (.incoming proto natPort remoteIp remotePort)) := by
  have hspec := s.table.translateIncoming_incoming proto natPort remoteIp remotePort
  show Timed _ (packet s.idle (fun m => replyFlow m proto remoteIp remotePort)
    (s.table.translateIncoming proto natPort remoteIp remotePort).1)
  revert hspec
  generalize s.table.translateIncoming proto natPort remoteIp remotePort = r
  obtain ⟨answer, table'⟩ := r
  intro hspec
  cases hspec with
  | dropped => exact h
  | answered idx e _ hidx ha hkey hip hport =>
    cases hkey
    subst hip hport
    have hflows : Slots.Unique NatEntry.Active NatEntry.flow
        (s.table.entries.set idx { e with ttl := e.proto.timeoutSecs }) :=
      hwf.flows.set_of_same hidx (fun _ => ha) rfl
    have hnew := List.mem_set (List.getElem?_eq_some_iff.1 hidx).1 { e with ttl := e.proto.timeoutSecs }
    refine h.set_renewed (e := { e with ttl := e.proto.timeoutSecs }) rfl fun a hmem hactive => ?_
    -- a live entry with the flow of the renewed one is the renewed one
    by_cases hflow : a.flow = e.flow
    · exact .inl (hflows.eq_of_mem hmem hnew hactive ha hflow)
    · rcases Slots.mem_set_cases hmem with rfl | hold
      · exact .inl rfl
      · exact .inr ⟨hold, hflow⟩

theorem timed_map {entries : List NatEntry} {idle idle' : Flow → Nat} (h : Timed entries idle)
    {pass : NatEntry → NatEntry} (hpass : NatEntry.Fades pass)
    (hkeep : ∀ e, (pass e).Active → e.ttl + idle e.flow ≤ (pass e).ttl + idle' e.flow) :
    Timed (entries.map pass) idle' := by
  intro a ha hactive
  obtain ⟨e, he, rfl⟩ := List.mem_map.1 ha
  obtain ⟨hlive, hflow, -⟩ := hpass e hactive
  have hproto : (pass e).proto = e.proto := congrArg Flow.proto hflow
  rw [hproto, hflow]
  exact Nat.le_trans (h e he hlive) (hkeep e hactive)

/-- The invariant of the watched table. -/
structure Kept (s : Watched) : Prop where
  wf : s.table.Wf
  timed : Timed s.table.entries s.idle

theorem Kept.step {s s' : Watched} {a : Action} (h : s.Kept) (hok : s.Unaged a)
    (hs : s.step a = some s') : s'.Kept := by
  cases hs
  refine ⟨wf_step (a := a) h.wf rfl, ?_⟩
  cases a with
  | enable => exact h.timed
  | disable => exact h.timed
  | outgoing f => exact timed_outgoing h.wf h.timed hok
  | incoming proto natPort remoteIp remotePort =>
    exact timed_incoming h.wf h.timed proto natPort remoteIp remotePort
  | tick =>
    show Timed s.table.tick.entries fun f => s.idle f + 1
    rcases s.table.tick_eq with heq | heq
    · rw [heq]
      intro e he hactive
      exact Nat.le_trans (h.timed e he hactive) (Nat.le_succ _)
    · rw [heq]
      refine timed_map h.timed NatEntry.tick_fades fun e hactive => ?_
      -- what the lifetime loses the idle time gains
      unfold NatEntry.tick at hactive ⊢
      split at hactive
      · split at hactive
        · cases hactive
        · next hlive httl =>
          rw [if_pos hlive, if_neg httl]
          show e.ttl + s.idle e.flow ≤ e.ttl - 1 + (s.idle e.flow + 1)
          omega
      · next hdead => exact absurd hactive hdead
  | flushNamespace nsId =>
    refine timed_map h.timed (NatEntry.flush_fades nsId) fun e hactive => ?_
    unfold NatEntry.flush at hactive ⊢
    split at hactive
    · cases hactive
    · next hkept =>
      rw [if_neg hkept]
      exact Nat.le_refl _

/-- Lifetime is left to a mapping in use. -/
theorem Kept.survives {s : Watched} (h : s.Kept) : s.Survives := by
  intro i e hi hactive hidle
  have htimed := h.timed e (List.mem_of_getElem? hi) hactive
  rcases s.table.tick_eq with heq | heq
  · exact ⟨e, by rw [heq]; exact hi, hactive⟩
  · refine ⟨e.tick, by rw [heq, List.getElem?_map, hi]; rfl, ?_⟩
    unfold NatEntry.tick
    rw [if_pos (show e.active = true from hactive), if_neg (by omega)]
    exact hactive

/-! ## A mapping that is reused late -/

/-- Ticks alone: the lifetime runs down, and the idle time up. -/
theorem run_ticks {i : Nat} (k : Nat) : ∀ (s : Watched) (e : NatEntry), s.table.enabled = true →
    s.table.entries[i]? = some e → e.Active → k ≤ e.ttl →
    ∃ s', run step s (List.replicate k .tick) = some s' ∧ s'.table.enabled = true ∧
      s'.table.entries[i]? = some { e with ttl := e.ttl - k } ∧ ∀ f, s'.idle f = s.idle f + k := by
  induction k with
  | zero =>
    intro s e hon hi _ _
    exact ⟨s, rfl, hon, hi, fun _ => rfl⟩
  | succ k ih =>
    intro s e hon hi hactive hk
    have htick : s.table.tick = { s.table with entries := s.table.entries.map NatEntry.tick } := by
      rw [NatTable.tick, if_neg (by simp [hon])]
    have hentry : e.tick = { e with ttl := e.ttl - 1 } := by
      rw [NatEntry.tick, if_pos (show e.active = true from hactive), if_neg (by omega)]
    have hnext : s.table.tick.entries[i]? = some { e with ttl := e.ttl - 1 } := by
      rw [htick, List.getElem?_map, hi, Option.map_some, hentry]
    have hon' : s.table.tick.enabled = true := by
      rw [htick]
      exact hon
    obtain ⟨s', hrun, hon'', hi', hidle⟩ := ih ⟨s.table.tick, fun f => s.idle f + 1⟩
      { e with ttl := e.ttl - 1 } hon' hnext hactive (show k ≤ e.ttl - 1 by omega)
    refine ⟨s', hrun, hon'', ?_, fun f => ?_⟩
    · rw [hi']
      show some { e with ttl := e.ttl - 1 - k } = _
      rw [Nat.sub_sub, Nat.add_comm 1 k]
    · rw [hidle f]
      show s.idle f + 1 + k = s.idle f + (k + 1)
      omega

/-- The reuse of a mapping answers its packet and changes nothing of the table. -/
theorem outgoing_reused {s : Watched} {f : Flow} {e : NatEntry} (hon : s.table.enabled = true)
    (hns : f.nsId ≠ rootNs) (he : e ∈ s.table.entries) (hactive : e.Active) (hf : e.flow = f) :
    s.step (.outgoing f) = some ⟨s.table, update s.idle f 0⟩ := by
  have hsome : (s.table.entries.find? fun e => e.carries f).isSome = true :=
    List.find?_isSome.2 ⟨e, he, (e.carries_iff f).2 ⟨hactive, hf⟩⟩
  obtain ⟨found, hfound⟩ := Option.isSome_iff_exists.1 hsome
  have hout : s.table.translateOutgoing f = (some found.natPort, s.table) := by
    rw [translateOutgoing, if_neg hns, hon]
    simp only [Bool.not_true, Bool.false_eq_true, if_false, hfound]
  show some (Watched.mk (s.table.translateOutgoing f).2
    (packet s.idle (fun _ => f) (s.table.translateOutgoing f).1)) = _
  rw [hout]
  rfl

/-- A mapping reused with some of its lifetime gone is ended while it is in use when only ticks follow. -/
theorem aged_reuse_ends {s : Watched} {a : Action} (ha : ¬ s.Unaged a) :
    ∃ as s', run step s (a :: as) = some s' ∧ ¬ s'.Survives := by
  obtain ⟨f, rfl⟩ : ∃ f, a = .outgoing f := by
    cases a with
    | outgoing f => exact ⟨f, rfl⟩
    | _ => exact absurd trivial ha
  obtain ⟨hon, hns, e, he, hactive, hf, hage⟩ : s.table.enabled = true ∧ f.nsId ≠ rootNs ∧
      ∃ e ∈ s.table.entries, e.Active ∧ e.flow = f ∧ e.ttl < f.proto.timeoutSecs := by
    simpa [Unaged] using ha
  obtain ⟨i, hi⟩ := List.mem_iff_getElem?.1 he
  obtain ⟨s', hrun, hon', hi', hidle⟩ := run_ticks e.ttl ⟨s.table, update s.idle f 0⟩ e hon hi
    hactive (Nat.le_refl _)
  refine ⟨List.replicate e.ttl .tick, s', ?_, fun hsurvives => ?_⟩
  · rw [run_cons, outgoing_reused hon hns he hactive hf]
    exact hrun
  · rw [Nat.sub_self] at hi'
    have hlow : s'.idle f < f.proto.timeoutSecs := by
      rw [hidle f]
      show update s.idle f 0 f + e.ttl < _
      rw [update_self]
      omega
    subst hf
    obtain ⟨e', he', hactive'⟩ := hsurvives i _ hi' hactive hlow
    -- the next tick ends it
    rw [NatTable.tick, if_neg (by simp [hon'])] at he'
    simp only [List.getElem?_map, hi', Option.map_some, Option.some.injEq] at he'
    rw [← he', NatEntry.tick, if_pos (show e.active = true from hactive), if_pos rfl] at hactive'
    cases hactive'

/-- In every run from boot in which no mapping with some of its lifetime gone is reused, no tick ends a
mapping that translated a packet less than its timeout ago; and wherever one is reused, the run can go on
to a tick that does. -/
theorem mapping_in_use_survives {s : Watched} (h : ReachBy step Unaged Boot s) :
    s.Survives ∧ ∀ a, ¬ s.Unaged a → ∃ as s', run step s (a :: as) = some s' ∧ ¬ s'.Survives := by
  have hkept : s.Kept := by
    refine h.invariant ?_ fun _ _ _ hs hok hstep => hs.step hok hstep
    intro s hboot
    have hfree : ∀ e ∈ s.table.entries, ¬ e.Active := by
      intro e he
      rw [hboot] at he
      rw [List.eq_of_mem_replicate he]
      exact Bool.false_ne_true
    refine ⟨?_, fun e he hactive => absurd hactive (hfree e he)⟩
    rw [hboot]
    exact wf_new
  exact ⟨hkept.survives, fun _ ha => aged_reuse_ends ha⟩

/-- The table at boot, with every flow idle for no tick. -/
def boot : Watched := ⟨NatTable.new, fun _ => 0⟩

/-- A packet of a container in namespace 42, over UDP. -/
def queryFlow : Flow := { containerFlow with proto := .udp }

/-- The table after the container's first packet. -/
def afterQuery : Watched :=
  ⟨(NatTable.new.enable.translateOutgoing queryFlow).2, packet boot.idle (fun _ => queryFlow) (some 32768)⟩

theorem mapping_in_use_survives_query :
    ∃ e', afterQuery.table.tick.entries[0]? = some e' ∧ e'.Active := by
  have henabled : ReachBy step Unaged Boot ⟨NatTable.new.enable, boot.idle⟩ :=
    .next (a := .enable) (.start (s := boot) rfl) trivial rfl
  have hfree : ∀ e ∈ NatTable.new.entries, ¬ e.Active := by
    intro e he
    rw [List.eq_of_mem_replicate he]
    exact Bool.false_ne_true
  have hquery : ReachBy step Unaged Boot afterQuery := by
    refine .next (a := .outgoing queryFlow) henabled (fun _ _ e he hactive => absurd hactive (hfree e he)) ?_
    have hout : (NatTable.new.enable.translateOutgoing queryFlow).1 = some 32768 := by decide +kernel
    show some (Watched.mk (NatTable.new.enable.translateOutgoing queryFlow).2
      (packet boot.idle (fun _ => queryFlow) (NatTable.new.enable.translateOutgoing queryFlow).1)) = some afterQuery
    rw [hout, afterQuery]
  exact (mapping_in_use_survives hquery).1 0 (entryFor queryFlow 32768) (by decide +kernel) rfl
    (by decide +kernel)

/-- A packet, thirty ticks, and a second packet of the same flow. -/
def lateQuery : List Action :=
  [.enable, .outgoing queryFlow] ++ List.replicate 30 .tick ++ [.outgoing queryFlow]

/-- The second packet is translated, and the tick after it ends the mapping. -/
theorem reused_mapping_ends : ∃ s, Reach step Boot s ∧ ¬ s.Survives := by
  obtain ⟨s, hs⟩ : ∃ s, run step boot lateQuery = some s := ⟨_, rfl⟩
  refine ⟨s, Reach.of_run (.start (s := boot) rfl) hs, fun hsurvives => ?_⟩
  have hlast : (run step boot lateQuery).all (fun s =>
      s.table.entries[0]? = some { entryFor queryFlow 32768 with ttl := 0 } ∧ s.idle queryFlow = 0 ∧
      s.table.tick.entries[0]? = some { entryFor queryFlow 32768 with ttl := 0, active := false }) = true := by
    decide +kernel
  simp only [hs, Option.all_some, decide_eq_true_eq] at hlast
  obtain ⟨hentry, hidle, htick⟩ := hlast
  obtain ⟨e', he', hactive⟩ := hsurvives 0 _ hentry rfl (by
    show s.idle queryFlow < 30
    omega)
  rw [htick] at he'
  cases he'
  exact Bool.false_ne_true hactive

end Watched

end SlateOS.Net
