/-
# SlateOS.Net.FragRuns -- a datagram comes out when its last missing piece goes in

Runs of a reassembly table: fragments of any keys in any order, and expiry passes. `Collected` keeps beside
the table the pieces of one key's datagram that have arrived since it was last returned, and the key's
context knows exactly those. Other keys' fragments may carry anything.
-/
import SlateOS.Foundation.Runs
import SlateOS.Net.FragPieces
import SlateOS.Net.FragTable

namespace SlateOS.Net

open Foundation Foundation.Runs

/-- What can happen to a table. -/
inductive FragEvent (κ ν : Type)
  | fragment (f : Fragment κ ν)
  | tickExpire (nowNs : Nat)

/-- The piece a fragment carries. -/
def Fragment.piece {κ ν : Type} (f : Fragment κ ν) : Piece := ⟨f.offsetUnits, f.moreFragments, f.data⟩

/-- The bounds of an address family. -/
structure FragLimits where
  maxPayload : Nat
  timeoutNs : Nat
  representable : maxPayload < 2 ^ 64

/-- IPv4. -/
def limitsV4 : FragLimits := ⟨maxPayloadV4, reassemblyTimeoutV4Ns, by decide⟩

/-- IPv6. -/
def limitsV6 : FragLimits := ⟨maxPayloadV6, reassemblyTimeoutV6Ns, by decide⟩

/-- A table, and the pieces that have arrived for one key since it last had a datagram returned. -/
structure Collected (κ ν : Type) where
  table : FragTable κ ν
  arrived : List Piece

namespace FragTable

variable {κ ν : Type} [DecidableEq κ]

def step (limits : FragLimits) (table : FragTable κ ν) : FragEvent κ ν → Option (FragTable κ ν)
  | .fragment f => some (table.addFragment limits.maxPayload f).2
  | .tickExpire nowNs => some (table.tickExpire limits.timeoutNs nowNs)

theorem valid_of_reach {limits : FragLimits} {start table : FragTable κ ν} (hstart : Valid start)
    (h : Reach (step limits) (· = start) table) : Valid table := by
  refine h.invariant ?_ fun t ev t' ht _ hs => ?_
  · rintro t rfl
    exact hstart
  · cases ev with
    | fragment f =>
      cases hs
      exact valid_addFragment ht
    | tickExpire nowNs =>
      cases hs
      exact (tickExpire_spec _ _ ht).1

end FragTable

namespace Collected

open FragTable FragContext

variable {κ ν : Type} {limits : FragLimits} {note : ν} {payload : List UInt8} {f : Fragment κ ν}

/-! ## One context -/

/-- A piece goes into the key's context: the last missing one brings the payload out. -/
theorem receive_of_piece {context : Option (FragContext κ ν)} {arrived : List Piece}
    (hp : f.piece.Of payload) (hmax : payload.length ≤ limits.maxPayload)
    (htracks : Tracks (context.getD (fresh f)) payload arrived)
    (hnote : (context.getD (fresh f)).note = note) :
    ((∀ i < payload.length, ∃ p ∈ f.piece :: arrived, p.Covers i) ∧
      receive limits.maxPayload context f = (some (note, payload), none)) ∨
    ((¬∀ i < payload.length, ∃ p ∈ f.piece :: arrived, p.Covers i) ∧
      ∃ e, receive limits.maxPayload context f = (none, some e) ∧
        Tracks e payload (f.piece :: arrived) ∧ e.note = note) := by
  generalize hbase : context.getD (fresh f) = base at htracks hnote
  have hpos : 0 < payload.length :=
    Nat.lt_of_lt_of_le (Nat.lt_of_le_of_lt (Nat.zero_le _) hp.lt_stop) hp.inside
  have hadd : base.addFragment limits.maxPayload (f.offsetUnits * fragBlockSize) f.data
      f.moreFragments = ((base.withPiece f.piece).isComplete, base.withPiece f.piece) :=
    addFragment_of_piece hp hmax limits.representable
  have hnew : Tracks (base.withPiece f.piece) payload (f.piece :: arrived) := htracks.add hp
  have hnote' : (base.withPiece f.piece).note = note := hnote
  have hreceive : receive limits.maxPayload context f =
      if (base.withPiece f.piece).isComplete then
        (some ((base.withPiece f.piece).note, (base.withPiece f.piece).buffer.take
          ((base.withPiece f.piece).totalLen.getD (base.withPiece f.piece).buffer.length)), none)
      else if (base.withPiece f.piece).buffer = [] then (none, none)
      else (none, some (base.withPiece f.piece)) := by
    unfold receive
    rw [hbase, hadd]
  rw [hreceive]
  cases hcomplete : (base.withPiece f.piece).isComplete with
  | true =>
    refine Or.inl ⟨(hnew.isComplete_iff hpos).1 hcomplete, ?_⟩
    rw [if_pos rfl, hnew.payload_eq hpos hcomplete, hnote']
  | false =>
    right
    refine ⟨fun hall => ?_, base.withPiece f.piece, ?_, hnew, hnote'⟩
    · have hc := (hnew.isComplete_iff hpos).2 hall
      rw [hcomplete] at hc
      cases hc
    · -- what has been written is not empty
      have hbuffer : (base.withPiece f.piece).buffer ≠ [] := by
        intro hnil
        have hlen : (base.withPiece f.piece).buffer.length = 0 := by rw [hnil]; rfl
        have hwrite : (base.withPiece f.piece).buffer.length =
            max base.buffer.length (f.piece.start + f.piece.data.length) :=
          GrowingBuffer.length_write _ _ _ _
        have hlt : f.piece.start < f.piece.start + f.piece.data.length := hp.lt_stop
        omega
      rw [if_neg Bool.false_ne_true, if_neg hbuffer]

/-! ## Runs -/

variable [DecidableEq κ] {k : κ} {pieces : List Piece} {c c' : Collected κ ν}

/-- The table moves; a fragment of the key is noted down, and a returned datagram ends the note. -/
def step (limits : FragLimits) (k : κ) (c : Collected κ ν) : FragEvent κ ν → Option (Collected κ ν)
  | .fragment f =>
    let r := c.table.addFragment limits.maxPayload f
    some ⟨r.2, if f.key = k then (if r.1.isSome then [] else f.piece :: c.arrived) else c.arrived⟩
  | .tickExpire nowNs => some ⟨c.table.tickExpire limits.timeoutNs nowNs, c.arrived⟩

/-- The key's fragments are the pieces, and there is room: a slot for every key that needs one, and time
for the context of this key. -/
def Orderly (limits : FragLimits) (k : κ) (note : ν) (pieces : List Piece) (c : Collected κ ν) :
    FragEvent κ ν → Prop
  | .fragment f =>
    (f.key = k → f.piece ∈ pieces ∧ f.note = note) ∧ Room c.table f.key
  | .tickExpire nowNs =>
    ∀ e, contextOf c.table k = some e → nowNs - e.createdNs < limits.timeoutNs

/-- A table in use since boot, with no context for the key yet. -/
def Init (limits : FragLimits) (boot : FragTable κ ν) (k : κ) (c : Collected κ ν) : Prop :=
  Reach (FragTable.step limits) (· = boot) c.table ∧ contextOf c.table k = none ∧ c.arrived = []

/-- The key's context has the pieces that have arrived. -/
structure Follows (k : κ) (note : ν) (payload : List UInt8) (pieces : List Piece)
    (c : Collected κ ν) : Prop where
  valid : Valid c.table
  subset : ∀ p ∈ c.arrived, p ∈ pieces
  absent : contextOf c.table k = none → c.arrived = []
  present : ∀ e, contextOf c.table k = some e → Tracks e payload c.arrived ∧ e.note = note

/-- The context a fragment of the key meets, opened for it if there was none. -/
theorem Follows.base (h : Follows k note payload pieces c) (hk : f.key = k) (hnote : f.note = note) :
    Tracks ((contextOf c.table f.key).getD (fresh f)) payload c.arrived ∧
      ((contextOf c.table f.key).getD (fresh f)).note = note := by
  rw [hk]
  cases hcontext : contextOf c.table k with
  | none =>
    rw [h.absent hcontext]
    exact ⟨Tracks.nil rfl rfl, hnote⟩
  | some e => exact h.present e hcontext

/-- What the table returns for the key's next piece. -/
theorem Follows.returned (hsplit : Split payload pieces) (hmax : payload.length ≤ limits.maxPayload)
    (h : Follows k note payload pieces c) (hk : f.key = k)
    (hok : Orderly limits k note pieces c (.fragment f)) :
    (c.table.addFragment limits.maxPayload f).1 =
      if ∀ p ∈ pieces, p ∈ f.piece :: c.arrived then some (note, payload) else none := by
  obtain ⟨hpiece, hnote⟩ := hok.1 hk
  obtain ⟨htracks, hbase⟩ := h.base hk hnote
  have hsubset : ∀ p ∈ f.piece :: c.arrived, p ∈ pieces := fun p hp =>
    (List.mem_cons.1 hp).elim (fun hpf => hpf ▸ hpiece) (h.subset p)
  rw [(addFragment_spec limits.maxPayload h.valid hok.2).1]
  rcases receive_of_piece (hsplit.of _ hpiece) hmax htracks hbase with
    ⟨hall, hr⟩ | ⟨hmissing, e, hr, -⟩
  · rw [hr, if_pos ((hsplit.covered_iff hsubset).1 hall)]
  · rw [hr, if_neg fun hall => hmissing ((hsplit.covered_iff hsubset).2 hall)]

theorem Follows.step (hsplit : Split payload pieces) (hmax : payload.length ≤ limits.maxPayload)
    (h : Follows k note payload pieces c) {ev : FragEvent κ ν}
    (hok : Orderly limits k note pieces c ev) (hs : c.step limits k ev = some c') :
    Follows k note payload pieces c' := by
  cases ev with
  | tickExpire nowNs =>
    cases hs
    obtain ⟨hvalid, hcontext⟩ := tickExpire_spec limits.timeoutNs nowNs h.valid
    refine ⟨hvalid, h.subset, fun hn => h.absent ?_, fun e he => h.present e ?_⟩
    · rw [← hcontext k hok]
      exact hn
    · rw [← hcontext k hok]
      exact he
  | fragment f =>
    cases hs
    have hvalid : Valid (c.table.addFragment limits.maxPayload f).2 := valid_addFragment h.valid
    obtain ⟨hout, hcontexts⟩ := addFragment_spec limits.maxPayload h.valid hok.2
    by_cases hk : f.key = k
    · obtain ⟨hpiece, hnote⟩ := hok.1 hk
      obtain ⟨htracks, hbase⟩ := h.base hk hnote
      have hcontext := hcontexts k
      rw [if_pos hk.symm] at hcontext
      have harrived : ∀ r : Option (ν × List UInt8) × Option (FragContext κ ν),
          receive limits.maxPayload (contextOf c.table f.key) f = r →
          (if f.key = k then
            (if (c.table.addFragment limits.maxPayload f).1.isSome then []
              else f.piece :: c.arrived) else c.arrived) =
            if r.1.isSome then [] else f.piece :: c.arrived := by
        intro r hr
        rw [if_pos hk, hout, hr]
      rcases receive_of_piece (hsplit.of _ hpiece) hmax htracks hbase with
        ⟨-, hr⟩ | ⟨-, e, hr, hnew, hnote'⟩
      · -- the datagram is out: the key has no context and no pieces
        rw [hr] at hcontext
        have hnil := harrived _ hr
        refine ⟨hvalid, fun p hp => ?_, fun _ => hnil, fun e he => ?_⟩
        · rw [show _ = _ from hnil] at hp
          cases hp
        · rw [show contextOf (c.table.addFragment limits.maxPayload f).2 k = none from hcontext] at he
          cases he
      · rw [hr] at hcontext
        have hcons := harrived _ hr
        refine ⟨hvalid, fun p hp => ?_, fun hn => ?_, fun e' he' => ?_⟩
        · rw [show _ = _ from hcons] at hp
          exact (List.mem_cons.1 hp).elim (fun hpf => hpf ▸ hpiece) (h.subset p)
        · rw [show contextOf (c.table.addFragment limits.maxPayload f).2 k = some e from hcontext] at hn
          cases hn
        · have hee : some e = some e' := hcontext.symm.trans he'
          cases hee
          rw [show _ = _ from hcons]
          exact ⟨hnew, hnote'⟩
    · -- another key's fragment leaves this context alone
      have hcontext := hcontexts k
      rw [if_neg (Ne.symm hk)] at hcontext
      refine ⟨hvalid, ?_, fun hn => ?_, fun e he => ?_⟩
      · show ∀ p ∈ (if f.key = k then _ else c.arrived), p ∈ pieces
        rw [if_neg hk]
        exact h.subset
      · show (if f.key = k then _ else c.arrived) = []
        rw [if_neg hk]
        exact h.absent (hcontext ▸ hn)
      · show Tracks e payload (if f.key = k then _ else c.arrived) ∧ _
        rw [if_neg hk]
        exact h.present e (hcontext ▸ he)

theorem Follows.of_reach {boot : FragTable κ ν} (hboot : Valid boot) (hsplit : Split payload pieces)
    (hmax : payload.length ≤ limits.maxPayload)
    (h : ReachBy (Collected.step limits k) (Orderly limits k note pieces) (Init limits boot k) c) :
    Follows k note payload pieces c := by
  refine h.invariant ?_ fun _ _ _ hc hok hs => hc.step hsplit hmax hok hs
  rintro c ⟨htable, hcontext, harrived⟩
  refine ⟨valid_of_reach hboot htable, ?_, fun _ => harrived, fun e he => ?_⟩
  · rw [harrived]
    exact fun p hp => absurd hp List.not_mem_nil
  · rw [hcontext] at he
    cases he

end Collected

/-! ## The two families -/

open FragTable Collected

theorem valid_fragEntries : Valid fragEntries := valid_replicate rfl ⟨rfl, rfl, rfl⟩ _

theorem valid_fragEntriesV6 : Valid fragEntriesV6 := valid_replicate rfl ⟨rfl, rfl, rfl⟩ _

/-- **Reassembly.** For every payload and every split of it into pieces, in every run that brings the
pieces in any order and any number of times among fragments of other keys: a piece returns the datagram,
with the payload as it was, exactly when every other piece has come since the datagram was last returned.
And a fragment changes no other key's context. The key is the addresses, the identification and, for
IPv4, the protocol. -/
theorem returned_with_the_last_piece :
    (∀ (src dst : Ipv4Addr) (identification protocol : Nat) (payload : List UInt8)
      (pieces : List Piece) (c : Collected FragKey Unit) (p : Piece) (nowNs : Nat),
      Split payload pieces → payload.length ≤ maxPayloadV4 →
      ReachBy (Collected.step limitsV4 ⟨src, dst, identification, protocol⟩)
        (Orderly limitsV4 ⟨src, dst, identification, protocol⟩ () pieces)
        (Init limitsV4 fragEntries ⟨src, dst, identification, protocol⟩) c →
      p ∈ pieces → Room c.table ⟨src, dst, identification, protocol⟩ →
      (addFragment c.table src dst identification protocol p.offsetUnits p.moreFragments p.data
        nowNs).1 =
        if ∀ q ∈ pieces, q ∈ p :: c.arrived then some ⟨src, dst, protocol, payload⟩ else none) ∧
    (∀ (src dst : Ipv6Addr) (identification upperProtocol : Nat) (payload : List UInt8)
      (pieces : List Piece) (c : Collected FragKeyV6 Nat) (p : Piece) (nowNs : Nat),
      Split payload pieces → payload.length ≤ maxPayloadV6 →
      ReachBy (Collected.step limitsV6 ⟨src, dst, identification⟩)
        (Orderly limitsV6 ⟨src, dst, identification⟩ upperProtocol pieces)
        (Init limitsV6 fragEntriesV6 ⟨src, dst, identification⟩) c →
      p ∈ pieces → Room c.table ⟨src, dst, identification⟩ →
      (addFragmentV6 c.table src dst identification upperProtocol p.offsetUnits p.moreFragments p.data
        nowNs).1 =
        if ∀ q ∈ pieces, q ∈ p :: c.arrived then some ⟨src, dst, upperProtocol, payload⟩ else none) ∧
    (∀ (table : FragTable FragKey Unit) (f : Fragment FragKey Unit) (k : FragKey),
      Reach (FragTable.step limitsV4) (· = fragEntries) table → Room table f.key → k ≠ f.key →
      contextOf (table.addFragment maxPayloadV4 f).2 k = contextOf table k) ∧
    (∀ (table : FragTable FragKeyV6 Nat) (f : Fragment FragKeyV6 Nat) (k : FragKeyV6),
      Reach (FragTable.step limitsV6) (· = fragEntriesV6) table → Room table f.key → k ≠ f.key →
      contextOf (table.addFragment maxPayloadV6 f).2 k = contextOf table k) := by
  refine ⟨?_, ?_, ?_, ?_⟩
  · intro src dst identification protocol payload pieces c p nowNs hsplit hmax hreach hp hroom
    let f : Fragment FragKey Unit := ⟨⟨src, dst, identification, protocol⟩, (), p.offsetUnits,
      p.moreFragments, p.data, nowNs⟩
    have hlimit : payload.length ≤ limitsV4.maxPayload := hmax
    have hfollows := Follows.of_reach valid_fragEntries hsplit hlimit hreach
    have hreturned := hfollows.returned hsplit hlimit (f := f) rfl ⟨fun _ => ⟨hp, rfl⟩, hroom⟩
    have hcall : (addFragment c.table src dst identification protocol p.offsetUnits p.moreFragments
        p.data nowNs).1 = (c.table.addFragment limitsV4.maxPayload f).1.map
          fun r => ⟨src, dst, protocol, r.2⟩ := rfl
    rw [hcall, hreturned, apply_ite (Option.map _)]
    rfl
  · intro src dst identification upperProtocol payload pieces c p nowNs hsplit hmax hreach hp hroom
    let f : Fragment FragKeyV6 Nat := ⟨⟨src, dst, identification⟩, upperProtocol, p.offsetUnits,
      p.moreFragments, p.data, nowNs⟩
    have hlimit : payload.length ≤ limitsV6.maxPayload := hmax
    have hfollows := Follows.of_reach valid_fragEntriesV6 hsplit hlimit hreach
    have hreturned := hfollows.returned hsplit hlimit (f := f) rfl ⟨fun _ => ⟨hp, rfl⟩, hroom⟩
    have hcall : (addFragmentV6 c.table src dst identification upperProtocol p.offsetUnits
        p.moreFragments p.data nowNs).1 = (c.table.addFragment limitsV6.maxPayload f).1.map
          fun r => ⟨src, dst, r.1, r.2⟩ := rfl
    rw [hcall, hreturned, apply_ite (Option.map _)]
    rfl
  · intro table f k hreach hroom hk
    rw [(addFragment_spec _ (valid_of_reach valid_fragEntries hreach) hroom).2 k, if_neg hk]
  · intro table f k hreach hroom hk
    rw [(addFragment_spec _ (valid_of_reach valid_fragEntriesV6 hreach) hroom).2 k, if_neg hk]

/-! ### Two runs -/

/-- 192.0.2.1 and 192.0.2.2. -/
def hostA : Ipv4Addr := #v[192, 0, 2, 1]

def hostB : Ipv4Addr := #v[192, 0, 2, 2]

/-- Twenty bytes, sent in pieces of one block. -/
def twenty : List UInt8 := [1, 2, 3, 4, 5, 6, 7, 8, 9, 10, 11, 12, 13, 14, 15, 16, 17, 18, 19, 20]

/-- A fragment of the datagram with identification 7 from `hostA` to `hostB`. -/
def sent (protocol : Nat) (p : Piece) : FragEvent FragKey Unit :=
  .fragment ⟨⟨hostA, hostB, 7, protocol⟩, (), p.offsetUnits, p.moreFragments, p.data, 0⟩

/-- The last piece, a fragment of another protocol, the first piece, and the last again. -/
def outOfOrder : List (FragEvent FragKey Unit) :=
  [sent 17 (Piece.cut twenty 2 4), sent 6 ⟨0, true, [0, 0, 0, 0, 0, 0, 0, 0]⟩,
    sent 17 (Piece.cut twenty 0 8), sent 17 (Piece.cut twenty 2 4)]

/-- `Orderly` for the datagram of protocol 17, read off the table. -/
def orderly (c : Collected FragKey Unit) : FragEvent FragKey Unit → Bool
  | .fragment f =>
    (decide (f.key ≠ ⟨hostA, hostB, 7, 17⟩) || decide (f.piece ∈ Piece.cutAll twenty 1)) &&
      c.table.any fun e => !e.active
  | .tickExpire _ => false

theorem room_of_any {κ ν : Type} [DecidableEq κ] {table : FragTable κ ν} {k : κ}
    (h : table.any (fun e => !e.active) = true) : Room table k := by
  intro _
  obtain ⟨e, he, hdead⟩ := List.any_eq_true.1 h
  exact ⟨e, he, by simpa using hdead⟩

theorem orderly_of_check (c : Collected FragKey Unit) (ev : FragEvent FragKey Unit)
    (h : orderly c ev = true) :
    Orderly limitsV4 ⟨hostA, hostB, 7, 17⟩ () (Piece.cutAll twenty 1) c ev := by
  cases ev with
  | fragment f =>
    rw [orderly, Bool.and_eq_true, Bool.or_eq_true, decide_eq_true_eq, decide_eq_true_eq] at h
    exact ⟨fun hk => ⟨h.1.resolve_left fun hne => hne hk, rfl⟩, room_of_any h.2⟩
  | tickExpire nowNs => cases h

theorem returned_with_the_last_piece_out_of_order :
    ∃ c : Collected FragKey Unit,
      c.arrived = [Piece.cut twenty 2 4, Piece.cut twenty 0 8, Piece.cut twenty 2 4] ∧
      (addFragment c.table hostA hostB 7 17 1 true [9, 10, 11, 12, 13, 14, 15, 16] 0).1 =
        some ⟨hostA, hostB, 17, twenty⟩ := by
  have hsome : (run (Collected.step limitsV4 ⟨hostA, hostB, 7, 17⟩) ⟨fragEntries, []⟩
      outOfOrder).isSome = true := by decide +kernel
  obtain ⟨c, hc⟩ := Option.isSome_iff_exists.1 hsome
  have hread : (run (Collected.step limitsV4 ⟨hostA, hostB, 7, 17⟩) ⟨fragEntries, []⟩ outOfOrder).map
      (fun c => (c.arrived, c.table.any fun e => !e.active)) =
        some ([Piece.cut twenty 2 4, Piece.cut twenty 0 8, Piece.cut twenty 2 4], true) := by
    decide +kernel
  rw [hc, Option.map_some, Option.some.injEq, Prod.mk.injEq] at hread
  have hinit : Init limitsV4 fragEntries ⟨hostA, hostB, 7, 17⟩ ⟨fragEntries, []⟩ :=
    ⟨.start rfl, by decide +kernel, rfl⟩
  have halong : Along (Collected.step limitsV4 ⟨hostA, hostB, 7, 17⟩)
      (Orderly limitsV4 ⟨hostA, hostB, 7, 17⟩ () (Piece.cutAll twenty 1)) ⟨fragEntries, []⟩
      outOfOrder := Along.of_check orderly_of_check (by decide +kernel)
  have hreach := (ReachBy.start hinit).of_run hc halong
  have hmain := returned_with_the_last_piece.1 hostA hostB 7 17 twenty (Piece.cutAll twenty 1) c
    (Piece.cut twenty 1 8) 0 (Split.cutAll twenty (by decide)) (by decide) hreach (by decide +kernel)
    (room_of_any hread.2)
  refine ⟨c, hread.1, hmain.trans (if_pos ?_)⟩
  rw [hread.1]
  decide +kernel

/-- The first half of a UDP datagram and the second half of a TCP one, of one identification, come out as a
UDP datagram. -/
theorem ipv6_fragments_of_two_protocols_mix :
    (addFragmentV6 (addFragmentV6 fragEntriesV6 ipv6Unspecified ipv6Unspecified 1 17 0 true
        [1, 1, 1, 1, 1, 1, 1, 1] 0).2 ipv6Unspecified ipv6Unspecified 1 6 1 false
        [2, 2, 2, 2, 2, 2, 2, 2] 0).1 =
      some ⟨ipv6Unspecified, ipv6Unspecified, 17, [1, 1, 1, 1, 1, 1, 1, 1, 2, 2, 2, 2, 2, 2, 2, 2]⟩ := by
  decide +kernel

end SlateOS.Net
