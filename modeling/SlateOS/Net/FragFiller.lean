/-
# SlateOS.Net.FragFiller -- which bytes of a reassembled payload no fragment supplied

Fragments of any lengths, offsets and flags, in any runs. The bitmap marks a block as soon as a fragment
touches it, so a fragment that ends inside a block leaves the rest of the block to the zeros the buffer grew
by. A payload is free of them exactly when every such rest below the total length came in another fragment.
`Gathering` keeps beside a table the pieces that its context of one key has taken.
-/
import SlateOS.Net.FragRuns

namespace SlateOS.Net

open Foundation Foundation.Runs

variable {κ ν : Type}

/-! ## Pieces that can be anything -/

/-- The length that the last piece without MF gives; the newest piece comes first. -/
def totalOf (pieces : List Piece) : Option Nat := (pieces.find? fun p => !p.moreFragments).map Piece.stop

/-- Every byte of the payload came in one of the pieces, at its own offset. -/
def Supplied (pieces : List Piece) (payload : List UInt8) : Prop :=
  ∀ i < payload.length, ∃ p ∈ pieces, p.Covers i ∧ p.data[i - p.start]? = payload[i]?

/-- A piece that ends inside a block, below the total length, leaves no gap: another one has the last byte of
that block, as far as the datagram goes. -/
def NoGap (pieces : List Piece) : Prop :=
  ∀ total ∈ totalOf pieces, ∀ p ∈ pieces, p.stop % fragBlockSize ≠ 0 → p.stop < total →
    ∃ q ∈ pieces, q.Covers (min (fragBlockSize * (p.stop / fragBlockSize + 1)) total - 1)

instance (pieces : List Piece) (payload : List UInt8) : Decidable (Supplied pieces payload) :=
  inferInstanceAs (Decidable (∀ i < payload.length, ∃ p ∈ pieces, _ ∧ _))

instance (pieces : List Piece) : Decidable (NoGap pieces) :=
  inferInstanceAs (Decidable (∀ total ∈ totalOf pieces, ∀ p ∈ pieces, _ → _ → ∃ q ∈ pieces, _))

variable {pieces : List Piece} {p : Piece} {total i : Nat}

/-- Pieces start at block boundaries, so one that has a byte has the bytes of its block before it. -/
theorem Piece.Covers.of_block {j : Nat} (h : p.Covers j) (hle : i ≤ j) (hblock : i / fragBlockSize = j / fragBlockSize) :
    p.Covers i := by
  have hstart : p.start = p.offsetUnits * 8 := rfl
  have hsize : fragBlockSize = 8 := rfl
  rw [hsize] at hblock
  have h1 := h.1
  have h2 := h.2
  exact ⟨by omega, by omega⟩

/-- **When every block was touched, every byte is there exactly when no gap was left.** -/
theorem covered_iff_noGap (htotal : totalOf pieces = some total)
    (htouched : ∀ b < divCeil total fragBlockSize, ∃ p ∈ pieces, p.Covers (fragBlockSize * b)) :
    (∀ i < total, ∃ p ∈ pieces, p.Covers i) ↔ NoGap pieces := by
  constructor
  · intro hall t ht p _ _ hlt
    obtain rfl : total = t := Option.some.inj (htotal.symm.trans ht)
    exact hall _ (by omega)
  · intro hgap i hi
    -- the first byte of the block of `i` is there
    have hblock : i / 8 < divCeil total fragBlockSize := by
      show i / 8 < (total + 8 - 1) / 8
      omega
    obtain ⟨p, hp, hcover⟩ : ∃ p ∈ pieces, p.Covers (8 * (i / 8)) := htouched _ hblock
    have hstart := hcover.1
    have hstop := hcover.2
    by_cases hin : i < p.stop
    · exact ⟨p, hp, by omega, hin⟩
    · have hinside : p.stop % 8 ≠ 0 := by omega
      obtain ⟨q, hq, hlast⟩ : ∃ q ∈ pieces, q.Covers (min (8 * (p.stop / 8 + 1)) total - 1) :=
        hgap total htotal p hp hinside (by omega)
      refine ⟨q, hq, hlast.of_block (by omega) ?_⟩
      show i / 8 = (min (8 * (p.stop / 8 + 1)) total - 1) / 8
      omega

/-! ## What a context knows of any pieces -/

/-- The context was given these pieces, the newest first, and has put them over each other on zeros. -/
structure Holds (e : FragContext κ ν) (pieces : List Piece) : Prop where
  touched : ∀ b, GrowingBuffer.has e.received b = true ↔ ∃ p ∈ pieces, p.Covers (fragBlockSize * b)
  total : e.totalLen = totalOf pieces
  within : ∀ p ∈ pieces, p.stop ≤ e.buffer.length
  bytes : ∀ i, (∃ p ∈ pieces, p.Covers i) → ∃ p ∈ pieces, p.Covers i ∧ p.data[i - p.start]? = e.buffer[i]?
  filled : pieces ≠ [] → e.buffer ≠ []

variable {e : FragContext κ ν}

theorem Holds.nil (hreceived : e.received = []) (htotal : e.totalLen = none) : Holds e [] where
  touched b := by simp [hreceived, GrowingBuffer.has_nil]
  total := htotal
  within := by simp
  bytes := by simp
  filled := fun h => absurd rfl h

theorem length_withPiece (e : FragContext κ ν) (p : Piece) :
    (e.withPiece p).buffer.length = max e.buffer.length p.stop := GrowingBuffer.length_write _ _ _ _

theorem totalOf_cons (p : Piece) (pieces : List Piece) :
    totalOf (p :: pieces) = if p.moreFragments then totalOf pieces else some p.stop := by
  unfold totalOf
  rw [List.find?_cons]
  cases p.moreFragments <;> rfl

/-- One more piece goes over the others. -/
theorem Holds.add (h : Holds e pieces) (hp : p.data ≠ []) : Holds (e.withPiece p) (p :: pieces) where
  touched b := by
    rw [has_withPiece, Bool.or_eq_true, h.touched b, decide_eq_true_eq, List.exists_mem_cons_iff]
    exact or_comm
  total := by
    rw [totalOf_cons, ← h.total]
    rfl
  within q hq := by
    rw [length_withPiece]
    obtain rfl | hq := List.mem_cons.1 hq
    · exact le_max_right _ _
    · exact (h.within q hq).trans (le_max_left _ _)
  bytes i hi := by
    by_cases hpi : p.Covers i
    · exact ⟨p, List.mem_cons_self, hpi, (GrowingBuffer.getElem?_write_of_mem hpi.1 hpi.2).symm⟩
    · -- the byte stays the one that an older piece wrote
      have hold : ∃ q ∈ pieces, q.Covers i := by
        obtain ⟨q, hq, hqi⟩ := hi
        obtain rfl | hq := List.mem_cons.1 hq
        · exact absurd hqi hpi
        · exact ⟨q, hq, hqi⟩
      obtain ⟨q, hq, hqi, hbyte⟩ := h.bytes i hold
      refine ⟨q, List.mem_cons_of_mem _ hq, hqi, hbyte.trans (Eq.symm ?_)⟩
      refine GrowingBuffer.getElem?_write_of_notMem (hqi.2.trans_le (h.within q hq)) ?_
      unfold Piece.Covers Piece.stop at hpi
      omega
  filled _ := by
    have hlen := length_withPiece e p
    have hpos := List.length_pos_iff.2 hp
    have hstop : p.stop = p.start + p.data.length := rfl
    refine List.length_pos_iff.1 ?_
    omega

/-- A complete context has touched every block up to its total length. -/
theorem Holds.touched_of_isComplete (h : Holds e pieces) (hc : e.isComplete = true) :
    ∃ total, totalOf pieces = some total ∧
      ∀ b < divCeil total fragBlockSize, ∃ p ∈ pieces, p.Covers (fragBlockSize * b) := by
  unfold FragContext.isComplete at hc
  rw [h.total] at hc
  cases htotal : totalOf pieces with
  | none =>
    rw [htotal] at hc
    cases hc
  | some total =>
    rw [htotal] at hc
    refine ⟨total, rfl, fun b hb => ?_⟩
    dsimp only at hc
    split at hc
    · next hzero =>
        rw [hzero] at hb
        exact absurd hb (Nat.not_lt_zero b)
    · exact (h.touched b).1 (GrowingBuffer.prefixFull_iff.1 hc b hb)

/-- **What a complete context hands out was supplied exactly when no gap was left.** -/
theorem Holds.supplied_iff (h : Holds e pieces) (hc : e.isComplete = true) :
    Supplied pieces (e.buffer.take (e.totalLen.getD e.buffer.length)) ↔ NoGap pieces := by
  obtain ⟨total, htotal, htouched⟩ := h.touched_of_isComplete hc
  rw [← covered_iff_noGap htotal htouched, h.total, htotal, Option.getD_some]
  have hfits : total ≤ e.buffer.length := by
    obtain ⟨p, hp, rfl⟩ := Option.map_eq_some_iff.1 htotal
    exact h.within p (List.mem_of_find?_eq_some hp)
  have hlen : (e.buffer.take total).length = total := by
    rw [List.length_take]
    omega
  unfold Supplied
  rw [hlen]
  refine forall₂_congr fun i hi => ?_
  rw [List.getElem?_take_of_lt hi]
  constructor
  · rintro ⟨p, hp, hcover, -⟩
    exact ⟨p, hp, hcover⟩
  · exact h.bytes i

/-! ## A fragment, and the context it meets -/

/-- `add_fragment` rejects neither the fragment's length nor its end. -/
def Fragment.Accepted (maxPayload : Nat) (f : Fragment κ ν) : Prop := f.data ≠ [] ∧ f.piece.stop ≤ maxPayload

instance (maxPayload : Nat) (f : Fragment κ ν) : Decidable (f.Accepted maxPayload) :=
  inferInstanceAs (Decidable (_ ∧ _))

open FragContext FragTable

variable {limits : FragLimits} {f : Fragment κ ν} {context : Option (FragContext κ ν)}

/-- `saturating_add` is exact below the largest word, and no bound of a family reaches that. -/
theorem saturatingAdd_le_iff {maxPayload a b : Nat} (h : maxPayload < MachineInt.maxVal 64) :
    MachineInt.saturatingAdd 64 a b ≤ maxPayload ↔ a + b ≤ maxPayload := by
  unfold MachineInt.saturatingAdd
  omega

theorem addFragment_of_accepted {maxPayload : Nat} (h64 : maxPayload < MachineInt.maxVal 64)
    (h : f.Accepted maxPayload) (e : FragContext κ ν) :
    e.addFragment maxPayload (f.offsetUnits * fragBlockSize) f.data f.moreFragments =
      ((e.withPiece f.piece).isComplete, e.withPiece f.piece) := by
  have hle : f.piece.stop ≤ maxPayload := h.2
  have hstop : MachineInt.saturatingAdd 64 (f.offsetUnits * fragBlockSize) f.data.length = f.piece.stop := by
    have hs : f.piece.stop = f.offsetUnits * fragBlockSize + f.data.length := rfl
    unfold MachineInt.saturatingAdd
    omega
  unfold FragContext.addFragment
  rw [if_neg h.1, hstop, if_neg (not_lt.2 hle)]
  rfl

theorem addFragment_of_not_accepted {maxPayload : Nat} (h64 : maxPayload < MachineInt.maxVal 64)
    (h : ¬ f.Accepted maxPayload) (e : FragContext κ ν) :
    e.addFragment maxPayload (f.offsetUnits * fragBlockSize) f.data f.moreFragments = (false, e) := by
  unfold FragContext.addFragment
  split
  · rfl
  next hdata =>
  have hover : ¬ MachineInt.saturatingAdd 64 (f.offsetUnits * fragBlockSize) f.data.length ≤ maxPayload :=
    fun hle => h ⟨hdata, (saturatingAdd_le_iff h64).1 hle⟩
  exact if_pos (not_le.1 hover)

/-- The context of a key has the pieces noted, and there is none while nothing is noted. -/
def Noted (context : Option (FragContext κ ν)) (pieces : List Piece) : Prop :=
  match context with
  | none => pieces = []
  | some e => Holds e pieces ∧ pieces ≠ []

theorem Noted.base (h : Noted context pieces) (f : Fragment κ ν) : Holds (context.getD (fresh f)) pieces := by
  cases context with
  | none =>
    obtain rfl : pieces = [] := h
    exact Holds.nil rfl rfl
  | some e => exact h.1

/-- What the key's context does with a fragment that is taken: it hands the payload out and is gone, or keeps the
piece. -/
theorem Noted.receive_of_accepted (h : Noted context pieces) (h64 : limits.maxPayload < MachineInt.maxVal 64)
    (hf : f.Accepted limits.maxPayload) :
    (∃ note payload, receive limits.maxPayload context f = (some (note, payload), none) ∧
      (Supplied (f.piece :: pieces) payload ↔ NoGap (f.piece :: pieces))) ∨
    ∃ e, receive limits.maxPayload context f = (none, some e) ∧ Noted (some e) (f.piece :: pieces) := by
  have hholds := (h.base f).add (p := f.piece) hf.1
  unfold receive
  rw [addFragment_of_accepted h64 hf]
  dsimp only
  split
  · next hcomplete => exact .inl ⟨_, _, rfl, hholds.supplied_iff hcomplete⟩
  · rw [if_neg (hholds.filled (List.cons_ne_nil _ _))]
    exact .inr ⟨_, rfl, hholds, List.cons_ne_nil _ _⟩

/-- And with one that is rejected: nothing. -/
theorem Noted.receive_of_not_accepted (h : Noted context pieces) (h64 : limits.maxPayload < MachineInt.maxVal 64)
    (hf : ¬ f.Accepted limits.maxPayload) : receive limits.maxPayload context f = (none, context) := by
  unfold receive
  rw [addFragment_of_not_accepted h64 hf]
  dsimp only
  rw [if_neg Bool.false_ne_true]
  cases context with
  | none => exact if_pos rfl
  | some e => exact if_neg (h.1.filled h.2)

/-! ## Runs -/

/-- A table, and the pieces its context of one key has taken, the newest first. -/
structure Gathering (κ ν : Type) where
  table : FragTable κ ν
  taken : List Piece

namespace Gathering

variable [DecidableEq κ] {k : κ} {g g' : Gathering κ ν}

/-- The note goes when the context does: returned, evicted or out of time. -/
def note (k : κ) (table : FragTable κ ν) (pieces : List Piece) : Gathering κ ν :=
  ⟨table, if (contextOf table k).isNone then [] else pieces⟩

def step (limits : FragLimits) (k : κ) (g : Gathering κ ν) : FragEvent κ ν → Option (Gathering κ ν)
  | .fragment f =>
    some (note k (g.table.addFragment limits.maxPayload f).2
      (if f.key = k ∧ f.Accepted limits.maxPayload then f.piece :: g.taken else g.taken))
  | .tickExpire nowNs => some (note k (g.table.tickExpire limits.timeoutNs nowNs) g.taken)

/-- The note is what the context holds. -/
structure Exact (k : κ) (g : Gathering κ ν) : Prop where
  valid : Valid g.table
  noted : Noted (contextOf g.table k) g.taken

theorem exact_note {table : FragTable κ ν} (hv : Valid table)
    (h : ∀ e, contextOf table k = some e → Noted (some e) pieces) : (note k table pieces).Exact k := by
  refine ⟨hv, ?_⟩
  show Noted (contextOf table k) (if (contextOf table k).isNone then [] else pieces)
  cases hcontext : contextOf table k with
  | none => rfl
  | some e => exact h e hcontext

/-- A context that was there before has what is noted. -/
theorem Exact.noted_of_before (h : g.Exact k) {e : FragContext κ ν} (he : contextOf g.table k = some e) :
    Noted (some e) g.taken := he ▸ h.noted

theorem Exact.step (h64 : limits.maxPayload < MachineInt.maxVal 64) (h : g.Exact k) {ev : FragEvent κ ν}
    (hs : g.step limits k ev = some g') : g'.Exact k := by
  cases ev with
  | tickExpire nowNs =>
    cases hs
    exact exact_note (tickExpire_spec _ _ h.valid).1 fun e he =>
      h.noted_of_before (contextOf_of_tickExpire _ _ h.valid he)
  | fragment f =>
    cases hs
    refine exact_note (valid_addFragment h.valid) fun e he => ?_
    by_cases hk : f.key = k
    · -- a fragment of the key finds no slot, or goes to the key's context, which may reject it
      subst hk
      obtain ⟨hnone, heq⟩ | ⟨-, hown, -⟩ := addFragment_cases limits.maxPayload f h.valid
      · rw [heq] at he
        rw [hnone] at he
        cases he
      rw [hown] at he
      by_cases hf : f.Accepted limits.maxPayload
      · rw [if_pos ⟨rfl, hf⟩]
        obtain ⟨_, _, hr, -⟩ | ⟨e', hr, hnoted⟩ := h.noted.receive_of_accepted h64 hf
        · rw [hr] at he
          cases he
        · rw [hr] at he
          exact Option.some.inj he ▸ hnoted
      · rw [if_neg fun hc => hf hc.2]
        rw [h.noted.receive_of_not_accepted h64 hf] at he
        exact h.noted_of_before he
    · -- one of another key changes this context only by evicting it
      rw [if_neg fun hc => hk hc.1]
      obtain ⟨-, heq⟩ | ⟨-, -, hothers⟩ := addFragment_cases limits.maxPayload f h.valid
      · rw [heq] at he
        exact h.noted_of_before he
      · exact h.noted_of_before (hothers k (Ne.symm hk) e he)

theorem Exact.of_reach {boot : FragTable κ ν} (h64 : limits.maxPayload < MachineInt.maxVal 64) (hboot : Valid boot)
    (hempty : contextOf boot k = none) (h : Reach (Gathering.step limits k) (· = ⟨boot, []⟩) g) : g.Exact k := by
  refine h.invariant ?_ fun _ _ _ hg _ hs => hg.step h64 hs
  rintro g rfl
  refine ⟨hboot, ?_⟩
  rw [hempty]
  rfl

/-- What the table returns for a fragment of the key was supplied by the pieces of its context, and the fragment,
exactly when they leave no gap. -/
theorem Exact.returned (h64 : limits.maxPayload < MachineInt.maxVal 64) (h : g.Exact k) (hk : f.key = k) {n : ν}
    {payload : List UInt8} (hr : (g.table.addFragment limits.maxPayload f).1 = some (n, payload)) :
    Supplied (f.piece :: g.taken) payload ↔ NoGap (f.piece :: g.taken) := by
  subst hk
  obtain ⟨-, heq⟩ | ⟨hout, -, -⟩ := addFragment_cases limits.maxPayload f h.valid
  · rw [heq] at hr
    cases hr
  rw [hout] at hr
  by_cases hf : f.Accepted limits.maxPayload
  · obtain ⟨_, _, hreceive, hiff⟩ | ⟨e, hreceive, -⟩ := h.noted.receive_of_accepted h64 hf
    · rw [hreceive] at hr
      cases hr
      exact hiff
    · rw [hreceive] at hr
      cases hr
  · rw [h.noted.receive_of_not_accepted h64 hf] at hr
    cases hr

end Gathering

/-! ## The two families -/

theorem contextOf_boot {κ ν : Type} [DecidableEq κ] {e : FragContext κ ν} (he : e.active = false) (n : Nat) (k : κ) :
    contextOf (List.replicate n e) k = none := by
  refine Slots.lookup_eq_none_iff.2 fun a ha hlive => ?_
  rw [(List.mem_replicate.1 ha).2] at hlive
  exact absurd (he.symm.trans hlive) Bool.false_ne_true

/-- **No zero filler, except through a gap**: in every run of a family's table from boot, whatever fragments of
whatever keys have come and whatever has been evicted or has expired, a payload returned for a key was supplied
byte for byte by the fragments that its context took exactly when these leave no gap. -/
theorem supplied_iff_noGap (identification protocol : Nat) (p : Piece) (nowNs : Nat) :
    (∀ (src dst : Ipv4Addr) (g : Gathering FragKey Unit) (packet : ReassembledPacket),
      Reach (Gathering.step limitsV4 ⟨src, dst, identification, protocol⟩) (· = ⟨fragEntries, []⟩) g →
      (addFragment g.table src dst identification protocol p.offsetUnits p.moreFragments p.data nowNs).1 =
        some packet →
      (Supplied (p :: g.taken) packet.payload ↔ NoGap (p :: g.taken))) ∧
    (∀ (src dst : Ipv6Addr) (g : Gathering FragKeyV6 Nat) (packet : ReassembledPacketV6),
      Reach (Gathering.step limitsV6 ⟨src, dst, identification⟩) (· = ⟨fragEntriesV6, []⟩) g →
      (addFragmentV6 g.table src dst identification protocol p.offsetUnits p.moreFragments p.data nowNs).1 =
        some packet →
      (Supplied (p :: g.taken) packet.payload ↔ NoGap (p :: g.taken))) := by
  constructor
  · intro src dst g packet hreach hr
    have h64 : limitsV4.maxPayload < MachineInt.maxVal 64 := by decide
    have hexact := Gathering.Exact.of_reach h64 valid_fragEntries (contextOf_boot rfl _ _) hreach
    obtain ⟨⟨_, payload⟩, hout, rfl⟩ := Option.map_eq_some_iff.1 hr
    exact hexact.returned (f := ⟨_, _, p.offsetUnits, p.moreFragments, p.data, nowNs⟩) h64 rfl hout
  · intro src dst g packet hreach hr
    have h64 : limitsV6.maxPayload < MachineInt.maxVal 64 := by decide
    have hexact := Gathering.Exact.of_reach h64 valid_fragEntriesV6 (contextOf_boot rfl _ _) hreach
    obtain ⟨⟨_, payload⟩, hout, rfl⟩ := Option.map_eq_some_iff.1 hr
    exact hexact.returned (f := ⟨_, _, p.offsetUnits, p.moreFragments, p.data, nowNs⟩) h64 rfl hout

/-- Half a block with MF set. -/
def halfBlock : Piece := ⟨0, true, [1, 2, 3, 4]⟩

/-- The block after it, with MF clear. -/
def lastBlock : Piece := ⟨1, false, [5, 6, 7, 8, 9, 10, 11, 12]⟩

/-- The block that it is half of. -/
def firstBlock : Piece := ⟨0, true, [1, 2, 3, 4, 13, 14, 15, 16]⟩

theorem supplied_iff_noGap_all_blocks :
    ∃ g : Gathering FragKey Unit, g.taken = [firstBlock, halfBlock] ∧
      Supplied [lastBlock, firstBlock, halfBlock] [1, 2, 3, 4, 13, 14, 15, 16, 5, 6, 7, 8, 9, 10, 11, 12] := by
  have hsome : (run (Gathering.step limitsV4 ⟨hostA, hostB, 7, 17⟩) ⟨fragEntries, []⟩
      [sent 17 halfBlock, sent 17 firstBlock]).isSome = true := by decide +kernel
  obtain ⟨g, hg⟩ := Option.isSome_iff_exists.1 hsome
  have hread : (run (Gathering.step limitsV4 ⟨hostA, hostB, 7, 17⟩) ⟨fragEntries, []⟩
      [sent 17 halfBlock, sent 17 firstBlock]).map (fun g => (g.taken,
        (addFragment g.table hostA hostB 7 17 lastBlock.offsetUnits lastBlock.moreFragments lastBlock.data 0).1)) =
      some ([firstBlock, halfBlock],
        some ⟨hostA, hostB, 17, [1, 2, 3, 4, 13, 14, 15, 16, 5, 6, 7, 8, 9, 10, 11, 12]⟩) := by
    decide +kernel
  rw [hg, Option.map_some, Option.some.injEq, Prod.mk.injEq] at hread
  have hreach : Reach (Gathering.step limitsV4 ⟨hostA, hostB, 7, 17⟩) (· = ⟨fragEntries, []⟩) g :=
    Reach.of_run (.start rfl) hg
  have hmain := (supplied_iff_noGap 7 17 lastBlock 0).1 hostA hostB g _ hreach hread.2
  rw [hread.1] at hmain
  exact ⟨g, hread.1, hmain.2 (by decide +kernel)⟩

/-- Two fragments of a datagram, and no others: the second makes it complete, with the four bytes between them
that neither has. -/
theorem zeros_delivered :
    (addFragment (addFragment fragEntries hostA hostB 7 17 halfBlock.offsetUnits halfBlock.moreFragments
        halfBlock.data 0).2 hostA hostB 7 17 lastBlock.offsetUnits lastBlock.moreFragments lastBlock.data 0).1 =
      some ⟨hostA, hostB, 17, [1, 2, 3, 4, 0, 0, 0, 0, 5, 6, 7, 8, 9, 10, 11, 12]⟩ ∧
    ¬ Supplied [lastBlock, halfBlock] [1, 2, 3, 4, 0, 0, 0, 0, 5, 6, 7, 8, 9, 10, 11, 12] := by
  decide +kernel

end SlateOS.Net

/-! ## What a rejected fragment does to the other contexts

`add_fragment` chooses a slot, and evicts the context there, before it looks at the fragment. A rejected
fragment gives its slot back, so where its key has a context or a slot is free it leaves the others alone;
in a full table it has evicted the oldest context for nothing.
-/

namespace SlateOS.Net

open Foundation

variable {κ ν : Type}

namespace FragTable

/-- Every active context of another key is where it was, as it was. -/
def Undisturbed (table after : FragTable κ ν) (k : κ) : Prop :=
  ∀ (i : Nat) (e : FragContext κ ν), table[i]? = some e → Live e → e.key ≠ k → after[i]? = some e

/-- The key has a context, or there is a free slot for one. -/
def HasPlace (table : FragTable κ ν) (k : κ) : Prop :=
  (∃ e ∈ table, Live e ∧ e.key = k) ∨ ∃ e ∈ table, ¬ Live e

variable {table : FragTable κ ν} {maxPayload idx : Nat} {f : Fragment κ ν}

/-! ## One slot -/

theorem undisturbed_set {e : FragContext κ ν} {k : κ} (hidx : ∀ a, table[idx]? = some a → Live a → a.key = k) :
    Undisturbed table (table.set idx e) k := by
  intro i a hi hlive hkey
  rcases eq_or_ne idx i with rfl | hne
  · exact absurd (hidx a hi hlive) hkey
  · rw [List.getElem?_set_ne hne]
    exact hi

/-- A rejected fragment leaves its context as it is, or closes it when it holds nothing. -/
theorem addAt_of_not_accepted (h64 : maxPayload < MachineInt.maxVal 64) (hf : ¬ f.Accepted maxPayload)
    {e : FragContext κ ν} (hi : table[idx]? = some e) :
    (table.addAt maxPayload idx f).2 = table.set idx (if e.buffer = [] then e.clear else e) := by
  unfold addAt
  rw [hi]
  dsimp only
  rw [addFragment_of_not_accepted h64 hf e]
  dsimp only
  rw [if_neg Bool.false_ne_true]
  split <;> rfl

/-- The slot that is opened for a fragment. -/
theorem getElem?_openAt {e : FragContext κ ν} (hi : table[idx]? = some e) :
    ∃ e', (table.openAt idx f)[idx]? = some e' ∧ (Live e → e'.buffer = []) ∧
      ∀ i, idx ≠ i → (table.openAt idx f)[i]? = table[i]? := by
  unfold openAt
  refine ⟨_, by rw [List.getElem?_modify_eq, hi]; rfl, fun hlive => ?_,
    fun i hne => List.getElem?_modify_ne _ _ hne⟩
  show (if e.active then e.clear else e).buffer = []
  rw [if_pos (show e.active = true from hlive)]
  rfl

/-! ## The slot for a new key -/

/-- The scan stays inside the table. -/
theorem oldestFrom_lt (table : FragTable κ ν) (i n : Nat) (best : Nat × Nat) (hbest : best.1 < n)
    (hn : i + table.length ≤ n) : (table.oldestFrom i best).1 < n := by
  induction table generalizing i best with
  | nil => exact hbest
  | cons e rest ih =>
    rw [List.length_cons] at hn
    refine ih (i + 1) _ ?_ (by omega)
    split
    · show i < n
      omega
    · exact hbest

theorem slotFor_lt (h : table ≠ []) : table.slotFor < table.length := by
  have hpos : 0 < table.length := List.length_pos_iff.2 h
  unfold slotFor
  cases hfree : table.findIdx? fun e => !e.active with
  | none => exact oldestFrom_lt table 0 table.length (0, MachineInt.maxVal 64) hpos (by omega)
  | some i => exact (List.findIdx?_eq_some_iff_getElem.1 hfree).1

/-! ## Rejected fragments -/

variable [DecidableEq κ]

/-- A rejected fragment disturbs no other context exactly when there was a place for its key. -/
theorem undisturbed_iff (h64 : maxPayload < MachineInt.maxVal 64) (hf : ¬ f.Accepted maxPayload)
    (hslots : table ≠ []) :
    Undisturbed table (table.addFragment maxPayload f).2 f.key ↔ HasPlace table f.key := by
  unfold addFragment
  split
  · next idx hfound =>
    -- the key's own context takes the fragment
    obtain ⟨e, hi, hlive, hkey⟩ := findKey_eq_some hfound
    refine iff_of_true ?_ (.inl ⟨e, List.mem_of_getElem? hi, hlive, hkey⟩)
    rw [addAt_of_not_accepted h64 hf hi]
    refine undisturbed_set fun a ha _ => ?_
    rw [hi] at ha
    exact Option.some.inj ha ▸ hkey
  · next hnone =>
    have hother := findKey_eq_none hnone
    have hlt := slotFor_lt hslots
    have hi : table[table.slotFor]? = some table[table.slotFor] := List.getElem?_eq_getElem hlt
    obtain ⟨e', hslot, hblank, hframe⟩ := getElem?_openAt (f := f) hi
    rw [addAt_of_not_accepted h64 hf hslot]
    by_cases hfree : ∃ e ∈ table, e.active = false
    · -- the slot was free
      obtain ⟨e, hfound, hdead⟩ := slotFor_free hfree
      refine iff_of_true (fun i a ha hlive hkey => ?_) (.inr ?_)
      · have hne : table.slotFor ≠ i := by
          rintro rfl
          rw [hfound] at ha
          rw [Live, ← Option.some.inj ha, hdead] at hlive
          cases hlive
        rw [List.getElem?_set_ne hne, hframe i hne]
        exact ha
      · exact ⟨e, List.mem_of_getElem? hfound, fun hlive => Bool.noConfusion (hdead.symm.trans hlive)⟩
    · -- the oldest context is gone
      have hall : ∀ e ∈ table, Live e := by
        intro e he
        by_contra hdead
        exact hfree ⟨e, he, Bool.eq_false_iff.2 hdead⟩
      have hevicted := hall _ (List.getElem_mem hlt)
      refine iff_of_false (fun hsame => ?_) ?_
      · have h := hsame table.slotFor _ hi hevicted (hother _ (List.getElem_mem hlt) hevicted)
        have hopen : table.slotFor < (table.openAt table.slotFor f).length :=
          (List.getElem?_eq_some_iff.1 hslot).1
        rw [if_pos (hblank hevicted), List.getElem?_set_self hopen] at h
        have hdead : e'.clear.active = false := rfl
        rw [Option.some.inj h] at hdead
        exact Bool.noConfusion (hdead.symm.trans hevicted)
      · rintro (⟨e, he, hlive, hkey⟩ | ⟨e, he, hdead⟩)
        · exact hother e he hlive hkey
        · exact hdead (hall e he)

end FragTable

/-! ## The two families -/

open FragTable

/-- A fragment that `add_fragment` rejects, empty or past the family's maximum, leaves every active context
of another key as it was exactly when its own key has a context or the table a free slot. -/
theorem refused_fragment_disturbs_nobody (identification protocol offsetUnits nowNs : Nat) (more : Bool)
    (data : List UInt8) :
    (∀ (entries : FragTable FragKey Unit) (src dst : Ipv4Addr), entries.length = maxReassemblyEntries →
      (data = [] ∨ maxPayloadV4 < offsetUnits * fragBlockSize + data.length) →
      (Undisturbed entries (addFragment entries src dst identification protocol offsetUnits more data nowNs).2
          ⟨src, dst, identification, protocol⟩ ↔
        HasPlace entries ⟨src, dst, identification, protocol⟩)) ∧
    (∀ (entries : FragTable FragKeyV6 Nat) (src dst : Ipv6Addr), entries.length = maxReassemblyEntries →
      (data = [] ∨ maxPayloadV6 < offsetUnits * fragBlockSize + data.length) →
      (Undisturbed entries (addFragmentV6 entries src dst identification protocol offsetUnits more data nowNs).2
          ⟨src, dst, identification⟩ ↔
        HasPlace entries ⟨src, dst, identification⟩)) := by
  have hslots : ∀ {κ ν : Type} {entries : FragTable κ ν}, entries.length = maxReassemblyEntries →
      entries ≠ [] := by
    rintro κ ν entries hlen rfl
    cases hlen
  have h4 : maxPayloadV4 < MachineInt.maxVal 64 := by decide
  have h6 : maxPayloadV6 < MachineInt.maxVal 64 := by decide
  constructor
  · intro entries src dst hlen hrefused
    refine undisturbed_iff (f := ⟨⟨src, dst, identification, protocol⟩, (), offsetUnits, more, data, nowNs⟩)
      h4 ?_ (hslots hlen)
    rintro ⟨hdata, hstop⟩
    exact hrefused.elim hdata (Nat.not_lt.2 hstop)
  · intro entries src dst hlen hrefused
    refine undisturbed_iff (f := ⟨⟨src, dst, identification⟩, protocol, offsetUnits, more, data, nowNs⟩)
      h6 ?_ (hslots hlen)
    rintro ⟨hdata, hstop⟩
    exact hrefused.elim hdata (Nat.not_lt.2 hstop)

/-- An empty fragment to the table as it is at boot. -/
theorem refused_fragment_disturbs_nobody_boot :
    Undisturbed fragEntries (addFragment fragEntries hostA hostB 8 17 0 true [] 0).2
      ⟨hostA, hostB, 8, 17⟩ :=
  ((refused_fragment_disturbs_nobody 8 17 0 0 true []).1 fragEntries hostA hostB List.length_replicate
    (.inl rfl)).2 (.inr ⟨FragEntry.empty, List.mem_replicate.2 ⟨by decide, rfl⟩, Bool.false_ne_true⟩)

/-- A table with the first fragments of eight datagrams. -/
def fullEntries : FragTable FragKey Unit :=
  (List.range maxReassemblyEntries).foldl
    (fun entries n => (addFragment entries hostA hostB n 17 0 true [1, 2, 3, 4, 5, 6, 7, 8] n).2) fragEntries

/-- An empty fragment to the full table: the first datagram's context is gone. -/
theorem refused_fragment_evicts :
    fullEntries.length = maxReassemblyEntries ∧
      ¬ Undisturbed fullEntries (addFragment fullEntries hostA hostB 8 17 0 true [] 8).2
        ⟨hostA, hostB, 8, 17⟩ := by
  refine ⟨by decide +kernel, fun h => ?_⟩
  have hbefore : fullEntries[0]?.map (fun e => (e.active, e.key)) =
      some (true, ⟨hostA, hostB, 0, 17⟩) := by decide +kernel
  have hafter : (addFragment fullEntries hostA hostB 8 17 0 true [] 8).2[0]?.map (·.active) =
      some false := by decide +kernel
  obtain ⟨e, he, hentry⟩ := Option.map_eq_some_iff.1 hbefore
  obtain ⟨hlive, hkey⟩ := Prod.mk.inj hentry
  rw [h 0 e he hlive (by rw [hkey]; decide), Option.map_some, hlive] at hafter
  cases hafter

end SlateOS.Net
