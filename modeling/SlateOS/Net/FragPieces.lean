/-
# SlateOS.Net.FragPieces -- the fragments of one datagram, and the context that collects them

`Piece` is what one fragment carries of a payload, `Split` a way to cut a payload into pieces. `Tracks`
relates a context to the pieces it has been given, in any order and any number of times: the bitmap has the
blocks they touch, the buffer agrees with the payload wherever one of them lies, and the length is known
once the piece without MF has come. A context is complete exactly when the pieces leave no byte out, since
a piece that is not the last ends on a block boundary.
-/
import SlateOS.Net.Frag

namespace SlateOS.Net

open Foundation

/-- The part of a fragment that is about the payload. -/
structure Piece where
  offsetUnits : Nat
  moreFragments : Bool
  data : List UInt8
  deriving DecidableEq

namespace Piece

/-- Its first byte's position. -/
def start (p : Piece) : Nat := p.offsetUnits * fragBlockSize

/-- The position after its last byte. -/
def stop (p : Piece) : Nat := p.start + p.data.length

def Covers (p : Piece) (i : Nat) : Prop := p.start ≤ i ∧ i < p.stop

instance (p : Piece) (i : Nat) : Decidable (p.Covers i) := inferInstanceAs (Decidable (_ ∧ _))

/-- `p` is a fragment of `payload`: it is not empty, its bytes are those of the payload at its offset, MF is
clear exactly when it reaches the end, and its length is a multiple of the block size otherwise. -/
structure Of (payload : List UInt8) (p : Piece) : Prop where
  nonempty : p.data ≠ []
  inside : p.stop ≤ payload.length
  bytes : ∀ i, p.Covers i → p.data[i - p.start]? = payload[i]?
  last : p.moreFragments = false ↔ p.stop = payload.length
  aligned : p.moreFragments = true → fragBlockSize ∣ p.data.length

variable {payload : List UInt8} {p : Piece}

theorem Of.lt_stop (h : p.Of payload) : p.start < p.stop := by
  have hlen := List.length_pos_iff.2 h.nonempty
  unfold stop
  omega

/-- A piece that touches a block of the payload has all of the block that there is. -/
theorem Of.covers_iff (h : p.Of payload) {i : Nat} (hi : i < payload.length) :
    p.Covers i ↔ p.Covers (8 * (i / 8)) := by
  have hstart : p.start = p.offsetUnits * 8 := rfl
  have hstop : p.stop = p.start + p.data.length := rfl
  unfold Covers
  cases hmore : p.moreFragments with
  | false =>
    have hend := h.last.1 hmore
    omega
  | true =>
    obtain ⟨n, hn⟩ := h.aligned hmore
    have hblock : fragBlockSize = 8 := rfl
    rw [hblock] at hn
    omega

end Piece

/-- A payload cut into pieces: every byte lies in exactly one. -/
structure Split (payload : List UInt8) (pieces : List Piece) : Prop where
  of : ∀ p ∈ pieces, p.Of payload
  covered : ∀ i < payload.length, ∃ p ∈ pieces, p.Covers i
  disjoint : ∀ p ∈ pieces, ∀ q ∈ pieces, ∀ i, p.Covers i → q.Covers i → p = q

/-! ### Cutting a payload into blocks -/

/-- The piece of `n` bytes at an offset. -/
def Piece.cut (payload : List UInt8) (offsetUnits n : Nat) : Piece where
  offsetUnits := offsetUnits
  moreFragments := decide (offsetUnits * fragBlockSize + n < payload.length)
  data := (payload.drop (offsetUnits * fragBlockSize)).take n

theorem Piece.length_cut {payload : List UInt8} {offsetUnits n : Nat}
    (hfit : offsetUnits * fragBlockSize + n ≤ payload.length) :
    (Piece.cut payload offsetUnits n).data.length = n := by
  show ((payload.drop _).take n).length = n
  rw [List.length_take, List.length_drop]
  omega

theorem Piece.of_cut {payload : List UInt8} {offsetUnits n : Nat} (hn : 0 < n)
    (hfit : offsetUnits * fragBlockSize + n ≤ payload.length)
    (hblocks : offsetUnits * fragBlockSize + n < payload.length → fragBlockSize ∣ n) :
    (Piece.cut payload offsetUnits n).Of payload := by
  have hlen := Piece.length_cut hfit
  have hstop : (Piece.cut payload offsetUnits n).stop = offsetUnits * fragBlockSize + n := by
    unfold Piece.stop
    rw [hlen]
    rfl
  refine ⟨?_, ?_, fun i hi => ?_, ?_, fun hmore => ?_⟩
  · exact List.length_pos_iff.1 (by omega)
  · rw [hstop]
    exact hfit
  · have hi1 : offsetUnits * fragBlockSize ≤ i := hi.1
    have hi2 : i < offsetUnits * fragBlockSize + n := hstop ▸ hi.2
    show ((payload.drop _).take n)[i - offsetUnits * fragBlockSize]? = _
    rw [List.getElem?_take_of_lt (by omega), List.getElem?_drop]
    congr 1
    omega
  · rw [hstop]
    show decide _ = false ↔ _
    rw [decide_eq_false_iff_not]
    omega
  · rw [hlen]
    exact hblocks (by simpa [Piece.cut] using hmore)

/-- The payload in pieces of `blocks` blocks, the last one shorter if need be. -/
def Piece.cutAll (payload : List UInt8) (blocks : Nat) : List Piece :=
  (List.range (divCeil payload.length (blocks * fragBlockSize))).map fun j =>
    Piece.cut payload (j * blocks)
      (min (blocks * fragBlockSize) (payload.length - j * blocks * fragBlockSize))

/-- What a sender with a fixed fragment size sends is a split. -/
theorem Split.cutAll (payload : List UInt8) {blocks : Nat} (hb : 0 < blocks) :
    Split payload (Piece.cutAll payload blocks) := by
  obtain ⟨w, hw⟩ : ∃ w, w = blocks * fragBlockSize := ⟨_, rfl⟩
  have hwpos : 0 < w := hw ▸ Nat.mul_pos hb (by decide)
  have hoffset : ∀ j, j * blocks * fragBlockSize = j * w := fun j => by rw [hw, Nat.mul_assoc]
  -- piece `j` begins inside the payload exactly for the pieces there are
  have hinside : ∀ j, j < divCeil payload.length w → j * w < payload.length := by
    intro j hj
    unfold divCeil at hj
    have hmul : (j + 1) * w ≤ payload.length + w - 1 :=
      (Nat.le_div_iff_mul_le hwpos).1 hj
    rw [Nat.add_mul, Nat.one_mul] at hmul
    omega
  have hmem : ∀ p, p ∈ Piece.cutAll payload blocks ↔ ∃ j < divCeil payload.length w,
      Piece.cut payload (j * blocks) (min w (payload.length - j * w)) = p := by
    intro p
    simp only [Piece.cutAll, List.mem_map, List.mem_range, ← hw, hoffset]
  have hfit : ∀ j < divCeil payload.length w,
      j * blocks * fragBlockSize + min w (payload.length - j * w) ≤ payload.length := by
    intro j hj
    have hlt := hinside j hj
    rw [hoffset]
    omega
  have hcovers : ∀ j < divCeil payload.length w, ∀ i,
      (Piece.cut payload (j * blocks) (min w (payload.length - j * w))).Covers i ↔
        j * w ≤ i ∧ i < j * w + min w (payload.length - j * w) := by
    intro j hj i
    unfold Piece.Covers Piece.stop
    rw [Piece.length_cut (hfit j hj)]
    show j * blocks * fragBlockSize ≤ i ∧ i < j * blocks * fragBlockSize + _ ↔ _
    rw [hoffset]
  have hindex : ∀ j i, j * w ≤ i → i < j * w + w → j = i / w := by
    intro j i hle hlt
    exact (Nat.div_eq_of_lt_le (by omega) (by rw [Nat.add_mul, Nat.one_mul]; omega)).symm
  refine ⟨fun p hp => ?_, fun i hi => ?_, fun p hp q hq i hpi hqi => ?_⟩
  · obtain ⟨j, hj, rfl⟩ := (hmem p).1 hp
    have hlt := hinside j hj
    refine Piece.of_cut (by omega) (hfit j hj) fun hmore => ?_
    rw [hoffset] at hmore
    have hfull : min w (payload.length - j * w) = w := by omega
    rw [hfull, hw]
    exact Nat.dvd_mul_left _ _
  · have hdiv : i / w * w ≤ i := Nat.div_mul_le_self i w
    have hmod : i < i / w * w + w := Nat.lt_div_mul_add hwpos
    have hj : i / w < divCeil payload.length w := by
      unfold divCeil
      rw [Nat.lt_iff_add_one_le, Nat.le_div_iff_mul_le hwpos, Nat.add_mul, Nat.one_mul]
      omega
    exact ⟨_, (hmem _).2 ⟨i / w, hj, rfl⟩, (hcovers _ hj i).2 (by omega)⟩
  · obtain ⟨j, hj, rfl⟩ := (hmem p).1 hp
    obtain ⟨j', hj', rfl⟩ := (hmem q).1 hq
    have hp := (hcovers j hj i).1 hpi
    have hq := (hcovers j' hj' i).1 hqi
    rw [hindex j i hp.1 (by omega), hindex j' i hq.1 (by omega)]

/-- Some of the pieces leave no byte out exactly when they are all there. -/
theorem Split.covered_iff {payload : List UInt8} {pieces some : List Piece} (h : Split payload pieces)
    (hsome : ∀ p ∈ some, p ∈ pieces) :
    (∀ i < payload.length, ∃ p ∈ some, p.Covers i) ↔ ∀ p ∈ pieces, p ∈ some := by
  constructor
  · intro hall p hp
    -- the piece that covers the first byte of `p` is `p`
    have hpo := h.of p hp
    obtain ⟨q, hq, hcover⟩ := hall p.start (Nat.lt_of_lt_of_le hpo.lt_stop hpo.inside)
    have hpq := h.disjoint p hp q (hsome q hq) p.start ⟨Nat.le_refl _, hpo.lt_stop⟩ hcover
    rwa [hpq]
  · intro hall i hi
    obtain ⟨p, hp, hcover⟩ := h.covered i hi
    exact ⟨p, hall p hp, hcover⟩

/-! ## What a context knows of the pieces -/

/-- The context has been given these pieces of the payload. -/
structure Tracks {κ ν : Type} (e : FragContext κ ν) (payload : List UInt8) (pieces : List Piece) :
    Prop where
  of : ∀ p ∈ pieces, p.Of payload
  blocks : ∀ b, GrowingBuffer.has e.received b = true ↔ ∃ p ∈ pieces, p.Covers (8 * b)
  total : (∃ p ∈ pieces, p.moreFragments = false) → e.totalLen = some payload.length
  noTotal : (∀ p ∈ pieces, p.moreFragments = true) → e.totalLen = none
  bytes : ∀ p ∈ pieces, ∀ i, p.Covers i → e.buffer[i]? = payload[i]?

variable {κ ν : Type} {e : FragContext κ ν} {payload : List UInt8} {pieces : List Piece} {p : Piece}

/-- A context that has been given nothing. -/
theorem Tracks.nil (hbuffer : e.received = []) (htotal : e.totalLen = none) : Tracks e payload [] where
  of p hp := absurd hp List.not_mem_nil
  blocks b := by
    rw [hbuffer, GrowingBuffer.has_nil]
    simp
  total h := by simp at h
  noTotal _ := htotal
  bytes p hp := absurd hp List.not_mem_nil

/-- The context after one more piece. -/
def FragContext.withPiece (e : FragContext κ ν) (p : Piece) : FragContext κ ν :=
  { e with
    totalLen := if p.moreFragments then e.totalLen else some p.stop
    buffer := GrowingBuffer.write 0 e.buffer p.start p.data
    received := GrowingBuffer.markFrom
      (GrowingBuffer.grow 0 (divCeil (divCeil p.stop fragBlockSize) 8) e.received)
      (p.start / fragBlockSize) (divCeil p.stop fragBlockSize - p.start / fragBlockSize) }

/-- `add_fragment` takes a piece of a payload that fits. -/
theorem addFragment_of_piece {maxPayload : Nat} (hp : p.Of payload) (hmax : payload.length ≤ maxPayload)
    (h64 : maxPayload < 2 ^ 64) :
    e.addFragment maxPayload p.start p.data p.moreFragments =
      ((e.withPiece p).isComplete, e.withPiece p) := by
  have hstop : MachineInt.saturatingAdd 64 p.start p.data.length = p.stop := by
    have hle : p.stop ≤ maxPayload := hp.inside.trans hmax
    unfold MachineInt.saturatingAdd MachineInt.maxVal
    have hs : p.stop = p.start + p.data.length := rfl
    omega
  have hfits : ¬p.stop > maxPayload := by
    have hle : p.stop ≤ maxPayload := hp.inside.trans hmax
    omega
  unfold FragContext.addFragment
  rw [if_neg hp.nonempty, hstop, if_neg hfits]
  rfl

/-- A piece marks the blocks it touches. -/
theorem has_withPiece (b : Nat) :
    GrowingBuffer.has (e.withPiece p).received b =
      (GrowingBuffer.has e.received b || decide (p.Covers (8 * b))) := by
  have hstart : p.start = p.offsetUnits * 8 := rfl
  have hblock : fragBlockSize = 8 := rfl
  have hlen : p.start / fragBlockSize + (divCeil p.stop fragBlockSize - p.start / fragBlockSize) ≤
      8 * (GrowingBuffer.grow (0 : BitVec 8) (divCeil (divCeil p.stop fragBlockSize) 8)
        e.received).length := by
    have hstop : p.start ≤ p.stop := Nat.le_add_right _ _
    rw [GrowingBuffer.length_grow, hblock]
    unfold divCeil
    omega
  show GrowingBuffer.has (GrowingBuffer.markFrom _ _ _) b = _
  rw [GrowingBuffer.has_markFrom hlen, GrowingBuffer.has_grow]
  congr 1
  rw [decide_eq_decide, hblock]
  unfold Piece.Covers divCeil
  have hstop : p.start ≤ p.stop := Nat.le_add_right _ _
  omega

theorem Tracks.add (h : Tracks e payload pieces) (hp : p.Of payload) :
    Tracks (e.withPiece p) payload (p :: pieces) where
  of q hq := (List.mem_cons.1 hq).elim (fun hqp => hqp ▸ hp) (h.of q)
  blocks b := by
    rw [has_withPiece, Bool.or_eq_true, h.blocks b, decide_eq_true_eq]
    simp only [List.mem_cons, exists_eq_or_imp]
    exact or_comm
  total hlast := by
    show (if p.moreFragments then e.totalLen else some p.stop) = some payload.length
    cases hmore : p.moreFragments with
    | false => rw [if_neg Bool.false_ne_true, hp.last.1 hmore]
    | true =>
      rw [if_pos rfl]
      refine h.total ?_
      obtain ⟨q, hq, hqlast⟩ := hlast
      rcases List.mem_cons.1 hq with rfl | hq
      · rw [hmore] at hqlast
        cases hqlast
      · exact ⟨q, hq, hqlast⟩
  noTotal hmore := by
    show (if p.moreFragments then e.totalLen else some p.stop) = none
    rw [if_pos (hmore p List.mem_cons_self)]
    exact h.noTotal fun q hq => hmore q (List.mem_cons_of_mem _ hq)
  bytes q hq i hi := by
    show (GrowingBuffer.write 0 e.buffer p.start p.data)[i]? = payload[i]?
    by_cases hpi : p.Covers i
    · rw [GrowingBuffer.getElem?_write_of_mem hpi.1 hpi.2]
      exact hp.bytes i hpi
    · rcases List.mem_cons.1 hq with rfl | hq
      · exact absurd hi hpi
      · -- an older piece lies there, so the buffer reaches that far
        have hold := h.bytes q hq i hi
        have hpayload : i < payload.length := Nat.lt_of_lt_of_le hi.2 (h.of q hq).inside
        have hbuffer : i < e.buffer.length := by
          rw [List.getElem?_eq_getElem hpayload] at hold
          exact (List.getElem?_eq_some_iff.1 hold).1
        have hout : i < p.start ∨ p.start + p.data.length ≤ i := by
          unfold Piece.Covers Piece.stop at hpi
          omega
        rw [GrowingBuffer.getElem?_write_of_notMem hbuffer hout]
        exact hold

/-- The length is known from the piece without MF, which is the one that has the last byte. -/
theorem Tracks.total_eq (h : Tracks e payload pieces) :
    e.totalLen = some payload.length ∨ e.totalLen = none ∧ ∀ p ∈ pieces, p.moreFragments = true := by
  by_cases hlast : ∃ p ∈ pieces, p.moreFragments = false
  · exact Or.inl (h.total hlast)
  · have hmore : ∀ p ∈ pieces, p.moreFragments = true := by
      intro p hp
      cases hm : p.moreFragments with
      | true => rfl
      | false => exact absurd ⟨p, hp, hm⟩ hlast
    exact Or.inr ⟨h.noTotal hmore, hmore⟩

/-- **Complete exactly when no byte is missing.** -/
theorem Tracks.isComplete_iff (h : Tracks e payload pieces) (hpos : 0 < payload.length) :
    e.isComplete = true ↔ ∀ i < payload.length, ∃ p ∈ pieces, p.Covers i := by
  rcases h.total_eq with htotal | ⟨htotal, hmore⟩
  · have hblocks : e.isComplete = true ↔ ∀ b < divCeil payload.length 8,
        ∃ p ∈ pieces, p.Covers (8 * b) := by
      have hne : payload.length ≠ 0 := by omega
      unfold FragContext.isComplete
      rw [htotal]
      show (if payload.length = 0 then true else _) = true ↔ _
      rw [if_neg hne, GrowingBuffer.prefixFull_iff]
      simp only [h.blocks]
      rfl
    rw [hblocks]
    unfold divCeil
    constructor
    · intro hb i hi
      obtain ⟨p, hp, hcover⟩ := hb (i / 8) (by omega)
      exact ⟨p, hp, ((h.of p hp).covers_iff hi).2 hcover⟩
    · intro hall b hb
      exact hall (8 * b) (by omega)
  · -- no piece reaches the end, so the last byte is missing
    refine ⟨fun hc => ?_, fun hall => ?_⟩
    · unfold FragContext.isComplete at hc
      rw [htotal] at hc
      cases hc
    · obtain ⟨p, hp, hcover⟩ := hall (payload.length - 1) (by omega)
      have hpo := h.of p hp
      have hend : p.stop = payload.length := by
        have hin := hpo.inside
        have hlt := hcover.2
        omega
      have hlast := hpo.last.2 hend
      rw [hmore p hp] at hlast
      cases hlast

/-- A complete context holds the payload. -/
theorem Tracks.payload_eq (h : Tracks e payload pieces) (hpos : 0 < payload.length)
    (hc : e.isComplete = true) :
    e.buffer.take (e.totalLen.getD e.buffer.length) = payload := by
  have hall := (h.isComplete_iff hpos).1 hc
  have htotal : e.totalLen = some payload.length := by
    rcases h.total_eq with htotal | ⟨htotal, -⟩
    · exact htotal
    · unfold FragContext.isComplete at hc
      rw [htotal] at hc
      cases hc
  rw [htotal, Option.getD_some]
  refine List.ext_getElem? fun i => ?_
  by_cases hi : i < payload.length
  · obtain ⟨p, hp, hcover⟩ := hall i hi
    rw [List.getElem?_take_of_lt hi]
    exact h.bytes p hp i hcover
  · rw [List.getElem?_take_eq_none (by omega), List.getElem?_eq_none (by omega)]

end SlateOS.Net
