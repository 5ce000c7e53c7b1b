/-
# SlateOS.Net.Tcp.Reassembly -- the receive half against the peer's stream

The peer's stream is a list of bytes, and byte `n` of it has sequence number `seqAt irs n`. While every
position is within half the number space of the receive position, comparing sequence numbers compares
positions. `Buffered` says what the SACK blocks promise: each is a range of positions whose bytes the
out-of-order buffer holds. It is kept as long as no block is recorded for data the buffer refuses, and it is
what makes delivery append the next bytes of the stream.
-/
import SlateOS.Net.Tcp.Receive

namespace SlateOS.Net.Tcp

open Foundation

/-- The sequence number of byte `n` of a stream whose SYN had number `irs`. -/
def seqAt (irs : Seq) (n : Nat) : Seq := irs + 1 + BitVec.ofNat 32 n

theorem seqAt_add (irs : Seq) (n k : Nat) : seqAt irs n + BitVec.ofNat 32 k = seqAt irs (n + k) := by
  unfold seqAt
  rw [BitVec.add_assoc, ← BitVec.ofNat_add]

theorem seqAt_zero (irs : Seq) : seqAt irs 0 = irs + 1 := BitVec.add_zero _

variable {irs : Seq}

theorem seqAt_sub {x y : Nat} (hle : x ≤ y) (hlt : y < x + 2 ^ 32) :
    (seqAt irs y - seqAt irs x).toNat = y - x := by
  unfold seqAt
  bv_omega

/-- Positions closer than half the number space compare as their sequence numbers do. -/
theorem seqLt_seqAt {x y : Nat} (hx : x < y + 2 ^ 31) (hy : y < x + 2 ^ 31) :
    seqLt (seqAt irs x) (seqAt irs y) = true ↔ x < y := by
  rw [seqLt_iff]
  unfold seqAt
  bv_omega

/-- Positions closer than the number space are equal when their sequence numbers are. -/
theorem seqAt_inj {x y : Nat} (hx : x < y + 2 ^ 31) (hy : y < x + 2 ^ 31) :
    seqAt irs x = seqAt irs y ↔ x = y := by
  constructor
  · intro h
    unfold seqAt at h
    bv_omega
  · rintro rfl
    rfl

/-! ## Blocks of good positions -/

/-- A block of positions from `lo` on and not past `hi`, all of them good. -/
def GoodBlock (irs : Seq) (good : Nat → Prop) (lo hi : Nat) (b : Seq × Seq) : Prop :=
  ∃ x y, b = (seqAt irs x, seqAt irs y) ∧ lo ≤ x ∧ x ≤ y ∧ y ≤ hi ∧ ∀ i, x ≤ i → i < y → good i

theorem GoodBlock.mono {good good' : Nat → Prop} {lo hi hi' : Nat} {b : Seq × Seq}
    (h : GoodBlock irs good lo hi b) (hhi : hi ≤ hi') (hgood : ∀ i, lo ≤ i → i < hi → good i → good' i) :
    GoodBlock irs good' lo hi' b := by
  obtain ⟨x, y, hb, hx, hxy, hy, hall⟩ := h
  refine ⟨x, y, hb, hx, hxy, hy.trans hhi, ?_⟩
  intro i hxi hiy
  exact hgood i (hx.trans hxi) (Nat.lt_of_lt_of_le hiy hy) (hall i hxi hiy)

/-- Merging keeps blocks good: a block that does not stay apart overlaps or touches the new range, so the
grown range has no gap. -/
theorem sackMerge_good {good : Nat → Prop} {lo hi : Nat} (hspan : hi < lo + 2 ^ 31)
    {blocks : List (Seq × Seq)} {new : Seq × Seq} (hblocks : ∀ b ∈ blocks, GoodBlock irs good lo hi b)
    (hnew : GoodBlock irs good lo hi new) :
    (∀ b ∈ (sackMerge blocks new).1, GoodBlock irs good lo hi b) ∧
      GoodBlock irs good lo hi (sackMerge blocks new).2 := by
  induction blocks generalizing new with
  | nil => exact ⟨by simp [sackMerge], hnew⟩
  | cons b rest ih =>
    have hrest : ∀ b ∈ rest, GoodBlock irs good lo hi b := fun d hd => hblocks d (.tail _ hd)
    have hb := hblocks b (.head _)
    obtain ⟨x, y, rfl, hx, hxy, hy, hall⟩ := hb
    obtain ⟨u, v, rfl, hu, huv, hv, hnewall⟩ := hnew
    have hvx : seqLt (seqAt irs v) (seqAt irs x) = true ↔ v < x :=
      seqLt_seqAt (by omega) (by omega)
    have hyu : seqLt (seqAt irs y) (seqAt irs u) = true ↔ y < u :=
      seqLt_seqAt (by omega) (by omega)
    have hxu : seqLt (seqAt irs x) (seqAt irs u) = true ↔ x < u :=
      seqLt_seqAt (by omega) (by omega)
    have hvy : seqLt (seqAt irs v) (seqAt irs y) = true ↔ v < y :=
      seqLt_seqAt (by omega) (by omega)
    unfold sackMerge
    by_cases hapart : v < x ∨ y < u
    · have hsep : (seqLt (seqAt irs v) (seqAt irs x) || seqLt (seqAt irs y) (seqAt irs u)) = true := by
        rw [Bool.or_eq_true, hvx, hyu]
        exact hapart
      rw [if_pos hsep]
      obtain ⟨hkept, hmerged⟩ := ih hrest ⟨u, v, rfl, hu, huv, hv, hnewall⟩
      refine ⟨?_, hmerged⟩
      intro d hd
      rcases List.mem_cons.mp hd with rfl | hd
      · exact ⟨x, y, rfl, hx, hxy, hy, hall⟩
      · exact hkept d hd
    · have hsep : ¬ (seqLt (seqAt irs v) (seqAt irs x) || seqLt (seqAt irs y) (seqAt irs u)) = true := by
        rw [Bool.or_eq_true, hvx, hyu]
        exact hapart
      rw [if_neg hsep]
      refine ih hrest ⟨min x u, max v y, ?_, by omega, by omega, by omega, ?_⟩
      · refine Prod.ext ?_ ?_
        · dsimp only
          split
          · next hlt =>
            rw [Nat.min_eq_left (Nat.le_of_lt (hxu.mp hlt))]
          · next hlt =>
            rw [Nat.min_eq_right (by rw [hxu] at hlt; omega)]
        · dsimp only
          split
          · next hlt =>
            rw [Nat.max_eq_right (Nat.le_of_lt (hvy.mp hlt))]
          · next hlt =>
            rw [Nat.max_eq_left (by rw [hvy] at hlt; omega)]
      · intro i hlo hhi
        by_cases hin : u ≤ i ∧ i < v
        · exact hnewall i hin.1 hin.2
        · exact hall i (by omega) (by omega)

theorem mem_sackShift {key b : Seq × Seq} {sorted : List (Seq × Seq)} :
    b ∈ sackShift key sorted ↔ b = key ∨ b ∈ sorted := by
  induction sorted with
  | nil => simp [sackShift]
  | cons d rest ih =>
    unfold sackShift
    split
    · rw [List.mem_cons, ih, List.mem_cons]
      tauto
    · simp only [List.mem_cons]

theorem mem_sackSort {b : Seq × Seq} {blocks : List (Seq × Seq)} : b ∈ sackSort blocks ↔ b ∈ blocks := by
  have hfold (sorted : List (Seq × Seq)) :
      b ∈ blocks.foldl (fun sorted key => sackShift key sorted) sorted ↔ b ∈ blocks ∨ b ∈ sorted := by
    induction blocks generalizing sorted with
    | nil => simp
    | cons d rest ih =>
      rw [List.foldl_cons, ih, mem_sackShift, List.mem_cons]
      tauto
  unfold sackSort
  rw [List.mem_reverse, hfold]
  simp

namespace TcpConnection

theorem sackInsert_good {good : Nat → Prop} {lo hi : Nat} (hspan : hi < lo + 2 ^ 31)
    {c : TcpConnection} (hblocks : ∀ b ∈ c.sackBlocks, GoodBlock irs good lo hi b) {left right : Seq}
    (hnew : GoodBlock irs good lo hi (left, right)) :
    ∀ b ∈ (c.sackInsert left right).sackBlocks, GoodBlock irs good lo hi b := by
  obtain ⟨hkept, hmerged⟩ := sackMerge_good hspan hblocks hnew
  intro b hb
  unfold sackInsert at hb
  dsimp only at hb
  rw [mem_sackSort] at hb
  split at hb
  · rcases List.mem_append.mp hb with hb | hb
    · exact hkept b hb
    · rw [List.mem_singleton.mp hb]
      exact hmerged
  · exact hkept b hb

end TcpConnection

/-! ## What the receive buffer gains -/

/-- The receive buffer after the bytes of positions `r` to `r'`, unless they are discarded. -/
def extendRx (closed : Bool) (stream rx : List UInt8) (r r' : Nat) : List UInt8 :=
  if closed then rx else rx ++ (stream.drop r).take (r' - r)

theorem extendRx_self (closed : Bool) (stream rx : List UInt8) (r : Nat) :
    extendRx closed stream rx r r = rx := by
  unfold extendRx
  split
  · rfl
  · simp

theorem extendRx_trans (closed : Bool) (stream rx : List UInt8) {r r' r'' : Nat} (h : r ≤ r')
    (h' : r' ≤ r'') :
    extendRx closed stream (extendRx closed stream rx r r') r' r'' = extendRx closed stream rx r r'' := by
  unfold extendRx
  split
  · rfl
  · have hdrop : stream.drop r' = (stream.drop r).drop (r' - r) := by
      rw [List.drop_drop]
      congr 1
      omega
    have hlen : r'' - r = (r' - r) + (r'' - r') := by omega
    rw [List.append_assoc, hdrop, hlen, List.take_add]

/-- Two lists that agree on a stretch of positions give the same bytes there. -/
theorem take_drop_congr {l m : List UInt8} {a b n : Nat} (h : ∀ i < n, l[a + i]? = m[b + i]?) :
    (l.drop a).take n = (m.drop b).take n := by
  apply List.ext_getElem?
  intro i
  rw [List.getElem?_take, List.getElem?_take]
  split
  · next hi => rw [List.getElem?_drop, List.getElem?_drop, h i hi]
  · rfl

namespace TcpConnection

variable {irs : Seq} {stream : List UInt8}

/-- Between segments: the receive position is `r`, the out-of-order buffer starts there, and the SACK blocks
are ranges of positions whose bytes it holds. -/
structure Buffered (irs : Seq) (stream : List UInt8) (r : Nat) (c : TcpConnection) : Prop where
  rcvNxt : c.rcvNxt = seqAt irs r
  le : r ≤ stream.length
  base : c.oooBuf ≠ [] → c.oooBase = seqAt irs r
  short : c.oooBuf.length ≤ maxOooBuf
  blocks : ∀ b ∈ c.sackBlocks,
    GoodBlock irs (fun i => c.oooBuf[i - r]? = stream[i]?) r (r + c.oooBuf.length) b

/-- During delivery: the receive position `r'` has moved past the start `r` of the buffer. -/
structure Delivering (irs : Seq) (stream : List UInt8) (r : Nat) (c : TcpConnection) (r' : Nat) : Prop where
  rcvNxt : c.rcvNxt = seqAt irs r'
  ge : r ≤ r'
  near : r' < r + 2 ^ 18
  le : r' ≤ stream.length
  base : c.oooBase = seqAt irs r
  short : c.oooBuf.length ≤ maxOooBuf
  blocks : ∀ b ∈ c.sackBlocks,
    GoodBlock irs (fun i => c.oooBuf[i - r]? = stream[i]?) r (r + c.oooBuf.length) b

variable {r r' : Nat}

/-- A round delivers bytes of a block, and those are the next bytes of the stream. -/
theorem oooRound_spec {c c' : TcpConnection} (hd : c.Delivering irs stream r r')
    (h : c.oooRound = some c') :
    ∃ r'', r' ≤ r'' ∧ c'.Delivering irs stream r r'' ∧ c'.localReadClosed = c.localReadClosed ∧
      c'.rxBuffer = extendRx c.localReadClosed stream c.rxBuffer r' r'' := by
  have hshort : c.oooBuf.length ≤ 65536 := hd.short
  have hge := hd.ge
  have hnear := hd.near
  unfold oooRound at h
  split at h
  · exact absurd h (by simp)
  · next bl br hfind =>
    obtain ⟨x, y, hb, hx, hxy, hy, hgood⟩ := hd.blocks _ (List.mem_of_find?_eq_some hfind)
    cases hb
    -- The block found reaches from at most `r'` to past it.
    have hsel := List.find?_some hfind
    simp only [hd.rcvNxt, Bool.and_eq_true, Bool.not_eq_true'] at hsel
    have hxr : x ≤ r' := by
      have := hsel.1
      rw [← Bool.not_eq_true, seqLt_seqAt (by omega) (by omega)] at this
      omega
    have hry : r' < y := (seqLt_seqAt (by omega) (by omega)).mp hsel.2
    have hstart : (c.rcvNxt - c.oooBase).toNat = r' - r := by
      rw [hd.rcvNxt, hd.base]
      exact seqAt_sub hge (by omega)
    have hstop : (seqAt irs y - c.oooBase).toNat = y - r := by
      rw [hd.base]
      exact seqAt_sub (by omega) (by omega)
    have hylen : y ≤ stream.length := by
      have hlast : c.oooBuf[y - 1 - r]? = stream[y - 1]? := hgood (y - 1) (by omega) (by omega)
      rw [List.getElem?_eq_getElem (by omega), eq_comm, List.getElem?_eq_some_iff] at hlast
      obtain ⟨hlt, -⟩ := hlast
      omega
    dsimp only at h
    rw [hstart, hstop] at h
    split at h
    · exact absurd h (by simp)
    · split at h
      · exact absurd h (by simp)
      · set n := if c.localReadClosed then y - r - (r' - r)
          else min (y - r - (r' - r)) (maxRxBuffer - c.rxBuffer.length) with hn
        have hle : n ≤ y - r' := by
          rw [hn]
          split <;> omega
        cases h
        refine ⟨r' + n, by omega, ?_, rfl, ?_⟩
        · exact
            { rcvNxt := by
                show c.rcvNxt + BitVec.ofNat 32 n = _
                rw [hd.rcvNxt, seqAt_add]
              ge := by omega
              near := by omega
              le := by omega
              base := hd.base
              short := hd.short
              blocks := hd.blocks }
        · have hbytes : (c.oooBuf.drop (r' - r)).take n = (stream.drop r').take n := by
            refine take_drop_congr fun i hi => ?_
            have hbyte : c.oooBuf[r' + i - r]? = stream[r' + i]? :=
              hgood (r' + i) (by omega) (by omega)
            rw [← hbyte]
            congr 1
            omega
          have hadd : r' + n - r' = n := by omega
          unfold extendRx
          rw [hadd, ← hbytes]

theorem oooRounds_spec {k r r' : Nat} {c c' : TcpConnection} (hd : c.Delivering irs stream r r')
    (h : oooRounds k c = some c') :
    ∃ r'', r' ≤ r'' ∧ c'.Delivering irs stream r r'' ∧ c'.localReadClosed = c.localReadClosed ∧
      c'.rxBuffer = extendRx c.localReadClosed stream c.rxBuffer r' r'' := by
  induction k generalizing c r' with
  | zero =>
    unfold oooRounds at h
    split at h
    · cases h
      exact ⟨r', Nat.le_refl _, hd, rfl, (extendRx_self ..).symm⟩
    · exact absurd h (by simp)
  | succ k ih =>
    unfold oooRounds at h
    split at h
    · cases h
      exact ⟨r', Nat.le_refl _, hd, rfl, (extendRx_self ..).symm⟩
    · next d hround =>
      obtain ⟨s, hs, hds, hclosed, hrx⟩ := oooRound_spec hd hround
      obtain ⟨r'', hr'', hd'', hclosed', hrx'⟩ := ih hds h
      refine ⟨r'', hs.trans hr'', hd'', hclosed'.trans hclosed, ?_⟩
      rw [hrx', hclosed, hrx]
      exact extendRx_trans _ _ _ hs hr''

variable {c : TcpConnection}

/-- Trimming and advancing bring the buffer and the blocks up to the receive position. -/
theorem sackAdvance_oooTrim (hd : c.Delivering irs stream r r') :
    c.oooTrim.sackAdvance.Buffered irs stream r' := by
  have hshort : c.oooBuf.length ≤ 65536 := hd.short
  have hge := hd.ge
  have hnear := hd.near
  have hconsumed : (c.rcvNxt - c.oooBase).toNat = r' - r := by
    rw [hd.rcvNxt, hd.base]
    exact seqAt_sub hge (by omega)
  have htrim : c.oooTrim.rcvNxt = c.rcvNxt ∧ c.oooTrim.sackBlocks = c.sackBlocks ∧
      c.oooTrim.oooBuf = c.oooBuf.drop (r' - r) ∧
      (c.oooTrim.oooBuf ≠ [] → c.oooTrim.oooBase = seqAt irs r') := by
    unfold oooTrim
    dsimp only
    rw [hconsumed]
    split
    · exact ⟨rfl, rfl, rfl, fun _ => hd.rcvNxt⟩
    · next hinside =>
      split
      · next hpast =>
        refine ⟨rfl, rfl, ?_, fun hne => absurd rfl hne⟩
        exact (List.drop_eq_nil_of_le (by omega)).symm
      · next hpast =>
        have hzero : r' = r := by omega
        subst hzero
        refine ⟨rfl, rfl, by simp, fun _ => hd.base⟩
  obtain ⟨hrcv, hblocks, hbuf, hbase⟩ := htrim
  exact
    { rcvNxt := hrcv.trans hd.rcvNxt
      le := hd.le
      base := hbase
      short := by
        show c.oooTrim.oooBuf.length ≤ _
        rw [hbuf, List.length_drop]
        exact (Nat.sub_le ..).trans hd.short
      blocks := by
        intro b hb
        unfold sackAdvance at hb
        dsimp only at hb
        rw [hrcv, hblocks, hd.rcvNxt] at hb
        obtain ⟨⟨bl, br⟩, hmem, hsome⟩ := List.mem_filterMap.mp hb
        obtain ⟨x, y, heq, hx, hxy, hy, hgood⟩ := hd.blocks _ hmem
        cases heq
        dsimp only at hsome
        split at hsome
        · next hlt =>
          rw [seqLt_seqAt (by omega) (by omega)] at hlt
          have hblock : b = (seqAt irs (max x r'), seqAt irs y) := by
            rw [← Option.some.inj hsome]
            split
            · next hbehind =>
              rw [seqLt_seqAt (by omega) (by omega)] at hbehind
              rw [Nat.max_eq_right (Nat.le_of_lt hbehind)]
            · next hbehind =>
              rw [seqLt_seqAt (by omega) (by omega)] at hbehind
              rw [Nat.max_eq_left (by omega)]
          refine ⟨max x r', y, hblock, by omega, by omega, ?_, ?_⟩
          · show y ≤ r' + c.oooTrim.oooBuf.length
            rw [hbuf, List.length_drop]
            omega
          · intro i hlo hhi
            show c.oooTrim.oooBuf[i - r']? = _
            have hbyte : c.oooBuf[i - r]? = stream[i]? := hgood i (by omega) hhi
            rw [hbuf, List.getElem?_drop, ← hbyte]
            congr 1
            omega
        · exact absurd hsome (by simp) }

/-! ## Data segments -/

/-- A payload is a piece of the stream at position `p`. -/
def PieceAt (stream : List UInt8) (p : Nat) (payload : List UInt8) : Prop :=
  payload <+: stream.drop p

variable {payload : List UInt8}

theorem PieceAt.le {p : Nat} (h : PieceAt stream p payload)
    (hne : payload ≠ []) : p + payload.length ≤ stream.length := by
  have hlen := h.length_le
  rw [List.length_drop] at hlen
  have hpos := List.length_pos_iff.mpr hne
  omega

theorem PieceAt.getElem? {p i : Nat} (h : PieceAt stream p payload)
    (hi : i < payload.length) : payload[i]? = stream[p + i]? := by
  obtain ⟨rest, hrest⟩ := h
  rw [← List.getElem?_drop, ← hrest, List.getElem?_append_left hi]

/-- **In-order data.** The receive buffer gains the next bytes of the stream, the receive position moves by
as many, and the SACK blocks and the buffer stay in step. -/
theorem inOrderData_spec {c c' : TcpConnection}
    (hb : c.Buffered irs stream r) (hpiece : PieceAt stream r payload)
    (hlen : payload.length < 2 ^ 16) (hne : payload ≠ []) (h : c.inOrderData payload = some c') :
    ∃ r', r ≤ r' ∧ r' < r + 2 ^ 18 ∧ c'.Buffered irs stream r' ∧
      c'.rxBuffer = extendRx c.localReadClosed stream c.rxBuffer r r' := by
  set n := c.accepted payload with hn
  have hle : n ≤ payload.length := Nat.min_le_left ..
  have hend := hpiece.le hne
  have haccept : (c.accept payload).rxBuffer
      = extendRx c.localReadClosed stream c.rxBuffer r (r + n) := by
    show (if c.localReadClosed then c.rxBuffer else c.rxBuffer ++ payload.take n) = _
    have hbytes : payload.take n = (stream.drop r).take (r + n - r) := by
      have hadd : r + n - r = n := by omega
      rw [hadd]
      have := take_drop_congr (l := payload) (m := stream) (a := 0) (b := r) (n := n) (by
        intro i hi
        rw [Nat.zero_add]
        exact hpiece.getElem? (by omega))
      rwa [List.drop_zero] at this
    unfold extendRx
    rw [hbytes]
  have hrcv : (c.accept payload).rcvNxt = seqAt irs (r + n) := by
    show c.rcvNxt + BitVec.ofNat 32 n = _
    rw [hb.rcvNxt, seqAt_add]
  obtain ⟨d, hdeliver, rfl⟩ := Option.map_eq_some_iff.mp h
  unfold oooDeliver at hdeliver
  by_cases hempty : (c.accept payload).oooBuf = []
  · -- Nothing is buffered, so no block promises anything.
    rw [if_pos hempty] at hdeliver
    cases hdeliver
    have hbuf : c.oooBuf = [] := hempty
    refine ⟨r + n, by omega, by omega, ?_, haccept⟩
    exact
      { rcvNxt := hrcv
        le := by omega
        base := fun hne => absurd hempty hne
        short := hb.short
        blocks := by
          intro b hmem
          unfold sackAdvance at hmem
          dsimp only at hmem
          obtain ⟨⟨bl, br⟩, hold, hsome⟩ := List.mem_filterMap.mp hmem
          obtain ⟨x, y, heq, hx, hxy, hy, -⟩ := hb.blocks _ hold
          cases heq
          rw [hbuf, List.length_nil] at hy
          dsimp only at hsome
          rw [hrcv] at hsome
          split at hsome
          · next hlt =>
            rw [seqLt_seqAt (by omega) (by omega)] at hlt
            omega
          · exact absurd hsome (by simp) }
  · rw [if_neg hempty] at hdeliver
    obtain ⟨e, hrounds, rfl⟩ := Option.map_eq_some_iff.mp hdeliver
    have hdelivering : (c.accept payload).Delivering irs stream r (r + n) :=
      { rcvNxt := hrcv
        ge := by omega
        near := by omega
        le := by omega
        base := hb.base hempty
        short := hb.short
        blocks := hb.blocks }
    obtain ⟨r', hr', hd', -, hrx⟩ := oooRounds_spec hdelivering hrounds
    have hkeeps : e.oooTrim.sackAdvance.rxBuffer = e.rxBuffer := e.sackAdvance_oooTrim_rxBuffer
    refine ⟨r', by omega, hd'.near, sackAdvance_oooTrim hd', ?_⟩
    rw [hkeeps, hrx, haccept]
    exact extendRx_trans _ _ _ (by omega) hr'

/-- **Out-of-order data** that fits the buffer: its range is recorded and its bytes are stored. -/
theorem outOfOrderData_spec {r p : Nat}
    (hb : c.Buffered irs stream r) (hpiece : PieceAt stream p payload) (hne : payload ≠ [])
    (hafter : r < p) (hfits : p + payload.length ≤ r + maxOooBuf) :
    (c.outOfOrderData (seqAt irs p) payload).Buffered irs stream r ∧
      (c.outOfOrderData (seqAt irs p) payload).rxBuffer = c.rxBuffer := by
  have hshort : c.oooBuf.length ≤ 65536 := hb.short
  have hmax : maxOooBuf = 65536 := rfl
  have hpos := List.length_pos_iff.mpr hne
  set e := c.sackInsert (seqAt irs p) (seqAt irs p + BitVec.ofNat 32 payload.length) with he
  have hstored : c.outOfOrderData (seqAt irs p) payload =
      { e with
        oooBase := seqAt irs r
        oooBuf := GrowingBuffer.write 0 c.oooBuf (p - r) payload } := by
    have hrebase : e.oooRebase = { e with oooBase := seqAt irs r } := by
      unfold oooRebase
      split
      · rw [show e.rcvNxt = c.rcvNxt from rfl, hb.rcvNxt]
      · next hfull =>
        rw [← hb.base hfull]
        rfl
    have hbehind : ¬ seqLt (seqAt irs p) (seqAt irs r) = true := by
      rw [seqLt_seqAt (by omega) (by omega)]
      omega
    have hoff : (seqAt irs p - seqAt irs r).toNat = p - r := seqAt_sub (by omega) (by omega)
    show e.oooStore (seqAt irs p) payload = _
    unfold oooStore
    rw [if_neg hne, hrebase]
    unfold oooStoreFrom
    dsimp only
    rw [if_neg hbehind]
    unfold oooPlace
    dsimp only
    rw [hoff, if_neg (by omega)]
    rfl
  rw [hstored]
  refine ⟨?_, rfl⟩
  have hlen : (GrowingBuffer.write 0 c.oooBuf (p - r) payload).length
      = max c.oooBuf.length (p - r + payload.length) := GrowingBuffer.length_write ..
  -- A position of the new buffer holds the stream's byte if it did before or is part of the payload.
  have hnew (i : Nat) (hlo : p ≤ i) (hhi : i < p + payload.length) :
      (GrowingBuffer.write 0 c.oooBuf (p - r) payload)[i - r]? = stream[i]? := by
    rw [GrowingBuffer.getElem?_write_of_mem (by omega) (by omega), hpiece.getElem? (by omega)]
    congr 1
    omega
  have hold (i : Nat) (hlo : r ≤ i) (hhi : i < r + c.oooBuf.length)
      (hgood : c.oooBuf[i - r]? = stream[i]?) :
      (GrowingBuffer.write 0 c.oooBuf (p - r) payload)[i - r]? = stream[i]? := by
    by_cases hin : p ≤ i ∧ i < p + payload.length
    · exact hnew i hin.1 hin.2
    · rw [GrowingBuffer.getElem?_write_of_notMem (by omega) (by omega), hgood]
  exact
    { rcvNxt := hb.rcvNxt
      le := hb.le
      base := fun _ => rfl
      short := by
        show (GrowingBuffer.write 0 c.oooBuf (p - r) payload).length ≤ _
        omega
      blocks := by
        show ∀ b ∈ e.sackBlocks, GoodBlock irs
          (fun i => (GrowingBuffer.write 0 c.oooBuf (p - r) payload)[i - r]? = stream[i]?) r
          (r + (GrowingBuffer.write 0 c.oooBuf (p - r) payload).length) b
        refine sackInsert_good (by omega) ?_ ?_
        · intro b hmem
          exact (hb.blocks b hmem).mono (by omega) hold
        · refine ⟨p, p + payload.length, ?_, by omega, by omega, by omega, hnew⟩
          rw [seqAt_add] }

end TcpConnection

end SlateOS.Net.Tcp
