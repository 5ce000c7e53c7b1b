/-
# SlateOS.Mm.CompressRoundTrip -- what the compressor writes, the decompressor reads

The output of the compressor is an encoding of sequences whose expansion is the input; the decompressor
expands what is so encoded. The two loops meet in the encoding, so that neither proof looks at the
other's code.
-/
import SlateOS.Foundation.Lz77
import SlateOS.Mm.Compress

namespace SlateOS.Mm.Compress

open Foundation.Lz77

/-! ## Filling a buffer -/

namespace Out

/-- The part of the buffer that is filled. -/
def written (out : Out) : List Byte := out.buf.take out.len

/-- `out'` is `out` with `bytes` behind what was written, and nothing else changed. -/
structure Appends (out out' : Out) (bytes : List Byte) : Prop where
  written : out'.written = out.written ++ bytes
  len : out'.len = out.len + bytes.length
  fits : out'.len ≤ out'.buf.length
  size : out'.buf.length = out.buf.length
  behind : out'.buf.drop out'.len = out.buf.drop out'.len

variable {out out' out'' : Out} {b : Byte} {bytes bytes' : List Byte}

theorem length_written (h : out.len ≤ out.buf.length) : out.written.length = out.len :=
  List.length_take_of_le h

theorem Appends.refl (h : out.len ≤ out.buf.length) : Appends out out [] where
  written := (List.append_nil _).symm
  len := rfl
  fits := h
  size := rfl
  behind := rfl

theorem Appends.trans (h : Appends out out' bytes) (h' : Appends out' out'' bytes') :
    Appends out out'' (bytes ++ bytes') where
  written := by rw [h'.written, h.written, List.append_assoc]
  len := by
    rw [h'.len, h.len, List.length_append]
    omega
  fits := h'.fits
  size := h'.size.trans h.size
  behind := by
    have hsplit : ∀ l : List Byte, l.drop out''.len = (l.drop out'.len).drop bytes'.length := by
      intro l
      rw [List.drop_drop, h'.len]
    rw [h'.behind, hsplit, h.behind, ← hsplit]

theorem extend_of_le (h : out.len + bytes.length ≤ out.buf.length) :
    ∃ out', out.extend bytes = some out' ∧ Appends out out' bytes := by
  have htake : (out.buf.take out.len).length = out.len := List.length_take_of_le (by omega)
  have hfilled : (out.buf.take out.len ++ bytes).length = out.len + bytes.length := by
    rw [List.length_append, htake]
  have hsize : (out.buf.take out.len ++ bytes ++ out.buf.drop (out.len + bytes.length)).length =
      out.buf.length := by
    rw [List.length_append, hfilled, List.length_drop]
    omega
  exact ⟨_, if_pos h, {
    written := List.take_left' hfilled
    len := rfl
    fits := hsize ▸ h
    size := hsize
    behind := List.drop_left' hfilled }⟩

theorem appends_of_extend (h : out.extend bytes = some out') : Appends out out' bytes := by
  unfold extend at h
  split at h
  · rename_i hfits
    obtain ⟨out'', hrun, hspec⟩ := extend_of_le hfits
    rw [extend, if_pos hfits] at hrun
    rw [← Option.some.inj h, Option.some.inj hrun]
    exact hspec
  · simp at h

/-- A byte is pushed as a slice of one. -/
theorem push_eq_extend (out : Out) (b : Byte) : out.push b = out.extend [b] := by
  unfold push extend
  rw [List.length_singleton]
  by_cases h : out.len < out.buf.length
  · rw [if_pos h, if_pos (show out.len + 1 ≤ out.buf.length by omega),
      List.set_eq_take_append_cons_drop, if_pos h, List.append_assoc]
    rfl
  · rw [if_neg h, if_neg (by omega)]

theorem appends_of_push (h : out.push b = some out') : Appends out out' [b] :=
  appends_of_extend (push_eq_extend out b ▸ h)

theorem push_of_lt (h : out.len < out.buf.length) :
    ∃ out', out.push b = some out' ∧ Appends out out' [b] := by
  rw [push_eq_extend]
  exact extend_of_le h

end Out

open Out

/-! ## The encoding of a sequence -/

/-- A length's continuation bytes. -/
def extraLen (n : Nat) : List Byte :=
  if n ≥ 255 then 255 :: extraLen (n - 255) else [BitVec.ofNat 8 n]
termination_by n
decreasing_by omega

/-- What follows the token for a length. -/
def lenTail (len : Nat) : List Byte := if len ≥ 15 then extraLen (len - 15) else []

/-- The two bytes of an offset. -/
def offsetBytes (offset : Nat) : List Byte :=
  [BitVec.ofNat 8 (offset &&& 0xFF), BitVec.ofNat 8 ((offset >>> 8) &&& 0xFF)]

/-- The encoding of a sequence. -/
def encode (s : Sequence Byte) : List Byte :=
  token (lenField s.literals.length) (lenField (s.length - minMatch)) ::
    (lenTail s.literals.length ++ (s.literals ++ (offsetBytes s.offset ++
      lenTail (s.length - minMatch))))

/-- The encoding of the literals at the end. -/
def encodeLast (literals : List Byte) : List Byte :=
  token (lenField literals.length) 0 :: (lenTail literals.length ++ literals)

/-- Sequences that a stream can carry, when `pos` bytes are there before them. -/
def Encodable : List (Sequence Byte) → Nat → Prop
  | [], _ => True
  | s :: rest, pos =>
    (0 < s.offset ∧ s.offset ≤ 0xFFFF ∧ s.offset ≤ pos + s.literals.length ∧ minMatch ≤ s.length) ∧
      Encodable rest (pos + s.literals.length + s.length)

variable {out out' : Out}

theorem writeExtraLen_spec {n : Nat} (h : writeExtraLen out n = some out') :
    Appends out out' (extraLen n) := by
  induction n using extraLen.induct generalizing out with
  | case1 n hn ih =>
    rw [writeExtraLen, if_pos hn] at h
    obtain ⟨mid, hmid, hrest⟩ := Option.bind_eq_some_iff.1 h
    rw [extraLen, if_pos hn]
    exact (appends_of_push hmid).trans (ih hrest)
  | case2 n hn =>
    rw [writeExtraLen, if_neg hn] at h
    rw [extraLen, if_neg hn]
    exact appends_of_push h

theorem writeLenTail_spec {len : Nat} (hfits : out.len ≤ out.buf.length)
    (h : writeLenTail out len = some out') : Appends out out' (lenTail len) := by
  unfold writeLenTail at h
  unfold lenTail
  split at h
  · rename_i hlen
    rw [if_pos hlen]
    exact writeExtraLen_spec h
  · rename_i hlen
    rw [if_neg hlen, ← Option.some.inj h]
    exact Appends.refl hfits

theorem slice_eq_some {data bytes : List Byte} {start len : Nat}
    (h : slice data start len = some bytes) :
    bytes = (data.drop start).take len ∧ bytes.length = len ∧ start + len ≤ data.length := by
  unfold slice at h
  split at h
  · rename_i hrange
    cases h
    refine ⟨rfl, ?_, hrange⟩
    rw [List.length_take, List.length_drop]
    omega
  · simp at h

/-- What `write_sequence` appends. -/
theorem writeSequence_spec {input : List Byte} {start len offset matchLen : Nat} {isLast : Bool}
    (h : writeSequence out input start len offset matchLen isLast = some out') :
    start + len ≤ input.length ∧ Appends out out'
      (if isLast then encodeLast ((input.drop start).take len)
        else encode ⟨(input.drop start).take len, offset, matchLen⟩) := by
  unfold writeSequence at h
  simp only [Option.bind_eq_bind, Option.bind_eq_some_iff] at h
  obtain ⟨out₁, htoken, out₂, hlit, literals, hslice, out₃, hbytes, h⟩ := h
  obtain ⟨hliterals, hlen, hrange⟩ := slice_eq_some hslice
  have h₁ := appends_of_push htoken
  have h₂ := h₁.trans (writeLenTail_spec h₁.fits hlit)
  have h₃ := h₂.trans (appends_of_extend hbytes)
  rw [← hliterals]
  refine ⟨hrange, ?_⟩
  cases isLast with
  | true =>
    rw [if_pos rfl] at h
    rw [if_pos rfl, encodeLast, hlen, ← Option.some.inj h]
    simpa using h₃
  | false =>
    simp only [Bool.false_eq_true, if_false, Option.bind_eq_some_iff] at h
    obtain ⟨out₄, hlo, out₅, hhi, htail⟩ := h
    have h₄ := (h₃.trans (appends_of_push hlo)).trans (appends_of_push hhi)
    have h₅ := h₄.trans (writeLenTail_spec h₄.fits htail)
    rw [if_neg (by simp), encode, hlen]
    simpa [offsetBytes] using h₅

/-! ## What the compressor writes -/

theorem window_getElem? {data : List Byte} {pos i : Nat} (hi : i < 4) :
    ((data.drop pos).take 4)[i]? = data[pos + i]? := by
  rw [List.getElem?_take_of_lt hi, List.getElem?_drop]

/-- Four bytes have one value. -/
theorem window_eq_of_readU32Le (data : List Byte) {a b : Nat} (ha : a + 4 ≤ data.length)
    (hb : b + 4 ≤ data.length) (h : readU32Le data a = readU32Le data b) :
    (data.drop a).take 4 = (data.drop b).take 4 := by
  have hlen : ∀ pos, pos + 4 ≤ data.length → ((data.drop pos).take 4).length = 4 := by
    intro pos hpos
    rw [List.length_take, List.length_drop]
    omega
  have hlenA := hlen a ha
  have hlenB := hlen b hb
  unfold readU32Le at h
  rw [if_neg (by omega), if_neg (by omega)] at h
  match hA : (data.drop a).take 4, hB : (data.drop b).take 4, hlenA, hlenB with
  | [a0, a1, a2, a3], [b0, b1, b2, b3], _, _ =>
    rw [hA, hB] at h
    have hvalue := congrArg BitVec.toNat h
    simp only [BitVec.toNat_ofNat] at hvalue
    have hbyte : ∀ x : Byte, x.toNat < 256 := fun x => x.isLt
    have := hbyte a0; have := hbyte a1; have := hbyte a2; have := hbyte a3
    have := hbyte b0; have := hbyte b1; have := hbyte b2; have := hbyte b3
    rw [Nat.mod_eq_of_lt (by omega), Nat.mod_eq_of_lt (by omega)] at hvalue
    have h0 : a0 = b0 := BitVec.eq_of_toNat_eq (by omega)
    have h1 : a1 = b1 := BitVec.eq_of_toNat_eq (by omega)
    have h2 : a2 = b2 := BitVec.eq_of_toNat_eq (by omega)
    have h3 : a3 = b3 := BitVec.eq_of_toNat_eq (by omega)
    rw [h0, h1, h2, h3]

/-- The length that `extend_match` answers is one the data repeats itself for. -/
theorem extendFrom_spec {data : List Byte} {src dst len : Nat} (limit : Nat)
    (h : ∀ i, i < len → data[src + i]? = data[dst + i]?) :
    len ≤ extendFrom data src dst limit len ∧
      dst + extendFrom data src dst limit len ≤ max limit (dst + len) ∧
      ∀ i, i < extendFrom data src dst limit len → data[src + i]? = data[dst + i]? := by
  fun_induction extendFrom data src dst limit len with
  | case1 len hmore ih =>
    obtain ⟨hle, hlimit, hrepeat⟩ := ih fun i hi => by
      obtain hi | rfl := Nat.lt_succ_iff_lt_or_eq.1 hi
      · exact h i hi
      · exact hmore.2.2
    exact ⟨by omega, by omega, hrepeat⟩
  | case2 len hstop => exact ⟨Nat.le_refl _, Nat.le_max_right _ _, h⟩

/-- The loop writes sequences that expand to the input up to where the last match ends. -/
theorem compressFrom_spec {input : List Byte} {ip anchor anchor' : Nat} {table : List (BitVec 32)}
    (hfits : out.len ≤ out.buf.length) (hanchor : anchor ≤ ip) (hip : ip ≤ input.length)
    (h : compressFrom input ip anchor table out = some (anchor', out')) :
    ∃ seqs, Appends out out' (seqs.flatMap encode) ∧
      expand seqs (input.take anchor) = some (input.take anchor') ∧
      Encodable seqs anchor ∧ (anchor < input.length → anchor' < input.length) := by
  fun_induction compressFrom input ip anchor table out with
  | case1 ip anchor table out hmore hash candidate table' offset hskip ih =>
    exact ih hfits (by omega) (by omega) h
  | case2 ip anchor table out hmore hash candidate table' offset hfound matchLen hshort ih =>
    exact ih hfits (by omega) (by omega) h
  | case3 ip anchor table out hmore hash candidate table' offset hfound matchLen hlong ih =>
    obtain ⟨mid, hwrite, hrest⟩ := Option.bind_eq_some_iff.1 h
    obtain ⟨hrange, happends⟩ := writeSequence_spec hwrite
    rw [if_neg (by simp)] at happends
    simp only [not_or, Bool.not_eq_false] at hfound
    obtain ⟨hoffset, hnear, hbefore, hmatches⟩ := hfound
    have hwindow := window_eq_of_readU32Le input (a := candidate) (b := ip) (by omega)
      (by omega) (by simpa [matchesAt] using hmatches)
    have hfirst : ∀ i, i < minMatch → input[candidate + i]? = input[ip + i]? := by
      intro i hi
      rw [← window_getElem? hi, hwindow, window_getElem? hi]
    obtain ⟨hmin, hlimit, hrepeat⟩ := extendFrom_spec (input.length - minMatch) hfirst
    replace hmin : minMatch ≤ matchLen := hmin
    replace hlimit : ip + matchLen ≤ max (input.length - minMatch) (ip + minMatch) := hlimit
    replace hrepeat : ∀ i, i < matchLen → input[candidate + i]? = input[ip + i]? := hrepeat
    have hminMatch : minMatch = 4 := rfl
    have hend : ip + matchLen < input.length := by omega
    obtain ⟨seqs, hseqs, hexpand, hencodable, hlast⟩ := ih mid happends.fits (Nat.le_refl _) (by omega)
      hrest
    refine ⟨⟨(input.drop anchor).take (ip - anchor), offset, matchLen⟩ :: seqs, ?_, ?_, ?_, ?_⟩
    · rw [List.flatMap_cons]
      exact happends.trans hseqs
    · have hliterals : input.take anchor ++ (input.drop anchor).take (ip - anchor) = input.take ip := by
        rw [← List.take_add]
        congr 1
        omega
      have hcopy : copyBack offset matchLen (input.take ip) = some (input.take (ip + matchLen)) := by
        apply copyBack_take (by omega) (by omega) (by omega)
        intro i hi hi'
        have hsame := hrepeat (i - ip) (by omega)
        rwa [show candidate + (i - ip) = i - offset by omega, show ip + (i - ip) = i by omega] at hsame
      show (copyBack offset matchLen (input.take anchor ++ _)).bind (expand seqs) = _
      rw [hliterals, hcopy, Option.bind_some, hexpand]
    · have hlen : ((input.drop anchor).take (ip - anchor)).length = ip - anchor := by
        rw [List.length_take, List.length_drop]
        omega
      have hmid : anchor + ((input.drop anchor).take (ip - anchor)).length = ip := by omega
      show (0 < offset ∧ offset ≤ 0xFFFF ∧ offset ≤ anchor + _ ∧ minMatch ≤ matchLen) ∧
        Encodable seqs (anchor + _ + matchLen)
      rw [hmid]
      exact ⟨⟨by omega, by omega, by omega, hmin⟩, hencodable⟩
    · exact fun _ => hlast hend
  | case4 ip anchor table out hdone =>
    cases h
    exact ⟨[], Appends.refl hfits, rfl, trivial, id⟩

/-! ## What the decompressor reads -/

theorem lenField_eq (n : Nat) : lenField n = BitVec.ofNat 8 (min n 15) := by
  unfold lenField
  split
  · rw [Nat.min_eq_right (by assumption)]
    rfl
  · rw [Nat.min_eq_left (by omega)]

/-- The token gives both its fields back. -/
theorem token_fields :
    ∀ a b : Fin 16,
      ((token (BitVec.ofNat 8 a) (BitVec.ofNat 8 b) >>> 4) &&& 0x0F).toNat = a ∧
        (token (BitVec.ofNat 8 a) (BitVec.ofNat 8 b) &&& 0x0F).toNat = b := by
  decide

theorem token_lenField (l m : Nat) :
    ((token (lenField l) (lenField m) >>> 4) &&& 0x0F).toNat = min l 15 ∧
      (token (lenField l) (lenField m) &&& 0x0F).toNat = min m 15 := by
  rw [lenField_eq, lenField_eq]
  exact token_fields ⟨min l 15, by omega⟩ ⟨min m 15, by omega⟩

theorem offset_of_bytes {offset : Nat} (h : offset ≤ 0xFFFF) :
    ((BitVec.ofNat 8 ((offset >>> 8) &&& 0xFF)).toNat <<< 8 |||
      (BitVec.ofNat 8 (offset &&& 0xFF)).toNat) = offset := by
  have hmod : ∀ n, n &&& 0xFF = n % 2 ^ 8 := fun n => Nat.and_two_pow_sub_one_eq_mod n 8
  rw [BitVec.toNat_ofNat, BitVec.toNat_ofNat, hmod, hmod, Nat.mod_mod, Nat.mod_mod,
    ← Nat.shiftLeft_add_eq_or_of_lt (Nat.mod_lt _ (by decide)), Nat.shiftLeft_eq,
    Nat.shiftRight_eq_div_pow]
  omega

theorem readExtraLen_extraLen (n len : Nat) (rest : List Byte) :
    readExtraLen len (extraLen n ++ rest) = .ok (len + n, rest) := by
  induction n using extraLen.induct generalizing len with
  | case1 n hn ih =>
    rw [extraLen, if_pos hn, List.cons_append, readExtraLen, if_neg (by simp), ih]
    have hbyte : (255 : Byte).toNat = 255 := rfl
    rw [hbyte, show len + 255 + (n - 255) = len + n by omega]
  | case2 n hn =>
    have hvalue : (BitVec.ofNat 8 n).toNat = n := by
      rw [BitVec.toNat_ofNat]
      exact Nat.mod_eq_of_lt (by omega)
    have hbyte : BitVec.ofNat 8 n ≠ 255 := by
      intro heq
      have hsame := congrArg BitVec.toNat heq
      rw [hvalue] at hsame
      exact hn (Nat.le_of_eq hsame.symm)
    rw [extraLen, if_neg hn, List.singleton_append, readExtraLen, if_pos hbyte, hvalue]

/-- A length is read back from its field and its tail. -/
theorem readLenTail_lenTail (n base : Nat) (rest : List Byte) :
    readLenTail (base + 15) (min n 15 + base) (lenTail n ++ rest) = .ok (n + base, rest) := by
  unfold readLenTail lenTail
  by_cases hn : n ≥ 15
  · rw [if_pos hn, if_pos (by omega), readExtraLen_extraLen]
    congr 2
    omega
  · rw [if_neg hn, if_neg (by omega), List.nil_append, Nat.min_eq_left (by omega)]

/-- The byte-by-byte copy is the copy back. -/
theorem copyMatch_spec {offset n : Nat} (outEnd : Nat) {w : List Byte} (hpos : 0 < offset)
    (hle : offset ≤ out.len) (hfits : out.len + n ≤ out.buf.length)
    (h : copyBack offset n out.written = some w) :
    ∃ out', copyMatch offset outEnd n out = .ok out' ∧ out'.written = w ∧
      out'.len = out.len + n ∧ out'.buf.length = out.buf.length := by
  induction n generalizing out with
  | zero => exact ⟨out, rfl, Option.some.inj h, rfl, rfl⟩
  | succ n ih =>
    obtain ⟨b, hb, hrest⟩ := Option.bind_eq_some_iff.1 h
    rw [length_written (by omega), written, List.getElem?_take_of_lt (by omega)] at hb
    have hroom : out.len < out.buf.length := by omega
    obtain ⟨mid, hpush, hmid⟩ := push_of_lt (b := b) hroom
    have hlen : mid.len = out.len + 1 := hmid.len
    have hsize := hmid.size
    have hmidRest : copyBack offset n mid.written = some w := by
      rw [hmid.written]
      exact hrest
    obtain ⟨out', hrun, hwritten, hlen', hsize'⟩ := ih (by omega) (by omega) hmidRest
    refine ⟨out', ?_, hwritten, by omega, by omega⟩
    rw [copyMatch, hb]
    simp only [hpush]
    exact hrun

theorem decompressLiterals_spec {literals : List Byte} (rest : List Byte)
    (hfits : out.len + literals.length ≤ out.buf.length) :
    ∃ out', decompressLiterals (min literals.length 15) (lenTail literals.length ++ (literals ++ rest))
        out = .ok (rest, out') ∧ Appends out out' literals := by
  obtain ⟨out', hextend, happends⟩ := extend_of_le hfits
  refine ⟨out', ?_, happends⟩
  have hlen := readLenTail_lenTail literals.length 0 (literals ++ rest)
  rw [Nat.zero_add, Nat.add_zero, Nat.add_zero] at hlen
  unfold decompressLiterals
  rw [hlen]
  simp only
  rw [if_neg (by rw [List.length_append]; omega), List.take_left, hextend, List.drop_left]

theorem decompressMatch_spec {offset length : Nat} {w : List Byte} (rest : List Byte) (hpos : 0 < offset)
    (hnear : offset ≤ 0xFFFF) (hle : offset ≤ out.len) (hmin : minMatch ≤ length)
    (hfits : out.len + length ≤ out.buf.length) (h : copyBack offset length out.written = some w) :
    ∃ out', decompressMatch (min (length - minMatch) 15) (BitVec.ofNat 8 (offset &&& 0xFF))
        (BitVec.ofNat 8 ((offset >>> 8) &&& 0xFF)) (lenTail (length - minMatch) ++ rest) out =
          .ok (rest, out') ∧
      out'.written = w ∧ out'.len = out.len + length ∧ out'.buf.length = out.buf.length := by
  obtain ⟨out', hrun, hspec⟩ := copyMatch_spec (out.len + length) hpos hle hfits h
  refine ⟨out', ?_, hspec⟩
  have hlen := readLenTail_lenTail (length - minMatch) minMatch rest
  rw [show length - minMatch + minMatch = length by omega] at hlen
  unfold decompressMatch
  rw [offset_of_bytes hnear]
  simp only
  rw [if_neg (by omega), hlen]
  simp only
  rw [if_neg (by omega), hrun]
  rfl

/-- The loop expands what is encoded. -/
theorem decompressFrom_spec {seqs : List (Sequence Byte)} {w literals : List Byte} {rounds : Nat}
    (hrounds : seqs.length < rounds) (hin : out.len ≤ out.buf.length)
    (hexpand : expand seqs out.written = some w) (hencodable : Encodable seqs out.len)
    (hfits : w.length + literals.length ≤ out.buf.length) :
    ∃ out', decompressFrom rounds (seqs.flatMap encode ++ encodeLast literals) out = .ok out' ∧
      out'.written = w ++ literals ∧ out'.len = w.length + literals.length ∧
      out'.buf.length = out.buf.length := by
  induction seqs generalizing out rounds with
  | nil =>
    obtain ⟨rounds, rfl⟩ : ∃ k, rounds = k + 1 := ⟨rounds - 1, by omega⟩
    cases hexpand
    rw [length_written hin] at hfits ⊢
    obtain ⟨out', hrun, happends⟩ := decompressLiterals_spec [] hfits
    refine ⟨out', ?_, happends.written, happends.len, happends.size⟩
    rw [List.append_nil] at hrun
    rw [List.flatMap_nil, List.nil_append, encodeLast, decompressFrom,
      show (0 : Byte) = lenField 0 from rfl, (token_lenField _ _).1, hrun]
  | cons s seqs ih =>
    obtain ⟨rounds, rfl⟩ : ∃ k, rounds = k + 1 := ⟨rounds - 1, by omega⟩
    obtain ⟨mid, hcopy, hrest⟩ := Option.bind_eq_some_iff.1 hexpand
    obtain ⟨⟨hpos, hnear, hle, hmin⟩, hencodable⟩ := hencodable
    have hmidLen := length_of_copyBack hcopy
    rw [List.length_append, length_written hin] at hmidLen
    have hgrows := length_le_of_expand hrest
    have hroom : out.len + s.literals.length ≤ out.buf.length := by omega
    obtain ⟨out₁, hrun₁, happends⟩ := decompressLiterals_spec (offsetBytes s.offset ++
      (lenTail (s.length - minMatch) ++ (seqs.flatMap encode ++ encodeLast literals))) hroom
    have hlen₁ := happends.len
    have hsize₁ := happends.size
    have hcopy₁ : copyBack s.offset s.length out₁.written = some mid := by
      rw [happends.written]
      exact hcopy
    obtain ⟨out₂, hrun₂, hwritten₂, hlen₂, hsize₂⟩ :=
      decompressMatch_spec (seqs.flatMap encode ++ encodeLast literals) hpos hnear (by omega) hmin
        (by omega) hcopy₁
    have hrounds₂ : seqs.length < rounds := by
      rw [List.length_cons] at hrounds
      omega
    have hrest₂ : expand seqs out₂.written = some w := by
      rw [hwritten₂]
      exact hrest
    have hencodable₂ : Encodable seqs out₂.len := by
      rw [hlen₂, hlen₁]
      exact hencodable
    obtain ⟨out', hrun, hwritten, hlen, hsize⟩ :=
      ih hrounds₂ (by omega) hrest₂ hencodable₂ (by omega)
    refine ⟨out', ?_, hwritten, hlen, by omega⟩
    rw [List.flatMap_cons, encode]
    simp only [List.cons_append, List.append_assoc]
    rw [decompressFrom, (token_lenField _ _).1, (token_lenField _ _).2, hrun₁]
    simp only [offsetBytes, List.cons_append, List.nil_append]
    rw [hrun₂]
    exact hrun

/-! ## The round trip -/

theorem length_lt_encoded (seqs : List (Sequence Byte)) {literals : List Byte} (h : literals ≠ []) :
    seqs.length + 1 < (seqs.flatMap encode ++ encodeLast literals).length := by
  have hlast : 1 < (encodeLast literals).length := by
    have hpos := List.length_pos_iff.2 h
    simp only [encodeLast, List.length_cons, List.length_append]
    omega
  induction seqs with
  | nil => simpa using hlast
  | cons s seqs ih =>
    rw [List.flatMap_cons, List.append_assoc, List.length_append, List.length_cons]
    have hpos : 0 < (encode s).length := Nat.succ_pos _
    omega

/-- Decompressing an encoding gives back what it expands to. -/
theorem decompressInto_encoded {seqs : List (Sequence Byte)} {w literals buf : List Byte}
    (hliterals : literals ≠ []) (hexpand : expand seqs [] = some w) (hencodable : Encodable seqs 0)
    (hbuf : buf.length = w.length + literals.length) :
    decompressInto (seqs.flatMap encode ++ encodeLast literals) buf = .ok (w ++ literals) := by
  have hlong := length_lt_encoded seqs hliterals
  have hexpandOut : expand seqs (Out.mk buf 0).written = some w := hexpand
  have hfits : w.length + literals.length ≤ (Out.mk buf 0).buf.length := Nat.le_of_eq hbuf.symm
  obtain ⟨out', hrun, hwritten, hlen, hsize⟩ := decompressFrom_spec
    (show seqs.length < (seqs.flatMap encode ++ encodeLast literals).length by omega)
    (Nat.zero_le _) hexpandOut hencodable hfits
  replace hsize : out'.buf.length = buf.length := hsize
  have hstream : (seqs.flatMap encode ++ encodeLast literals).isEmpty = false := by
    rw [List.isEmpty_eq_false_iff]
    intro hnil
    simp [hnil] at hlong
  have hmarker : seqs.flatMap encode ++ encodeLast literals ≠ [zeroPageMarker] := by
    intro heq
    simp [heq] at hlong
  rw [decompressInto, hstream, if_neg (by simp), if_neg hmarker, hrun]
  simp only
  rw [if_neg (by omega), ← hwritten, Out.written, List.take_of_length_le (by omega)]

/-- What a compression that answered left: a short enough output, written nowhere else, that
decompresses to the input. -/
structure Compressed (input output : List Byte) (n : Nat) (output' : List Byte) : Prop where
  smaller : input ≠ [] → n < input.length
  /-- Only the first `n` bytes of the output were written. -/
  frame : n ≤ output'.length ∧ output'.length = output.length ∧ output'.drop n = output.drop n
  roundTrip : ∀ buf : List Byte, buf.length = input.length →
    decompressInto (output'.take n) buf = .ok input

theorem eq_replicate_of_isAllZero {input : List Byte} (h : isAllZero input = true) :
    input = List.replicate input.length 0 := by
  refine List.eq_replicate_iff.2 ⟨rfl, fun b hb => ?_⟩
  simpa using List.all_eq_true.1 h b hb

/-- **The round trip.** Compression keeps its promises on every input but the single zero byte, whose
encoding is one byte as well. -/
theorem compressed_iff (input output : List Byte) (table : List (BitVec 32)) :
    (∀ n output', compressInto input output table = some (n, output') →
      Compressed input output n output') ↔ ¬ (input = [0] ∧ output ≠ []) := by
  constructor
  · rintro h ⟨rfl, hne⟩
    have hrun : compressInto [0] output table = some (1, output.set 0 zeroPageMarker) := by
      rw [compressInto, if_neg (by simp), if_pos (by decide), if_neg (by simpa using hne)]
    exact absurd ((h _ _ hrun).smaller (by simp)) (by simp)
  · intro hzero n output' h
    unfold compressInto at h
    split at h
    · rename_i hnil
      cases h
      rw [List.isEmpty_iff] at hnil
      subst hnil
      refine ⟨fun hne => absurd rfl hne, ⟨Nat.zero_le _, rfl, rfl⟩, fun buf hbuf => ?_⟩
      obtain rfl := List.length_eq_zero_iff.1 hbuf
      rfl
    · rename_i hnonempty
      rw [List.isEmpty_iff] at hnonempty
      split at h
      · rename_i hall
        split at h
        · simp at h
        · rename_i hroom
          cases h
          have hreplicate := eq_replicate_of_isAllZero hall
          have hpos := List.length_pos_iff.2 hnonempty
          rw [List.isEmpty_iff] at hroom
          obtain ⟨b, rest, rfl⟩ := List.exists_cons_of_ne_nil hroom
          refine ⟨fun _ => ?_, ⟨by simp, by simp, by simp⟩, fun buf hbuf => ?_⟩
          · by_contra hshort
            have hone : input.length = 1 := by omega
            rw [hone] at hreplicate
            exact hzero ⟨hreplicate, hroom⟩
          · rw [decompressInto, if_neg (by simp), if_pos (by simp), List.map_const', hbuf,
              ← hreplicate]
      · split at h
        · simp at h
        · simp only [Option.bind_eq_bind, Option.bind_eq_some_iff, Prod.exists] at h
          obtain ⟨anchor, out₁, hloop, out₂, hlast, hsmall⟩ := h
          have hpos := List.length_pos_iff.2 hnonempty
          obtain ⟨seqs, happends, hexpand, hencodable, hbehind⟩ :=
            compressFrom_spec (Nat.zero_le _) (Nat.le_refl 0) (Nat.zero_le _) hloop
          rw [writeLast, if_pos (hbehind hpos)] at hlast
          obtain ⟨_, hliterals⟩ := writeSequence_spec hlast
          rw [if_pos rfl] at hliterals
          have htotal := happends.trans hliterals
          split at hsmall
          · simp at hsmall
          · rename_i hshort
            cases hsmall
            rw [maxOutputFactor, Nat.mul_one] at hshort
            refine ⟨fun _ => by omega, ⟨htotal.fits, htotal.size, htotal.behind⟩, fun buf hbuf => ?_⟩
            have hwritten := htotal.written
            have hrestLen : ((input.drop anchor).take (input.length - anchor)).length =
                input.length - anchor := by
              rw [List.length_take, List.length_drop]
              omega
            have htakeLen : (input.take anchor).length = anchor := List.length_take_of_le (by omega)
            have hwhole : input.take anchor ++ (input.drop anchor).take (input.length - anchor) =
                input := by
              have hall : (input.drop anchor).take (input.length - anchor) = input.drop anchor :=
                List.take_of_length_le (Nat.le_of_eq List.length_drop)
              rw [hall, List.take_append_drop]
            have hlast : (input.drop anchor).take (input.length - anchor) ≠ [] := by
              rw [← List.length_pos_iff]
              omega
            have hbufLen : buf.length = (input.take anchor).length +
                ((input.drop anchor).take (input.length - anchor)).length := by omega
            have hstream := decompressInto_encoded hlast hexpand hencodable hbufLen
            rw [hwhole] at hstream
            rw [Out.written, Out.written, List.take_zero, List.nil_append] at hwritten
            rw [hwritten]
            exact hstream

/-- The single zero byte is answered with one byte. -/
theorem zero_byte_does_not_shrink :
    compressInto [0] [9] (List.replicate 4096 0) = some (1, [zeroPageMarker]) ∧
      ¬ Compressed [0] [9] 1 [zeroPageMarker] := by
  refine ⟨by decide, fun h => ?_⟩
  exact absurd (h.smaller (by simp)) (by simp)

end SlateOS.Mm.Compress
