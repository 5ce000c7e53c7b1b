/-
# SlateOS.Mm.Compress -- in-memory page compression

`kernel/src/mm/compress.rs`: `compress_into` and `decompress_into` on the callers' buffers. Lengths and
positions are those of slices in memory, so that the additions the source saturates do not reach the
largest `usize` and are plain additions here.
-/
import Mathlib.Algebra.Group.Nat.Defs
import Mathlib.Data.List.Basic

namespace SlateOS.Mm.Compress

/-- `u8`. -/
abbrev Byte := BitVec 8

/-- `ZERO_PAGE_MARKER`. -/
def zeroPageMarker : Byte := 0xFF

/-- `MIN_MATCH`. -/
def minMatch : Nat := 4

/-- `HASH_TABLE_SIZE`. -/
def hashTableSize : Nat := 4096

/-- `HASH_TABLE_MASK`. -/
def hashTableMask : Nat := hashTableSize - 1

/-- `MAX_OUTPUT_FACTOR`. -/
def maxOutputFactor : Nat := 1

/-- `Out`: a buffer being filled from the front. -/
structure Out where
  buf : List Byte
  len : Nat

namespace Out

/-- `push`. -/
def push (out : Out) (b : Byte) : Option Out :=
  if out.len < out.buf.length then some { buf := out.buf.set out.len b, len := out.len + 1 }
  else none

/-- `extend`. -/
def extend (out : Out) (bytes : List Byte) : Option Out :=
  if out.len + bytes.length ≤ out.buf.length then
    some {
      buf := out.buf.take out.len ++ bytes ++ out.buf.drop (out.len + bytes.length)
      len := out.len + bytes.length }
  else none

end Out

/-- `is_all_zero`. -/
def isAllZero (data : List Byte) : Bool := data.all (· == 0)

/-- `read_u32_le`. -/
def readU32Le (data : List Byte) (pos : Nat) : BitVec 32 :=
  if pos + 4 > data.length then 0
  else
    match (data.drop pos).take 4 with
    | [b0, b1, b2, b3] =>
      BitVec.ofNat 32 (b0.toNat + 2 ^ 8 * b1.toNat + 2 ^ 16 * b2.toNat + 2 ^ 24 * b3.toNat)
    | _ => 0

/-- `hash4`. -/
def hash4 (data : List Byte) (pos : Nat) : Nat :=
  ((readU32Le data pos * 2654435761) >>> 20).toNat &&& hashTableMask

/-- `matches_at`. -/
def matchesAt (data : List Byte) (a b : Nat) : Bool := readU32Le data a == readU32Le data b

/-- The loop of `extend_match`, from a length that is known to match. -/
def extendFrom (data : List Byte) (src dst limit len : Nat) : Nat :=
  if dst + len < limit ∧ src + len < data.length ∧ data[src + len]? = data[dst + len]? then
    extendFrom data src dst limit (len + 1)
  else len
termination_by limit - (dst + len)

/-- `extend_match`. -/
def extendMatch (data : List Byte) (src dst limit : Nat) : Nat :=
  extendFrom data src dst limit minMatch

/-- `write_extra_len`. -/
def writeExtraLen (out : Out) (remaining : Nat) : Option Out :=
  if remaining ≥ 255 then (out.push 255).bind fun out => writeExtraLen out (remaining - 255)
  else out.push (BitVec.ofNat 8 remaining)
termination_by remaining
decreasing_by omega

/-- The continuation bytes of a length of which 15 is in the token. -/
def writeLenTail (out : Out) (len : Nat) : Option Out :=
  if len ≥ 15 then writeExtraLen out (len - 15) else some out

/-- A length's field of the token: 15 says that more bytes follow. -/
def lenField (len : Nat) : Byte := if len ≥ 15 then 15 else BitVec.ofNat 8 len

/-- The token byte. -/
def token (litField matField : Byte) : Byte := (litField <<< 4) ||| matField

/-- `data.get(start..start + len)`. -/
def slice (data : List Byte) (start len : Nat) : Option (List Byte) :=
  if start + len ≤ data.length then some ((data.drop start).take len) else none

/-- `write_sequence`. -/
def writeSequence (out : Out) (input : List Byte) (literalStart literalLen offset matchLen : Nat)
    (isLast : Bool) : Option Out := do
  let matField := if isLast then 0 else lenField (matchLen - minMatch)
  let out ← out.push (token (lenField literalLen) matField)
  let out ← writeLenTail out literalLen
  let literals ← slice input literalStart literalLen
  let out ← out.extend literals
  if isLast then some out
  else
    let out ← out.push (BitVec.ofNat 8 (offset &&& 0xFF))
    let out ← out.push (BitVec.ofNat 8 ((offset >>> 8) &&& 0xFF))
    writeLenTail out (matchLen - minMatch)

/-- The loop of `compress_into`: where the last match ended, and the output. -/
def compressFrom (input : List Byte) (ip anchor : Nat) (table : List (BitVec 32)) (out : Out) :
    Option (Nat × Out) :=
  if ip < input.length - 5 then
    let h := hash4 input ip
    let candidate := (table[h]?.getD 0).toNat
    let table := table.set h (BitVec.ofNat 32 ip)
    -- the source's difference wraps where it is negative, which the third test refuses as well
    let offset := ip - candidate
    if offset = 0 ∨ offset > 0xFFFF ∨ candidate ≥ ip ∨ matchesAt input candidate ip = false then
      compressFrom input (ip + 1) anchor table out
    else
      let matchLen := extendMatch input candidate ip (input.length - minMatch)
      if hshort : matchLen < minMatch then compressFrom input (ip + 1) anchor table out
      else
        (writeSequence out input anchor (ip - anchor) offset matchLen false).bind fun out =>
          compressFrom input (ip + matchLen) (ip + matchLen) table out
  else some (anchor, out)
termination_by input.length - ip
decreasing_by
  · omega
  · omega
  · have hpos : 0 < matchLen := by
      rw [minMatch] at hshort
      omega
    exact Nat.sub_lt_sub_left (by omega) (Nat.lt_add_of_pos_right hpos)

/-- The final literal run of `compress_into`. -/
def writeLast (input : List Byte) (anchor : Nat) (out : Out) : Option Out :=
  if anchor < input.length then
    writeSequence out input anchor (input.length - anchor) 0 0 true
  else some out

/-- `compress_into`: the compressed length and the output buffer. -/
def compressInto (input output : List Byte) (table : List (BitVec 32)) :
    Option (Nat × List Byte) :=
  if input.isEmpty then some (0, output)
  else if isAllZero input then
    if output.isEmpty then none else some (1, output.set 0 zeroPageMarker)
  else if table.length < hashTableSize then none
  else do
    let (anchor, out) ← compressFrom input 0 0 (List.replicate hashTableSize 0) { buf := output, len := 0 }
    let out ← writeLast input anchor out
    if out.len ≥ input.length * maxOutputFactor then none else some (out.len, out.buf)

/-- `CompressError`. -/
inductive CompressError
  | truncated
  | invalidOffset
  | sizeMismatch (expected got : Nat)
  deriving DecidableEq

/-- The continuation bytes of a length; `rest` is the input behind `ip`. -/
def readExtraLen (len : Nat) : List Byte → Except CompressError (Nat × List Byte)
  | [] => .error .truncated
  | extra :: rest =>
    if extra ≠ 255 then .ok (len + extra.toNat, rest) else readExtraLen (len + extra.toNat) rest

/-- A length, with its continuation bytes where its field is full. -/
def readLenTail (full len : Nat) (rest : List Byte) : Except CompressError (Nat × List Byte) :=
  if len ≥ full then readExtraLen len rest else .ok (len, rest)

/-- The byte-by-byte copy of `n` more bytes of a match. -/
def copyMatch (offset outEnd : Nat) : Nat → Out → Except CompressError Out
  | 0, output => .ok output
  | n + 1, output =>
    match output.buf[output.len - offset]? with
    | none => .error .invalidOffset
    | some b =>
      match output.push b with
      | none => .error (.sizeMismatch output.buf.length outEnd)
      | some output => copyMatch offset outEnd n output

/-- The match of a sequence, from its offset on. -/
def decompressMatch (matchField : Nat) (lo hi : Byte) (rest : List Byte) (output : Out) :
    Except CompressError (List Byte × Out) :=
  let offset := (hi.toNat <<< 8) ||| lo.toNat
  if offset = 0 ∨ offset > output.len then .error .invalidOffset
  else
    match readLenTail (minMatch + 15) (matchField + minMatch) rest with
    | .error e => .error e
    | .ok (matchLen, rest) =>
      let outEnd := output.len + matchLen
      if outEnd > output.buf.length then .error (.sizeMismatch output.buf.length outEnd)
      else (copyMatch offset outEnd matchLen output).map fun output => (rest, output)

/-- The literals of a sequence, from behind its token on. -/
def decompressLiterals (litField : Nat) (rest : List Byte) (output : Out) :
    Except CompressError (List Byte × Out) :=
  match readLenTail 15 litField rest with
  | .error e => .error e
  | .ok (literalLen, rest) =>
    if rest.length < literalLen then .error .truncated
    else
      match output.extend (rest.take literalLen) with
      | none => .error (.sizeMismatch output.buf.length (output.len + literalLen))
      | some output => .ok (rest.drop literalLen, output)

/-- The loop of `decompress_into`: `rest` is the input from `ip` on, and `output.len` is `pos`. Every
round takes at least its token, so that the input's length bounds the rounds. -/
def decompressFrom : Nat → List Byte → Out → Except CompressError Out
  | 0, _, output => .ok output
  | _ + 1, [], output => .ok output
  | rounds + 1, tok :: rest, output =>
    match decompressLiterals ((tok >>> 4) &&& 0x0F).toNat rest output with
    | .error e => .error e
    | .ok ([], output) => .ok output
    | .ok ([_], _) => .error .truncated
    | .ok (lo :: hi :: rest, output) =>
      match decompressMatch (tok &&& 0x0F).toNat lo hi rest output with
      | .error e => .error e
      | .ok (rest, output) => decompressFrom rounds rest output

/-- `decompress_into`: the output buffer. -/
def decompressInto (input output : List Byte) : Except CompressError (List Byte) :=
  if input.isEmpty then
    if output.length = 0 then .ok output else .error (.sizeMismatch output.length 0)
  else if input = [zeroPageMarker] then .ok (output.map fun _ => 0)
  else
    match decompressFrom input.length input { buf := output, len := 0 } with
    | .error e => .error e
    | .ok out =>
      if out.len ≠ output.length then .error (.sizeMismatch output.length out.len)
      else .ok out.buf

end SlateOS.Mm.Compress
