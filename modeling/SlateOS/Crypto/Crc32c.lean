/-
# SlateOS.Crypto.Crc32c -- the Castagnoli checksum

`kernel/src/crypto.rs`: the reflected, table-driven CRC-32C that ext4's metadata checksums use.
-/
import Mathlib.Logic.Basic

namespace SlateOS.Crypto

/-- One round of the bit-at-a-time algorithm, with the reversed polynomial. -/
def crc32cRound (crc : BitVec 32) : BitVec 32 :=
  if crc &&& 1#32 ≠ 0#32 then (crc >>> 1) ^^^ 0x82F63B78#32 else crc >>> 1

/-- `CRC32C_TABLE`. -/
def crc32cTable (idx : BitVec 32) : BitVec 32 := Nat.repeat crc32cRound 8 idx

/-- `crc32c_raw`. -/
def crc32cRaw (seed : BitVec 32) (data : List (BitVec 8)) : BitVec 32 :=
  data.foldl
    (fun crc byte => crc32cTable ((crc ^^^ byte.setWidth 32) &&& 0xFF#32) ^^^ (crc >>> 8)) seed

/-- `crc32c_seed`. -/
def crc32cSeed (seed : BitVec 32) (data : List (BitVec 8)) : BitVec 32 :=
  crc32cRaw seed data ^^^ ~~~0#32

/-- The standard check value, of the digits one to nine. -/
example : crc32cSeed (~~~0#32) [0x31, 0x32, 0x33, 0x34, 0x35, 0x36, 0x37, 0x38, 0x39] = 0xE3069283 := by
  decide +kernel

end SlateOS.Crypto
