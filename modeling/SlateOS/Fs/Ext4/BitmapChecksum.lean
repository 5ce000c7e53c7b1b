/-
# SlateOS.Fs.Ext4.BitmapChecksum -- which bitmaps are read back after they are written

`write_block_bitmap` and `write_inode_bitmap` stamp the bitmap's CRC into the group's descriptor, the
upper half only where the descriptor has room for it. `read_block_bitmap` and `read_inode_bitmap` compare
what is stored with the whole CRC, room or no room: a descriptor of 32 bytes verifies a bitmap only when
the upper half of its CRC is zero.
-/
import SlateOS.Fs.Ext4.BallocSpec

namespace SlateOS.Fs.Ext4

open Crypto Kernel

/-- `desc_size` as `parse_superblock` takes it from `s_desc_size`: the sizes the code admits. -/
def parsedDescSize (is64bit : Bool) (sDescSize : BitVec 16) : Nat :=
  if is64bit ∧ sDescSize.toNat ≥ 64 then sDescSize.toNat else 32

/-! ## The stored checksum -/

namespace Kind

/-- Where the upper half of a kind's checksum ends in a descriptor. -/
def checksumEnd : Kind → Nat
  | block => 58
  | inode => 60

variable {kind : Kind} {gd : Ext4GroupDesc} {descSize : Nat} {csum : BitVec 32}

/-- The reader's value of what the writer stamped: all of it, or its lower half. -/
theorem checksum_setChecksum :
    kind.checksum (kind.setChecksum gd descSize csum) descSize =
      if descSize ≥ kind.checksumEnd then csum.toNat else csum.toNat % 2 ^ 16 := by
  -- a half that is not there is a half of zeros for the reader
  have hsplit : ∀ (wide : Bool) (hi : BitVec 16),
      combine 16 wide (BitVec.ofNat 16 csum.toNat).toNat
        (if wide then BitVec.ofNat 16 (csum.toNat >>> 16) else hi).toNat =
          if wide then csum.toNat else csum.toNat % 2 ^ 16 := by
    intro wide hi
    cases wide with
    | true => exact @combine_split 16 csum.toNat true hi csum.isLt
    | false => exact BitVec.toNat_ofNat csum.toNat 16
  cases kind with
  | block =>
    have h := hsplit (decide (descSize ≥ 58)) gd.bgBlockBitmapCsumHi
    simp only [decide_eq_true_eq] at h
    exact h
  | inode =>
    have h := hsplit (decide (descSize ≥ 60)) gd.bgInodeBitmapCsumHi
    simp only [decide_eq_true_eq] at h
    exact h

/-- A stamped descriptor verifies the checksum when there was room for all of it, or no more than the
lower half of it to store. -/
theorem checksum_setChecksum_eq_iff :
    kind.checksum (kind.setChecksum gd descSize csum) descSize = csum.toNat ↔
      descSize ≥ kind.checksumEnd ∨ csum.toNat < 2 ^ 16 := by
  rw [checksum_setChecksum]
  split
  · next hroom => exact iff_of_true rfl (.inl hroom)
  · next hroom =>
    constructor
    · intro h
      exact .inr (h ▸ Nat.mod_lt _ (by decide))
    · intro h
      exact Nat.mod_eq_of_lt (h.resolve_left hroom)

/-- Of the sizes the code admits, all but the smallest have the room. -/
theorem checksumEnd_le_parsedDescSize {is64bit : Bool} {sDescSize : BitVec 16} :
    parsedDescSize is64bit sDescSize ≥ kind.checksumEnd ↔ is64bit ∧ sDescSize.toNat ≥ 64 := by
  have hends : 32 < kind.checksumEnd ∧ kind.checksumEnd ≤ 64 := by cases kind <;> decide
  unfold parsedDescSize
  split
  · next h => exact iff_of_true (by omega) h
  · next h => exact iff_of_false (by omega) h

end Kind

/-! ## Writing and reading back -/

section

variable {kind : Kind} {reader : BlockReader} {sb : ParsedSuperblock} {gd : Ext4GroupDesc}
  {bitmap : List Byte}

/-- A write that the device takes: the descriptor is stamped and the block holds the bitmap. -/
theorem writeBitmap_taken (hcsum : sb.hasMetadataCsum) (hsize : reader.blockSize = sb.blockSize)
    (hlen : bitmap.length = sb.blockSize)
    (hwrite : reader.refusesWrite (kind.bitmapBlock gd sb.is64bit) = none) :
    writeBitmap kind reader sb gd bitmap =
      (.ok (), reader.put (kind.bitmapBlock gd sb.is64bit) bitmap,
        kind.setChecksum gd sb.descSize (computeBitmapChecksum sb bitmap)) := by
  have hput : reader.writeBlock (kind.bitmapBlock gd sb.is64bit) bitmap =
      (.ok (), reader.put (kind.bitmapBlock gd sb.is64bit) bitmap) := by
    rw [BlockReader.writeBlock, if_neg (by omega), hwrite, List.take_of_length_le (by omega)]
  unfold writeBitmap
  rw [if_neg (by omega), if_pos hcsum]
  simp only [Kind.bitmapBlock_setChecksum, hput]

/-- A read of a block that the device gives, as far as the checksum. -/
theorem readBitmap_given (hcsum : sb.hasMetadataCsum) (hsize : reader.blockSize = sb.blockSize)
    (hread : reader.refusesRead (kind.bitmapBlock gd sb.is64bit) = none) :
    readBitmap kind reader sb gd =
      if kind.checksum gd sb.descSize =
          (computeBitmapChecksum sb (reader.content (kind.bitmapBlock gd sb.is64bit))).toNat then
        .ok (reader.content (kind.bitmapBlock gd sb.is64bit))
      else .error .corruptedData := by
  unfold readBitmap
  rw [BlockReader.readBlock, List.length_replicate, if_neg (by omega), hread, List.drop_replicate,
    hsize, Nat.sub_self, List.replicate_zero, List.append_nil]
  simp only [hcsum, true_and, ne_eq, ite_not]

/-- A bitmap that was written is read back, the same, exactly when the descriptors are of the large kind
or the upper half of the bitmap's CRC is zero. -/
theorem bitmap_checksum_round_trip (kind : Kind) (reader : BlockReader) (sb : ParsedSuperblock)
    (sDescSize : BitVec 16) (gd : Ext4GroupDesc) (bitmap : List Byte) (hcsum : sb.hasMetadataCsum)
    (hdesc : sb.descSize = parsedDescSize sb.is64bit sDescSize)
    (hsize : reader.blockSize = sb.blockSize) (hlen : bitmap.length = sb.blockSize)
    (hwrite : reader.refusesWrite (kind.bitmapBlock gd sb.is64bit) = none)
    (hread : reader.refusesRead (kind.bitmapBlock gd sb.is64bit) = none) :
    (∃ reader' gd', writeBitmap kind reader sb gd bitmap = (.ok (), reader', gd') ∧
      readBitmap kind reader' sb gd' = .ok bitmap) ↔
        (sb.is64bit ∧ sDescSize.toNat ≥ 64) ∨ (crc32cSeed sb.csumSeed bitmap).toNat < 2 ^ 16 := by
  -- the reader compares the CRC with what the descriptor kept of it
  have hback : readBitmap kind (reader.put (kind.bitmapBlock gd sb.is64bit) bitmap) sb
      (kind.setChecksum gd sb.descSize (computeBitmapChecksum sb bitmap)) = .ok bitmap ↔
        kind.checksum (kind.setChecksum gd sb.descSize (computeBitmapChecksum sb bitmap)) sb.descSize =
          (computeBitmapChecksum sb bitmap).toNat := by
    have hread' : (reader.put (kind.bitmapBlock gd sb.is64bit) bitmap).refusesRead
        (kind.bitmapBlock (kind.setChecksum gd sb.descSize (computeBitmapChecksum sb bitmap))
          sb.is64bit) = none := by
      rw [Kind.bitmapBlock_setChecksum]
      exact hread
    rw [readBitmap_given hcsum (show (reader.put _ _).blockSize = _ from hsize) hread',
      Kind.bitmapBlock_setChecksum, BlockReader.content_put]
    split
    · next h => exact iff_of_true rfl h
    · next h => exact iff_of_false (by simp) h
  have hsizes : parsedDescSize sb.is64bit sDescSize ≥ kind.checksumEnd ↔
      sb.is64bit ∧ sDescSize.toNat ≥ 64 := Kind.checksumEnd_le_parsedDescSize
  rw [writeBitmap_taken hcsum hsize hlen hwrite, ← hsizes, ← hdesc]
  refine Iff.trans ?_ (hback.trans Kind.checksum_setChecksum_eq_iff)
  constructor
  · rintro ⟨reader', gd', hdone, h⟩
    obtain ⟨rfl, rfl⟩ := Prod.mk.inj (Prod.mk.inj hdone).2
    exact h
  · intro h
    exact ⟨_, _, rfl, h⟩

end

/-! ## A bitmap of zeros -/

/-- The superblock of a volume of 1 KiB blocks with metadata checksums. -/
def checksummedSuperblock (is64bit : Bool) (sDescSize : BitVec 16) : ParsedSuperblock where
  raw := ⟨1, 8192, 8, 2, 0, 4⟩
  blockSize := 1024
  blockCount := 8192
  freeBlockCount := 2
  groupCount := 1
  descSize := parsedDescSize is64bit sDescSize
  is64bit
  hasMetadataCsum := true
  csumSeed := 0

/-- A device of 1 KiB blocks of zeros that takes everything. -/
def zeroReader : BlockReader where
  blockSize := 1024
  cached := fun _ => none
  disk := fun _ => List.replicate 1024 0#8
  refusesRead := fun _ => none
  refusesWrite := fun _ => none

/-- A descriptor whose bitmaps are blocks 3 and 4. -/
def zeroDesc : Ext4GroupDesc := ⟨3, 4, 2, 4, 0, 0, 0, 0, 0, 0, 0, 0⟩

/-- From a zero seed, zeros leave the register as it is. -/
theorem crc32cRaw_zeros (n : Nat) : crc32cRaw 0#32 (List.replicate n 0#8) = 0#32 := by
  induction n with
  | zero => rfl
  | succ n ih =>
    rw [List.replicate_succ]
    exact ih

theorem crc32cSeed_zeros (n : Nat) : crc32cSeed 0#32 (List.replicate n 0#8) = ~~~0#32 := by
  rw [crc32cSeed, crc32cRaw_zeros]
  rfl

/-- With descriptors of 64 bytes the bitmap comes back. -/
theorem bitmap_checksum_round_trip_wide :
    ∃ reader' gd', writeBitmap .block zeroReader (checksummedSuperblock true 64) zeroDesc
        (List.replicate 1024 0#8) = (.ok (), reader', gd') ∧
      readBitmap .block reader' (checksummedSuperblock true 64) gd' = .ok (List.replicate 1024 0#8) :=
  (bitmap_checksum_round_trip .block zeroReader (checksummedSuperblock true 64) 64 zeroDesc
    (List.replicate 1024 0#8) rfl rfl rfl List.length_replicate rfl rfl).2 (.inl ⟨rfl, by decide⟩)

/-- With descriptors of 32 bytes it does not: the block is written and then taken for corrupted. -/
theorem narrow_checksum_refused :
    ∃ reader' gd', writeBitmap .block zeroReader (checksummedSuperblock false 32) zeroDesc
        (List.replicate 1024 0#8) = (.ok (), reader', gd') ∧
      readBitmap .block reader' (checksummedSuperblock false 32) gd' = .error .corruptedData := by
  refine ⟨_, _, writeBitmap_taken rfl rfl List.length_replicate rfl, ?_⟩
  have hcsum : computeBitmapChecksum (checksummedSuperblock false 32) (List.replicate 1024 0#8) =
      ~~~0#32 := crc32cSeed_zeros 1024
  rw [readBitmap_given rfl rfl rfl, Kind.bitmapBlock_setChecksum, BlockReader.content_put, if_neg]
  rw [Kind.checksum_setChecksum_eq_iff, hcsum]
  decide

end SlateOS.Fs.Ext4
