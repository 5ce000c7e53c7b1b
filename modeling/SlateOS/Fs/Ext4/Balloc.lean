/-
# SlateOS.Fs.Ext4.Balloc -- allocation and release of blocks and inodes

`kernel/src/fs/ext4/balloc.rs`. A block group has a bitmap of its blocks and a bitmap of its inodes, on
the device, and a descriptor with the number of free ones; the superblock has the totals. The block and
the inode side of a group do the same things to different fields, so the shared steps take a `Kind`.
A call returns its answer and the volume it leaves, whether it succeeds or fails.
-/
import SlateOS.Crypto.Crc32c
import SlateOS.Fs.Ext4.Bitmap

namespace SlateOS.Fs.Ext4

open Crypto Foundation.MachineInt Kernel

/-- Which bitmap of a group. -/
inductive Kind
  | block | inode
  deriving DecidableEq, Repr

/-- `Ext4GroupDesc`: the fields of the bitmaps and the counts. -/
structure Ext4GroupDesc where
  bgBlockBitmapLo : BitVec 32
  bgInodeBitmapLo : BitVec 32
  bgFreeBlocksCountLo : BitVec 16
  bgFreeInodesCountLo : BitVec 16
  bgBlockBitmapCsumLo : BitVec 16
  bgInodeBitmapCsumLo : BitVec 16
  bgBlockBitmapHi : BitVec 32
  bgInodeBitmapHi : BitVec 32
  bgFreeBlocksCountHi : BitVec 16
  bgFreeInodesCountHi : BitVec 16
  bgBlockBitmapCsumHi : BitVec 16
  bgInodeBitmapCsumHi : BitVec 16
  deriving DecidableEq, Repr

/-- `Ext4Superblock`: the geometry and the totals. -/
structure Ext4Superblock where
  sFirstDataBlock : BitVec 32
  sBlocksPerGroup : BitVec 32
  sInodesPerGroup : BitVec 32
  sFreeBlocksCountLo : BitVec 32
  sFreeBlocksCountHi : BitVec 32
  sFreeInodesCount : BitVec 32
  deriving DecidableEq, Repr

/-- `ParsedSuperblock`. -/
structure ParsedSuperblock where
  raw : Ext4Superblock
  blockSize : Nat
  blockCount : Nat
  freeBlockCount : Nat
  groupCount : Nat
  descSize : Nat
  is64bit : Bool
  hasMetadataCsum : Bool
  csumSeed : BitVec 32
  deriving DecidableEq, Repr

/-- What the allocator works on: the device, the superblock and the group descriptors. -/
structure Volume where
  reader : BlockReader
  sb : ParsedSuperblock
  groupDescs : List Ext4GroupDesc

/-! ## Descriptor fields -/

/-- A number kept as a low half of `w` bits and, when the field is there, a high half. -/
def combine (w : Nat) (wide : Bool) (lo hi : Nat) : Nat := if wide then lo ||| hi <<< w else lo

/-- `group_desc_block_bitmap`. -/
def groupDescBlockBitmap (gd : Ext4GroupDesc) (is64bit : Bool) : Nat :=
  combine 32 is64bit gd.bgBlockBitmapLo.toNat gd.bgBlockBitmapHi.toNat

/-- `group_desc_inode_bitmap`. -/
def groupDescInodeBitmap (gd : Ext4GroupDesc) (is64bit : Bool) : Nat :=
  combine 32 is64bit gd.bgInodeBitmapLo.toNat gd.bgInodeBitmapHi.toNat

/-- `group_desc_free_blocks`. -/
def groupDescFreeBlocks (gd : Ext4GroupDesc) (is64bit : Bool) : Nat :=
  combine 16 is64bit gd.bgFreeBlocksCountLo.toNat gd.bgFreeBlocksCountHi.toNat

/-- `group_desc_free_inodes`. -/
def groupDescFreeInodes (gd : Ext4GroupDesc) (is64bit : Bool) : Nat :=
  combine 16 is64bit gd.bgFreeInodesCountLo.toNat gd.bgFreeInodesCountHi.toNat

/-- `block_bitmap_checksum`. -/
def blockBitmapChecksum (gd : Ext4GroupDesc) (descSize : Nat) : Nat :=
  combine 16 (decide (descSize ≥ 58)) gd.bgBlockBitmapCsumLo.toNat gd.bgBlockBitmapCsumHi.toNat

/-- `inode_bitmap_checksum`. -/
def inodeBitmapChecksum (gd : Ext4GroupDesc) (descSize : Nat) : Nat :=
  combine 16 (decide (descSize ≥ 60)) gd.bgInodeBitmapCsumLo.toNat gd.bgInodeBitmapCsumHi.toNat

/-- `set_block_bitmap_checksum`. -/
def setBlockBitmapChecksum (gd : Ext4GroupDesc) (descSize : Nat) (csum : BitVec 32) :
    Ext4GroupDesc :=
  { gd with
    bgBlockBitmapCsumLo := BitVec.ofNat 16 csum.toNat
    bgBlockBitmapCsumHi :=
      if descSize ≥ 58 then BitVec.ofNat 16 (csum.toNat >>> 16) else gd.bgBlockBitmapCsumHi }

/-- `set_inode_bitmap_checksum`. -/
def setInodeBitmapChecksum (gd : Ext4GroupDesc) (descSize : Nat) (csum : BitVec 32) :
    Ext4GroupDesc :=
  { gd with
    bgInodeBitmapCsumLo := BitVec.ofNat 16 csum.toNat
    bgInodeBitmapCsumHi :=
      if descSize ≥ 60 then BitVec.ofNat 16 (csum.toNat >>> 16) else gd.bgInodeBitmapCsumHi }

/-- A new number of free blocks. -/
def setFreeBlocks (gd : Ext4GroupDesc) (is64bit : Bool) (newVal : Nat) : Ext4GroupDesc :=
  { gd with
    bgFreeBlocksCountLo := BitVec.ofNat 16 newVal
    bgFreeBlocksCountHi :=
      if is64bit then BitVec.ofNat 16 (newVal >>> 16) else gd.bgFreeBlocksCountHi }

/-- A new number of free inodes. -/
def setFreeInodes (gd : Ext4GroupDesc) (is64bit : Bool) (newVal : Nat) : Ext4GroupDesc :=
  { gd with
    bgFreeInodesCountLo := BitVec.ofNat 16 newVal
    bgFreeInodesCountHi :=
      if is64bit then BitVec.ofNat 16 (newVal >>> 16) else gd.bgFreeInodesCountHi }

namespace Kind

/-- The group's bitmap block. -/
def bitmapBlock (kind : Kind) (gd : Ext4GroupDesc) (is64bit : Bool) : Nat :=
  match kind with
  | block => groupDescBlockBitmap gd is64bit
  | inode => groupDescInodeBitmap gd is64bit

/-- The descriptor's count. -/
def descFree (kind : Kind) (gd : Ext4GroupDesc) (is64bit : Bool) : Nat :=
  match kind with
  | block => groupDescFreeBlocks gd is64bit
  | inode => groupDescFreeInodes gd is64bit

def setDescFree (kind : Kind) (gd : Ext4GroupDesc) (is64bit : Bool) (newVal : Nat) : Ext4GroupDesc :=
  match kind with
  | block => setFreeBlocks gd is64bit newVal
  | inode => setFreeInodes gd is64bit newVal

/-- The descriptor's bitmap checksum. -/
def checksum (kind : Kind) (gd : Ext4GroupDesc) (descSize : Nat) : Nat :=
  match kind with
  | block => blockBitmapChecksum gd descSize
  | inode => inodeBitmapChecksum gd descSize

def setChecksum (kind : Kind) (gd : Ext4GroupDesc) (descSize : Nat) (csum : BitVec 32) :
    Ext4GroupDesc :=
  match kind with
  | block => setBlockBitmapChecksum gd descSize csum
  | inode => setInodeBitmapChecksum gd descSize csum

/-- `decrement_gd_free_blocks`, `decrement_gd_free_inodes`. -/
def decrementDescFree (kind : Kind) (is64bit : Bool) (gd : Ext4GroupDesc) : Ext4GroupDesc :=
  kind.setDescFree gd is64bit (kind.descFree gd is64bit - 1)

/-- `increment_gd_free_blocks`, `increment_gd_free_inodes`. -/
def incrementDescFree (kind : Kind) (is64bit : Bool) (gd : Ext4GroupDesc) : Ext4GroupDesc :=
  kind.setDescFree gd is64bit (saturatingAdd 64 (kind.descFree gd is64bit) 1)

end Kind

/-! ## The superblock's totals -/

/-- `update_sb_free_blocks`. -/
def updateSbFreeBlocks (raw : Ext4Superblock) (count : Nat) (is64bit : Bool) : Ext4Superblock :=
  { raw with
    sFreeBlocksCountLo := BitVec.ofNat 32 count
    sFreeBlocksCountHi :=
      if is64bit then BitVec.ofNat 32 (count >>> 32) else raw.sFreeBlocksCountHi }

/-- A new total of free blocks, in both places. -/
def ParsedSuperblock.withFreeBlocks (sb : ParsedSuperblock) (count : Nat) : ParsedSuperblock :=
  { sb with freeBlockCount := count, raw := updateSbFreeBlocks sb.raw count sb.is64bit }

/-- A new total of free inodes. -/
def ParsedSuperblock.withFreeInodes (sb : ParsedSuperblock) (count : Nat) : ParsedSuperblock :=
  { sb with raw := { sb.raw with sFreeInodesCount := BitVec.ofNat 32 count } }

namespace Kind

/-- The total of the allocations' and releases' own copy. -/
def sbFree (kind : Kind) (sb : ParsedSuperblock) : Nat :=
  match kind with
  | block => sb.freeBlockCount
  | inode => sb.raw.sFreeInodesCount.toNat

/-- `count` of them leave the total. -/
def lowerSbFree (kind : Kind) (sb : ParsedSuperblock) (count : Nat) : ParsedSuperblock :=
  match kind with
  | block => sb.withFreeBlocks (sb.freeBlockCount - count)
  | inode => sb.withFreeInodes (sb.raw.sFreeInodesCount.toNat - count)

/-- `count` of them come back to the total. -/
def raiseSbFree (kind : Kind) (sb : ParsedSuperblock) (count : Nat) : ParsedSuperblock :=
  match kind with
  | block => sb.withFreeBlocks (saturatingAdd 64 sb.freeBlockCount count)
  | inode => sb.withFreeInodes (saturatingAdd 32 sb.raw.sFreeInodesCount.toNat count)

end Kind

/-! ## Bitmap blocks -/

/-- `compute_bitmap_checksum`. -/
def computeBitmapChecksum (sb : ParsedSuperblock) (bitmapData : List Byte) : BitVec 32 :=
  crc32cSeed sb.csumSeed bitmapData

/-- `read_block_bitmap`, `read_inode_bitmap`. -/
def readBitmap (kind : Kind) (reader : BlockReader) (sb : ParsedSuperblock) (gd : Ext4GroupDesc) :
    KernelResult (List Byte) :=
  match reader.readBlock (kind.bitmapBlock gd sb.is64bit) (List.replicate sb.blockSize 0#8) with
  | .error e => .error e
  | .ok buf =>
    if sb.hasMetadataCsum ∧ kind.checksum gd sb.descSize ≠ (computeBitmapChecksum sb buf).toNat then
      .error .corruptedData
    else .ok buf

/-- `write_block_bitmap`, `write_inode_bitmap`: the descriptor is stamped before the block is written. -/
def writeBitmap (kind : Kind) (reader : BlockReader) (sb : ParsedSuperblock) (gd : Ext4GroupDesc)
    (bitmap : List Byte) : KernelResult Unit × BlockReader × Ext4GroupDesc :=
  if bitmap.length < sb.blockSize then (.error .invalidArgument, reader, gd)
  else
    let gd :=
      if sb.hasMetadataCsum then kind.setChecksum gd sb.descSize (computeBitmapChecksum sb bitmap)
      else gd
    let (result, reader) := reader.writeBlock (kind.bitmapBlock gd sb.is64bit) bitmap
    (result, reader, gd)

namespace Volume

/-! ## Allocation -/

/-- The end of an allocation, once a run of `count` clear bits is found at `bit`. -/
def takeBits (kind : Kind) (v : Volume) (groupIdx : Nat) (gd : Ext4GroupDesc) (bitmap : List Byte)
    (bit count : Nat) : KernelResult Unit × Volume :=
  let bitmap := (List.range count).foldl (fun bm i => bitmapSet bm (saturatingAdd 32 bit i)) bitmap
  match writeBitmap kind v.reader v.sb gd bitmap with
  | (.error e, reader, gd) =>
    (.error e, { v with reader, groupDescs := v.groupDescs.set groupIdx gd })
  | (.ok (), reader, gd) =>
    let gd := Nat.repeat (kind.decrementDescFree v.sb.is64bit) count gd
    (.ok (),
      { reader, sb := kind.lowerSbFree v.sb count, groupDescs := v.groupDescs.set groupIdx gd })

/-- The loop over the groups, from the preferred one on. `find` looks for a run of `count` clear bits in
the bitmap of one group; the answer is the group and the first bit. -/
def scanGroups (kind : Kind) (v : Volume) (prefGroup count : Nat)
    (find : Nat → Nat → List Byte → Option Nat) : List Nat → KernelResult (Nat × Nat) × Volume
  | [] => (.error .diskFull, v)
  | delta :: rest =>
    let groupIdx := wrappingAdd 64 prefGroup delta % v.sb.groupCount
    match v.groupDescs[groupIdx]? with
    | none => (.error .ioError, v)
    | some gd =>
      if kind.descFree gd v.sb.is64bit < count then
        scanGroups kind v prefGroup count find rest
      else
        match readBitmap kind v.reader v.sb gd with
        | .error e => (.error e, v)
        | .ok bitmap =>
          match find delta groupIdx bitmap with
          | none => scanGroups kind v prefGroup count find rest
          | some bit =>
            match takeBits kind v groupIdx gd bitmap bit count with
            | (.error e, v) => (.error e, v)
            | (.ok (), v) => (.ok (groupIdx, bit), v)

end Volume

namespace ParsedSuperblock

/-- `u64::from(sb.raw.s_blocks_per_group)`. -/
def blocksPerGroup (sb : ParsedSuperblock) : Nat := sb.raw.sBlocksPerGroup.toNat

/-- `sb.raw.s_inodes_per_group`. -/
def inodesPerGroup (sb : ParsedSuperblock) : Nat := sb.raw.sInodesPerGroup.toNat

/-- `u64::from(sb.raw.s_first_data_block)`. -/
def firstData (sb : ParsedSuperblock) : Nat := sb.raw.sFirstDataBlock.toNat

/-- The first block of a group. -/
def groupStart (sb : ParsedSuperblock) (groupIdx : Nat) : Nat :=
  saturatingAdd 64 sb.firstData (saturatingMul 64 groupIdx sb.blocksPerGroup)

/-- `max_bits`: how many blocks a group has. The last may have fewer. -/
def maxBits (sb : ParsedSuperblock) (groupIdx : Nat) : Nat :=
  if groupIdx = sb.groupCount - 1 then
    min ((sb.blockCount - sb.groupStart groupIdx) % 2 ^ 32) sb.blocksPerGroup
  else sb.blocksPerGroup

/-- The number of the block at a bit of a group. -/
def blockNr (sb : ParsedSuperblock) (groupIdx bit : Nat) : Nat :=
  saturatingAdd 64 (sb.groupStart groupIdx) bit

/-- The number of the inode at a bit of a group. -/
def inodeNr (sb : ParsedSuperblock) (groupIdx bit : Nat) : Nat :=
  saturatingAdd 32 (saturatingAdd 32 (saturatingMul 32 groupIdx sb.inodesPerGroup) bit) 1

/-- `inode_group`. -/
def inodeGroup (sb : ParsedSuperblock) (inodeNr : Nat) : Nat := (inodeNr - 1) / sb.inodesPerGroup

/-- `inode_index_in_group`. -/
def inodeIndexInGroup (sb : ParsedSuperblock) (inodeNr : Nat) : Nat :=
  (inodeNr - 1) % sb.inodesPerGroup

end ParsedSuperblock

namespace Volume

/-- `alloc_block`. -/
def allocBlock (v : Volume) (goal : Nat) : KernelResult Nat × Volume :=
  if v.sb.blocksPerGroup = 0 ∨ v.sb.groupCount = 0 then (.error .diskFull, v)
  else
    let prefGroup := (goal - v.sb.firstData) / v.sb.blocksPerGroup
    let prefOffset := (goal - v.sb.firstData) % v.sb.blocksPerGroup
    match scanGroups .block v prefGroup 1
        (fun delta groupIdx bitmap =>
          bitmapFindFree bitmap (if delta = 0 then prefOffset else 0) (v.sb.maxBits groupIdx))
        (List.range v.sb.groupCount) with
    | (.error e, v) => (.error e, v)
    | (.ok (groupIdx, bit), v) => (.ok (v.sb.blockNr groupIdx bit), v)

/-- `alloc_blocks`. -/
def allocBlocks (v : Volume) (goal count : Nat) : KernelResult Nat × Volume :=
  if count = 0 then (.error .invalidArgument, v)
  else if count = 1 then v.allocBlock goal
  else if v.sb.blocksPerGroup = 0 ∨ v.sb.groupCount = 0 then (.error .diskFull, v)
  else
    let prefGroup := (goal - v.sb.firstData) / v.sb.blocksPerGroup
    let prefOffset := (goal - v.sb.firstData) % v.sb.blocksPerGroup
    match scanGroups .block v prefGroup count
        (fun delta groupIdx bitmap =>
          bitmapFindFreeRun bitmap (if delta = 0 then prefOffset else 0) (v.sb.maxBits groupIdx) count)
        (List.range v.sb.groupCount) with
    | (.error e, v) => (.error e, v)
    | (.ok (groupIdx, bit), v) => (.ok (v.sb.blockNr groupIdx bit), v)

/-- `alloc_inode`. The source does not use `_is_directory`. -/
def allocInode (v : Volume) (preferredGroup : Nat) (_isDirectory : Bool) : KernelResult Nat × Volume :=
  if v.sb.inodesPerGroup = 0 ∨ v.sb.groupCount = 0 then (.error .diskFull, v)
  else
    match scanGroups .inode v preferredGroup 1
        (fun _ _ bitmap => bitmapFindFree bitmap 0 v.sb.inodesPerGroup)
        (List.range v.sb.groupCount) with
    | (.error e, v) => (.error e, v)
    | (.ok (groupIdx, bit), v) => (.ok (v.sb.inodeNr groupIdx bit), v)

/-! ## Release -/

/-- The end of a release: a bitmap with `freed` bits cleared is written and counted. -/
def releaseBits (kind : Kind) (v : Volume) (groupIdx : Nat) (gd : Ext4GroupDesc)
    (bitmap : List Byte) (freed : Nat) : KernelResult Unit × Volume :=
  match writeBitmap kind v.reader v.sb gd bitmap with
  | (.error e, reader, gd) =>
    (.error e, { v with reader, groupDescs := v.groupDescs.set groupIdx gd })
  | (.ok (), reader, gd) =>
    let gd := Nat.repeat (kind.incrementDescFree v.sb.is64bit) freed gd
    (.ok (),
      { reader, sb := kind.raiseSbFree v.sb freed, groupDescs := v.groupDescs.set groupIdx gd })

/-- The release of one bit, refused when it is clear already. -/
def releaseBit (kind : Kind) (v : Volume) (groupIdx bit : Nat) : KernelResult Unit × Volume :=
  match v.groupDescs[groupIdx]? with
  | none => (.error .invalidArgument, v)
  | some gd =>
    match readBitmap kind v.reader v.sb gd with
    | .error e => (.error e, v)
    | .ok bitmap =>
      if bitmapTest bitmap bit then
        releaseBits kind v groupIdx gd (bitmapClear bitmap bit) 1
      else (.error .invalidArgument, v)

/-- `free_block`. -/
def freeBlock (v : Volume) (blockNr : Nat) : KernelResult Unit × Volume :=
  if blockNr < v.sb.firstData then (.error .invalidArgument, v)
  else
    let relative := blockNr - v.sb.firstData
    match releaseBit .block v (relative / v.sb.blocksPerGroup) (relative % v.sb.blocksPerGroup) with
    | (.error e, v) => (.error e, v)
    | (.ok (), v) => (.ok (), { v with reader := v.reader.invalidateBlock blockNr })

/-- `free_inode`. -/
def freeInode (v : Volume) (inodeNr : Nat) : KernelResult Unit × Volume :=
  if inodeNr = 0 then (.error .invalidArgument, v)
  else if v.sb.inodeIndexInGroup inodeNr ≥ v.sb.inodesPerGroup then (.error .invalidArgument, v)
  else releaseBit .inode v (v.sb.inodeGroup inodeNr) (v.sb.inodeIndexInGroup inodeNr)

/-- What clearing a segment of a bitmap keeps track of. -/
structure Segment where
  bitmap : List Byte
  freed : Nat
  doubleFree : Bool

/-- One bit of a segment. -/
def clearBit (seg : Segment) (bit : Nat) : Segment :=
  if bitmapTest seg.bitmap bit then
    { seg with bitmap := bitmapClear seg.bitmap bit, freed := seg.freed + 1 }
  else { seg with doubleFree := true }

/-- The loop of `free_blocks`: one group of the range a round. Every round frees at least one block, so
a round for each block of the range is all it can take. -/
def freeBlocksLoop (theEnd : Nat) : Nat → Nat → Bool → Volume → KernelResult Unit × Volume
  | 0, _, doubleFree, v => (if doubleFree then .error .invalidArgument else .ok (), v)
  | fuel + 1, cur, doubleFree, v =>
    if cur < theEnd then
      let relative := cur - v.sb.firstData
      let group := relative / v.sb.blocksPerGroup
      let groupEnd := v.sb.firstData + (group + 1) * v.sb.blocksPerGroup
      let segEnd := min theEnd groupEnd
      let firstBit := relative % v.sb.blocksPerGroup
      match v.groupDescs[group]? with
      | none => (.error .invalidArgument, v)
      | some gd =>
        match readBitmap .block v.reader v.sb gd with
        | .error e => (.error e, v)
        | .ok bitmap =>
          let seg := (List.range (segEnd - cur)).foldl
            (fun seg offset => clearBit seg (firstBit + offset)) ⟨bitmap, 0, doubleFree⟩
          match releaseBits .block v group gd seg.bitmap seg.freed with
          | (.error e, v) => (.error e, v)
          | (.ok (), v) =>
            let reader := (List.range' cur (segEnd - cur)).foldl
              BlockReader.invalidateBlock v.reader
            freeBlocksLoop theEnd fuel segEnd seg.doubleFree { v with reader }
    else (if doubleFree then .error .invalidArgument else .ok (), v)

/-- `free_blocks`. -/
def freeBlocks (v : Volume) (startBlock count : Nat) : KernelResult Unit × Volume :=
  if count = 0 then (.ok (), v)
  else if v.sb.blocksPerGroup = 0 ∨ startBlock < v.sb.firstData then (.error .invalidArgument, v)
  else
    match checkedAdd 64 startBlock count with
    | none => (.error .invalidArgument, v)
    | some theEnd => freeBlocksLoop theEnd count startBlock false v

end Volume

end SlateOS.Fs.Ext4
