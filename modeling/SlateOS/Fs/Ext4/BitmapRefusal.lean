/-
# SlateOS.Fs.Ext4.BitmapRefusal -- what a call leaves when the device refuses a bitmap

The allocator's calls change the counts of a group and of the superblock after the device took the
group's bitmap, so that a refused write leaves the counts as they were. The descriptor's checksum is
stamped before the write. `free_blocks` writes one bitmap for each group of its range and gives nothing
back: a write refused in one group leaves the groups before it released.
-/
import SlateOS.Fs.Ext4.BitmapChecksum

namespace SlateOS.Fs.Ext4

open Crypto Foundation.MachineInt Kernel

/-! ## Volumes that differ in one checksum -/

/-- A descriptor without the checksum of one bitmap. -/
def Kind.dropChecksum (kind : Kind) (gd : Ext4GroupDesc) : Ext4GroupDesc :=
  match kind with
  | .block => { gd with bgBlockBitmapCsumLo := 0, bgBlockBitmapCsumHi := 0 }
  | .inode => { gd with bgInodeBitmapCsumLo := 0, bgInodeBitmapCsumHi := 0 }

/-- How the device answers the write of a group's bitmap. -/
def Volume.bitmapRefusal (v : Volume) (kind : Kind) (g : Nat) : Option (KernelError × Nat) :=
  match v.groupDescs[g]? with
  | some gd => v.reader.refusesWrite (kind.bitmapBlock gd v.sb.is64bit)
  | none => none

/-- The superblock and the descriptors are as they were, but for the checksum of one group's bitmap. -/
structure Volume.Kept (kind : Kind) (g : Nat) (v v' : Volume) : Prop where
  sb : v'.sb = v.sb
  others : ∀ g', g' ≠ g → v'.groupDescs[g']? = v.groupDescs[g']?
  here : v'.groupDescs[g]?.map kind.dropChecksum = v.groupDescs[g]?.map kind.dropChecksum

/-- What a call on one group comes to. Refused, it has kept the volume; successful, the device took the
group's bitmap, and no other group's descriptor changed. -/
def Volume.Settled {α : Type} (kind : Kind) (g : Nat) (v : Volume) : KernelResult α × Volume → Prop
  | (.error _, v') => v.Kept kind g v'
  | (.ok _, v') =>
    v.bitmapRefusal kind g = none ∧ ∀ g', g' ≠ g → v'.groupDescs[g']? = v.groupDescs[g']?

section

variable {kind : Kind} {v v' : Volume} {g : Nat} {gd gd' : Ext4GroupDesc}

@[simp] theorem Kind.dropChecksum_setChecksum {descSize : Nat} {csum : BitVec 32} :
    kind.dropChecksum (kind.setChecksum gd descSize csum) = kind.dropChecksum gd := by
  cases kind <;> rfl

theorem Volume.Kept.refl (kind : Kind) (g : Nat) (v : Volume) : v.Kept kind g v :=
  ⟨rfl, fun _ _ => rfl, rfl⟩

theorem Volume.bitmapRefusal_of_get (h : v.groupDescs[g]? = some gd) :
    v.bitmapRefusal kind g = v.reader.refusesWrite (kind.bitmapBlock gd v.sb.is64bit) := by
  rw [bitmapRefusal, h]

/-! ## One write -/

variable {bitmap : List Byte}

/-- What a write of a bitmap does to the descriptor and to the device. -/
theorem writeBitmap_frame {reader reader' : BlockReader} {sb : ParsedSuperblock}
    {r : KernelResult Unit} (h : writeBitmap kind reader sb gd bitmap = (r, reader', gd')) :
    kind.dropChecksum gd' = kind.dropChecksum gd ∧
    (∀ kind' : Kind, kind'.bitmapBlock gd' sb.is64bit = kind'.bitmapBlock gd sb.is64bit) ∧
    reader'.refusesWrite = reader.refusesWrite ∧
    (r = .ok () → reader.refusesWrite (kind.bitmapBlock gd sb.is64bit) = none) := by
  unfold writeBitmap at h
  split at h
  · -- the bitmap is too short, and nothing is stamped
    obtain ⟨rfl, rfl, rfl⟩ := h
    exact ⟨rfl, fun _ => rfl, rfl, fun h => by cases h⟩
  · have hstamp : kind.dropChecksum gd' = kind.dropChecksum gd ∧
        ∀ kind' : Kind, kind'.bitmapBlock gd' sb.is64bit = kind'.bitmapBlock gd sb.is64bit := by
      obtain ⟨-, -, rfl⟩ := h
      split <;> simp
    have haddress : kind.bitmapBlock (if sb.hasMetadataCsum then
        kind.setChecksum gd sb.descSize (computeBitmapChecksum sb bitmap) else gd) sb.is64bit =
          kind.bitmapBlock gd sb.is64bit := by
      split <;> simp
    refine ⟨hstamp.1, hstamp.2, ?_⟩
    simp only [haddress, BlockReader.writeBlock] at h
    split at h
    · obtain ⟨rfl, rfl, -⟩ := h
      exact ⟨rfl, fun h => by cases h⟩
    · split at h
      · obtain ⟨rfl, rfl, -⟩ := h
        exact ⟨rfl, fun h => by cases h⟩
      · next htaken =>
        obtain ⟨rfl, rfl, -⟩ := h
        exact ⟨rfl, fun _ => htaken⟩

variable {reader : BlockReader}

/-- A refused write of a bitmap has stamped the descriptor. -/
theorem writeBitmap_refused {sb : ParsedSuperblock}
    {e : KernelError} (hcsum : sb.hasMetadataCsum) (hlen : bitmap.length = sb.blockSize)
    (hwrite : (reader.writeBlock (kind.bitmapBlock gd sb.is64bit) bitmap).1 = .error e) :
    writeBitmap kind reader sb gd bitmap =
      (.error e, (reader.writeBlock (kind.bitmapBlock gd sb.is64bit) bitmap).2,
        kind.setChecksum gd sb.descSize (computeBitmapChecksum sb bitmap)) := by
  unfold writeBitmap
  rw [if_neg (by omega), if_pos hcsum]
  simp only [Kind.bitmapBlock_setChecksum, ← hwrite]

/-- The release of a bit whose bitmap is refused. -/
theorem releaseBit_refused_write {bit : Nat}
    {e : KernelError} (hgd : v.groupDescs[g]? = some gd)
    (hread : readBitmap kind v.reader v.sb gd = .ok bitmap) (hset : bitmapTest bitmap bit = true)
    (hwrite : writeBitmap kind v.reader v.sb gd (bitmapClear bitmap bit) = (.error e, reader, gd')) :
    v.releaseBit kind g bit =
      (.error e, { v with reader, groupDescs := v.groupDescs.set g gd' }) := by
  rw [Volume.releaseBit]
  simp only [hgd, hread, hset, if_true, Volume.releaseBits, hwrite]

/-- A descriptor that differs in the checksum alone keeps the volume. -/
theorem Volume.Kept.of_set (hgd : v.groupDescs[g]? = some gd)
    (h : kind.dropChecksum gd' = kind.dropChecksum gd) :
    v.Kept kind g { v with reader, groupDescs := v.groupDescs.set g gd' } := by
  have hlt : g < v.groupDescs.length := (List.getElem?_eq_some_iff.1 hgd).1
  refine ⟨rfl, fun g' hne => List.getElem?_set_ne (Ne.symm hne), ?_⟩
  show (v.groupDescs.set g gd')[g]?.map kind.dropChecksum = _
  rw [List.getElem?_set_self hlt, hgd, Option.map_some, Option.map_some, h]

/-- The end of an allocation. -/
theorem takeBits_settled (hgd : v.groupDescs[g]? = some gd) {bit count : Nat}
    {r : KernelResult Unit × Volume} (h : v.takeBits kind g gd bitmap bit count = r) :
    v.Settled kind g r := by
  subst h
  unfold Volume.takeBits
  simp only
  split
  · next hwrite => exact .of_set hgd (writeBitmap_frame hwrite).1
  · next hwrite =>
    have htaken := (writeBitmap_frame hwrite).2.2.2 rfl
    refine ⟨?_, fun g' hne => List.getElem?_set_ne (Ne.symm hne)⟩
    rw [Volume.bitmapRefusal_of_get hgd, htaken]

/-- The end of a release. -/
theorem releaseBits_settled (hgd : v.groupDescs[g]? = some gd) {freed : Nat}
    {r : KernelResult Unit × Volume} (h : v.releaseBits kind g gd bitmap freed = r) :
    v.Settled kind g r := by
  subst h
  unfold Volume.releaseBits
  split
  · next hwrite => exact .of_set hgd (writeBitmap_frame hwrite).1
  · next hwrite =>
    have htaken := (writeBitmap_frame hwrite).2.2.2 rfl
    refine ⟨?_, fun g' hne => List.getElem?_set_ne (Ne.symm hne)⟩
    rw [Volume.bitmapRefusal_of_get hgd, htaken]

/-! ## Calls on one group -/

/-- The loop over the groups writes one bitmap at most. -/
theorem scanGroups_settled {prefGroup count : Nat} {find : Nat → Nat → List Byte → Option Nat}
    (deltas : List Nat) : ∃ g, v.Settled kind g (v.scanGroups kind prefGroup count find deltas) := by
  induction deltas with
  | nil => exact ⟨0, .refl _ _ _⟩
  | cons delta rest ih =>
    unfold Volume.scanGroups
    simp only
    split
    · exact ⟨0, .refl _ _ _⟩
    · next gd hgd =>
      split
      · exact ih
      · split
        · exact ⟨0, .refl _ _ _⟩
        · next bitmap hread =>
          split
          · exact ih
          · next bit hfind =>
            refine ⟨wrappingAdd 64 prefGroup delta % v.sb.groupCount, ?_⟩
            split
            · next htake => exact takeBits_settled hgd htake
            · next htake => exact takeBits_settled hgd htake

/-- What the loop over the groups answers. -/
theorem settled_of_scan {prefGroup count : Nat} {find : Nat → Nat → List Byte → Option Nat}
    {deltas : List Nat} {r : KernelResult (Nat × Nat) × Volume}
    (h : v.scanGroups kind prefGroup count find deltas = r) : ∃ g, v.Settled kind g r := by
  rw [← h]
  exact scanGroups_settled deltas

theorem allocBlock_settled (v : Volume) (goal : Nat) :
    ∃ g, v.Settled .block g (v.allocBlock goal) := by
  unfold Volume.allocBlock
  simp only
  split
  · exact ⟨0, .refl _ _ _⟩
  · split
    · next hscan => exact settled_of_scan hscan
    · next hscan => exact settled_of_scan hscan

theorem allocBlocks_settled (v : Volume) (goal count : Nat) :
    ∃ g, v.Settled .block g (v.allocBlocks goal count) := by
  unfold Volume.allocBlocks
  simp only
  split
  · exact ⟨0, .refl _ _ _⟩
  · split
    · exact allocBlock_settled v goal
    · split
      · exact ⟨0, .refl _ _ _⟩
      · split
        · next hscan => exact settled_of_scan hscan
        · next hscan => exact settled_of_scan hscan

theorem allocInode_settled (v : Volume) (preferredGroup : Nat) (isDirectory : Bool) :
    ∃ g, v.Settled .inode g (v.allocInode preferredGroup isDirectory) := by
  unfold Volume.allocInode
  split
  · exact ⟨0, .refl _ _ _⟩
  · split
    · next hscan => exact settled_of_scan hscan
    · next hscan => exact settled_of_scan hscan

theorem releaseBit_settled (kind : Kind) (v : Volume) (g bit : Nat) :
    v.Settled kind g (v.releaseBit kind g bit) := by
  unfold Volume.releaseBit
  split
  · exact .refl _ _ _
  · next gd hgd =>
    split
    · exact .refl _ _ _
    · split
      · exact releaseBits_settled hgd rfl
      · exact .refl _ _ _

theorem freeBlock_settled (v : Volume) (blockNr : Nat) :
    v.Settled .block ((blockNr - v.sb.firstData) / v.sb.blocksPerGroup) (v.freeBlock blockNr) := by
  have h := releaseBit_settled .block v ((blockNr - v.sb.firstData) / v.sb.blocksPerGroup)
    ((blockNr - v.sb.firstData) % v.sb.blocksPerGroup)
  unfold Volume.freeBlock
  simp only
  split
  · exact .refl _ _ _
  · split
    · next hrelease => rwa [hrelease] at h
    · next hrelease => rwa [hrelease] at h

theorem freeInode_settled (v : Volume) (inodeNr : Nat) :
    v.Settled .inode (v.sb.inodeGroup inodeNr) (v.freeInode inodeNr) := by
  unfold Volume.freeInode
  split
  · exact .refl _ _ _
  · split
    · exact .refl _ _ _
    · exact releaseBit_settled .inode v _ _

/-! ## One round of a range -/

/-- The group of a block. -/
def ParsedSuperblock.blockGroup (sb : ParsedSuperblock) (blockNr : Nat) : Nat :=
  (blockNr - sb.firstData) / sb.blocksPerGroup

/-- What a round of `free_blocks` leaves and whether it met a block that was free. -/
def Volume.freeSegment (v : Volume) (cur segEnd : Nat) : KernelResult Bool × Volume :=
  let group := v.sb.blockGroup cur
  let firstBit := (cur - v.sb.firstData) % v.sb.blocksPerGroup
  match v.groupDescs[group]? with
  | none => (.error .invalidArgument, v)
  | some gd =>
    match readBitmap .block v.reader v.sb gd with
    | .error e => (.error e, v)
    | .ok bitmap =>
      let seg := (List.range (segEnd - cur)).foldl
        (fun seg offset => clearBit seg (firstBit + offset)) ⟨bitmap, 0, false⟩
      match releaseBits .block v group gd seg.bitmap seg.freed with
      | (.error e, v) => (.error e, v)
      | (.ok (), v) =>
        let reader := (List.range' cur (segEnd - cur)).foldl
          BlockReader.invalidateBlock v.reader
        (.ok seg.doubleFree, { v with reader })

/-- The flag of a double free is handed through the bits of a segment. -/
theorem clearBits_doubleFree (firstBit : Nat) (offsets : List Nat) (seg : Volume.Segment)
    (doubleFree : Bool) :
    offsets.foldl (fun seg offset => Volume.clearBit seg (firstBit + offset))
        { seg with doubleFree := doubleFree || seg.doubleFree } =
      let seg' := offsets.foldl (fun seg offset => Volume.clearBit seg (firstBit + offset)) seg
      { seg' with doubleFree := doubleFree || seg'.doubleFree } := by
  induction offsets generalizing seg with
  | nil => rfl
  | cons offset rest ih =>
    rw [List.foldl_cons, List.foldl_cons, ← ih]
    congr 1
    unfold Volume.clearBit
    simp only
    split
    · rfl
    · simp

/-- The loop goes from round to round. -/
theorem freeBlocksLoop_succ (v : Volume) (theEnd fuel cur : Nat) (doubleFree : Bool) (h : cur < theEnd) :
    v.freeBlocksLoop theEnd (fuel + 1) cur doubleFree =
      let segEnd := min theEnd (v.sb.firstData + (v.sb.blockGroup cur + 1) * v.sb.blocksPerGroup)
      match v.freeSegment cur segEnd with
      | (.error e, v) => (.error e, v)
      | (.ok found, v) => v.freeBlocksLoop theEnd fuel segEnd (doubleFree || found) := by
  rw [Volume.freeBlocksLoop, if_pos h]
  unfold Volume.freeSegment ParsedSuperblock.blockGroup
  cases hgd : v.groupDescs[(cur - v.sb.firstData) / v.sb.blocksPerGroup]? with
  | none => simp only [hgd]
  | some gd =>
    cases hread : readBitmap .block v.reader v.sb gd with
    | error e => simp only [hgd, hread]
    | ok bitmap =>
      have hfold := clearBits_doubleFree ((cur - v.sb.firstData) % v.sb.blocksPerGroup)
        (List.range (min theEnd (v.sb.firstData +
          ((cur - v.sb.firstData) / v.sb.blocksPerGroup + 1) * v.sb.blocksPerGroup) - cur))
        ⟨bitmap, 0, false⟩ doubleFree
      rw [Bool.or_false] at hfold
      simp only [hgd, hread, hfold]
      generalize Volume.releaseBits .block v _ gd _ _ = released
      obtain ⟨e | u, v'⟩ := released
      · rfl
      · rfl

/-- A release that went through leaves the geometry and the places of the bitmaps as they are. -/
theorem releaseBits_frame (hgd : v.groupDescs[g]? = some gd) {freed : Nat}
    (h : v.releaseBits kind g gd bitmap freed = (.ok (), v')) :
    v'.sb.firstData = v.sb.firstData ∧ v'.sb.blocksPerGroup = v.sb.blocksPerGroup ∧
      ∀ kind' g', v'.bitmapRefusal kind' g' = v.bitmapRefusal kind' g' := by
  unfold Volume.releaseBits at h
  split at h
  · cases h
  · next reader gd' hwrite =>
    obtain ⟨-, rfl⟩ := Prod.mk.inj h
    obtain ⟨-, haddress, hdevice, -⟩ := writeBitmap_frame hwrite
    have hframe := (Kind.repeat_setDescFree_frame kind gd' v.sb.is64bit freed
      (kind.incrementDescFree v.sb.is64bit) fun gd => ⟨_, rfl⟩).1
    have h64 : (kind.raiseSbFree v.sb freed).is64bit = v.sb.is64bit := by cases kind <;> rfl
    refine ⟨by cases kind <;> rfl, by cases kind <;> rfl, fun kind' g' => ?_⟩
    unfold Volume.bitmapRefusal
    have hlt : g < v.groupDescs.length := (List.getElem?_eq_some_iff.1 hgd).1
    by_cases hg : g' = g
    · subst hg
      simp only [List.getElem?_set_self hlt, hgd, h64, hdevice, hframe, haddress]
    · simp only [List.getElem?_set_ne (Ne.symm hg), h64, hdevice]

/-- Dropping blocks from the cache changes nothing of what the device refuses. -/
theorem refusesWrite_invalidateBlocks (blocks : List Nat) (reader : BlockReader) :
    (blocks.foldl BlockReader.invalidateBlock reader).refusesWrite = reader.refusesWrite := by
  induction blocks generalizing reader with
  | nil => rfl
  | cons nr rest ih => exact ih (reader.invalidateBlock nr)

/-- A round that is refused keeps the volume. -/
theorem freeSegment_refused {cur segEnd : Nat} {e : KernelError}
    (h : v.freeSegment cur segEnd = (.error e, v')) : v.Kept .block (v.sb.blockGroup cur) v' := by
  unfold Volume.freeSegment at h
  simp only at h
  split at h
  · obtain ⟨-, rfl⟩ := Prod.mk.inj h
    exact .refl _ _ _
  · next gd hgd =>
    split at h
    · obtain ⟨-, rfl⟩ := Prod.mk.inj h
      exact .refl _ _ _
    · split at h
      · next hrelease =>
        obtain ⟨-, rfl⟩ := Prod.mk.inj h
        exact releaseBits_settled hgd hrelease
      · cases h

/-- A round that is not refused had its bitmap taken. -/
theorem freeSegment_taken {cur segEnd : Nat} {found : Bool}
    (h : v.freeSegment cur segEnd = (.ok found, v')) :
    v.bitmapRefusal .block (v.sb.blockGroup cur) = none ∧
      v'.sb.firstData = v.sb.firstData ∧ v'.sb.blocksPerGroup = v.sb.blocksPerGroup ∧
      ∀ kind g, v'.bitmapRefusal kind g = v.bitmapRefusal kind g := by
  unfold Volume.freeSegment at h
  simp only at h
  split at h
  · cases h
  · next gd hgd =>
    split at h
    · cases h
    · split at h
      · cases h
      · next v₁ hrelease =>
        obtain ⟨-, rfl⟩ := Prod.mk.inj h
        have hsettled := releaseBits_settled hgd hrelease
        obtain ⟨hfirst, hper, hrefusal⟩ := releaseBits_frame hgd hrelease
        refine ⟨hsettled.1, hfirst, hper, fun kind g => ?_⟩
        rw [← hrefusal kind g]
        unfold Volume.bitmapRefusal
        simp only [refusesWrite_invalidateBlocks]

/-! ## A range -/

/-- The blocks of a round are all in the group of its first one. -/
theorem blockGroup_eq_of_round {sb : ParsedSuperblock} {cur n : Nat} (hper : 0 < sb.blocksPerGroup)
    (hlo : cur ≤ n) (hhi : n < sb.firstData + (sb.blockGroup cur + 1) * sb.blocksPerGroup) :
    sb.blockGroup n = sb.blockGroup cur := by
  have hle : sb.blockGroup cur ≤ sb.blockGroup n := Nat.div_le_div_right (by omega)
  have hlt : sb.blockGroup n < sb.blockGroup cur + 1 := by
    refine Nat.div_lt_of_lt_mul ?_
    rw [Nat.mul_comm]
    have hpos : 0 < (sb.blockGroup cur + 1) * sb.blocksPerGroup := Nat.mul_pos (Nat.succ_pos _) hper
    omega
  omega

/-- The rounds of a range go through up to some block. A round that does not ends the loop, and has kept
the volume that the release of the blocks before it leaves. -/
theorem freeBlocksLoop_settled (theEnd fuel : Nat) : ∀ (cur : Nat) (doubleFree : Bool) (v : Volume),
    cur ≤ theEnd → theEnd ≤ cur + fuel → v.sb.firstData ≤ cur → 0 < v.sb.blocksPerGroup →
    ∃ mid, cur ≤ mid ∧ mid ≤ theEnd ∧
      (∀ n, cur ≤ n → n < mid → v.bitmapRefusal .block (v.sb.blockGroup n) = none) ∧
      (mid < theEnd → ∃ e, (v.freeBlocksLoop theEnd fuel cur doubleFree).1 = .error e ∧
        ∀ fuel' doubleFree', mid ≤ cur + fuel' →
          (v.freeBlocksLoop mid fuel' cur doubleFree').2.Kept .block (v.sb.blockGroup mid)
            (v.freeBlocksLoop theEnd fuel cur doubleFree).2) := by
  induction fuel with
  | zero =>
    intro cur doubleFree v hle hfuel hfirst hper
    exact ⟨theEnd, hle, le_rfl, fun n hlo hhi => by omega, fun h => by omega⟩
  | succ fuel ih =>
    intro cur doubleFree v hle hfuel hfirst hper
    rcases Nat.lt_or_ge cur theEnd with hlt | hge
    · rw [freeBlocksLoop_succ v theEnd fuel cur doubleFree hlt]
      simp only
      set groupEnd := v.sb.firstData + (v.sb.blockGroup cur + 1) * v.sb.blocksPerGroup with hgroupEnd
      have hinside : cur < groupEnd := by
        have hmod := Nat.mod_lt (cur - v.sb.firstData) hper
        have hdiv := Nat.div_add_mod' (cur - v.sb.firstData) v.sb.blocksPerGroup
        rw [hgroupEnd, ParsedSuperblock.blockGroup, Nat.succ_mul]
        omega
      cases hround : v.freeSegment cur (min theEnd groupEnd) with
      | mk r v₁ =>
        cases r with
        | error e =>
          -- the round at `cur` is the one that does not go through
          refine ⟨cur, le_rfl, hle, fun n hlo hhi => by omega, fun _ => ⟨e, rfl, ?_⟩⟩
          intro fuel' doubleFree' _
          have hnothing : (v.freeBlocksLoop cur fuel' cur doubleFree').2 = v := by
            cases fuel' with
            | zero => rfl
            | succ fuel' =>
              rw [Volume.freeBlocksLoop, if_neg (lt_irrefl cur)]
          rw [hnothing]
          exact freeSegment_refused hround
        | ok found =>
          obtain ⟨htaken, hfirst₁, hper₁, hrefusal⟩ := freeSegment_taken hround
          have hgroup : v₁.sb.blockGroup = v.sb.blockGroup := by
            funext n
            rw [ParsedSuperblock.blockGroup, ParsedSuperblock.blockGroup, hfirst₁, hper₁]
          obtain ⟨mid, hmid, hmidEnd, hbefore, hstop⟩ := ih (min theEnd groupEnd) (doubleFree || found) v₁
            (Nat.min_le_left _ _) (by omega) (by omega) (by omega)
          refine ⟨mid, by omega, hmidEnd, fun n hlo hhi => ?_, fun hmidLt => ?_⟩
          · rcases Nat.lt_or_ge n (min theEnd groupEnd) with hn | hn
            · rw [blockGroup_eq_of_round hper hlo (by omega), htaken]
            · have h := hbefore n hn hhi
              rwa [hrefusal, hgroup] at h
          · obtain ⟨e, he, hkept⟩ := hstop hmidLt
            refine ⟨e, he, fun fuel' doubleFree' hfuel' => ?_⟩
            cases fuel' with
            | zero => omega
            | succ fuel' =>
              have hend : min mid groupEnd = min theEnd groupEnd := by omega
              rw [freeBlocksLoop_succ v mid fuel' cur doubleFree' (by omega), ← hgroupEnd]
              simp only [hend, hround]
              rw [← hgroup]
              exact hkept fuel' _ (by omega)
    · exact ⟨theEnd, hle, le_rfl, fun n hlo hhi => by omega, fun h => by omega⟩

/-- The release of a range comes as far as `mid`: the device took the bitmaps of the blocks before it,
and where that is not all of the range, the call fails and has kept the volume that the release of the
blocks before `mid` leaves. -/
structure Volume.StoppedAt (v : Volume) (startBlock count mid : Nat) : Prop where
  start_le : startBlock ≤ mid
  le_end : mid ≤ startBlock + count
  taken : ∀ n, startBlock ≤ n → n < mid → v.bitmapRefusal .block (v.sb.blockGroup n) = none
  failed : mid < startBlock + count → ∃ e, (v.freeBlocks startBlock count).1 = .error e
  kept : mid < startBlock + count →
    (v.freeBlocks startBlock (mid - startBlock)).2.Kept .block (v.sb.blockGroup mid)
      (v.freeBlocks startBlock count).2

theorem freeBlocks_stopped (v : Volume) (startBlock count : Nat) :
    ∃ mid, v.StoppedAt startBlock count mid := by
  -- a range that is refused at once leaves the volume that the release of no block leaves
  have hrefused : ∀ e, v.freeBlocks startBlock count = (.error e, v) →
      v.StoppedAt startBlock count startBlock := by
    intro e he
    refine ⟨le_rfl, by omega, fun n hlo hhi => by omega, fun _ => ⟨e, by rw [he]⟩, fun _ => ?_⟩
    rw [he, Nat.sub_self]
    exact .refl _ _ v
  by_cases hcount : count = 0
  · subst hcount
    exact ⟨startBlock, le_rfl, le_rfl, fun n hlo hhi => by omega, fun h => by omega, fun h => by omega⟩
  by_cases hbad : v.sb.blocksPerGroup = 0 ∨ startBlock < v.sb.firstData
  · refine ⟨startBlock, hrefused .invalidArgument ?_⟩
    rw [Volume.freeBlocks, if_neg hcount, if_pos hbad]
  cases hend : checkedAdd 64 startBlock count with
  | none =>
    refine ⟨startBlock, hrefused .invalidArgument ?_⟩
    rw [Volume.freeBlocks, if_neg hcount, if_neg hbad]
    simp only [hend]
  | some theEnd =>
    obtain ⟨hword, rfl⟩ : startBlock + count < 2 ^ 64 ∧ startBlock + count = theEnd := by
      unfold checkedAdd at hend
      split at hend
      · exact ⟨by assumption, Option.some.inj hend⟩
      · cases hend
    have hloop : ∀ n, n ≤ count →
        (v.freeBlocks startBlock n).2 = (v.freeBlocksLoop (startBlock + n) n startBlock false).2 := by
      intro n hn
      by_cases hzero : n = 0
      · subst hzero
        rfl
      · have hadd : checkedAdd 64 startBlock n = some (startBlock + n) := by
          unfold checkedAdd
          exact if_pos (by omega)
        rw [Volume.freeBlocks, if_neg hzero, if_neg hbad]
        simp only [hadd]
    have hresult : v.freeBlocks startBlock count =
        v.freeBlocksLoop (startBlock + count) count startBlock false := by
      rw [Volume.freeBlocks, if_neg hcount, if_neg hbad]
      simp only [hend]
    obtain ⟨mid, hmid, hmidEnd, hbefore, hstop⟩ := freeBlocksLoop_settled (startBlock + count) count
      startBlock false v (by omega) (by omega) (by omega) (by omega)
    refine ⟨mid, hmid, hmidEnd, hbefore, fun hlt => ?_, fun hlt => ?_⟩
    · rw [hresult]
      obtain ⟨e, he, -⟩ := hstop hlt
      exact ⟨e, he⟩
    · rw [hresult, hloop (mid - startBlock) (by omega), Nat.add_sub_cancel' hmid]
      obtain ⟨e, -, hkept⟩ := hstop hlt
      exact hkept (mid - startBlock) false (by omega)

end

/-- A refused bitmap: a call on one group has kept the volume but for the checksum of that bitmap, and
the release of a range has kept, in the same sense, what the release of the blocks before some block of
the range leaves, a block that comes no later than the first refused one. -/
theorem failed_bitmap_write (v : Volume) :
    (∀ goal, ∃ g, v.Settled .block g (v.allocBlock goal)) ∧
    (∀ goal count, ∃ g, v.Settled .block g (v.allocBlocks goal count)) ∧
    (∀ preferredGroup isDirectory, ∃ g, v.Settled .inode g (v.allocInode preferredGroup isDirectory)) ∧
    (∀ blockNr, v.Settled .block (v.sb.blockGroup blockNr) (v.freeBlock blockNr)) ∧
    (∀ inodeNr, v.Settled .inode (v.sb.inodeGroup inodeNr) (v.freeInode inodeNr)) ∧
    ∀ startBlock count n, startBlock ≤ n → n < startBlock + count →
      v.bitmapRefusal .block (v.sb.blockGroup n) ≠ none →
      ∃ mid e, startBlock ≤ mid ∧ mid ≤ n ∧ (v.freeBlocks startBlock count).1 = .error e ∧
        (v.freeBlocks startBlock (mid - startBlock)).2.Kept .block (v.sb.blockGroup mid)
          (v.freeBlocks startBlock count).2 := by
  refine ⟨allocBlock_settled v, allocBlocks_settled v, allocInode_settled v, freeBlock_settled v,
    freeInode_settled v, fun startBlock count n hlo hhi hrefused => ?_⟩
  obtain ⟨mid, hstopped⟩ := freeBlocks_stopped v startBlock count
  -- the device took every bitmap before `mid`
  have hmid : mid ≤ n := by
    by_contra hlt
    exact hrefused (hstopped.taken n hlo (by omega))
  obtain ⟨e, he⟩ := hstopped.failed (by omega)
  exact ⟨mid, e, hstopped.start_le, hmid, he, hstopped.kept (by omega)⟩

/-! ## Two refusals -/

/-- A descriptor with the checksum of a bitmap that has the last byte's lowest bit set. -/
def stampedDesc : Ext4GroupDesc :=
  { zeroDesc with bgBlockBitmapCsumLo := 0x7CFC, bgBlockBitmapCsumHi := 0x0D94 }

/-- A volume whose device refuses to write block 3, that bitmap. -/
def stampedVolume : Volume where
  reader :=
    { blockSize := 1024
      cached := fun _ => none
      disk := fun _ => List.replicate 1023 0#8 ++ [1#8]
      refusesRead := fun _ => none
      refusesWrite := fun nr => if nr = 3 then some (.ioError, 0) else none }
  sb := checksummedSuperblock true 64
  groupDescs := [stampedDesc]

/-- A volume of two groups whose device refuses to write the second group's bitmap, block 4. -/
def twoGroupVolume : Volume where
  reader :=
    { blockSize := 1024
      cached := fun _ => none
      disk := fun _ => List.replicate 1024 0xFF#8
      refusesRead := fun _ => none
      refusesWrite := fun nr => if nr = 4 then some (.ioError, 0) else none }
  sb :=
    { raw := ⟨1, 8, 8, 0, 0, 0⟩
      blockSize := 1024, blockCount := 17, freeBlockCount := 0, groupCount := 2, descSize := 32
      is64bit := false, hasMetadataCsum := false, csumSeed := 0 }
  groupDescs := [⟨3, 5, 0, 0, 0, 0, 0, 0, 0, 0, 0, 0⟩, ⟨4, 6, 0, 0, 0, 0, 0, 0, 0, 0, 0, 0⟩]

/-- The checksum of the one bitmap. -/
theorem crc32cSeed_stamped :
    crc32cSeed 0#32 (List.replicate 1023 0#8 ++ [1#8]) = 0x0D947CFC#32 := by
  have hraw : crc32cRaw 0#32 (List.replicate 1023 0#8 ++ [1#8]) =
      crc32cRaw (crc32cRaw 0#32 (List.replicate 1023 0#8)) [1#8] := List.foldl_append
  rw [crc32cSeed, hraw, crc32cRaw_zeros]
  decide +kernel

theorem stampedVolume_read :
    readBitmap .block stampedVolume.reader stampedVolume.sb stampedDesc =
      .ok (List.replicate 1023 0#8 ++ [1#8]) := by
  have hcontent : stampedVolume.reader.content
      (Kind.block.bitmapBlock stampedDesc stampedVolume.sb.is64bit) =
        List.replicate 1023 0#8 ++ [1#8] := rfl
  have hcsum : computeBitmapChecksum stampedVolume.sb (List.replicate 1023 0#8 ++ [1#8]) =
      0x0D947CFC#32 := crc32cSeed_stamped
  rw [readBitmap_given rfl rfl rfl, hcontent, hcsum]
  exact if_pos (by decide)

theorem stampedVolume_write :
    writeBitmap .block stampedVolume.reader stampedVolume.sb stampedDesc (List.replicate 1024 0#8) =
      (.error .ioError, (stampedVolume.reader.writeBlock 3 (List.replicate 1024 0#8)).2,
        Kind.block.setChecksum stampedDesc 64 (~~~0#32)) := by
  have hdevice : (stampedVolume.reader.writeBlock 3 (List.replicate 1024 0#8)).1 =
      .error .ioError := by
    rw [BlockReader.writeBlock, List.length_replicate]
    rfl
  have hcsum : computeBitmapChecksum stampedVolume.sb (List.replicate 1024 0#8) = ~~~0#32 :=
    crc32cSeed_zeros 1024
  rw [← hcsum]
  exact writeBitmap_refused rfl List.length_replicate hdevice

/-- The cleared bitmap's checksum is stamped, and its write is refused. -/
theorem stampedVolume_release :
    stampedVolume.releaseBit .block 0 8184 =
      (.error .ioError, { stampedVolume with
        reader := (stampedVolume.reader.writeBlock 3 (List.replicate 1024 0#8)).2
        groupDescs := [Kind.block.setChecksum stampedDesc 64 (~~~0#32)] }) := by
  have hset : bitmapTest (List.replicate 1023 0#8 ++ [1#8]) 8184 = true := by decide +kernel
  have hclear : bitmapClear (List.replicate 1023 0#8 ++ [1#8]) 8184 = List.replicate 1024 0#8 := by
    decide +kernel
  have hwrite := stampedVolume_write
  rw [← hclear] at hwrite
  rw [releaseBit_refused_write rfl stampedVolume_read hset hwrite, hclear]
  rfl

/-- The release of a range over both groups has kept what some shorter release leaves. -/
theorem failed_bitmap_write_two_groups :
    ∃ mid e, 8 ≤ mid ∧ mid ≤ 9 ∧ (twoGroupVolume.freeBlocks 8 2).1 = .error e ∧
      (twoGroupVolume.freeBlocks 8 (mid - 8)).2.Kept .block (twoGroupVolume.sb.blockGroup mid)
        (twoGroupVolume.freeBlocks 8 2).2 :=
  (failed_bitmap_write twoGroupVolume).2.2.2.2.2 8 2 9 (by decide) (by decide) (by decide +kernel)

/-- A refused write leaves a new checksum, and a range that is refused in its second group leaves its
first group's block released. -/
theorem refused_write_changes_volume :
    ((stampedVolume.freeBlock 8185).1 = .error .ioError ∧
      (stampedVolume.freeBlock 8185).2.groupDescs ≠ stampedVolume.groupDescs) ∧
    ((twoGroupVolume.freeBlocks 8 2).1 = .error .ioError ∧
      (twoGroupVolume.freeBlocks 8 2).2.sb ≠ twoGroupVolume.sb) := by
  refine ⟨?_, ?_⟩
  · have hgroup : (8185 - stampedVolume.sb.firstData) / stampedVolume.sb.blocksPerGroup = 0 := by
      decide
    have hbit : (8185 - stampedVolume.sb.firstData) % stampedVolume.sb.blocksPerGroup = 8184 := by
      decide
    rw [Volume.freeBlock, if_neg (by decide)]
    simp only [hgroup, hbit, stampedVolume_release]
    refine ⟨trivial, ?_⟩
    show [_] ≠ [stampedDesc]
    decide
  · refine ⟨?_, ?_⟩ <;> decide +kernel

end SlateOS.Fs.Ext4
