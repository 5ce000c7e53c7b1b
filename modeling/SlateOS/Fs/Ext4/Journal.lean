/-
# SlateOS.Fs.Ext4.Journal -- the write-ahead log

`kernel/src/fs/ext4/journal.rs`. The journal's blocks are a superblock at position 0 and a circular log
behind it. A commit writes a descriptor, the changed blocks and a commit block into the log, then the
changed blocks to their places. A replay walks the log twice, for the revoked blocks and for the data.
-/
import SlateOS.Foundation.MachineInt
import SlateOS.Foundation.OrderedMap
import SlateOS.Fs.Ext4.Io

namespace SlateOS.Fs.Ext4

open Foundation.MachineInt Kernel

/-- `JBD2_MAGIC`. -/
def jbd2Magic : Nat := 0xC03B3998

/-- `JBD2_FEATURE_INCOMPAT_64BIT`. -/
def jbd2FeatureIncompat64bit : Nat := 0x2

namespace BlockType

def descriptor : Nat := 1
def commit : Nat := 2
def superblockV1 : Nat := 3
def superblockV2 : Nat := 4
def revoke : Nat := 5

end BlockType

namespace TagFlags

def sameUuid : Nat := 2
def lastTag : Nat := 8

end TagFlags

/-! ## Big-endian numbers -/

/-- A big-endian number of `width` bytes at the offset, or 0 where the buffer is too short. -/
def readBe (width : Nat) (buf : List Byte) (offset : Nat) : Nat :=
  if offset + width ≤ buf.length then
    ((buf.drop offset).take width).foldl (fun n b => n * 256 + b.toNat) 0
  else 0

/-- `read_be32`. -/
def readBe32 (buf : List Byte) (offset : Nat) : Nat := readBe 4 buf offset

/-- `read_be64`. -/
def readBe64 (buf : List Byte) (offset : Nat) : Nat := readBe 8 buf offset

/-- `u32::to_be_bytes`. -/
def be32Bytes (val : Nat) : List Byte := [24, 16, 8, 0].map fun shift => BitVec.ofNat 8 (val >>> shift)

/-- `write_be32`: nothing is written where the buffer is too short. -/
def writeBe32 (buf : List Byte) (offset val : Nat) : List Byte :=
  if offset + 4 ≤ buf.length then buf.take offset ++ be32Bytes val ++ buf.drop (offset + 4) else buf

/-! ## The journal -/

/-- `JournalState`. -/
structure JournalState where
  blockSize : Nat
  maxLen : Nat
  firstBlock : Nat
  nextSequence : Nat
  writePos : Nat
  journalIno : Nat
  journalBlocks : List Nat
  has64bit : Bool
  deriving DecidableEq, Repr

/-- `Transaction`. -/
structure Transaction where
  sequence : Nat
  blocks : List (Nat × List Byte)

/-- `Journal`. -/
structure Journal where
  reader : BlockReader
  state : JournalState
  active : Option Transaction

/-- `BlockReader::new` on a reader's device; the model's device is addressed in the reader's own blocks. -/
def BlockReader.new (reader : BlockReader) (blockSize : Nat) : KernelResult BlockReader :=
  if blockSize = 0 ∨ ¬(∃ k < 32, blockSize = 2 ^ k) then .error .invalidArgument
  else if blockSize < 512 then .error .invalidArgument
  else .ok { reader with blockSize := blockSize }

/-- The state that `open` takes from the journal superblock. -/
def JournalState.parse (jsb : List Byte) (journalIno : Nat) (journalBlocks : List Nat) : JournalState where
  blockSize := readBe32 jsb 0x0C
  maxLen := readBe32 jsb 0x10
  firstBlock := readBe32 jsb 0x14
  nextSequence := readBe32 jsb 0x18
  writePos := readBe32 jsb 0x1C
  journalIno := journalIno
  journalBlocks := journalBlocks
  has64bit := readBe32 jsb 0x28 &&& jbd2FeatureIncompat64bit ≠ 0

namespace Journal

/-- `open`. -/
def openJournal (reader : BlockReader) (journalIno : Nat) (journalBlocks : List Nat)
    (fsBlockSize : Nat) : KernelResult Journal :=
  match journalBlocks.head? with
  | none => .error .invalidArgument
  | some jsbBlock => do
    let jsb ← reader.readBlock jsbBlock (List.replicate fsBlockSize 0)
    if readBe32 jsb 0x00 ≠ jbd2Magic then .error .ioError
    else if readBe32 jsb 0x04 ≠ BlockType.superblockV1 ∧ readBe32 jsb 0x04 ≠ BlockType.superblockV2 then
      .error .ioError
    else do
      let journalReader ← reader.new fsBlockSize
      .ok ⟨journalReader, .parse jsb journalIno journalBlocks, none⟩

/-- `needs_recovery`. -/
def needsRecovery (j : Journal) : Bool := j.state.writePos != 0

/-- `begin`. -/
def begin (j : Journal) : KernelResult Unit × Journal :=
  if j.active.isSome then (.error .invalidArgument, j)
  else (.ok (), { j with active := some ⟨j.state.nextSequence, []⟩ })

/-- `log_block`. -/
def logBlock (j : Journal) (blockNr : Nat) (data : List Byte) : KernelResult Unit × Journal :=
  match j.active with
  | none => (.error .invalidArgument, j)
  | some txn =>
    if data.length ≠ j.state.blockSize then (.error .invalidArgument, j)
    else (.ok (), { j with active := some { txn with blocks := txn.blocks ++ [(blockNr, data)] } })

end Journal

namespace JournalState

/-- `journal_phys_block`. -/
def journalPhysBlock (state : JournalState) (journalBlock : Nat) : KernelResult Nat :=
  match state.journalBlocks[journalBlock]? with
  | none => .error .ioError
  | some phys => .ok phys

/-- `advance_pos`. -/
def advancePos (state : JournalState) (pos : Nat) : Nat :=
  let next := saturatingAdd 32 pos 1
  if next ≥ state.maxLen then state.firstBlock else next

/-- A zeroed block with what `write_block_header` writes. -/
def headerBlock (state : JournalState) (blocktype sequence : Nat) : List Byte :=
  writeBe32 (writeBe32 (writeBe32 (List.replicate state.blockSize 0) 0 jbd2Magic) 4 blocktype) 8 sequence

end JournalState

/-! ## Commit -/

/-- The tags of a descriptor, the last one flagged. -/
def writeTags : List (Nat × List Byte) → Nat → List Byte → List Byte
  | [], _, buf => buf
  | (fsBlock, _) :: blocks, tagOffset, buf =>
    let flags := if blocks.isEmpty then TagFlags.sameUuid ||| TagFlags.lastTag else TagFlags.sameUuid
    writeTags blocks (tagOffset + 8)
      (writeBe32 (writeBe32 buf tagOffset (fsBlock % 2 ^ 32)) (tagOffset + 4) flags)

/-- What a block of the log is. -/
inductive LogKind
  | descriptor | data | commit
  deriving DecidableEq, Repr

/-- One `write_block` into the log, by the position in the journal. -/
structure LogWrite where
  kind : LogKind
  pos : Nat
  deriving DecidableEq, Repr

namespace JournalState

/-- The blocks a commit puts into the log, in order. -/
def logRecord (state : JournalState) (txn : Transaction) : List (LogKind × List Byte) :=
  (.descriptor, writeTags txn.blocks 12 (state.headerBlock BlockType.descriptor txn.sequence)) ::
    (txn.blocks.map fun block => (LogKind.data, block.2)) ++
      [(.commit, state.headerBlock BlockType.commit txn.sequence)]

/-- Blocks written to the log one after another, with the account `log` of the writes so far. -/
def writeLog (state : JournalState) : List (LogKind × List Byte) → Nat → List LogWrite → BlockReader →
    KernelResult Nat × List LogWrite × BlockReader
  | [], pos, log, reader => (.ok pos, log, reader)
  | (kind, buf) :: record, pos, log, reader =>
    match state.journalPhysBlock pos with
    | .error e => (.error e, log, reader)
    | .ok phys =>
      match reader.writeBlock phys buf with
      | (.error e, reader) => (.error e, log ++ [⟨kind, pos⟩], reader)
      | (.ok (), reader) => writeLog state record (state.advancePos pos) (log ++ [⟨kind, pos⟩]) reader

/-- `write_journal_superblock`, the flush at its end aside. -/
def writeJournalSuperblock (state : JournalState) (reader : BlockReader) :
    KernelResult Unit × BlockReader :=
  match state.journalPhysBlock 0 with
  | .error e => (.error e, reader)
  | .ok jsbPhys =>
    match reader.readBlock jsbPhys (List.replicate state.blockSize 0) with
    | .error e => (.error e, reader)
    | .ok buf =>
      reader.writeBlock jsbPhys (writeBe32 (writeBe32 buf 0x18 state.nextSequence) 0x1C state.writePos)

end JournalState

/-- The blocks of a transaction written to their places. -/
def writeHome : List (Nat × List Byte) → BlockReader → KernelResult Unit × BlockReader
  | [], reader => (.ok (), reader)
  | (fsBlock, data) :: blocks, reader =>
    match reader.writeBlock fsBlock data with
    | (.error e, reader) => (.error e, reader)
    | (.ok (), reader) => writeHome blocks reader

/-- What the device answers to the flushes of one call. A flush changes no block as a read sees it. -/
structure Flushes where
  afterLog : KernelResult Unit
  afterHome : KernelResult Unit
  afterSuperblock : KernelResult Unit

namespace Journal

/-- The end of `commit` and of `replay`: the superblock takes the new sequence and position. -/
def settle (j : Journal) (state : JournalState) (reader : BlockReader) (flushes : Flushes) :
    KernelResult Unit × Journal :=
  match state.writeJournalSuperblock reader with
  | (.error e, reader) => (.error e, { j with reader, state })
  | (.ok (), reader) => (flushes.afterSuperblock, { j with reader, state })

/-- The part of `commit` behind the check that the tags fit, and its writes to the log. -/
def commitTransaction (j : Journal) (txn : Transaction) (flushes : Flushes) :
    KernelResult Unit × List LogWrite × Journal :=
  match j.state.writeLog (j.state.logRecord txn) j.state.writePos [] j.reader with
  | (.error e, log, reader) => (.error e, log, { j with reader })
  | (.ok pos, log, reader) =>
    match flushes.afterLog with
    | .error e => (.error e, log, { j with reader })
    | .ok () =>
      match writeHome txn.blocks reader with
      | (.error e, reader) => (.error e, log, { j with reader })
      | (.ok (), reader) =>
        match flushes.afterHome with
        | .error e => (.error e, log, { j with reader })
        | .ok () =>
          let settled := j.settle { j.state with
            nextSequence := wrappingAdd 32 txn.sequence 1
            writePos := pos } reader flushes
          (settled.1, log, settled.2)

/-- `commit`, with its writes to the log. The transaction is gone whatever becomes of it. -/
def commit (j : Journal) (flushes : Flushes) : KernelResult Unit × List LogWrite × Journal :=
  match j.active with
  | none => (.error .invalidArgument, [], j)
  | some txn =>
    let taken := { j with active := none }
    if txn.blocks.isEmpty then (.ok (), [], taken)
    -- 12 bytes of header and 8 for each tag
    else if 12 + txn.blocks.length * 8 > j.state.blockSize then (.error .ioError, [], taken)
    else taken.commitTransaction txn flushes

end Journal

/-! ## Replay -/

/-- The block numbers of a descriptor's tags, up to the one flagged as the last. -/
def parseTags (buf : List Byte) (blockSize tagOffset : Nat) : List Nat :=
  if tagOffset + 8 ≤ blockSize then
    readBe32 buf tagOffset ::
      if readBe32 buf (tagOffset + 4) &&& TagFlags.lastTag ≠ 0 then []
      else parseTags buf blockSize (tagOffset + 8)
  else []
termination_by blockSize - tagOffset

/-- The block numbers of a revoke block, of 8 bytes each in a journal with 64-bit numbers and of 4 in
others, from the offset to the end `rCount`. -/
def parseRevokes (buf : List Byte) (has64bit : Bool) (rCount offset : Nat) : List Nat :=
  if offset + (if has64bit then 8 else 4) ≤ rCount then
    (if has64bit then readBe64 buf offset else readBe32 buf offset) ::
      parseRevokes buf has64bit rCount (offset + if has64bit then 8 else 4)
  else []
termination_by rCount - offset
decreasing_by split <;> split at * <;> omega

/-- The revoke table: the highest revoking sequence of each block. -/
abbrev RevokeTable := Std.TreeMap Nat Nat

/-- One record of the table. -/
def recordRevoke (seq : Nat) (table : RevokeTable) (blockNr : Nat) : RevokeTable :=
  match table[blockNr]? with
  | none => table.insert blockNr seq
  | some existing => if seq > existing then table.insert blockNr seq else table

namespace JournalState

/-- The block of the log at a position, when it carries the magic and the expected sequence. -/
def readLog (state : JournalState) (reader : BlockReader) (pos expectedSeq : Nat) :
    KernelResult (Option (List Byte)) := do
  let phys ← state.journalPhysBlock pos
  let buf ← reader.readBlock phys (List.replicate state.blockSize 0)
  if readBe32 buf 0 ≠ jbd2Magic ∨ readBe32 buf 8 ≠ expectedSeq then .ok none else .ok (some buf)

/-- `scan_revokes`, with the number of blocks still to be looked at. -/
def scanRevokes (state : JournalState) (reader : BlockReader) :
    Nat → Nat → Nat → RevokeTable → KernelResult (RevokeTable × Nat)
  | 0, _, expectedSeq, table => .ok (table, expectedSeq)
  | n + 1, pos, expectedSeq, table =>
    match state.readLog reader pos expectedSeq with
    | .error e => .error e
    | .ok none => .ok (table, expectedSeq)
    | .ok (some buf) =>
      let blocktype := readBe32 buf 4
      if blocktype = BlockType.descriptor then
        -- past the descriptor and its data blocks
        let dataBlockCount := (parseTags buf state.blockSize 12).length
        scanRevokes state reader n (state.advancePos^[dataBlockCount] (state.advancePos pos))
          expectedSeq table
      else if blocktype = BlockType.commit then
        scanRevokes state reader n (state.advancePos pos) (wrappingAdd 32 expectedSeq 1) table
      else if blocktype = BlockType.revoke then
        let revoked := parseRevokes buf state.has64bit (min (readBe32 buf 12) state.blockSize) 16
        scanRevokes state reader n (state.advancePos pos) expectedSeq
          (revoked.foldl (recordRevoke expectedSeq) table)
      else .ok (table, expectedSeq)

/-- The data blocks of one transaction copied to their places, those revoked since aside. -/
def replayData (state : JournalState) (table : RevokeTable) (txnSeq : Nat) :
    List Nat → Nat → Nat → BlockReader → KernelResult (Nat × Nat) × BlockReader
  | [], pos, replayed, reader => (.ok (pos, replayed), reader)
  | fsBlock :: blocks, pos, replayed, reader =>
    match state.journalPhysBlock pos with
    | .error e => (.error e, reader)
    | .ok dataPhys =>
      if table[fsBlock]?.any (· ≥ txnSeq) then
        replayData state table txnSeq blocks (state.advancePos pos) replayed reader
      else
        match reader.readBlock dataPhys (List.replicate state.blockSize 0) with
        | .error e => (.error e, reader)
        | .ok data =>
          match reader.writeBlock fsBlock data with
          | (.error e, reader) => (.error e, reader)
          | (.ok (), reader) =>
            replayData state table txnSeq blocks (state.advancePos pos)
              (saturatingAdd 32 replayed 1) reader

/-- `replay_with_revokes`, with the number of blocks still to be looked at: the blocks replayed, and the
position and the sequence it ends with. -/
def replayWithRevokes (state : JournalState) (table : RevokeTable) :
    Nat → Nat → Nat → Nat → BlockReader → KernelResult (Nat × Nat × Nat) × BlockReader
  | 0, pos, expectedSeq, replayed, reader => (.ok (replayed, pos, expectedSeq), reader)
  | n + 1, pos, expectedSeq, replayed, reader =>
    match state.readLog reader pos expectedSeq with
    | .error e => (.error e, reader)
    | .ok none => (.ok (replayed, pos, expectedSeq), reader)
    | .ok (some buf) =>
      let blocktype := readBe32 buf 4
      if blocktype = BlockType.descriptor then
        match state.replayData table expectedSeq (parseTags buf state.blockSize 12)
            (state.advancePos pos) replayed reader with
        | (.error e, reader) => (.error e, reader)
        | (.ok (pos, replayed), reader) =>
          replayWithRevokes state table n pos expectedSeq replayed reader
      else if blocktype = BlockType.commit then
        replayWithRevokes state table n (state.advancePos pos) (wrappingAdd 32 expectedSeq 1)
          replayed reader
      else if blocktype = BlockType.revoke then
        replayWithRevokes state table n (state.advancePos pos) expectedSeq replayed reader
      else (.ok (replayed, pos, expectedSeq), reader)

end JournalState

namespace Journal

/-- `replay`: the number of blocks copied. -/
def replay (j : Journal) (flushes : Flushes) : KernelResult Nat × Journal :=
  match j.state.scanRevokes j.reader j.state.maxLen j.state.writePos j.state.nextSequence ∅ with
  | .error e => (.error e, j)
  | .ok (table, _) =>
    match j.state.replayWithRevokes table j.state.maxLen j.state.writePos j.state.nextSequence 0
        j.reader with
    | (.error e, reader) => (.error e, { j with reader })
    | (.ok (replayed, finalPos, finalSeq), reader) =>
      match if replayed > 0 then flushes.afterHome else .ok () with
      | .error e => (.error e, { j with reader })
      | .ok () =>
        let settled := j.settle { j.state with nextSequence := finalSeq, writePos := finalPos }
          reader flushes
        (settled.1.map fun _ => replayed, settled.2)

end Journal

end SlateOS.Fs.Ext4
