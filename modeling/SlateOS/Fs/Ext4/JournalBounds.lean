/-
# SlateOS.Fs.Ext4.JournalBounds -- where a commit writes its log record

The write position goes round the log, from the first block behind the superblock to the last one. `open`
takes it from the superblock as it stands there, and a clean journal has 0 for it: the first commit to a
clean journal puts its descriptor over the journal superblock. A journal with something to recover stays
inside the log in every run.
-/
import SlateOS.Foundation.Runs
import SlateOS.Fs.Ext4.Journal

namespace SlateOS.Fs.Ext4

open Foundation Foundation.MachineInt Foundation.Runs Kernel

namespace JournalState

/-- The position belongs to the log. -/
def InLog (state : JournalState) (pos : Nat) : Prop := state.firstBlock ≤ pos ∧ pos < state.maxLen

/-- The log lies behind the superblock and is not empty. -/
structure Laid (state : JournalState) : Prop where
  first_pos : 0 < state.firstBlock
  first_lt : state.firstBlock < state.maxLen
  maxLen_lt : state.maxLen < 2 ^ 32

variable {state : JournalState} {pos : Nat}

theorem Laid.advancePos (h : state.Laid) (hpos : state.InLog pos) : state.InLog (state.advancePos pos) := by
  obtain ⟨hfirst, hlast⟩ := hpos
  have hlen := h.maxLen_lt
  have hnext : saturatingAdd 32 pos 1 = pos + 1 := saturatingAdd_of_lt (by omega)
  unfold JournalState.advancePos
  rw [hnext]
  simp only
  split
  · exact ⟨Nat.le_refl _, h.first_lt⟩
  · next hinside => exact ⟨by omega, by omega⟩

/-! ## One commit -/

/-- The writes so far stay on the account. -/
theorem log_subset_writeLog (record : List (LogKind × List Byte)) (pos : Nat) (log : List LogWrite)
    (reader : BlockReader) : log ⊆ (state.writeLog record pos log reader).2.1 := by
  induction record generalizing pos log reader with
  | nil => exact List.Subset.refl log
  | cons block record ih =>
    obtain ⟨kind, buf⟩ := block
    have happend : log ⊆ log ++ [⟨kind, pos⟩] := List.subset_append_left _ _
    unfold writeLog
    split
    · exact List.Subset.refl log
    · split
      · exact happend
      · exact List.Subset.trans happend (ih _ _ _)

/-- A log record that starts in the log stays in it, and so does the position behind it. -/
theorem Laid.writeLog (h : state.Laid) (record : List (LogKind × List Byte)) {log : List LogWrite}
    (reader : BlockReader) (hpos : state.InLog pos) (hlog : ∀ w ∈ log, state.InLog w.pos) :
    (∀ w ∈ (state.writeLog record pos log reader).2.1, state.InLog w.pos) ∧
      ∀ pos', (state.writeLog record pos log reader).1 = .ok pos' → state.InLog pos' := by
  induction record generalizing pos log reader with
  | nil =>
    refine ⟨hlog, fun pos' hok => ?_⟩
    cases hok
    exact hpos
  | cons block record ih =>
    obtain ⟨kind, buf⟩ := block
    have happend : ∀ w ∈ log ++ [⟨kind, pos⟩], state.InLog w.pos := by
      intro w hw
      rcases List.mem_append.1 hw with hw | hw
      · exact hlog w hw
      · obtain rfl := List.mem_singleton.1 hw
        exact hpos
    unfold JournalState.writeLog
    split
    · exact ⟨hlog, fun pos' hok => by cases hok⟩
    · split
      · exact ⟨happend, fun pos' hok => by cases hok⟩
      · exact ih _ (h.advancePos hpos) happend

/-- The two states have the same log. -/
structure SameLog (state state' : JournalState) : Prop where
  firstBlock : state'.firstBlock = state.firstBlock
  maxLen : state'.maxLen = state.maxLen

theorem SameLog.inLog {state' : JournalState} (h : SameLog state state') :
    state'.InLog pos ↔ state.InLog pos := by
  rw [InLog, InLog, h.firstBlock, h.maxLen]

theorem SameLog.laid {state' : JournalState} (h : SameLog state state') (hlaid : state.Laid) :
    state'.Laid := by
  obtain ⟨hpos, hlt, hlen⟩ := hlaid
  rw [← h.firstBlock] at hpos hlt
  rw [← h.maxLen] at hlt hlen
  exact ⟨hpos, hlt, hlen⟩

/-! ## One replay -/

theorem Laid.replayData (h : state.Laid) (table : RevokeTable) (txnSeq : Nat) (blocks : List Nat)
    {pos replayed : Nat} (reader : BlockReader) (hpos : state.InLog pos) {pos' replayed' : Nat}
    (hok : (state.replayData table txnSeq blocks pos replayed reader).1 = .ok (pos', replayed')) :
    state.InLog pos' := by
  induction blocks generalizing pos replayed reader with
  | nil =>
    obtain ⟨rfl, -⟩ := Prod.mk.inj (Except.ok.inj hok)
    exact hpos
  | cons fsBlock blocks ih =>
    unfold JournalState.replayData at hok
    -- every way through the body that goes on moves one position on
    split at hok
    · cases hok
    · split at hok
      · exact ih _ (h.advancePos hpos) hok
      · split at hok
        · cases hok
        · split at hok
          · cases hok
          · exact ih _ (h.advancePos hpos) hok

/-- The position in an answer of the walk. -/
theorem inLog_of_ok (hpos : state.InLog pos) {replayed seq replayed' pos' seq' : Nat}
    (heq : (.ok (replayed, pos, seq) : KernelResult (Nat × Nat × Nat)) = .ok (replayed', pos', seq')) :
    state.InLog pos' := by
  obtain ⟨-, hsame⟩ := Prod.mk.inj (Except.ok.inj heq)
  cases hsame
  exact hpos

theorem Laid.replayWithRevokes (h : state.Laid) (table : RevokeTable) (n : Nat)
    {pos expectedSeq replayed : Nat} (reader : BlockReader) (hpos : state.InLog pos)
    {replayed' pos' seq' : Nat}
    (hok : (state.replayWithRevokes table n pos expectedSeq replayed reader).1 =
      .ok (replayed', pos', seq')) : state.InLog pos' := by
  induction n generalizing pos expectedSeq replayed reader with
  | zero => exact inLog_of_ok hpos hok
  | succ n ih =>
    unfold JournalState.replayWithRevokes at hok
    split at hok
    · cases hok
    · exact inLog_of_ok hpos hok
    · simp only at hok
      split at hok
      · -- a descriptor, and the data behind it
        split at hok
        · cases hok
        · next hdata =>
          have hnext := h.replayData table _ _ reader (h.advancePos hpos) (congrArg Prod.fst hdata)
          exact ih _ hnext hok
      · split at hok
        · exact ih _ (h.advancePos hpos) hok
        · split at hok
          · exact ih _ (h.advancePos hpos) hok
          · exact inLog_of_ok hpos hok

end JournalState

namespace Journal

open JournalState (SameLog)

variable {state : JournalState} {j : Journal}

/-- The journal has the log of `state`, and will write into it next. -/
structure Within (state : JournalState) (j : Journal) : Prop where
  sameLog : SameLog state j.state
  inLog : state.InLog j.state.writePos

theorem Within.of_state {j' : Journal} (h : j.Within state) (hstate : j'.state = j.state) :
    j'.Within state := by
  obtain ⟨hsame, hin⟩ := h
  rw [← hstate] at hsame hin
  exact ⟨hsame, hin⟩

@[simp] theorem settle_state (state' : JournalState) (reader : BlockReader) (flushes : Flushes) :
    (j.settle state' reader flushes).2.state = state' := by
  unfold settle
  split <;> rfl

/-- A commit's writes lie in the log, and so will the next one's. -/
theorem Within.commit (hlaid : state.Laid) (h : j.Within state) (flushes : Flushes) :
    (∀ w ∈ (j.commit flushes).2.1, state.InLog w.pos) ∧ (j.commit flushes).2.2.Within state := by
  have hnone : ∀ w ∈ ([] : List LogWrite), state.InLog w.pos := List.forall_mem_nil _
  unfold Journal.commit
  split
  · exact ⟨hnone, h⟩
  · next txn _ =>
    simp only
    split
    · exact ⟨hnone, h.of_state rfl⟩
    · split
      · exact ⟨hnone, h.of_state rfl⟩
      · obtain ⟨hwrites, hend⟩ := (h.sameLog.laid hlaid).writeLog (j.state.logRecord txn) j.reader
          (h.sameLog.inLog.2 h.inLog) (List.forall_mem_nil _)
        unfold commitTransaction
        revert hwrites hend
        simp only
        generalize j.state.writeLog (j.state.logRecord txn) j.state.writePos [] j.reader = written
        obtain ⟨answer, log, reader⟩ := written
        intro hwrites hend
        have hlog : ∀ w ∈ log, state.InLog w.pos := fun w hw => h.sameLog.inLog.1 (hwrites w hw)
        cases answer with
        | error e => exact ⟨hlog, h.of_state rfl⟩
        | ok pos =>
          simp only
          -- the position moves only when everything else went well
          split
          · exact ⟨hlog, h.of_state rfl⟩
          · split
            · exact ⟨hlog, h.of_state rfl⟩
            · split
              · exact ⟨hlog, h.of_state rfl⟩
              · refine ⟨hlog, ?_, ?_⟩
                · rw [settle_state]
                  exact ⟨h.sameLog.firstBlock, h.sameLog.maxLen⟩
                · rw [settle_state]
                  exact h.sameLog.inLog.1 (hend pos rfl)

theorem Within.replay (hlaid : state.Laid) (h : j.Within state) (flushes : Flushes) :
    (j.replay flushes).2.Within state := by
  have hlaid' := h.sameLog.laid hlaid
  unfold Journal.replay
  split
  · exact h
  · next table _ _ =>
    split
    · exact h.of_state rfl
    · next hwalk =>
      have hend := hlaid'.replayWithRevokes table _ _ (h.sameLog.inLog.2 h.inLog) (congrArg Prod.fst hwalk)
      split
      · exact h.of_state rfl
      · refine ⟨?_, ?_⟩
        · rw [settle_state]
          exact ⟨h.sameLog.firstBlock, h.sameLog.maxLen⟩
        · rw [settle_state]
          exact h.sameLog.inLog.1 hend

end Journal

/-! ## Runs -/

/-- The journal, and its writes to the log so far. -/
structure LogSession where
  journal : Journal
  log : List LogWrite

namespace LogSession

open JournalState (SameLog)

/-- The calls; `device` is whatever happens to the device and its cache between them. -/
inductive Call
  | begin
  | logBlock (blockNr : Nat) (data : List Byte)
  | commit (flushes : Flushes)
  | replay (flushes : Flushes)
  | device (reader : BlockReader)

def step (s : LogSession) : Call → Option LogSession
  | .begin => some { s with journal := s.journal.begin.2 }
  | .logBlock blockNr data => some { s with journal := (s.journal.logBlock blockNr data).2 }
  | .commit flushes =>
    some ⟨(s.journal.commit flushes).2.2, s.log ++ (s.journal.commit flushes).2.1⟩
  | .replay flushes => some { s with journal := (s.journal.replay flushes).2 }
  | .device reader =>
    if reader.blockSize = s.journal.reader.blockSize then
      some { s with journal := { s.journal with reader := reader } }
    else none

/-- The sessions of all runs from an opened journal. -/
def Reachable (j : Journal) (s : LogSession) : Prop := Reach step (fun s => s = ⟨j, []⟩) s

/-- Every write went into the log, and none over the superblock. -/
def InBounds (s : LogSession) : Prop := ∀ w ∈ s.log, s.journal.state.InLog w.pos ∧ w.pos ≠ 0

/-- The invariant of a journal that starts inside its log. -/
structure Kept (state : JournalState) (s : LogSession) : Prop where
  within : s.journal.Within state
  log : ∀ w ∈ s.log, state.InLog w.pos

variable {state : JournalState} {j : Journal} {s s' : LogSession} {c : Call}

theorem begin_state (j : Journal) : j.begin.2.state = j.state := by
  unfold Journal.begin
  split <;> rfl

theorem logBlock_state (j : Journal) (blockNr : Nat) (data : List Byte) :
    (j.logBlock blockNr data).2.state = j.state := by
  unfold Journal.logBlock
  split
  · rfl
  · split <;> rfl

theorem Kept.step (hlaid : state.Laid) (h : s.Kept state) (hs : s.step c = some s') : s'.Kept state := by
  cases c with
  | begin =>
    cases hs
    exact ⟨h.within.of_state (begin_state _), h.log⟩
  | logBlock blockNr data =>
    cases hs
    exact ⟨h.within.of_state (logBlock_state _ _ _), h.log⟩
  | commit flushes =>
    cases hs
    obtain ⟨hwrites, hwithin⟩ := h.within.commit hlaid flushes
    refine ⟨hwithin, fun w hw => ?_⟩
    rcases List.mem_append.1 hw with hw | hw
    · exact h.log w hw
    · exact hwrites w hw
  | replay flushes =>
    cases hs
    exact ⟨h.within.replay hlaid flushes, h.log⟩
  | device reader =>
    simp only [LogSession.step] at hs
    split at hs
    · cases hs
      exact ⟨h.within.of_state rfl, h.log⟩
    · cases hs

theorem Kept.inBounds (hlaid : state.Laid) (h : s.Kept state) : s.InBounds := by
  intro w hw
  have hin := h.log w hw
  have hfirst := hlaid.first_pos
  exact ⟨h.within.sameLog.inLog.2 hin, by have := hin.1; omega⟩

end LogSession

/-! ## The opened journal -/

theorem foldl_be_lt (bytes : List Byte) (n : Nat) :
    bytes.foldl (fun n b => n * 256 + b.toNat) n < (n + 1) * 256 ^ bytes.length := by
  induction bytes generalizing n with
  | nil => simp
  | cons b bytes ih =>
    rw [List.foldl_cons, List.length_cons, Nat.pow_succ']
    have hbyte : n * 256 + b.toNat + 1 ≤ (n + 1) * 256 := by
      have := b.isLt
      omega
    calc bytes.foldl (fun n b => n * 256 + b.toNat) (n * 256 + b.toNat)
        < (n * 256 + b.toNat + 1) * 256 ^ bytes.length := ih _
      _ ≤ (n + 1) * 256 * 256 ^ bytes.length := Nat.mul_le_mul_right _ hbyte
      _ = (n + 1) * (256 * 256 ^ bytes.length) := Nat.mul_assoc _ _ _

theorem readBe_lt (width : Nat) (buf : List Byte) (offset : Nat) : readBe width buf offset < 256 ^ width := by
  unfold readBe
  split
  · next hlen =>
    have hlt := foldl_be_lt ((buf.drop offset).take width) 0
    have hwidth : ((buf.drop offset).take width).length = width := by
      rw [List.length_take, List.length_drop]
      omega
    rw [hwidth, Nat.zero_add, Nat.one_mul] at hlt
    exact hlt
  · exact Nat.pow_pos (by decide)

theorem BlockReader.new_spec {reader reader' : BlockReader} {blockSize : Nat}
    (h : reader.new blockSize = .ok reader') : 512 ≤ blockSize ∧ reader'.blockSize = blockSize := by
  unfold BlockReader.new at h
  split at h
  · cases h
  · split at h
    · cases h
    · next hsize =>
      cases h
      exact ⟨by omega, rfl⟩

namespace Journal

variable {reader : BlockReader} {journalIno fsBlockSize : Nat} {journalBlocks : List Nat} {j : Journal}

/-- What `open` checks for, and what it takes over unchecked from the superblock. -/
theorem openJournal_spec (h : openJournal reader journalIno journalBlocks fsBlockSize = .ok j) :
    journalBlocks ≠ [] ∧ 512 ≤ fsBlockSize ∧ j.active = none ∧ j.reader.blockSize = fsBlockSize ∧
      ∃ jsb, j.state = .parse jsb journalIno journalBlocks := by
  unfold openJournal at h
  split at h
  · cases h
  · next jsbBlock hhead =>
    have hblocks : journalBlocks ≠ [] := by
      rintro rfl
      cases hhead
    cases hread : reader.readBlock jsbBlock (List.replicate fsBlockSize 0) with
    | error e =>
      rw [hread] at h
      cases h
    | ok jsb =>
      rw [hread] at h
      simp only [bind, Except.bind] at h
      split at h
      · cases h
      · split at h
        · cases h
        · split at h
          · cases h
          · next journalReader hnew =>
            obtain ⟨hsize, hreader⟩ := BlockReader.new_spec hnew
            cases h
            exact ⟨hblocks, hsize, rfl, hreader, jsb, rfl⟩

/-- The superblock is valid: the log lies behind it, its block size is the file system's, and what is to
be replayed starts in the log, or nowhere when the journal is clean. -/
structure Valid (j : Journal) : Prop where
  first_pos : 0 < j.state.firstBlock
  first_lt : j.state.firstBlock < j.state.maxLen
  blockSize : j.state.blockSize = j.reader.blockSize
  start : j.state.writePos = 0 ∨ j.state.InLog j.state.writePos

theorem Valid.laid (h : j.Valid)
    (hopen : openJournal reader journalIno journalBlocks fsBlockSize = .ok j) :
    j.state.Laid := by
  obtain ⟨-, -, -, -, jsb, hstate⟩ := openJournal_spec hopen
  refine ⟨h.first_pos, h.first_lt, ?_⟩
  rw [hstate]
  exact readBe_lt 4 jsb 0x10

theorem commitTransaction_log (txn : Transaction) (flushes : Flushes) :
    (j.commitTransaction txn flushes).2.1 =
      (j.state.writeLog (j.state.logRecord txn) j.state.writePos [] j.reader).2.1 := by
  unfold commitTransaction
  generalize j.state.writeLog (j.state.logRecord txn) j.state.writePos [] j.reader = written
  obtain ⟨answer, log, reader⟩ := written
  cases answer with
  | error e => rfl
  | ok pos =>
    simp only
    split
    · rfl
    · split
      · rfl
      · split
        · rfl
        · rfl

/-- The descriptor goes to the write position. -/
theorem descriptor_mem_commitTransaction (txn : Transaction) (flushes : Flushes) {phys : Nat}
    (hphys : j.state.journalPhysBlock j.state.writePos = .ok phys) :
    ⟨.descriptor, j.state.writePos⟩ ∈ (j.commitTransaction txn flushes).2.1 := by
  rw [commitTransaction_log, JournalState.logRecord, List.cons_append, JournalState.writeLog, hphys]
  have hlast : (⟨.descriptor, j.state.writePos⟩ : LogWrite) ∈
      ([] ++ [⟨.descriptor, j.state.writePos⟩] : List LogWrite) := List.mem_singleton.2 rfl
  simp only
  split
  · exact hlast
  · exact JournalState.log_subset_writeLog _ _ _ _ hlast

/-- One block is logged and committed: the descriptor goes to the write position. -/
theorem commit_one (hactive : j.active = none) (hsize : 20 ≤ j.state.blockSize) (flushes : Flushes)
    {phys : Nat} (hphys : j.state.journalPhysBlock j.state.writePos = .ok phys) :
    ∃ s, run LogSession.step ⟨j, []⟩
        [.begin, .logBlock 0 (List.replicate j.state.blockSize 0), .commit flushes] = some s ∧
      ⟨.descriptor, j.state.writePos⟩ ∈ s.log := by
  have hbegin : j.begin.2 = { j with active := some ⟨j.state.nextSequence, []⟩ } := by
    rw [Journal.begin, hactive]
    rfl
  refine ⟨_, rfl, ?_⟩
  rw [hbegin]
  have hfits : ¬12 + 1 * 8 > j.state.blockSize := by omega
  simp only [logBlock, List.length_replicate, ne_eq, not_true_eq_false, if_false, List.nil_append, commit,
    List.isEmpty_cons, Bool.false_eq_true, List.length_singleton, if_neg hfits]
  exact descriptor_mem_commitTransaction _ flushes hphys

/-- From every opened journal with a valid superblock: all runs write their log records behind the
superblock and inside the journal exactly when the journal has something to recover. -/
theorem log_stays_in_bounds (hopen : openJournal reader journalIno journalBlocks fsBlockSize = .ok j)
    (hvalid : j.Valid) : (∀ s, LogSession.Reachable j s → s.InBounds) ↔ j.needsRecovery = true := by
  have hlaid := hvalid.laid hopen
  constructor
  · intro hbounds
    by_contra hclean
    have hzero : j.state.writePos = 0 := by simpa [needsRecovery] using hclean
    obtain ⟨hblocks, hsize, hactive, hreader, jsb, hstate⟩ := openJournal_spec hopen
    obtain ⟨jsbBlock, rest, rfl⟩ := List.exists_cons_of_ne_nil hblocks
    have hphys : j.state.journalPhysBlock j.state.writePos = .ok jsbBlock := by
      rw [hzero, hstate]
      rfl
    have hroom : 20 ≤ j.state.blockSize := by
      rw [hvalid.blockSize, hreader]
      omega
    obtain ⟨s, hrun, hmem⟩ := commit_one hactive hroom ⟨.ok (), .ok (), .ok ()⟩ hphys
    have hreach : LogSession.Reachable j s := Reach.of_run (.start rfl) hrun
    exact (hbounds s hreach _ hmem).2 hzero
  · intro hdirty s hreach
    have hne : j.state.writePos ≠ 0 := by simpa [needsRecovery] using hdirty
    have hkept : s.Kept j.state := by
      refine ReachBy.invariant ?_ (fun _ _ _ hs _ hstep => hs.step hlaid hstep) hreach
      rintro _ rfl
      refine ⟨⟨⟨rfl, rfl⟩, hvalid.start.resolve_left hne⟩, ?_⟩
      simp
    exact hkept.inBounds hlaid

/-- A journal superblock: eight blocks of 512 bytes, the log from block 1 on. -/
def smallSuperblock (start : Nat) : List Byte :=
  [jbd2Magic, BlockType.superblockV2, 0, 512, 8, 1, 1, start, 0, 0, 0].flatMap be32Bytes ++
    List.replicate 468 0

/-- A healthy device with this superblock in its first block. -/
def smallDevice (start : Nat) : BlockReader where
  blockSize := 512
  cached := fun _ => none
  disk := fun _ => smallSuperblock start
  refusesRead := fun _ => none
  refusesWrite := fun _ => none

/-- The journal as it is opened there. -/
def smallJournal (start : Nat) : Journal where
  reader := smallDevice start
  state := ⟨512, 8, 1, 1, start, 8, List.range 8, false⟩
  active := none

theorem openJournal_small {start : Nat}
    (hmagic : readBe32 (smallSuperblock start) 0 = jbd2Magic)
    (htype : readBe32 (smallSuperblock start) 4 = BlockType.superblockV2)
    (hparse : JournalState.parse (smallSuperblock start) 8 (List.range 8) = (smallJournal start).state) :
    openJournal (smallDevice start) 8 (List.range 8) 512 = .ok (smallJournal start) := by
  have hread : (smallDevice start).readBlock 0 (List.replicate 512 0) = .ok (smallSuperblock start) := by
    have hsize : ¬512 < (smallDevice start).blockSize := Nat.lt_irrefl 512
    rw [BlockReader.readBlock, List.length_replicate, if_neg hsize]
    show Except.ok (smallSuperblock start ++ (List.replicate 512 0).drop 512) = _
    rw [List.drop_replicate, List.replicate_zero, List.append_nil]
  have hnew : (smallDevice start).new 512 = .ok (smallDevice start) := by
    rw [BlockReader.new, if_neg (by decide), if_neg (by decide)]
    rfl
  rw [openJournal, show (List.range 8).head? = some 0 from rfl]
  simp only [hread, hnew, hmagic, htype, hparse, bind, Except.bind, ne_eq, not_true_eq_false, and_false,
    if_false]
  rfl

theorem log_stays_in_bounds_dirty :
    ∃ s, LogSession.Reachable (smallJournal 1) s ∧ ⟨.descriptor, 1⟩ ∈ s.log ∧ s.InBounds := by
  have hopen : openJournal (smallDevice 1) 8 (List.range 8) 512 = .ok (smallJournal 1) :=
    openJournal_small (by decide +kernel) (by decide +kernel) (by decide +kernel)
  have hvalid : (smallJournal 1).Valid := ⟨by decide, by decide, rfl, .inr ⟨by decide, by decide⟩⟩
  obtain ⟨s, hrun, hmem⟩ := commit_one (j := smallJournal 1) rfl (by decide) ⟨.ok (), .ok (), .ok ()⟩ rfl
  have hreach : LogSession.Reachable (smallJournal 1) s := Reach.of_run (.start rfl) hrun
  exact ⟨s, hreach, hmem, (log_stays_in_bounds hopen hvalid).2 rfl s hreach⟩

/-- The first commit to a clean journal writes over its superblock. -/
theorem clean_journal_overwritten :
    openJournal (smallDevice 0) 8 (List.range 8) 512 = .ok (smallJournal 0) ∧ (smallJournal 0).Valid ∧
      ∃ s, LogSession.Reachable (smallJournal 0) s ∧ ⟨.descriptor, 0⟩ ∈ s.log ∧ ¬s.InBounds := by
  refine ⟨openJournal_small (by decide +kernel) (by decide +kernel) (by decide +kernel),
    ⟨by decide, by decide, rfl, .inl rfl⟩, ?_⟩
  obtain ⟨s, hrun, hmem⟩ := commit_one (j := smallJournal 0) rfl (by decide) ⟨.ok (), .ok (), .ok ()⟩ rfl
  exact ⟨s, Reach.of_run (.start rfl) hrun, hmem, fun hbounds => (hbounds _ hmem).2 rfl⟩

end Journal

end SlateOS.Fs.Ext4
