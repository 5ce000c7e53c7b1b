/-
# SlateOS.Ipc.Pipe.Ends -- the ends of pipes and FIFOs over any run

The table runs beside the multiset of open handles. A pipe is `Counted` when its two counts are given
numbers and its two flags say whether these are zero; along a run the numbers are those of the open
handles that hold the end. Pipe ids are 64 bits wide and a handle keeps 40 of them, so the laws are
about runs that make fewer than 2^40 pipes; the last section shows what the next one is like.
-/
import SlateOS.Foundation.Runs
import SlateOS.Ipc.Pipe.Model
import Mathlib.Data.Multiset.AddSub

namespace SlateOS.Ipc

open Foundation.Runs Kernel
open Function (update update_of_ne)

namespace PipeHandle

theorem reads_or_writes (h : PipeHandle) : h.reads = true ∨ h.writes = true := by
  unfold reads writes
  cases h.theEnd <;> simp

theorem reads_new (id : PipeId) (e : PipeEnd) : (new id e).reads = decide (e ≠ .write) := by
  rw [reads, theEnd_new]
  cases e <;> rfl

theorem writes_new (id : PipeId) (e : PipeEnd) : (new id e).writes = decide (e ≠ .read) := by
  rw [writes, theEnd_new]
  cases e <;> rfl

theorem reads_withSeen (h : PipeHandle) (writers : BitVec 32) :
    (h.withSeen writers).reads = h.reads := by
  rw [reads, reads, theEnd_withSeen]

theorem writes_withSeen (h : PipeHandle) (writers : BitVec 32) :
    (h.withSeen writers).writes = h.writes := by
  rw [writes, writes, theEnd_withSeen]

end PipeHandle

/-! ## Counts and flags of one pipe -/

/-- The counts are `readers` and `writers`, and each flag says that its count is zero. -/
structure Counted (p : Pipe) (readers writers : Nat) : Prop where
  reader_count : p.readerRefcount = readers
  writer_count : p.writerRefcount = writers
  readClosed : p.readClosed = true ↔ readers = 0
  writeClosed : p.writeClosed = true ↔ writers = 0

namespace PipeTable

variable {p : Pipe} {readers writers : Nat}

theorem counted_new (capacity : Nat) : Counted (Pipe.new capacity) 1 1 :=
  ⟨rfl, rfl, by simp [Pipe.new], by simp [Pipe.new]⟩

theorem counted_fifoPipe (fileId : Nat) : Counted (fifoPipe fileId) 0 0 :=
  ⟨rfl, rfl, by simp [fifoPipe], by simp [fifoPipe]⟩

theorem addRef_eq_some {gains : Bool} {count n : Nat} (h : addRef gains count = some n) :
    n = count + gains.toNat := by
  unfold addRef at h
  cases gains with
  | false => simpa using h.symm
  | true =>
    rw [if_pos rfl] at h
    split at h
    · simpa using h.symm
    · simp at h

theorem closeRead_spec (h : Counted p readers writers) (hpos : 0 < readers) :
    Counted (closeRead p).2 (readers - 1) writers := by
  have hopen : p.readClosed = false := by
    rw [← Bool.not_eq_true, h.readClosed]
    omega
  unfold closeRead
  simp only [h.reader_count, hopen, and_true]
  split
  · rename_i hzero
    exact ⟨rfl, h.writer_count, by simp [hzero], h.writeClosed⟩
  · rename_i hzero
    exact ⟨rfl, h.writer_count, by simp [hzero], h.writeClosed⟩

theorem closeWrite_spec (h : Counted p readers writers) (hpos : 0 < writers) :
    Counted (closeWrite p).2 readers (writers - 1) := by
  have hopen : p.writeClosed = false := by
    rw [← Bool.not_eq_true, h.writeClosed]
    omega
  unfold closeWrite
  simp only [h.writer_count, hopen, and_true]
  split
  · rename_i hzero
    exact ⟨h.reader_count, rfl, h.readClosed, by simp [hzero]⟩
  · rename_i hzero
    exact ⟨h.reader_count, rfl, h.readClosed, by simp [hzero]⟩

/-! ## The open handles -/

/-- How many of the handles are of pipe `i` and hold the end. -/
def openEnds (holds : PipeHandle → Bool) (handles : Multiset PipeHandle) (i : PipeId) : Nat :=
  handles.countP fun h => h.pipeId = i ∧ holds h = true

theorem openEnds_cons (holds : PipeHandle → Bool) (h : PipeHandle) (handles : Multiset PipeHandle)
    (i : PipeId) :
    openEnds holds (h ::ₘ handles) i =
      openEnds holds handles i + if h.pipeId = i then (holds h).toNat else 0 := by
  unfold openEnds
  rw [Multiset.countP_cons]
  by_cases hi : h.pipeId = i
  · cases holds h <;> simp [hi]
  · simp [hi]

variable {i : PipeId}

theorem openEnds_eq_zero_of {holds : PipeHandle → Bool} {handles : Multiset PipeHandle}
    (h : ∀ g ∈ handles, g.pipeId ≠ i) : openEnds holds handles i = 0 :=
  Multiset.countP_eq_zero.2 fun g hg hgi => h g hg hgi.1

/-- Every handle holds an end. -/
theorem openEnds_both_eq_zero {handles : Multiset PipeHandle} :
    openEnds PipeHandle.reads handles i = 0 ∧ openEnds PipeHandle.writes handles i = 0 ↔
      ∀ g ∈ handles, g.pipeId ≠ i := by
  constructor
  · rintro ⟨hr, hw⟩ g hg hgi
    rcases g.reads_or_writes with hreads | hwrites
    · exact Multiset.countP_eq_zero.1 hr g hg ⟨hgi, hreads⟩
    · exact Multiset.countP_eq_zero.1 hw g hg ⟨hgi, hwrites⟩
  · exact fun h => ⟨openEnds_eq_zero_of h, openEnds_eq_zero_of h⟩

/-! ## The system -/

/-- The table, the open handles, and the FIFOs nobody has attached to yet. -/
structure Ends where
  table : PipeTable
  handles : Multiset PipeHandle
  unattached : PipeId → Bool

/-- A call. -/
inductive Call
  | create
  | fifoCreate (fileId : Nat)
  | fifoAttach (pipeId : PipeId) (access : FifoAccess) (nonblock : Bool)
  | dup (h : PipeHandle)
  | close (h : PipeHandle)

/-- One call. A handle is closed by one who has it open, or after its pipe has gone. -/
def step (s : Ends) : Call → Option Ends
  | .create =>
    some { s with
      table := s.table.create.2
      handles := s.table.create.1.1 ::ₘ s.table.create.1.2 ::ₘ s.handles }
  | .fifoCreate fileId =>
    some { s with
      table := (s.table.fifoCreate fileId).2
      unattached := update s.unattached (s.table.fifoCreate fileId).1 true }
  | .fifoAttach pipeId access nonblock =>
    match s.table.fifoAttach pipeId access nonblock with
    | (.ok ((h, _), _), table) =>
      some ⟨table, h ::ₘ s.handles, update s.unattached pipeId false⟩
    | (.error _, table) => some { s with table }
  | .dup h =>
    match s.table.dup h with
    | (.ok h, table) => some { s with table, handles := h ::ₘ s.handles }
    | (.error _, table) => some { s with table }
  | .close h =>
    if h ∈ s.handles ∨ (s.table.pipes h.pipeId).isNone then
      some { s with table := (s.table.close h).2, handles := s.handles.erase h }
    else none

/-- No pipe and no handle. -/
def start : Ends := ⟨empty, 0, fun _ => false⟩

/-- A new pipe's id fits the bits a handle has for it. -/
def Nameable (s : Ends) : Call → Prop
  | .create | .fifoCreate _ => s.table.nextPipeId.toNat < 2 ^ idBits
  | .fifoAttach .. | .dup _ | .close _ => True

/-- What holds in every state of a run. -/
structure Inv (s : Ends) : Prop where
  counted : ∀ i p, s.table.pipes i = some p →
    Counted p (openEnds PipeHandle.reads s.handles i) (openEnds PipeHandle.writes s.handles i)
  present : ∀ i, s.table.pipes i ≠ none ↔
    (∃ h ∈ s.handles, h.pipeId = i) ∨ s.unattached i = true
  pristine : ∀ i, s.unattached i = true → ∀ h ∈ s.handles, h.pipeId ≠ i
  below : ∀ i, s.table.pipes i ≠ none → i.toNat < s.table.nextPipeId.toNat
  nameable : s.table.nextPipeId.toNat ≤ 2 ^ idBits

/-! ## What each kind of change keeps -/

variable {s : Ends}

@[simp] theorem set_pipes_self (t : PipeTable) (i : PipeId) (q : Option Pipe) :
    (t.set i q).pipes i = q := by
  simp [PipeTable.set]

theorem set_pipes_of_ne (t : PipeTable) {i j : PipeId} (h : j ≠ i) (q : Option Pipe) :
    (t.set i q).pipes j = t.pipes j := by
  simp [PipeTable.set, h]

theorem openEnds_add (holds : PipeHandle → Bool) (hs gs : Multiset PipeHandle) (i : PipeId) :
    openEnds holds (hs + gs) i = openEnds holds hs i + openEnds holds gs i :=
  Multiset.countP_add _ _ _

/-- A pipe under a new id, with the handles made for it. -/
theorem Inv.newPipe (h : Inv s) (hname : s.table.nextPipeId.toNat < 2 ^ idBits) (p : Pipe)
    (hs : Multiset PipeHandle) (u : PipeId → Bool) (hall : ∀ g ∈ hs, g.pipeId = s.table.nextPipeId)
    (hcounted : Counted p (openEnds PipeHandle.reads hs s.table.nextPipeId)
      (openEnds PipeHandle.writes hs s.table.nextPipeId))
    (hu : ∀ i, i ≠ s.table.nextPipeId → u i = s.unattached i)
    (hnew : u s.table.nextPipeId = true ↔ hs = 0) :
    Inv ⟨{ s.table.set s.table.nextPipeId (some p) with nextPipeId := s.table.nextPipeId + 1 },
      hs + s.handles, u⟩ := by
  have hnone : s.table.pipes s.table.nextPipeId = none := by
    by_contra hne
    exact Nat.lt_irrefl _ (h.below _ hne)
  have hfree : ∀ g ∈ s.handles, g.pipeId ≠ s.table.nextPipeId := by
    intro g hg hgi
    exact (h.present _).2 (.inl ⟨g, hg, hgi⟩) hnone
  have hsucc : (s.table.nextPipeId + 1).toNat = s.table.nextPipeId.toNat + 1 := by
    have hlt : s.table.nextPipeId.toNat + 1 < 2 ^ 64 := by
      have : (2 : Nat) ^ idBits < 2 ^ 64 := by decide
      omega
    rw [BitVec.toNat_add]
    exact Nat.mod_eq_of_lt hlt
  refine ⟨fun i q hq => ?_, fun i => ?_, fun i hi g hg => ?_, fun i hi => ?_, ?_⟩
  · rw [openEnds_add, openEnds_add]
    by_cases hi : i = s.table.nextPipeId
    · subst hi
      obtain rfl : p = q := by simpa using hq
      rwa [openEnds_eq_zero_of hfree, openEnds_eq_zero_of hfree]
    · have hother : ∀ g ∈ hs, g.pipeId ≠ i := fun g hg hgi => hi (hgi.symm.trans (hall g hg))
      rw [openEnds_eq_zero_of hother, openEnds_eq_zero_of hother, Nat.zero_add, Nat.zero_add]
      exact h.counted i q ((set_pipes_of_ne s.table hi (some p)).symm.trans hq)
  · by_cases hi : i = s.table.nextPipeId
    · subst hi
      refine iff_of_true (by simp) ?_
      by_cases hempty : hs = 0
      · exact .inr (hnew.2 hempty)
      · obtain ⟨g, hg⟩ := Multiset.exists_mem_of_ne_zero hempty
        exact .inl ⟨g, Multiset.mem_add.2 (.inl hg), hall g hg⟩
    · show (s.table.set s.table.nextPipeId (some p)).pipes i ≠ none ↔
        (∃ g ∈ hs + s.handles, g.pipeId = i) ∨ u i = true
      rw [set_pipes_of_ne s.table hi, h.present i, hu i hi]
      refine or_congr_left ⟨?_, ?_⟩
      · rintro ⟨g, hg, hgi⟩
        exact ⟨g, Multiset.mem_add.2 (.inr hg), hgi⟩
      · rintro ⟨g, hg, hgi⟩
        rcases Multiset.mem_add.1 hg with hg | hg
        · exact absurd (hgi.symm.trans (hall g hg)) hi
        · exact ⟨g, hg, hgi⟩
  · by_cases hnext : i = s.table.nextPipeId
    · subst hnext
      obtain rfl := hnew.1 hi
      exact hfree g (by simpa using hg)
    · have hold : s.unattached i = true := by rwa [← hu i hnext]
      rcases Multiset.mem_add.1 hg with hg | hg
      · exact fun hgi => hnext (hgi.symm.trans (hall g hg))
      · exact h.pristine i hold g hg
  · show i.toNat < (s.table.nextPipeId + 1).toNat
    rw [hsucc]
    by_cases hnext : i = s.table.nextPipeId
    · rw [hnext]
      exact Nat.lt_succ_self _
    · exact Nat.lt_succ_of_lt (h.below i ((set_pipes_of_ne s.table hnext (some p)).symm.trans_ne hi))
  · show (s.table.nextPipeId + 1).toNat ≤ 2 ^ idBits
    omega

/-- A handle more on a pipe, with the counts and flags that go with it. -/
theorem Inv.addHandle (h : Inv s) {p p' : Pipe} {g : PipeHandle}
    (hp : s.table.pipes i = some p) (hg : g.pipeId = i)
    (hcounted : Counted p' (openEnds PipeHandle.reads s.handles i + g.reads.toNat)
      (openEnds PipeHandle.writes s.handles i + g.writes.toNat)) :
    Inv ⟨s.table.set i (some p'), g ::ₘ s.handles, update s.unattached i false⟩ := by
  refine ⟨fun j q hq => ?_, fun j => ?_, fun j hj f hf => ?_, fun j hj => ?_, h.nameable⟩
  · rw [openEnds_cons, openEnds_cons, hg]
    by_cases hj : j = i
    · subst hj
      obtain rfl : p' = q := by simpa using hq
      simpa using hcounted
    · rw [if_neg (Ne.symm hj), if_neg (Ne.symm hj)]
      exact h.counted j q ((set_pipes_of_ne s.table hj (some p')).symm.trans hq)
  · by_cases hj : j = i
    · subst hj
      exact iff_of_true (by simp) (.inl ⟨g, Multiset.mem_cons_self g _, hg⟩)
    · show (s.table.set i (some p')).pipes j ≠ none ↔
        (∃ f ∈ g ::ₘ s.handles, f.pipeId = j) ∨ update s.unattached i false j = true
      rw [set_pipes_of_ne s.table hj, h.present j, update_of_ne hj]
      refine or_congr_left ⟨?_, ?_⟩
      · rintro ⟨f, hf, hfj⟩
        exact ⟨f, Multiset.mem_cons_of_mem hf, hfj⟩
      · rintro ⟨f, hf, hfj⟩
        rcases Multiset.mem_cons.1 hf with rfl | hf
        · exact absurd (hfj.symm.trans hg) hj
        · exact ⟨f, hf, hfj⟩
  · have hne : j ≠ i := by
      rintro rfl
      simp at hj
    change update s.unattached i false j = true at hj
    rw [update_of_ne hne] at hj
    rcases Multiset.mem_cons.1 hf with rfl | hf
    · exact fun hfj => hne (hfj.symm.trans hg)
    · exact h.pristine j hj f hf
  · by_cases hij : j = i
    · subst hij
      exact h.below j (by simp [hp])
    · exact h.below j ((set_pipes_of_ne s.table hij (some p')).symm.trans_ne hj)

/-- A handle less on a pipe, which goes with its last handle. -/
theorem Inv.dropHandle (h : Inv s) {p : Pipe} {g : PipeHandle} {q : Option Pipe}
    (hp : s.table.pipes i = some p) (hg : g.pipeId = i) (hmem : g ∈ s.handles)
    (hcounted : ∀ p', q = some p' →
      Counted p' (openEnds PipeHandle.reads s.handles i - g.reads.toNat)
        (openEnds PipeHandle.writes s.handles i - g.writes.toNat))
    (hlast : q = none ↔ ∀ f ∈ s.handles.erase g, f.pipeId ≠ i) :
    Inv ⟨s.table.set i q, s.handles.erase g, s.unattached⟩ := by
  have hsplit := Multiset.cons_erase hmem
  have hends : ∀ holds : PipeHandle → Bool, ∀ j, openEnds holds s.handles j =
      openEnds holds (s.handles.erase g) j + if i = j then (holds g).toNat else 0 := by
    intro holds j
    rw [← hg, ← openEnds_cons, hsplit]
  refine ⟨fun j p' hq => ?_, fun j => ?_, fun j hj f hf => ?_, fun j hj => ?_, h.nameable⟩
  · by_cases hj : j = i
    · subst hj
      have hc := hcounted p' (by simpa using hq)
      simpa [hends] using hc
    · have hc := h.counted j p' ((set_pipes_of_ne s.table hj q).symm.trans hq)
      rwa [hends, hends, if_neg (Ne.symm hj), if_neg (Ne.symm hj)] at hc
  · by_cases hj : j = i
    · subst hj
      have hunatt : s.unattached j = false := by
        rw [← Bool.not_eq_true]
        exact fun hu => h.pristine j hu g hmem hg
      simp only [set_pipes_self, hunatt, Bool.false_eq_true, or_false, ne_eq, hlast, not_forall,
        not_not, exists_prop]
    · rw [set_pipes_of_ne s.table hj, h.present j]
      refine or_congr_left ⟨?_, ?_⟩
      · rintro ⟨f, hf, hfj⟩
        rw [← hsplit] at hf
        rcases Multiset.mem_cons.1 hf with rfl | hf
        · exact absurd (hfj.symm.trans hg) hj
        · exact ⟨f, hf, hfj⟩
      · rintro ⟨f, hf, hfj⟩
        exact ⟨f, Multiset.mem_of_mem_erase hf, hfj⟩
  · exact h.pristine j hj f (Multiset.mem_of_mem_erase hf)
  · by_cases hij : j = i
    · subst hij
      exact h.below j (by simp [hp])
    · exact h.below j ((set_pipes_of_ne s.table hij q).symm.trans_ne hj)

/-! ## The calls -/

theorem attached_spec (hi : i.toNat < 2 ^ idBits) (access : FifoAccess) (nonblock : Bool)
    (readers writers : Nat) (link : FifoLink) :
    (attached i access nonblock readers writers link).1.pipeId = i ∧
      (attached i access nonblock readers writers link).1.reads = access.reads ∧
      (attached i access nonblock readers writers link).1.writes = access.writes := by
  have hid := fun e => PipeHandle.pipeId_new_of_lt hi e
  cases access with
  | read =>
    unfold attached
    simp only
    split
    · rw [PipeHandle.pipeId_withSeen, PipeHandle.reads_withSeen, PipeHandle.writes_withSeen]
      exact ⟨hid _, PipeHandle.reads_new _ _, PipeHandle.writes_new _ _⟩
    · exact ⟨hid _, PipeHandle.reads_new _ _, PipeHandle.writes_new _ _⟩
  | write => exact ⟨hid _, PipeHandle.reads_new _ _, PipeHandle.writes_new _ _⟩
  | both => exact ⟨hid _, PipeHandle.reads_new _ _, PipeHandle.writes_new _ _⟩

/-- A flag stays right when its end gains a reference and is marked open. -/
theorem flag_opened {closed gains : Bool} {count : Nat} (h : closed = true ↔ count = 0) :
    (if gains then false else closed) = true ↔ count + gains.toNat = 0 := by
  cases gains <;> simp [h]

/-- `fifo_attach` fails and changes nothing, or adds one reference to each end it opens. -/
theorem fifoAttach_spec {t : PipeTable} (hi : i.toNat < 2 ^ idBits) (access : FifoAccess)
    (nonblock : Bool) :
    (∃ e, t.fifoAttach i access nonblock = (.error e, t)) ∨
      ∃ p p' answer wakes, t.pipes i = some p ∧
        t.fifoAttach i access nonblock = (.ok (answer, wakes), t.set i (some p')) ∧
        answer.1.pipeId = i ∧ ∀ readers writers, Counted p readers writers →
          Counted p' (readers + answer.1.reads.toNat) (writers + answer.1.writes.toNat) := by
  unfold fifoAttach
  split
  · exact .inl ⟨_, rfl⟩
  · rename_i p hp
    split
    · exact .inl ⟨_, rfl⟩
    · rename_i link hlink
      simp only
      split
      · exact .inl ⟨_, rfl⟩
      · split
        · rename_i newReaders newWriters hr hw
          refine .inr ⟨p, _, _, _, hp, rfl, ?_, ?_⟩
          · exact (attached_spec hi _ _ _ _ _).1
          · intro readers writers hc
            rw [(attached_spec hi _ _ _ _ _).2.1, (attached_spec hi _ _ _ _ _).2.2]
            refine ⟨?_, ?_, flag_opened hc.readClosed, flag_opened hc.writeClosed⟩
            · rw [← hc.reader_count]
              exact addRef_eq_some hr
            · rw [← hc.writer_count]
              exact addRef_eq_some hw
        · exact .inl ⟨_, rfl⟩

/-- `dup` fails and changes nothing, or adds one reference to each end the handle holds, none of which
was closed. -/
theorem dup_spec (t : PipeTable) (h : PipeHandle) :
    (∃ e, t.dup h = (.error e, t)) ∨
      ∃ p p', t.pipes h.pipeId = some p ∧ t.dup h = (.ok h, t.set h.pipeId (some p')) ∧
        ∀ readers writers, Counted p readers writers →
          (h.reads = true → readers ≠ 0) ∧ (h.writes = true → writers ≠ 0) ∧
          Counted p' (readers + h.reads.toNat) (writers + h.writes.toNat) := by
  unfold dup
  split
  · exact .inl ⟨_, rfl⟩
  · rename_i p hp
    split
    · exact .inl ⟨_, rfl⟩
    · rename_i hzero
      split
      · rename_i newReaders newWriters hr hw
        refine .inr ⟨p, _, hp, rfl, fun readers writers hc => ?_⟩
        have hr := addRef_eq_some hr
        have hw := addRef_eq_some hw
        simp only [hc.reader_count, hc.writer_count, Bool.or_eq_true, Bool.and_eq_true,
          beq_iff_eq, not_or, not_and] at hzero hr hw
        refine ⟨hzero.1, hzero.2, hr, hw, ?_, ?_⟩
        · rw [hc.readClosed]
          cases hreads : h.reads with
          | false => simp
          | true => simp [hzero.1 hreads]
        · rw [hc.writeClosed]
          cases hwrites : h.writes with
          | false => simp
          | true => simp [hzero.2 hwrites]
      · exact .inl ⟨_, rfl⟩

/-- `close` takes one reference from each end the handle holds, and the pipe away when none is left. -/
theorem close_spec {t : PipeTable} {h : PipeHandle} {readers writers : Nat} {p : Pipe}
    (hp : t.pipes h.pipeId = some p) (hc : Counted p readers writers)
    (hr : h.reads = true → 0 < readers) (hw : h.writes = true → 0 < writers) :
    ∃ q, (t.close h).2 = t.set h.pipeId q ∧
      (∀ p', q = some p' →
        Counted p' (readers - h.reads.toNat) (writers - h.writes.toNat)) ∧
      (q = none ↔ readers - h.reads.toNat = 0 ∧ writers - h.writes.toNat = 0) := by
  have hread : Counted (if h.reads then closeRead p else ([], p)).2 (readers - h.reads.toNat)
      writers := by
    cases hreads : h.reads with
    | false => exact hc
    | true => exact closeRead_spec hc (hr hreads)
  have hwrite : Counted (if h.writes then
        closeWrite (if h.reads then closeRead p else ([], p)).2
      else ([], (if h.reads then closeRead p else ([], p)).2)).2 (readers - h.reads.toNat)
      (writers - h.writes.toNat) := by
    cases hwrites : h.writes with
    | false => exact hread
    | true => exact closeWrite_spec hread (hw hwrites)
  unfold close
  simp only [hp]
  generalize (if h.writes then closeWrite (if h.reads then closeRead p else ([], p)).2
    else ([], (if h.reads then closeRead p else ([], p)).2)) = w at hwrite ⊢
  split
  · rename_i hboth
    rw [Bool.and_eq_true, hwrite.readClosed, hwrite.writeClosed] at hboth
    exact ⟨none, rfl, by simp, by simpa using hboth⟩
  · rename_i hboth
    rw [Bool.and_eq_true, hwrite.readClosed, hwrite.writeClosed] at hboth
    refine ⟨some _, rfl, fun p' hp' => ?_, by simpa using hboth⟩
    rwa [← Option.some.inj hp']

theorem mem_openEnds_pos {holds : PipeHandle → Bool} {handles : Multiset PipeHandle} {h : PipeHandle}
    (hmem : h ∈ handles) (hholds : holds h = true) : 0 < openEnds holds handles h.pipeId :=
  Multiset.countP_pos.2 ⟨h, hmem, rfl, hholds⟩

/-- The close of an open handle: its pipe is there, and stays unless it was the last handle. -/
theorem close_open (h : Inv s) {g : PipeHandle} (hmem : g ∈ s.handles) :
    ∃ p q, s.table.pipes g.pipeId = some p ∧ (s.table.close g).2 = s.table.set g.pipeId q ∧
      (∀ p', q = some p' →
        Counted p' (openEnds PipeHandle.reads s.handles g.pipeId - g.reads.toNat)
          (openEnds PipeHandle.writes s.handles g.pipeId - g.writes.toNat)) ∧
      (q = none ↔ ∀ f ∈ s.handles.erase g, f.pipeId ≠ g.pipeId) := by
  obtain ⟨p, hp⟩ := Option.ne_none_iff_exists'.1 ((h.present g.pipeId).2 (.inl ⟨g, hmem, rfl⟩))
  obtain ⟨q, hq, hcounted, hlast⟩ := close_spec hp (h.counted _ p hp)
    (fun hr => mem_openEnds_pos hmem hr) fun hw => mem_openEnds_pos hmem hw
  refine ⟨p, q, hp, hq, hcounted, hlast.trans ?_⟩
  rw [← openEnds_both_eq_zero]
  have hends : ∀ holds : PipeHandle → Bool, openEnds holds s.handles g.pipeId - (holds g).toNat =
      openEnds holds (s.handles.erase g) g.pipeId := by
    intro holds
    conv_lhs => rw [← Multiset.cons_erase hmem]
    rw [openEnds_cons, if_pos rfl, Nat.add_sub_cancel]
  rw [hends, hends]

theorem step_inv {s' : Ends} {c : Call} (h : Inv s) (hname : Nameable s c)
    (hstep : step s c = some s') : Inv s' := by
  cases c with
  | create =>
    cases hstep
    have hid := fun e => PipeHandle.pipeId_new_of_lt hname e
    have hnew : ∀ holds : PipeHandle → Bool, openEnds holds
        {PipeHandle.new s.table.nextPipeId .read, PipeHandle.new s.table.nextPipeId .write}
        s.table.nextPipeId = (holds (.new s.table.nextPipeId .write)).toNat +
          (holds (.new s.table.nextPipeId .read)).toNat := by
      intro holds
      show openEnds holds (_ ::ₘ (PipeHandle.new s.table.nextPipeId .write) ::ₘ 0) _ = _
      rw [openEnds_cons, openEnds_cons, hid, hid]
      simp [openEnds]
    have hsum : ({PipeHandle.new s.table.nextPipeId .read,
        PipeHandle.new s.table.nextPipeId .write} : Multiset PipeHandle) + s.handles =
        PipeHandle.new s.table.nextPipeId .read ::ₘ
          PipeHandle.new s.table.nextPipeId .write ::ₘ s.handles := by
      simp [Multiset.insert_eq_cons]
    have hinv := h.newPipe hname (.new defaultBufferCapacity)
      {PipeHandle.new s.table.nextPipeId .read, PipeHandle.new s.table.nextPipeId .write}
      s.unattached ?_ ?_ (fun _ _ => rfl) ?_
    · rwa [hsum] at hinv
    · simp [hid]
    · rw [hnew, hnew]
      simpa [PipeHandle.reads_new, PipeHandle.writes_new] using counted_new defaultBufferCapacity
    · refine iff_of_false ?_ (by simp)
      rw [Bool.not_eq_true]
      by_contra hu
      have hpresent := (h.present s.table.nextPipeId).2 (.inr (by simpa using hu))
      exact Nat.lt_irrefl _ (h.below _ hpresent)
  | fifoCreate fileId =>
    cases hstep
    have := h.newPipe hname (fifoPipe fileId) 0
      (update s.unattached s.table.nextPipeId true) (by simp)
      (by simpa [openEnds] using counted_fifoPipe fileId)
      (fun i hi => update_of_ne hi _ _) (by simp)
    simpa [fifoCreate] using this
  | fifoAttach i access nonblock =>
    by_cases hi : i.toNat < 2 ^ idBits
    · rcases fifoAttach_spec hi access nonblock (t := s.table) with
        ⟨e, he⟩ | ⟨p, p', ⟨g, partner⟩, wakes, hp, hok, hg, hc⟩
      · simp only [step, he] at hstep
        cases hstep
        exact h
      · simp only [step, hok] at hstep
        cases hstep
        exact h.addHandle hp hg (hc _ _ (h.counted i p hp))
    · have hnone : s.table.pipes i = none := by
        by_contra hne
        have := h.below i hne
        have := h.nameable
        omega
      have he : s.table.fifoAttach i access nonblock = (.error .invalidHandle, s.table) := by
        simp [fifoAttach, hnone]
      simp only [step, he] at hstep
      cases hstep
      exact h
  | dup g =>
    rcases dup_spec s.table g with ⟨e, he⟩ | ⟨p, p', hp, hok, hc⟩
    · simp only [step, he] at hstep
      cases hstep
      exact h
    · simp only [step, hok] at hstep
      cases hstep
      obtain ⟨hr, hw, hc'⟩ := hc _ _ (h.counted _ p hp)
      have hunatt : s.unattached g.pipeId = false := by
        rw [← Bool.not_eq_true]
        intro hu
        have hnone := openEnds_both_eq_zero.2 (h.pristine _ hu)
        rcases g.reads_or_writes with hreads | hwrites
        · exact hr hreads hnone.1
        · exact hw hwrites hnone.2
      have hadd := h.addHandle hp rfl hc'
      rwa [Function.update_eq_self_iff.2 hunatt.symm] at hadd
  | close g =>
    simp only [step] at hstep
    split at hstep
    · rename_i hopen
      cases hstep
      by_cases hmem : g ∈ s.handles
      · obtain ⟨p, q, hp, hq, hcounted, hlast⟩ := close_open h hmem
        rw [hq]
        exact h.dropHandle hp rfl hmem hcounted hlast
      · have hnone : s.table.pipes g.pipeId = none :=
          Option.isNone_iff_eq_none.1 (hopen.resolve_left hmem)
        have hsame : (s.table.close g).2 = s.table := by simp [close, hnone]
        rw [hsame, Multiset.erase_of_notMem hmem]
        exact h
    · simp at hstep

theorem inv_start : Inv start where
  counted i p hp := by simp [start, empty] at hp
  present i := by simp [start, empty]
  pristine i hi := by simp [start] at hi
  below i hi := by simp [start, empty] at hi
  nameable := by decide

/-- The run lemma. -/
theorem reach_inv (h : ReachBy step Nameable (· = start) s) : Inv s :=
  h.invariant (by rintro _ rfl; exact inv_start) fun _ _ _ hi hname hstep => step_inv hi hname hstep

/-! ## What a run guarantees -/

/-- A failed attach or dup leaves the table as it is. -/
theorem attach_or_dup_failed (t : PipeTable) :
    (∀ i access nonblock e, (t.fifoAttach i access nonblock).1 = .error e →
      (t.fifoAttach i access nonblock).2 = t) ∧
    ∀ g e, (t.dup g).1 = .error e → (t.dup g).2 = t := by
  constructor
  · intro i access nonblock e he
    unfold fifoAttach at he ⊢
    split at he
    · rfl
    · split at he
      · rfl
      · simp only at he ⊢
        split at he
        · rw [if_pos ‹_›]
        · rw [if_neg ‹_›]
          split at he
          · cases he
          · rfl
  · intro g e he
    rcases dup_spec t g with ⟨_, hfail⟩ | ⟨_, _, _, hok, _⟩
    · rw [hfail]
    · rw [hok] at he
      cases he

/-- Only a close takes a pipe away. -/
theorem step_keeps {s' : Ends} {c : Call} (h : Inv s) (hstep : step s c = some s')
    (hc : ∀ g, c ≠ .close g) (hi : s.table.pipes i ≠ none) :
    s'.table.pipes i ≠ none := by
  have hset : ∀ j p, (s.table.set j (some p)).pipes i ≠ none := by
    intro j p
    by_cases hij : i = j
    · subst hij
      simp
    · rwa [set_pipes_of_ne s.table hij]
  cases c with
  | create =>
    cases hstep
    exact hset _ _
  | fifoCreate fileId =>
    cases hstep
    exact hset _ _
  | fifoAttach j access nonblock =>
    by_cases hj : j.toNat < 2 ^ idBits
    · rcases fifoAttach_spec hj access nonblock (t := s.table) with
        ⟨e, he⟩ | ⟨p, p', ⟨g, partner⟩, wakes, hp, hok, -⟩
      · simp only [step, he] at hstep
        cases hstep
        exact hi
      · simp only [step, hok] at hstep
        cases hstep
        exact hset _ _
    · have hnone : s.table.pipes j = none := by
        by_contra hne
        have := h.below j hne
        have := h.nameable
        omega
      have he : s.table.fifoAttach j access nonblock = (.error .invalidHandle, s.table) := by
        simp [fifoAttach, hnone]
      simp only [step, he] at hstep
      cases hstep
      exact hi
  | dup g =>
    rcases dup_spec s.table g with ⟨e, he⟩ | ⟨p, p', hp, hok, -⟩
    · simp only [step, he] at hstep
      cases hstep
      exact hi
    · simp only [step, hok] at hstep
      cases hstep
      exact hset _ _
  | close g => exact absurd rfl (hc g)

/-- A pipe goes exactly when its last handle is closed. -/
theorem gone_iff {s' : Ends} {c : Call} (h : Inv s) (hstep : step s c = some s')
    (hi : s.table.pipes i ≠ none) :
    s'.table.pipes i = none ↔
      ∃ g, c = .close g ∧ g ∈ s.handles ∧ g.pipeId = i ∧ ∀ f ∈ s'.handles, f.pipeId ≠ i := by
  by_cases hc : ∃ g, c = .close g
  · obtain ⟨g, rfl⟩ := hc
    simp only [step] at hstep
    split at hstep
    · rename_i hopen
      cases hstep
      by_cases hmem : g ∈ s.handles
      · obtain ⟨p, q, -, hq, -, hlast⟩ := close_open h hmem
        simp only [hq, Call.close.injEq]
        by_cases hgi : i = g.pipeId
        · subst hgi
          rw [set_pipes_self, hlast]
          constructor
          · exact fun hl => ⟨g, rfl, hmem, rfl, hl⟩
          · rintro ⟨_, rfl, -, -, hl⟩
            exact hl
        · rw [set_pipes_of_ne s.table hgi]
          refine iff_of_false hi ?_
          rintro ⟨_, rfl, -, hg, -⟩
          exact hgi hg.symm
      · have hnone : s.table.pipes g.pipeId = none :=
          Option.isNone_iff_eq_none.1 (hopen.resolve_left hmem)
        have hsame : (s.table.close g).2 = s.table := by simp [close, hnone]
        simp only [hsame]
        refine iff_of_false hi ?_
        rintro ⟨f, hf, hfmem, -⟩
        rw [Call.close.injEq] at hf
        exact hmem (hf ▸ hfmem)
    · simp at hstep
  · refine iff_of_false (step_keeps h hstep (fun g hg => hc ⟨g, hg⟩) hi) ?_
    rintro ⟨g, hg, -⟩
    exact hc ⟨g, hg⟩

/-- **Lifecycle of pipe ends.** In every run that makes fewer than 2^40 pipes: the flags say whether the
counts are zero, the counts are those of the open handles, a pipe is there while it has a handle or is a
FIFO nobody has attached to, it goes with the close of its last handle, and a failed attach or dup
changes nothing. -/
theorem pipe_ends_lifecycle (h : ReachBy step Nameable (· = start) s) :
    (∀ i p, s.table.pipes i = some p →
      (p.readClosed = true ↔ p.readerRefcount = 0) ∧ (p.writeClosed = true ↔ p.writerRefcount = 0) ∧
      p.readerRefcount = openEnds PipeHandle.reads s.handles i ∧
      p.writerRefcount = openEnds PipeHandle.writes s.handles i) ∧
    (∀ i, s.table.pipes i ≠ none ↔
      (∃ g ∈ s.handles, g.pipeId = i) ∨ s.unattached i = true) ∧
    (∀ c s', step s c = some s' → ∀ i, s.table.pipes i ≠ none →
      (s'.table.pipes i = none ↔
        ∃ g, c = .close g ∧ g ∈ s.handles ∧ g.pipeId = i ∧ ∀ f ∈ s'.handles, f.pipeId ≠ i)) ∧
    (∀ i access nonblock e, (s.table.fifoAttach i access nonblock).1 = .error e →
      (s.table.fifoAttach i access nonblock).2 = s.table) ∧
    ∀ g e, (s.table.dup g).1 = .error e → (s.table.dup g).2 = s.table := by
  have hinv := reach_inv h
  refine ⟨fun i p hp => ?_, hinv.present, fun c s' hstep i hi => gone_iff hinv hstep hi,
    attach_or_dup_failed s.table⟩
  have hc := hinv.counted i p hp
  refine ⟨?_, ?_, hc.reader_count, hc.writer_count⟩
  · rw [hc.readClosed, hc.reader_count]
  · rw [hc.writeClosed, hc.writer_count]

/-- The first pipe of a run. -/
theorem pipe_ends_lifecycle_created :
    ∃ s, step start .create = some s ∧ ∀ p, s.table.pipes 1#64 = some p →
      p.readerRefcount = openEnds PipeHandle.reads s.handles 1#64 := by
  refine ⟨_, rfl, fun p hp => ?_⟩
  have hreach : ReachBy step Nameable (· = start) _ :=
    .next (a := .create) (.start rfl) (by unfold Nameable; decide) rfl
  exact ((pipe_ends_lifecycle hreach).1 1#64 p hp).2.2.1

/-! ## The pipe whose id does not fit -/

/-- A run of creates. -/
theorem run_creates {n : Nat} (hn : n < 2 ^ 64 - 1) :
    ∃ s, run step start (List.replicate n .create) = some s ∧
      s.table.nextPipeId.toNat = n + 1 ∧ s.table.pipes 0#64 = none := by
  induction n with
  | zero => exact ⟨start, rfl, rfl, rfl⟩
  | succ n ih =>
    obtain ⟨s, hrun, hnext, hzero⟩ := ih (by omega)
    have hne : 0#64 ≠ s.table.nextPipeId := by
      intro heq
      rw [← heq] at hnext
      simp at hnext
    refine ⟨{ s with
      table := s.table.create.2
      handles := s.table.create.1.1 ::ₘ s.table.create.1.2 ::ₘ s.handles }, ?_, ?_, ?_⟩
    · rw [List.replicate_succ', run_append, hrun]
      rfl
    · show (s.table.nextPipeId + 1).toNat = n + 1 + 1
      have hlt : n + 1 + 1 < 2 ^ 64 := by omega
      rw [BitVec.toNat_add, hnext]
      exact Nat.mod_eq_of_lt hlt
    · show (s.table.set s.table.nextPipeId _).pipes 0#64 = none
      rw [set_pipes_of_ne s.table hne]
      exact hzero

/-- No handle names the pipe with id 2^40. -/
theorem pipeId_ne (g : PipeHandle) : g.pipeId ≠ BitVec.ofNat 64 (2 ^ 40) := by
  intro h
  have hbit := congrArg (fun b => BitVec.getLsbD b 40) h
  simp only [PipeHandle.getLsbD_pipeId] at hbit
  revert hbit
  simp

/-- Closing a handle whose id has no entry leaves the table. -/
theorem step_close_of_none {t : PipeTable} {h : PipeHandle} (hnone : t.pipes h.pipeId = none)
    (hs : Multiset PipeHandle) (u : PipeId → Bool) :
    step ⟨t, hs, u⟩ (.close h) = some ⟨t, hs.erase h, u⟩ := by
  have hclose : (t.close h).2 = t := by
    unfold close
    rw [hnone]
  have hisNone : (t.pipes h.pipeId).isNone = true := by rw [hnone, Option.isNone_none]
  show (if h ∈ hs ∨ (t.pipes h.pipeId).isNone then some (Ends.mk (t.close h).2 (hs.erase h) u) else none) = _
  rw [if_pos (.inr hisNone), hclose]

/-- The 2^40th pipe of a run: both handles its `create` answered with are closed, no handle names it,
and it is still there with both counts 1. -/
theorem unnameable_pipe_stays :
    ∃ s p, run step start (List.replicate (2 ^ 40) .create ++
        [.close (.new (BitVec.ofNat 64 (2 ^ 40)) .read),
          .close (.new (BitVec.ofNat 64 (2 ^ 40)) .write)]) = some s ∧
      s.table.pipes (BitVec.ofNat 64 (2 ^ 40)) = some p ∧
      p.readerRefcount = 1 ∧ p.writerRefcount = 1 ∧
      openEnds PipeHandle.reads s.handles (BitVec.ofNat 64 (2 ^ 40)) = 0 ∧
      openEnds PipeHandle.writes s.handles (BitVec.ofNat 64 (2 ^ 40)) = 0 := by
  obtain ⟨s, hrun, hnext, hzero⟩ := run_creates (n := 2 ^ 40 - 1) (by decide)
  have hid : s.table.nextPipeId = BitVec.ofNat 64 (2 ^ 40) := BitVec.eq_of_toNat_eq hnext
  have hgone : ∀ e, (PipeHandle.new (BitVec.ofNat 64 (2 ^ 40)) e).pipeId = 0#64 := by
    intro e
    rw [PipeHandle.pipeId_new]
    rfl
  -- the table after the last create: the entry of id 0 is still empty
  have hcreated : s.table.create.2.pipes 0#64 = none := by
    show (s.table.set s.table.nextPipeId _).pipes 0#64 = none
    rw [set_pipes_of_ne s.table (by rw [hid]; decide)]
    exact hzero
  have hclose : ∀ (hs : Multiset PipeHandle) (u : PipeId → Bool) (e : PipeEnd),
      step ⟨s.table.create.2, hs, u⟩ (.close (.new (BitVec.ofNat 64 (2 ^ 40)) e)) =
        some ⟨s.table.create.2, hs.erase (.new (BitVec.ofNat 64 (2 ^ 40)) e), u⟩ := by
    exact fun hs u e => step_close_of_none (by rw [hgone e]; exact hcreated) hs u
  have hall : run step start (List.replicate (2 ^ 40) .create ++
      [.close (.new (BitVec.ofNat 64 (2 ^ 40)) .read),
        .close (.new (BitVec.ofNat 64 (2 ^ 40)) .write)]) =
      some ⟨s.table.create.2, ((s.table.create.1.1 ::ₘ s.table.create.1.2 ::ₘ s.handles).erase
        (.new (BitVec.ofNat 64 (2 ^ 40)) .read)).erase (.new (BitVec.ofNat 64 (2 ^ 40)) .write),
        s.unattached⟩ := by
    have hsplit : List.replicate (2 ^ 40) Call.create =
        List.replicate (2 ^ 40 - 1) Call.create ++ [Call.create] := by
      show List.replicate (2 ^ 40 - 1 + 1) Call.create = _
      exact List.replicate_succ'
    rw [hsplit, List.append_assoc, run_append, hrun]
    show ((step _ (.close _)).bind fun t => run step t [.close _]) = _
    rw [hclose]
    show ((step _ (.close _)).bind fun t => run step t []) = _
    rw [hclose]
    rfl
  refine ⟨_, .new defaultBufferCapacity, hall, ?_, rfl, rfl,
    openEnds_eq_zero_of fun g _ => pipeId_ne g, openEnds_eq_zero_of fun g _ => pipeId_ne g⟩
  show (s.table.set s.table.nextPipeId (some (Pipe.new defaultBufferCapacity))).pipes _ = _
  rw [hid, set_pipes_self]

end PipeTable

end SlateOS.Ipc
