/-
# SlateOS.Mm.Vmalloc.System -- vmalloc and vfree by any number of tasks

What each locked section makes of the bitmap and the entries, and the work between the sections page by page: a
`vmalloc` maps its pages outside the lock, and one that fails at a page unmaps those before it and takes its
reservation back; a `vfree` claims the entry, unmaps the pages, and only then returns the range to the bitmap.
-/
import SlateOS.Foundation.Reservations
import SlateOS.Foundation.Runs
import SlateOS.Kernel.Error
import SlateOS.Mm.Vmalloc.Bitmap

namespace SlateOS.Mm.Vmalloc

open Foundation.Reservations Kernel
open Function (update)

/-! ## The sections -/

/-- `VMALLOC_BASE`. -/
def vmallocBase : Nat := 0xFFFFC30000000000

/-- `VMALLOC_SIZE`. -/
def vmallocSize : Nat := 1024 * 1024 * 1024

/-- `FRAME_SIZE`. -/
def frameSize : Nat := 16384

/-- `VMALLOC_MAX_PAGES`. -/
def vmallocMaxPages : Nat := vmallocSize / frameSize

/-- `MAX_VMALLOC_ENTRIES`. -/
def maxVmallocEntries : Nat := 256

/-- `BITMAP_WORDS`. -/
def bitmapWords : Nat := vmallocMaxPages / 64

/-- `VmallocEntry`. -/
structure VmallocEntry where
  vaddr : Nat
  pageCount : Nat
  active : Bool
  deriving DecidableEq

/-- `VmallocEntry::empty`. -/
def VmallocEntry.empty : VmallocEntry := ⟨0, 0, false⟩

/-- `VmallocState`. -/
structure VmallocState where
  bitmap : Bitmap
  entries : List VmallocEntry
  activeCount : Nat

/-- The address of an allocation whose leading guard page is `runStart`. -/
def vaddrOf (runStart : Nat) : Nat := vmallocBase + (runStart + 1) * frameSize

/-- The leading guard page of the allocation at `vaddr`, as `vfree` finds it. -/
def firstPage (vaddr : Nat) : Nat := (vaddr - vmallocBase) / frameSize - 1

/-- `contains`. -/
def contains (addr : Nat) : Bool := decide (vmallocBase ≤ addr) && decide (addr < vmallocBase + vmallocSize)

namespace VmallocState

/-- `VmallocState::new`. -/
def new : VmallocState :=
  ⟨List.replicate bitmapWords 0#64, List.replicate maxVmallocEntries .empty, 0⟩

/-- `mark_allocated`. -/
def markAllocated (st : VmallocState) (start count : Nat) : VmallocState :=
  { st with bitmap := setBits st.bitmap start count true }

/-- `mark_free`. -/
def markFree (st : VmallocState) (start count : Nat) : VmallocState :=
  { st with bitmap := setBits st.bitmap start count false }

/-- `take_entry`. -/
def takeEntry (st : VmallocState) (vaddr : Nat) : Option Nat × VmallocState :=
  match st.entries.findIdx? fun e => e.active && decide (e.vaddr = vaddr) with
  | none => (none, st)
  | some i =>
    (some (st.entries.getD i .empty).pageCount,
      { st with entries := st.entries.set i .empty, activeCount := st.activeCount - 1 })

/-- The section of `vmalloc` that reserves: the entry and the leading guard page. -/
def reserve (st : VmallocState) (pageCount : Nat) : Option (Nat × Nat) × VmallocState :=
  match (st.entries.findIdx? fun e => !e.active), findFreeRun st.bitmap pageCount with
  | some entryIdx, some runStart =>
    (some (entryIdx, runStart),
      { st.markAllocated runStart (pageCount + 2) with
        entries := st.entries.set entryIdx ⟨vaddrOf runStart, pageCount, true⟩
        activeCount := st.activeCount + 1 })
  | _, _ => (none, st)

/-- `vmalloc` up to its reservation: the entry, the leading guard page and the number of pages. `pml4` says
whether the kernel's page table is there. -/
def vmallocBegin (st : VmallocState) (size : Nat) (pml4 : Bool) :
    KernelResult (Nat × Nat × Nat) × VmallocState :=
  if size = 0 then (.error .invalidArgument, st)
  else if pml4 = false then (.error .notSupported, st)
  else
    let pageCount := (size + frameSize - 1) / frameSize
    if vmallocMaxPages < pageCount then (.error .outOfMemory, st)
    else
      match st.reserve pageCount with
      | (some (entryIdx, runStart), st') => (.ok (entryIdx, runStart, pageCount), st')
      | (none, st') => (.error .outOfMemory, st')

/-- The section of a `vmalloc` that failed. -/
def rollback (st : VmallocState) (runStart pageCount : Nat) : VmallocState :=
  (st.takeEntry (vaddrOf runStart)).2.markFree runStart (pageCount + 2)

/-- `vfree` up to its claim of the entry. -/
def vfreeBegin (st : VmallocState) (vaddr : Nat) (pml4 : Bool) : KernelResult Nat × VmallocState :=
  if contains vaddr = false then (.error .invalidAddress, st)
  else if pml4 = false then (.error .notSupported, st)
  else
    match st.takeEntry vaddr with
    | (some pageCount, st') => (.ok pageCount, st')
    | (none, st') => (.error .notFound, st')

/-- The section of `vfree` that returns the range. -/
def vfreeEnd (st : VmallocState) (vaddr pageCount : Nat) : VmallocState :=
  st.markFree (firstPage vaddr) (pageCount + 2)

end VmallocState

/-! ## The system -/

/-- What a task is at, outside the lock. -/
inductive Op
  /-- A `vmalloc` has mapped `done` of its pages. -/
  | mapping (entryIdx runStart pageCount done : Nat)
  /-- A `vmalloc` that failed after `mapped` pages has unmapped `done` of them. -/
  | undoing (entryIdx runStart pageCount mapped done : Nat)
  /-- A `vfree` has unmapped `done` of the pages. -/
  | unmapping (vaddr pageCount done : Nat)

/-- The allocator, what each task is at, which pages of the region are mapped, and for each address how often it
was reserved, freed and taken back. -/
structure Region where
  st : VmallocState
  ops : Nat → Option Op
  mapped : Nat → Bool
  reserved : Nat → Nat
  freed : Nat → Nat
  failed : Nat → Nat

/-- A step. -/
inductive Act
  | vmalloc (task size : Nat) (pml4 : Bool)
  | map (task : Nat)
  | finish (task : Nat)
  | fault (task : Nat)
  | unmap (task : Nat)
  | rollback (task : Nat)
  | vfree (task vaddr : Nat) (pml4 : Bool)
  | vfreed (task : Nat)

/-- One more at `i`. -/
def bump (f : Nat → Nat) (i : Nat) : Nat → Nat := update f i (f i + 1)

namespace Region

/-- The allocation that is being made: the index of its entry, and the entry. -/
def making : Op → Option (Nat × VmallocEntry)
  | .mapping entryIdx runStart pageCount _ => some (entryIdx, ⟨vaddrOf runStart, pageCount, true⟩)
  | .undoing entryIdx runStart pageCount _ _ => some (entryIdx, ⟨vaddrOf runStart, pageCount, true⟩)
  | .unmapping _ _ _ => none

/-- One step. -/
def step (s : Region) : Act → Option Region
  | .vmalloc task size pml4 =>
    if (s.ops task).isSome then none
    else
      match s.st.vmallocBegin size pml4 with
      | (.ok (entryIdx, runStart, pageCount), st) =>
        some
          { s with
            st := st
            ops := update s.ops task (some (.mapping entryIdx runStart pageCount 0))
            reserved := bump s.reserved (vaddrOf runStart) }
      | (.error _, st) => some { s with st := st }
  | .map task =>
    match s.ops task with
    | some (.mapping entryIdx runStart pageCount done) =>
      if done < pageCount then
        some
          { s with
            ops := update s.ops task (some (.mapping entryIdx runStart pageCount (done + 1)))
            mapped := update s.mapped (runStart + 1 + done) true }
      else none
    | _ => none
  | .finish task =>
    match s.ops task with
    | some (.mapping _ _ pageCount done) =>
      if done = pageCount then some { s with ops := update s.ops task none } else none
    | _ => none
  | .fault task =>
    match s.ops task with
    | some (.mapping entryIdx runStart pageCount done) =>
      if done < pageCount then
        some { s with ops := update s.ops task (some (.undoing entryIdx runStart pageCount done 0)) }
      else none
    | _ => none
  | .unmap task =>
    match s.ops task with
    | some (.undoing entryIdx runStart pageCount mapped done) =>
      if done < mapped then
        some
          { s with
            ops := update s.ops task (some (.undoing entryIdx runStart pageCount mapped (done + 1)))
            mapped := update s.mapped (runStart + 1 + done) false }
      else none
    | some (.unmapping vaddr pageCount done) =>
      if done < pageCount then
        some
          { s with
            ops := update s.ops task (some (.unmapping vaddr pageCount (done + 1)))
            mapped := update s.mapped (firstPage vaddr + 1 + done) false }
      else none
    | _ => none
  | .rollback task =>
    match s.ops task with
    | some (.undoing _ runStart pageCount mapped done) =>
      if done = mapped then
        some
          { s with
            st := s.st.rollback runStart pageCount
            ops := update s.ops task none
            failed := bump s.failed (vaddrOf runStart) }
      else none
    | _ => none
  | .vfree task vaddr pml4 =>
    if (s.ops task).isSome then none
    else
      match s.st.vfreeBegin vaddr pml4 with
      | (.ok pageCount, st) =>
        some
          { s with
            st := st
            ops := update s.ops task (some (.unmapping vaddr pageCount 0))
            freed := bump s.freed vaddr }
      | (.error _, st) => some { s with st := st }
  | .vfreed task =>
    match s.ops task with
    | some (.unmapping vaddr pageCount done) =>
      if done = pageCount then
        some { s with st := s.st.vfreeEnd vaddr pageCount, ops := update s.ops task none }
      else none
    | _ => none

/-- An address is not freed while an allocation there is being made. -/
def Permitted (s : Region) : Act → Prop
  | .vfree _ vaddr _ => ∀ task op i e, s.ops task = some op → making op = some (i, e) → e.vaddr ≠ vaddr
  | _ => True

/-- Nothing was ever allocated. -/
def Start (s : Region) : Prop :=
  s.st = .new ∧ (∀ task, s.ops task = none) ∧ (∀ p, s.mapped p = false) ∧
    ∀ v, s.reserved v = 0 ∧ s.freed v = 0 ∧ s.failed v = 0

end Region

end SlateOS.Mm.Vmalloc
