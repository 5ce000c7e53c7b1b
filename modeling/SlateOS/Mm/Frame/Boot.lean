/-
# SlateOS.Mm.Frame.Boot -- from the bootloader's memory map to the free lists

`plan_metadata`, `metadata_base` and `populate_free_lists` of `kernel/src/mm/frame.rs`. Addresses and sizes are
`u64` there and natural numbers here; `align_up` adds with wrap-around and clears bits as the source does, and a
map whose sums stay below `2^64` (`NoOverflow`) leaves it nothing to wrap. `entryRanges` is what one entry gives
to the free lists, and `populate_free_lists` is `add_free_range` over these ranges, so that the boot state is one
of the states `BuddyRuns` starts from.
-/
import Mathlib.Data.Set.Card
import SlateOS.Mm.Frame.BuddyRuns

namespace SlateOS.Mm.Frame.Boot

open Foundation.MachineInt Foundation.Dyadic Foundation.BuddySpace Kernel Mm.Frame.Buddy
open Mm.Frame.Buddy.BuddyAllocator Mm.Frame.Lists Mm.Frame.Operations Mm.Frame.BuddyRuns
open Mm.Frame.Invariant (addRanges RangesOk initial_spec)
open Mm.Frame.Refcount (isFree isFree_iff)

/-! ## The memory map -/

namespace MemmapType

/-- `memmap_type::USABLE`. -/
def usable : Nat := 0

/-- `memmap_type::ACPI_RECLAIMABLE`. -/
def acpiReclaimable : Nat := 2

/-- `memmap_type::BOOTLOADER_RECLAIMABLE`. -/
def bootloaderReclaimable : Nat := 5

end MemmapType

/-- `MemmapEntry`. -/
structure MemmapEntry where
  base : Nat
  length : Nat
  type_ : Nat
  deriving DecidableEq, Repr

namespace MemmapEntry

/-- An entry of the memory that may ever be managed: `dominated`. -/
def dominated (e : MemmapEntry) : Bool :=
  e.type_ == MemmapType.usable || e.type_ == MemmapType.bootloaderReclaimable ||
    e.type_ == MemmapType.acpiReclaimable

/-- The address after an entry, `base.saturating_add(length)`. -/
def fin (e : MemmapEntry) : Nat := saturatingAdd 64 e.base e.length

end MemmapEntry

/-- `LOW_MEMORY_RESERVE`: 1 MiB. -/
def lowMemoryReserve : Nat := 0x100000

/-- `align_up`; `!(align - 1)` has the bits from `align` on. -/
def alignUp (addr align : Nat) : Nat := wrappingAdd 64 addr (align - 1) &&& (2 ^ 64 - align)

/-- `align_down`. -/
def alignDown (addr align : Nat) : Nat := addr &&& (2 ^ 64 - align)

/-- `zeroed_words`. -/
def zeroedWords (totalFrames : Nat) : Nat := (totalFrames + 63) / 64

/-- `metadata_base`: the first usable entry with room above the ISA DMA zone, or else above 1 MiB. -/
def metadataBase (memoryMap : List MemmapEntry) (metadataSize : Nat) : Option Nat :=
  [dmaZoneEnd, lowMemoryReserve].findSome? fun floor =>
    (memoryMap.filter fun e => e.type_ == MemmapType.usable).findSome? fun e =>
      let base := alignUp (max e.base floor) frameSize
      let fin := alignDown e.fin frameSize
      if fin > base ∧ fin - base ≥ metadataSize then some base else none

/-- The highest physical address `plan_metadata` manages. -/
def maxPhys (memoryMap : List MemmapEntry) : Nat :=
  memoryMap.foldl (fun m e => if !e.dominated then m else if e.fin > m then e.fin else m) 0

/-- The bytes of the arrays kept per frame: `page_info`, the reference counts, the cgroup tags, the owners and the
bits for frames that were freed zeroed. -/
def metadataBytes (totalFrames : Nat) : Nat :=
  let refcountOffset := alignUp totalFrames 2
  let cgroupOffset := alignUp (refcountOffset + totalFrames * 2) 4
  let ownerOffset := cgroupOffset + totalFrames * 4
  let zeroedOffset := alignUp (ownerOffset + totalFrames) 8
  zeroedOffset + zeroedWords totalFrames * 8

/-- `plan_metadata`: the number of frames, and where the metadata goes and how large it is. -/
def planMetadata (memoryMap : List MemmapEntry) : KernelResult (Nat × Nat × Nat) :=
  if maxPhys memoryMap = 0 then .error .outOfMemory
  else
    let totalFrames := alignUp (maxPhys memoryMap) frameSize / frameSize
    let metadataFrames := alignUp (metadataBytes totalFrames) frameSize / frameSize
    let metadataSize := metadataFrames * frameSize
    match metadataBase memoryMap metadataSize with
    | none => .error .outOfMemory
    | some base => .ok (totalFrames, base, metadataSize)

/-- A range counted and given to the free lists. -/
def addRange (acc : Nat × BuddyAllocator) (start fin : Nat) : Nat × BuddyAllocator :=
  (acc.1 + (fin - start) / frameSize, acc.2.addFreeRange start fin)

/-- One round of `populate_free_lists`. -/
def populateEntry (metadataPhys metadataEnd : Nat) (acc : Nat × BuddyAllocator) (e : MemmapEntry) :
    Nat × BuddyAllocator :=
  if e.type_ ≠ MemmapType.usable then acc
  else
    let start := alignUp e.base frameSize
    let fin := alignDown e.fin frameSize
    if fin ≤ start then acc
    else
      let start := max start lowMemoryReserve
      if fin ≤ start then acc
      else if start < metadataEnd ∧ fin > metadataPhys then
        let acc := if start < metadataPhys then addRange acc start (min fin metadataPhys) else acc
        if fin > metadataEnd then addRange acc (max start metadataEnd) fin else acc
      else addRange acc start fin

/-- `populate_free_lists`. -/
def populateFreeLists (a : BuddyAllocator) (memoryMap : List MemmapEntry) (metadataPhys metadataEnd : Nat) :
    Nat × BuddyAllocator :=
  memoryMap.foldl (populateEntry metadataPhys metadataEnd) (0, a)

/-! ## Alignment -/

variable {e : MemmapEntry} {memoryMap : List MemmapEntry} {addr n p q i : Nat}

theorem alignDown_two_pow (haddr : addr < 2 ^ 64) (hn : n ≤ 64) : alignDown addr (2 ^ n) = addr / 2 ^ n * 2 ^ n :=
  and_sub_two_pow haddr hn

theorem alignUp_two_pow (haddr : addr + (2 ^ n - 1) < 2 ^ 64) (hn : n ≤ 64) :
    alignUp addr (2 ^ n) = (addr + (2 ^ n - 1)) / 2 ^ n * 2 ^ n := by
  rw [alignUp, wrappingAdd, Nat.mod_eq_of_lt haddr, and_sub_two_pow haddr hn]

/-- The first frame boundary from an address on. -/
theorem alignUp_frame (addr : Nat) (haddr : addr + (frameSize - 1) < 2 ^ 64) :
    ∃ s, alignUp addr frameSize = s * frameSize ∧ ∀ i, s ≤ i ↔ addr ≤ i * frameSize := by
  have hsize : frameSize = 2 ^ 14 := rfl
  rw [hsize] at haddr ⊢
  refine ⟨_, alignUp_two_pow haddr (by decide), fun i => ?_⟩
  omega

/-- The last frame boundary up to an address. -/
theorem alignDown_frame (addr : Nat) (haddr : addr < 2 ^ 64) :
    ∃ t, alignDown addr frameSize = t * frameSize ∧ ∀ i, i < t ↔ (i + 1) * frameSize ≤ addr := by
  have hsize : frameSize = 2 ^ 14 := rfl
  rw [hsize]
  refine ⟨_, alignDown_two_pow haddr (by decide), fun i => ?_⟩
  omega

/-! ## What one entry gives -/

/-- A range as it is counted. -/
def frames (r : Nat × Nat) : Nat := (r.2 - r.1) / frameSize

/-- The ranges that one entry gives to the free lists, around the metadata. -/
def entryRanges (metadataPhys metadataEnd : Nat) (e : MemmapEntry) : List (Nat × Nat) :=
  if e.type_ ≠ MemmapType.usable then []
  else
    let start := alignUp e.base frameSize
    let fin := alignDown e.fin frameSize
    if fin ≤ start then []
    else
      let start := max start lowMemoryReserve
      if fin ≤ start then []
      else if start < metadataEnd ∧ fin > metadataPhys then
        (if start < metadataPhys then [(start, min fin metadataPhys)] else []) ++
          (if fin > metadataEnd then [(max start metadataEnd, fin)] else [])
      else [(start, fin)]

/-- The ranges that a memory map gives. -/
def freeRanges (memoryMap : List MemmapEntry) (metadataPhys metadataEnd : Nat) : List (Nat × Nat) :=
  memoryMap.flatMap (entryRanges metadataPhys metadataEnd)

variable {metadataPhys metadataEnd : Nat} {acc : Nat × BuddyAllocator}

theorem populateEntry_eq : populateEntry metadataPhys metadataEnd acc e =
    (acc.1 + ((entryRanges metadataPhys metadataEnd e).map frames).sum,
      addRanges acc.2 (entryRanges metadataPhys metadataEnd e)) := by
  unfold populateEntry entryRanges
  dsimp only
  split
  · rfl
  split
  · rfl
  split
  · rfl
  split
  · split <;> split <;> simp [addRange, addRanges, frames, Nat.add_assoc]
  · simp [addRange, addRanges, frames]

/-- **`populate_free_lists` is `add_free_range` over the ranges of the map**, and counts their frames. -/
theorem populateFreeLists_eq (a : BuddyAllocator) : populateFreeLists a memoryMap metadataPhys metadataEnd =
    (((freeRanges memoryMap metadataPhys metadataEnd).map frames).sum,
      addRanges a (freeRanges memoryMap metadataPhys metadataEnd)) := by
  have hfold : ∀ acc, memoryMap.foldl (populateEntry metadataPhys metadataEnd) acc =
      (acc.1 + ((freeRanges memoryMap metadataPhys metadataEnd).map frames).sum,
        addRanges acc.2 (freeRanges memoryMap metadataPhys metadataEnd)) := by
    induction memoryMap with
    | nil => exact fun _ => rfl
    | cons e rest ih =>
      intro acc
      have hcons : freeRanges (e :: rest) metadataPhys metadataEnd =
          entryRanges metadataPhys metadataEnd e ++ freeRanges rest metadataPhys metadataEnd := List.flatMap_cons
      rw [List.foldl_cons, ih, populateEntry_eq, hcons, List.map_append, List.sum_append, Nat.add_assoc]
      simp only [addRanges, List.foldl_append]
  rw [populateFreeLists, hfold, Nat.zero_add]

/-- The sums that the source computes for an entry stay below `2^64`. -/
def EntryFits (e : MemmapEntry) : Prop := e.base + e.length + (frameSize - 1) < 2 ^ 64

instance : Decidable (EntryFits e) := Nat.decLt _ _

theorem fin_eq (h : EntryFits e) : e.fin = e.base + e.length := by
  unfold EntryFits at h
  exact saturatingAdd_of_lt (by omega)

/-! ### In frames -/

/-- The first frame of an entry that may be freed: from 1 MiB, which is 64 frames. -/
def firstFrame (e : MemmapEntry) : Nat := max (alignUp e.base frameSize / frameSize) 64

/-- The frame after the last of an entry. -/
def endFrame (e : MemmapEntry) : Nat := alignDown e.fin frameSize / frameSize

/-- Frames `[m, t)` without `[p, q)`. -/
def cut (p q m t : Nat) : List (Nat × Nat) :=
  if t ≤ m then []
  else if m < q ∧ p < t then
    (if m < p then [(m, min t p)] else []) ++ (if q < t then [(max m q, t)] else [])
  else [(m, t)]

/-- The frames that one entry gives to the free lists, the metadata being frames `[p, q)`. -/
def entryFrames (p q : Nat) (e : MemmapEntry) : List (Nat × Nat) :=
  if e.type_ ≠ MemmapType.usable then [] else cut p q (firstFrame e) (endFrame e)

/-- The addresses of a range of frames. -/
def scale (r : Nat × Nat) : Nat × Nat := (r.1 * frameSize, r.2 * frameSize)

theorem firstFrame_le_iff (h : EntryFits e) (i : Nat) :
    firstFrame e ≤ i ↔ e.base ≤ i * frameSize ∧ lowMemoryReserve ≤ i * frameSize := by
  unfold EntryFits at h
  obtain ⟨s, hs, hsi⟩ := alignUp_frame e.base (by omega)
  have hlow : lowMemoryReserve = 64 * frameSize := by decide
  rw [firstFrame, hs, Nat.mul_div_cancel _ frameSize_pos, hlow, max_le_iff, hsi, Nat.mul_le_mul_right_iff frameSize_pos]

theorem lt_endFrame_iff (h : EntryFits e) (i : Nat) :
    i < endFrame e ↔ (i + 1) * frameSize ≤ e.base + e.length := by
  have hfin := fin_eq h
  unfold EntryFits at h
  obtain ⟨t, ht, hti⟩ := alignDown_frame e.fin (by omega)
  rw [endFrame, ht, Nat.mul_div_cancel _ frameSize_pos, hti, hfin]

theorem entryRanges_eq (h : EntryFits e) (p q : Nat) :
    entryRanges (p * frameSize) (q * frameSize) e = (entryFrames p q e).map scale := by
  have hfin := fin_eq h
  unfold EntryFits at h
  obtain ⟨s, hs, -⟩ := alignUp_frame e.base (by omega)
  obtain ⟨t, ht, -⟩ := alignDown_frame e.fin (by omega)
  have hlow : lowMemoryReserve = 64 * frameSize := by decide
  unfold entryRanges entryFrames
  split
  · rfl
  dsimp only
  rw [firstFrame, endFrame, hs, ht, hlow, Nat.mul_div_cancel _ frameSize_pos, Nat.mul_div_cancel _ frameSize_pos]
  simp only [Nat.mul_max_mul_right, Nat.mul_min_mul_right, Nat.mul_le_mul_right_iff frameSize_pos,
    Nat.mul_lt_mul_right frameSize_pos]
  generalize hm : max s 64 = m
  -- the source's tests are now tests of frames; a range that is empty before 1 MiB is left out is empty after
  unfold cut
  by_cases hts : t ≤ s
  · rw [if_pos hts, if_pos (by omega)]
    rfl
  rw [if_neg hts]
  split
  · rfl
  split
  · split <;> split <;> rfl
  · rfl

variable {m t : Nat} {r : Nat × Nat}

/-- A range that a cut leaves lies in what was cut, aside of what was cut out. -/
theorem mem_cut (hr : r ∈ cut p q m t) : m ≤ r.1 ∧ r.1 < r.2 ∧ r.2 ≤ t ∧ (r.2 ≤ p ∨ q ≤ r.1) := by
  unfold cut at hr
  split at hr
  · cases hr
  split at hr
  · rw [List.mem_append, List.mem_ite_nil_right, List.mem_ite_nil_right, List.mem_singleton, List.mem_singleton] at hr
    rcases hr with ⟨hbefore, rfl⟩ | ⟨hafter, rfl⟩
    · exact ⟨le_rfl, by dsimp only; omega, min_le_left _ _, .inl (min_le_right _ _)⟩
    · exact ⟨le_max_left _ _, by dsimp only; omega, le_rfl, .inr (le_max_right _ _)⟩
  · obtain rfl := List.mem_singleton.mp hr
    exact ⟨le_rfl, by dsimp only; omega, le_rfl, by dsimp only; omega⟩

/-- **A cut loses nothing else.** -/
theorem mem_cut_iff (i : Nat) : (∃ r ∈ cut p q m t, r.1 ≤ i ∧ i < r.2) ↔ m ≤ i ∧ i < t ∧ (i < p ∨ q ≤ i) := by
  constructor
  · rintro ⟨r, hr, h1, h2⟩
    have := mem_cut hr
    omega
  · rintro ⟨h1, h2, h3⟩
    unfold cut
    rw [if_neg (by omega)]
    split
    · rcases h3 with h3 | h3
      · refine ⟨(m, min t p), List.mem_append_left _ ?_, h1, by dsimp only; omega⟩
        rw [if_pos (by omega)]
        exact List.mem_singleton_self _
      · refine ⟨(max m q, t), List.mem_append_right _ ?_, by dsimp only; omega, h2⟩
        rw [if_pos (by omega)]
        exact List.mem_singleton_self _
    · exact ⟨(m, t), List.mem_singleton_self _, h1, h2⟩

/-- Two ranges of frames with none in common. -/
def Aside (r r' : Nat × Nat) : Prop := ∀ i, r.1 ≤ i → i < r.2 → ¬ (r'.1 ≤ i ∧ i < r'.2)

theorem pairwise_cut (hpq : p ≤ q) : (cut p q m t).Pairwise Aside := by
  unfold cut
  split
  · exact .nil
  split
  · refine List.pairwise_append.mpr ⟨?_, ?_, fun r hr r' hr' i h1 h2 h3 => ?_⟩
    · split
      · exact List.pairwise_singleton _ _
      · exact .nil
    · split
      · exact List.pairwise_singleton _ _
      · exact .nil
    · -- one range ends where the hole begins, the other begins where it ends
      rw [List.mem_ite_nil_right, List.mem_singleton] at hr hr'
      obtain ⟨-, rfl⟩ := hr
      obtain ⟨-, rfl⟩ := hr'
      dsimp only at h1 h2 h3
      omega
  · exact List.pairwise_singleton _ _

/-! ## The whole map -/

/-- The frames that a memory map gives to the free lists. -/
def freeFrameRanges (memoryMap : List MemmapEntry) (p q : Nat) : List (Nat × Nat) := memoryMap.flatMap (entryFrames p q)

/-- No sum of the source wraps on the memory it may manage. -/
def NoOverflow (memoryMap : List MemmapEntry) : Prop := ∀ e ∈ memoryMap, e.dominated = true → EntryFits e

/-- No address is in two usable entries. -/
def UsableApart (memoryMap : List MemmapEntry) : Prop :=
  memoryMap.Pairwise fun e e' => e.type_ = MemmapType.usable → e'.type_ = MemmapType.usable →
    ∀ f, e.base ≤ f → f < e.base + e.length → ¬ (e'.base ≤ f ∧ f < e'.base + e'.length)

/-- Frame `i` lies wholly inside a usable entry, at or above 1 MiB, and does not touch the metadata. -/
def Freed (memoryMap : List MemmapEntry) (metadataPhys metadataEnd i : Nat) : Prop :=
  (∃ e ∈ memoryMap, e.type_ = MemmapType.usable ∧ e.base ≤ i * frameSize ∧ (i + 1) * frameSize ≤ e.base + e.length) ∧
    lowMemoryReserve ≤ i * frameSize ∧ ((i + 1) * frameSize ≤ metadataPhys ∨ metadataEnd ≤ i * frameSize)

theorem dominated_of_usable (h : e.type_ = MemmapType.usable) : e.dominated = true := by
  simp [MemmapEntry.dominated, h]

theorem freeRanges_eq (hno : NoOverflow memoryMap) (p q : Nat) :
    freeRanges memoryMap (p * frameSize) (q * frameSize) = (freeFrameRanges memoryMap p q).map scale := by
  rw [freeRanges, freeFrameRanges, List.map_flatMap]
  refine List.flatMap_congr fun e he => ?_
  by_cases husable : e.type_ = MemmapType.usable
  · exact entryRanges_eq (hno e he (dominated_of_usable husable)) p q
  · simp [entryRanges, entryFrames, husable]

/-- What a frame range of an entry is. -/
theorem mem_entryFrames (hno : NoOverflow memoryMap) (he : e ∈ memoryMap) (hr : r ∈ entryFrames p q e) :
    e.type_ = MemmapType.usable ∧ EntryFits e ∧ r ∈ cut p q (firstFrame e) (endFrame e) := by
  unfold entryFrames at hr
  split at hr
  · cases hr
  next husable =>
    have husable := not_not.mp husable
    exact ⟨husable, hno e he (dominated_of_usable husable), hr⟩

/-- A frame in a range of an entry is in the entry. -/
theorem within_entry (hfits : EntryFits e) (hr : r ∈ cut p q (firstFrame e) (endFrame e)) (h1 : r.1 ≤ i) (h2 : i < r.2) :
    e.base ≤ i * frameSize ∧ (i + 1) * frameSize ≤ e.base + e.length ∧ lowMemoryReserve ≤ i * frameSize := by
  obtain ⟨hm, -, ht, -⟩ := mem_cut hr
  obtain ⟨hbase, hlow⟩ := (firstFrame_le_iff hfits i).mp (hm.trans h1)
  exact ⟨hbase, (lt_endFrame_iff hfits i).mp (h2.trans_le ht), hlow⟩

theorem pairwise_freeFrameRanges (hno : NoOverflow memoryMap) (hapart : UsableApart memoryMap) (hpq : p ≤ q) :
    (freeFrameRanges memoryMap p q).Pairwise Aside := by
  refine List.pairwise_flatMap.mpr ⟨fun e _ => ?_, ?_⟩
  · unfold entryFrames
    split
    · exact .nil
    · exact pairwise_cut hpq
  · refine hapart.imp_of_mem fun {e e'} he he' hd r hr r' hr' i h1 h2 h3 => ?_
    obtain ⟨husable, hfits, hr⟩ := mem_entryFrames hno he hr
    obtain ⟨husable', hfits', hr'⟩ := mem_entryFrames hno he' hr'
    obtain ⟨hb, hl, -⟩ := within_entry hfits hr h1 h2
    obtain ⟨hb', hl', -⟩ := within_entry hfits' hr' h3.1 h3.2
    have hsize := frameSize_pos
    exact hd husable husable' (i * frameSize) hb (by rw [Nat.add_mul] at hl; omega)
      ⟨hb', by rw [Nat.add_mul] at hl'; omega⟩

/-- **The ranges of a map are the frames to free.** -/
theorem mem_freeFrameRanges_iff (hno : NoOverflow memoryMap) (i : Nat) :
    (∃ r ∈ freeFrameRanges memoryMap p q, r.1 ≤ i ∧ i < r.2) ↔
      Freed memoryMap (p * frameSize) (q * frameSize) i := by
  have haside : ((i + 1) * frameSize ≤ p * frameSize ∨ q * frameSize ≤ i * frameSize) ↔ i < p ∨ q ≤ i := by
    rw [Nat.mul_le_mul_right_iff frameSize_pos, Nat.mul_le_mul_right_iff frameSize_pos, Nat.succ_le_iff]
  rw [Freed, haside]
  constructor
  · rintro ⟨r, hr, h1, h2⟩
    obtain ⟨e, he, hr⟩ := List.mem_flatMap.mp hr
    obtain ⟨husable, hfits, hr⟩ := mem_entryFrames hno he hr
    obtain ⟨hb, hl, hlow⟩ := within_entry hfits hr h1 h2
    obtain ⟨-, -, hpq⟩ := (mem_cut_iff i).mp ⟨r, hr, h1, h2⟩
    exact ⟨⟨e, he, husable, hb, hl⟩, hlow, hpq⟩
  · rintro ⟨⟨e, he, husable, hb, hl⟩, hlow, hpq⟩
    have hfits := hno e he (dominated_of_usable husable)
    obtain ⟨r, hr, hin⟩ := (mem_cut_iff i).mpr
      ⟨(firstFrame_le_iff hfits i).mpr ⟨hb, hlow⟩, (lt_endFrame_iff hfits i).mpr hl, hpq⟩
    refine ⟨r, List.mem_flatMap.mpr ⟨e, he, ?_⟩, hin⟩
    rw [entryFrames, if_neg (not_not.mpr husable)]
    exact hr

/-! ## Counting -/

/-- Disjoint ranges have as many numbers as their lengths add up to. -/
theorem ncard_ranges {R : List (Nat × Nat)} (hd : R.Pairwise Aside) :
    {i | ∃ r ∈ R, r.1 ≤ i ∧ i < r.2}.Finite ∧
      {i | ∃ r ∈ R, r.1 ≤ i ∧ i < r.2}.ncard = (R.map fun r => r.2 - r.1).sum := by
  induction R with
  | nil => simp
  | cons r R ih =>
    obtain ⟨hr, hrest⟩ := List.pairwise_cons.mp hd
    obtain ⟨hfinite, hcard⟩ := ih hrest
    have hsplit : {i | ∃ r' ∈ r :: R, r'.1 ≤ i ∧ i < r'.2} =
        Set.Ico r.1 r.2 ∪ {i | ∃ r' ∈ R, r'.1 ≤ i ∧ i < r'.2} := by
      ext i
      simp only [List.exists_mem_cons_iff, Set.mem_ofPred_eq, Set.mem_union, Set.mem_Ico]
    have hdisjoint : Disjoint (α := Set Nat) (Set.Ico r.1 r.2) {i | ∃ r' ∈ R, r'.1 ≤ i ∧ i < r'.2} := by
      refine Set.disjoint_left.mpr fun i hi hin => ?_
      obtain ⟨r', hr', h⟩ := hin
      exact hr r' hr' i hi.1 hi.2 h
    have hico : (Set.Ico r.1 r.2).ncard = r.2 - r.1 := by
      rw [← Finset.coe_Ico, Set.ncard_coe_finset, Nat.card_Ico]
    rw [hsplit]
    refine ⟨(Set.finite_Ico _ _).union hfinite, ?_⟩
    rw [Set.ncard_union_eq hdisjoint (Set.finite_Ico _ _) hfinite, hico, hcard, List.map_cons, List.sum_cons]

theorem frames_scale (r : Nat × Nat) : frames (scale r) = r.2 - r.1 := by
  rw [frames, scale, ← Nat.sub_mul, Nat.mul_div_cancel _ frameSize_pos]

/-- `add_free_range` counts every frame of its range. -/
theorem addFreeRangeFrom_freeFrames {k fin : Nat} (a : BuddyAllocator) (hk : fin - addr ≤ k) (hda : frameSize ∣ addr)
    (hdf : frameSize ∣ fin) (hmax : a.freeFrames + (fin - addr) / frameSize < 2 ^ 64) :
    (addFreeRangeFrom k a addr fin).freeFrames = a.freeFrames + (fin - addr) / frameSize := by
  induction k generalizing a addr with
  | zero =>
    have hzero : fin - addr = 0 := by omega
    rw [hzero, Nat.zero_div]
    rfl
  | succ k ih =>
    by_cases hlt : addr < fin
    swap
    · have hzero : fin - addr = 0 := by omega
      rw [addFreeRangeFrom_of_le (not_lt.mp hlt), hzero, Nat.zero_div]
      rfl
    obtain ⟨order, -, -, -, hle, hround⟩ := addFreeRangeFrom_succ a hda hdf hlt
    have hpow : 2 ^ (frameLevel + order) = frameSize * 2 ^ order := by rw [Nat.pow_add, frameSize_eq]
    have hpos := Nat.two_pow_pos order
    -- what the block takes, and what is left
    have hleft : (fin - addr) / frameSize = 2 ^ order + (fin - (addr + frameSize * 2 ^ order)) / frameSize := by
      have hsplit : fin - addr = frameSize * 2 ^ order + (fin - (addr + frameSize * 2 ^ order)) := by omega
      rw [hsplit, Nat.mul_add_div frameSize_pos]
    have hstep : 0 < frameSize * 2 ^ order := Nat.mul_pos frameSize_pos hpos
    have hblock : a.freeFrames + 2 ^ order < 2 ^ 64 :=
      (Nat.add_le_add_left (hleft ▸ Nat.le_add_right _ _) _).trans_lt hmax
    rw [hround, saturatingAdd_of_lt hblock, hpow]
    rw [hleft] at hmax ⊢
    rw [ih { a.pushFree addr order with freeFrames := a.freeFrames + 2 ^ order } (by omega)
      (Nat.dvd_add hda (Nat.dvd_mul_right _ _)) (by dsimp only; omega)]
    dsimp only
    omega

theorem addRanges_freeFrames {R : List (Nat × Nat)} (a : BuddyAllocator)
    (hmax : a.freeFrames + ((R.map scale).map frames).sum < 2 ^ 64) :
    (addRanges a (R.map scale)).freeFrames = a.freeFrames + ((R.map scale).map frames).sum := by
  induction R generalizing a with
  | nil => rfl
  | cons r R ih =>
    simp only [List.map_cons, List.sum_cons] at hmax ⊢
    have hone : (a.addFreeRange (scale r).1 (scale r).2).freeFrames = a.freeFrames + frames (scale r) :=
      addFreeRangeFrom_freeFrames a le_rfl (Nat.dvd_mul_left _ _) (Nat.dvd_mul_left _ _) (by
        show _ + frames (scale r) < _
        omega)
    have hrest := ih (a.addFreeRange (scale r).1 (scale r).2) (by rw [hone]; omega)
    rw [hone] at hrest
    exact hrest.trans (Nat.add_assoc _ _ _)

/-! ## The plan -/

/-- The highest address is that of an entry, and no entry has a higher one. -/
theorem maxPhys_spec {P : Nat → Prop} (h0 : P 0) (h : ∀ e ∈ memoryMap, e.dominated = true → P e.fin) :
    P (maxPhys memoryMap) ∧ ∀ e ∈ memoryMap, e.dominated = true → e.fin ≤ maxPhys memoryMap := by
  have hfold : ∀ m, P m → P (memoryMap.foldl
      (fun m e => if !e.dominated then m else if e.fin > m then e.fin else m) m) ∧
      m ≤ memoryMap.foldl (fun m e => if !e.dominated then m else if e.fin > m then e.fin else m) m ∧
      ∀ e ∈ memoryMap, e.dominated = true → e.fin ≤ memoryMap.foldl
        (fun m e => if !e.dominated then m else if e.fin > m then e.fin else m) m := by
    induction memoryMap with
    | nil => exact fun m hm => ⟨hm, le_rfl, nofun⟩
    | cons e rest ih =>
      intro m hm
      have hrest := ih fun e' he' => h e' (List.mem_cons_of_mem _ he')
      rw [List.foldl_cons]
      by_cases hdom : e.dominated = true
      · -- the entry raises the bound to its end, if that is higher
        obtain ⟨hP, hle, hall⟩ := hrest (if e.fin > m then e.fin else m)
          (by split; exacts [h e List.mem_cons_self hdom, hm])
        have hmax : m ≤ (if e.fin > m then e.fin else m) ∧ e.fin ≤ (if e.fin > m then e.fin else m) := by
          split <;> omega
        rw [if_neg (by simp [hdom])]
        refine ⟨hP, hmax.1.trans hle, fun e' he' hdom' => ?_⟩
        rcases List.mem_cons.mp he' with rfl | he'
        · exact hmax.2.trans hle
        · exact hall e' he' hdom'
      · obtain ⟨hP, hle, hall⟩ := hrest m hm
        rw [if_pos (by simp [hdom])]
        refine ⟨hP, hle, fun e' he' hdom' => ?_⟩
        rcases List.mem_cons.mp he' with rfl | he'
        · exact absurd hdom' hdom
        · exact hall e' he' hdom'
  exact ⟨(hfold 0 h0).1, (hfold 0 h0).2.2⟩

/-- The metadata goes to a frame of a usable entry at or above 1 MiB that has room for it. -/
theorem metadataBase_spec {size base : Nat} (hno : NoOverflow memoryMap) (h : metadataBase memoryMap size = some base) :
    ∃ p, base = p * frameSize ∧ lowMemoryReserve ≤ base ∧
      ∃ e ∈ memoryMap, e.type_ = MemmapType.usable ∧ e.base ≤ base ∧ base + size ≤ e.base + e.length := by
  obtain ⟨floor, hfloor, h⟩ := List.exists_of_findSome?_eq_some h
  obtain ⟨e, he, h⟩ := List.exists_of_findSome?_eq_some h
  rw [List.mem_filter, beq_iff_eq] at he
  obtain ⟨he, husable⟩ := he
  have hfits := hno e he (dominated_of_usable husable)
  have hfin := fin_eq hfits
  unfold EntryFits at hfits
  have hbounds : lowMemoryReserve ≤ floor ∧ floor + (frameSize - 1) < 2 ^ 64 := by
    rcases List.mem_cons.mp hfloor with rfl | hfloor
    · decide
    · obtain rfl := List.mem_singleton.mp hfloor
      decide
  obtain ⟨s, hs, hsi⟩ := alignUp_frame (max e.base floor) (by omega)
  obtain ⟨t, ht, hti⟩ := alignDown_frame e.fin (by omega)
  dsimp only at h
  split at h
  · next hroom =>
      cases h
      have hbase := (hsi s).mp le_rfl
      have hend : t * frameSize ≤ e.fin := by
        cases t with
        | zero => omega
        | succ t => exact (hti t).mp (Nat.lt_succ_self t)
      rw [ht] at hroom
      refine ⟨s, hs, ?_, e, he, husable, ?_, ?_⟩
      · rw [hs]
        exact hbounds.1.trans ((le_max_right _ _).trans hbase)
      · rw [hs]
        exact (le_max_left _ _).trans hbase
      · omega
  · cases h

theorem planMetadata_ok {total base size : Nat} (h : planMetadata memoryMap = .ok (total, base, size)) :
    total = alignUp (maxPhys memoryMap) frameSize / frameSize ∧ metadataBase memoryMap size = some base ∧
      frameSize ∣ size := by
  unfold planMetadata at h
  split at h
  · cases h
  dsimp only at h
  split at h
  · cases h
  next hbase =>
    obtain ⟨rfl, rfl, rfl⟩ : _ ∧ _ ∧ _ := by simpa using Except.ok.inj h
    exact ⟨rfl, hbase, Nat.dvd_mul_left _ _⟩

/-- Every entry lies in the managed frames, whose last address does not wrap. -/
theorem totalFrames_spec (hno : NoOverflow memoryMap) :
    alignUp (maxPhys memoryMap) frameSize / frameSize * frameSize < 2 ^ 64 ∧
      ∀ e ∈ memoryMap, e.dominated = true →
        e.base + e.length ≤ alignUp (maxPhys memoryMap) frameSize / frameSize * frameSize := by
  obtain ⟨hmax, hall⟩ := maxPhys_spec (P := fun m => m + (frameSize - 1) < 2 ^ 64) (by decide)
    fun e he hdom => by rw [fin_eq (hno e he hdom)]; exact hno e he hdom
  obtain ⟨s, hs, hsi⟩ := alignUp_frame (maxPhys memoryMap) hmax
  have hsize := frameSize_pos
  rw [hs, Nat.mul_div_cancel _ frameSize_pos]
  constructor
  · cases s with
    | zero => decide
    | succ s =>
      have hbelow : ¬ maxPhys memoryMap ≤ s * frameSize := fun hle => Nat.not_succ_le_self s ((hsi s).mpr hle)
      rw [Nat.succ_mul]
      omega
  · intro e he hdom
    have hle := hall e he hdom
    rw [fin_eq (hno e he hdom)] at hle
    exact hle.trans ((hsi s).mp le_rfl)

/-! ## The boot state -/

section
variable {total : Nat} (hno : NoOverflow memoryMap) (hapart : UsableApart memoryMap)
  (htotal : total = alignUp (maxPhys memoryMap) frameSize / frameSize)
include hno htotal

/-- A range to free lies in the managed frames from 1 MiB on. -/
theorem bounds_of_mem (hr : r ∈ freeFrameRanges memoryMap p q) : 0 < r.1 ∧ r.2 ≤ total := by
  obtain ⟨e, he, hr⟩ := List.mem_flatMap.mp hr
  obtain ⟨husable, hfits, hr⟩ := mem_entryFrames hno he hr
  obtain ⟨hm, hlt, -, -⟩ := mem_cut hr
  have hin := (totalFrames_spec hno).2 e he (dominated_of_usable husable)
  obtain ⟨-, hl, -⟩ := within_entry hfits hr (i := r.2 - 1) (by omega) (by omega)
  rw [← htotal, Nat.sub_add_cancel (by omega)] at *
  refine ⟨?_, Nat.le_of_mul_le_mul_right (hl.trans hin) frameSize_pos⟩
  have h64 : 64 ≤ firstFrame e := le_max_right _ _
  omega

include hapart

theorem rangesOk_freeRanges (hpq : p ≤ q) : RangesOk total ((freeFrameRanges memoryMap p q).map scale) := by
  have hbounds : ∀ r ∈ freeFrameRanges memoryMap p q, 0 < r.1 ∧ r.2 ≤ total := fun r hr => bounds_of_mem hno htotal hr
  refine ⟨?_, ?_, ?_, ?_, ?_⟩
  · rw [htotal]
    exact (totalFrames_spec hno).1.le
  · refine List.forall_mem_map.mpr fun r _ => ?_
    exact ⟨Nat.dvd_mul_left _ _, Nat.dvd_mul_left _ _⟩
  · refine List.forall_mem_map.mpr fun r hr => ?_
    exact Nat.mul_le_mul_right _ (hbounds r hr).2
  · refine List.forall_mem_map.mpr fun r hr _ => ?_
    exact Nat.ne_of_gt (Nat.mul_pos (hbounds r hr).1 frameSize_pos)
  · -- an address in both ranges is of a frame in both
    refine List.pairwise_map.mpr ((pairwise_freeFrameRanges hno hapart hpq).imp fun {r r'} hd f h1 h2 h3 => ?_)
    refine hd (f / frameSize) ?_ ?_ ⟨?_, ?_⟩
    · exact (Nat.le_div_iff_mul_le frameSize_pos).mpr h1
    · exact (Nat.div_lt_iff_lt_mul frameSize_pos).mpr h2
    · exact (Nat.le_div_iff_mul_le frameSize_pos).mpr h3.1
    · exact (Nat.div_lt_iff_lt_mul frameSize_pos).mpr h3.2

/-- The frames counted are those to free, and fit in a `usize`. -/
theorem sum_frames (hpq : p ≤ q) :
    (((freeFrameRanges memoryMap p q).map scale).map frames).sum =
        {i | Freed memoryMap (p * frameSize) (q * frameSize) i}.ncard ∧
      (((freeFrameRanges memoryMap p q).map scale).map frames).sum ≤ total := by
  obtain ⟨-, hcard⟩ := ncard_ranges (pairwise_freeFrameRanges hno hapart hpq)
  have hsum : ((freeFrameRanges memoryMap p q).map scale).map frames =
      (freeFrameRanges memoryMap p q).map fun r => r.2 - r.1 := by
    rw [List.map_map]
    exact List.map_congr_left fun r _ => frames_scale r
  have hset : {i | ∃ r ∈ freeFrameRanges memoryMap p q, r.1 ≤ i ∧ i < r.2} =
      {i | Freed memoryMap (p * frameSize) (q * frameSize) i} := Set.ext fun i => mem_freeFrameRanges_iff hno i
  rw [hsum, ← hcard]
  refine ⟨by rw [hset], ?_⟩
  have hsub : {i | ∃ r ∈ freeFrameRanges memoryMap p q, r.1 ≤ i ∧ i < r.2} ⊆ Set.Iio total := by
    rintro i ⟨r, hr, -, hi⟩
    exact hi.trans_le (bounds_of_mem hno htotal hr).2
  calc _ ≤ (Set.Iio total).ncard := Set.ncard_le_ncard hsub (Set.finite_Iio _)
    _ = total := by rw [← Finset.coe_Iio, Set.ncard_coe_finset, Nat.card_Iio]

end

/-- **Booting**: for a memory map with usable entries that do not overlap and no sum that wraps, the metadata lies
in one usable entry at or above 1 MiB, and `populate_free_lists` frees the frames that lie wholly inside usable
entries at or above 1 MiB and do not touch the metadata, and no others, each in one block, and returns their
number, which `free_frames` is too. -/
theorem boot_map_freed {total base size : Nat} (hno : NoOverflow memoryMap) (hapart : UsableApart memoryMap)
    (hplan : planMetadata memoryMap = .ok (total, base, size)) :
    (∃ e ∈ memoryMap, e.type_ = MemmapType.usable ∧ lowMemoryReserve ≤ base ∧ e.base ≤ base ∧
        base + size ≤ e.base + e.length) ∧
      ∃ a, populateFreeLists (.empty total) memoryMap base (base + size) =
          ({i | Freed memoryMap base (base + size) i}.ncard, a) ∧
        a.freeFrames = {i | Freed memoryMap base (base + size) i}.ncard ∧
        (∀ f, isFree a f = true ↔ Freed memoryMap base (base + size) (f / frameSize)) ∧
        (∀ o, (freeBlocks a o).Nodup) ∧
        ∀ f, isFree a f = true → ∃! b : Nat × Nat, b.1 ∈ freeBlocks a b.2 ∧ Within (frameLevel + b.2) b.1 f := by
  obtain ⟨htotal, hbase, k, rfl⟩ := planMetadata_ok hplan
  obtain ⟨p, rfl, hlow, e, he, husable, hin⟩ := metadataBase_spec hno hbase
  refine ⟨⟨e, he, husable, hlow, hin⟩, ?_⟩
  -- the metadata is frames `[p, p + k)`
  have hend : p * frameSize + frameSize * k = (p + k) * frameSize := by ring
  have hpq : p ≤ p + k := Nat.le_add_right _ _
  have hok := rangesOk_freeRanges hno hapart htotal hpq
  obtain ⟨hcount, hle⟩ := sum_frames hno hapart htotal hpq
  have hfits : total < 2 ^ 64 := by
    rw [htotal]
    exact (Nat.le_mul_of_pos_right _ frameSize_pos).trans_lt (totalFrames_spec hno).1
  obtain ⟨L, hrep, -, hcover⟩ := initial_spec hok
  obtain rfl := hrep.freeBlocks_eq
  rw [hend, populateFreeLists_eq, freeRanges_eq hno, hcount]
  refine ⟨_, rfl, ?_, fun f => ?_, hrep.space.nodup, fun f hfree => ?_⟩
  · -- the counter saturates, but the frames of the map fit
    have hzero : (BuddyAllocator.empty total).freeFrames = 0 := rfl
    rw [addRanges_freeFrames _ (by rw [hzero]; omega), hcount, hzero, Nat.zero_add]
  · -- an address is free when its frame is
    rw [isFree_iff hrep, hcover, ← mem_freeFrameRanges_iff hno]
    simp only [List.mem_map, exists_exists_and_eq_and]
    refine exists_congr fun r => and_congr_right fun _ => ?_
    rw [Nat.le_div_iff_mul_le frameSize_pos, Nat.div_lt_iff_lt_mul frameSize_pos]
    rfl
  · -- two blocks with an address in common are one
    obtain ⟨o, x, hx, hwithin⟩ := (isFree_iff hrep).mp hfree
    refine ⟨(x, o), ⟨hx, hwithin⟩, ?_⟩
    rintro ⟨y, o'⟩ ⟨hy, hwithin'⟩
    obtain ⟨rfl, rfl⟩ := hrep.space.disjoint hy hx hwithin' hwithin
    rfl

/-- Conventional memory up to an address that is no frame boundary, and five frames at 1 MiB. -/
def smallMap : List MemmapEntry :=
  [⟨0, 0x9fc00, MemmapType.usable⟩, ⟨0x9fc00, 0x60400, 1⟩, ⟨0x100000, 0x14000, MemmapType.usable⟩]

theorem boot_map_freed_small : planMetadata smallMap = .ok (69, 0x100000, 0x4000) ∧
    {i | Freed smallMap 0x100000 0x104000 i}.ncard = 4 := by
  have hno : NoOverflow smallMap := by
    intro e he _
    simp only [smallMap, List.mem_cons, List.not_mem_nil, or_false] at he
    rcases he with rfl | rfl | rfl <;> decide
  have hapart : UsableApart smallMap := by
    refine List.pairwise_cons.mpr ⟨fun e' he' _ _ f _ h2 h3 => ?_, ?_⟩
    · simp only [List.mem_cons, List.not_mem_nil, or_false] at he'
      rcases he' with rfl | rfl <;> dsimp only at h2 h3 <;> omega
    · refine List.pairwise_cons.mpr ⟨fun _ _ husable => ?_, List.pairwise_singleton _ _⟩
      cases husable
  have hplan : planMetadata smallMap = .ok (69, 0x100000, 0x4000) := rfl
  obtain ⟨-, a, hcount, -⟩ := boot_map_freed hno hapart hplan
  exact ⟨hplan, (congrArg Prod.fst hcount).symm⟩

end SlateOS.Mm.Frame.Boot
