/-
# SlateOS.Mm.Frame.Buddy -- the buddy allocator's own code

`BuddyAllocator` and its methods, as `kernel/src/mm/frame.rs` computes them under the allocator
lock. Addresses are physical. The direct map is linear, so the node a free block carries in its own
first 16 bytes is read and written at the block's physical address: `mem` maps an address to the
node stored there. `page_info` and `refcount` are maps from frame indices.

Every method that returns an error returns it before its first write, so a fallible method is a
function into `KernelResult` that carries the new allocator only on success.
-/
import SlateOS.Foundation.IntrusiveList
import SlateOS.Foundation.MachineInt
import SlateOS.Kernel.Error

namespace SlateOS.Mm.Frame.Buddy

open Foundation.IntrusiveList Foundation.MachineInt Kernel
open Function (update)

/-- Blocks are compared by address and order. -/
scoped instance block_lawfulBEq : LawfulBEq (Nat × Nat) := inferInstance

/-! ## Constants -/

/-- `FRAME_SIZE`: 16 KiB. -/
def frameSize : Nat := 16 * 1024

/-- `MAX_ORDER`. -/
def maxOrder : Nat := 10

/-- `DMA_ZONE_END`: the ISA DMA zone is the first 16 MiB. -/
def dmaZoneEnd : Nat := 0x1000000

/-- `INFO_ALLOCATED`: a frame that is no free block's first frame. -/
def infoAllocated : Nat := 0xFF

/-- `in_dma_zone`: the block of this order at `addr` ends inside the ISA DMA zone. -/
def inDmaZone (addr order : Nat) : Bool :=
  match checkedShl 64 frameSize order with
  | some size =>
    match checkedAdd 64 addr size with
    | some fin => fin ≤ dmaZoneEnd
    | none => false
  | none => false

/-! ## State -/

/-- `FreeList`: the ends and the length of one order's list. -/
structure FreeList where
  head : Nat
  tail : Nat
  count : Nat
  deriving DecidableEq, Repr

/-- `FreeList::new`. -/
def FreeList.new : FreeList := ⟨0, 0, 0⟩

/-- `BuddyAllocator`, together with the part of physical memory it writes its list nodes to. -/
structure BuddyAllocator where
  freeLists : Nat → FreeList
  pageInfo : Nat → Nat
  refcount : Nat → Nat
  totalFrames : Nat
  freeFrames : Nat
  mem : Nat → Node Nat

/-- The allocator before any range is added: every frame marked allocated, every list empty. -/
def BuddyAllocator.empty (totalFrames : Nat) : BuddyAllocator :=
  { freeLists := fun _ => .new
    pageInfo := fun _ => infoAllocated
    refcount := fun _ => 0
    totalFrames := totalFrames
    freeFrames := 0
    mem := fun _ => ⟨0, 0⟩ }

/-- `frame_index`. -/
def frameIndex (addr : Nat) : Nat := addr / frameSize

namespace BuddyAllocator

/-! ## Free list operations -/

/-- `append_free`: put `addr` after `oldTail`, which is not zero. -/
def appendFree (a : BuddyAllocator) (addr order oldTail : Nat) : BuddyAllocator :=
  let fl := a.freeLists order
  { a with
    mem := linkBack a.mem 0 oldTail addr
    freeLists := update a.freeLists order
      { fl with tail := addr, count := saturatingAdd 64 fl.count 1 }
    pageInfo := update a.pageInfo (frameIndex addr) order }

/-- `push_free`: put `addr` at the front of its order's list, or at its back for a block inside the
ISA DMA zone when the list is not empty. -/
def pushFree (a : BuddyAllocator) (addr order : Nat) : BuddyAllocator :=
  let fl := a.freeLists order
  if inDmaZone addr order ∧ fl.tail ≠ 0 then a.appendFree addr order fl.tail
  else
    { a with
      mem := linkFront a.mem 0 fl.head addr
      freeLists := update a.freeLists order
        { head := addr
          tail := if fl.head = 0 then addr else fl.tail
          count := saturatingAdd 64 fl.count 1 }
      pageInfo := update a.pageInfo (frameIndex addr) order }

/-- `remove_free`: unlink a block from its order's list, leaving nothing of its node behind. -/
def removeFree (a : BuddyAllocator) (addr order : Nat) : BuddyAllocator :=
  let fl := a.freeLists order
  { a with
    mem := unlink a.mem 0 addr
    freeLists := update a.freeLists order
      { head := unlinkHead a.mem 0 fl.head addr
        tail := unlinkTail a.mem 0 fl.tail addr
        count := fl.count - 1 }
    pageInfo := update a.pageInfo (frameIndex addr) infoAllocated }

/-- `pop_free`: take the head of an order's list. -/
def popFree (a : BuddyAllocator) (order : Nat) : Option (Nat × BuddyAllocator) :=
  let head := (a.freeLists order).head
  if head = 0 then none else some (head, a.removeFree head order)

/-! ## Bulk initialization -/

/-- The inner loop of `add_free_range`, with `k` orders left to try: raise `order` while the next
size still fits into `remaining` and `addr` is aligned to it. -/
def fitOrderFrom (addr remaining : Nat) : Nat → Nat → Nat
  | 0, order => order
  | k + 1, order =>
    let nextSize := frameSize <<< (order + 1)
    if nextSize > remaining then order
    else if addr % nextSize ≠ 0 then order
    else fitOrderFrom addr remaining k (order + 1)

/-- The order `add_free_range` picks at `addr`. -/
def fitOrder (addr remaining : Nat) : Nat := fitOrderFrom addr remaining maxOrder 0

/-- The outer loop of `add_free_range`; each round moves `addr` up, so `fin - addr` rounds do. -/
def addFreeRangeFrom : Nat → BuddyAllocator → Nat → Nat → BuddyAllocator
  | 0, a, _, _ => a
  | k + 1, a, addr, fin =>
    if addr < fin then
      let order := fitOrder addr (fin - addr)
      let a := a.pushFree addr order
      addFreeRangeFrom k { a with freeFrames := saturatingAdd 64 a.freeFrames (1 <<< order) }
        (addr + frameSize <<< order) fin
    else a

/-- `add_free_range`: cover `[start, fin)` greedily by the largest aligned blocks. -/
def addFreeRange (a : BuddyAllocator) (start fin : Nat) : BuddyAllocator :=
  addFreeRangeFrom (fin - start) a start fin

/-! ## Reference counts -/

/-- `for i in 0..n { set_refcount(base + i, f(get_refcount(base + i))) }`, the index added with
saturation. -/
def updateRefcounts (f : Nat → Nat) (base : Nat) : Nat → (Nat → Nat) → Nat → Nat
  | 0, rc => rc
  | n + 1, rc =>
    let rc := updateRefcounts f base n rc
    let i := saturatingAdd 64 base n
    update rc i (f (rc i))

/-! ## Allocation -/

/-- The splitting loop: from order `source` down to `order`, list the upper half of the block at
`addr`. -/
def splitDown (addr order : Nat) : Nat → BuddyAllocator → BuddyAllocator
  | 0, a => a
  | source + 1, a =>
    if source + 1 > order then
      splitDown addr order source (a.pushFree (addr + frameSize * (1 <<< source)) source)
    else a

/-- The bookkeeping both allocation paths end with: count the frames out, one reference each. -/
def takeFrames (a : BuddyAllocator) (addr order : Nat) : BuddyAllocator :=
  { a with
    freeFrames := a.freeFrames - 1 <<< order
    refcount := updateRefcounts (fun _ => 1) (frameIndex addr) (1 <<< order) a.refcount }

/-- `order..=MAX_ORDER`. -/
def ordersFrom (order : Nat) : List Nat := List.range' order (maxOrder + 1 - order)

/-- `alloc_inner`: the smallest order with a free block above the ISA DMA zone, else the smallest
with any; pop its head, split down. -/
def allocInner (a : BuddyAllocator) (order : Nat) : KernelResult (Nat × BuddyAllocator) :=
  if order > maxOrder then .error .invalidArgument
  else
    let aboveZone := (ordersFrom order).find? fun o =>
      (a.freeLists o).head ≠ 0 && !inDmaZone (a.freeLists o).head o
    match aboveZone.or ((ordersFrom order).find? fun o => (a.freeLists o).head ≠ 0) with
    | none => .error .outOfMemory
    | some sourceOrder =>
      match a.popFree sourceOrder with
      | none => .error .internalError
      | some (addr, a) => .ok (addr, (splitDown addr order sourceOrder a).takeFrames addr order)

/-- The allocation of `order` at `addr` ends at or below `maxAddr`. -/
def fitsBelow (order maxAddr addr : Nat) : Bool :=
  match checkedAdd 64 addr (frameSize <<< order) with
  | some fin => fin ≤ maxAddr
  | none => false

/-- The walk of `alloc_inner_constrained` along one order's list: the first block that fits. A list
has no more blocks than there are frames. -/
def findBelow (a : BuddyAllocator) (order maxAddr source : Nat) : Option Nat :=
  (walk a.mem 0 a.totalFrames (a.freeLists source).head).find? (fitsBelow order maxAddr)

/-- `alloc_inner_constrained`: the first block that ends at or below `maxAddr`, from the smallest
order up; unlink it, split down. -/
def allocInnerConstrained (a : BuddyAllocator) (order maxAddr : Nat) :
    KernelResult (Nat × BuddyAllocator) :=
  if order > maxOrder then .error .invalidArgument
  else
    match (ordersFrom order).findSome? fun source =>
        (a.findBelow order maxAddr source).map fun addr => (source, addr) with
    | none => .error .outOfMemory
    | some (source, addr) =>
      .ok (addr, (splitDown addr order source (a.removeFree addr source)).takeFrames addr order)

/-! ## Freeing -/

/-- The coalescing loop of `free_inner`, with `k` orders left: while the buddy is free at the same
order, unlink it and go on with the enclosing block. Returns the block to list and its order. -/
def coalesce : Nat → BuddyAllocator → Nat → Nat → Nat × Nat × BuddyAllocator
  | 0, a, addr, order => (addr, order, a)
  | k + 1, a, addr, order =>
    let buddyAddr := addr ^^^ (frameSize <<< order)
    let buddyIdx := frameIndex buddyAddr
    if buddyIdx ≥ a.totalFrames then (addr, order, a)
    else if a.pageInfo buddyIdx ≠ order then (addr, order, a)
    else coalesce k (a.removeFree buddyAddr order) (min addr buddyAddr) (order + 1)

/-- `free_inner`: drop one reference of a block, and list it again once it has no other. -/
def freeInner (a : BuddyAllocator) (addr order : Nat) : KernelResult BuddyAllocator :=
  if order > maxOrder then .error .invalidArgument
  else if addr % frameSize ≠ 0 then .error .badAlignment
  else
    let idx := frameIndex addr
    if idx ≥ a.totalFrames then .error .invalidAddress
    else if a.pageInfo idx ≠ infoAllocated then .error .invalidAddress
    else
      let framesInBlock := 1 <<< order
      if a.refcount idx > 1 then
        .ok { a with refcount := updateRefcounts (fun cur => cur - 1) idx framesInBlock a.refcount }
      else
        let a := { a with refcount := updateRefcounts (fun _ => 0) idx framesInBlock a.refcount }
        let (addr, order, a) := coalesce (maxOrder - order) a addr order
        let a := a.pushFree addr order
        .ok { a with freeFrames := saturatingAdd 64 a.freeFrames framesInBlock }

/-! ## Sharing -/

/-- `ref_inc`, under the lock: one more reference to a frame that has one. The bound checked is
`page_info_len`, which initialization sets to `total_frames` and nothing changes. -/
def refInc (a : BuddyAllocator) (addr : Nat) : KernelResult BuddyAllocator :=
  let idx := frameIndex addr
  if idx ≥ a.totalFrames then .error .invalidAddress
  else
    let rc := a.refcount idx
    if rc = 0 then .error .invalidArgument
    else .ok { a with refcount := update a.refcount idx (saturatingAdd 16 rc 1) }

/-- `ref_dec`, under the lock: one reference less; the free lists are not touched. Returns the new
count. -/
def refDec (a : BuddyAllocator) (addr : Nat) : KernelResult (Nat × BuddyAllocator) :=
  let idx := frameIndex addr
  if idx ≥ a.totalFrames then .error .invalidAddress
  else
    let rc := a.refcount idx
    if rc = 0 then .error .invalidArgument
    else .ok (rc - 1, { a with refcount := update a.refcount idx (rc - 1) })

end BuddyAllocator

end SlateOS.Mm.Frame.Buddy
