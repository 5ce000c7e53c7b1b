/-
# SlateOS.Mm.Frame.Layers -- per-CPU caches and the zero pool over the buddy allocator

The allocation entry points of `kernel/src/mm/frame.rs` as a transition system. A call in progress
is a program counter `Pc`; one step runs one atomic section of it: a section under the allocator
lock, one under the zero pool's lock, an access to a per-CPU cache with interrupts off, or a read of
an atomic. While a call has interrupts off on a CPU no other call enters such a section there, and
calls on other CPUs go on. Any number of CPUs, and of calls in progress on each, interleave.

What the steps decide outside this file (whether the cgroup charge fits, whether reclaim freed
anything, whether the direct map is up) is the `Bool` of the action. `owners` lists the references
held by callers between calls: allocation adds one, `free_frame` and `free_order` take one, and
`ref_inc` adds one beside another. Frames are shared one by one, never as a larger block.
-/
import SlateOS.Foundation.Stores
import SlateOS.Mm.Frame.Invariant
import SlateOS.Mm.Frame.Tokens

namespace SlateOS.Mm.Frame.Layers

open Foundation.IntrusiveList Foundation.MachineInt Foundation.Dyadic Foundation.Stores Kernel Mm.Frame.Buddy
open Mm.Frame.Lists Mm.Frame.Tokens

/-! ## Stores -/

/-- `PCPU_CACHE_SIZE`. -/
def pcpuCacheSize : Nat := 32

/-- `PCPU_BATCH`: half the cache. -/
def pcpuBatch : Nat := pcpuCacheSize / 2

/-- `ZERO_POOL_CAPACITY`. -/
def zeroPoolCapacity : Nat := 256

/-- `ZERO_POOL_REFILL_BATCH`. -/
def zeroPoolRefillBatch : Nat := 16

/-- `PerCpuFrameCache`. -/
abbrev PerCpuFrameCache := BoundedStack Nat pcpuCacheSize

/-- `ZeroPool`. -/
abbrev ZeroPool := BoundedStack Nat zeroPoolCapacity

/-- The loop of `pcpu_refill`: up to `n` frames from the buddy lists into the cache. Returns the
number moved. -/
def pcpuRefill : Nat → BuddyAllocator → PerCpuFrameCache → Nat × BuddyAllocator × PerCpuFrameCache
  | 0, a, c => (0, a, c)
  | n + 1, a, c =>
    match a.allocInner 0 with
    | .ok (addr, a) =>
      let (refilled, r) := pcpuRefill n a (c.push addr).2
      (refilled + 1, r)
    | .error _ => (0, a, c)

/-- The loop of `pcpu_drain`: up to `n` frames from the cache to the buddy lists, errors ignored. -/
def pcpuDrain : Nat → BuddyAllocator → PerCpuFrameCache → BuddyAllocator × PerCpuFrameCache
  | 0, a, c => (a, c)
  | n + 1, a, c =>
    match c.pop with
    | some (addr, c) =>
      match a.freeInner addr 0 with
      | .ok a => pcpuDrain n a c
      | .error _ => pcpuDrain n a c
    | none => (a, c)

/-! ## Calls in progress -/

/-- What an allocation of the given order is for: its caller, `alloc_frame_zeroed`, or
`refill_zero_pool` with `left` rounds to go after this one. -/
inductive Use : Nat → Type
  | caller {order : Nat} : Use order
  | zeroed : Use 0
  | pool (left : Nat) : Use 0

/-- Where a call in progress stands. -/
inductive Pc
  /-- `alloc_frame_zeroed`: try the zero pool. -/
  | frameZeroed
  /-- `alloc_frame_zeroed`: charge the frame popped from the pool. -/
  | chargePooled (addr : Nat)
  /-- `alloc_frame`: turn interrupts off and try the cache. -/
  | frame (u : Use 0)
  /-- `alloc_frame`: `pcpu_refill`, interrupts off. -/
  | refill (u : Use 0) (cpu : Nat)
  /-- `alloc_frame`: pop after the refill, interrupts off. -/
  | popAgain (u : Use 0) (cpu : Nat)
  /-- `alloc_frame`: charge the frame from the cache. -/
  | chargeCached (u : Use 0) (addr : Nat)
  /-- `alloc_order_inner`, or `alloc_order_constrained_inner` with a bound: one attempt. -/
  | order (order : Nat) (u : Use order) (maxAddr : Option Nat)
  /-- `alloc_order`: charge the block from the buddy lists. -/
  | chargeOrder (order : Nat) (u : Use order) (addr : Nat)
  /-- `alloc_frame_zeroed`: zero the frame from `alloc_frame`. -/
  | zero (addr : Nat)
  /-- `refill_zero_pool`: read how many slots are free. -/
  | poolFill
  /-- `refill_zero_pool`: the head of the loop. -/
  | poolNext (left : Nat)
  /-- `refill_zero_pool`: push the zeroed frame. -/
  | poolPush (left addr : Nat)
  /-- `free_frame`: read the reference count. -/
  | freeFrame (addr : Nat)
  /-- `free_frame`: turn interrupts off and push to the cache. -/
  | freeCached (addr : Nat)
  /-- `free_frame`: `pcpu_drain`, interrupts off. -/
  | drain (addr cpu : Nat)
  /-- `free_frame`: push after the drain, interrupts off. -/
  | pushAgain (addr cpu : Nat)
  /-- `free_order`: `free_inner` under the lock. -/
  | freeOrder (addr order : Nat)

/-- The CPU a call has interrupts off on. -/
def Pc.cpu : Pc → Option Nat
  | .refill _ cpu | .popAgain _ cpu | .drain _ cpu | .pushAgain _ cpu => some cpu
  | _ => none

/-- The allocator with its layers, the references callers hold, and the calls in progress. -/
structure State where
  alloc : BuddyAllocator
  caches : List PerCpuFrameCache
  pool : ZeroPool
  pcpuEnabled : Bool
  zeroPoolEnabled : Bool
  owners : List (Nat × Nat)
  calls : List Pc

/-- Some call in progress has interrupts off on this CPU. -/
def State.irqsOff (s : State) (cpu : Nat) : Bool := s.calls.any fun p => decide (p.cpu = some cpu)

/-! ## The sections of a call

Each returns the new state and where the call stands next; `none` when it has returned. -/

/-- `PhysFrame::from_addr(addr).ok_or(InternalError)?`. -/
def State.fromAddr (s : State) (addr : Nat) (next : Pc) : State × Option Pc :=
  if addr % frameSize = 0 then (s, some next) else (s, none)

/-- The allocation succeeded: hand the block to what it was for. -/
def State.deliver (s : State) (addr : Nat) : {order : Nat} → Use order → State × Option Pc
  | order, .caller => ({ s with owners := (addr, order) :: s.owners }, none)
  | _, .zeroed => (s, some (.zero addr))
  | _, .pool left => (s, some (.poolPush left addr))

/-- Push to this CPU's cache; a refused frame goes to the buddy lists. -/
def State.pushCached (s : State) (cpu : Nat) (c : PerCpuFrameCache) (addr : Nat) :
    State × Option Pc :=
  let (pushed, c) := c.push addr
  ({ s with caches := s.caches.set cpu c }, if pushed then none else some (.freeOrder addr 0))

/-- One attempt under the allocator lock. -/
def State.attempt (s : State) (order : Nat) :
    Option Nat → KernelResult (Nat × BuddyAllocator)
  | none => s.alloc.allocInner order
  | some maxAddr => s.alloc.allocInnerConstrained order maxAddr

/-- One section of a call; `s.calls` are the other calls in progress. `cpu` is the CPU the call is
running on when it turns interrupts off, `b` what the environment decides. -/
def advance (s : State) (cpu : Nat) (b : Bool) : Pc → Option (State × Option Pc)
  | .frameZeroed =>
    if s.zeroPoolEnabled then
      match s.pool.pop with
      | some (addr, pool) => some ({ s with pool := pool }.fromAddr addr (.chargePooled addr))
      | none => some (s, some (.frame .zeroed))
    else some (s, some (.frame .zeroed))
  | .chargePooled addr =>
    some (if b then s.deliver addr (.caller : Use 0) else (s, some (.freeFrame addr)))
  | .frame u =>
    if s.pcpuEnabled then
      if s.irqsOff cpu then none
      else
        match s.caches[cpu]? with
        | none => none
        | some c =>
          match c.pop with
          | some (addr, c) =>
            some ({ s with caches := s.caches.set cpu c }.fromAddr addr (.chargeCached u addr))
          | none => some (s, some (.refill u cpu))
    else some (s, some (.order 0 u none))
  | .refill u cpu =>
    match s.caches[cpu]? with
    | none => none
    | some c =>
      let (refilled, a, c) := pcpuRefill pcpuBatch s.alloc c
      some ({ s with alloc := a, caches := s.caches.set cpu c },
        some (if refilled > 0 then .popAgain u cpu else .order 0 u none))
  | .popAgain u cpu =>
    match s.caches[cpu]? with
    | none => none
    | some c =>
      match c.pop with
      | some (addr, c) =>
        some ({ s with caches := s.caches.set cpu c }.fromAddr addr (.chargeCached u addr))
      | none => some (s, some (.order 0 u none))
  | .chargeCached u addr => some (if b then s.deliver addr u else (s, some (.freeFrame addr)))
  | .order order u maxAddr =>
    match s.attempt order maxAddr with
    | .ok (addr, a) => some ({ s with alloc := a }.fromAddr addr (.chargeOrder order u addr))
    -- reclaim, compaction or the OOM handler may have freed something: try again, or give up
    | .error .outOfMemory => some (s, if b then some (.order order u maxAddr) else none)
    | .error _ => some (s, none)
  | .chargeOrder order u addr =>
    some (if b then s.deliver addr u else (s, some (.freeOrder addr order)))
  | .zero addr =>
    some (if b then s.deliver addr (.caller : Use 0) else (s, some (.freeFrame addr)))
  | .poolFill =>
    if s.zeroPoolEnabled && b then
      if s.pool.items.length ≥ zeroPoolCapacity then some (s, none)
      else some (s, some (.poolNext
        (min (zeroPoolCapacity - s.pool.items.length) zeroPoolRefillBatch)))
    else some (s, none)
  | .poolNext 0 => some (s, none)
  | .poolNext (left + 1) => some (s, some (.frame (.pool left)))
  | .poolPush left addr =>
    let (pushed, pool) := s.pool.push addr
    if pushed then some ({ s with pool := pool }, some (.poolNext left))
    else some (s, some (.freeFrame addr))
  | .freeFrame addr =>
    if !s.pcpuEnabled then some (s, some (.freeOrder addr 0))
    else if frameIndex addr < s.alloc.totalFrames ∧ s.alloc.refcount (frameIndex addr) > 1 then
      some (s, some (.freeOrder addr 0))
    else if inDmaZone addr 0 then some (s, some (.freeOrder addr 0))
    else some (s, some (.freeCached addr))
  | .freeCached addr =>
    if s.irqsOff cpu then none
    else
      match s.caches[cpu]? with
      | none => none
      | some c =>
        if c.isFull then some (s, some (.drain addr cpu))
        else some (s.pushCached cpu c addr)
  | .drain addr cpu =>
    match s.caches[cpu]? with
    | none => none
    | some c =>
      let (a, c) := pcpuDrain pcpuBatch s.alloc c
      some ({ s with alloc := a, caches := s.caches.set cpu c }, some (.pushAgain addr cpu))
  | .pushAgain addr cpu =>
    match s.caches[cpu]? with
    | none => none
    | some c => some (s.pushCached cpu c addr)
  | .freeOrder addr order =>
    match s.alloc.freeInner addr order with
    | .ok a => some ({ s with alloc := a }, none)
    | .error _ => some (s, none)

/-! ## The system -/

/-- Starting a call, one step of a call in progress, and what goes on around them. -/
inductive Action
  | allocFrame
  | allocFrameZeroed
  | allocOrder (order : Nat)
  | allocOrderConstrained (order maxAddr : Nat)
  | refillZeroPool
  | freeFrame (addr : Nat)
  | freeOrder (addr order : Nat)
  | refInc (addr : Nat)
  | write (addr : Nat) (node : Node Nat)
  | setPcpu (on : Bool)
  | setZeroPool (on : Bool)
  | advance (call cpu : Nat) (b : Bool)

/-- The only reference to a block. -/
def blockToken (addr order : Nat) : Token := ⟨addr, order, true⟩

/-- The token of a reference held between calls: a single frame may have been shared since. -/
def ownerToken (b : Nat × Nat) : Token := ⟨b.1, b.2, decide (0 < b.2)⟩

/-- The token a call in progress carries. An allocation in progress has the only reference to its
block, and so has `free_frame` once it has read the counter. -/
def Pc.token : Pc → List Token
  | .chargePooled addr | .chargeCached _ addr | .zero addr | .poolPush _ addr
  | .freeCached addr | .drain addr _ | .pushAgain addr _ => [blockToken addr 0]
  | .chargeOrder o _ addr => [blockToken addr o]
  | .freeFrame addr => [ownerToken (addr, 0)]
  | .freeOrder addr o => [ownerToken (addr, o)]
  | .frameZeroed | .frame _ | .refill _ _ | .popAgain _ _ | .order _ _ _ | .poolFill
  | .poolNext _ => []

/-- References held by callers and by calls in progress. -/
def State.held (s : State) : List Token := s.owners.map ownerToken ++ s.calls.flatMap Pc.token

/-- **One step.** A caller frees only a reference it holds, at the order it was allocated; `ref_inc`
is called by a holder of the frame, with the counter below its maximum; memory is written by a
holder. -/
def step (s : State) : Action → Option State
  | .allocFrame => some { s with calls := .frame .caller :: s.calls }
  | .allocFrameZeroed => some { s with calls := .frameZeroed :: s.calls }
  | .allocOrder order => some { s with calls := .order order .caller none :: s.calls }
  | .allocOrderConstrained order maxAddr =>
    some { s with calls := .order order .caller (some maxAddr) :: s.calls }
  | .refillZeroPool => some { s with calls := .poolFill :: s.calls }
  | .freeFrame addr =>
    if (addr, 0) ∈ s.owners then
      some { s with owners := s.owners.erase (addr, 0), calls := .freeFrame addr :: s.calls }
    else none
  | .freeOrder addr order =>
    if (addr, order) ∈ s.owners then
      some { s with
        owners := s.owners.erase (addr, order)
        calls := .freeOrder addr order :: s.calls }
    else none
  | .refInc addr =>
    if (addr, 0) ∈ s.owners ∧ s.alloc.refcount (frameIndex addr) < maxVal 16 then
      match s.alloc.refInc addr with
      | .ok a => some { s with alloc := a, owners := (addr, 0) :: s.owners }
      | .error _ => some s
    else none
  | .write addr node =>
    if ∃ t ∈ s.held, Within (frameLevel + t.order) t.addr addr then
      some { s with alloc := { s.alloc with mem := write s.alloc.mem addr node } }
    else none
  | .setPcpu on => some { s with pcpuEnabled := on }
  | .setZeroPool on => some { s with zeroPoolEnabled := on }
  | .advance call cpu b =>
    match s.calls[call]? with
    | none => none
    | some pc =>
      (Layers.advance { s with calls := s.calls.eraseIdx call } cpu b pc).map fun r =>
        { r.1 with calls := r.2.toList ++ r.1.calls }

/-- The allocator filled from `ranges`, `cpus` empty caches, an empty pool, nothing held. -/
def initial (totalFrames : Nat) (ranges : List (Nat × Nat)) (cpus : Nat) : State :=
  { alloc := Invariant.addRanges (.empty totalFrames) ranges
    caches := List.replicate cpus .empty
    pool := .empty
    pcpuEnabled := false
    zeroPoolEnabled := false
    owners := []
    calls := [] }

/-! ## Where a frame is -/

/-- The places a usable frame can be in. -/
inductive Place
  | free (addr order : Nat)
  | cache (cpu slot : Nat)
  | pool (slot : Nat)
  | held
  deriving DecidableEq

/-- The frame at `f` is in this place. -/
def At (s : State) (f : Nat) : Place → Prop
  | .free addr order => addr ∈ freeBlocks s.alloc order ∧ Within (frameLevel + order) addr f
  | .cache cpu slot => ∃ c, s.caches[cpu]? = some c ∧ c.items[slot]? = some f
  | .pool slot => s.pool.items[slot]? = some f
  | .held => ∃ t ∈ s.held, Within (frameLevel + t.order) t.addr f

/-- The number of references to the frame at `f` held by callers and calls in progress. -/
def heldRefs (s : State) (f : Nat) : Nat := refs s.held (frameIndex f)

/-- The frames the allocator was filled with. -/
def Usable (ranges : List (Nat × Nat)) (f : Nat) : Prop :=
  frameSize ∣ f ∧ ∃ r ∈ ranges, r.1 ≤ f ∧ f < r.2

end SlateOS.Mm.Frame.Layers
