/-
# SlateOS.Mm.Swap.System -- swapping out and in, by any number of threads

`kernel/src/mm/swap.rs`: one action is one section. A swap-out stores a frame and exchanges its entries under the
lock of the address space; a swap-in finds the slot, reads it and installs what it read, where entries still name
the slot; whoever took entries out gives their slot back in a section of its own.
-/
import SlateOS.Foundation.Runs
import SlateOS.Mm.Swap.Slots
import Mathlib.Data.Fintype.Basic
import Mathlib.Data.Finset.Card

namespace SlateOS.Mm.Swap

open Function (update)

/-- A frame of user memory: the address space, and the frame's number in it. -/
abbrev Page := Nat × Nat

/-- What a thread is in the middle of. -/
inductive Op
  /-- `swap_out_page` has stored the frame; it read these entries before. -/
  | storing (page : Page) (parts : Fin 4 → Raw) (slot : Nat)
  /-- `prepare_swap_in` has found the entry. -/
  | found (page : Page) (slot : Nat)
  /-- `SwapInPrep`. -/
  | prepared (page : Page) (slot : Nat) (frame : Frame)
  /-- The entries of these parts are gone, and `release_parts` is to come. -/
  | releasing (slot : Nat) (parts : Finset (Fin 4))

/-- The page tables with what their present entries map, the areas, and the threads. -/
structure State (n : Nat) where
  raw : Page → Fin 4 → Raw
  bytes : Page → Fin 4 → Part
  swap : SwapState
  ops : Fin n → Option Op
  /-- What was last stored to a part. -/
  last : Page → Fin 4 → Part
  /-- The flags that a part was mapped with, or had when it was swapped out. -/
  prot : Page → Fin 4 → Raw

inductive Action (n : Nat)
  | store (thread : Fin n) (page : Page) (able : Nat → Bool)
  | exchange (thread : Fin n) (locked : Bool)
  | find (thread : Fin n) (page : Page) (part : Fin 4)
  | fetch (thread : Fin n) (able : Bool)
  | install (thread : Fin n) (phys : Raw) (able : Bool)
  | release (thread : Fin n)
  | unmap (thread : Fin n) (page : Page) (part : Fin 4)
  | map (page : Page) (flags : Fin 4 → Raw) (phys : Raw) (frame : Frame)
  | write (page : Page) (part : Fin 4) (contents : Part)
  | read (page : Page) (part : Fin 4)

def frameMask : Raw := 0x3FFF#64

/-- Step 1 of `swap_out_page`: the one frame that the present parts map, where it is the space's to swap. -/
def frameBase : List Raw → Option Raw → Option Raw
  | [], base => base
  | part :: rest, base =>
    if !isPresent part then frameBase rest base
    else if PageFlags.contains (flagsOf part) PageFlags.shared
        || PageFlags.contains (flagsOf part) PageFlags.foreign then none
    else if PageFlags.contains (flagsOf part) PageFlags.mlocked then none
    else
      let b := physAddr part &&& ~~~frameMask
      match base with
      | none => frameBase rest (some b)
      | some base' => if base' = b then frameBase rest base else none

/-- A frame to swap out has a part that is mapped. -/
theorem exists_present_of_frameBase {parts : List Raw} {base : Raw} (h : frameBase parts none = some base) :
    ∃ part ∈ parts, isPresent part = true := by
  induction parts with
  | nil => cases h
  | cons part rest ih =>
    cases hp : isPresent part with
    | true => exact ⟨part, List.mem_cons_self, hp⟩
    | false =>
      rw [frameBase, hp] at h
      obtain ⟨part', hin, hp'⟩ := ih h
      exact ⟨part', List.mem_cons_of_mem part hin, hp'⟩

/-- `is_swapped`. -/
def isSwapped (parts : Fin 4 → Raw) : Bool := (List.ofFn parts).any isSwap

namespace State

variable {n : Nat}

/-- The entries of a page change, with what they map. -/
def remap (s : State n) (page : Page) (raw : Fin 4 → Raw) (bytes last : Frame) (prot : Fin 4 → Raw) : State n :=
  { s with
    raw := update s.raw page raw
    bytes := update s.bytes page bytes
    last := update s.last page last
    prot := update s.prot page prot }

/-- The parts of a page that name the slot. -/
def held (s : State n) (page : Page) (slot : Nat) : Finset (Fin 4) :=
  Finset.univ.filter fun i => fromPteRaw (s.raw page i) = some slot

/-- A thread takes entries of a page out, others in their place, and is to give the slot back. -/
def take (s : State n) (thread : Fin n) (page : Page) (slot : Nat) (parts : Finset (Fin 4)) (raw : Fin 4 → Raw)
    (bytes : Frame) : State n :=
  { s with
    raw := update s.raw page fun i => if i ∈ parts then raw i else s.raw page i
    bytes := update s.bytes page fun i => if i ∈ parts then bytes i else s.bytes page i
    ops := update s.ops thread (some (.releasing slot parts)) }

/-- `swap_out_page` up to its step 2: the frame is stored. -/
def storeFrame (areas : Areas) (s : State n) (thread : Fin n) (page : Page) (able : Nat → Bool) : State n :=
  match frameBase (List.ofFn (s.raw page)) none with
  | none => s
  | some _ =>
    match s.swap.storePage areas (s.bytes page) able with
    | (none, swap) => { s with swap }
    | (some slot, swap) =>
      { s with swap, ops := update s.ops thread (some (.storing page (s.raw page) slot)) }

/-- Step 4 of `swap_out_page`: where the lock is free and the entries are still what was read, each becomes a swap
entry that keeps its part's flags. Otherwise the slot is to go back. -/
def exchangeEntries (s : State n) (thread : Fin n) (page : Page) (parts : Fin 4 → Raw) (slot : Nat)
    (locked : Bool) : State n :=
  if locked = true ∧ ∀ i, s.raw page i = parts i then
    { s with
      raw := update s.raw page fun i =>
        toPteRawKeeping slot (if isPresent (parts i) then flagsOf (parts i) else 0#64)
      prot := update s.prot page fun i => if isPresent (parts i) then flagsOf (parts i) else s.prot page i
      ops := update s.ops thread none }
  else { s with ops := update s.ops thread (some (.releasing slot Finset.univ)) }

/-- `install_swap_in`; `able` says that the mapping succeeds. -/
def installFrame (s : State n) (thread : Fin n) (page : Page) (slot : Nat) (frame : Frame) (phys : Raw)
    (able : Bool) : State n :=
  let held := s.held page slot
  let restore := fun i => keptFlags (s.raw page i)
  if held = ∅ then
    -- another thread brought the frame back first, or it was unmapped
    { s with ops := update s.ops thread none }
  else if ∀ i ∈ held, PageFlags.contains (restore i) PageFlags.present = false then
    s.take thread page slot held (fun _ => 0#64) (s.bytes page)
  else if able then
    s.take thread page slot held
      (fun i => if PageFlags.contains (restore i) PageFlags.present
        then pteNew (phys + BitVec.ofNat 64 (4096 * i.val)) (restore i) else 0#64)
      (fun i => if PageFlags.contains (restore i) PageFlags.present then frame i else s.bytes page i)
  else
    -- the entries are put back, and the data stays in its slot
    { s with ops := update s.ops thread none }

/-- An unmap of one part, `release_swap_pte` where it is a swap entry. -/
def unmapPart (s : State n) (thread : Fin n) (page : Page) (part : Fin 4) : State n :=
  match fromPteRaw (s.raw page part) with
  | some slot => s.take thread page slot {part} (fun _ => 0#64) (s.bytes page)
  | none =>
    if isPresent (s.raw page part) then
      s.remap page (update (s.raw page) part 0#64) (s.bytes page) (s.last page) (s.prot page)
    else s

/-- A fresh mapping of the parts whose flags say present, where none of them is mapped. -/
def mapFrame (s : State n) (page : Page) (flags : Fin 4 → Raw) (phys : Raw) (frame : Frame) : State n :=
  let maps := fun i => PageFlags.contains (flags i) PageFlags.present
  if ∃ i, maps i = true ∧ isPresent (s.raw page i) = true then s
  else
    s.remap page
      (fun i => if maps i then pteNew (phys + BitVec.ofNat 64 (4096 * i.val)) (flags i) else s.raw page i)
      (fun i => if maps i then frame i else s.bytes page i)
      (fun i => if maps i then frame i else s.last page i)
      (fun i => if maps i then flags i else s.prot page i)

end State

/-- A swap-out of the page is under way. -/
def Op.swapsOut (page : Page) : Op → Bool
  | .storing p _ _ => p == page
  | _ => false

variable {n : Nat}

/-- One section. -/
def step (areas : Areas) (s : State n) : Action n → Option (State n)
  | .store thread page able => if (s.ops thread).isNone then some (s.storeFrame areas thread page able) else none
  | .exchange thread locked =>
    match s.ops thread with
    | some (.storing page parts slot) => some (s.exchangeEntries thread page parts slot locked)
    | _ => none
  | .find thread page part =>
    if (s.ops thread).isNone then
      match fromPteRaw (s.raw page part) with
      | some slot => some { s with ops := update s.ops thread (some (.found page slot)) }
      | none => some s
    else none
  | .fetch thread able =>
    match s.ops thread with
    | some (.found page slot) =>
      match if able then s.swap.readSlot areas slot else none with
      | some frame => some { s with ops := update s.ops thread (some (.prepared page slot frame)) }
      | none => some { s with ops := update s.ops thread none }
    | _ => none
  | .install thread phys able =>
    match s.ops thread with
    | some (.prepared page slot frame) => some (s.installFrame thread page slot frame phys able)
    | _ => none
  | .release thread =>
    match s.ops thread with
    | some (.releasing slot parts) =>
      some { s with
        swap := s.swap.releaseParts areas slot parts.card
        ops := update s.ops thread none }
    | _ => none
  | .unmap thread page part => if (s.ops thread).isNone then some (s.unmapPart thread page part) else none
  | .map page flags phys frame =>
    if isSwapped (s.raw page) then none else some (s.mapFrame page flags phys frame)
  | .write page part contents =>
    -- nobody stores to a frame during its own swap-out
    if isPresent (s.raw page part) = true ∧ ∀ thread, (s.ops thread).any (Op.swapsOut page) = false then
      some (s.remap page
        (update (s.raw page) part (s.raw page part ||| (PageFlags.accessed ||| PageFlags.dirty)))
        (update (s.bytes page) part contents) (update (s.last page) part contents) (s.prot page))
    else none
  | .read page part =>
    if isPresent (s.raw page part) = true then
      some (s.remap page (update (s.raw page) part (s.raw page part ||| PageFlags.accessed))
        (s.bytes page) (s.last page) (s.prot page))
    else none

/-- Nothing is mapped, nothing swapped out, and only the reserved slots are taken. -/
structure Start (areas : Areas) (s : State n) : Prop where
  empty : ∀ page i, s.raw page i = 0#64
  used : ∀ slot, s.swap.used slot = areas.reserved slot
  refs : ∀ slot, s.swap.partRefs slot = 0
  idle : ∀ thread, s.ops thread = none

end SlateOS.Mm.Swap
