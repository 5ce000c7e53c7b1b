/-
# SlateOS.Mm.Cow -- copy-on-write breaks, forced private writes and forks

`kernel/src/mm/cow.rs`. A 16 KiB frame is mapped by a group of four 4 KiB entries, part `i` of the group
on part `i` of the frame (`map_frame` refuses any other alignment), and reference-counted as one. A break
has two halves: `prepareCow` reads the entries and copies with no lock, `installCow` changes the entries
under the address space's page-table lock. Each half, the locked section of `write_private`, a fork of one
group and a store are one step; threads interleave between them. `view` is what the program of an address
space has in a page: the bytes at the fork that created it, overwritten by its own stores in order.
-/
import Mathlib.Algebra.GroupWithZero.Nat
import Mathlib.Data.Finset.Card
import SlateOS.Kernel.Error

namespace SlateOS.Mm.Cow

open Kernel
open Function (update)

/-- One of the `HW_PAGES_PER_FRAME` parts of a frame, and of a group of entries. -/
abbrev Part := Fin 4

scoped instance part_neZero : NeZero 4 := ⟨Nat.succ_ne_zero 3⟩

/-- `HW_PAGE_SIZE`. -/
def hwPageSize : Nat := 4096

/-- An address space (its PML4) and the number of a 16 KiB group in it. -/
abbrev Group := Nat × Nat

/-- The bytes of a 4 KiB page, by offset. -/
abbrev Page := Nat → UInt8

/-- The page with `bytes` from `offset` on. -/
def writeBytes (page : Page) (offset : Nat) (bytes : List UInt8) : Page := fun k =>
  if offset ≤ k then (bytes[k - offset]?).getD (page k) else page k

/-- A present entry: the frame its part lies in, and the flags the code reads. -/
structure PageTableEntry where
  frame : Nat
  writable : Bool
  cow : Bool
  isShared : Bool
  cached : Bool
  foreign : Bool
  mlocked : Bool
  deriving DecidableEq

/-- `Break`. -/
inductive Break
  /-- A write fault's break: the COW entries, made writable. -/
  | write
  /-- `write_private`'s: every entry not shared by design, its protection kept. -/
  | keep
  deriving DecidableEq

namespace Break

/-- Whether the break moves the entry off a shared frame. -/
def moves : Break → PageTableEntry → Bool
  | .write, pte => pte.cow
  | .keep, pte => !pte.isShared

/-- The flags a moved entry gets. -/
def flags : Break → PageTableEntry → PageTableEntry
  | .write, pte => { pte with writable := true, cow := false }
  | .keep, pte => pte

end Break

/-- `CowPrep`, with the address space and the mode its install is called with. -/
structure CowPrep where
  group : Group
  mode : Break
  frame : Nat
  copy : Option Nat
  copied : Part → Bool

/-- The arguments of `write_private`. -/
structure ForcedWrite where
  group : Group
  part : Part
  offset : Nat
  bytes : List UInt8

/-- Where a thread is. -/
inductive CowPlace
  /-- Not in this module; the last call returned `ret`. -/
  | user (ret : KernelResult Unit)
  /-- `resolve_cow_fault`, prepared. -/
  | install (prep : CowPrep)
  /-- `write_private`, with the attempts left: the locked section. -/
  | force (w : ForcedWrite) (attempts : Nat)
  /-- The frame was shared: the break's slow half. -/
  | forcePrepare (w : ForcedWrite) (attempts : Nat)
  | forceInstall (w : ForcedWrite) (attempts : Nat) (prep : CowPrep)

/-- The break a thread has prepared and not installed. -/
def CowPlace.prep : CowPlace → Option CowPrep
  | .install prep | .forceInstall _ _ prep => some prep
  | _ => none

/-- The copy it has made. -/
def CowPlace.copy (p : CowPlace) : Option Nat := p.prep.bind CowPrep.copy

/-- The frames, the page tables and the threads. `external` counts references held outside page tables;
`mapped` are the groups that have a page table. -/
structure CowState where
  refcount : Nat → Nat
  free : Nat → Bool
  external : Nat → Nat
  mapped : Finset Group
  entry : Group → Part → Option PageTableEntry
  mem : Nat → Part → Page
  view : Group → Part → Page
  place : Nat → CowPlace

/-- `u16::MAX`, where a reference count stays. -/
def refcountMax : Nat := 65535

namespace CowState

/-- Thread `t` goes on at `p`. -/
def goto (m : CowState) (t : Nat) (p : CowPlace) : CowState :=
  { m with place := update m.place t p }

/-- `write_pte`. -/
def writePte (m : CowState) (g : Group) (i : Part) (pte : PageTableEntry) : CowState :=
  { m with entry := update m.entry g (update (m.entry g) i (some pte)) }

def setRefcount (m : CowState) (f n : Nat) : CowState :=
  { m with refcount := update m.refcount f n }

/-- `frame::ref_inc`: the count saturates. -/
def refInc (m : CowState) (f : Nat) : KernelResult CowState :=
  if m.refcount f = 0 then .error .invalidArgument
  else .ok (m.setRefcount f (min (m.refcount f + 1) refcountMax))

/-- `frame::ref_dec`: the frame is not freed. -/
def refDec (m : CowState) (f : Nat) : CowState :=
  if m.refcount f = 0 then m else m.setRefcount f (m.refcount f - 1)

/-- `frame::free_frame`. -/
def freeFrame (m : CowState) (f : Nat) : CowState :=
  if m.refcount f = 1 then { m.setRefcount f 0 with free := update m.free f true }
  else m.refDec f

/-- Part `i` is an entry the break moves, on the frame it was prepared for. -/
def stillCow (m : CowState) (g : Group) (mode : Break) (frame : Nat) (i : Part) :
    Option PageTableEntry :=
  (m.entry g i).filter fun pte => mode.moves pte && decide (pte.frame = frame)

/-- Any entry of the group is on the frame. -/
def refers (m : CowState) (g : Group) (f : Nat) : Prop :=
  ∃ i, ∃ pte, m.entry g i = some pte ∧ pte.frame = f

instance (m : CowState) (g : Group) (f : Nat) : Decidable (m.refers g f) :=
  decidable_of_iff (∃ i, (m.entry g i).any (fun pte => decide (pte.frame = f)) = true) <| by
    simp [refers, Option.any_eq_true]

/-- `prepare_cow`, `alloc` being the allocator's answer. -/
def prepareCow (m : CowState) (g : Group) (i : Part) (mode : Break) (alloc : Option Nat) :
    KernelResult (CowPrep × CowState) :=
  if g ∉ m.mapped then .error .invalidAddress
  else match (m.entry g i).filter mode.moves with
  | none => .error .pageFault
  | some pte =>
    if m.refcount pte.frame ≤ 1 then
      .ok (⟨g, mode, pte.frame, none, fun _ => false⟩, m)
    else match alloc with
    | none => .error .outOfMemory
    | some newFrame =>
      let copied := fun j => (m.stillCow g mode pte.frame j).isSome
      .ok (⟨g, mode, pte.frame, some newFrame, copied⟩,
        { m.setRefcount newFrame 1 with
          free := update m.free newFrame false
          mem := update m.mem newFrame fun j =>
            if copied j then m.mem pte.frame j else m.mem newFrame j })

/-- The entries with the break's own ones replaced. -/
def replaced (m : CowState) (prep : CowPrep) (new : Part → PageTableEntry → Option PageTableEntry) :
    Group → Part → Option PageTableEntry :=
  update m.entry prep.group fun i =>
    match m.stillCow prep.group prep.mode prep.frame i with
    | some pte => (new i pte).or (m.entry prep.group i)
    | none => m.entry prep.group i

/-- Every part still COW on the frame is made writable, in place. -/
def installInPlace (m : CowState) (prep : CowPrep) : CowState :=
  if 1 < m.refcount prep.frame then m
  else if prep.mode = .keep then m
  else { m with entry := m.replaced prep fun _ pte => some (Break.write.flags pte) }

/-- Part `i` is installed over. -/
def installs (m : CowState) (prep : CowPrep) (i : Part) : Bool :=
  prep.copied i && (m.stillCow prep.group prep.mode prep.frame i).isSome

/-- The copy is installed over each part that is still the entry it was copied from. -/
def installCopy (m : CowState) (prep : CowPrep) (newFrame : Nat) : CowState :=
  if ∀ i, m.installs prep i = false then m.freeFrame newFrame
  else
    let m' := { m with
      entry := m.replaced prep fun i pte =>
        if prep.copied i then some { prep.mode.flags pte with frame := newFrame } else none }
    if m'.refers prep.group prep.frame then m' else m'.refDec prep.frame

/-- `install_cow`. -/
def installCow (m : CowState) (prep : CowPrep) : CowState :=
  match prep.copy with
  | none => m.installInPlace prep
  | some newFrame => m.installCopy prep newFrame

/-- A store into a page, and into what its program has there. -/
def storeAt (m : CowState) (g : Group) (i : Part) (frame offset : Nat) (bytes : List UInt8) :
    CowState :=
  { m with
    mem := update m.mem frame
      (update (m.mem frame) i (writeBytes (m.mem frame i) offset bytes))
    view := update m.view g
      (update (m.view g) i (writeBytes (m.view g i) offset bytes)) }

/-- The locked section of `write_private`. -/
def forceSection (m : CowState) (t : Nat) (w : ForcedWrite) : Nat → CowState
  | 0 => m.goto t (.user (.error .resourceExhausted))
  | attempts + 1 =>
    match m.entry w.group w.part with
    | none => m.goto t (.user (.error .invalidAddress))
    | some pte =>
      if pte.isShared then m.goto t (.user (.error .permissionDenied))
      else if m.refcount pte.frame = 1 then
        (m.storeAt w.group w.part pte.frame w.offset w.bytes).goto t (.user (.ok ()))
      else m.goto t (.forcePrepare w attempts)

end CowState

/-! ## Forks -/

namespace PageTableEntry

/-- A private writable page becomes copy-on-write. -/
def downgraded (pte : PageTableEntry) : PageTableEntry :=
  if pte.isShared then pte
  else if pte.writable then { pte with writable := false, cow := true }
  else pte

/-- The child's entry: not locked, and a cached shared page read-only. -/
def forChild (pte : PageTableEntry) : PageTableEntry :=
  let entry := if pte.isShared && pte.cached then { pte with writable := false } else pte.downgraded
  { entry with mlocked := false }

end PageTableEntry

/-- The loop of `clone_frame_group`: the frames counted so far, and the error that ended it. -/
structure CloneAcc where
  m : CowState
  seen : List Nat
  err : Option KernelError

/-- One reference for each distinct frame. -/
def countFrame (m : CowState) (seen : List Nat) (f : Nat) : KernelResult (CowState × List Nat) :=
  if f ∈ seen then .ok (m, seen)
  else match m.refInc f with
  | .error e => .error e
  | .ok m' => .ok (m', seen ++ [f])

/-- A part of the parent's group that the child gets. -/
def given (m : CowState) (parent : Group) (skip : Part → Bool) (i : Part) : Option PageTableEntry :=
  if skip i then none else (m.entry parent i).filter fun pte => !pte.foreign

/-- One turn of the loop; `failAt` is the part whose page-table page is not to be had. -/
def clonePart (parent child : Group) (skip : Part → Bool) (failAt : Option Part) (acc : CloneAcc)
    (i : Part) : CloneAcc :=
  if acc.err.isSome then acc
  else match given acc.m parent skip i with
  | none => acc
  | some pte =>
    match countFrame acc.m acc.seen pte.frame with
    | .error e => { acc with err := some e }
    | .ok (m, seen) =>
      let m := m.writePte parent i pte.downgraded
      if failAt = some i then ⟨m, seen, some .outOfMemory⟩
      else
        let m := m.writePte child i pte.forChild
        ⟨{ m with
            mapped := insert child m.mapped
            view := update m.view child
              (update (m.view child) i (m.view parent i)) }, seen, none⟩

/-- `clone_frame_group`. -/
def cloneFrameGroup (m : CowState) (parent child : Group) (skip : Part → Bool)
    (failAt : Option Part) : CowState × KernelResult Bool :=
  let acc := [0, 1, 2, 3].foldl (clonePart parent child skip failAt) ⟨m, [], none⟩
  match acc.err with
  | some e => (acc.m, .error e)
  | none => (acc.m, .ok !acc.seen.isEmpty)

/-! ## Steps -/

/-- One step of the system. -/
inductive CowAction
  /-- A store by a thread of the group's address space, which the entry allows. -/
  | store (g : Group) (i : Part) (offset : Nat) (bytes : List UInt8)
  /-- A write fault of thread `t`: `resolve_cow_fault` up to its install. -/
  | fault (t : Nat) (g : Group) (i : Part) (alloc : Option Nat)
  /-- Thread `t` calls `write_private`. -/
  | poke (t : Nat) (w : ForcedWrite)
  /-- The next step of the call thread `t` is in. -/
  | advance (t : Nat) (alloc : Option Nat)
  /-- One group of a fork, under the parent's page-table lock. -/
  | clone (parent : Group) (child : Nat) (skip : Part → Bool) (failAt : Option Part)

namespace CowState

/-- The allocator hands out free frames. -/
def canAlloc (m : CowState) (alloc : Option Nat) : Bool := alloc.all m.free

/-- The slow half, and where the thread goes with it. -/
def prepareThen (m : CowState) (t : Nat) (g : Group) (i : Part) (mode : Break) (alloc : Option Nat)
    (next : CowPrep → CowPlace) : CowState :=
  match m.prepareCow g i mode alloc with
  | .error e => m.goto t (.user (.error e))
  | .ok (prep, m') => m'.goto t (next prep)

/-- The next step of the call thread `t` is in. -/
def advance (m : CowState) (t : Nat) (alloc : Option Nat) : Option CowState :=
  match m.place t with
  | .user _ => none
  | .install prep => some ((m.installCow prep).goto t (.user (.ok ())))
  | .force w attempts => some (m.forceSection t w attempts)
  | .forcePrepare w attempts =>
    some (m.prepareThen t w.group w.part .keep alloc (.forceInstall w attempts))
  | .forceInstall w attempts prep => some ((m.installCow prep).goto t (.force w attempts))

/-- A call starts outside this module. -/
def fromUser (m : CowState) (t : Nat) (m' : CowState) : Option CowState :=
  match m.place t with
  | .user _ => some m'
  | _ => none

/-- `write_private` up to its loop of 8 attempts. -/
def poke (m : CowState) (t : Nat) (w : ForcedWrite) : CowState :=
  if hwPageSize < w.offset + w.bytes.length then m.goto t (.user (.error .invalidArgument))
  else m.goto t (.force w 8)

/-- A store goes through if the entry is writable; else it faults and changes nothing. -/
def store (m : CowState) (g : Group) (i : Part) (offset : Nat) (bytes : List UInt8) :
    Option CowState :=
  match m.entry g i with
  | none => none
  | some pte =>
    if pte.writable ∧ offset + bytes.length ≤ hwPageSize then
      some (m.storeAt g i pte.frame offset bytes)
    else none

/-- One step of the system. -/
def step (m : CowState) : CowAction → Option CowState
  | .store g i offset bytes => m.store g i offset bytes
  | .fault t g i alloc =>
    if m.canAlloc alloc then m.fromUser t (m.prepareThen t g i .write alloc .install) else none
  | .poke t w => m.fromUser t (m.poke t w)
  | .advance t alloc => if m.canAlloc alloc then m.advance t alloc else none
  | .clone parent child skip failAt =>
    -- the child is a fresh address space: nothing of it is mapped at this group yet
    if child ≠ parent.1 ∧ ∀ i, m.entry (child, parent.2) i = none then
      some (cloneFrameGroup m parent (child, parent.2) skip failAt).1
    else none

end CowState

end SlateOS.Mm.Cow
