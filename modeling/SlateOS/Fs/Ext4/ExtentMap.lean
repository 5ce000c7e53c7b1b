/-
# SlateOS.Fs.Ext4.ExtentMap -- a file's extents as a sorted list

`kernel/src/fs/ext4/extent_map.rs`: the extents, the check of a map, its scans, and the edits that cut it
at a new end and that map a range. `partition_point` comes to the first extent that ends after a block.
Block numbers and lengths are the `u64` values the source has, as natural numbers; additions saturate
where the source's do.
-/
import SlateOS.Foundation.MachineInt
import SlateOS.Kernel.Error
import Mathlib.Data.List.Sort

namespace SlateOS.Fs.Ext4

open Foundation.MachineInt Kernel

/-- `INIT_MAX_LEN`. -/
def initMaxLen : Nat := 32768

/-- `UNWRITTEN_MAX_LEN`. -/
def unwrittenMaxLen : Nat := 32767

/-- `saturating_add` on `u64`. -/
abbrev satAdd (a b : Nat) : Nat := saturatingAdd 64 a b

/-- `Extent`. -/
structure Extent where
  logical : Nat
  len : Nat
  phys : Nat
  unwritten : Bool
  deriving DecidableEq, Repr

namespace Extent

/-- `end`. -/
def theEnd (e : Extent) : Nat := satAdd e.logical e.len

/-- `max_len`. -/
def maxLen (e : Extent) : Nat := if e.unwritten then unwrittenMaxLen else initMaxLen

theorem maxLen_pos (e : Extent) : 0 < e.maxLen := by
  unfold maxLen
  split <;> decide

end Extent

/-- `Span`: what a run of logical blocks holds. -/
inductive Span
  | hole (logical len : Nat)
  | written (logical len phys : Nat)
  | unwritten (logical len phys : Nat)
  deriving DecidableEq, Repr

/-- An extent map. -/
abbrev ExtentMap := List Extent

namespace ExtentMap

/-- The loop of `validate`. -/
def validateLoop : Nat → Nat → ExtentMap → KernelResult Unit
  | _, _, [] => .ok ()
  | i, prevEnd, e :: rest =>
    if e.len = 0 ∨ e.phys = 0 ∨ checkedAdd 64 e.logical e.len = none then .error .ioError
    else if i > 0 ∧ e.logical < prevEnd then .error .ioError
    else validateLoop (i + 1) e.theEnd rest

/-- `validate`. -/
def validate (map : ExtentMap) : KernelResult Unit := validateLoop 0 0 map

/-- What `classify` finds at one block: the physical block and whether it is unwritten, or a hole.
`partition_point` and `get` come to the first extent that ends after the block. -/
def lookup (map : ExtentMap) (b : Nat) : Option (Nat × Bool) :=
  match (map.dropWhile fun e => e.theEnd ≤ b).head? with
  | some e => if e.logical ≤ b then some (satAdd e.phys (b - e.logical), e.unwritten) else none
  | none => none

/-- The loop of `classify`, with the extents from index `i` on. -/
def classifyLoop (theEnd : Nat) (rest : ExtentMap) (cur : Nat) : List Span :=
  if _hcur : cur < theEnd then
    match rest with
    | e :: later =>
      if _hstart : e.logical ≤ cur then
        let stop := min e.theEnd theEnd
        let len := stop - cur
        let phys := satAdd e.phys (cur - e.logical)
        (if e.unwritten then Span.unwritten cur len phys else Span.written cur len phys) ::
          classifyLoop theEnd later stop
      else
        let stop := min e.logical theEnd
        Span.hole cur (stop - cur) :: classifyLoop theEnd (e :: later) stop
    | [] => Span.hole cur (theEnd - cur) :: classifyLoop theEnd [] theEnd
  else []
termination_by (rest.length, theEnd - cur)
decreasing_by
  · exact Prod.Lex.left _ _ (Nat.lt_succ_self _)
  · exact Prod.Lex.right _ (by omega)
  · exact Prod.Lex.right _ (by omega)

/-- `classify`. -/
def classify (map : ExtentMap) (first count : Nat) : List Span :=
  classifyLoop (satAdd first count) (map.dropWhile fun e => e.theEnd ≤ first) first

/-- What `truncate` keeps of one extent, and the physical ranges it frees of it. -/
def truncateExtent (newBlocks : Nat) (e : Extent) : Option Extent × List (Nat × Nat) :=
  if e.logical ≥ newBlocks then (none, [(e.phys, e.len)])
  else if e.theEnd > newBlocks then
    let keep := newBlocks - e.logical
    (some { e with len := keep }, [(satAdd e.phys keep, e.len - keep)])
  else (some e, [])

/-- `truncate`: the map that is left and what the caller may free. -/
def truncate (map : ExtentMap) (newBlocks : Nat) : ExtentMap × List (Nat × Nat) :=
  (map.filterMap fun e => (truncateExtent newBlocks e).1,
    map.flatMap fun e => (truncateExtent newBlocks e).2)

/-- `in_data`: the written extent that holds a block. -/
def inData (map : ExtentMap) (b : Nat) : Option Extent :=
  (map.dropWhile fun e => e.theEnd ≤ b).head?.filter fun e => e.logical ≤ b ∧ e.unwritten = false

/-- The next written extent at or after a block. -/
def nextWritten (map : ExtentMap) (b : Nat) : Option Extent :=
  (map.dropWhile fun e => e.theEnd ≤ b).find? fun e => !e.unwritten

/-- The loop of `seek_data_hole`, for as many rounds as there is fuel. Without fuel there is no answer;
the answer of the source is `some`. -/
def seekLoop (map : ExtentMap) (blockSize size offset : Nat) (wantData : Bool) (last : Nat) :
    Nat → Nat → Option (Option Nat)
  | 0, _ => none
  | fuel + 1, block =>
    if block > last then some (if wantData then none else some size)
    else
      match inData map block with
      | some e =>
        if wantData then some (some (max (saturatingMul 64 block blockSize) offset))
        else seekLoop map blockSize size offset wantData last fuel e.theEnd
      | none =>
        if wantData then
          match nextWritten map block with
          | some e => seekLoop map blockSize size offset wantData last fuel (max e.logical block)
          | none => some none
        else some (some (min (max (saturatingMul 64 block blockSize) offset) size))

/-- `seek_data_hole`, for as many rounds as there is fuel. -/
def seekDataHole (map : ExtentMap) (blockSize size offset : Nat) (wantData : Bool) (fuel : Nat) :
    Option (Option Nat) :=
  if offset ≥ size ∨ blockSize = 0 then some none
  else seekLoop map blockSize size offset wantData ((size - 1) / blockSize) fuel (offset / blockSize)

/-- What `set` keeps of one extent. -/
def cut (new e : Extent) : List Extent :=
  if e.theEnd ≤ new.logical ∨ e.logical ≥ new.theEnd then [e]
  else
    (if e.logical < new.logical then [{ e with len := new.logical - e.logical }] else []) ++
    (if e.theEnd > new.theEnd then
      [{ e with
        logical := new.theEnd
        len := e.theEnd - new.theEnd
        phys := satAdd e.phys (new.theEnd - e.logical) }]
    else [])

/-- Whether `e` continues `prev`: logically and physically adjacent, of the same kind. -/
def continues (prev e : Extent) : Bool :=
  prev.theEnd = e.logical ∧ satAdd prev.phys prev.len = e.phys ∧ prev.unwritten = e.unwritten

/-- The merging loop of `normalize`, at one extent. -/
def mergeStep (merged : ExtentMap) (e : Extent) : ExtentMap :=
  match merged.getLast? with
  | some prev =>
    if continues prev e then merged.dropLast ++ [{ prev with len := satAdd prev.len e.len }]
    else merged ++ [e]
  | none => merged ++ [e]

/-- The splitting loop of `normalize` on one extent, `done` blocks of it written out. -/
def splitFrom (e : Extent) (done : Nat) : ExtentMap :=
  if _h : done < e.len then
    { e with
      logical := satAdd e.logical done
      len := min (e.len - done) e.maxLen
      phys := satAdd e.phys done } :: splitFrom e (done + min (e.len - done) e.maxLen)
  else []
termination_by e.len - done
decreasing_by
  have := e.maxLen_pos
  omega

/-- `normalize`. -/
def normalize (map : ExtentMap) : ExtentMap :=
  (map.foldl mergeStep []).flatMap fun e => splitFrom e 0

/-- `set`. The sort is by logical block; it is unstable, and the keys are distinct. -/
def set (map : ExtentMap) (new : Extent) : ExtentMap :=
  normalize ((map.flatMap (cut new) ++ [new]).insertionSort fun a b => a.logical ≤ b.logical)

end ExtentMap

end SlateOS.Fs.Ext4
