/-
# SlateOS.Mm.Vma -- virtual memory areas: the list of an address space, and the search for a gap

`kernel/src/mm/vma.rs`. An address space keeps its areas sorted by start, disjoint, and on 4 KiB boundaries;
`find_vma` and `find_gap` are both correct only for such a list. Addresses are `u64` in the source and natural
numbers here: no function of this module adds to one, and the one subtraction is a `checked_sub`.
-/
import Mathlib.Data.List.Pairwise
import Mathlib.Order.Bounds.Basic
import SlateOS.Foundation.BinarySearch
import SlateOS.Kernel.Error

namespace SlateOS.Mm

open Kernel Foundation.BinarySearch

/-! ## Areas -/

/-- `FileId`. -/
structure FileId where
  fsId : Nat
  ino : Nat
  deriving DecidableEq, Repr

/-- `VmaKind`. -/
inductive VmaKind
  | anonymous
  | stack
  | guard
  | fixed
  | brk
  | fileBacked (handle fileOffset : Nat) (fileId : Option FileId) (shared mayWrite : Bool)
  deriving DecidableEq, Repr

/-- `ForkPolicy`. -/
structure ForkPolicy where
  wipe : Bool := false
  dontCopy : Bool := false
  deriving DecidableEq, Repr

/-- `Vma`: the addresses from `start` up to `endAddr`, which is not one of them. -/
structure Vma where
  start : Nat
  endAddr : Nat
  kind : VmaKind := .anonymous
  flags : BitVec 64 := 0#64
  fork : ForkPolicy := {}
  deriving DecidableEq, Repr

def hwPageSize : Nat := 4096

/-- `is_hw_page_aligned`. -/
def isHwPageAligned (addr : Nat) : Bool := addr &&& (hwPageSize - 1) == 0

theorem isHwPageAligned_iff {addr : Nat} : isHwPageAligned addr = true ↔ addr % hwPageSize = 0 := by
  rw [isHwPageAligned, beq_iff_eq]
  have hpow : hwPageSize = 2 ^ 12 := rfl
  rw [hpow, Nat.and_two_pow_sub_one_eq_mod]

namespace Vma

/-- `Vma::contains`. -/
def contains (v : Vma) (addr : Nat) : Bool := decide (v.start ≤ addr) && decide (addr < v.endAddr)

variable {v w : Vma} {addr : Nat}

theorem contains_iff : v.contains addr = true ↔ v.start ≤ addr ∧ addr < v.endAddr := by
  rw [contains, Bool.and_eq_true, decide_eq_true_iff, decide_eq_true_iff]

/-- The range of one area ends before that of the other begins. -/
def Apart (v w : Vma) : Prop := v.endAddr ≤ w.start ∨ w.endAddr ≤ v.start

theorem Apart.symm (h : v.Apart w) : w.Apart v := Or.symm h

instance : Std.Symm Apart := ⟨fun _ _ => Apart.symm⟩

/-- What the type promises of every area. -/
structure Regular (v : Vma) : Prop where
  start_aligned : v.start % hwPageSize = 0
  end_aligned : v.endAddr % hwPageSize = 0
  nonempty : v.start < v.endAddr

theorem not_apart_of_contains (hv : v.contains addr = true) (hw : w.contains addr = true) : ¬ v.Apart w := by
  rw [contains_iff] at hv hw
  rintro (h | h) <;> omega

end Vma

/-- What the source promises of a list of areas: sorted by start, disjoint, and each one regular. -/
structure Listed (vmas : List Vma) : Prop where
  sorted : vmas.Pairwise (·.start < ·.start)
  disjoint : vmas.Pairwise Vma.Apart
  regular : ∀ v ∈ vmas, v.Regular

namespace Listed

variable {vmas : List Vma} {v w : Vma} {addr : Nat}

theorem nil : Listed [] := ⟨.nil, .nil, by simp⟩

theorem sublist {vs : List Vma} (h : Listed vmas) (hsub : vs.Sublist vmas) : Listed vs :=
  ⟨h.sorted.sublist hsub, h.disjoint.sublist hsub, fun v hv => h.regular v (hsub.subset hv)⟩

theorem tail {vs : List Vma} (h : Listed (v :: vs)) : Listed vs := h.sublist (List.sublist_cons_self v vs)

theorem sorted_le (h : Listed vmas) : vmas.Pairwise (·.start ≤ ·.start) := h.sorted.imp Nat.le_of_lt

theorem apart (h : Listed vmas) (hv : v ∈ vmas) (hw : w ∈ vmas) (hne : v ≠ w) : v.Apart w :=
  h.disjoint.forall hv hw hne

/-- An address is in one area of the list at most. -/
theorem unique (h : Listed vmas) (hv : v ∈ vmas) (hw : w ∈ vmas) (hcv : v.contains addr = true)
    (hcw : w.contains addr = true) : v = w := by
  by_contra hne
  exact Vma.not_apart_of_contains hcv hcw (h.apart hv hw hne)

end Listed

/-! ## The list of an address space -/

/-- `AddressSpace`. -/
structure AddressSpace where
  pml4Phys : Nat
  vmas : List Vma
  deriving Repr

namespace AddressSpace

variable {s : AddressSpace} {v w vma : Vma} {addr start : Nat}

/-- `AddressSpace::new`. -/
def new (pml4Phys : Nat) : AddressSpace := ⟨pml4Phys, []⟩

/-- Whether `add_vma` finds an area in the way. -/
def overlaps (s : AddressSpace) (vma : Vma) : Bool :=
  s.vmas.any fun existing => decide (vma.start < existing.endAddr) && decide (existing.start < vma.endAddr)

/-- The place of an area that starts at `start`, or where it would go: `unwrap_or_else(|p| p)`. -/
def position (s : AddressSpace) (start : Nat) : Nat :=
  match binarySearchByKey Vma.start s.vmas start with
  | .ok i => i
  | .error i => i

/-- `add_vma`. -/
def addVma (s : AddressSpace) (vma : Vma) : KernelResult Unit × AddressSpace :=
  if !isHwPageAligned vma.start || !isHwPageAligned vma.endAddr then (.error .badAlignment, s)
  else if vma.endAddr ≤ vma.start then (.error .invalidArgument, s)
  else if s.overlaps vma then (.error .alreadyExists, s)
  else (.ok (), { s with vmas := s.vmas.insertIdx (s.position vma.start) vma })

/-- `remove_vma`. -/
def removeVma (s : AddressSpace) (start : Nat) : Option Vma × AddressSpace :=
  match binarySearchByKey Vma.start s.vmas start with
  | .ok idx => (s.vmas[idx]?, { s with vmas := s.vmas.eraseIdx idx })
  | .error _ => (none, s)

/-- The area at a place of the list, if the address is in it. -/
def vmaAt (s : AddressSpace) (addr idx : Nat) : Option Vma :=
  match s.vmas[idx]? with
  | none => none
  | some vma => if vma.contains addr then some vma else none

/-- `find_vma`. -/
def findVma (s : AddressSpace) (addr : Nat) : Option Vma :=
  match binarySearchByKey Vma.start s.vmas addr with
  | .ok i => s.vmaAt addr i
  | .error 0 => none
  | .error (i + 1) => s.vmaAt addr i

/-- Either `add_vma` refuses and changes nothing, or the area is regular, in nobody's way, and inserted. -/
theorem addVma_cases (s : AddressSpace) (vma : Vma) :
    (∃ k, s.addVma vma = (.error k, s)) ∨
      vma.Regular ∧ (∀ w ∈ s.vmas, vma.Apart w) ∧
        s.addVma vma = (.ok (), { s with vmas := s.vmas.insertIdx (s.position vma.start) vma }) := by
  rw [addVma]
  split
  · exact .inl ⟨_, rfl⟩
  next haligned =>
  split
  · exact .inl ⟨_, rfl⟩
  next hnonempty =>
  split
  · exact .inl ⟨_, rfl⟩
  next hfree =>
  refine .inr ⟨?_, fun w hw => ?_, rfl⟩
  · simp only [Bool.or_eq_true, Bool.not_eq_true', not_or, Bool.not_eq_false, isHwPageAligned_iff] at haligned
    exact ⟨haligned.1, haligned.2, by omega⟩
  · rw [overlaps, List.any_eq_true] at hfree
    by_contra hover
    rw [Vma.Apart] at hover
    exact hfree ⟨w, hw, by rw [Bool.and_eq_true, decide_eq_true_iff, decide_eq_true_iff]; omega⟩

/-- No area that is out of the way starts where a regular one does, so the search misses. -/
theorem position_spec (hs : Listed s.vmas) (hvma : vma.Regular) (hfree : ∀ w ∈ s.vmas, vma.Apart w) :
    s.position vma.start ≤ s.vmas.length ∧
      (∀ w ∈ s.vmas.take (s.position vma.start), w.start < vma.start) ∧
      ∀ w ∈ s.vmas.drop (s.position vma.start), vma.start < w.start := by
  rw [position]
  cases hsearch : binarySearchByKey Vma.start s.vmas vma.start with
  | error i => exact binarySearchByKey_error hs.sorted_le hsearch
  | ok i =>
    obtain ⟨w, hw, hstart⟩ := binarySearchByKey_ok hsearch
    have hmem := List.mem_of_getElem? hw
    have hin : w.contains vma.start = true :=
      Vma.contains_iff.2 ⟨hstart.le, hstart ▸ (hs.regular w hmem).nonempty⟩
    have hself : vma.contains vma.start = true := Vma.contains_iff.2 ⟨le_rfl, hvma.nonempty⟩
    exact absurd (hfree w hmem) (Vma.not_apart_of_contains hself hin)

theorem listed_insert (hs : Listed s.vmas) (hvma : vma.Regular) (hfree : ∀ w ∈ s.vmas, vma.Apart w) :
    Listed (s.vmas.insertIdx (s.position vma.start) vma) := by
  obtain ⟨hle, hbefore, hafter⟩ := position_spec hs hvma hfree
  generalize s.position vma.start = pos at hle hbefore hafter
  have hsplit : s.vmas.insertIdx pos vma = s.vmas.take pos ++ vma :: s.vmas.drop pos :=
    insertIdx_eq vma hle
  have htake : (s.vmas.take pos).Sublist s.vmas := List.take_sublist pos _
  have hdrop : (s.vmas.drop pos).Sublist s.vmas := List.drop_sublist pos _
  rw [hsplit]
  refine ⟨?_, ?_, fun v hv => ?_⟩
  · refine List.pairwise_append.2 ⟨hs.sorted.sublist htake, List.pairwise_cons.2 ⟨hafter, hs.sorted.sublist hdrop⟩, ?_⟩
    intro a ha b hb
    obtain rfl | hb := List.mem_cons.1 hb
    · exact hbefore a ha
    · exact (hbefore a ha).trans (hafter b hb)
  · refine List.pairwise_append.2 ⟨hs.disjoint.sublist htake, List.pairwise_cons.2 ⟨?_, hs.disjoint.sublist hdrop⟩, ?_⟩
    · exact fun w hw => hfree w (hdrop.subset hw)
    intro a ha b hb
    obtain rfl | hb := List.mem_cons.1 hb
    · exact (hfree a (htake.subset ha)).symm
    · exact hs.disjoint.rel_of_mem_take_of_mem_drop ha hb
  · rw [List.mem_append, List.mem_cons] at hv
    obtain hv | rfl | hv := hv
    · exact hs.regular v (htake.subset hv)
    · exact hvma
    · exact hs.regular v (hdrop.subset hv)

theorem listed_addVma (hs : Listed s.vmas) (vma : Vma) : Listed (s.addVma vma).2.vmas := by
  obtain ⟨k, heq⟩ | ⟨hvma, hfree, heq⟩ := s.addVma_cases vma <;> rw [heq]
  · exact hs
  · exact listed_insert hs hvma hfree

theorem listed_removeVma (hs : Listed s.vmas) (start : Nat) : Listed (s.removeVma start).2.vmas := by
  rw [removeVma]
  split
  · exact hs.sublist (List.eraseIdx_sublist _ _)
  · exact hs

theorem vmaAt_eq_some {idx : Nat} (h : s.vmaAt addr idx = some v) : v ∈ s.vmas ∧ v.contains addr = true := by
  rw [vmaAt] at h
  split at h
  · cases h
  · next w hw =>
      split at h
      · next hin =>
          cases h
          exact ⟨List.mem_of_getElem? hw, hin⟩
      · cases h

theorem vmaAt_of_contains {idx : Nat} (h : s.vmas[idx]? = some v) (hin : v.contains addr = true) :
    s.vmaAt addr idx = some v := by
  rw [vmaAt, h]
  exact if_pos hin

/-- The last area that starts at or before an address in some area is that area. -/
theorem eq_of_last (hs : Listed s.vmas) {i : Nat} (hw : s.vmas[i]? = some w) (hle : w.start ≤ addr)
    (hv : v ∈ s.vmas.take (i + 1)) (hin : v.contains addr = true) : w = v := by
  have hmem := List.mem_of_mem_take hv
  have hbelow : v.start ≤ w.start := key_le_of_mem_take hs.sorted_le hw hv
  have hend := (Vma.contains_iff.1 hin).2
  by_contra hne
  have hnonempty := (hs.regular w (List.mem_of_getElem? hw)).nonempty
  obtain h | h := hs.apart (List.mem_of_getElem? hw) hmem hne <;> omega

/-- **`find_vma` finds the area of an address**, wherever in the list it is. -/
theorem findVma_eq_some_iff (hs : Listed s.vmas) :
    s.findVma addr = some v ↔ v ∈ s.vmas ∧ v.contains addr = true := by
  rw [findVma]
  cases hsearch : binarySearchByKey Vma.start s.vmas addr with
  | ok i =>
    obtain ⟨w, hw, hstart⟩ := binarySearchByKey_ok hsearch
    have hmem := List.mem_of_getElem? hw
    have hin : w.contains addr = true :=
      Vma.contains_iff.2 ⟨hstart.le, hstart ▸ (hs.regular w hmem).nonempty⟩
    refine ⟨vmaAt_eq_some, fun h => ?_⟩
    obtain rfl := hs.unique hmem h.1 hin h.2
    exact vmaAt_of_contains hw hin
  | error i =>
    obtain ⟨hle, hbefore, hafter⟩ := binarySearchByKey_error hs.sorted_le hsearch
    -- an area that begins past the address does not contain it
    have hfront : v ∈ s.vmas → v.contains addr = true → v ∈ s.vmas.take i := by
      intro hmem hin
      rw [← List.take_append_drop i s.vmas, List.mem_append] at hmem
      refine hmem.resolve_right fun hback => ?_
      exact absurd (Vma.contains_iff.1 hin).1 (hafter v hback).not_ge
    cases i with
    | zero =>
      refine ⟨nofun, fun h => ?_⟩
      exact absurd (hfront h.1 h.2) (by simp)
    | succ i =>
      refine ⟨vmaAt_eq_some, fun h => ?_⟩
      have hw : s.vmas[i]? = some s.vmas[i] := List.getElem?_eq_getElem hle
      have hlast : s.vmas[i] ∈ s.vmas.take (i + 1) := by
        rw [List.take_succ_eq_append_getElem hle]
        exact List.mem_append_right _ (List.mem_singleton_self _)
      obtain rfl := eq_of_last hs hw (hbefore _ hlast).le (hfront h.1 h.2) h.2
      exact vmaAt_of_contains hw h.2

/-! ## Every sequence of calls -/

inductive Call
  | addVma (vma : Vma)
  | removeVma (start : Nat)
  deriving DecidableEq, Repr

/-- The address space after a call. -/
def apply (s : AddressSpace) : Call → AddressSpace
  | .addVma vma => (s.addVma vma).2
  | .removeVma start => (s.removeVma start).2

theorem listed_apply (hs : Listed s.vmas) (call : Call) : Listed (s.apply call).vmas := by
  cases call with
  | addVma vma => exact listed_addVma hs vma
  | removeVma start => exact listed_removeVma hs start

theorem listed_run (calls : List Call) (hs : Listed s.vmas) : Listed (calls.foldl apply s).vmas := by
  induction calls generalizing s with
  | nil => exact hs
  | cons call calls ih => exact ih (listed_apply hs call)

/-- **The list of an address space**: whatever was added and removed, it is sorted, disjoint and aligned, an
address is found in the one area that has it or in none, and a refused `add_vma` leaves it as it was. -/
theorem list_kept (pml4Phys : Nat) (calls : List Call) :
    let s := calls.foldl apply (new pml4Phys)
    s.vmas.Pairwise (·.start < ·.start) ∧ s.vmas.Pairwise Vma.Apart ∧ (∀ v ∈ s.vmas, v.Regular) ∧
      (∀ addr v, s.findVma addr = some v ↔
        v ∈ s.vmas ∧ v.contains addr = true ∧ ∀ w ∈ s.vmas, w.contains addr = true → w = v) ∧
      (∀ addr, s.findVma addr = none ↔ ∀ v ∈ s.vmas, v.contains addr = false) ∧
      ∀ vma k, (s.addVma vma).1 = .error k → (s.addVma vma).2 = s := by
  intro s
  have hs : Listed s.vmas := listed_run calls .nil
  refine ⟨hs.sorted, hs.disjoint, hs.regular, fun addr v => ?_, fun addr => ?_, fun vma k hk => ?_⟩
  · rw [findVma_eq_some_iff hs]
    exact ⟨fun h => ⟨h.1, h.2, fun w hw hin => hs.unique hw h.1 hin h.2⟩, fun h => ⟨h.1, h.2.1⟩⟩
  · rw [Option.eq_none_iff_forall_not_mem]
    simp only [Option.mem_def, findVma_eq_some_iff hs, not_and, Bool.not_eq_true]
  · obtain ⟨k', heq⟩ | ⟨-, -, heq⟩ := s.addVma_cases vma <;> rw [heq] at hk ⊢
    cases hk

end AddressSpace

/-! ## The search for a gap -/

section Gap

variable {vmas : List Vma} {size regionStart regionEnd cursor a : Nat}

/-- The gap between the last area and the end of the window. -/
def trailingGap (size regionEnd cursor : Nat) : Option Nat :=
  if cursor ≤ regionEnd ∧ size ≤ regionEnd - cursor then some cursor else none

/-- The loop of `find_gap`: everything below `cursor` is ruled out. -/
def findGapFrom (size regionEnd : Nat) : List Vma → Nat → Option Nat
  | [], cursor => trailingGap size regionEnd cursor
  | vma :: rest, cursor =>
    if vma.endAddr ≤ cursor then findGapFrom size regionEnd rest cursor
    else if regionEnd ≤ vma.start then trailingGap size regionEnd cursor
    -- `checked_sub`: an area that straddles the cursor leaves no gap before it
    else if cursor ≤ vma.start ∧ size ≤ vma.start - cursor then some cursor
    else
      let cursor' := if cursor < vma.endAddr then vma.endAddr else cursor
      if regionEnd ≤ cursor' then none else findGapFrom size regionEnd rest cursor'

/-- `find_gap`. -/
def findGap (vmas : List Vma) (size regionStart regionEnd : Nat) : Option Nat :=
  if size = 0 ∨ regionEnd ≤ regionStart then none else findGapFrom size regionEnd vmas regionStart

/-- The addresses from which a range of the size is free up to the end of the window. -/
def Fitting (vmas : List Vma) (size lowest regionEnd : Nat) : Set Nat :=
  {a | lowest ≤ a ∧ a + size ≤ regionEnd ∧ ∀ v ∈ vmas, a + size ≤ v.start ∨ v.endAddr ≤ a}

/-- A search that ends in the least element of a set, or finds the set empty. -/
def Finds (found : Option Nat) (S : Set Nat) : Prop :=
  match found with
  | none => S = ∅
  | some a => IsLeast S a

theorem finds_trailingGap (hfar : ∀ v ∈ vmas, regionEnd ≤ v.start) :
    Finds (trailingGap size regionEnd cursor) (Fitting vmas size cursor regionEnd) := by
  rw [trailingGap]
  split
  · next hfits =>
      refine ⟨⟨le_rfl, by omega, fun v hv => .inl ?_⟩, fun a ha => ha.1⟩
      have := hfar v hv
      omega
  · next hshort =>
      refine Set.eq_empty_iff_forall_notMem.2 fun a ha => hshort ?_
      have := ha.1
      have := ha.2.1
      omega

/-- An area that fits nothing before it moves the search on to its end. -/
theorem fitting_cons {vma : Vma} {cursor' : Nat} (hle : cursor ≤ cursor')
    (hpast : ∀ a, cursor ≤ a → a + size ≤ regionEnd → (a + size ≤ vma.start ∨ vma.endAddr ≤ a) → cursor' ≤ a)
    (hend : vma.endAddr ≤ cursor') :
    Fitting (vma :: vmas) size cursor regionEnd = Fitting vmas size cursor' regionEnd := by
  ext a
  simp only [Fitting, Set.mem_ofPred_eq, List.forall_mem_cons]
  constructor
  · rintro ⟨hlow, hin, hvma, hrest⟩
    exact ⟨hpast a hlow hin hvma, hin, hrest⟩
  · rintro ⟨hlow, hin, hrest⟩
    exact ⟨hle.trans hlow, hin, .inr (hend.trans hlow), hrest⟩

/-- **The loop finds the first fit** from the cursor on, over a sorted and disjoint list. -/
theorem finds_findGapFrom (hs : Listed vmas) (hsize : 0 < size) (cursor : Nat) :
    Finds (findGapFrom size regionEnd vmas cursor) (Fitting vmas size cursor regionEnd) := by
  induction vmas generalizing cursor with
  | nil => exact finds_trailingGap (by simp)
  | cons vma rest ih =>
    have hafter : ∀ v ∈ rest, vma.start < v.start := (List.pairwise_cons.1 hs.sorted).1
    rw [findGapFrom]
    split
    · -- the area lies behind the cursor
      next hbehind =>
        rw [fitting_cons le_rfl (fun a hlow _ _ => hlow) hbehind]
        exact ih hs.tail cursor
    next hreach =>
    split
    · -- the area begins after the window, and so do all that follow
      next hbeyond =>
      refine finds_trailingGap fun v hv => ?_
      obtain rfl | hv := List.mem_cons.1 hv
      · exact hbeyond
      · exact hbeyond.trans (hafter v hv).le
    next hwithin =>
    split
    · -- the gap before the area is long enough
      next hgap =>
      refine ⟨⟨le_rfl, by omega, fun v hv => .inl ?_⟩, fun a ha => ha.1⟩
      obtain rfl | hv := List.mem_cons.1 hv
      · omega
      · have := hafter v hv
        omega
    next hshort =>
    rw [if_pos (not_le.1 hreach)]
    -- the gap before the area is too short, so a fitting address is past its end
    have hmove : Fitting (vma :: rest) size cursor regionEnd = Fitting rest size vma.endAddr regionEnd :=
      fitting_cons (by omega) (fun a hlow _ hor => by omega) le_rfl
    rw [hmove]
    dsimp only
    split
    · next hout =>
        refine Set.eq_empty_iff_forall_notMem.2 fun a ha => ?_
        have := ha.1
        have := ha.2.1
        omega
    · exact ih hs.tail vma.endAddr

theorem finds_findGap (hs : Listed vmas) (hsize : 0 < size) (regionStart regionEnd : Nat) :
    Finds (findGap vmas size regionStart regionEnd) (Fitting vmas size regionStart regionEnd) := by
  rw [findGap]
  split
  · next hdegenerate =>
      refine Set.eq_empty_iff_forall_notMem.2 fun a ha => ?_
      have := ha.1
      have := ha.2.1
      omega
  · exact finds_findGapFrom hs hsize regionStart

/-- A gap begins where the window does or where an area ends. -/
theorem findGapFrom_begins (h : findGapFrom size regionEnd vmas cursor = some a) :
    a = cursor ∨ ∃ v ∈ vmas, a = v.endAddr := by
  have htrailing : ∀ {c}, trailingGap size regionEnd c = some a → a = c := by
    intro c hc
    rw [trailingGap] at hc
    split at hc
    · exact (Option.some.inj hc).symm
    · cases hc
  induction vmas generalizing cursor with
  | nil => exact .inl (htrailing h)
  | cons vma rest ih =>
    have hrest : ∀ {c}, findGapFrom size regionEnd rest c = some a → c = cursor ∨ c = vma.endAddr →
        a = cursor ∨ ∃ v ∈ vma :: rest, a = v.endAddr := by
      rintro c hc hor
      obtain rfl | ⟨v, hv, heq⟩ := ih hc
      · exact hor.imp id fun heq => ⟨vma, List.mem_cons_self, heq⟩
      · exact .inr ⟨v, List.mem_cons_of_mem _ hv, heq⟩
    rw [findGapFrom] at h
    split at h
    · exact hrest h (.inl rfl)
    next hreach =>
    split at h
    · exact .inl (htrailing h)
    split at h
    · exact .inl (Option.some.inj h).symm
    rw [if_pos (not_le.1 hreach)] at h
    dsimp only at h
    split at h
    · cases h
    · exact hrest h (.inr rfl)

theorem findGap_begins (h : findGap vmas size regionStart regionEnd = some a) :
    a = regionStart ∨ ∃ v ∈ vmas, a = v.endAddr := by
  rw [findGap] at h
  split at h
  · cases h
  · exact findGapFrom_begins h

/-- **First fit**: a gap is found exactly when some range of the window is free, and it is the lowest one. It is
the lowest on a page boundary too, unless it begins where a window begins that is on none. -/
theorem first_fit (vmas : List Vma) (size regionStart regionEnd : Nat) (hs : Listed vmas) (hsize : 0 < size) :
    ((findGap vmas size regionStart regionEnd).isSome ↔ (Fitting vmas size regionStart regionEnd).Nonempty) ∧
      ∀ a, findGap vmas size regionStart regionEnd = some a →
        IsLeast (Fitting vmas size regionStart regionEnd) a ∧
          (a ≠ regionStart ∨ regionStart % hwPageSize = 0 →
            IsLeast {b ∈ Fitting vmas size regionStart regionEnd | b % hwPageSize = 0} a) := by
  have hfinds := finds_findGap hs hsize regionStart regionEnd
  refine ⟨?_, fun a ha => ?_⟩
  · cases hfound : findGap vmas size regionStart regionEnd with
    | none =>
      rw [hfound] at hfinds
      exact ⟨nofun, fun hne => absurd hfinds hne.ne_empty⟩
    | some a =>
      rw [hfound] at hfinds
      exact ⟨fun _ => ⟨a, hfinds.1⟩, fun _ => rfl⟩
  · rw [ha] at hfinds
    refine ⟨hfinds, fun hstart => ⟨⟨hfinds.1, ?_⟩, fun b hb => hfinds.2 hb.1⟩⟩
    obtain rfl | ⟨v, hv, rfl⟩ := findGap_begins ha
    · exact hstart.resolve_left fun hne => hne rfl
    · exact (hs.regular v hv).end_aligned

theorem first_fit_after_two_pages :
    Listed [⟨0x1000, 0x3000, .anonymous, 0#64, {}⟩] ∧
      IsLeast {b ∈ Fitting [⟨0x1000, 0x3000, .anonymous, 0#64, {}⟩] 0x2000 0 0x6000 | b % hwPageSize = 0} 0x3000 := by
  have hs : Listed [⟨0x1000, 0x3000, .anonymous, 0#64, {}⟩] :=
    ⟨List.pairwise_singleton _ _, List.pairwise_singleton _ _, by
      intro v hv
      obtain rfl := List.mem_singleton.1 hv
      exact ⟨rfl, rfl, by decide⟩⟩
  exact ⟨hs, ((first_fit _ 0x2000 0 0x6000 hs (by decide)).2 0x3000 rfl).2 (.inr rfl)⟩

/-- A window that starts inside a page, with nothing mapped: the gap found is at its start. -/
theorem gap_off_page :
    Listed [] ∧ findGap [] 0x1000 1 0x4000 = some 1 ∧
      ¬ IsLeast {b ∈ Fitting [] 0x1000 1 0x4000 | b % hwPageSize = 0} 1 :=
  ⟨.nil, rfl, fun h => absurd h.1.2 (by decide)⟩

end Gap

end SlateOS.Mm
