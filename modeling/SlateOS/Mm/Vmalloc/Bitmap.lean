/-
# SlateOS.Mm.Vmalloc.Bitmap -- the page bitmap of the vmalloc region, and its first-fit search

`kernel/src/mm/vmalloc.rs`: one bit a page, 64 pages a word. `find_free_run` looks for the first run of clear
bits with a guard page on either side, and steps over whole words that are full or free.
-/
import SlateOS.Foundation.MachineInt
import SlateOS.Foundation.BitScan
import Mathlib.Data.List.GetD
import Mathlib.Order.Bounds.Basic

namespace SlateOS.Mm.Vmalloc

open Foundation.MachineInt Foundation

/-! ## The bitmap -/

/-- A bitmap; the pages of word `i` are those from `64 * i` on. -/
abbrev Bitmap := List (BitVec 64)

/-- The word of page `i`; pages beyond the bitmap read as allocated. -/
def wordAt (bitmap : Bitmap) (i : Nat) : BitVec 64 := bitmap.getD (i / 64) (BitVec.allOnes 64)

/-- The loop of `find_free_run`: `start` and `len` are the run that is growing, `i` is the next page. -/
def search (bitmap : Bitmap) (need start len i : Nat) : Option Nat :=
  if i < bitmap.length * 64 then
    if i % 64 = 0 ∧ wordAt bitmap i = BitVec.allOnes 64 then
      -- 64 allocated pages: whatever run was growing ends here
      search bitmap need (i + 64) 0 (i + 64)
    else if i % 64 = 0 ∧ wordAt bitmap i = 0#64 then
      if need ≤ len + 64 then some start else search bitmap need start (len + 64) (i + 64)
    else if (wordAt bitmap i >>> (i % 64)) &&& 1#64 ≠ 0#64 then search bitmap need (i + 1) 0 (i + 1)
    else if need ≤ len + 1 then some start
    else search bitmap need start (len + 1) (i + 1)
  else none
  termination_by bitmap.length * 64 - i

/-- `find_free_run`: the leading guard page of the first run. -/
def findFreeRun (bitmap : Bitmap) (pageCount : Nat) : Option Nat :=
  if maxVal 64 < bitmap.length * 64 then none
  else
    match checkedAdd 64 pageCount 2 with
    | none => none
    | some need =>
      if pageCount = 0 ∨ bitmap.length * 64 < need then none else search bitmap need 0 0 0

/-- One bit written; bits beyond the bitmap are ignored. -/
def writeBit (bitmap : Bitmap) (i : Nat) (allocated : Bool) : Bitmap :=
  bitmap.modify (i / 64) fun word =>
    if allocated then BitScan.setBit word ⟨i % 64, Nat.mod_lt _ (by decide)⟩
    else BitScan.clearBit word ⟨i % 64, Nat.mod_lt _ (by decide)⟩

/-- `set_bits`. -/
def setBits (bitmap : Bitmap) (start count : Nat) (allocated : Bool) : Bitmap :=
  (List.range' start (saturatingAdd 64 start count - start)).foldl (fun b i => writeBit b i allocated) bitmap

/-! ## Bits -/

section Bits

variable {bitmap : Bitmap} {i j n need start len count s : Nat} {allocated : Bool}

/-- The bit of page `i`. -/
def bit (bitmap : Bitmap) (i : Nat) : Bool := (wordAt bitmap i).getLsbD (i % 64)

theorem bit_eq_shift : bit bitmap i = true ↔ (wordAt bitmap i >>> (i % 64)) &&& 1#64 ≠ 0#64 := by
  constructor
  · intro h hzero
    have hlow := congrArg (·.getLsbD 0) hzero
    simp only [BitVec.getLsbD_and, BitVec.getLsbD_ushiftRight, Nat.add_zero, BitVec.getLsbD_zero] at hlow
    rw [bit] at h
    rw [h] at hlow
    exact absurd hlow (by decide)
  · intro h
    by_contra hclear
    rw [Bool.not_eq_true, bit] at hclear
    refine h (BitVec.eq_of_getLsbD_eq fun k hk => ?_)
    rw [BitVec.getLsbD_and, BitVec.getLsbD_ushiftRight, BitVec.getLsbD_one, BitVec.getLsbD_zero]
    by_cases hk0 : k = 0
    · rw [hk0, Nat.add_zero, hclear, Bool.false_and]
    · rw [decide_eq_false hk0, Bool.and_false, Bool.and_false]

/-- Pages of one word share it. -/
theorem wordAt_block (hi : i % 64 = 0) (hj : i ≤ j) (hji : j < i + 64) : wordAt bitmap j = wordAt bitmap i := by
  have hdiv : j / 64 = i / 64 := by omega
  rw [wordAt, wordAt, hdiv]

/-- `n` clear bits from `s` on. -/
def FreeRun (bitmap : Bitmap) (n s : Nat) : Prop :=
  s + n ≤ bitmap.length * 64 ∧ ∀ j, s ≤ j → j < s + n → bit bitmap j = false

/-- What the search knows at page `i`: the run from `start` up to `i` is clear and too short, and no run starts
before it. -/
structure Searched (bitmap : Bitmap) (need start len i : Nat) : Prop where
  upTo : i = start + len
  short : len < need
  clear : ∀ j, start ≤ j → j < i → bit bitmap j = false
  none : ∀ s < start, ¬FreeRun bitmap need s

/-- An allocated page ends the run that was growing, and none can start up to it. -/
theorem Searched.skip {i' : Nat} (h : Searched bitmap need start len i) (hi' : i < i')
    (hset : ∀ j, i ≤ j → j < i' → bit bitmap j = true) : Searched bitmap need i' 0 i' where
  upTo := rfl
  short := Nat.lt_of_le_of_lt (Nat.zero_le _) h.short
  clear j hj hj' := absurd hj' (Nat.not_lt.mpr hj)
  none s hs hfree := by
    have hi := h.upTo
    have hshort := h.short
    by_cases hbefore : s < start
    · exact h.none s hbefore hfree
    · have hclear := hfree.2 (max s i) (Nat.le_max_left _ _) (by omega)
      rw [hset (max s i) (Nat.le_max_right _ _) (by omega)] at hclear
      cases hclear

/-- Clear pages lengthen the run. -/
theorem Searched.grow {k : Nat} (h : Searched bitmap need start len i) (hshort : len + k < need)
    (hclear : ∀ j, i ≤ j → j < i + k → bit bitmap j = false) : Searched bitmap need start (len + k) (i + k) where
  upTo := by rw [h.upTo, Nat.add_assoc]
  short := hshort
  clear j hj hj' := by
    by_cases hin : j < i
    · exact h.clear j hj hin
    · exact hclear j (Nat.le_of_not_lt hin) hj'
  none := h.none

/-- Or they complete it. -/
theorem Searched.found {k : Nat} (h : Searched bitmap need start len i) (hlong : need ≤ len + k)
    (hend : i + k ≤ bitmap.length * 64) (hclear : ∀ j, i ≤ j → j < i + k → bit bitmap j = false) :
    IsLeast {s | FreeRun bitmap need s} start := by
  have hi := h.upTo
  refine ⟨⟨by omega, fun j hj hj' => ?_⟩, fun s hs => ?_⟩
  · by_cases hin : j < i
    · exact h.clear j hj hin
    · exact hclear j (Nat.le_of_not_lt hin) (by omega)
  · by_contra hlt
    exact h.none s (Nat.lt_of_not_le hlt) hs

/-- **The search finds the first run, or there is none.** -/
theorem search_spec (h : Searched bitmap need start len i) :
    (∀ r, search bitmap need start len i = some r → IsLeast {s | FreeRun bitmap need s} r) ∧
      (search bitmap need start len i = none → ∀ s, ¬FreeRun bitmap need s) := by
  induction start, len, i using search.induct bitmap need with
  | case1 start len i hlt hfull ih =>
    rw [search, if_pos hlt, if_pos hfull]
    refine ih (h.skip (by omega) fun j hj hj' => ?_)
    rw [bit, wordAt_block hfull.1 hj hj', hfull.2, BitVec.getLsbD_allOnes]
    exact decide_eq_true (Nat.mod_lt _ (by decide))
  | case2 start len i hlt hfull hfree hlong =>
    rw [search, if_pos hlt, if_neg hfull, if_pos hfree, if_pos hlong]
    refine ⟨fun r hr => ?_, fun hn => nomatch hn⟩
    cases hr
    refine h.found hlong (by omega) fun j hj hj' => ?_
    rw [bit, wordAt_block hfree.1 hj hj', hfree.2, BitVec.getLsbD_zero]
  | case3 start len i hlt hfull hfree hshort ih =>
    rw [search, if_pos hlt, if_neg hfull, if_pos hfree, if_neg hshort]
    refine ih (h.grow (Nat.lt_of_not_le hshort) fun j hj hj' => ?_)
    rw [bit, wordAt_block hfree.1 hj hj', hfree.2, BitVec.getLsbD_zero]
  | case4 start len i hlt hfull hfree hset ih =>
    rw [search, if_pos hlt, if_neg hfull, if_neg hfree, if_pos hset]
    refine ih (h.skip (Nat.lt_succ_self i) fun j hj hj' => ?_)
    obtain rfl : j = i := by omega
    exact bit_eq_shift.mpr hset
  | case5 start len i hlt hfull hfree hclear hlong =>
    rw [search, if_pos hlt, if_neg hfull, if_neg hfree, if_neg hclear, if_pos hlong]
    refine ⟨fun r hr => ?_, fun hn => nomatch hn⟩
    cases hr
    refine h.found hlong hlt fun j hj hj' => ?_
    obtain rfl : j = i := by omega
    exact Bool.eq_false_iff.mpr fun hset => hclear (bit_eq_shift.mp hset)
  | case6 start len i hlt hfull hfree hclear hshort ih =>
    rw [search, if_pos hlt, if_neg hfull, if_neg hfree, if_neg hclear, if_neg hshort]
    refine ih (h.grow (Nat.lt_of_not_le hshort) fun j hj hj' => ?_)
    obtain rfl : j = i := by omega
    exact Bool.eq_false_iff.mpr fun hset => hclear (bit_eq_shift.mp hset)
  | case7 start len i hend =>
    rw [search, if_neg hend]
    refine ⟨fun r hr => (nomatch hr), fun _ s hs => ?_⟩
    have hi := h.upTo
    have hshort := h.short
    have hsend := hs.1
    exact h.none s (by omega) hs

/-- **`find_free_run` finds the first run with its guards, or there is none.** -/
theorem findFreeRun_spec (hfit : bitmap.length * 64 ≤ maxVal 64) (hpos : 0 < n) :
    (∀ r, findFreeRun bitmap n = some r ↔ IsLeast {s | FreeRun bitmap (n + 2) s} r) ∧
      (findFreeRun bitmap n = none ↔ ∀ s, ¬FreeRun bitmap (n + 2) s) := by
  have hspec : (∀ r, findFreeRun bitmap n = some r → IsLeast {s | FreeRun bitmap (n + 2) s} r) ∧
      (findFreeRun bitmap n = none → ∀ s, ¬FreeRun bitmap (n + 2) s) := by
    rw [findFreeRun, if_neg (Nat.not_lt.mpr hfit)]
    unfold checkedAdd
    by_cases hsum : n + 2 < 2 ^ 64
    · rw [if_pos hsum]
      dsimp only
      by_cases hlarge : bitmap.length * 64 < n + 2
      · rw [if_pos (.inr hlarge)]
        refine ⟨fun r hr => (nomatch hr), fun _ s hs => ?_⟩
        have := hs.1
        omega
      · rw [if_neg (by omega)]
        refine search_spec ⟨rfl, Nat.succ_pos _, fun j _ hj => absurd hj (Nat.not_lt_zero _), ?_⟩
        exact fun s hs => absurd hs (Nat.not_lt_zero _)
    · rw [if_neg hsum]
      refine ⟨fun r hr => (nomatch hr), fun _ s hs => ?_⟩
      have hend := hs.1
      unfold maxVal at hfit
      omega
  refine ⟨fun r => ⟨hspec.1 r, fun hr => ?_⟩, ⟨hspec.2, fun hnone => ?_⟩⟩
  · cases hfound : findFreeRun bitmap n with
    | none => exact absurd hr.1 (hspec.2 hfound r)
    | some r' => rw [(hspec.1 r' hfound).unique hr]
  · cases hfound : findFreeRun bitmap n with
    | none => rfl
    | some r' => exact absurd (hspec.1 r' hfound).1 (hnone r')

/-! ## Writing bits -/

@[simp] theorem length_writeBit : (writeBit bitmap i allocated).length = bitmap.length := List.length_modify ..

theorem bit_writeBit (hj : j < bitmap.length * 64) :
    bit (writeBit bitmap i allocated) j = if j = i then allocated else bit bitmap j := by
  have hword : j / 64 < bitmap.length := by omega
  have hword' : j / 64 < (writeBit bitmap i allocated).length := by rwa [length_writeBit]
  have hget : wordAt bitmap j = bitmap[j / 64] := List.getD_eq_getElem _ _ hword
  have hget' : wordAt (writeBit bitmap i allocated) j = (writeBit bitmap i allocated)[j / 64] :=
    List.getD_eq_getElem _ _ hword'
  rw [bit, bit, hget, hget']
  simp only [writeBit, List.getElem_modify]
  have hlt : j % 64 < 64 := Nat.mod_lt _ (by decide)
  by_cases hdiv : i / 64 = j / 64
  · rw [if_pos hdiv]
    by_cases hij : j = i
    · subst hij
      rw [if_pos rfl]
      cases allocated
      · exact BitScan.getLsbD_clearBit_self _ ⟨j % 64, hlt⟩
      · exact BitScan.getLsbD_setBit_self _ ⟨j % 64, hlt⟩
    · have hne : (⟨j % 64, hlt⟩ : Fin 64) ≠ ⟨i % 64, Nat.mod_lt _ (by decide)⟩ := by
        intro heq
        have := congrArg Fin.val heq
        dsimp only at this
        omega
      rw [if_neg hij]
      cases allocated
      · exact BitScan.getLsbD_clearBit_of_ne _ hne
      · exact BitScan.getLsbD_setBit_of_ne _ hne
  · rw [if_neg hdiv, if_neg (fun hij => hdiv (by rw [hij]))]

theorem foldl_writeBit (is : List Nat) (bitmap : Bitmap) (hj : j < bitmap.length * 64) :
    bit (is.foldl (fun b i => writeBit b i allocated) bitmap) j = if j ∈ is then allocated else bit bitmap j := by
  induction is generalizing bitmap with
  | nil => rfl
  | cons i is ih =>
    rw [List.foldl_cons, ih _ (by rwa [length_writeBit]), bit_writeBit hj]
    by_cases hin : j ∈ is
    · rw [if_pos hin, if_pos (List.mem_cons_of_mem i hin)]
    · rw [if_neg hin]
      exact if_congr (by simp [hin]) rfl rfl

@[simp] theorem length_setBits : (setBits bitmap start count allocated).length = bitmap.length := by
  unfold setBits
  generalize List.range' start _ = is
  induction is generalizing bitmap with
  | nil => rfl
  | cons i is ih => exact ih.trans length_writeBit

/-- `set_bits` writes the bits of its range. -/
theorem bit_setBits (hfit : bitmap.length * 64 ≤ maxVal 64) (hj : j < bitmap.length * 64) :
    bit (setBits bitmap start count allocated) j
      = if start ≤ j ∧ j < start + count then allocated else bit bitmap j := by
  rw [setBits, foldl_writeBit _ _ hj]
  refine if_congr ?_ rfl rfl
  rw [List.mem_range'_1]
  unfold saturatingAdd
  omega

/-- A bitmap is its bits. -/
theorem ext_bits {bitmap' : Bitmap} (hlen : bitmap.length = bitmap'.length)
    (hbits : ∀ j < bitmap.length * 64, bit bitmap j = bit bitmap' j) : bitmap = bitmap' := by
  refine List.ext_getElem hlen fun w hw hw' => BitVec.eq_of_getLsbD_eq fun k hk => ?_
  have hb := hbits (w * 64 + k) (by omega)
  have hdiv : (w * 64 + k) / 64 = w := by omega
  have hmod : (w * 64 + k) % 64 = k := by omega
  rwa [bit, bit, wordAt, wordAt, hdiv, hmod, List.getD_eq_getElem _ _ hw, List.getD_eq_getElem _ _ hw'] at hb

/-- Allocating a clear range and freeing it again leaves the bitmap as it was. -/
theorem setBits_undo (hfit : bitmap.length * 64 ≤ maxVal 64) (hrun : FreeRun bitmap count start) :
    setBits (setBits bitmap start count true) start count false = bitmap := by
  refine ext_bits (length_setBits.trans length_setBits) fun j hj => ?_
  rw [length_setBits, length_setBits] at hj
  rw [bit_setBits (by rwa [length_setBits]) (by rwa [length_setBits]), bit_setBits hfit hj]
  by_cases hin : start ≤ j ∧ j < start + count
  · rw [if_pos hin]
    exact (hrun.2 j hin.1 hin.2).symm
  · rw [if_neg hin, if_neg hin]

end Bits

end SlateOS.Mm.Vmalloc
