/-
# SlateOS.Mm.Swap.Entry -- page-table entries, and the swap entries kept in their place

`kernel/src/mm/swap.rs` and `page_table.rs`: a swap entry is not present, names its slot in bits 2 to 31, and
keeps the flags of the part that went in the bits above, less accessed and dirty.
-/
import Mathlib.Tactic.IntervalCases
import Mathlib.Data.Nat.Bitwise

namespace SlateOS.Mm.Swap

/-- A raw page-table entry, or its flags. -/
abbrev Raw := BitVec 64

/-! ## Page-table entries -/

namespace PageFlags

def present : Raw := 1#64 <<< 0

def accessed : Raw := 1#64 <<< 5

def dirty : Raw := 1#64 <<< 6

def shared : Raw := 1#64 <<< 10

def mlocked : Raw := 1#64 <<< 11

def foreign : Raw := 1#64 <<< 53

def noExecute : Raw := 1#64 <<< 63

/-- `contains`. -/
def contains (flags other : Raw) : Bool := flags &&& other == other

end PageFlags

def physAddrMask : Raw := 0x000FFFFFFFFFF000#64

/-- `PageTableEntry::new`. -/
def pteNew (physAddr flags : Raw) : Raw := (physAddr &&& physAddrMask) ||| flags

/-- `is_present`. -/
def isPresent (raw : Raw) : Bool := raw &&& PageFlags.present != 0#64

/-- `phys_addr`. -/
def physAddr (raw : Raw) : Raw := raw &&& physAddrMask

/-- `flags`. -/
def flagsOf (raw : Raw) : Raw := raw &&& ~~~physAddrMask

/-- `is_swap`. -/
def isSwap (raw : Raw) : Bool := raw &&& 0b11#64 == 0b10#64

/-! ## Swap entries -/

def swapMarkerBit : Raw := 1#64 <<< 1

def swapSlotMask : Raw := 0xFFFFFFFC#64

def swapKeptLow : Raw := 0x7FF#64 &&& ~~~((1#64 <<< 5) ||| (1#64 <<< 6))

def swapKeptNx : Raw := 1#64 <<< 43

def swapKeptLocked : Raw := 1#64 <<< 44

def maxSwapSlots : Nat := 2 ^ 30

/-- `to_pte_raw`. -/
def toPteRaw (slot : Nat) : Raw := swapMarkerBit ||| (BitVec.ofNat 64 slot <<< 2)

/-- `to_pte_raw_keeping`. -/
def toPteRawKeeping (slot : Nat) (kept : Raw) : Raw :=
  toPteRaw slot ||| ((kept &&& swapKeptLow) <<< 32) |||
    (if kept &&& PageFlags.noExecute != 0#64 then swapKeptNx else 0#64) |||
    (if kept &&& PageFlags.mlocked != 0#64 then swapKeptLocked else 0#64)

/-- `kept_flags`. -/
def keptFlags (raw : Raw) : Raw :=
  ((raw >>> 32) &&& swapKeptLow) |||
    (if raw &&& swapKeptNx != 0#64 then PageFlags.noExecute else 0#64) |||
    (if raw &&& swapKeptLocked != 0#64 then PageFlags.mlocked else 0#64)

/-- `from_pte_raw`: the slot that a swap entry names. -/
def fromPteRaw (raw : Raw) : Option Nat :=
  if raw &&& 0b11#64 != 0b10#64 then none else some ((raw &&& swapSlotMask) >>> 2).toNat

/-- The flags that a swap entry can keep: all that bear on protection. -/
def keptMask : Raw := swapKeptLow ||| PageFlags.noExecute ||| PageFlags.mlocked

/-! ## Bits -/

section Bits

variable {raw kept flags phys : Raw} {slot n : Nat}

theorem and_shiftLeft_bne (hn : n < 64) (x : Raw) : (x &&& 1#64 <<< n != 0#64) = x.getLsbD n := by
  have hpow : (1#64 <<< n) = BitVec.twoPow 64 n := rfl
  rw [hpow, BitVec.and_twoPow]
  cases h : x.getLsbD n with
  | false => simp
  | true =>
    have hne : BitVec.twoPow 64 n ≠ 0#64 := by
      intro h0
      have := congrArg (fun y => y.getLsbD n) h0
      simp [hn] at this
    simpa using hne

theorem isPresent_eq (raw : Raw) : isPresent raw = raw.getLsbD 0 :=
  and_shiftLeft_bne (n := 0) (by decide) raw

/-- The two low bits of a swap entry. -/
theorem isSwap_iff (raw : Raw) : isSwap raw = true ↔ raw.getLsbD 0 = false ∧ raw.getLsbD 1 = true := by
  unfold isSwap
  rw [beq_iff_eq]
  constructor
  · intro h
    have h0 := congrArg (fun y => y.getLsbD 0) h
    have h1 := congrArg (fun y => y.getLsbD 1) h
    simpa using And.intro h0 h1
  · rintro ⟨h0, h1⟩
    apply BitVec.eq_of_getLsbD_eq
    intro i hi
    rw [BitVec.getLsbD_and]
    by_cases hi0 : i = 0
    · subst hi0
      rw [h0]
      rfl
    · by_cases hi1 : i = 1
      · subst hi1
        rw [h1]
        rfl
      · have hhigh : (0b11#64).getLsbD i = false := by
          interval_cases i <;> first | contradiction | rfl
        have hhigh' : (0b10#64).getLsbD i = false := by
          interval_cases i <;> first | contradiction | rfl
        rw [hhigh, hhigh', Bool.and_false]

theorem fromPteRaw_eq (raw : Raw) :
    fromPteRaw raw = if isSwap raw then some ((raw &&& swapSlotMask) >>> 2).toNat else none := by
  unfold fromPteRaw isSwap
  cases h : raw &&& 0b11#64 == 0b10#64 <;> simp_all

theorem not_present_of_fromPteRaw (h : fromPteRaw raw = some slot) : isPresent raw = false := by
  rw [fromPteRaw_eq] at h
  split at h
  · rename_i hswap
    rw [isPresent_eq]
    exact ((isSwap_iff raw).mp hswap).1
  · cases h

theorem fromPteRaw_of_present (h : isPresent raw = true) : fromPteRaw raw = none := by
  cases hf : fromPteRaw raw with
  | none => rfl
  | some slot =>
    rw [not_present_of_fromPteRaw hf] at h
    cases h

theorem isSwap_eq_isSome (raw : Raw) : isSwap raw = (fromPteRaw raw).isSome := by
  rw [fromPteRaw_eq]
  cases isSwap raw <;> rfl

@[simp] theorem fromPteRaw_zero : fromPteRaw 0#64 = none := by decide

@[simp] theorem isPresent_zero : isPresent 0#64 = false := by decide

theorem getLsbD_bit (hn : n < 64) (i : Nat) : (1#64 <<< n).getLsbD i = decide (i = n) := by
  have hpow : (1#64 <<< n) = BitVec.twoPow 64 n := rfl
  rw [hpow, BitVec.getLsbD_twoPow, decide_eq_true hn, Bool.true_and]
  exact decide_eq_decide.mpr eq_comm

theorem getLsbD_ite (c : Bool) (x : Raw) (i : Nat) :
    (if c then x else 0#64).getLsbD i = (c && x.getLsbD i) := by
  cases c <;> simp

theorem swapKeptLow_high {i : Nat} (hi : 11 ≤ i) : swapKeptLow.getLsbD i = false := by
  by_cases h : i < 64
  · interval_cases i <;> rfl
  · exact BitVec.getLsbD_of_ge _ _ (by omega)

theorem swapSlotMask_getLsbD (i : Nat) : swapSlotMask.getLsbD i = decide (2 ≤ i ∧ i < 32) := by
  by_cases h : i < 64
  · interval_cases i <;> rfl
  · rw [BitVec.getLsbD_of_ge _ _ (by omega)]
    exact (decide_eq_false (by omega)).symm

theorem keptMask_getLsbD (i : Nat) :
    keptMask.getLsbD i = (swapKeptLow.getLsbD i || decide (i = 63) || decide (i = 11)) := by
  unfold keptMask PageFlags.noExecute PageFlags.mlocked
  rw [BitVec.getLsbD_or, BitVec.getLsbD_or, getLsbD_bit (by decide), getLsbD_bit (by decide)]

/-- The bits of a swap entry. -/
theorem toPteRawKeeping_getLsbD (slot : Nat) (kept : Raw) {i : Nat} (hi : i < 64) :
    (toPteRawKeeping slot kept).getLsbD i =
      (decide (i = 1) || (decide (2 ≤ i) && slot.testBit (i - 2)) ||
        (decide (32 ≤ i) && kept.getLsbD (i - 32) && swapKeptLow.getLsbD (i - 32)) ||
        (kept.getLsbD 63 && decide (i = 43)) || (kept.getLsbD 11 && decide (i = 44))) := by
  unfold toPteRawKeeping toPteRaw swapMarkerBit swapKeptNx swapKeptLocked PageFlags.noExecute PageFlags.mlocked
  rw [and_shiftLeft_bne (by decide), and_shiftLeft_bne (by decide)]
  simp only [BitVec.getLsbD_or, getLsbD_ite, BitVec.getLsbD_shiftLeft, BitVec.getLsbD_and, BitVec.getLsbD_ofNat,
    getLsbD_bit (show 1 < 64 by decide), getLsbD_bit (show 43 < 64 by decide), getLsbD_bit (show 44 < 64 by decide)]
  have hlow : decide (i < 2) = !decide (2 ≤ i) := by
    rw [← decide_not]
    exact decide_eq_decide.mpr (by omega)
  have hmid : decide (i < 32) = !decide (32 ≤ i) := by
    rw [← decide_not]
    exact decide_eq_decide.mpr (by omega)
  have hsmall : decide (i - 2 < 64) = true := decide_eq_true (by omega)
  rw [decide_eq_true hi, hlow, hmid, hsmall]
  simp only [Bool.true_and, Bool.not_not, Bool.and_assoc]

theorem testBit_slot (h : slot < maxSwapSlots) {i : Nat} (hi : 30 ≤ i) : slot.testBit i = false := by
  refine Nat.testBit_lt_two_pow (Nat.lt_of_lt_of_le h ?_)
  exact Nat.pow_le_pow_right (by decide) hi

/-- **A swap entry names its slot.** -/
theorem fromPteRaw_keeping (h : slot < maxSwapSlots) (kept : Raw) :
    fromPteRaw (toPteRawKeeping slot kept) = some slot := by
  have hswap : isSwap (toPteRawKeeping slot kept) = true := by
    refine (isSwap_iff _).mpr ⟨?_, ?_⟩
    · rw [toPteRawKeeping_getLsbD slot kept (by decide)]
      simp
    · rw [toPteRawKeeping_getLsbD slot kept (by decide)]
      simp
  have hslot : (toPteRawKeeping slot kept &&& swapSlotMask) >>> 2 = BitVec.ofNat 64 slot := by
    apply BitVec.eq_of_getLsbD_eq
    intro i hi
    rw [BitVec.getLsbD_ushiftRight, BitVec.getLsbD_and, swapSlotMask_getLsbD, BitVec.getLsbD_ofNat,
      decide_eq_true hi, Bool.true_and]
    by_cases hi30 : i < 30
    · rw [toPteRawKeeping_getLsbD slot kept (by omega)]
      have h1 : ¬2 + i = 1 := by omega
      have h2 : 2 ≤ 2 + i := by omega
      have h32 : ¬32 ≤ 2 + i := by omega
      have h43 : ¬2 + i = 43 := by omega
      have h44 : ¬2 + i = 44 := by omega
      have hlt : 2 + i < 32 := by omega
      simp [h1, h32, h43, h44, hlt]
    · have hhigh : ¬(2 ≤ 2 + i ∧ 2 + i < 32) := by omega
      rw [decide_eq_false hhigh, Bool.and_false, testBit_slot h (by omega)]
  rw [fromPteRaw_eq, if_pos hswap, hslot, BitVec.toNat_ofNat]
  refine congrArg some (Nat.mod_eq_of_lt (Nat.lt_of_lt_of_le h ?_))
  exact Nat.pow_le_pow_right (by decide) (by decide)

/-- **And keeps the flags of its part**, but for those the mask leaves out. -/
theorem keptFlags_keeping (h : slot < maxSwapSlots) (kept : Raw) :
    keptFlags (toPteRawKeeping slot kept) = kept &&& keptMask := by
  have h43 : (toPteRawKeeping slot kept).getLsbD 43 = kept.getLsbD 63 := by
    rw [toPteRawKeeping_getLsbD slot kept (by decide), testBit_slot h (by decide), swapKeptLow_high (by decide)]
    simp
  have h44 : (toPteRawKeeping slot kept).getLsbD 44 = kept.getLsbD 11 := by
    rw [toPteRawKeeping_getLsbD slot kept (by decide), testBit_slot h (by decide), swapKeptLow_high (by decide)]
    simp
  unfold keptFlags swapKeptNx swapKeptLocked PageFlags.noExecute PageFlags.mlocked
  rw [and_shiftLeft_bne (by decide), and_shiftLeft_bne (by decide), h43, h44]
  apply BitVec.eq_of_getLsbD_eq
  intro i hi
  simp only [BitVec.getLsbD_or, getLsbD_ite, BitVec.getLsbD_and, BitVec.getLsbD_ushiftRight, keptMask_getLsbD,
    getLsbD_bit (show 63 < 64 by decide), getLsbD_bit (show 11 < 64 by decide)]
  have hlow : ((toPteRawKeeping slot kept).getLsbD (32 + i) && swapKeptLow.getLsbD i)
      = (kept.getLsbD i && swapKeptLow.getLsbD i) := by
    by_cases hi11 : i < 11
    · rw [toPteRawKeeping_getLsbD slot kept (by omega), testBit_slot h (by omega)]
      have h1 : ¬32 + i = 1 := by omega
      have h43' : ¬32 + i = 43 := by omega
      have h44' : ¬32 + i = 44 := by omega
      simp [h1, h43', h44']
    · rw [swapKeptLow_high (by omega), Bool.and_false, Bool.and_false]
  rw [hlow]
  by_cases h63 : i = 63
  · subst h63
    rw [swapKeptLow_high (by decide)]
    simp
  · by_cases h11 : i = 11
    · subst h11
      rw [swapKeptLow_high (by decide)]
      simp
    · simp [h63, h11]

/-- A part that was not mapped comes back unmapped, and a mapped one mapped. -/
theorem contains_present (flags : Raw) : PageFlags.contains flags PageFlags.present = flags.getLsbD 0 := by
  have hpow : PageFlags.present = BitVec.twoPow 64 0 := rfl
  unfold PageFlags.contains
  rw [hpow, BitVec.and_twoPow]
  cases flags.getLsbD 0 <;> decide

theorem isPresent_pteNew (phys flags : Raw) : isPresent (pteNew phys flags) = PageFlags.contains flags PageFlags.present := by
  rw [isPresent_eq, contains_present, pteNew, BitVec.getLsbD_or, BitVec.getLsbD_and]
  have hmask : physAddrMask.getLsbD 0 = false := rfl
  rw [hmask, Bool.and_false, Bool.false_or]

theorem physAddrMask_and_keptMask : physAddrMask &&& keptMask = 0#64 := by decide

/-- The address of an entry has nothing to do with its protection. -/
theorem pteNew_keptMask (phys flags : Raw) : pteNew phys flags &&& keptMask = flags &&& keptMask := by
  rw [pteNew, BitVec.and_or_distrib_right, BitVec.and_assoc, physAddrMask_and_keptMask, BitVec.and_zero, BitVec.zero_or]

/-- What the processor notes in a present entry is no protection. -/
theorem noted_keptMask (raw : Raw) {bits : Raw} (h : bits &&& keptMask = 0#64) :
    (raw ||| bits) &&& keptMask = raw &&& keptMask := by
  rw [BitVec.and_or_distrib_right, h, BitVec.or_zero]

theorem isPresent_noted (bits : Raw) (h : isPresent raw = true) : isPresent (raw ||| bits) = true := by
  rw [isPresent_eq] at h ⊢
  rw [BitVec.getLsbD_or, h, Bool.true_or]

/-- Whether a part was mapped is among what is kept. -/
theorem keptMask_present (flags : Raw) : PageFlags.contains (flags &&& keptMask) PageFlags.present
    = PageFlags.contains flags PageFlags.present := by
  rw [contains_present, contains_present, BitVec.getLsbD_and]
  have hmask : keptMask.getLsbD 0 = true := rfl
  rw [hmask, Bool.and_true]

end Bits

end SlateOS.Mm.Swap
