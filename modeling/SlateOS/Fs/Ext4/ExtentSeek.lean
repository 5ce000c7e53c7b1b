/-
# SlateOS.Fs.Ext4.ExtentSeek -- the next data or the next hole

`seek_data_hole` goes from block to block: over a written extent when a hole is wanted, to the next
written extent when data is. No round passes a place that is wanted, and every round that does not
answer comes to a later block, so that the loop ends.
-/
import SlateOS.Fs.Ext4.ExtentClassify
import Mathlib.Data.List.TakeWhile
import Mathlib.Order.Bounds.Basic

namespace SlateOS.Fs.Ext4

open Foundation.MachineInt Kernel

namespace ExtentMap

open Extent

/-- The block holds data: it is mapped, to an initialized block. -/
def Written (map : ExtentMap) (b : Nat) : Prop := ∃ phys, lookup map b = some (phys, false)

/-- The offset is what is wanted: data below the size, or a hole, with the end of the file for one. -/
def Wanted (map : ExtentMap) (blockSize size : Nat) (wantData : Bool) (p : Nat) : Prop :=
  if wantData then p < size ∧ Written map (p / blockSize)
  else p = size ∨ p < size ∧ ¬ Written map (p / blockSize)

/-- The answer is the least wanted offset from `offset` on, and there is none only when there is no such
offset. -/
def Answers (map : ExtentMap) (blockSize size offset : Nat) (wantData : Bool) : Option Nat → Prop
  | some p => IsLeast {p | offset ≤ p ∧ Wanted map blockSize size wantData p} p
  | none => ∀ p, offset ≤ p → ¬ Wanted map blockSize size wantData p

variable {map : ExtentMap} {e : Extent} {b : Nat}

/-! ## Looking at a block -/

theorem written_iff (h : Valid map) :
    Written map b ↔ ∃ e ∈ map, e.Covers b ∧ e.unwritten = false := by
  unfold Written
  simp only [lookup_eq_some_iff h]
  constructor
  · rintro ⟨phys, e, he, hin, hv⟩
    exact ⟨e, he, hin, (Prod.mk.inj hv).2.symm⟩
  · rintro ⟨e, he, hin, hkind⟩
    refine ⟨(e.value b).1, e, he, hin, ?_⟩
    rw [← hkind]
    rfl

/-- The extents left are those that end after the block. -/
theorem mem_dropWhile_iff (h : Valid map) :
    e ∈ (map.dropWhile fun e => e.theEnd ≤ b) ↔ e ∈ map ∧ b < e.theEnd := by
  constructor
  · intro he
    exact ⟨(List.dropWhile_suffix _).subset he, h.dropWhile_after b e he⟩
  · rintro ⟨he, hend⟩
    rw [← List.takeWhile_append_dropWhile (p := fun e : Extent => decide (e.theEnd ≤ b)) (l := map)] at he
    refine (List.mem_append.1 he).resolve_left fun htake => ?_
    have hle := List.mem_takeWhile_imp htake
    have := of_decide_eq_true hle
    omega

/-- `in_data` finds the written extent of a block. -/
theorem inData_some (h : Valid map) (he : inData map b = some e) :
    b < e.theEnd ∧ ∀ c, b ≤ c → c < e.theEnd → Written map c := by
  obtain ⟨hhead, hin⟩ := Option.filter_eq_some_iff.1 he
  obtain ⟨hstart, hkind⟩ := of_decide_eq_true hin
  obtain ⟨hmem, hend⟩ := (mem_dropWhile_iff h).1 (List.mem_of_mem_head? hhead)
  refine ⟨hend, fun c hc hlt => (written_iff h).2 ⟨e, hmem, ⟨by omega, ?_⟩, hkind⟩⟩
  rwa [theEnd_eq (h.sound e hmem).range] at hlt

theorem inData_none (hb : inData map b = none) : ¬ Written map b := by
  rintro ⟨phys, hphys⟩
  unfold lookup at hphys
  unfold inData at hb
  cases hhead : (map.dropWhile fun e => e.theEnd ≤ b).head? with
  | none =>
    rw [hhead] at hphys
    cases hphys
  | some e =>
    rw [hhead] at hphys hb
    simp only at hphys
    split at hphys
    · next hstart =>
      have hkind := (Prod.mk.inj (Option.some.inj hphys)).2
      rw [Option.filter_some, if_pos (by simp [hstart, hkind])] at hb
      cases hb
    · cases hphys

/-- Behind a block without data, the next written extent begins with the next data. -/
theorem nextWritten_some (h : Valid map) (hb : inData map b = none) (he : nextWritten map b = some e) :
    b < e.logical ∧ ∀ c, b ≤ c → c < e.logical → ¬ Written map c := by
  obtain ⟨hkind, before, later, hrest, hfirst⟩ := List.find?_eq_some_iff_append.1 he
  have hunwritten : e.unwritten = false := by simpa using hkind
  have hmem : e ∈ map.dropWhile fun e => e.theEnd ≤ b := by
    rw [hrest]
    exact List.mem_append_right _ List.mem_cons_self
  obtain ⟨hmap, hend⟩ := (mem_dropWhile_iff h).1 hmem
  constructor
  · by_contra hstart
    refine inData_none hb ((written_iff h).2 ⟨e, hmap, ⟨by omega, ?_⟩, hunwritten⟩)
    rwa [theEnd_eq (h.sound e hmap).range] at hend
  · intro c hc hlt hwritten
    obtain ⟨f, hf, hin, hfkind⟩ := (written_iff h).1 hwritten
    have hfend : b < f.theEnd := by
      rw [theEnd_eq (h.sound f hf).range]
      exact lt_of_le_of_lt hc hin.2
    have hleft := (mem_dropWhile_iff h).2 ⟨hf, hfend⟩
    have hvalid := h.of_suffix (List.dropWhile_suffix fun e : Extent => decide (e.theEnd ≤ b))
    rw [hrest] at hleft hvalid
    -- the extents before the first written one are unwritten, the later ones begin behind it
    rcases List.mem_append.1 hleft with hbefore | hlater
    · have hnot := hfirst f hbefore
      simp [hfkind] at hnot
    · have hordered := (List.pairwise_append.1 hvalid.ordered).2.1
      have hstart := hin.1
      rcases List.mem_cons.1 hlater with rfl | hlater
      · omega
      · have hef : e.logical + e.len ≤ f.logical := (List.pairwise_cons.1 hordered).1 f hlater
        omega

theorem nextWritten_none (h : Valid map) (hb : nextWritten map b = none) {c : Nat} (hc : b ≤ c) :
    ¬ Written map c := by
  intro hwritten
  obtain ⟨f, hf, hin, hkind⟩ := (written_iff h).1 hwritten
  have hend : b < f.theEnd := by
    rw [theEnd_eq (h.sound f hf).range]
    exact lt_of_le_of_lt hc hin.2
  have hnot := List.find?_eq_none.1 hb f ((mem_dropWhile_iff h).2 ⟨hf, hend⟩)
  simp [hkind] at hnot

/-! ## The loop -/

section

variable {blockSize size offset : Nat} {wantData : Bool}

/-- Nothing that is wanted lies below the block, from `offset` on. -/
def Passed (map : ExtentMap) (blockSize size offset : Nat) (wantData : Bool) (block : Nat) : Prop :=
  ∀ p, offset ≤ p → p < size → p / blockSize < block → ¬ Wanted map blockSize size wantData p

variable {block : Nat}

/-- The place that the loop answers at a block. -/
theorem place_spec (hpos : 0 < blockSize) (hsize : size < 2 ^ 64) (hoffset : offset < size) (hlast : block ≤ (size - 1) / blockSize) (hfirst : offset / blockSize ≤ block) :
    ∃ p, max (saturatingMul 64 block blockSize) offset = p ∧ p < size ∧ p / blockSize = block ∧
      ∀ q, offset ≤ q → block ≤ q / blockSize → p ≤ q := by
  have hstart : block * blockSize ≤ size - 1 := by
    exact (Nat.le_div_iff_mul_le hpos).1 hlast
  have hmax : maxVal 64 = 2 ^ 64 - 1 := rfl
  have hmul : saturatingMul 64 block blockSize = block * blockSize :=
    Nat.min_eq_left (by omega)
  refine ⟨_, rfl, ?_, ?_, fun q hq hblock => ?_⟩
  · rw [hmul]
    omega
  · rw [hmul]
    rcases Nat.le_total (block * blockSize) offset with h | h
    · rw [Nat.max_eq_right h]
      have := (Nat.le_div_iff_mul_le hpos).2 h
      omega
    · rw [Nat.max_eq_left h]
      exact Nat.mul_div_cancel block hpos
  · rw [hmul]
    have := (Nat.le_div_iff_mul_le hpos).1 hblock
    omega

/-- A later block, with nothing wanted in the blocks between. -/
theorem Passed.advance {block block' : Nat}
    (hpassed : Passed map blockSize size offset wantData block)
    (hbetween : ∀ c, block ≤ c → c < block' → (Written map c ↔ wantData = false)) :
    Passed map blockSize size offset wantData block' := by
  intro p hp hsize hlt
  rcases Nat.lt_or_ge (p / blockSize) block with hbefore | hafter
  · exact hpassed p hp hsize hbefore
  · have hblock := hbetween (p / blockSize) hafter hlt
    unfold Wanted
    cases wantData with
    | true => simp [hblock]
    | false =>
      simp only [Bool.false_eq_true, if_false, hblock, not_true, and_false, or_false]
      omega

/-- A block that is what is wanted has the answer. -/
theorem answers_place (hpos : 0 < blockSize) (hsize : size < 2 ^ 64) (hoffset : offset < size) (hlast : block ≤ (size - 1) / blockSize) (hfirst : offset / blockSize ≤ block)
    (hpassed : Passed map blockSize size offset wantData block)
    (hblock : Written map block ↔ wantData = true) :
    max (saturatingMul 64 block blockSize) offset < size ∧
      Answers map blockSize size offset wantData
        (some (max (saturatingMul 64 block blockSize) offset)) := by
  obtain ⟨p, hplace, hlt, hin, hleast⟩ := place_spec hpos hsize hoffset hlast hfirst
  rw [hplace]
  refine ⟨hlt, ⟨?_, ?_⟩, fun q hq => ?_⟩
  · exact hplace ▸ Nat.le_max_right _ _
  · unfold Wanted
    rw [hin, hblock]
    cases wantData with
    | true => exact ⟨hlt, rfl⟩
    | false => exact .inr ⟨hlt, Bool.false_ne_true⟩
  · obtain ⟨hqoffset, hqwanted⟩ := hq
    rcases Nat.lt_or_ge q size with hqsize | hqsize
    · refine hleast q hqoffset ?_
      by_contra hbefore
      exact hpassed q hqoffset hqsize (by omega) hqwanted
    · exact hlt.le.trans hqsize

/-- Past the last block there is the end of the file. -/
theorem answers_end (hoffset : offset < size)
    (hlast : (size - 1) / blockSize < block)
    (hpassed : Passed map blockSize size offset wantData block) :
    Answers map blockSize size offset wantData (if wantData then none else some size) := by
  have hnone : ∀ p, offset ≤ p → p < size → ¬ Wanted map blockSize size wantData p := by
    intro p hp hsize
    refine hpassed p hp hsize (lt_of_le_of_lt ?_ hlast)
    exact Nat.div_le_div_right (by omega)
  cases wantData with
  | true =>
    intro p hp hwanted
    exact hnone p hp hwanted.1 hwanted
  | false =>
    refine ⟨⟨hoffset.le, .inl rfl⟩, fun q hq => ?_⟩
    by_contra hlt
    exact hnone q hq.1 (by omega) hq.2

/-- From a block on the loop ends, after `rounds` rounds at most, with the answer. -/
def Ends (map : ExtentMap) (blockSize size offset : Nat) (wantData : Bool) (rounds block : Nat) : Prop :=
  ∃ r, (∀ fuel, rounds ≤ fuel →
      seekLoop map blockSize size offset wantData ((size - 1) / blockSize) fuel block = some r) ∧
    Answers map blockSize size offset wantData r

variable {rounds : Nat}

/-- A round that answers. -/
theorem ends_now {r : Option Nat}
    (hloop : ∀ fuel, seekLoop map blockSize size offset wantData ((size - 1) / blockSize) (fuel + 1) block =
      some r) (hr : Answers map blockSize size offset wantData r) :
    Ends map blockSize size offset wantData (rounds + 1) block := by
  refine ⟨r, fun fuel hfuel => ?_, hr⟩
  obtain ⟨fuel, rfl⟩ : ∃ k, fuel = k + 1 := ⟨fuel - 1, by omega⟩
  exact hloop fuel

/-- A round that goes on. -/
theorem ends_later {rounds block block' : Nat}
    (hloop : ∀ fuel, seekLoop map blockSize size offset wantData ((size - 1) / blockSize) (fuel + 1) block =
      seekLoop map blockSize size offset wantData ((size - 1) / blockSize) fuel block')
    (hends : Ends map blockSize size offset wantData rounds block') :
    Ends map blockSize size offset wantData (rounds + 1) block := by
  obtain ⟨r, hfuel, hr⟩ := hends
  refine ⟨r, fun fuel hlt => ?_, hr⟩
  obtain ⟨fuel, rfl⟩ : ∃ k, fuel = k + 1 := ⟨fuel - 1, by omega⟩
  rw [hloop]
  exact hfuel fuel (by omega)

theorem ends_past (hoffset : offset < size)
    (hlast : (size - 1) / blockSize < block)
    (hpassed : Passed map blockSize size offset wantData block) :
    Ends map blockSize size offset wantData (rounds + 1) block := by
  apply ends_now (fun fuel => ?_) (answers_end hoffset hlast hpassed)
  rw [seekLoop, if_pos hlast]

/-- One round inside the file, when every later block ends in one round less. -/
theorem ends_round (h : Valid map) (hpos : 0 < blockSize) (hsize : size < 2 ^ 64)
    (hoffset : offset < size) (hfirst : offset / blockSize ≤ block)
    (hlast : block ≤ (size - 1) / blockSize) (hpassed : Passed map blockSize size offset wantData block)
    (hlater : ∀ block', block < block' → Passed map blockSize size offset wantData block' →
      Ends map blockSize size offset wantData rounds block') :
    Ends map blockSize size offset wantData (rounds + 1) block := by
  cases hdata : inData map block with
  | some e =>
    obtain ⟨hend, hwritten⟩ := inData_some h hdata
    cases wantData with
    | true =>
      -- data is wanted, and the block is in it
      have hblock := hwritten block (Nat.le_refl _) hend
      apply ends_now (fun fuel => ?_)
        (answers_place hpos hsize hoffset hlast hfirst hpassed (by simp [hblock])).2
      rw [seekLoop, if_neg (by omega)]
      simp only [hdata, if_true]
    | false =>
      -- a hole is wanted: none before the end of this extent
      apply ends_later (fun fuel => ?_) (hlater e.theEnd hend (hpassed.advance fun c hc hlt => ?_))
      · rw [seekLoop, if_neg (by omega)]
        simp only [hdata, Bool.false_eq_true, if_false]
      · simp [hwritten c hc hlt]
  | none =>
    have hblock := inData_none hdata
    cases wantData with
    | true =>
      cases hwritten : nextWritten map block with
      | some e =>
        obtain ⟨hlt, hbetween⟩ := nextWritten_some h hdata hwritten
        apply ends_later (fun fuel => ?_) (hlater e.logical hlt (hpassed.advance fun c hc hlt => ?_))
        · rw [seekLoop, if_neg (by omega)]
          simp only [hdata, hwritten, if_true, Nat.max_eq_left hlt.le]
        · simp [hbetween c hc hlt]
      | none =>
        -- no written extent follows: there is no data behind `block`, and none before it
        have hnone : Answers map blockSize size offset true none := by
          intro p hp hwanted
          rcases Nat.lt_or_ge (p / blockSize) block with hbefore | hafter
          · exact hpassed p hp hwanted.1 hbefore hwanted
          · exact nextWritten_none h hwritten hafter hwanted.2
        apply ends_now (fun fuel => ?_) hnone
        rw [seekLoop, if_neg (by omega)]
        simp only [hdata, hwritten, if_true]
    | false =>
      obtain ⟨hlt, hr⟩ := answers_place hpos hsize hoffset hlast hfirst hpassed (by simp [hblock])
      apply ends_now (fun fuel => ?_) hr
      rw [seekLoop, if_neg (by omega)]
      simp only [hdata, Bool.false_eq_true, if_false, Nat.min_eq_left hlt.le]

/-- The loop ends, with the answer, in as many rounds as there are blocks left. -/
theorem seekLoop_spec (h : Valid map) (hpos : 0 < blockSize) (hsize : size < 2 ^ 64)
    (hoffset : offset < size) (rounds : Nat) : ∀ block, offset / blockSize ≤ block →
    (size - 1) / blockSize < block + rounds → Passed map blockSize size offset wantData block →
    Ends map blockSize size offset wantData (rounds + 1) block := by
  induction rounds with
  | zero =>
    intro block _ hlast hpassed
    exact ends_past hoffset hlast hpassed
  | succ rounds ih =>
    intro block hfirst hlast hpassed
    rcases Nat.lt_or_ge ((size - 1) / blockSize) block with hover | hin
    · exact ends_past hoffset hover hpassed
    · apply ends_round h hpos hsize hoffset hfirst hin hpassed
      intro block' hlt hpassed'
      exact ih block' (by omega) (by omega) hpassed'

/-- On a valid map the search ends, for an offset below the size with the least wanted offset from it on
or, when there is none, with that answer; at or past the end of the file it has no answer. -/
theorem seek_least (hphys : ∀ e ∈ map, e.phys < 2 ^ 64) (h : validate map = .ok ())
    (hsize : size < 2 ^ 64) :
    ∃ n r, (∀ fuel, n ≤ fuel → seekDataHole map blockSize size offset wantData fuel = some r) ∧
      (offset < size → 0 < blockSize → Answers map blockSize size offset wantData r) ∧
      (¬ (offset < size ∧ 0 < blockSize) → r = none) := by
  by_cases hguard : offset ≥ size ∨ blockSize = 0
  · refine ⟨0, none, fun fuel _ => ?_, fun hlt hpos => ?_, fun _ => rfl⟩
    · rw [seekDataHole, if_pos hguard]
    · omega
  · have hbegin : Passed map blockSize size offset wantData (offset / blockSize) := by
      intro p hp _ hlt
      have hle : offset / blockSize ≤ p / blockSize := Nat.div_le_div_right hp
      omega
    obtain ⟨r, hloop, hr⟩ := seekLoop_spec ((validate_ok_iff hphys).1 h) (by omega) hsize (by omega)
      ((size - 1) / blockSize + 1) (offset / blockSize) (Nat.le_refl _)
      (Nat.lt_of_lt_of_le (Nat.lt_succ_self _) (Nat.le_add_left _ _)) hbegin
    refine ⟨(size - 1) / blockSize + 2, r, fun fuel hfuel => ?_, fun _ _ => hr, fun hno => ?_⟩
    · rw [seekDataHole, if_neg hguard]
      exact hloop fuel (by omega)
    · omega

end

/-- The search for a hole in a file of nine blocks, from inside its data. -/
theorem seek_least_small :
    ∃ n r, ∀ fuel, n ≤ fuel →
      seekDataHole [⟨2, 3, 100, false⟩, ⟨5, 2, 200, true⟩] 4096 36864 8202 false fuel = some r :=
  have hseek := @seek_least [⟨2, 3, 100, false⟩, ⟨5, 2, 200, true⟩] 4096 36864 8202 false (by decide)
    rfl (by decide)
  hseek.imp fun _ h => h.imp fun _ h => h.1

/-- At the end of the file there is a hole, the end itself, and the search for it has no answer. -/
theorem seek_hole_at_end :
    IsLeast {p | 4096 ≤ p ∧ Wanted [] 4096 4096 false p} 4096 ∧
      ∀ fuel, seekDataHole [] 4096 4096 4096 false fuel = some none :=
  ⟨⟨⟨Nat.le_refl _, .inl rfl⟩, fun _ hp => hp.1⟩, fun _ => rfl⟩

end ExtentMap

end SlateOS.Fs.Ext4
