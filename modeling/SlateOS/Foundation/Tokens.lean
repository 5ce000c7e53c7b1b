/-
# SlateOS.Foundation.Tokens -- counted objects whose parts are tokens, each with one holder

An object is given out as one token for each of its parts, and a count says how many of its tokens are out.
Tokens are issued all together, pass from holder to holder, and are retired; the last one retired takes the
count to zero, so that an object whose count is zero has no token anywhere.
-/
import Mathlib.Data.Set.Card

namespace SlateOS.Foundation.Tokens

variable {ι κ π : Type*} {holds holds' : ι → κ → π → Prop} {count count' : κ → Nat} {h h' : ι} {k : κ} {i : π}

/-- The parts of an object whose tokens are out. -/
def out (holds : ι → κ → π → Prop) (k : κ) : Set π := {i | ∃ h, holds h k i}

/-- No token has two holders, and the counts are right. -/
structure Ledger (holds : ι → κ → π → Prop) (count : κ → Nat) : Prop where
  unique : ∀ h h' k i, holds h k i → holds h' k i → h = h'
  count_eq : ∀ k, count k = (out holds k).ncard

namespace Ledger

theorem start (hholds : ∀ h k i, ¬holds h k i) (hcount : ∀ k, count k = 0) : Ledger holds count := by
  refine ⟨fun h h' k i hh => absurd hh (hholds h k i), fun k => ?_⟩
  have hout : out holds k = ∅ := Set.eq_empty_iff_forall_notMem.mpr fun i ⟨h, hh⟩ => hholds h k i hh
  rw [hcount, hout, Set.ncard_empty]

/-- The same holders under another description. -/
theorem congr (hl : Ledger holds count) (hholds : ∀ h k i, holds' h k i ↔ holds h k i) : Ledger holds' count := by
  obtain rfl : holds' = holds := funext fun h => funext fun k => funext fun i => propext (hholds h k i)
  exact hl

/-- Where all tokens of an object lie at places, each place for one part, the count is the number of places. -/
theorem count_eq_places {ρ : Type*} {names : ρ → Prop} (hl : Ledger holds count) (place : ρ → ι) (part : ρ → π)
    (hplace : Function.Injective place) (hholds : ∀ g i, holds g k i ↔ ∃ q, g = place q ∧ names q ∧ i = part q) :
    count k = {q | names q}.ncard := by
  rw [hl.count_eq]
  symm
  refine Set.ncard_congr (fun q _ => part q) (fun q hq => ?_) (fun q q' hq hq' heq => ?_) fun i ⟨g, hg⟩ => ?_
  · exact ⟨place q, (hholds _ _).mpr ⟨q, rfl, hq, rfl⟩⟩
  · have hfirst := (hholds (place q) (part q)).mpr ⟨q, rfl, hq, rfl⟩
    have hsecond := (hholds (place q') (part q)).mpr ⟨q', rfl, hq', heq⟩
    exact hplace (hl.unique _ _ _ _ hfirst hsecond)
  · obtain ⟨q, -, hq, rfl⟩ := (hholds g i).mp hg
    exact ⟨q, hq, rfl⟩

/-- Some tokens of an object pass to other holders. -/
theorem pass {S : Set π} (hl : Ledger holds count) (target : π → ι) (hS : ∀ i ∈ S, ∃ g, holds g k i)
    (hholds : ∀ g k' i, holds' g k' i ↔ (k' = k ∧ i ∈ S ∧ g = target i) ∨ (¬(k' = k ∧ i ∈ S) ∧ holds g k' i)) :
    Ledger holds' count := by
  refine ⟨fun g g' k' i hg hg' => ?_, fun k' => ?_⟩
  · rw [hholds] at hg hg'
    obtain ⟨hk, hi, rfl⟩ | ⟨hnot, hg⟩ := hg
    · obtain ⟨-, -, rfl⟩ | ⟨hnot, -⟩ := hg'
      · rfl
      · exact absurd ⟨hk, hi⟩ hnot
    · obtain ⟨hk, hi, -⟩ | ⟨-, hg'⟩ := hg'
      · exact absurd ⟨hk, hi⟩ hnot
      · exact hl.unique g g' k' i hg hg'
  · have hout : out holds' k' = out holds k' := by
      ext i
      constructor
      · rintro ⟨g, hg⟩
        obtain ⟨rfl, hi, -⟩ | ⟨-, hg⟩ := (hholds g k' i).mp hg
        · exact hS i hi
        · exact ⟨g, hg⟩
      · rintro ⟨g, hg⟩
        by_cases hin : k' = k ∧ i ∈ S
        · exact ⟨target i, (hholds _ _ _).mpr (.inl ⟨hin.1, hin.2, rfl⟩)⟩
        · exact ⟨g, (hholds _ _ _).mpr (.inr ⟨hin, hg⟩)⟩
    rw [hout, hl.count_eq]

variable [Finite π]

theorem not_holds (hl : Ledger holds count) (hzero : count k = 0) : ¬holds h k i := by
  intro hh
  have hcard := hl.count_eq k
  rw [hzero] at hcard
  have hempty := (Set.ncard_eq_zero (Set.toFinite _)).mp hcard.symm
  exact Set.eq_empty_iff_forall_notMem.mp hempty i ⟨h, hh⟩

theorem count_pos (hl : Ledger holds count) (hh : holds h k i) : count k ≠ 0 :=
  fun hzero => hl.not_holds hzero hh

/-- An object without tokens is given out whole. -/
theorem issue [DecidableEq κ] (hl : Ledger holds count) (hzero : count k = 0)
    (hholds : ∀ g k' i, holds' g k' i ↔ (k' = k ∧ g = h) ∨ holds g k' i)
    (hcount : ∀ k', count' k' = if k' = k then Nat.card π else count k') : Ledger holds' count' := by
  refine ⟨fun g g' k' i hg hg' => ?_, fun k' => ?_⟩
  · rw [hholds] at hg hg'
    obtain ⟨rfl, rfl⟩ | hg := hg
    · obtain ⟨-, rfl⟩ | hg' := hg'
      · rfl
      · exact absurd hg' (hl.not_holds hzero)
    · obtain ⟨rfl, -⟩ | hg' := hg'
      · exact absurd hg (hl.not_holds hzero)
      · exact hl.unique g g' k' i hg hg'
  · rw [hcount]
    by_cases hk : k' = k
    · have hout : out holds' k' = Set.univ :=
        Set.eq_univ_of_forall fun i => ⟨h, (hholds h k' i).mpr (.inl ⟨hk, rfl⟩)⟩
      rw [if_pos hk, hout, Set.ncard_univ]
    · have hout : out holds' k' = out holds k' := by
        ext i
        refine exists_congr fun g => (hholds g k' i).trans (or_iff_right fun hin => hk hin.1)
      rw [if_neg hk, hout, hl.count_eq]

/-- Some tokens of an object are retired. -/
theorem retire [DecidableEq κ] {S : Finset π} (hl : Ledger holds count) (hS : ∀ i ∈ S, ∃ g, holds g k i)
    (hholds : ∀ g k' i, holds' g k' i ↔ ¬(k' = k ∧ i ∈ S) ∧ holds g k' i)
    (hcount : ∀ k', count' k' = if k' = k then count k - S.card else count k') : Ledger holds' count' := by
  refine ⟨fun g g' k' i hg hg' => ?_, fun k' => ?_⟩
  · rw [hholds] at hg hg'
    exact hl.unique g g' k' i hg.2 hg'.2
  · rw [hcount]
    by_cases hk : k' = k
    · subst hk
      have hout : out holds' k' = out holds k' \ (S : Set π) := by
        ext i
        constructor
        · rintro ⟨g, hg⟩
          obtain ⟨hnot, hg⟩ := (hholds g k' i).mp hg
          exact ⟨⟨g, hg⟩, fun hi => hnot ⟨rfl, hi⟩⟩
        · rintro ⟨⟨g, hg⟩, hi⟩
          exact ⟨g, (hholds g k' i).mpr ⟨fun hin => hi hin.2, hg⟩⟩
      have hsub : (S : Set π) ⊆ out holds k' := fun i hi => hS i hi
      rw [if_pos rfl, hout, Set.ncard_sdiff hsub (Set.toFinite _), hl.count_eq, Set.ncard_coe_finset]
    · have hout : out holds' k' = out holds k' := by
        ext i
        refine exists_congr fun g => ?_
        rw [hholds]
        exact ⟨fun hg => hg.2, fun hg => ⟨fun hin => hk hin.1, hg⟩⟩
      rw [if_neg hk, hout, hl.count_eq]

end Ledger

end SlateOS.Foundation.Tokens
