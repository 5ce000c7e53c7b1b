/-
# SlateOS.Foundation.BinarySearch -- binary search by a key

The search of the standard library's slices: `size` elements from `base` on are in question, and every
round halves them without looking for an early hit. On a list that is sorted by the key a hit is an
element with that key, and a miss splits the list into the elements before and after it.
-/
import Mathlib.Data.List.TakeDrop
import Mathlib.Order.Lattice

namespace SlateOS.Foundation.BinarySearch

variable {α K : Type*} [LinearOrder K] (key : α → K) (xs : List α) (b : K)

/-- The loop: where the search ends up. -/
def narrow (size base : Nat) : Nat :=
  if 1 < size then
    let half := size / 2
    let mid := base + half
    let base' :=
      match xs[mid]? with
      | some v => if b < key v then base else mid
      | none => base
    narrow (size - half) base'
  else base
termination_by size
decreasing_by omega

/-- `binary_search_by_key`: where an element with the key is, or where one would be inserted. -/
def binarySearchByKey : Except Nat Nat :=
  let base := narrow key xs b xs.length 0
  match xs[base]? with
  | none => .error 0
  | some v => if key v = b then .ok base else .error (if key v < b then base + 1 else base)

variable {key xs b} {size base : Nat}

/-- An insertion at a place of the list. -/
theorem insertIdx_eq (a : α) {i : Nat} (h : i ≤ xs.length) : xs.insertIdx i a = xs.take i ++ a :: xs.drop i := by
  induction i generalizing xs with
  | zero => rfl
  | succ i ih =>
    cases xs with
    | nil => exact absurd h (Nat.not_succ_le_zero i)
    | cons x xs =>
      rw [List.insertIdx_succ_cons, ih (Nat.le_of_succ_le_succ h)]
      rfl

/-- Elements of a list sorted by the key, from the place of one of them on. -/
theorem key_le_of_mem_drop (hs : xs.Pairwise (key · ≤ key ·)) {i : Nat} {v w : α} (hv : xs[i]? = some v)
    (hw : w ∈ xs.drop i) : key v ≤ key w := by
  obtain ⟨hi, rfl⟩ := List.getElem?_eq_some_iff.1 hv
  rw [List.drop_eq_getElem_cons hi, List.mem_cons] at hw
  obtain rfl | hw := hw
  · exact le_rfl
  · have hsub : (xs[i] :: xs.drop (i + 1)).Pairwise (key · ≤ key ·) := by
      rw [← List.drop_eq_getElem_cons hi]
      exact hs.sublist (List.drop_sublist i xs)
    exact (List.pairwise_cons.1 hsub).1 w hw

/-- Elements of a list sorted by the key, up to the place of one of them. -/
theorem key_le_of_mem_take (hs : xs.Pairwise (key · ≤ key ·)) {i : Nat} {v w : α} (hv : xs[i]? = some v)
    (hw : w ∈ xs.take (i + 1)) : key w ≤ key v := by
  obtain ⟨hi, rfl⟩ := List.getElem?_eq_some_iff.1 hv
  rw [List.take_succ_eq_append_getElem hi, List.mem_append, List.mem_singleton] at hw
  obtain hw | rfl := hw
  · have hsub : (xs.take i ++ [xs[i]]).Pairwise (key · ≤ key ·) := by
      rw [← List.take_succ_eq_append_getElem hi]
      exact hs.sublist (List.take_sublist _ xs)
    exact (List.pairwise_append.1 hsub).2.2 w hw _ (List.mem_singleton_self _)
  · exact le_rfl

/-- What the loop keeps: the element at `base` is not past the key unless `base` is the first place, and
everything from `base + size` on is past it. -/
structure Bracket (key : α → K) (xs : List α) (b : K) (size base : Nat) : Prop where
  within : base + size ≤ xs.length
  pos : 0 < size
  low : base = 0 ∨ ∃ v, xs[base]? = some v ∧ key v ≤ b
  high : ∀ w ∈ xs.drop (base + size), b < key w

theorem Bracket.narrow (hs : xs.Pairwise (key · ≤ key ·)) (h : Bracket key xs b size base) :
    Bracket key xs b 1 (narrow key xs b size base) := by
  fun_induction BinarySearch.narrow key xs b size base with
  | case1 size base hlt half mid base' ih =>
    have hhalf : half = size / 2 := rfl
    have hmid : mid < xs.length := by
      have := h.within
      omega
    have hget : xs[mid]? = some xs[mid] := List.getElem?_eq_getElem hmid
    apply ih
    by_cases hpast : b < key xs[mid]
    · -- the middle is past the key, and so is everything after it
      have hbase : base' = base := by simp [base', hget, hpast]
      rw [hbase]
      refine ⟨by have := h.within; omega, by omega, h.low, fun w hw => ?_⟩
      have hle : mid ≤ base + (size - half) := by omega
      exact hpast.trans_le (key_le_of_mem_drop hs hget (List.drop_subset_drop_left xs hle hw))
    · -- the middle becomes the base, and the bracket still ends where it did
      have hbase : base' = mid := by simp [base', hget, hpast]
      rw [hbase]
      refine ⟨by have := h.within; omega, by omega, .inr ⟨_, hget, not_lt.1 hpast⟩, ?_⟩
      have hsum : mid + (size - half) = base + size := by omega
      rw [hsum]
      exact h.high
  | case2 size base hle =>
    have hone : size = 1 := by
      have := h.pos
      omega
    exact hone ▸ h

theorem Bracket.start (hne : xs ≠ []) : Bracket key xs b xs.length 0 :=
  ⟨by omega, List.length_pos_iff.2 hne, .inl rfl, by simp⟩

/-- A hit is an element with the key. -/
theorem binarySearchByKey_ok {i : Nat} (h : binarySearchByKey key xs b = .ok i) :
    ∃ v, xs[i]? = some v ∧ key v = b := by
  rw [binarySearchByKey] at h
  split at h
  · cases h
  · next v hv =>
      split at h
      · next heq => exact ⟨v, Except.ok.inj h ▸ hv, heq⟩
      · cases h

/-- **A miss splits the list**: everything before the place is below the key, everything from it on above. -/
theorem binarySearchByKey_error (hs : xs.Pairwise (key · ≤ key ·)) {i : Nat}
    (h : binarySearchByKey key xs b = .error i) :
    i ≤ xs.length ∧ (∀ w ∈ xs.take i, key w < b) ∧ ∀ w ∈ xs.drop i, b < key w := by
  rcases eq_or_ne xs [] with rfl | hne
  · have hzero : i = 0 := by
      rw [binarySearchByKey] at h
      exact (Except.error.inj h).symm
    subst hzero
    exact ⟨Nat.zero_le _, by simp, by simp⟩
  have hend := (Bracket.start (b := b) hne : Bracket key xs b xs.length 0).narrow hs
  rw [binarySearchByKey] at h
  generalize BinarySearch.narrow key xs b xs.length 0 = n at hend h
  obtain ⟨v, hv⟩ : ∃ v, xs[n]? = some v := ⟨_, List.getElem?_eq_getElem hend.within⟩
  rw [hv] at h
  dsimp only at h
  split at h
  · cases h
  next hdiff =>
  have hi := Except.error.inj h
  split at hi
  · next hbelow =>
      subst hi
      refine ⟨hend.within, fun w hw => ?_, hend.high⟩
      exact (key_le_of_mem_take hs hv hw).trans_lt hbelow
  · next hnot =>
      have hpast : b < key v := lt_of_le_of_ne (not_lt.1 hnot) (Ne.symm hdiff)
      -- past the key with nothing before it: the place is the first
      obtain hzero | ⟨w, hw, hle⟩ := hend.low
      · rw [hzero] at hv hi
        subst hi
        refine ⟨Nat.zero_le _, by simp, fun w hw => ?_⟩
        exact hpast.trans_le (key_le_of_mem_drop hs hv hw)
      · rw [hv] at hw
        exact absurd (Option.some.inj hw ▸ hle) (not_le.2 hpast)

end SlateOS.Foundation.BinarySearch
