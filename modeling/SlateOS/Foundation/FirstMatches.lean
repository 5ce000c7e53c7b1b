/-
# SlateOS.Foundation.FirstMatches -- taking the first matching elements out of a queue

A queue is a list, its front first; `p` says which elements match. `detach` takes the first match out,
`dropFirst` the first `n` of them, and all others keep their places. `filter` is the queue of the matches
alone: what is taken out of the queue comes off its front, and an append puts it at its back.
-/
import Mathlib.Data.List.Basic

namespace SlateOS.Foundation.FirstMatches

universe u

variable {α : Type u} {p q : α → Bool} {n m : Nat} {l r : List α} {a : α}

/-- The first match, and the queue without it. -/
def detach (p : α → Bool) : List α → Option (α × List α)
  | [] => none
  | a :: l => if p a then some (a, l) else (detach p l).map fun x => (x.1, a :: x.2)

/-- The queue without its first `n` matches. -/
def dropFirst (p : α → Bool) : Nat → List α → List α
  | 0, l => l
  | _ + 1, [] => []
  | n + 1, a :: l => if p a then dropFirst p n l else a :: dropFirst p (n + 1) l

/-! ## Dropping -/

@[simp] theorem dropFirst_zero : dropFirst p 0 l = l := by simp [dropFirst]

@[simp] theorem dropFirst_nil : dropFirst p n [] = [] := by
  cases n <;> simp [dropFirst]

theorem dropFirst_cons_of_pos (h : p a = true) : dropFirst p (n + 1) (a :: l) = dropFirst p n l := by
  simp [dropFirst, h]

theorem dropFirst_cons_of_neg (h : p a = false) : dropFirst p n (a :: l) = a :: dropFirst p n l := by
  cases n with
  | zero => simp
  | succ n => simp [dropFirst, h]

theorem filter_dropFirst : (dropFirst p n l).filter p = (l.filter p).drop n := by
  induction l generalizing n with
  | nil => simp
  | cons a l ih =>
    cases n with
    | zero => simp
    | succ n =>
      by_cases h : p a = true
      · rw [dropFirst_cons_of_pos h, ih, List.filter_cons_of_pos h, List.drop_succ_cons]
      · rw [dropFirst_cons_of_neg (by simpa using h), List.filter_cons_of_neg h, ih,
          List.filter_cons_of_neg h]

theorem dropFirst_dropFirst : dropFirst p m (dropFirst p n l) = dropFirst p (n + m) l := by
  induction l generalizing n with
  | nil => simp
  | cons a l ih =>
    cases n with
    | zero => simp
    | succ n =>
      by_cases h : p a = true
      · have hsum : n + 1 + m = n + m + 1 := by omega
        rw [dropFirst_cons_of_pos h, ih, hsum, dropFirst_cons_of_pos h]
      · have h' : p a = false := by simpa using h
        rw [dropFirst_cons_of_neg h', dropFirst_cons_of_neg h', ih, dropFirst_cons_of_neg h']

/-- More than there is takes nothing more. -/
theorem dropFirst_eq_of_le (h : (l.filter p).length ≤ n) :
    dropFirst p n l = dropFirst p (l.filter p).length l := by
  induction l generalizing n with
  | nil => simp
  | cons a l ih =>
    by_cases hp : p a = true
    · rw [List.filter_cons_of_pos hp, List.length_cons] at h ⊢
      obtain ⟨n, rfl⟩ : ∃ k, n = k + 1 := ⟨n - 1, by omega⟩
      rw [dropFirst_cons_of_pos hp, dropFirst_cons_of_pos hp]
      exact ih (by omega)
    · have hp' : p a = false := by simpa using hp
      rw [List.filter_cons_of_neg hp] at h ⊢
      rw [dropFirst_cons_of_neg hp', dropFirst_cons_of_neg hp', ih h]

/-! ## An append behind -/

/-- What stands behind is out of reach: it has no match, or there are enough matches before it. -/
theorem dropFirst_append (h : (∀ a ∈ r, p a = false) ∨ n ≤ (l.filter p).length) :
    dropFirst p n (l ++ r) = dropFirst p n l ++ r := by
  induction l generalizing n with
  | nil =>
    rcases h with h | h
    · rw [List.nil_append, dropFirst_nil, List.nil_append]
      induction r with
      | nil => simp
      | cons b r ih =>
        rw [dropFirst_cons_of_neg (h b (by simp)), ih fun a ha => h a (by simp [ha])]
    · obtain rfl : n = 0 := by simpa using h
      simp
  | cons a l ih =>
    cases n with
    | zero => simp
    | succ n =>
      by_cases hp : p a = true
      · rw [List.cons_append, dropFirst_cons_of_pos hp, dropFirst_cons_of_pos hp]
        apply ih
        exact h.imp_right fun h => by simpa [hp] using h
      · have hp' : p a = false := by simpa using hp
        rw [List.cons_append, dropFirst_cons_of_neg hp', dropFirst_cons_of_neg hp', ih, List.cons_append]
        exact h.imp_right fun h => by simpa [hp] using h

theorem take_filter_append (h : (∀ a ∈ r, p a = false) ∨ n ≤ (l.filter p).length) :
    ((l ++ r).filter p).take n = (l.filter p).take n := by
  rw [List.filter_append]
  rcases h with h | h
  · have hnone : r.filter p = [] := by simpa [List.filter_eq_nil_iff] using h
    rw [hnone, List.append_nil]
  · exact List.take_append_of_le_length h

/-! ## Detaching -/

theorem detach_eq_none : detach p l = none ↔ l.filter p = [] := by
  induction l with
  | nil => simp [detach]
  | cons a l ih =>
    by_cases h : p a = true
    · simp [detach, h]
    · simp only [detach, h, Bool.false_eq_true, if_false, Option.map_eq_none_iff]
      rw [List.filter_cons_of_neg h]
      exact ih

/-- The first match is the front of the matches, and the others stay where they are. -/
theorem detach_eq_some (h : detach p l = some (a, r)) :
    l.filter p = a :: r.filter p ∧ r = dropFirst p 1 l := by
  induction l generalizing r with
  | nil => simp [detach] at h
  | cons b l ih =>
    by_cases hp : p b = true
    · simp only [detach, hp, if_true, Option.some.injEq, Prod.mk.injEq] at h
      obtain ⟨rfl, rfl⟩ := h
      rw [List.filter_cons_of_pos hp, dropFirst_cons_of_pos hp, dropFirst_zero]
      exact ⟨rfl, rfl⟩
    · simp only [detach, hp, Bool.false_eq_true, if_false, Option.map_eq_some_iff, Prod.mk.injEq] at h
      obtain ⟨⟨c, s⟩, hs, rfl, rfl⟩ := h
      obtain ⟨hfilter, hrest⟩ := ih hs
      rw [List.filter_cons_of_neg hp, List.filter_cons_of_neg hp,
        dropFirst_cons_of_neg (by simpa using hp), ← hrest]
      exact ⟨hfilter, rfl⟩

end SlateOS.Foundation.FirstMatches
