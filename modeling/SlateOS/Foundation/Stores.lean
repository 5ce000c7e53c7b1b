/-
# SlateOS.Foundation.Stores -- stacks of fixed capacity, in a row

An array with a fill count, used from its end: `push` refuses when the array is full and `pop` when
it is empty. The bound is a field, so no operation can build an overfull stack. `items` lists the
filled part, the first slot first. Where several such stores stand in a row, replacing one exchanges
its content and leaves the rest.
-/
import Mathlib.Data.List.Perm.Basic

namespace SlateOS.Foundation.Stores

universe u

/-- At most `cap` items. -/
structure BoundedStack (α : Type u) (cap : Nat) where
  items : List α
  bounded : items.length ≤ cap

variable {α : Type u} {cap : Nat}

namespace BoundedStack

/-- The stack without items. -/
def empty : BoundedStack α cap := ⟨[], Nat.zero_le _⟩

/-- Every slot is filled. -/
def isFull (s : BoundedStack α cap) : Bool := decide (s.items.length ≥ cap)

/-- Fill the next slot; `false`, and no change, when there is none. -/
def push (s : BoundedStack α cap) (x : α) : Bool × BoundedStack α cap :=
  if h : s.items.length < cap then (true, ⟨s.items ++ [x], by simpa using Nat.succ_le_of_lt h⟩) else (false, s)

/-- Take the item of the last filled slot. -/
def pop (s : BoundedStack α cap) : Option (α × BoundedStack α cap) :=
  if h : s.items = [] then none
  else some (s.items.getLast h, ⟨s.items.dropLast, by
    have := s.bounded
    rw [List.length_dropLast]
    omega⟩)

@[simp] theorem empty_items : (empty : BoundedStack α cap).items = [] := rfl

variable {s : BoundedStack α cap}

theorem pop_eq_none_iff : s.pop = none ↔ s.items = [] := by
  unfold pop
  split <;> simp_all

variable {x : α}

/-- A pop removes the last item. -/
theorem pop_items {s t : BoundedStack α cap} (h : s.pop = some (x, t)) :
    s.items = t.items ++ [x] := by
  unfold pop at h
  split at h
  · cases h
  · next hne =>
      simp only [Option.some.injEq, Prod.mk.injEq] at h
      obtain ⟨rfl, rfl⟩ := h
      exact (List.dropLast_append_getLast hne).symm

theorem pop_perm {s t : BoundedStack α cap} (h : s.pop = some (x, t)) :
    s.items.Perm (x :: t.items) := by
  rw [pop_items h]
  exact List.perm_append_singleton x t.items

/-- A push that reports success adds the item. -/
theorem push_perm (h : (s.push x).1 = true) :
    (s.push x).2.items.Perm (x :: s.items) := by
  unfold push at h ⊢
  split
  · exact List.perm_append_singleton x s.items
  · next hfull => simp [hfull] at h

/-- A push that reports failure changes nothing. -/
theorem push_of_full (h : (s.push x).1 = false) :
    (s.push x).2 = s := by
  unfold push at h ⊢
  split
  · next hlt => simp [hlt] at h
  · rfl

/-- There is room for a push below the capacity. -/
theorem push_of_lt (x : α) (h : s.items.length < cap) :
    (s.push x).1 = true ∧ (s.push x).2.items = s.items ++ [x] := by
  simp [push, h]

end BoundedStack

/-! ## Arrays with a count beside them -/

/-- Writing the next free place and counting it adds one item to the filled part. -/
theorem take_set_succ {l : List α} {c : Nat} (h : c < l.length) (x : α) :
    (l.set c x).take (c + 1) = l.take c ++ [x] := by
  rw [List.take_add_one, List.take_set_of_le (Nat.le_refl c), List.getElem?_set_self h]
  rfl

/-- Moving the last item of the filled part into the place of another removes that one. -/
theorem swapRemove_perm {l : List α} {c i : Nat} {x y : α} (hi : i < c) (hx : l[i]? = some x)
    (hy : l[c - 1]? = some y) : (l.take c).Perm (x :: (l.set i y).take (c - 1)) := by
  have hsplit : l.take c = l.take (c - 1) ++ [y] := by
    have hc : c = c - 1 + 1 := by omega
    rw [hc, List.take_add_one, Nat.add_sub_cancel, hy]
    rfl
  rw [hsplit, List.take_set]
  have hperm := List.getD_set_perm_cons (l.take (c - 1)) i y
  rcases Nat.lt_or_ge i (c - 1) with hlt | hge
  · have hget : (l.take (c - 1))[i]?.getD y = x := by
      rw [List.getElem?_take_of_lt hlt, hx]
      rfl
    rw [hget] at hperm
    exact (List.perm_append_singleton y _).trans hperm.symm
  · -- The removed item is the last one: nothing moves.
    have hlast : i = c - 1 := by omega
    subst hlast
    have hxy : y = x := Option.some.inj (hy.symm.trans hx)
    have hset : (l.take (c - 1)).set (c - 1) y = l.take (c - 1) :=
      List.set_eq_of_length_le (List.length_take_le _ _)
    rw [hset, hxy]
    exact List.perm_append_singleton x _

/-! ## A row of stores -/

/-- Replacing one store of a row exchanges that store's content and leaves the rest. -/
theorem flatMap_set_perm {σ β : Type*} {xs : List σ} {i : Nat} {x : σ} (h : xs[i]? = some x)
    (f : σ → List β) :
    ∃ R, (xs.flatMap f).Perm (f x ++ R) ∧ ∀ y, ((xs.set i y).flatMap f).Perm (f y ++ R) := by
  obtain ⟨hi, rfl⟩ := List.getElem?_eq_some_iff.mp h
  refine ⟨(xs.take i).flatMap f ++ (xs.drop (i + 1)).flatMap f, ?_, fun y => ?_⟩
  · have hxs : xs = xs.take i ++ xs[i] :: xs.drop (i + 1) := by
      rw [List.getElem_cons_drop, List.take_append_drop]
    calc xs.flatMap f
        = (xs.take i).flatMap f ++ (f xs[i] ++ (xs.drop (i + 1)).flatMap f) := by
          rw [← List.flatMap_cons, ← List.flatMap_append, ← hxs]
      _ |>.Perm (f xs[i] ++ ((xs.take i).flatMap f ++ (xs.drop (i + 1)).flatMap f)) :=
          List.perm_append_comm_assoc _ _ _
  · rw [List.set_eq_take_append_cons_drop, if_pos hi, List.flatMap_append, List.flatMap_cons]
    exact List.perm_append_comm_assoc _ _ _

/-- An element of a row can be moved to its front. -/
theorem perm_cons_eraseIdx {σ : Type*} {xs : List σ} {i : Nat} {x : σ} (h : xs[i]? = some x) :
    xs.Perm (x :: xs.eraseIdx i) := by
  obtain ⟨hi, rfl⟩ := List.getElem?_eq_some_iff.mp h
  exact (List.getElem_cons_eraseIdx_perm hi).symm

end SlateOS.Foundation.Stores
