/-
# SlateOS.Foundation.Fifos -- an array of first-in first-out queues

`n` plain queues, the one at index 0 served first. A service may be restricted to some of the queues;
a withdrawal takes every copy of an item wherever it stands; `takeBack` empties the queues from their
ends. `items` is what all the queues hold together.
-/
import Mathlib.Algebra.GroupWithZero.Nat
import Mathlib.Algebra.Order.BigOperators.Group.Finset

namespace SlateOS.Foundation.Fifos

open Function (update update_self update_of_ne)

variable {n : Nat} {α : Type*}

/-- `n` queues; the front of a queue is the head of its list. -/
abbrev Queues (n : Nat) (α : Type*) := Fin n → List α

/-- Everything queued, with multiplicity. -/
def items (q : Queues n α) : Multiset α := ∑ i, (q i : Multiset α)

/-- Replacing one part of an array exchanges what the part holds. -/
theorem sum_update {β : Type*} (holds : β → Multiset α) (f : Fin n → β) (i : Fin n) (b : β) :
    ∑ j, holds (update f i b j) + holds (f i) = ∑ j, holds (f j) + holds b := by
  rw [← Finset.add_sum_erase Finset.univ _ (Finset.mem_univ i),
    ← Finset.add_sum_erase Finset.univ (fun j => holds (f j)) (Finset.mem_univ i)]
  have hrest : ∑ j ∈ Finset.univ.erase i, holds (update f i b j)
      = ∑ j ∈ Finset.univ.erase i, holds (f j) := by
    refine Finset.sum_congr rfl fun j hj => ?_
    rw [update_of_ne (Finset.ne_of_mem_erase hj)]
  rw [hrest, update_self]
  ac_rfl

theorem items_update (q : Queues n α) (i : Fin n) (l : List α) :
    items (update q i l) + q i = items q + l :=
  sum_update (fun l : List α => (l : Multiset α)) q i l

variable {q : Queues n α}

theorem items_eq_zero_iff : items q = 0 ↔ ∀ i, q i = [] := by
  simp [items, Finset.sum_eq_zero_iff]

/-! ## Joining a queue -/

/-- `a` joins queue `i` at the back. -/
def push (q : Queues n α) (i : Fin n) (a : α) : Queues n α := update q i (q i ++ [a])

theorem items_push (q : Queues n α) (i : Fin n) (a : α) : items (push q i a) = a ::ₘ items q := by
  have h := items_update q i (q i ++ [a])
  have hcons : ((q i ++ [a] : List α) : Multiset α) = {a} + (q i : Multiset α) := by
    rw [← Multiset.coe_add, add_comm]
    rfl
  rw [hcons, ← add_assoc] at h
  rw [push, add_right_cancel h, add_comm, Multiset.singleton_add]

/-! ## Service -/

/-- The first queue that may be served and has something. -/
def first (q : Queues n α) (allowed : Fin n → Bool) : Option (Fin n) :=
  (List.finRange n).find? fun i => allowed i && !(q i).isEmpty

theorem first_eq_none_iff {allowed : Fin n → Bool} :
    first q allowed = none ↔ ∀ i, allowed i = true → q i = [] := by
  simp [first, List.find?_eq_none]

theorem first_spec {allowed : Fin n → Bool} {i : Fin n}
    (h : first q allowed = some i) :
    allowed i = true ∧ q i ≠ [] ∧ ∀ j < i, allowed j = true → q j = [] := by
  obtain ⟨hp, as, bs, hsplit, hbefore⟩ := List.find?_eq_some_iff_append.1 h
  rw [Bool.and_eq_true] at hp
  refine ⟨hp.1, by simpa using hp.2, fun j hj hallowed => ?_⟩
  have hmem : j ∈ as ++ i :: bs := hsplit ▸ List.mem_finRange j
  have hsorted : (as ++ i :: bs).Pairwise (· < ·) := hsplit ▸ List.pairwise_lt_finRange n
  rcases List.mem_append.1 hmem with hj' | hj'
  · simpa [hallowed] using hbefore j hj'
  · -- what stands at or after `i` is not below it
    rcases List.mem_cons.1 hj' with rfl | hj''
    · exact absurd hj (lt_irrefl _)
    · have hgt := (List.pairwise_cons.1 (List.pairwise_append.1 hsorted).2.1).1 j hj''
      exact absurd hj (not_lt_of_gt hgt)

/-- Take the front of the first queue that may be served and has something. -/
def serve (q : Queues n α) (allowed : Fin n → Bool) : Option α × Queues n α :=
  match first q allowed with
  | none => (none, q)
  | some i => ((q i).head?, update q i (q i).tail)

theorem items_serve (q : Queues n α) (allowed : Fin n → Bool) :
    items (serve q allowed).2 + (serve q allowed).1.elim 0 ({·}) = items q := by
  unfold serve
  split
  · simp
  · next i hi =>
      obtain ⟨a, l, hal⟩ := List.exists_cons_of_ne_nil (first_spec hi).2.1
      have h := items_update q i (q i).tail
      rw [hal] at h
      have hcons : ((a :: l : List α) : Multiset α) = {a} + (l : Multiset α) := rfl
      rw [hcons, ← add_assoc] at h
      rw [hal]
      exact add_right_cancel h

/-! ## Withdrawal -/

/-- Every copy of `a` leaves its queue. -/
def withdraw [DecidableEq α] (q : Queues n α) (a : α) : Queues n α :=
  fun i => (q i).filter (· ≠ a)

theorem items_withdraw [DecidableEq α] (q : Queues n α) (a : α) :
    items (withdraw q a) = (items q).filter (· ≠ a) := by
  show ∑ i, (((q i).filter (· ≠ a) : List α) : Multiset α) = _
  unfold items
  induction (Finset.univ : Finset (Fin n)) using Finset.induction_on with
  | empty => simp
  | insert i is hi ih =>
    rw [Finset.sum_insert hi, Finset.sum_insert hi, Multiset.filter_add, ih]
    simp

/-! ## Taking from the back -/

/-- The queues `is` in turn give up their last items, at most `k` in all. -/
def takeBack : List (Fin n) → Nat → Queues n α → List (α × Fin n) × Queues n α
  | [], _, q => ([], q)
  | i :: is, k, q =>
    let taken := (q i).reverse.take k
    let r := takeBack is (k - taken.length)
      (update q i ((q i).take ((q i).length - taken.length)))
    (taken.map (·, i) ++ r.1, r.2)

theorem takeBack_zero (is : List (Fin n)) (q : Queues n α) : takeBack is 0 q = ([], q) := by
  induction is with
  | nil => rfl
  | cons i is ih => simp [takeBack, ih]

variable {is : List (Fin n)}

/-- Queues with nothing in them need not be visited. -/
theorem takeBack_filter (p : Fin n → Bool) (k : Nat)
    (hp : ∀ i ∈ is, p i = false → q i = []) : takeBack (is.filter p) k q = takeBack is k q := by
  induction is generalizing k q with
  | nil => rfl
  | cons j is ih =>
    have hrest : ∀ i ∈ is, p i = false →
        update q j ((q j).take ((q j).length - ((q j).reverse.take k).length)) i = [] := by
      intro i hi hpi
      by_cases hij : i = j
      · subst hij
        simp [hp i (List.mem_cons_of_mem _ hi) hpi]
      · rw [update_of_ne hij]
        exact hp i (List.mem_cons_of_mem _ hi) hpi
    by_cases hj : p j = true
    · rw [List.filter_cons_of_pos hj, takeBack, takeBack, ih _ hrest]
    · have hempty := hp j List.mem_cons_self (by simpa using hj)
      have hsame : update q j [] = q := by
        rw [← hempty, Function.update_eq_self]
      rw [List.filter_cons_of_neg hj, takeBack,
        ih k fun i hi hpi => hp i (List.mem_cons_of_mem _ hi) hpi]
      simp [hempty, hsame]

/-- What is taken from queue `i` is the end of that queue, last item first. -/
def takenFrom (taken : List (α × Fin n)) (i : Fin n) : List α :=
  (taken.filter (·.2 = i)).map Prod.fst

theorem takenFrom_append (xs ys : List (α × Fin n)) (i : Fin n) :
    takenFrom (xs ++ ys) i = takenFrom xs i ++ takenFrom ys i := by
  simp [takenFrom]

theorem takenFrom_map_self (xs : List α) (i : Fin n) : takenFrom (xs.map (·, i)) i = xs := by
  induction xs with
  | nil => rfl
  | cons x xs ih => simpa [takenFrom] using ih

theorem takenFrom_map_of_ne (xs : List α) {i j : Fin n} (h : j ≠ i) :
    takenFrom (xs.map (·, j)) i = [] := by
  induction xs with
  | nil => rfl
  | cons x xs ih => simp [takenFrom, h]

theorem takeBack_of_notMem {k : Nat} {i : Fin n}
    (h : i ∉ is) : (takeBack is k q).2 i = q i ∧ takenFrom (takeBack is k q).1 i = [] := by
  induction is generalizing k q with
  | nil => exact ⟨rfl, rfl⟩
  | cons j is ih =>
    obtain ⟨hne, his⟩ : i ≠ j ∧ i ∉ is := by simpa using h
    obtain ⟨hq, ht⟩ := ih his (k := k - ((q j).reverse.take k).length)
      (q := update q j ((q j).take ((q j).length - ((q j).reverse.take k).length)))
    unfold takeBack
    refine ⟨hq.trans (update_of_ne hne _ _), ?_⟩
    rw [takenFrom_append, takenFrom_map_of_ne _ (Ne.symm hne), ht]
    rfl

/-- **Nothing is lost or copied.** Each queue is what stays in it followed by what was taken from it,
put back in queue order. -/
theorem takeBack_spec (hnodup : is.Nodup) (k : Nat) (q : Queues n α)
    (i : Fin n) :
    q i = (takeBack is k q).2 i ++ (takenFrom (takeBack is k q).1 i).reverse := by
  induction is generalizing k q with
  | nil => simp [takeBack, takenFrom]
  | cons j is ih =>
    obtain ⟨hj, his⟩ := List.nodup_cons.1 hnodup
    unfold takeBack
    rw [takenFrom_append]
    by_cases hij : i = j
    · subst hij
      obtain ⟨hq, ht⟩ := takeBack_of_notMem hj (k := k - ((q i).reverse.take k).length)
        (q := update q i ((q i).take ((q i).length - ((q i).reverse.take k).length)))
      rw [takenFrom_map_self, ht, hq, update_self, List.append_nil, List.take_reverse,
        List.reverse_reverse]
      have hlen : (q i).length - ((q i).drop ((q i).length - k)).reverse.length
          = (q i).length - k := by simp; omega
      rw [hlen]
      exact (List.take_append_drop _ _).symm
    · have h := ih his (k - ((q j).reverse.take k).length)
        (update q j ((q j).take ((q j).length - ((q j).reverse.take k).length)))
      rw [update_of_ne hij] at h
      rw [takenFrom_map_of_ne _ (Ne.symm hij)]
      exact h

/-- As many are taken as were asked for, if the queues have as many. -/
theorem length_takeBack (hnodup : is.Nodup) (k : Nat) (q : Queues n α) :
    (takeBack is k q).1.length = min k (is.map fun i => (q i).length).sum := by
  induction is generalizing k q with
  | nil => simp [takeBack]
  | cons j is ih =>
    obtain ⟨hj, his⟩ := List.nodup_cons.1 hnodup
    unfold takeBack
    have hsame : (is.map fun i => (update q j
        ((q j).take ((q j).length - ((q j).reverse.take k).length)) i).length)
        = is.map fun i => (q i).length := by
      refine List.map_congr_left fun i hi => ?_
      rw [update_of_ne (ne_of_mem_of_not_mem hi hj)]
    rw [List.length_append, ih his, hsame]
    simp
    omega

theorem items_takeBack (is : List (Fin n)) (k : Nat) (q : Queues n α) :
    items (takeBack is k q).2 + ((takeBack is k q).1.map Prod.fst : Multiset α) = items q := by
  induction is generalizing k q with
  | nil => simp [takeBack]
  | cons j is ih =>
    have hstep := items_update q j ((q j).take ((q j).length - ((q j).reverse.take k).length))
    have hsplit : ((q j).take ((q j).length - ((q j).reverse.take k).length) : Multiset α)
        + ((q j).reverse.take k : Multiset α) = q j := by
      have hlen : (q j).length - ((q j).reverse.take k).length = (q j).length - k := by
        simp; omega
      rw [hlen, List.take_reverse, Multiset.coe_reverse, Multiset.coe_add, List.take_append_drop]
    have hrest := ih (k - ((q j).reverse.take k).length)
      (update q j ((q j).take ((q j).length - ((q j).reverse.take k).length)))
    unfold takeBack
    rw [List.map_append, List.map_map, ← Multiset.coe_add, ← add_assoc, add_right_comm, hrest]
    have hmap : ((q j).reverse.take k).map (Prod.fst ∘ (·, j)) = (q j).reverse.take k := by
      exact List.map_id _
    rw [hmap]
    refine add_right_cancel (b := ((q j).take
      ((q j).length - ((q j).reverse.take k).length) : Multiset α)) ?_
    rw [add_assoc, add_comm (((q j).reverse.take k : List α) : Multiset α), hsplit]
    exact hstep

end SlateOS.Foundation.Fifos
