/-
# SlateOS.Foundation.IntrusiveList -- doubly linked lists threaded through a memory

An intrusive list keeps each element's links inside the element's own storage: the memory is a map
from addresses to `Node`s, and a distinguished address `null` ends the list at both sides. `Seg`
describes a stretch of such a list between a predecessor and a successor address, and `Linked` a
whole list with its head and tail. The three mutations a list head offers (`linkFront`, `linkBack`,
`unlink`) are written as the pointer writes they are, and each is proved to act on the sequence of
addresses as `cons`, append and `erase`.

`walk` reads the sequence back from the memory; on a linked list it returns exactly the sequence.
-/
import Mathlib.Data.List.Nodup

namespace SlateOS.Foundation.IntrusiveList

universe u

/-- The links stored in an element: the address after it and the address before it. -/
structure Node (α : Type u) where
  next : α
  prev : α
  deriving DecidableEq, Repr

variable {α : Type u}

/-! ## Segments -/

/-- The addresses `xs` are consecutive elements, `p` being before the first and `n` after the
last. -/
def Seg (mem : α → Node α) : α → List α → α → Prop
  | _, [], _ => True
  | p, x :: xs, n => (mem x).prev = p ∧ (mem x).next = xs.headD n ∧ Seg mem x xs n

variable {p n : α} {xs : List α}

/-- Only the nodes of a segment's own elements matter to it. -/
theorem Seg.congr {mem mem' : α → Node α}
    (h : Seg mem p xs n) (heq : ∀ x ∈ xs, mem' x = mem x) : Seg mem' p xs n := by
  induction xs generalizing p with
  | nil => trivial
  | cons x xs ih =>
    obtain ⟨hp, hn, hs⟩ := h
    have hx := heq x (by simp)
    exact ⟨by rw [hx]; exact hp, by rw [hx]; exact hn,
      ih hs fun y hy => heq y (by simp [hy])⟩

variable {mem : α → Node α}

/-- Two stretches follow one another when each ends where the other begins. -/
theorem seg_append {xs ys : List α} :
    Seg mem p (xs ++ ys) n ↔
      Seg mem p xs (ys.headD n) ∧ Seg mem (xs.getLastD p) ys n := by
  induction xs generalizing p with
  | nil => simp [Seg]
  | cons x xs ih =>
    have hhead : (xs ++ ys).headD n = xs.headD (ys.headD n) := by cases xs <;> simp
    have hlast : (x :: xs).getLastD p = xs.getLastD x := by cases xs <;> simp [List.getLastD]
    simp only [List.cons_append, Seg, hhead, hlast, ih]
    tauto

variable {x : α}

theorem Seg.node {as bs : List α}
    (h : Seg mem p (as ++ x :: bs) n) :
    (mem x).prev = as.getLastD p ∧ (mem x).next = bs.headD n := by
  obtain ⟨_, hx, hn, _⟩ := seg_append.mp h
  exact ⟨hx, hn⟩

theorem getLastD_mem {d : α} (hne : xs ≠ []) : xs.getLastD d ∈ xs := by
  rw [List.getLastD_eq_getLast?, List.getLast?_eq_some_getLast hne, Option.getD_some]
  exact List.getLast_mem hne

/-! ## Whole lists -/

/-- `xs` is the list from `head` to `tail` in `mem`, ended by `null` at both sides. -/
structure Linked (mem : α → Node α) (null head tail : α) (xs : List α) : Prop where
  head_eq : head = xs.headD null
  tail_eq : tail = xs.getLastD null
  seg : Seg mem null xs null
  nodup : xs.Nodup
  null_notMem : null ∉ xs

variable {null head tail : α}

theorem Linked.congr {mem mem' : α → Node α}
    (h : Linked mem null head tail xs) (heq : ∀ x ∈ xs, mem' x = mem x) :
    Linked mem' null head tail xs :=
  { h with seg := h.seg.congr heq }

/-- A list is empty exactly when its head is `null`. -/
theorem Linked.head_eq_null_iff
    (h : Linked mem null head tail xs) : head = null ↔ xs = [] := by
  constructor
  · intro hn
    cases xs with
    | nil => rfl
    | cons x xs =>
      have hx : x = null := by simpa [hn] using h.head_eq.symm
      exact absurd (by simp [hx]) h.null_notMem
  · rintro rfl
    exact h.head_eq

/-- A list is empty exactly when its tail is `null`. -/
theorem Linked.tail_eq_null_iff
    (h : Linked mem null head tail xs) : tail = null ↔ xs = [] := by
  constructor
  · intro hn
    by_contra hne
    have ht := h.tail_eq
    rw [List.getLastD_eq_getLast?, List.getLast?_eq_some_getLast hne, Option.getD_some] at ht
    exact h.null_notMem (by rw [← hn, ht]; exact List.getLast_mem hne)
  · rintro rfl
    exact h.tail_eq

/-- The head of a non-empty list is on it. -/
theorem Linked.head_mem
    (h : Linked mem null head tail xs) (hne : head ≠ null) : head ∈ xs := by
  cases xs with
  | nil => exact absurd h.head_eq hne
  | cons x xs => simp [h.head_eq]

theorem linked_nil (mem : α → Node α) (null : α) : Linked mem null null null [] :=
  ⟨rfl, rfl, trivial, List.nodup_nil, by simp⟩

/-- The neighbours of an element of a list are `null` or on the list. -/
theorem Linked.neighbours
    (h : Linked mem null head tail xs) (hx : x ∈ xs) :
    ((mem x).prev ≠ null → (mem x).prev ∈ xs) ∧ ((mem x).next ≠ null → (mem x).next ∈ xs) := by
  obtain ⟨as, bs, rfl⟩ := List.append_of_mem hx
  obtain ⟨hp, hn⟩ := h.seg.node
  constructor
  · intro hne
    rw [hp] at hne ⊢
    have : as ≠ [] := by
      rintro rfl
      exact hne rfl
    exact List.mem_append_left _ (getLastD_mem this)
  · intro hne
    rw [hn] at hne ⊢
    cases bs with
    | nil => exact absurd rfl hne
    | cons b bs => simp

variable [DecidableEq α]

/-! ## Pointer writes -/

/-- Overwrite the whole node at `x`. -/
def write (mem : α → Node α) (x : α) (n : Node α) : α → Node α := Function.update mem x n

/-- Overwrite the `next` field of the node at `x`. -/
def setNext (mem : α → Node α) (x y : α) : α → Node α :=
  Function.update mem x { mem x with next := y }

/-- Overwrite the `prev` field of the node at `x`. -/
def setPrev (mem : α → Node α) (x y : α) : α → Node α :=
  Function.update mem x { mem x with prev := y }

@[simp] theorem write_self (mem : α → Node α) (x : α) (n : Node α) : write mem x n x = n := by
  simp [write]

variable {y : α}

theorem write_of_ne (mem : α → Node α) (n : Node α) (h : y ≠ x) :
    write mem x n y = mem y := by
  simp [write, h]

@[simp] theorem setNext_prev (mem : α → Node α) (x y z : α) :
    (setNext mem x y z).prev = (mem z).prev := by
  by_cases h : z = x
  · subst h
    simp [setNext]
  · simp [setNext, h]

@[simp] theorem setPrev_next (mem : α → Node α) (x y z : α) :
    (setPrev mem x y z).next = (mem z).next := by
  by_cases h : z = x
  · subst h
    simp [setPrev]
  · simp [setPrev, h]

@[simp] theorem setNext_self_next (mem : α → Node α) (x y : α) :
    (setNext mem x y x).next = y := by
  simp [setNext]

@[simp] theorem setPrev_self_prev (mem : α → Node α) (x y : α) :
    (setPrev mem x y x).prev = y := by
  simp [setPrev]

theorem setNext_of_ne (mem : α → Node α) {x y z : α} (h : z ≠ x) :
    setNext mem x y z = mem z := by
  simp [setNext, h]

theorem setPrev_of_ne (mem : α → Node α) {x y z : α} (h : z ≠ x) :
    setPrev mem x y z = mem z := by
  simp [setPrev, h]

/-! ## The effect of the writes on a list -/

/-- Redirecting the last element's `next` redirects the segment's end. -/
theorem Seg.setNext_last {p n m : α} (h : Seg mem p xs n)
    (hnd : xs.Nodup) (hne : xs ≠ []) : Seg (setNext mem (xs.getLastD p) m) p xs m := by
  induction xs generalizing p with
  | nil => exact absurd rfl hne
  | cons x xs ih =>
    obtain ⟨hp, hn, hs⟩ := h
    cases xs with
    | nil => simp [Seg, hp]
    | cons y ys =>
      have hxy : x ∉ y :: ys := (List.nodup_cons.mp hnd).1
      have hlast : (x :: y :: ys).getLastD p = (y :: ys).getLastD x := by
        simp [List.getLastD]
      have hmem : (y :: ys).getLastD x ∈ y :: ys := by
        rw [List.getLastD_cons]
        cases ys with
        | nil => simp
        | cons z zs => simp [List.getLastD]
      have hne' : x ≠ (y :: ys).getLastD x := fun he => hxy (he ▸ hmem)
      rw [hlast]
      refine ⟨by simpa using hp, ?_, ih hs (List.nodup_cons.mp hnd).2 (by simp)⟩
      rw [setNext_of_ne _ hne', hn]
      rfl

/-- Redirecting the first element's `prev` redirects the segment's start. -/
theorem Seg.setPrev_first {p q n x : α}
    (h : Seg mem p (x :: xs) n) (hx : x ∉ xs) : Seg (setPrev mem x q) q (x :: xs) n := by
  obtain ⟨_, hn, hs⟩ := h
  refine ⟨by simp, by simpa using hn, hs.congr fun y hy => setPrev_of_ne _ ?_⟩
  exact fun he => hx (he ▸ hy)

/-! ### Insertion at the front -/

/-- Write `x`'s node and point the old head back at it. -/
def linkFront (mem : α → Node α) (null head x : α) : α → Node α :=
  let mem := write mem x ⟨head, null⟩
  if head ≠ null then setPrev mem head x else mem

theorem linkFront_of_notMem (hx : y ≠ x) (hh : y ≠ head) :
    linkFront mem null head x y = mem y := by
  unfold linkFront
  split
  · rw [setPrev_of_ne _ hh, write_of_ne _ _ hx]
  · rw [write_of_ne _ _ hx]

theorem Linked.linkFront
    (h : Linked mem null head tail xs) (hx : x ∉ xs) (hnull : x ≠ null) :
    Linked (linkFront mem null head x) null x (if head = null then x else tail) (x :: xs) := by
  have hnd : (x :: xs).Nodup := List.nodup_cons.mpr ⟨hx, h.nodup⟩
  have hnn : null ∉ x :: xs := by simp [Ne.symm hnull, h.null_notMem]
  cases xs with
  | nil =>
    have hh : head = null := h.head_eq
    subst hh
    exact ⟨rfl, by simp, by simp [IntrusiveList.linkFront, Seg], hnd, hnn⟩
  | cons y ys =>
    have hh : head = y := h.head_eq
    subst hh
    have hne : head ≠ null := fun he => h.null_notMem (by simp [he])
    have hxh : x ≠ head := fun he => hx (by simp [he])
    refine ⟨rfl, ?_, ⟨?_, ?_, ?_⟩, hnd, hnn⟩
    · rw [if_neg hne, h.tail_eq]
      simp [List.getLastD]
    · simp [IntrusiveList.linkFront, hne, setPrev_of_ne _ hxh]
    · simp [IntrusiveList.linkFront, hne, setPrev_of_ne _ hxh]
    · have hw : Seg (write mem x ⟨head, null⟩) null (head :: ys) null :=
        h.seg.congr fun z hz => write_of_ne _ _ fun he => hx (he ▸ hz)
      simpa [IntrusiveList.linkFront, hne] using
        hw.setPrev_first (q := x) (List.nodup_cons.mp h.nodup).1

/-! ### Insertion at the back -/

/-- Write `x`'s node after the old tail and point the old tail forward at it. -/
def linkBack (mem : α → Node α) (null tail x : α) : α → Node α :=
  setNext (write mem x ⟨null, tail⟩) tail x

theorem linkBack_of_notMem (hx : y ≠ x) (ht : y ≠ tail) :
    linkBack mem null tail x y = mem y := by
  rw [linkBack, setNext_of_ne _ ht, write_of_ne _ _ hx]

theorem Linked.linkBack
    (h : Linked mem null head tail xs) (hne : xs ≠ []) (hx : x ∉ xs) (hnull : x ≠ null) :
    Linked (linkBack mem null tail x) null head x (xs ++ [x]) := by
  have ht : tail = xs.getLastD null := h.tail_eq
  have hmem : tail ∈ xs := ht ▸ getLastD_mem hne
  have htx : x ≠ tail := fun he => hx (he ▸ hmem)
  have hw : Seg (write mem x ⟨null, tail⟩) null xs null :=
    h.seg.congr fun z hz => write_of_ne _ _ fun he => hx (he ▸ hz)
  refine ⟨?_, by simp, seg_append.mpr ⟨?_, ?_⟩, ?_, ?_⟩
  · rw [h.head_eq]
    cases xs with
    | nil => exact absurd rfl hne
    | cons y ys => rfl
  · have hlast := hw.setNext_last (m := x) h.nodup hne
    rw [← ht] at hlast
    exact hlast
  · refine ⟨?_, ?_, trivial⟩
    · rw [← ht]
      simp [IntrusiveList.linkBack]
    · simp [IntrusiveList.linkBack, setNext_of_ne _ htx]
  · exact List.nodup_append.mpr ⟨h.nodup, by simp, by
      intro a ha b hb
      simp only [List.mem_singleton] at hb
      exact fun he => hx (by rw [← hb, ← he]; exact ha)⟩
  · simp [h.null_notMem, Ne.symm hnull]

/-! ### Removal from anywhere -/

/-- Join `x`'s neighbours to each other, then clear `x`'s node. -/
def unlink (mem : α → Node α) (null x : α) : α → Node α :=
  let node := mem x
  let mem := if node.prev ≠ null then setNext mem node.prev node.next else mem
  let mem := if node.next ≠ null then setPrev mem node.next node.prev else mem
  write mem x ⟨null, null⟩

theorem unlink_of_notMem (hx : y ≠ x)
    (hp : (mem x).prev ≠ null → y ≠ (mem x).prev) (hn : (mem x).next ≠ null → y ≠ (mem x).next) :
    unlink mem null x y = mem y := by
  unfold unlink
  rw [write_of_ne _ _ hx]
  by_cases h1 : (mem x).prev ≠ null <;> by_cases h2 : (mem x).next ≠ null
  · rw [if_pos h1, if_pos h2, setPrev_of_ne _ (hn h2), setNext_of_ne _ (hp h1)]
  · rw [if_pos h1, if_neg h2, setNext_of_ne _ (hp h1)]
  · rw [if_neg h1, if_pos h2, setPrev_of_ne _ (hn h2)]
  · rw [if_neg h1, if_neg h2]

/-- The head after `x` left the list. -/
def unlinkHead (mem : α → Node α) (null head x : α) : α :=
  if (mem x).prev ≠ null then head else (mem x).next

/-- The tail after `x` left the list. -/
def unlinkTail (mem : α → Node α) (null tail x : α) : α :=
  if (mem x).next ≠ null then tail else (mem x).prev

theorem Linked.unlink
    (h : Linked mem null head tail xs) (hx : x ∈ xs) :
    Linked (unlink mem null x) null (unlinkHead mem null head x) (unlinkTail mem null tail x)
      (xs.erase x) := by
  obtain ⟨as, bs, rfl⟩ := List.append_of_mem hx
  obtain ⟨hp, hn⟩ := h.seg.node
  have hnd := List.nodup_append.mp h.nodup
  have hxas : x ∉ as := fun hm => hnd.2.2 x hm x (by simp) rfl
  have hxbs : x ∉ bs := (List.nodup_cons.mp hnd.2.1).1
  have hdisj : ∀ a ∈ as, ∀ b ∈ bs, a ≠ b := fun a ha b hb => hnd.2.2 a ha b (by simp [hb])
  have hnas : null ∉ as := fun hm => h.null_notMem (by simp [hm])
  have hnbs : null ∉ bs := fun hm => h.null_notMem (by simp [hm])
  have herase : (as ++ x :: bs).erase x = as ++ bs := by
    rw [List.erase_append_right _ hxas, List.erase_cons_head]
  obtain ⟨hsas, -, -, hsbs⟩ := seg_append.mp h.seg
  -- the predecessor is null exactly at the front, the successor exactly at the back
  have hpnull : (mem x).prev ≠ null ↔ as ≠ [] := by
    rw [hp]
    constructor
    · rintro hne rfl
      exact hne rfl
    · intro hne he
      exact hnas (he ▸ getLastD_mem hne)
  have hnnull : (mem x).next ≠ null ↔ bs ≠ [] := by
    rw [hn]
    constructor
    · rintro hne rfl
      exact hne rfl
    · intro hne he
      cases bs with
      | nil => exact hne rfl
      | cons b bs => exact hnbs (List.mem_cons.mpr (Or.inl (Eq.symm he)))
  rw [herase]
  refine ⟨?_, ?_, seg_append.mpr ⟨?_, ?_⟩, ?_, by simp [hnas, hnbs]⟩
  · -- head
    unfold unlinkHead
    cases as with
    | nil =>
      rw [if_neg (by simp [hpnull])]
      exact hn
    | cons a as =>
      rw [if_pos (hpnull.mpr (by simp))]
      exact h.head_eq
  · -- tail
    unfold unlinkTail
    cases hb : bs with
    | nil =>
      subst hb
      rw [if_neg (by simp [hnnull]), hp, List.append_nil]
    | cons b bs' =>
      subst hb
      rw [if_pos (hnnull.mpr (by simp)), h.tail_eq]
      simp [List.getLastD_eq_getLast?]
  · -- the elements before `x`, now ending at its successor
    cases has : as with
    | nil => trivial
    | cons a as' =>
      rw [← has]
      have hne : as ≠ [] := by simp [has]
      have h1 : Seg (setNext mem (mem x).prev (mem x).next) null as (bs.headD null) := by
        rw [hp, hn]
        exact hsas.setNext_last hnd.1 hne
      refine h1.congr fun y hy => ?_
      have hyx : y ≠ x := fun he => hxas (he ▸ hy)
      unfold IntrusiveList.unlink
      rw [write_of_ne _ _ hyx, if_pos (hpnull.mpr hne)]
      split
      · next hbn =>
          refine setPrev_of_ne _ fun he => ?_
          have hbs : bs ≠ [] := hnnull.mp hbn
          rw [he, hn] at hy
          cases bs with
          | nil => exact hbs rfl
          | cons b bs => exact hdisj b hy b (by simp) rfl
      · rfl
  · -- the elements after `x`, now starting after its predecessor
    cases hbs : bs with
    | nil => trivial
    | cons b bs' =>
      subst hbs
      have hb : b ∉ bs' := (List.nodup_cons.mp (List.nodup_cons.mp hnd.2.1).2).1
      have hnb : (mem x).next = b := hn
      have hbne : (mem x).next ≠ null := hnnull.mpr (by simp)
      -- the first rewrite touches only the predecessor, which is not among these
      have h1 : Seg (if (mem x).prev ≠ null then setNext mem (mem x).prev (mem x).next else mem)
          x (b :: bs') null := by
        refine hsbs.congr fun y hy => ?_
        split
        · next hpn =>
            refine setNext_of_ne _ fun he => ?_
            have has : as ≠ [] := hpnull.mp hpn
            exact hdisj ((mem x).prev) (by rw [hp]; exact getLastD_mem has) y hy he.symm
        · rfl
      have h2 := h1.setPrev_first (q := as.getLastD null) hb
      refine h2.congr fun y hy => ?_
      have hyx : y ≠ x := fun he => hxbs (he ▸ hy)
      unfold IntrusiveList.unlink
      rw [write_of_ne _ _ hyx, if_pos hbne, hnb, hp]
  · exact List.nodup_append.mpr ⟨hnd.1, (List.nodup_cons.mp hnd.2.1).2, hdisj⟩

/-! ## Reading the sequence back -/

/-- Follow at most `k` links from `x`. -/
def walk (mem : α → Node α) (null : α) : Nat → α → List α
  | 0, _ => []
  | k + 1, x => if x = null then [] else x :: walk mem null k (mem x).next

theorem Seg.walk_eq (h : Seg mem p xs null)
    (hnull : null ∉ xs) {k : Nat} (hk : xs.length ≤ k) :
    walk mem null k (xs.headD null) = xs := by
  induction xs generalizing p k with
  | nil =>
    cases k with
    | zero => rfl
    | succ k => simp [walk]
  | cons x xs ih =>
    cases k with
    | zero => simp at hk
    | succ k =>
      obtain ⟨_, hn, hs⟩ := h
      have hx : x ≠ null := fun he => hnull (by simp [he])
      have hih := ih hs (fun hm => hnull (by simp [hm])) (Nat.le_of_succ_le_succ hk)
      rw [List.headD_cons, walk, if_neg hx, hn, hih]

theorem Linked.walk_eq
    (h : Linked mem null head tail xs) {k : Nat} (hk : xs.length ≤ k) :
    walk mem null k head = xs := by
  rw [h.head_eq]
  exact h.seg.walk_eq h.null_notMem hk

end SlateOS.Foundation.IntrusiveList
