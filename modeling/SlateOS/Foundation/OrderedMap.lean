/-
# SlateOS.Foundation.OrderedMap -- ordered maps over a linear order

What the ordered maps of the standard library do, said with equality and `≤` of a linear order
instead of comparison results.
-/
import Mathlib.Algebra.BigOperators.Group.List.Basic
import Mathlib.Data.List.Nodup
import Mathlib.Data.Multiset.ZeroCons
import Mathlib.Data.Prod.Lex
import Mathlib.Order.Std

namespace SlateOS.Foundation.OrderedMap

variable {K V : Type*} [LinearOrder K] (m : Std.TreeMap K V)

theorem getElem?_insert (k a : K) (v : V) :
    (m.insert k v)[a]? = if a = k then some v else m[a]? := by
  rw [Std.TreeMap.getElem?_insert]
  simp only [compare_eq_iff_eq, @eq_comm _ k a]

theorem getElem?_erase (k a : K) : (m.erase k)[a]? = if a = k then none else m[a]? := by
  rw [Std.TreeMap.getElem?_erase]
  simp only [compare_eq_iff_eq, @eq_comm _ k a]

variable {k : K}

theorem mem_iff {m : Std.TreeMap K V} : k ∈ m ↔ ∃ v, m[k]? = some v := by
  rw [Std.TreeMap.mem_iff_isSome_getElem?, Option.isSome_iff_exists]

theorem mem_keys {m : Std.TreeMap K V} : k ∈ m.keys ↔ k ∈ m := Std.TreeMap.mem_keys

/-- The bindings of a map, in order. -/
theorem mem_toList {m : Std.TreeMap K V} {v : V} : (k, v) ∈ m.toList ↔ m[k]? = some v := by
  have hlawful : Std.LawfulEqCmp (compare : K → K → Ordering) := ⟨fun h => compare_eq_iff_eq.1 h⟩
  exact Std.TreeMap.mem_toList_iff_getElem?_eq_some

theorem nodup_keys (m : Std.TreeMap K V) : m.keys.Nodup := Std.TreeMap.nodup_keys

theorem mem_insert (k a : K) (v : V) : a ∈ m.insert k v ↔ a = k ∨ a ∈ m := by
  rw [Std.TreeMap.mem_insert, compare_eq_iff_eq, eq_comm]

theorem mem_erase (k a : K) : a ∈ m.erase k ↔ a ≠ k ∧ a ∈ m := by
  rw [Std.TreeMap.mem_erase, ne_eq, compare_eq_iff_eq, eq_comm]

theorem size_insert_of_mem {m : Std.TreeMap K V} (h : k ∈ m) (v : V) :
    (m.insert k v).size = m.size := by
  rw [Std.TreeMap.size_insert, if_pos (Std.TreeMap.mem_iff_contains.1 h)]

theorem size_insert_of_notMem {m : Std.TreeMap K V} (h : k ∉ m) (v : V) :
    (m.insert k v).size = m.size + 1 := by
  rw [Std.TreeMap.size_insert, if_neg fun hc => h (Std.TreeMap.mem_iff_contains.2 hc)]

theorem size_erase_of_mem {m : Std.TreeMap K V} (h : k ∈ m) :
    (m.erase k).size + 1 = m.size := by
  rw [Std.TreeMap.size_erase, if_pos (Std.TreeMap.mem_iff_contains.1 h)]
  have hpos : m.size ≠ 0 := by
    intro hzero
    have hempty : m.isEmpty = true := by
      rw [Std.TreeMap.isEmpty_eq_size_eq_zero, hzero]
      rfl
    exact Std.TreeMap.not_mem_of_isEmpty hempty h
  omega

/-- The first key is the least one. -/
theorem minKey_eq_some_iff {m : Std.TreeMap K V} :
    m.minKey? = some k ↔ k ∈ m ∧ ∀ a ∈ m, k ≤ a := by
  rw [Std.TreeMap.minKey?_eq_some_iff_mem_and_forall]
  simp only [Ordering.isLE_iff_ne_gt, compare_le_iff_le]

/-! ## The bindings as a list -/

theorem nodup_toList (m : Std.TreeMap K V) : m.toList.Nodup := by
  refine List.Nodup.of_map Prod.fst ?_
  rw [Std.TreeMap.map_fst_toList_eq_keys]
  exact nodup_keys m

theorem toList_insert_perm {m : Std.TreeMap K V} (h : k ∉ m) (v : V) :
    (m.insert k v).toList.Perm ((k, v) :: m.toList) := by
  have hnew : (k, v) ∉ m.toList := fun hin => h (mem_iff.2 ⟨v, mem_toList.1 hin⟩)
  refine (List.perm_ext_iff_of_nodup (nodup_toList _) (List.nodup_cons.2 ⟨hnew, nodup_toList m⟩)).2 ?_
  rintro ⟨a, w⟩
  rw [mem_toList, getElem?_insert, List.mem_cons, mem_toList, Prod.mk.injEq]
  by_cases ha : a = k
  · subst ha
    have hnone : m[a]? = none := by
      cases hw : m[a]? with
      | none => rfl
      | some w => exact absurd (mem_iff.2 ⟨w, hw⟩) h
    simp [hnone, eq_comm]
  · simp [ha]

theorem toList_perm_erase {m : Std.TreeMap K V} {v : V} (h : m[k]? = some v) :
    m.toList.Perm ((k, v) :: (m.erase k).toList) := by
  have hgone : (k, v) ∉ (m.erase k).toList := by
    rw [mem_toList, getElem?_erase, if_pos rfl]
    simp
  refine (List.perm_ext_iff_of_nodup (nodup_toList m) (List.nodup_cons.2 ⟨hgone, nodup_toList _⟩)).2 ?_
  rintro ⟨a, w⟩
  rw [List.mem_cons, mem_toList, mem_toList, getElem?_erase, Prod.mk.injEq]
  by_cases ha : a = k
  · subst ha
    simp [h, eq_comm]
  · simp [ha]

theorem toList_erase_of_notMem {m : Std.TreeMap K V} (h : k ∉ m) : (m.erase k).toList.Perm m.toList := by
  refine (List.perm_ext_iff_of_nodup (nodup_toList _) (nodup_toList m)).2 ?_
  rintro ⟨a, w⟩
  rw [mem_toList, mem_toList, getElem?_erase]
  split
  · rename_i ha
    subst ha
    refine iff_of_false (by simp) fun hw => h (mem_iff.2 ⟨w, hw⟩)
  · exact Iff.rfl

/-! ## Sums over the values -/

/-- What the values of a map add up to. -/
def sumValues {M : Type*} [AddCommMonoid M] (f : V → M) (m : Std.TreeMap K V) : M := (m.toList.map fun p => f p.2).sum

variable {M : Type*} [AddCommMonoid M] (f : V → M)

theorem sumValues_insert {m : Std.TreeMap K V} (h : k ∉ m) (v : V) :
    sumValues f (m.insert k v) = f v + sumValues f m := by
  unfold sumValues
  rw [((toList_insert_perm h v).map _).sum_eq, List.map_cons, List.sum_cons]

theorem sumValues_eq_erase {m : Std.TreeMap K V} {v : V} (h : m[k]? = some v) :
    sumValues f m = f v + sumValues f (m.erase k) := by
  unfold sumValues
  rw [((toList_perm_erase h).map _).sum_eq, List.map_cons, List.sum_cons]

theorem sumValues_erase_of_notMem {m : Std.TreeMap K V} (h : k ∉ m) :
    sumValues f (m.erase k) = sumValues f m :=
  ((toList_erase_of_notMem h).map _).sum_eq

theorem sumValues_empty : sumValues f (∅ : Std.TreeMap K V) = 0 := by
  show (List.map _ []).sum = 0
  rfl

end SlateOS.Foundation.OrderedMap

/-! ## An ordered queue with a reverse index

A queue of named items ordered by rank is kept as a tree keyed by (rank, name) and an index from name to
rank. `Views` says that both are views of one finite map from name to item; inserting an item and removing
one, each in both maps, update that map.
-/

namespace SlateOS.Foundation.IndexedQueue

universe u v w

/-- The key of a pair. -/
theorem eq_toLex_iff {ι : Type u} {κ : Type v} {k : κ ×ₗ ι} {r : κ} {i : ι} :
    k = toLex (r, i) ↔ (ofLex k).1 = r ∧ (ofLex k).2 = i := by
  constructor
  · rintro rfl
    exact ⟨rfl, rfl⟩
  · rintro ⟨rfl, rfl⟩
    rfl

variable {ι : Type u} {κ : Type v} {V : Type w} [LinearOrder ι] [LinearOrder κ]

/-- The tree and the index are views of the queue `q`. -/
structure Views (rank : V → κ) (tree : Std.TreeMap (κ ×ₗ ι) V) (index : Std.TreeMap ι κ)
    (q : ι → Option V) : Prop where
  tree : ∀ (k : κ ×ₗ ι) v, tree[k]? = some v ↔ q (ofLex k).2 = some v ∧ rank v = (ofLex k).1
  index : ∀ i, index[i]? = (q i).map rank

namespace Views

variable {rank : V → κ} {tree : Std.TreeMap (κ ×ₗ ι) V} {index : Std.TreeMap ι κ} {q : ι → Option V}

theorem empty (rank : V → κ) :
    Views rank (∅ : Std.TreeMap (κ ×ₗ ι) V) (∅ : Std.TreeMap ι κ) fun _ => none where
  tree := by
    intro k v
    simp
  index := by
    intro i
    simp

theorem mem_tree (h : Views rank tree index q) (k : κ ×ₗ ι) :
    k ∈ tree ↔ ∃ v, q (ofLex k).2 = some v ∧ rank v = (ofLex k).1 := by
  rw [OrderedMap.mem_iff]
  exact exists_congr fun v => h.tree k v

/-- The rank and the key under which a queued item stands. -/
theorem key_mem (h : Views rank tree index q) {i : ι} {v : V} (hv : q i = some v) :
    (toLex (rank v, i) : κ ×ₗ ι) ∈ tree := (h.mem_tree _).2 ⟨v, hv, rfl⟩

theorem index_eq_none (h : Views rank tree index q) {i : ι} : index[i]? = none ↔ q i = none := by
  rw [h.index, Option.map_eq_none_iff]

/-- One item leaves both maps. -/
theorem erase (h : Views rank tree index q) {i : ι} {v : V} (hv : q i = some v) :
    Views rank (tree.erase (toLex (rank v, i))) (index.erase i) (Function.update q i none) where
  tree := by
    intro k w
    rw [OrderedMap.getElem?_erase]
    by_cases hk : (ofLex k).2 = i
    · rw [hk, Function.update_self]
      constructor
      · intro hw
        split at hw
        · exact absurd hw (by simp)
        next hne =>
        -- the item of this name stands under one key only
        obtain ⟨hq, hrank⟩ := (h.tree k w).1 hw
        rw [hk, hv] at hq
        cases hq
        exact absurd (eq_toLex_iff.2 ⟨hrank.symm, hk⟩) hne
      · rintro ⟨hnone, -⟩
        exact absurd hnone (by simp)
    · have hne : k ≠ toLex (rank v, i) := fun heq => hk (eq_toLex_iff.1 heq).2
      rw [if_neg hne, Function.update_of_ne hk]
      exact h.tree k w
  index := by
    intro j
    rw [OrderedMap.getElem?_erase]
    by_cases hj : j = i
    · rw [if_pos hj, hj, Function.update_self]
      rfl
    · rw [if_neg hj, Function.update_of_ne hj]
      exact h.index j

/-- An item of a new name joins both maps. -/
theorem insert (h : Views rank tree index q) {i : ι} (hnew : q i = none) (v : V) :
    Views rank (tree.insert (toLex (rank v, i)) v) (index.insert i (rank v))
      (Function.update q i (some v)) where
  tree := by
    intro k w
    rw [OrderedMap.getElem?_insert]
    by_cases hk : (ofLex k).2 = i
    · rw [hk, Function.update_self]
      constructor
      · intro hw
        split at hw
        next heq => exact ⟨hw, Option.some.inj hw ▸ (eq_toLex_iff.1 heq).1.symm⟩
        next =>
        have hq := ((h.tree k w).1 hw).1
        rw [hk, hnew] at hq
        exact absurd hq (by simp)
      · rintro ⟨hw, hrank⟩
        cases hw
        rw [if_pos (eq_toLex_iff.2 ⟨hrank.symm, hk⟩)]
    · have hne : k ≠ toLex (rank v, i) := fun heq => hk (eq_toLex_iff.1 heq).2
      rw [if_neg hne, Function.update_of_ne hk]
      exact h.tree k w
  index := by
    intro j
    rw [OrderedMap.getElem?_insert]
    by_cases hj : j = i
    · rw [if_pos hj, hj, Function.update_self]
      rfl
    · rw [if_neg hj, Function.update_of_ne hj]
      exact h.index j

end Views

end SlateOS.Foundation.IndexedQueue
