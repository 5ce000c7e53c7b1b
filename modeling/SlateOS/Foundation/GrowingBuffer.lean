/-
# SlateOS.Foundation.GrowingBuffer -- buffers written at any offset, and their block bitmaps

A buffer that grows to hold what is written into it, and a bitmap of bytes that grows the same way and
remembers which blocks have been written. Both are read by position: `getElem?_write` and `has_markFrom`
say what a write changes, and `prefixFull_iff` what the scan for a gap-free prefix finds.
-/
import SlateOS.Foundation.BitScan

namespace SlateOS.Foundation.GrowingBuffer

universe u

variable {α : Type u}

/-- The buffer with at least `n` cells, the new ones filled with `x`. -/
def grow (x : α) (n : Nat) (l : List α) : List α := l ++ List.replicate (n - l.length) x

theorem length_grow (x : α) (n : Nat) (l : List α) : (grow x n l).length = max l.length n := by
  simp only [grow, List.length_append, List.length_replicate]
  omega

variable {x : α}

theorem getElem?_grow_of_lt {n i : Nat} {l : List α} (h : i < l.length) :
    (grow x n l)[i]? = l[i]? := List.getElem?_append_left h

/-- `data` written at `pos`, the gap before it, if any, filled with `x`. -/
def write (x : α) (l : List α) (pos : Nat) (data : List α) : List α :=
  (grow x (pos + data.length) l).take pos ++ data ++
    (grow x (pos + data.length) l).drop (pos + data.length)

theorem length_write (x : α) (l : List α) (pos : Nat) (data : List α) :
    (write x l pos data).length = max l.length (pos + data.length) := by
  simp only [write, List.length_append, List.length_take, List.length_drop, length_grow]
  omega

/-- What was written is read back. -/
theorem getElem?_write_of_mem {l data : List α} {pos i : Nat} (h : pos ≤ i)
    (h' : i < pos + data.length) : (write x l pos data)[i]? = data[i - pos]? := by
  have hlen : ((grow x (pos + data.length) l).take pos).length = pos := by
    rw [List.length_take, length_grow]
    omega
  rw [write, List.append_assoc, List.getElem?_append_right (by omega), hlen,
    List.getElem?_append_left (by omega)]

/-- A gap before what is written is filled. -/
theorem getElem?_write_gap {l data : List α} {pos i : Nat} (hi : l.length ≤ i) (h : i < pos) :
    (write x l pos data)[i]? = some x := by
  have hlen : ((grow x (pos + data.length) l).take pos).length = pos := by
    rw [List.length_take, length_grow]
    omega
  unfold write
  rw [List.append_assoc, List.getElem?_append_left (by omega), List.getElem?_take_of_lt h]
  unfold grow
  rw [List.getElem?_append_right hi, List.getElem?_replicate_of_lt (by omega)]

/-- What was there is kept outside the written range. -/
theorem getElem?_write_of_notMem {l data : List α} {pos i : Nat} (hi : i < l.length)
    (h : i < pos ∨ pos + data.length ≤ i) : (write x l pos data)[i]? = l[i]? := by
  have hlen : ((grow x (pos + data.length) l).take pos).length = pos := by
    rw [List.length_take, length_grow]
    omega
  rcases h with h | h
  · rw [write, List.append_assoc, List.getElem?_append_left (by omega), List.getElem?_take_of_lt h,
      getElem?_grow_of_lt hi]
  · rw [write, List.getElem?_append_right (by rw [List.length_append]; omega), List.length_append,
      hlen, List.getElem?_drop, ← getElem?_grow_of_lt (x := x) (n := pos + data.length) hi]
    congr 1
    omega

/-! ## Bitmaps -/

/-- Bit `i`; the bits beyond the bitmap are clear. -/
def has (l : List (BitVec 8)) (i : Nat) : Bool :=
  match l[i / 8]? with
  | some b => b.getLsbD (i % 8)
  | none => false

theorem has_nil (i : Nat) : has [] i = false := rfl

/-- New bytes are clear. -/
theorem has_grow (n : Nat) (l : List (BitVec 8)) (i : Nat) : has (grow 0 n l) i = has l i := by
  unfold has
  by_cases hi : i / 8 < l.length
  · rw [getElem?_grow_of_lt hi]
  · have hnone : l[i / 8]? = none := List.getElem?_eq_none (by omega)
    have hzero : (grow (0 : BitVec 8) n l)[i / 8]? = none ∨
        (grow (0 : BitVec 8) n l)[i / 8]? = some 0 := by
      rw [grow, List.getElem?_append_right (by omega), List.getElem?_replicate]
      split
      · exact Or.inr rfl
      · exact Or.inl rfl
    rw [hnone]
    rcases hzero with h | h <;> rw [h]
    exact BitVec.getLsbD_zero

/-- Sets bit `i` of a bitmap long enough to have it. -/
def mark (l : List (BitVec 8)) (i : Nat) : List (BitVec 8) :=
  l.modify (i / 8) fun b => BitScan.setBit b ⟨i % 8, Nat.mod_lt _ (by decide)⟩

theorem length_mark (l : List (BitVec 8)) (i : Nat) : (mark l i).length = l.length :=
  List.length_modify _ _ _

variable {l : List (BitVec 8)} {i : Nat}

theorem has_mark (hi : i / 8 < l.length) (j : Nat) :
    has (mark l i) j = (has l j || decide (j = i)) := by
  have hbit : i % 8 < 8 := Nat.mod_lt _ (by decide)
  unfold has mark
  by_cases hbyte : i / 8 = j / 8
  · -- the byte of `i` is also that of `j`
    rw [← hbyte, List.getElem?_modify_eq, List.getElem?_eq_getElem hi]
    have hset := BitScan.getLsbD_setBit l[i / 8] ⟨i % 8, hbit⟩ ⟨j % 8, Nat.mod_lt _ (by decide)⟩
    have hiff : (j % 8 = i % 8) ↔ j = i := by omega
    simpa [hiff] using hset
  · have hne : ¬j = i := fun h => hbyte (by rw [h])
    rw [List.getElem?_modify_ne _ _ hbyte, decide_eq_false hne, Bool.or_false]

/-- Sets `n` bits from `first` on, in order. -/
def markFrom (l : List (BitVec 8)) (first : Nat) : Nat → List (BitVec 8)
  | 0 => l
  | n + 1 => mark (markFrom l first n) (first + n)

theorem length_markFrom (l : List (BitVec 8)) (first n : Nat) :
    (markFrom l first n).length = l.length := by
  induction n with
  | zero => rfl
  | succ n ih => exact (length_mark _ _).trans ih

theorem has_markFrom {first n : Nat} (h : first + n ≤ 8 * l.length) (j : Nat) :
    has (markFrom l first n) j = (has l j || decide (first ≤ j ∧ j < first + n)) := by
  induction n with
  | zero =>
    have hempty : ¬(first ≤ j ∧ j < first + 0) := by omega
    rw [markFrom, decide_eq_false hempty, Bool.or_false]
  | succ n ih =>
    have hbyte : (first + n) / 8 < (markFrom l first n).length := by
      rw [length_markFrom]
      omega
    rw [markFrom, has_mark hbyte, ih (by omega), Bool.or_assoc]
    congr 1
    rw [Bool.eq_iff_iff]
    simp only [Bool.or_eq_true, decide_eq_true_eq]
    omega

/-- Whether the first `n` bits are set: the full bytes, then the rest of the last one. -/
def prefixFull (l : List (BitVec 8)) (n : Nat) : Bool :=
  (List.range (n / 8)).all (fun i => l[i]? == some 0xFF#8) &&
    (n % 8 == 0 ||
      match l[n / 8]? with
      | some b => b &&& ((1#8 <<< (n % 8)) - 1#8) == (1#8 <<< (n % 8)) - 1#8
      | none => false)

theorem getLsbD_mask (r i : Fin 8) :
    ((1#8 <<< (r : Nat)) - 1#8).getLsbD i = decide (i < r) := by
  revert r i
  decide

theorem eq_allOnes_iff {b : BitVec 8} : b = 0xFF#8 ↔ ∀ i < 8, b.getLsbD i = true := by
  constructor
  · rintro rfl
    decide
  · intro h
    refine BitVec.eq_of_getLsbD_eq fun i hi => ?_
    have hones : ∀ i < 8, (0xFF#8).getLsbD i = true := by decide
    rw [h i hi, hones i hi]

theorem and_mask_eq_iff {b : BitVec 8} {r : Nat} (hr : r < 8) :
    b &&& ((1#8 <<< r) - 1#8) = (1#8 <<< r) - 1#8 ↔ ∀ i < r, b.getLsbD i = true := by
  have hmask : ∀ i < 8, ((1#8 <<< r) - 1#8).getLsbD i = decide (i < r) := fun i hi =>
    getLsbD_mask ⟨r, hr⟩ ⟨i, hi⟩
  constructor
  · intro h i hi
    have hbit := congrArg (fun v : BitVec 8 => v.getLsbD i) h
    simp only [BitVec.getLsbD_and, hmask i (by omega), hi, decide_true, Bool.and_true] at hbit
    exact hbit
  · intro h
    refine BitVec.eq_of_getLsbD_eq fun i hi => ?_
    rw [BitVec.getLsbD_and, hmask i hi]
    by_cases hir : i < r
    · simp [hir, h i hir]
    · simp [hir]

theorem has_eq_of_byte {k i : Nat} (hi : i < 8) :
    has l (8 * k + i) = match l[k]? with
      | some b => b.getLsbD i
      | none => false := by
  have hdiv : (8 * k + i) / 8 = k := by omega
  have hmod : (8 * k + i) % 8 = i := by omega
  rw [has, hdiv, hmod]

/-- A full byte. -/
theorem byte_eq_iff {k : Nat} :
    l[k]? = some 0xFF#8 ↔ ∀ i < 8, has l (8 * k + i) = true := by
  constructor
  · intro h i hi
    rw [has_eq_of_byte hi, h]
    exact eq_allOnes_iff.1 rfl i hi
  · intro h
    cases hb : l[k]? with
    | none =>
      have h0 := h 0 (by decide)
      rw [has_eq_of_byte (by decide), hb] at h0
      cases h0
    | some b =>
      rw [Option.some.injEq, eq_allOnes_iff]
      intro i hi
      have hi' := h i hi
      rw [has_eq_of_byte hi, hb] at hi'
      exact hi'

/-- The first bits of a byte. -/
theorem byte_mask_iff {k r : Nat} (h0 : 0 < r) (hr : r < 8) :
    (match l[k]? with
      | some b => b &&& ((1#8 <<< r) - 1#8) == (1#8 <<< r) - 1#8
      | none => false) = true ↔ ∀ i < r, has l (8 * k + i) = true := by
  cases hb : l[k]? with
  | none =>
    refine ⟨fun h => Bool.noConfusion h, fun h => ?_⟩
    have hbit := h 0 h0
    rw [has_eq_of_byte (by decide), hb] at hbit
    cases hbit
  | some b =>
    have hread : ∀ i < r, has l (8 * k + i) = b.getLsbD i := by
      intro i hi
      rw [has_eq_of_byte (by omega), hb]
    show (b &&& ((1#8 <<< r) - 1#8) == (1#8 <<< r) - 1#8) = true ↔ _
    rw [beq_iff_eq, and_mask_eq_iff hr]
    constructor
    · intro h i hi
      rw [hread i hi]
      exact h i hi
    · intro h i hi
      rw [← hread i hi]
      exact h i hi

/-- **The scan finds a gap-free prefix.** -/
theorem prefixFull_iff {n : Nat} :
    prefixFull l n = true ↔ ∀ i < n, has l i = true := by
  have hbytes : (List.range (n / 8)).all (fun i => l[i]? == some 0xFF#8) = true ↔
      ∀ k < n / 8, ∀ i < 8, has l (8 * k + i) = true := by
    simp only [List.all_eq_true, List.mem_range, beq_iff_eq, byte_eq_iff]
  rw [prefixFull, Bool.and_eq_true, hbytes, Bool.or_eq_true, beq_iff_eq]
  have hsplit : ∀ i, 8 * (i / 8) + i % 8 = i := fun i => Nat.div_add_mod i 8
  constructor
  · rintro ⟨hfull, hrest⟩ i hi
    by_cases hlast : i / 8 < n / 8
    · have := hfull (i / 8) hlast (i % 8) (Nat.mod_lt _ (by decide))
      rwa [hsplit] at this
    · -- bit `i` lies in the byte that is not full
      have hmod : n % 8 ≠ 0 := by omega
      have hmask := (byte_mask_iff (by omega) (Nat.mod_lt _ (by decide))).1
        (hrest.resolve_left hmod) (i % 8) (by omega)
      have hsame : n / 8 = i / 8 := by omega
      rwa [hsame, hsplit] at hmask
  · intro h
    refine ⟨fun k hk i hi => h _ (by omega), ?_⟩
    by_cases hmod : n % 8 = 0
    · exact Or.inl hmod
    · exact Or.inr ((byte_mask_iff (by omega) (Nat.mod_lt _ (by decide))).2 fun i hi => h _ (by omega))

end SlateOS.Foundation.GrowingBuffer
