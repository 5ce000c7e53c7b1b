/-
# SlateOS.Mm.Frame.Lists -- the free lists represent a free space

`Represents a L` connects the allocator's memory to the abstract free space of
`Foundation.BuddySpace`: the list of order `o` threaded through the free memory is exactly `L o`,
its head, tail and count agree with it, `page_info` holds a block's order at its first frame and
nowhere else, and the blocks form a `Space`. `push_free` adds a block to the space, `remove_free`
removes one; these two lemmas are all the later modules use of the list code.
-/
import SlateOS.Foundation.BuddySpace
import SlateOS.Mm.Frame.Buddy

namespace SlateOS.Mm.Frame.Lists

open Foundation.IntrusiveList Foundation.MachineInt Foundation.Dyadic Foundation.BuddySpace Mm.Frame.Buddy
open Function (update update_self update_of_ne)

/-! ## Frames and levels -/

/-- A frame is a block of this level. -/
def frameLevel : Nat := 14

theorem frameSize_eq : frameSize = 2 ^ frameLevel := rfl

theorem frameSize_pos : 0 < frameSize := by decide

theorem frameSize_shl (o : Nat) : frameSize <<< o = 2 ^ (frameLevel + o) := by
  rw [Nat.shiftLeft_eq, frameSize_eq, Nat.pow_add]

theorem frameSize_mul_shl (o : Nat) : frameSize * (1 <<< o) = 2 ^ (frameLevel + o) := by
  rw [Nat.one_shiftLeft, frameSize_eq, Nat.pow_add]

theorem frameSize_dvd {x o : Nat} (h : 2 ^ (frameLevel + o) ∣ x) : frameSize ∣ x :=
  (Nat.pow_dvd_pow 2 (Nat.le_add_right _ _)).trans h

theorem frameIndex_mul {x : Nat} (h : frameSize ∣ x) : frameIndex x * frameSize = x :=
  Nat.div_mul_cancel h

@[simp] theorem frameIndex_of_mul (f : Nat) : frameIndex (f * frameSize) = f :=
  Nat.mul_div_cancel _ frameSize_pos

theorem frameIndex_inj {x y : Nat} (hx : frameSize ∣ x) (hy : frameSize ∣ y)
    (h : frameIndex x = frameIndex y) : x = y := by
  rw [← frameIndex_mul hx, ← frameIndex_mul hy, h]

/-! ## Representation -/

/-- The blocks of order `o` read off the list, head first. -/
def freeBlocks (a : BuddyAllocator) (o : Nat) : List Nat :=
  walk a.mem 0 (a.freeLists o).count (a.freeLists o).head

/-- The free space an allocator manages ends at its last frame. -/
abbrev FreeSpace (a : BuddyAllocator) (L : Nat → List Nat) : Prop :=
  Space frameLevel maxOrder (a.totalFrames * frameSize) L

/-- A block of managed memory outside the free space. -/
abbrev FreeFits (a : BuddyAllocator) (L : Nat → List Nat) (x o : Nat) : Prop :=
  Fits frameLevel maxOrder (a.totalFrames * frameSize) L x o

/-- **The representation invariant** of the free lists. -/
structure Represents (a : BuddyAllocator) (L : Nat → List Nat) : Prop where
  linked : ∀ o, Linked a.mem 0 (a.freeLists o).head (a.freeLists o).tail (L o)
  count : ∀ o, (a.freeLists o).count = (L o).length
  info : ∀ f o, o ≤ maxOrder → (a.pageInfo f = o ↔ f * frameSize ∈ L o)
  info_other : ∀ f, (∀ o, f * frameSize ∉ L o) → a.pageInfo f = infoAllocated
  space : FreeSpace a L
  total : a.totalFrames * frameSize ≤ 2 ^ 64

variable {a : BuddyAllocator} {L : Nat → List Nat} {x y o p : Nat}

theorem Represents.ne_zero (h : Represents a L) (hx : x ∈ L o) : x ≠ 0 :=
  fun he => (h.linked o).null_notMem (he ▸ hx)

theorem Represents.order_le (h : Represents a L) (hx : x ∈ L o) : o ≤ maxOrder :=
  h.space.order_le hx

theorem Represents.dvd (h : Represents a L) (hx : x ∈ L o) : frameSize ∣ x :=
  frameSize_dvd (h.space.aligned hx)

/-- An address starts at most one free block. -/
theorem Represents.order_unique (h : Represents a L) (hx : x ∈ L o) (hy : x ∈ L p) : o = p :=
  (h.space.disjoint hx hy (within_base _ _) (within_base _ _)).2

/-- The free frames are at most the managed ones. -/
theorem Represents.weight_le (h : Represents a L) : weight maxOrder L ≤ a.totalFrames :=
  Nat.le_of_mul_le_mul_right h.space.weight_le frameSize_pos

theorem Represents.totalFrames_le (h : Represents a L) : a.totalFrames ≤ 2 ^ 50 := by
  have ht := h.total
  have hf : frameSize = 16384 := rfl
  rw [hf] at ht
  omega

theorem Represents.length_le (h : Represents a L) (o : Nat) : (L o).length ≤ a.totalFrames := by
  by_cases ho : o ≤ maxOrder
  · exact (length_le_weight ho).trans h.weight_le
  · have hnil : L o = [] := List.eq_nil_iff_forall_not_mem.mpr fun x hx => ho (h.order_le hx)
    simp [hnil]

/-- Reading the list back gives the blocks it represents. -/
theorem Represents.freeBlocks_eq (h : Represents a L) : freeBlocks a = L := by
  funext o
  exact (h.linked o).walk_eq (h.count o).ge

/-- As many steps as there are frames reach the end of every list. -/
theorem Represents.walk_totalFrames (h : Represents a L) (o : Nat) :
    walk a.mem 0 a.totalFrames (a.freeLists o).head = L o :=
  (h.linked o).walk_eq (h.length_le o)

/-- The allocator no range has been added to manages the empty space. -/
theorem represents_empty {totalFrames : Nat} (ht : totalFrames * frameSize ≤ 2 ^ 64) :
    Represents (.empty totalFrames) fun _ => [] where
  linked _ := linked_nil _ _
  count _ := rfl
  info f o ho := by
    have hm : maxOrder = 10 := rfl
    simp only [BuddyAllocator.empty, infoAllocated, List.not_mem_nil, iff_false]
    omega
  info_other _ _ := rfl
  space :=
    { order_le := fun h => absurd h List.not_mem_nil
      aligned := fun h => absurd h List.not_mem_nil
      bounded := fun h => absurd h List.not_mem_nil
      nodup := fun _ => List.nodup_nil
      disjoint := fun h => absurd h List.not_mem_nil }
  total := ht

/-- The reference counts and the counter of free frames are no part of the lists. -/
theorem Represents.counts (h : Represents a L) (rc : Nat → Nat) (n : Nat) :
    Represents { a with refcount := rc, freeFrames := n } L :=
  ⟨h.linked, h.count, h.info, h.info_other, h.space, h.total⟩

/-- Only the nodes of free blocks matter: their owners may write anything to outstanding memory. -/
theorem Represents.write_outside (h : Represents a L) (n : Node Nat)
    (hy : ¬ Cover frameLevel L y) : Represents { a with mem := write a.mem y n } L where
  linked o := (h.linked o).congr fun _ hx =>
    write_of_ne _ _ fun he => hy (he ▸ cover_of_mem hx)
  count := h.count
  info := h.info
  info_other := h.info_other
  space := h.space
  total := h.total

/-! ## Frame lemmas of the list operations -/

@[simp] theorem pushFree_totalFrames : (a.pushFree x o).totalFrames = a.totalFrames := by
  simp only [BuddyAllocator.pushFree]
  split <;> rfl

@[simp] theorem pushFree_freeFrames : (a.pushFree x o).freeFrames = a.freeFrames := by
  simp only [BuddyAllocator.pushFree]
  split <;> rfl

@[simp] theorem pushFree_refcount : (a.pushFree x o).refcount = a.refcount := by
  simp only [BuddyAllocator.pushFree]
  split <;> rfl

@[simp] theorem removeFree_totalFrames : (a.removeFree x o).totalFrames = a.totalFrames := rfl

@[simp] theorem removeFree_freeFrames : (a.removeFree x o).freeFrames = a.freeFrames := rfl

@[simp] theorem removeFree_refcount : (a.removeFree x o).refcount = a.refcount := rfl

/-! ## Adding a block -/

/-- `page_info` after a block's order was stored at its first frame. -/
theorem Represents.info_add {L' : Nat → List Nat} (h : Represents a L) (hf : FreeFits a L x o)
    (hadd : Adds L x o L') :
    (∀ f p, p ≤ maxOrder → (update a.pageInfo (frameIndex x) o f = p ↔
      f * frameSize ∈ L' p)) ∧
    ∀ f, (∀ p, f * frameSize ∉ L' p) →
      update a.pageInfo (frameIndex x) o f = infoAllocated := by
  have hx : frameSize ∣ x := frameSize_dvd hf.aligned
  have hnew : ∀ p, x ∉ L p := fun p hm => hf.fresh x (within_base _ _) (cover_of_mem hm)
  constructor
  · intro f p hp
    rw [hadd.mem_iff]
    by_cases hfx : f = frameIndex x
    · subst hfx
      simp [frameIndex_mul hx, hnew p, eq_comm]
    · have hne : f * frameSize ≠ x := by
        rintro rfl
        simp at hfx
      simp [hfx, hne, h.info f p hp]
  · intro f hall
    have hfx : f ≠ frameIndex x := by
      rintro rfl
      refine hall o ?_
      rw [frameIndex_mul hx]
      exact hadd.mem_self
    rw [update_of_ne hfx]
    exact h.info_other f fun p hm => hall p (hadd.mem_of_mem hm)

/-- A list's count cannot reach the counter's end: one more block still is at most every frame. -/
theorem Represents.count_add {L' : Nat → List Nat} (h : Represents a L) (hadd : Adds L x o L') :
    saturatingAdd 64 (a.freeLists o).count 1 = (L' o).length := by
  have hlen : (L' o).length = (L o).length + 1 := by simpa using hadd.perm.length_eq
  have hle : (L o).length ≤ a.totalFrames := h.length_le o
  have ht := h.totalFrames_le
  rw [h.count o, saturatingAdd_of_lt (by omega), hlen]

/-- The lists after `push_free`: a block inside the ISA DMA zone goes to the back of its list, another to the
front. -/
def listed (L : Nat → List Nat) (x o : Nat) : Nat → List Nat :=
  update L o (if inDmaZone x o then L o ++ [x] else x :: L o)

theorem adds_listed (L : Nat → List Nat) (x o : Nat) : Adds L x o (listed L x o) := by
  refine ⟨?_, fun p hp => update_of_ne hp _ _⟩
  rw [listed, update_self]
  split
  · exact List.perm_append_singleton x (L o)
  · exact .refl _

/-- **`push_free` lists the block where it belongs.** -/
theorem Represents.pushFree_listed (h : Represents a L) (hf : FreeFits a L x o) (hx0 : x ≠ 0) :
    Represents (a.pushFree x o) (listed L x o) := by
  have hnew : ∀ p, x ∉ L p := fun p hm => hf.fresh x (within_base _ _) (cover_of_mem hm)
  have hlo := h.linked o
  have hadd := adds_listed L x o
  unfold BuddyAllocator.pushFree
  by_cases hzone : inDmaZone x o ∧ (a.freeLists o).tail ≠ 0
  · -- at the back: the list is not empty, and its last block is on no other list
    have hne : L o ≠ [] := fun he => hzone.2 (hlo.tail_eq_null_iff.mpr he)
    have htail : (a.freeLists o).tail ∈ L o := hlo.tail_eq ▸ getLastD_mem hne
    have hback : listed L x o = update L o (L o ++ [x]) := by rw [listed, if_pos hzone.1]
    simp only [if_pos hzone, BuddyAllocator.appendFree]
    refine ⟨fun p => ?_, fun p => ?_, (h.info_add hf hadd).1, (h.info_add hf hadd).2,
      h.space.add hf hadd, h.total⟩
    · by_cases hp : p = o
      · subst hp
        simpa [hback] using hlo.linkBack hne (hnew p) hx0
      · simp only [hback, update_of_ne hp]
        refine (h.linked p).congr fun y hy => linkBack_of_notMem ?_ ?_
        · rintro rfl
          exact hnew p hy
        · rintro rfl
          exact hp (h.order_unique hy htail)
    · by_cases hp : p = o
      · subst hp
        simpa using h.count_add hadd
      · simp [listed, update_of_ne hp, h.count p]
  · -- at the front, which is the back of an empty list
    have hfront : listed L x o = update L o (x :: L o) := by
      rw [listed]
      by_cases hin : inDmaZone x o
      · have hnil : L o = [] := hlo.tail_eq_null_iff.mp (not_not.mp fun ht => hzone ⟨hin, ht⟩)
        rw [if_pos hin, hnil]
        rfl
      · rw [if_neg hin]
    simp only [if_neg hzone]
    refine ⟨fun p => ?_, fun p => ?_, (h.info_add hf hadd).1, (h.info_add hf hadd).2,
      h.space.add hf hadd, h.total⟩
    · by_cases hp : p = o
      · subst hp
        simpa [hfront] using hlo.linkFront (hnew p) hx0
      · simp only [hfront, update_of_ne hp]
        refine (h.linked p).congr fun y hy => linkFront_of_notMem ?_ ?_
        · rintro rfl
          exact hnew p hy
        · rintro rfl
          exact hp (h.order_unique hy (hlo.head_mem (h.ne_zero hy)))
    · by_cases hp : p = o
      · subst hp
        simpa using h.count_add hadd
      · simp [listed, update_of_ne hp, h.count p]

/-- **`push_free` adds the block to the free space.** -/
theorem Represents.pushFree (h : Represents a L) (hf : FreeFits a L x o) (hx0 : x ≠ 0) :
    ∃ L', Adds L x o L' ∧ Represents (a.pushFree x o) L' :=
  ⟨_, adds_listed L x o, h.pushFree_listed hf hx0⟩

/-! ## Removing a block -/

/-- `page_info` after a block's first frame was marked allocated. -/
theorem Represents.info_remove {L' : Nat → List Nat} (h : Represents a L) (hadd : Adds L' x o L) :
    (∀ f p, p ≤ maxOrder → (update a.pageInfo (frameIndex x) infoAllocated f = p ↔
      f * frameSize ∈ L' p)) ∧
    ∀ f, (∀ p, f * frameSize ∉ L' p) →
      update a.pageInfo (frameIndex x) infoAllocated f = infoAllocated := by
  have hxf : frameSize ∣ x := h.dvd hadd.mem_self
  have hgone : ∀ p, x ∉ L' p :=
    fun p hm => (h.space.remove hadd).2.fresh x (within_base _ _) (cover_of_mem hm)
  have hmem : ∀ f p, f ≠ frameIndex x → (f * frameSize ∈ L p ↔ f * frameSize ∈ L' p) := by
    intro f p hfx
    have hne : f * frameSize ≠ x := by
      rintro rfl
      simp at hfx
    rw [hadd.mem_iff]
    simp [hne]
  constructor
  · intro f p hp
    by_cases hfx : f = frameIndex x
    · subst hfx
      have hm : maxOrder = 10 := rfl
      have hne : infoAllocated ≠ p := by
        have : infoAllocated = 255 := rfl
        omega
      simp [frameIndex_mul hxf, hgone p, hne]
    · rw [update_of_ne hfx, h.info f p hp, hmem f p hfx]
  · intro f hall
    by_cases hfx : f = frameIndex x
    · rw [hfx, update_self]
    · rw [update_of_ne hfx]
      exact h.info_other f fun p hm => hall p ((hmem f p hfx).mp hm)

/-- **`remove_free` removes the block from the free space.** -/
theorem Represents.removeFree (h : Represents a L) (hx : x ∈ L o) :
    Represents (a.removeFree x o) (update L o ((L o).erase x)) := by
  have hadd := adds_erase hx
  obtain ⟨hprev, hnext⟩ := (h.linked o).neighbours hx
  refine ⟨fun p => ?_, fun p => ?_, (h.info_remove hadd).1, (h.info_remove hadd).2,
    (h.space.remove hadd).1, h.total⟩
  · by_cases hp : p = o
    · subst hp
      simpa [BuddyAllocator.removeFree] using (h.linked p).unlink hx
    · simp only [BuddyAllocator.removeFree, update_of_ne hp]
      refine (h.linked p).congr fun y hy => unlink_of_notMem ?_ ?_ ?_
      · rintro rfl
        exact hp (h.order_unique hy hx)
      · rintro hne rfl
        exact hp (h.order_unique hy (hprev hne))
      · rintro hne rfl
        exact hp (h.order_unique hy (hnext hne))
  · by_cases hp : p = o
    · subst hp
      simp [BuddyAllocator.removeFree, h.count p, List.length_erase_of_mem hx]
    · simp [BuddyAllocator.removeFree, update_of_ne hp, h.count p]

/-- `pop_free` succeeds exactly on a non-empty list, and removes its head. -/
theorem Represents.popFree (h : Represents a L) (hne : (a.freeLists o).head ≠ 0) :
    (a.freeLists o).head ∈ L o ∧
      a.popFree o = some ((a.freeLists o).head, a.removeFree (a.freeLists o).head o) :=
  ⟨(h.linked o).head_mem hne, by simp [BuddyAllocator.popFree, hne]⟩

end SlateOS.Mm.Frame.Lists
