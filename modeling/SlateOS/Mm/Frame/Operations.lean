/-
# SlateOS.Mm.Frame.Operations -- what each allocator operation does to the free space

One specification lemma per operation of the buddy allocator, stated over `Represents`. The loops
carry a block "in hand" (`Hand`): a block of managed memory outside the free space. Splitting and
coalescing exchange the block in hand for another one and list or unlist the difference; `Keeps`
says that nothing is lost in the exchange. Allocation ends with a block in hand, freeing starts with
one.
-/
import SlateOS.Mm.Frame.Lists

namespace SlateOS.Mm.Frame.Operations

open Foundation.IntrusiveList Foundation.MachineInt Foundation.Dyadic Foundation.BuddySpace Kernel
open Mm.Frame.Buddy Mm.Frame.Buddy.BuddyAllocator Mm.Frame.Lists

/-! ## A block in hand -/

/-- A block outside the free space of a represented allocator. -/
structure Hand (a : BuddyAllocator) (L : Nat → List Nat) (x o : Nat) : Prop where
  represents : Represents a L
  fits : FreeFits a L x o
  ne_zero : x ≠ 0

/-- Two stages of a loop manage the same memory, the block in hand included. -/
structure Keeps (a : BuddyAllocator) (L : Nat → List Nat) (x o : Nat) (a' : BuddyAllocator)
    (L' : Nat → List Nat) (x' o' : Nat) : Prop where
  cover : ∀ f, Cover frameLevel L f ∨ Within (frameLevel + o) x f ↔
    Cover frameLevel L' f ∨ Within (frameLevel + o') x' f
  weight : weight maxOrder L + 2 ^ o = weight maxOrder L' + 2 ^ o'
  buddies : NoFreeBuddies frameLevel maxOrder L → NoFreeBuddies frameLevel maxOrder L'
  totalFrames : a'.totalFrames = a.totalFrames
  freeFrames : a'.freeFrames = a.freeFrames
  refcount : a'.refcount = a.refcount

variable {a a' a'' : BuddyAllocator} {L L' L'' : Nat → List Nat} {x x' x'' o o' o'' order f : Nat}

theorem Keeps.rfl : Keeps a L x o a L x o :=
  ⟨fun _ => Iff.rfl, Eq.refl _, id, Eq.refl _, Eq.refl _, Eq.refl _⟩

theorem Keeps.trans (h : Keeps a L x o a' L' x' o') (h' : Keeps a' L' x' o' a'' L'' x'' o'') :
    Keeps a L x o a'' L'' x'' o'' where
  cover f := (h.cover f).trans (h'.cover f)
  weight := h.weight.trans h'.weight
  buddies hn := h'.buddies (h.buddies hn)
  totalFrames := h'.totalFrames.trans h.totalFrames
  freeFrames := h'.freeFrames.trans h.freeFrames
  refcount := h'.refcount.trans h.refcount

theorem Hand.notMem (h : Hand a L x o) (p : Nat) : x ∉ L p :=
  fun hm => h.fits.fresh x (within_base _ _) (cover_of_mem hm)

theorem Hand.dvd (h : Hand a L x o) : frameSize ∣ x := frameSize_dvd h.fits.aligned

theorem Hand.counts (h : Hand a L x o) (rc : Nat → Nat) (n : Nat) :
    Hand { a with refcount := rc, freeFrames := n } L x o :=
  ⟨h.represents.counts rc n, h.fits, h.ne_zero⟩

/-- The rounds of coalescing that a block of the order can take. -/
theorem Hand.order_add_sub (h : Hand a L x o) : o + (maxOrder - o) = maxOrder :=
  Nat.add_sub_of_le h.fits.order_le

/-- The frames of a block in hand are managed. -/
theorem Hand.index_add_le (h : Hand a L x o) : frameIndex x + 2 ^ o ≤ a.totalFrames := by
  have hb := h.fits.bounded
  rw [← frameIndex_mul h.dvd, Nat.pow_add, ← frameSize_eq] at hb
  refine Nat.le_of_mul_le_mul_right ?_ frameSize_pos
  calc (frameIndex x + 2 ^ o) * frameSize = frameIndex x * frameSize + frameSize * 2 ^ o := by ring
    _ ≤ a.totalFrames * frameSize := hb

/-- The frames of a block, by index. -/
theorem within_frame_iff (hx : frameSize ∣ x) (i : Nat) :
    Within (frameLevel + o) x (i * frameSize) ↔ frameIndex x ≤ i ∧ i < frameIndex x + 2 ^ o := by
  have hp : 2 ^ (frameLevel + o) = 2 ^ o * frameSize := by
    rw [Nat.pow_add, ← frameSize_eq, Nat.mul_comm]
  have hle : frameIndex x * frameSize ≤ i * frameSize ↔ frameIndex x ≤ i :=
    Nat.mul_le_mul_right_iff frameSize_pos
  have hlt : i * frameSize < (frameIndex x + 2 ^ o) * frameSize ↔ i < frameIndex x + 2 ^ o :=
    Nat.mul_lt_mul_right frameSize_pos
  have hxe := frameIndex_mul hx
  simp only [Within, hp]
  rw [← hle, ← hlt, Nat.add_mul, hxe]

/-- Taking a listed block off its list puts it in hand. -/
theorem hand_of_removeFree (h : Represents a L) (hx : x ∈ L o) :
    Hand (a.removeFree x o) (Function.update L o ((L o).erase x)) x o :=
  ⟨h.removeFree hx, (h.space.remove (adds_erase hx)).2, h.ne_zero hx⟩

/-- Listing the block in hand returns it to the free space. -/
theorem Hand.pushFree (h : Hand a L x o) :
    ∃ L', Adds L x o L' ∧ Represents (a.pushFree x o) L' :=
  h.represents.pushFree h.fits h.ne_zero

/-! ## Splitting -/

/-- **The splitting loop** exchanges the block in hand for its lowest part of the order asked. -/
theorem splitDown_spec {s : Nat} (h : Hand a L x s) (hs : order ≤ s) :
    ∃ L', Hand (splitDown x order s a) L' x order ∧
      Keeps a L x s (splitDown x order s a) L' x order := by
  induction s generalizing a L with
  | zero =>
    obtain rfl : order = 0 := by omega
    exact ⟨L, h, .rfl⟩
  | succ s ih =>
    unfold splitDown
    by_cases hlt : s + 1 > order
    · rw [if_pos hlt, frameSize_mul_shl]
      obtain ⟨L₁, hadd, hrep⟩ := h.represents.pushFree h.fits.upper
        (Nat.ne_of_gt (Nat.add_pos_right _ (Nat.two_pow_pos _)))
      have hlow : Hand (a.pushFree (x + 2 ^ (frameLevel + s)) s) L₁ x s :=
        ⟨hrep, by rw [FreeFits, pushFree_totalFrames]; exact h.fits.lower hadd, h.ne_zero⟩
      obtain ⟨L₂, hand, hkeep⟩ := ih hlow (by omega)
      refine ⟨L₂, hand, Keeps.trans ⟨?_, ?_, ?_, ?_, ?_, ?_⟩ hkeep⟩
      · intro f
        rw [hadd.cover_iff, ← Nat.add_assoc, within_succ]
        tauto
      · have hm := h.fits.order_le
        rw [hadd.weight_eq (by omega)]
        ring
      · -- the buddy of the new block is the lower half, which is still in hand
        intro hn
        refine hn.add hadd fun _ => ?_
        rw [← buddy_lower (n := frameLevel + s) h.fits.aligned, buddy_buddy]
        exact h.notMem s
      all_goals simp
    · obtain rfl : order = s + 1 := by omega
      rw [if_neg hlt]
      exact ⟨L, h, .rfl⟩

/-! ## Coalescing -/

/-- The buddy test of the coalescing loop succeeds exactly on a listed buddy. -/
theorem Hand.buddy_mem_iff (h : Hand a L x o) :
    buddy (frameLevel + o) x ∈ L o ↔
      frameIndex (buddy (frameLevel + o) x) < a.totalFrames ∧
        a.pageInfo (frameIndex (buddy (frameLevel + o) x)) = o := by
  have hd : frameSize ∣ buddy (frameLevel + o) x := frameSize_dvd (buddy_aligned h.fits.aligned)
  rw [h.represents.info _ _ h.fits.order_le, frameIndex_mul hd]
  refine ⟨fun hm => ⟨?_, hm⟩, And.right⟩
  have hb := h.represents.space.bounded hm
  have hpos := Nat.two_pow_pos (frameLevel + o)
  refine (Nat.div_lt_iff_lt_mul frameSize_pos).mpr ?_
  omega

/-- **The coalescing loop** exchanges the block in hand for the largest one its free buddies allow:
the buddy of the block it ends with is not free. -/
theorem coalesce_spec {k : Nat} (h : Hand a L x o) (hk : o + k = maxOrder) :
    ∃ L', Hand (coalesce k a x o).2.2 L' (coalesce k a x o).1 (coalesce k a x o).2.1 ∧
      Keeps a L x o (coalesce k a x o).2.2 L' (coalesce k a x o).1 (coalesce k a x o).2.1 ∧
      ((coalesce k a x o).2.1 < maxOrder →
        buddy (frameLevel + (coalesce k a x o).2.1) (coalesce k a x o).1 ∉
          L' (coalesce k a x o).2.1) := by
  induction k generalizing a L x o with
  | zero =>
    obtain rfl : o = maxOrder := by omega
    exact ⟨L, h, .rfl, fun hlt => absurd hlt (lt_irrefl _)⟩
  | succ k ih =>
    have hbud : x ^^^ (frameSize <<< o) = buddy (frameLevel + o) x := by
      rw [frameSize_shl, buddy]
    have hiff := h.buddy_mem_iff
    unfold coalesce
    simp only [hbud]
    by_cases hout : frameIndex (buddy (frameLevel + o) x) ≥ a.totalFrames
    · simp only [if_pos hout]
      exact ⟨L, h, .rfl, fun _ hm => absurd (hiff.mp hm).1 (by omega)⟩
    by_cases hinfo : a.pageInfo (frameIndex (buddy (frameLevel + o) x)) ≠ o
    · simp only [if_neg hout, if_pos hinfo]
      exact ⟨L, h, .rfl, fun _ hm => hinfo (hiff.mp hm).2⟩
    simp only [if_neg hout, if_neg hinfo]
    have hm : buddy (frameLevel + o) x ∈ L o := hiff.mpr ⟨by omega, not_not.mp hinfo⟩
    have hadd := adds_erase hm
    have hmin : min x (buddy (frameLevel + o) x) ≠ 0 := by
      have h1 := h.ne_zero
      have h2 := h.represents.ne_zero hm
      omega
    have hup : Hand (a.removeFree (buddy (frameLevel + o) x) o)
        (Function.update L o ((L o).erase (buddy (frameLevel + o) x)))
        (min x (buddy (frameLevel + o) x)) (o + 1) :=
      ⟨h.represents.removeFree hm,
        h.fits.merge (by omega) h.represents.space hadd, hmin⟩
    obtain ⟨L', hand, hkeep, hlast⟩ := ih hup (by omega)
    refine ⟨L', hand, Keeps.trans ⟨?_, ?_, ?_, ?_, ?_, ?_⟩ hkeep, hlast⟩
    · intro f
      rw [hadd.cover_iff, ← Nat.add_assoc, within_min_buddy h.fits.aligned]
      tauto
    · rw [hadd.weight_eq h.fits.order_le]
      ring
    · exact fun hn => hn.remove hadd
    all_goals simp

/-! ## Reference counts -/

/-- The loop over a block's frames, in closed form: the indices stay inside the machine word. -/
theorem updateRefcounts_apply {g : Nat → Nat} {base n : Nat} (rc : Nat → Nat)
    (hb : base + n < 2 ^ 64) (i : Nat) :
    updateRefcounts g base n rc i = if base ≤ i ∧ i < base + n then g (rc i) else rc i := by
  induction n generalizing i with
  | zero =>
    rw [if_neg (by omega)]
    rfl
  | succ n ih =>
    have hsat : saturatingAdd 64 base n = base + n := saturatingAdd_of_lt (by omega)
    simp only [updateRefcounts, hsat]
    by_cases hi : i = base + n
    · subst hi
      rw [Function.update_self, ih (by omega), if_neg (by omega), if_pos (by omega)]
    · rw [Function.update_of_ne hi, ih (by omega)]
      by_cases hin : base ≤ i ∧ i < base + n
      · rw [if_pos hin, if_pos (by omega)]
      · rw [if_neg hin, if_neg (by omega)]

/-- The loop over the frames of a block in hand. -/
theorem Hand.updateRefcounts (h : Hand a L x o) (g : Nat → Nat) (rc : Nat → Nat) (i : Nat) :
    updateRefcounts g (frameIndex x) (1 <<< o) rc i =
      if Within (frameLevel + o) x (i * frameSize) then g (rc i) else rc i := by
  have hle := h.index_add_le
  have ht := h.represents.totalFrames_le
  rw [Nat.one_shiftLeft, updateRefcounts_apply _ (by omega)]
  simp only [within_frame_iff h.dvd]

/-! ## Allocation -/

/-- What a successful allocation of the block `x` does. -/
structure Takes (a : BuddyAllocator) (L : Nat → List Nat) (x o : Nat) (a' : BuddyAllocator)
    (L' : Nat → List Nat) : Prop where
  hand : Hand a' L' x o
  cover : ∀ f, Cover frameLevel L f ↔ Cover frameLevel L' f ∨ Within (frameLevel + o) x f
  weight : weight maxOrder L = weight maxOrder L' + 2 ^ o
  buddies : NoFreeBuddies frameLevel maxOrder L → NoFreeBuddies frameLevel maxOrder L'
  totalFrames : a'.totalFrames = a.totalFrames
  freeFrames : a'.freeFrames = a.freeFrames - 2 ^ o
  refcount : ∀ i, a'.refcount i =
    if Within (frameLevel + o) x (i * frameSize) then 1 else a.refcount i

/-- The common end of both allocation paths: unlink a listed block, split it, count it out. -/
theorem takes_of_mem {s : Nat} (h : Represents a L) (hx : x ∈ L s) (hs : order ≤ s) :
    ∃ L', Takes a L x order ((splitDown x order s (a.removeFree x s)).takeFrames x order) L' := by
  have hadd := adds_erase hx
  obtain ⟨L', hand, hkeep⟩ := splitDown_spec (hand_of_removeFree h hx) hs
  have hcount : ((splitDown x order s (a.removeFree x s)).takeFrames x order).refcount =
      updateRefcounts (fun _ => 1) (frameIndex x) (1 <<< order)
        (splitDown x order s (a.removeFree x s)).refcount := rfl
  have hfree : ((splitDown x order s (a.removeFree x s)).takeFrames x order).freeFrames =
      (splitDown x order s (a.removeFree x s)).freeFrames - 1 <<< order := rfl
  refine ⟨L', ⟨hand.counts _ _, ?_, ?_, ?_, hkeep.totalFrames, ?_, ?_⟩⟩
  · intro f
    rw [hadd.cover_iff]
    exact hkeep.cover f
  · rw [hadd.weight_eq (h.order_le hx)]
    exact hkeep.weight
  · exact fun hn => hkeep.buddies (hn.remove hadd)
  · rw [hfree, hkeep.freeFrames, Nat.one_shiftLeft, removeFree_freeFrames]
  · intro i
    rw [hcount, hand.updateRefcounts, hkeep.refcount, removeFree_refcount]

theorem mem_ordersFrom {order p : Nat} : p ∈ ordersFrom order ↔ order ≤ p ∧ p ≤ maxOrder := by
  have hm : maxOrder = 10 := rfl
  simp only [ordersFrom, List.mem_range'_1]
  omega

/-- `alloc_inner` succeeds with the head of some list of at least the order asked. -/
theorem allocInner_cases (h : Represents a L) (heq : a.allocInner order = .ok (x, a')) :
    ∃ s, order ≤ s ∧ x ∈ L s ∧
      a' = (splitDown x order s (a.removeFree x s)).takeFrames x order := by
  unfold allocInner at heq
  by_cases hm : order > maxOrder
  · simp [hm] at heq
  simp only [if_neg hm] at heq
  generalize hfind : Option.or _ _ = found at heq
  cases found with
  | none => simp at heq
  | some s =>
    -- either search returns an order of the range whose list is not empty
    have hs : s ∈ ordersFrom order ∧ (a.freeLists s).head ≠ 0 := by
      rcases Option.or_eq_some_iff.mp hfind with h1 | ⟨_, h2⟩
      · refine ⟨List.mem_of_find?_eq_some h1, ?_⟩
        have hp := List.find?_some h1
        simp only [Bool.and_eq_true, decide_eq_true_eq] at hp
        exact hp.1
      · refine ⟨List.mem_of_find?_eq_some h2, ?_⟩
        simpa using List.find?_some h2
    obtain ⟨hmem, hpop⟩ := h.popFree hs.2
    simp only [hpop] at heq
    obtain ⟨rfl, rfl⟩ : (a.freeLists s).head = x ∧ _ = a' := by simpa using heq
    exact ⟨s, (mem_ordersFrom.mp hs.1).1, hmem, rfl⟩

/-- `alloc_inner_constrained` succeeds with a listed block of at least the order asked whose first
part ends at or below the bound. -/
theorem allocInnerConstrained_cases {maxAddr : Nat} (h : Represents a L)
    (heq : a.allocInnerConstrained order maxAddr = .ok (x, a')) :
    ∃ s, order ≤ s ∧ x ∈ L s ∧ x + 2 ^ (frameLevel + order) ≤ maxAddr ∧
      a' = (splitDown x order s (a.removeFree x s)).takeFrames x order := by
  unfold allocInnerConstrained at heq
  by_cases hm : order > maxOrder
  · simp [hm] at heq
  simp only [if_neg hm] at heq
  generalize hfind : List.findSome? _ _ = found at heq
  cases found with
  | none => simp at heq
  | some sx =>
    obtain ⟨s, y⟩ := sx
    obtain ⟨rfl, rfl⟩ : y = x ∧ _ = a' := by simpa using heq
    obtain ⟨_, p, _, _, hp, _⟩ := List.findSome?_eq_some_iff.mp hfind
    simp only [Option.map_eq_some_iff, Prod.mk.injEq] at hp
    obtain ⟨z, hz, rfl, rfl⟩ := hp
    simp only [findBelow, h.walk_totalFrames] at hz
    have hfits := List.find?_some hz
    have hmem := List.mem_of_find?_eq_some hz
    have hord : p ∈ ordersFrom order := by
      obtain ⟨q, hq, hqs⟩ := List.exists_of_findSome?_eq_some hfind
      simp only [Option.map_eq_some_iff, Prod.mk.injEq] at hqs
      obtain ⟨_, _, rfl, _⟩ := hqs
      exact hq
    refine ⟨p, (mem_ordersFrom.mp hord).1, hmem, ?_, rfl⟩
    unfold fitsBelow at hfits
    rw [frameSize_shl] at hfits
    cases hc : checkedAdd 64 z (2 ^ (frameLevel + order)) with
    | none => simp [hc] at hfits
    | some fin =>
      obtain ⟨_, rfl⟩ := checkedAdd_eq_some.mp hc
      simpa [hc] using hfits

/-- **`alloc_inner` takes a block of the order asked out of the free space.** -/
theorem allocInner_spec (h : Represents a L) (heq : a.allocInner order = .ok (x, a')) :
    ∃ L', Takes a L x order a' L' := by
  obtain ⟨s, hs, hx, rfl⟩ := allocInner_cases h heq
  exact takes_of_mem h hx hs

/-- **`alloc_inner_constrained` takes a block of the order asked out of the free space.** -/
theorem allocInnerConstrained_spec {maxAddr : Nat} (h : Represents a L)
    (heq : a.allocInnerConstrained order maxAddr = .ok (x, a')) :
    ∃ L', Takes a L x order a' L' := by
  obtain ⟨s, hs, hx, _, rfl⟩ := allocInnerConstrained_cases h heq
  exact takes_of_mem h hx hs

/-! ## Freeing -/

/-- A block in hand passes every check of `free_inner`. -/
theorem Hand.freeInner_eq (h : Hand a L x o) :
    a.freeInner x o =
      if a.refcount (frameIndex x) > 1 then
        .ok { a with refcount :=
          BuddyAllocator.updateRefcounts (fun cur => cur - 1) (frameIndex x) (1 <<< o) a.refcount }
      else
        let a₁ := { a with refcount :=
          BuddyAllocator.updateRefcounts (fun _ => 0) (frameIndex x) (1 <<< o) a.refcount }
        let r := coalesce (maxOrder - o) a₁ x o
        let a₂ := r.2.2.pushFree r.1 r.2.1
        .ok { a₂ with freeFrames := saturatingAdd 64 a₂.freeFrames (1 <<< o) } := by
  have hle := h.index_add_le
  have hpos := Nat.two_pow_pos o
  have hinfo : a.pageInfo (frameIndex x) = infoAllocated := by
    refine h.represents.info_other _ fun p => ?_
    rw [frameIndex_mul h.dvd]
    exact h.notMem p
  unfold freeInner
  rw [if_neg (not_lt.mpr h.fits.order_le), if_neg (not_not.mpr (Nat.mod_eq_zero_of_dvd h.dvd))]
  simp only [hinfo]
  rw [if_neg (by omega), if_neg (by simp)]

/-- What freeing the last reference of the block `x` does. -/
structure Returns (a : BuddyAllocator) (L : Nat → List Nat) (x o : Nat) (a' : BuddyAllocator)
    (L' : Nat → List Nat) : Prop where
  represents : Represents a' L'
  cover : ∀ f, Cover frameLevel L' f ↔ Cover frameLevel L f ∨ Within (frameLevel + o) x f
  weight : weight maxOrder L' = weight maxOrder L + 2 ^ o
  buddies : NoFreeBuddies frameLevel maxOrder L → NoFreeBuddies frameLevel maxOrder L'
  totalFrames : a'.totalFrames = a.totalFrames
  freeFrames : a'.freeFrames = saturatingAdd 64 a.freeFrames (2 ^ o)
  refcount : ∀ i, a'.refcount i =
    if Within (frameLevel + o) x (i * frameSize) then 0 else a.refcount i

/-- **`free_inner` of the last reference returns the block to the free space, fully coalesced.** -/
theorem freeInner_last (h : Hand a L x o) (hrc : a.refcount (frameIndex x) ≤ 1) :
    ∃ a' L', a.freeInner x o = .ok a' ∧ Returns a L x o a' L' := by
  -- the first write of the branch only touches the counts
  have h₁ : Hand { a with refcount :=
      BuddyAllocator.updateRefcounts (fun _ => 0) (frameIndex x) (1 <<< o) a.refcount } L x o := h.counts _ _
  obtain ⟨L₂, hand, hkeep, hlast⟩ := coalesce_spec h₁ h.order_add_sub
  obtain ⟨L₃, hadd, hrep₃⟩ := hand.pushFree
  rw [h.freeInner_eq, if_neg (by omega)]
  refine ⟨_, L₃, rfl, ⟨hrep₃.counts _ _, ?_, ?_, ?_, ?_, ?_, ?_⟩⟩
  · intro f
    rw [hadd.cover_iff]
    exact (hkeep.cover f).symm
  · rw [hadd.weight_eq hand.fits.order_le]
    exact hkeep.weight.symm
  · exact fun hn => (hkeep.buddies hn).add hadd hlast
  · simpa using hkeep.totalFrames
  · simp only [pushFree_freeFrames, Nat.one_shiftLeft]
    rw [← Nat.one_shiftLeft, hkeep.freeFrames]
  · intro i
    simp only [pushFree_refcount]
    rw [hkeep.refcount]
    exact h.updateRefcounts _ _ i

/-- `free_inner` of a shared block only counts one reference down. -/
theorem freeInner_shared (h : Hand a L x o) (hrc : a.refcount (frameIndex x) > 1) :
    a.freeInner x o = .ok { a with refcount :=
      BuddyAllocator.updateRefcounts (fun cur => cur - 1) (frameIndex x) (1 <<< o) a.refcount } := by
  rw [h.freeInner_eq, if_pos hrc]

/-! ## Bulk initialization -/

/-- The order loop stops at an order whose block is aligned at the address and still fits. -/
theorem fitOrderFrom_spec {addr remaining k : Nat} (hk : o + k = maxOrder)
    (hd : 2 ^ (frameLevel + o) ∣ addr) (hr : 2 ^ (frameLevel + o) ≤ remaining) :
    fitOrderFrom addr remaining k o ≤ maxOrder ∧
      2 ^ (frameLevel + fitOrderFrom addr remaining k o) ∣ addr ∧
      2 ^ (frameLevel + fitOrderFrom addr remaining k o) ≤ remaining := by
  induction k generalizing o with
  | zero => exact ⟨by simp only [fitOrderFrom]; omega, hd, hr⟩
  | succ k ih =>
    simp only [fitOrderFrom, frameSize_shl]
    by_cases hbig : 2 ^ (frameLevel + (o + 1)) > remaining
    · rw [if_pos hbig]
      exact ⟨by omega, hd, hr⟩
    by_cases hmis : addr % 2 ^ (frameLevel + (o + 1)) ≠ 0
    · rw [if_neg hbig, if_pos hmis]
      exact ⟨by omega, hd, hr⟩
    rw [if_neg hbig, if_neg hmis]
    exact ih (by omega) (Nat.dvd_of_mod_eq_zero (not_not.mp hmis)) (not_lt.mp hbig)

theorem fitOrder_spec {addr remaining : Nat} (hd : frameSize ∣ addr) (hr : frameSize ≤ remaining) :
    fitOrder addr remaining ≤ maxOrder ∧ 2 ^ (frameLevel + fitOrder addr remaining) ∣ addr ∧
      2 ^ (frameLevel + fitOrder addr remaining) ≤ remaining :=
  fitOrderFrom_spec (o := 0) (by simp) hd hr

theorem addFreeRangeFrom_of_le {k addr fin : Nat} (h : fin ≤ addr) : addFreeRangeFrom k a addr fin = a := by
  cases k with
  | zero => rfl
  | succ k =>
    unfold addFreeRangeFrom
    rw [if_neg (not_lt.mpr h)]

/-- One round of `add_free_range` lists a block that is aligned at the address and fits in the range. -/
theorem addFreeRangeFrom_succ {k addr fin : Nat} (a : BuddyAllocator) (hda : frameSize ∣ addr)
    (hdf : frameSize ∣ fin) (hlt : addr < fin) :
    ∃ order, order = fitOrder addr (fin - addr) ∧ order ≤ maxOrder ∧ 2 ^ (frameLevel + order) ∣ addr ∧
      addr + 2 ^ (frameLevel + order) ≤ fin ∧
      addFreeRangeFrom (k + 1) a addr fin =
        addFreeRangeFrom k { a.pushFree addr order with freeFrames := saturatingAdd 64 a.freeFrames (2 ^ order) }
          (addr + 2 ^ (frameLevel + order)) fin := by
  have hsub : frameSize ∣ fin - addr := Nat.dvd_sub hdf hda
  obtain ⟨hmax, hal, hle⟩ := fitOrder_spec hda (Nat.le_of_dvd (Nat.sub_pos_of_lt hlt) hsub)
  refine ⟨_, rfl, hmax, hal, by omega, ?_⟩
  conv_lhs => unfold addFreeRangeFrom
  simp only [if_pos hlt, frameSize_shl, Nat.one_shiftLeft, pushFree_freeFrames]

/-- **`add_free_range` adds exactly the range to the free space.** -/
theorem addFreeRangeFrom_spec {k addr fin : Nat} (h : Represents a L)
    (hw : a.freeFrames = weight maxOrder L) (hk : fin - addr ≤ k) (hda : frameSize ∣ addr)
    (hdf : frameSize ∣ fin) (hfin : fin ≤ a.totalFrames * frameSize) (hne : addr < fin → addr ≠ 0)
    (hnew : ∀ f, addr ≤ f → f < fin → ¬ Cover frameLevel L f) :
    ∃ L', Represents (addFreeRangeFrom k a addr fin) L' ∧
      (addFreeRangeFrom k a addr fin).freeFrames = weight maxOrder L' ∧
      (addFreeRangeFrom k a addr fin).totalFrames = a.totalFrames ∧
      (addFreeRangeFrom k a addr fin).refcount = a.refcount ∧
      ∀ f, Cover frameLevel L' f ↔ Cover frameLevel L f ∨ (addr ≤ f ∧ f < fin) := by
  induction k generalizing a L addr with
  | zero =>
    refine ⟨L, h, hw, rfl, rfl, fun f => ?_⟩
    have hempty : ¬ (addr ≤ f ∧ f < fin) := by omega
    simp [hempty]
  | succ k ih =>
    by_cases hlt : addr < fin
    swap
    · rw [addFreeRangeFrom_of_le (not_lt.mp hlt)]
      refine ⟨L, h, hw, rfl, rfl, fun f => ?_⟩
      have hempty : ¬ (addr ≤ f ∧ f < fin) := by omega
      simp [hempty]
    obtain ⟨order, -, hmax, hal, hle, hround⟩ := addFreeRangeFrom_succ a hda hdf hlt
    rw [hround]
    have hpos := Nat.two_pow_pos (frameLevel + order)
    have hfit : FreeFits a L addr order :=
      ⟨hmax, hal, by omega, fun f hf => hnew f hf.1 (by have := hf.2; omega)⟩
    obtain ⟨L₁, hadd, hrep⟩ := h.pushFree hfit (hne hlt)
    have hw₁ : saturatingAdd 64 a.freeFrames (2 ^ order) = weight maxOrder L₁ := by
      have hle₁ := hrep.weight_le
      have ht := hrep.totalFrames_le
      have hwe := hadd.weight_eq hmax
      rw [hw, saturatingAdd_of_lt (by omega), hwe]
    have hrep₁ : Represents { a.pushFree addr order with
        freeFrames := saturatingAdd 64 a.freeFrames (2 ^ order) } L₁ := hrep.counts _ _
    obtain ⟨L', hrep', hw', ht', hrc', hcov'⟩ := ih hrep₁ hw₁
      (show fin - (addr + 2 ^ (frameLevel + order)) ≤ k by omega)
      (Nat.dvd_add hda (Nat.pow_dvd_pow 2 (Nat.le_add_right _ _)))
      (by simpa using hfin) (fun _ => Nat.ne_of_gt (Nat.add_pos_left (by have := hne hlt; omega) _))
      (by
        intro f h1 h2 hc
        rcases hadd.cover_iff.mp hc with hc | hc
        · exact hnew f (by omega) h2 hc
        · have := hc.2
          omega)
    refine ⟨L', hrep', hw', by simpa using ht', by simpa using hrc', fun f => ?_⟩
    rw [hcov' f, hadd.cover_iff, Within]
    have hsplit : (addr ≤ f ∧ f < addr + 2 ^ (frameLevel + order)) ∨
        (addr + 2 ^ (frameLevel + order) ≤ f ∧ f < fin) ↔ addr ≤ f ∧ f < fin := by omega
    rw [or_assoc, hsplit]

end SlateOS.Mm.Frame.Operations
