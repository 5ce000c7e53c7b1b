/-
# SlateOS.Mm.Frame.DmaZone -- the ISA DMA zone is given up last

Every free list keeps the blocks above the first 16 MiB before those inside, so the head of a list tells whether
it has a block above; `alloc_inner` looks for such a head at every order before it takes a block of the zone.
`alloc_inner_constrained` looks at the lowest part of every listed block, so it finds room whenever some free
block has it, which is whenever there is room at all as long as no two free buddies are listed apart.
-/
import SlateOS.Mm.Frame.BuddyRuns

namespace SlateOS.Mm.Frame.DmaZone

open Foundation.Runs Foundation.MachineInt Foundation.Dyadic Foundation.BuddySpace Kernel Mm.Frame.Buddy
open Mm.Frame.Buddy.BuddyAllocator Mm.Frame.Lists Mm.Frame.Operations Mm.Frame.BuddyRuns
open Mm.Frame.Invariant (RangesOk)
open Mm.Frame.Refcount (isFree isFree_iff)

variable {a a' b : BuddyAllocator} {L : Nat → List Nat} {x o order maxAddr : Nat}

/-! ## Blocks and the zone -/

/-- The block ends inside the ISA DMA zone. -/
def InZone (x o : Nat) : Prop := x + 2 ^ (frameLevel + o) ≤ dmaZoneEnd

theorem inDmaZone_iff (ho : o ≤ maxOrder) : inDmaZone x o = true ↔ InZone x o := by
  have hm : maxOrder = 10 := rfl
  have hl : frameLevel = 14 := rfl
  have hsize : 2 ^ (frameLevel + o) < 2 ^ 64 := Nat.pow_lt_pow_right (by decide) (by omega)
  have hshl : checkedShl 64 frameSize o = some (2 ^ (frameLevel + o)) := by
    rw [checkedShl, if_pos (by omega), frameSize_shl, Nat.mod_eq_of_lt hsize]
  unfold inDmaZone InZone
  rw [hshl]
  dsimp only
  cases hend : checkedAdd 64 x (2 ^ (frameLevel + o)) with
  | none =>
    have hover := checkedAdd_eq_none.mp hend
    have hz : dmaZoneEnd < 2 ^ 64 := by decide
    refine ⟨fun h => absurd h Bool.false_ne_true, fun h => ?_⟩
    omega
  | some fin =>
    obtain ⟨-, rfl⟩ := checkedAdd_eq_some.mp hend
    exact decide_eq_true_iff

/-- A block that begins inside the zone ends inside it: the zone's end is on every order's grid. -/
theorem inZone_of_lt (ho : o ≤ maxOrder) (hx : 2 ^ (frameLevel + o) ∣ x) (hlt : x < dmaZoneEnd) : InZone x o := by
  have hm : maxOrder = 10 := rfl
  have hl : frameLevel = 14 := rfl
  have hgrid : 2 ^ (frameLevel + o) ∣ dmaZoneEnd := Nat.pow_dvd_pow 2 (show frameLevel + o ≤ 24 by omega)
  exact add_le_of_lt hx hgrid hlt

/-! ## The order of the lists -/

/-- Nothing above the zone stands behind a block inside it. -/
def ZoneLast (L : Nat → List Nat) : Prop := ∀ o, (L o).Pairwise fun x y => InZone x o → InZone y o

theorem ZoneLast.listed (h : ZoneLast L) (ho : o ≤ maxOrder) : ZoneLast (listed L x o) := by
  intro p
  by_cases hp : p = o
  · subst hp
    rw [Lists.listed, Function.update_self]
    split
    · next hin =>
        refine List.pairwise_append.mpr ⟨h p, List.pairwise_singleton _ _, fun y _ z hz _ => ?_⟩
        exact List.mem_singleton.mp hz ▸ (inDmaZone_iff ho).mp hin
    · next hout =>
        refine List.pairwise_cons.mpr ⟨fun y _ hin => ?_, h p⟩
        exact absurd ((inDmaZone_iff ho).mpr hin) hout
  · rw [Lists.listed, Function.update_of_ne hp]
    exact h p

theorem ZoneLast.erase (h : ZoneLast L) : ZoneLast (Function.update L o ((L o).erase x)) := by
  intro p
  by_cases hp : p = o
  · subst hp
    rw [Function.update_self]
    exact (h p).sublist List.erase_sublist
  · rw [Function.update_of_ne hp]
    exact h p

theorem zoneLast_move (hp : Proper a) (h : ZoneLast (freeBlocks a)) (hm : Move a b) : ZoneLast (freeBlocks b) := by
  cases hm with
  | push hx =>
    rw [freeBlocks_pushFree hp hx]
    exact h.listed hx.1.order_le
  | remove hx =>
    rw [freeBlocks_removeFree hp hx]
    exact h.erase
  | counts rc n => exact h
  | write hy node =>
    rw [freeBlocks_write hp hy]
    exact h

theorem zoneLast_moves (hp : Proper a) (h : ZoneLast (freeBlocks a)) (hm : Moves a b) :
    ZoneLast (freeBlocks b) := by
  induction hm with
  | refl => exact h
  | tail hmoves hmove ih => exact zoneLast_move (hp.moves hmoves) ih hmove

theorem zoneLast_of_reach {totalFrames : Nat} {ranges : List (Nat × Nat)} (hok : RangesOk totalFrames ranges)
    (hs : ReachBy step Fair (· = filled totalFrames ranges) a) : ZoneLast (freeBlocks a) := by
  have hempty := represents_empty hok.total
  refine zoneLast_moves (proper_of_represents hempty) ?_ (of_reach hok hs).1
  rw [hempty.freeBlocks_eq]
  exact fun _ => List.Pairwise.nil

/-- If the head of a list is inside the zone, the whole list is. -/
theorem inZone_of_head (hp : Proper a) (hz : ZoneLast (freeBlocks a)) {y : Nat} (hy : y ∈ freeBlocks a o)
    (hhead : InZone (a.freeLists o).head o) : InZone y o := by
  have heq := (hp.linked o).head_eq
  have hlast := hz o
  cases hlist : freeBlocks a o with
  | nil =>
    rw [hlist] at hy
    cases hy
  | cons z rest =>
    rw [hlist] at hy heq hlast
    rw [heq, List.headD_cons] at hhead
    rcases List.mem_cons.mp hy with rfl | hy
    · exact hhead
    · exact (List.pairwise_cons.mp hlast).1 y hy hhead

/-! ## Allocation -/

/-- **A block of the zone is given up last.** -/
theorem allocInner_zone (hp : Proper a) (hz : ZoneLast (freeBlocks a)) (heq : a.allocInner order = .ok (x, a'))
    (hx : InZone x order) {p y : Nat} (hpo : order ≤ p) (hy : y ∈ freeBlocks a p) : InZone y p := by
  unfold allocInner at heq
  split at heq
  · cases heq
  dsimp only at heq
  cases hfind : (ordersFrom order).find? fun o =>
    (a.freeLists o).head ≠ 0 && !inDmaZone (a.freeLists o).head o with
  | none =>
    -- no list of these orders has its head above the zone
    have hple := hp.order_le hy
    have hmem : p ∈ ordersFrom order := mem_ordersFrom.mpr ⟨hpo, hple⟩
    have hnot := List.find?_eq_none.mp hfind p hmem
    have hne : (a.freeLists p).head ≠ 0 := fun h0 => by
      rw [(hp.linked p).head_eq_null_iff.mp h0] at hy
      cases hy
    refine inZone_of_head hp hz hy ((inDmaZone_iff hple).mp ?_)
    simpa [hne] using hnot
  | some s =>
    -- the head that was found is above it, and it is the block returned
    have hs := List.find?_some hfind
    rw [Bool.and_eq_true, decide_eq_true_eq, Bool.not_eq_true'] at hs
    obtain ⟨hmem, hpop⟩ := hp.popFree hs.1
    rw [hfind, Option.some_or] at heq
    simp only [hpop] at heq
    obtain ⟨rfl, -⟩ : (a.freeLists s).head = x ∧ _ = a' := by simpa using heq
    have hlt : (a.freeLists s).head < dmaZoneEnd :=
      (Nat.lt_add_of_pos_right (Nat.two_pow_pos _)).trans_le hx
    have hin := inZone_of_lt (hp.order_le hmem) (hp.space.aligned hmem) hlt
    rw [(inDmaZone_iff (hp.order_le hmem)).mpr hin] at hs
    cases hs.2

/-- Some free block of at least the order asked has its lowest part of that order below the bound. -/
def Room (a : BuddyAllocator) (order maxAddr : Nat) : Prop :=
  ∃ p, order ≤ p ∧ ∃ y ∈ freeBlocks a p, y + 2 ^ (frameLevel + order) ≤ maxAddr

theorem fitsBelow_iff (hmax : maxAddr < 2 ^ 64) :
    fitsBelow order maxAddr x = true ↔ x + 2 ^ (frameLevel + order) ≤ maxAddr := by
  unfold fitsBelow
  rw [frameSize_shl]
  cases hend : checkedAdd 64 x (2 ^ (frameLevel + order)) with
  | none =>
    have hover := checkedAdd_eq_none.mp hend
    refine ⟨fun h => absurd h Bool.false_ne_true, fun h => ?_⟩
    omega
  | some fin =>
    obtain ⟨-, rfl⟩ := checkedAdd_eq_some.mp hend
    exact decide_eq_true_iff

/-- **The constrained allocation is complete**: it fails, with `OutOfMemory`, exactly when no block has room. -/
theorem allocInnerConstrained_iff (hp : Proper a) (ho : order ≤ maxOrder) (hmax : maxAddr < 2 ^ 64) :
    (a.allocInnerConstrained order maxAddr = .error .outOfMemory ↔ ¬ Room a order maxAddr) ∧
      ((∃ x a', a.allocInnerConstrained order maxAddr = .ok (x, a')) ↔ Room a order maxAddr) := by
  unfold allocInnerConstrained
  rw [if_neg (not_lt.mpr ho)]
  cases hfind : (ordersFrom order).findSome? fun source =>
    (a.findBelow order maxAddr source).map fun addr => (source, addr) with
  | none =>
    have hroom : ¬ Room a order maxAddr := by
      rintro ⟨p, hpo, y, hy, hfits⟩
      have hnone := List.findSome?_eq_none_iff.mp hfind p (mem_ordersFrom.mpr ⟨hpo, hp.order_le hy⟩)
      rw [Option.map_eq_none_iff, findBelow, hp.walk_totalFrames] at hnone
      exact List.find?_eq_none.mp hnone y hy ((fitsBelow_iff hmax).mpr hfits)
    refine ⟨⟨fun _ => hroom, fun _ => rfl⟩, ⟨?_, fun h => absurd h hroom⟩⟩
    rintro ⟨x, a', h⟩
    cases h
  | some found =>
    obtain ⟨source, addr⟩ := found
    have hroom : Room a order maxAddr := by
      obtain ⟨p, hpo, hfound⟩ := List.exists_of_findSome?_eq_some hfind
      obtain ⟨y, hy, -⟩ := Option.map_eq_some_iff.mp hfound
      rw [findBelow, hp.walk_totalFrames] at hy
      exact ⟨p, (mem_ordersFrom.mp hpo).1, y, List.mem_of_find?_eq_some hy,
        (fitsBelow_iff hmax).mp (List.find?_some hy)⟩
    exact ⟨⟨fun h => (by cases h), fun h => absurd hroom h⟩, ⟨fun _ => hroom, fun _ => ⟨_, _, rfl⟩⟩⟩

/-- An aligned run of free frames of the order that ends at or below the bound. -/
def FreeRun (a : BuddyAllocator) (order maxAddr : Nat) : Prop :=
  ∃ x, 2 ^ (frameLevel + order) ∣ x ∧ x + 2 ^ (frameLevel + order) ≤ maxAddr ∧
    ∀ f, Within (frameLevel + order) x f → isFree a f = true

theorem freeRun_of_room (hp : Proper a) (h : Room a order maxAddr) : FreeRun a order maxAddr := by
  obtain ⟨p, hpo, y, hy, hfits⟩ := h
  have hpow : 2 ^ (frameLevel + order) ∣ 2 ^ (frameLevel + p) := Nat.pow_dvd_pow 2 (by omega)
  refine ⟨y, hpow.trans (hp.space.aligned hy), hfits, fun f hf => (isFree_iff hp).mpr ⟨p, y, hy, hf.1, ?_⟩⟩
  exact hf.2.trans_le (Nat.add_le_add_left (Nat.pow_le_pow_right (by decide) (by omega)) y)

/-- With full coalescing, free frames that make up a block lie inside one free block. -/
theorem room_of_freeRun (hp : Proper a) (hn : NoFreeBuddies frameLevel maxOrder (freeBlocks a))
    (ho : order ≤ maxOrder) (h : FreeRun a order maxAddr) : Room a order maxAddr := by
  obtain ⟨x, hx, hfits, hfree⟩ := h
  obtain ⟨p, hpo, y, hy, hin⟩ := exists_block_of_covered hp.space hn ho hx fun f hf =>
    (isFree_iff hp).mp (hfree f hf)
  have hle := (hin x (within_base _ _)).1
  exact ⟨p, hpo, y, hy, by omega⟩

/-! ## Every reachable state -/

/-- **The ISA DMA zone is protected**: in every reachable state each list has its blocks above the zone first; an
allocation gets memory of the zone only when no free block large enough lies above it; and an allocation below a
bound ends below it, and fails exactly when no free block has room there, which is when there is no room at all
if no range of the boot map begins where another ends. -/
theorem zone_protected {totalFrames : Nat} {ranges : List (Nat × Nat)} (hok : RangesOk totalFrames ranges)
    (hs : ReachBy step Fair (· = filled totalFrames ranges) a) :
    (∀ o, (freeBlocks a o).Pairwise fun x y => InZone x o → InZone y o) ∧
      (∀ order x a', a.allocInner order = .ok (x, a') → InZone x order →
        ∀ p, order ≤ p → ∀ y ∈ freeBlocks a p, InZone y p) ∧
      ∀ order maxAddr, maxAddr < 2 ^ 64 →
        (∀ x a', a.allocInnerConstrained order maxAddr = .ok (x, a') → x + 2 ^ (frameLevel + order) ≤ maxAddr) ∧
          (order ≤ maxOrder →
            (a.allocInnerConstrained order maxAddr = .error .outOfMemory ↔ ¬ Room a order maxAddr) ∧
              ((∃ x a', a.allocInnerConstrained order maxAddr = .ok (x, a')) ↔ Room a order maxAddr) ∧
              ((∀ r ∈ ranges, ∀ q ∈ ranges, r.2 ≠ q.1) → (Room a order maxAddr ↔ FreeRun a order maxAddr))) := by
  obtain ⟨-, hproper, hbuddies⟩ := of_reach hok hs
  have hzone := zoneLast_of_reach hok hs
  refine ⟨hzone, fun order x a' heq hx p hpo y hy => allocInner_zone hproper hzone heq hx hpo hy,
    fun order maxAddr hmax => ⟨fun x a' heq => ?_, fun ho => ?_⟩⟩
  · obtain ⟨_, _, _, hle, _⟩ := allocInnerConstrained_cases hproper heq
    exact hle
  · obtain ⟨herror, hgranted⟩ := allocInnerConstrained_iff hproper ho hmax
    refine ⟨herror, hgranted, fun hapart => ⟨freeRun_of_room hproper, ?_⟩⟩
    exact room_of_freeRun hproper (hbuddies (noFreeBuddies_filled hok hapart)) ho

/-- One usable range of two frames in the zone: the zone is all there is, and is given up. -/
theorem zone_protected_two_frames :
    (∃ a', (filled 4 [(32768, 65536)]).allocInner 1 = .ok (32768, a')) ∧ InZone 32768 1 ∧
      ∀ y ∈ freeBlocks (filled 4 [(32768, 65536)]) 1, InZone y 1 := by
  have hok : RangesOk 4 [(32768, 65536)] := by
    refine ⟨by decide, ?_, ?_, ?_, List.pairwise_singleton _ _⟩ <;> decide
  have hzone : InZone 32768 1 := by
    unfold InZone
    decide
  exact ⟨⟨_, rfl⟩, hzone, (zone_protected hok (.start rfl)).2.1 1 32768 _ rfl hzone 1 le_rfl⟩

/-- Two usable ranges that touch: their frames make up an aligned free run of two, but are listed apart, and an
allocation of two frames fails. And an order that is too large is an invalid argument, room or not. -/
theorem free_run_not_found :
    RangesOk 4 [(32768, 49152), (49152, 65536)] ∧ FreeRun (filled 4 [(32768, 49152), (49152, 65536)]) 1 65536 ∧
      (filled 4 [(32768, 49152), (49152, 65536)]).allocInnerConstrained 1 65536 = .error .outOfMemory ∧
      (filled 4 [(32768, 49152), (49152, 65536)]).allocInnerConstrained 11 65536 = .error .invalidArgument := by
  have hok : RangesOk 4 [(32768, 49152), (49152, 65536)] := by
    refine ⟨by decide, by decide, by decide, by decide, ?_⟩
    refine List.pairwise_cons.mpr ⟨fun q hq f _ h2 hin => ?_, List.pairwise_singleton _ _⟩
    obtain rfl := List.mem_singleton.mp hq
    exact absurd h2 (not_lt.mpr hin.1)
  refine ⟨hok, ⟨32768, by decide, by decide, fun f hf => (isFree_iff (proper_of_filled hok)).mpr ?_⟩, rfl, rfl⟩
  by_cases hlow : f < 49152
  · exact ⟨0, 32768, by decide, hf.1, hlow⟩
  · exact ⟨0, 49152, by decide, not_lt.mp hlow, hf.2⟩

end SlateOS.Mm.Frame.DmaZone
