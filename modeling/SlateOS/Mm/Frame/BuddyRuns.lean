/-
# SlateOS.Mm.Frame.BuddyRuns -- every call of the allocator, and the moves it is made of

All that the allocator does to its lists is to push blocks that fit and to remove blocks that are listed;
`Moves` says that of every operation once, so that a property of the lists has to be checked for the two moves
only. A run starts from ranges of frames and makes any calls, and `free_inner` may be called on any memory: of a
block that is not free, allocated as such or not, or of one on which its checks refuse (`Seen`).
-/
import SlateOS.Mm.Frame.Refcount

namespace SlateOS.Mm.Frame.BuddyRuns

open Foundation.Runs Foundation.IntrusiveList Foundation.MachineInt Foundation.Dyadic Foundation.BuddySpace
open Kernel Mm.Frame.Buddy Mm.Frame.Buddy.BuddyAllocator Mm.Frame.Lists Mm.Frame.Operations
open Mm.Frame.Invariant (addRanges RangesOk)
open Mm.Frame.Refcount (isFree isFree_iff)

/-! ## Moves -/

/-- The lists are those of a free space. -/
def Proper (a : BuddyAllocator) : Prop := Represents a (freeBlocks a)

/-- A block of managed memory outside the free space. -/
def Unlisted (a : BuddyAllocator) (x o : Nat) : Prop := FreeFits a (freeBlocks a) x o ∧ x ≠ 0

/-- What an operation does at a time: to the lists, to the counts, or to memory that is not free. -/
inductive Move : BuddyAllocator → BuddyAllocator → Prop
  | push {a : BuddyAllocator} {x o : Nat} (hx : Unlisted a x o) : Move a (a.pushFree x o)
  | remove {a : BuddyAllocator} {x o : Nat} (hx : x ∈ freeBlocks a o) : Move a (a.removeFree x o)
  | counts (a : BuddyAllocator) (rc : Nat → Nat) (n : Nat) : Move a { a with refcount := rc, freeFrames := n }
  | write {a : BuddyAllocator} {y : Nat} (hy : ¬ Cover frameLevel (freeBlocks a) y) (node : Node Nat) :
      Move a { a with mem := write a.mem y node }

/-- A sequence of moves. -/
abbrev Moves : BuddyAllocator → BuddyAllocator → Prop := Relation.ReflTransGen Move

variable {a a' b : BuddyAllocator} {L : Nat → List Nat} {x o order s k : Nat}

theorem proper_of_represents (h : Represents a L) : Proper a := by
  rw [Proper, h.freeBlocks_eq]
  exact h

theorem unlisted_of_hand (h : Hand a L x o) : Unlisted a x o := by
  rw [Unlisted, h.represents.freeBlocks_eq]
  exact ⟨h.fits, h.ne_zero⟩

theorem Proper.hand (h : Proper a) (hx : Unlisted a x o) : Hand a (freeBlocks a) x o := ⟨h, hx.1, hx.2⟩

theorem freeBlocks_pushFree (h : Proper a) (hx : Unlisted a x o) :
    freeBlocks (a.pushFree x o) = listed (freeBlocks a) x o :=
  (h.pushFree_listed hx.1 hx.2).freeBlocks_eq

theorem freeBlocks_removeFree (h : Proper a) (hx : x ∈ freeBlocks a o) :
    freeBlocks (a.removeFree x o) = Function.update (freeBlocks a) o ((freeBlocks a o).erase x) :=
  (h.removeFree hx).freeBlocks_eq

theorem freeBlocks_write (h : Proper a) {y : Nat} (hy : ¬ Cover frameLevel (freeBlocks a) y) (node : Node Nat) :
    freeBlocks { a with mem := write a.mem y node } = freeBlocks a :=
  (h.write_outside node hy).freeBlocks_eq

theorem Proper.move (h : Proper a) (hm : Move a b) : Proper b := by
  cases hm with
  | push hx => exact proper_of_represents (h.pushFree_listed hx.1 hx.2)
  | remove hx => exact proper_of_represents (h.removeFree hx)
  | counts rc n => exact Represents.counts h rc n
  | write hy node => exact proper_of_represents (h.write_outside node hy)

theorem Proper.moves (h : Proper a) (hm : Moves a b) : Proper b := by
  induction hm with
  | refl => exact h
  | tail _ hmove ih => exact ih.move hmove

/-! ## Every operation is a sequence of moves -/

theorem move_pushFree (h : Hand a L x o) : Move a (a.pushFree x o) := .push (unlisted_of_hand h)

theorem move_removeFree (h : Represents a L) (hx : x ∈ L o) : Move a (a.removeFree x o) :=
  .remove (h.freeBlocks_eq.symm ▸ hx)

theorem moves_splitDown (h : Hand a L x s) (hs : order ≤ s) : Moves a (splitDown x order s a) := by
  induction s generalizing a L with
  | zero => exact .refl
  | succ s ih =>
    unfold splitDown
    by_cases hlt : s + 1 > order
    · rw [if_pos hlt, frameSize_mul_shl]
      have hupper : Hand a L (x + 2 ^ (frameLevel + s)) s :=
        ⟨h.represents, h.fits.upper, Nat.ne_of_gt (Nat.add_pos_right _ (Nat.two_pow_pos _))⟩
      obtain ⟨L₁, hadd, hrep⟩ := hupper.pushFree
      have hlow : Hand (a.pushFree (x + 2 ^ (frameLevel + s)) s) L₁ x s :=
        ⟨hrep, by rw [FreeFits, pushFree_totalFrames]; exact h.fits.lower hadd, h.ne_zero⟩
      exact .head (move_pushFree hupper) (ih hlow (by omega))
    · rw [if_neg hlt]

theorem moves_coalesce (h : Hand a L x o) (hk : o + k = maxOrder) : Moves a (coalesce k a x o).2.2 := by
  induction k generalizing a L x o with
  | zero => exact .refl
  | succ k ih =>
    have hbud : x ^^^ (frameSize <<< o) = buddy (frameLevel + o) x := by
      rw [frameSize_shl, buddy]
    have hiff := h.buddy_mem_iff
    unfold coalesce
    simp only [hbud]
    split
    · exact .refl
    next hin =>
    split
    · exact .refl
    next hinfo =>
    have hm : buddy (frameLevel + o) x ∈ L o := hiff.mpr ⟨by omega, not_not.mp hinfo⟩
    have hmin : min x (buddy (frameLevel + o) x) ≠ 0 := by
      have h1 := h.ne_zero
      have h2 := h.represents.ne_zero hm
      omega
    have hup : Hand (a.removeFree (buddy (frameLevel + o) x) o)
        (Function.update L o ((L o).erase (buddy (frameLevel + o) x)))
        (min x (buddy (frameLevel + o) x)) (o + 1) :=
      ⟨h.represents.removeFree hm,
        h.fits.merge (by omega) h.represents.space (adds_erase hm), hmin⟩
    exact .head (move_removeFree h.represents hm) (ih hup (by omega))

/-- What both allocation paths do with the block they have found. -/
theorem moves_take (h : Represents a L) (hx : x ∈ L s) (hs : order ≤ s) :
    Moves a ((splitDown x order s (a.removeFree x s)).takeFrames x order) :=
  .head (move_removeFree h hx) (.tail (moves_splitDown (hand_of_removeFree h hx) hs) (.counts _ _ _))

theorem moves_allocInner (h : Represents a L) (heq : a.allocInner order = .ok (x, a')) : Moves a a' := by
  obtain ⟨s, hs, hx, rfl⟩ := allocInner_cases h heq
  exact moves_take h hx hs

theorem moves_allocInnerConstrained {maxAddr : Nat} (h : Represents a L)
    (heq : a.allocInnerConstrained order maxAddr = .ok (x, a')) : Moves a a' := by
  obtain ⟨s, hs, hx, _, rfl⟩ := allocInnerConstrained_cases h heq
  exact moves_take h hx hs

/-- A block that is not free is counted down, or coalesced and listed. -/
theorem moves_freeInner (h : Hand a L x o) (heq : a.freeInner x o = .ok a') : Moves a a' := by
  rw [h.freeInner_eq] at heq
  split at heq
  · cases heq
    exact .single (.counts a _ a.freeFrames)
  · cases heq
    -- the references are dropped, buddies come off their lists, and the block they make up is listed
    have h₁ : Hand { a with refcount :=
        BuddyAllocator.updateRefcounts (fun _ => 0) (frameIndex x) (1 <<< o) a.refcount } L x o := h.counts _ _
    obtain ⟨L₂, hand, -⟩ := coalesce_spec h₁ h.order_add_sub
    have hcounts : Move a { a with refcount :=
        BuddyAllocator.updateRefcounts (fun _ => 0) (frameIndex x) (1 <<< o) a.refcount } :=
      .counts a _ a.freeFrames
    exact .tail (.tail (.head hcounts (moves_coalesce h₁ h.order_add_sub)) (move_pushFree hand)) (.counts _ _ _)

/-- How `add_free_range` cuts a range: the block lies in it, and the next order would not fit there. -/
structure Greedy (r : Nat × Nat) (y o : Nat) : Prop where
  low : r.1 ≤ y
  high : y + 2 ^ (frameLevel + o) ≤ r.2
  next : o < maxOrder → 2 ^ (frameLevel + (o + 1)) ∣ y → r.2 < y + 2 ^ (frameLevel + (o + 1))

/-- The order loop stops below the largest order only where the next one is not aligned or does not fit. -/
theorem fitOrderFrom_next (addr remaining : Nat) (hk : o + k = maxOrder)
    (hlt : fitOrderFrom addr remaining k o < maxOrder)
    (hal : 2 ^ (frameLevel + (fitOrderFrom addr remaining k o + 1)) ∣ addr) :
    remaining < 2 ^ (frameLevel + (fitOrderFrom addr remaining k o + 1)) := by
  induction k generalizing o with
  | zero =>
    have hstop : fitOrderFrom addr remaining 0 o = o := rfl
    omega
  | succ k ih =>
    simp only [fitOrderFrom, frameSize_shl] at hlt hal ⊢
    by_cases hbig : 2 ^ (frameLevel + (o + 1)) > remaining
    · rw [if_pos hbig]
      exact hbig
    by_cases hmis : addr % 2 ^ (frameLevel + (o + 1)) ≠ 0
    · rw [if_neg hbig, if_pos hmis] at hal
      exact absurd (Nat.mod_eq_zero_of_dvd hal) hmis
    rw [if_neg hbig, if_neg hmis] at hlt hal ⊢
    exact ih (by omega) hlt hal

theorem addFreeRangeFrom_cut {start addr fin : Nat} (h : Proper a) (hstart : start ≤ addr) (hda : frameSize ∣ addr)
    (hdf : frameSize ∣ fin) (hfin : fin ≤ a.totalFrames * frameSize) (hne : addr < fin → addr ≠ 0)
    (hnew : ∀ f, addr ≤ f → f < fin → ¬ Cover frameLevel (freeBlocks a) f) :
    Moves a (addFreeRangeFrom k a addr fin) ∧
      ∀ o, ∀ y ∈ freeBlocks (addFreeRangeFrom k a addr fin) o, y ∈ freeBlocks a o ∨ Greedy (start, fin) y o := by
  induction k generalizing a addr with
  | zero => exact ⟨.refl, fun o y hy => .inl hy⟩
  | succ k ih =>
    by_cases hlt : addr < fin
    swap
    · rw [addFreeRangeFrom_of_le (not_lt.mp hlt)]
      exact ⟨.refl, fun o y hy => .inl hy⟩
    obtain ⟨order, hfit, hmax, hal, hle, hround⟩ := addFreeRangeFrom_succ a hda hdf hlt
    have hnext := fitOrderFrom_next addr (fin - addr) (o := 0) (k := maxOrder) (by simp)
    rw [← fitOrder, ← hfit] at hnext
    rw [hround]
    have hpos := Nat.two_pow_pos (frameLevel + order)
    have hx : Unlisted a addr order :=
      ⟨⟨hmax, hal, by omega, fun f hf => hnew f hf.1 (by have := hf.2; omega)⟩, hne hlt⟩
    have hadd := adds_listed (freeBlocks a) addr order
    have hlists := freeBlocks_pushFree h hx
    have hmoves : Moves a { a.pushFree addr order with
        freeFrames := saturatingAdd 64 a.freeFrames (2 ^ order) } :=
      .head (.push hx) (.single (.counts _ (a.pushFree addr order).refcount _))
    have hafter : freeBlocks { a.pushFree addr order with
        freeFrames := saturatingAdd 64 a.freeFrames (2 ^ order) } = listed (freeBlocks a) addr order := hlists
    -- the rest of the range is as free of blocks as before, the block just listed ending where it begins
    obtain ⟨hrest, hcut⟩ := ih (h.moves hmoves) (by omega : start ≤ addr + 2 ^ (frameLevel + order))
      (Nat.dvd_add hda (Nat.pow_dvd_pow 2 (Nat.le_add_right _ _))) (by simpa using hfin)
      (fun _ => Nat.ne_of_gt (Nat.add_pos_left (by have := hne hlt; omega) _))
      (by
        intro f h1 h2 hc
        rw [hafter] at hc
        rcases hadd.cover_iff.mp hc with hc | hc
        · exact hnew f (by omega) h2 hc
        · have := hc.2
          omega)
    refine ⟨hmoves.trans hrest, fun o y hy => ?_⟩
    rcases hcut o y hy with hy | hgreedy
    · rw [hafter] at hy
      rcases hadd.mem_iff.mp hy with hy | ⟨rfl, rfl⟩
      · exact .inl hy
      · refine .inr ⟨hstart, by show _ ≤ fin; omega, fun ho hdvd => ?_⟩
        have := hnext ho hdvd
        show fin < _
        omega
    · exact .inr hgreedy

variable {ranges : List (Nat × Nat)}

theorem addRanges_cut (h : Proper a) (hw : a.freeFrames = weight maxOrder (freeBlocks a))
    (hok : RangesOk a.totalFrames ranges)
    (hnew : ∀ r ∈ ranges, ∀ f, r.1 ≤ f → f < r.2 → ¬ Cover frameLevel (freeBlocks a) f) :
    Moves a (addRanges a ranges) ∧
      ∀ o, ∀ y ∈ freeBlocks (addRanges a ranges) o, y ∈ freeBlocks a o ∨ ∃ r ∈ ranges, Greedy r y o := by
  induction ranges generalizing a with
  | nil => exact ⟨.refl, fun o y hy => .inl hy⟩
  | cons r ranges ih =>
    have hmem : r ∈ r :: ranges := List.mem_cons_self
    obtain ⟨hd, hrest⟩ := List.pairwise_cons.mp hok.disjoint
    have hbounded := hok.bounded r hmem
    obtain ⟨L₁, hrep, hw₁, ht, _, hcov⟩ := addFreeRangeFrom_spec h hw (le_refl _)
      (hok.aligned r hmem).1 (hok.aligned r hmem).2 hbounded (hok.nonzero r hmem) (hnew r hmem)
    obtain ⟨hmoves, hcut⟩ : Moves a (a.addFreeRange r.1 r.2) ∧ ∀ o, ∀ y ∈ freeBlocks (a.addFreeRange r.1 r.2) o,
        y ∈ freeBlocks a o ∨ Greedy r y o :=
      addFreeRangeFrom_cut h le_rfl (hok.aligned r hmem).1 (hok.aligned r hmem).2 hbounded
        (hok.nonzero r hmem) (hnew r hmem)
    obtain rfl := hrep.freeBlocks_eq
    obtain ⟨hmoves', hcut'⟩ := ih (a := a.addFreeRange r.1 r.2) hrep hw₁
      (by
        rw [BuddyAllocator.addFreeRange, ht]
        exact ⟨hok.total, fun q hq => hok.aligned q (List.mem_cons_of_mem _ hq),
          fun q hq => hok.bounded q (List.mem_cons_of_mem _ hq),
          fun q hq => hok.nonzero q (List.mem_cons_of_mem _ hq), hrest⟩)
      (by
        intro q hq f h1 h2 hc
        rcases (hcov f).mp hc with hc | hin
        · exact hnew q (List.mem_cons_of_mem _ hq) f h1 h2 hc
        · exact hd q hq f hin.1 hin.2 ⟨h1, h2⟩)
    refine ⟨hmoves.trans hmoves', fun o y hy => ?_⟩
    rcases hcut' o y hy with hy | ⟨q, hq, hgreedy⟩
    · exact (hcut o y hy).imp id fun hgreedy => ⟨r, hmem, hgreedy⟩
    · exact .inr ⟨q, List.mem_cons_of_mem _ hq, hgreedy⟩

/-- The allocator filled from `ranges`. -/
abbrev filled (totalFrames : Nat) (ranges : List (Nat × Nat)) : BuddyAllocator := addRanges (.empty totalFrames) ranges

variable {totalFrames : Nat}

theorem filled_cut (hok : RangesOk totalFrames ranges) :
    Moves (.empty totalFrames) (filled totalFrames ranges) ∧
      ∀ o, ∀ y ∈ freeBlocks (filled totalFrames ranges) o, ∃ r ∈ ranges, Greedy r y o := by
  have hempty := represents_empty hok.total
  have hlists : freeBlocks (.empty totalFrames) = fun _ => [] := hempty.freeBlocks_eq
  have hw : (BuddyAllocator.empty totalFrames).freeFrames = weight maxOrder (freeBlocks (.empty totalFrames)) := by
    rw [hlists]
    simp [BuddyAllocator.empty, weight]
  obtain ⟨hmoves, hcut⟩ := addRanges_cut (proper_of_represents hempty) hw hok (by
    rintro r _ f _ _ ⟨o, y, hy, _⟩
    rw [hlists] at hy
    exact absurd hy List.not_mem_nil)
  refine ⟨hmoves, fun o y hy => (hcut o y hy).resolve_left fun hold => ?_⟩
  rw [hlists] at hold
  exact absurd hold List.not_mem_nil

theorem proper_of_filled (hok : RangesOk totalFrames ranges) :
    Proper (filled totalFrames ranges) :=
  (proper_of_represents (represents_empty hok.total)).moves (filled_cut hok).1

/-- **Ranges that do not touch leave no two free buddies.** -/
theorem noFreeBuddies_filled (hok : RangesOk totalFrames ranges)
    (hapart : ∀ r ∈ ranges, ∀ q ∈ ranges, r.2 ≠ q.1) :
    NoFreeBuddies frameLevel maxOrder (freeBlocks (filled totalFrames ranges)) := by
  obtain ⟨-, hcut⟩ := filled_cut hok
  -- the lower and the upper half of a block that one range could have given
  have hlower : ∀ o, o < maxOrder → ∀ x ∈ freeBlocks (filled totalFrames ranges) o,
      2 ^ (frameLevel + o + 1) ∣ x → x + 2 ^ (frameLevel + o) ∉ freeBlocks (filled totalFrames ranges) o := by
    intro o ho x hx hal hy
    obtain ⟨r, hr, hrx⟩ := hcut o x hx
    obtain ⟨q, hq, hqy⟩ := hcut o _ hy
    have hnext := hrx.next ho hal
    have hdouble : 2 ^ (frameLevel + (o + 1)) = 2 ^ (frameLevel + o) + 2 ^ (frameLevel + o) := by ring
    have hpos := Nat.two_pow_pos (frameLevel + o)
    have hr1 := hrx.low
    have hr2 := hrx.high
    have hq1 := hqy.low
    have hq2 := hqy.high
    by_cases hrq : r = q
    · -- one range that holds both halves would have given the whole block
      subst hrq
      omega
    · -- of two ranges, one ends where the other begins
      have hdisjoint : ∀ f, r.1 ≤ f → f < r.2 → ¬ (q.1 ≤ f ∧ f < q.2) := by
        have hsymm : Std.Symm fun r q : Nat × Nat => ∀ f, r.1 ≤ f → f < r.2 → ¬ (q.1 ≤ f ∧ f < q.2) :=
          ⟨fun _ _ hrel f h1 h2 h3 => hrel f h3.1 h3.2 ⟨h1, h2⟩⟩
        exact hok.disjoint.forall hr hq hrq
      have h1 := hdisjoint (x + 2 ^ (frameLevel + o))
      have h2 := hdisjoint (x + 2 ^ (frameLevel + o) - 1)
      have h3 := hapart r hr q hq
      omega
  intro o ho x hx hbuddy
  by_cases hal : 2 ^ (frameLevel + o + 1) ∣ x
  · rw [buddy_lower hal] at hbuddy
    exact hlower o ho x hx hal hbuddy
  · obtain ⟨hsum, hal'⟩ := buddy_upper (proper_of_filled hok |>.space.aligned hx) hal
    exact hlower o ho _ hbuddy hal' (hsum.symm ▸ hx)

/-! ## Runs -/

/-- The calls made under the allocator lock, and a write to memory that is not free. -/
inductive Call
  | alloc (order : Nat)
  | allocConstrained (order maxAddr : Nat)
  | free (addr order : Nat)
  | refInc (addr : Nat)
  | refDec (addr : Nat)
  | write (addr : Nat) (node : Node Nat)

/-- The allocator after a call: a refused one changes nothing. -/
def after (a : BuddyAllocator) : KernelResult BuddyAllocator → BuddyAllocator
  | .ok a' => a'
  | .error _ => a

def step (a : BuddyAllocator) : Call → Option BuddyAllocator
  | .alloc order => some (after a ((a.allocInner order).map Prod.snd))
  | .allocConstrained order maxAddr => some (after a ((a.allocInnerConstrained order maxAddr).map Prod.snd))
  | .free addr order => some (after a (a.freeInner addr order))
  | .refInc addr => some (after a (a.refInc addr))
  | .refDec addr => some (after a ((a.refDec addr).map Prod.snd))
  | .write addr node => if isFree a addr then none else some { a with mem := write a.mem addr node }

/-- The checks of `free_inner` see what is wrong with a block that reaches into free memory: its order, or a free
block that begins where it does. -/
def Seen (a : BuddyAllocator) (addr order : Nat) : Prop := order > maxOrder ∨ ∃ o, addr ∈ freeBlocks a o

/-- What is freed is not free, or is seen to be. -/
def Fair (a : BuddyAllocator) : Call → Prop
  | .free addr order => Unlisted a addr order ∨ Seen a addr order
  | _ => True

/-- `free_inner` refuses what it sees. -/
theorem freeInner_of_seen (h : Proper a) (hseen : Seen a x order) : ∃ e, a.freeInner x order = .error e := by
  unfold freeInner
  split
  · exact ⟨_, rfl⟩
  next horder =>
  obtain ⟨o, hx⟩ := hseen.resolve_left horder
  rw [if_neg (not_not.mpr (Nat.mod_eq_zero_of_dvd (h.dvd hx)))]
  have hinfo : a.pageInfo (frameIndex x) = o := by
    rw [h.info _ _ (h.order_le hx), frameIndex_mul (h.dvd hx)]
    exact hx
  have hne : a.pageInfo (frameIndex x) ≠ infoAllocated := by
    have hle := h.order_le hx
    have hm : maxOrder = 10 := rfl
    have hi : infoAllocated = 255 := rfl
    omega
  dsimp only
  rw [if_pos hne]
  split
  · exact ⟨_, rfl⟩
  · exact ⟨_, rfl⟩

theorem after_map {r : KernelResult (Nat × BuddyAllocator)} {P : BuddyAllocator → Prop} (h : P a)
    (hr : ∀ x a', r = .ok (x, a') → P a') : P (after a (r.map Prod.snd)) := by
  cases r with
  | error e => exact h
  | ok p => exact hr p.1 p.2 rfl

/-- What a call preserves besides the shape of the lists: the managed memory, and full coalescing. -/
structure Preserves (a a' : BuddyAllocator) : Prop where
  moves : Moves a a'
  buddies : NoFreeBuddies frameLevel maxOrder (freeBlocks a) → NoFreeBuddies frameLevel maxOrder (freeBlocks a')

theorem Preserves.refl (a : BuddyAllocator) : Preserves a a := ⟨.refl, id⟩

theorem Preserves.of_eq (hm : Moves a a') (h : freeBlocks a' = freeBlocks a) : Preserves a a' := ⟨hm, by rw [h]; exact id⟩

theorem preserves_take (hm : Moves a a') (ht : ∃ L', Takes a (freeBlocks a) x order a' L') :
    Preserves a a' := by
  obtain ⟨L', ht⟩ := ht
  exact ⟨hm, by rw [ht.hand.represents.freeBlocks_eq]; exact ht.buddies⟩

theorem preserves_freeInner (h : Proper a) (hx : Unlisted a x order) :
    Preserves a (after a (a.freeInner x order)) := by
  have hand := h.hand hx
  by_cases hrc : a.refcount (frameIndex x) > 1
  · rw [freeInner_shared hand hrc]
    exact .of_eq (.single (.counts a _ a.freeFrames)) rfl
  · obtain ⟨a', L', heq, hr⟩ := freeInner_last hand (not_lt.mp hrc)
    rw [heq]
    exact ⟨moves_freeInner hand heq, by rw [after, hr.represents.freeBlocks_eq]; exact hr.buddies⟩

/-- **One call.** -/
theorem Proper.step (h : Proper a) {c : Call} (hfair : Fair a c) (hs : step a c = some a') : Preserves a a' := by
  cases c with
  | alloc order =>
    cases hs
    exact after_map (.refl a) fun x a' heq => preserves_take (moves_allocInner h heq) (allocInner_spec h heq)
  | allocConstrained order maxAddr =>
    cases hs
    exact after_map (.refl a) fun x a' heq =>
      preserves_take (moves_allocInnerConstrained h heq) (allocInnerConstrained_spec h heq)
  | free addr order =>
    cases hs
    rcases hfair with hx | hseen
    · exact preserves_freeInner h hx
    · obtain ⟨e, heq⟩ := freeInner_of_seen h hseen
      rw [heq]
      exact .refl a
  | refInc addr =>
    cases hs
    rw [BuddyAllocator.refInc]
    dsimp only
    split
    · exact .refl a
    split
    · exact .refl a
    · exact .of_eq (.single (.counts a _ a.freeFrames)) rfl
  | refDec addr =>
    cases hs
    rw [BuddyAllocator.refDec]
    dsimp only
    split
    · exact .refl a
    split
    · exact .refl a
    · exact .of_eq (.single (.counts a _ a.freeFrames)) rfl
  | write addr node =>
    simp only [BuddyRuns.step] at hs
    split at hs
    · cases hs
    next hfree =>
    cases hs
    have hy : ¬ Cover frameLevel (freeBlocks a) addr := fun hc => hfree ((isFree_iff h).mpr hc)
    exact .of_eq (.single (.write hy node)) (freeBlocks_write h hy node)

/-- **Every run** of fair calls is a sequence of moves from the empty allocator, and keeps full coalescing. -/
theorem of_reach (hok : RangesOk totalFrames ranges)
    (h : ReachBy step Fair (· = filled totalFrames ranges) a) :
    Moves (.empty totalFrames) a ∧ Proper a ∧
      (NoFreeBuddies frameLevel maxOrder (freeBlocks (filled totalFrames ranges)) →
        NoFreeBuddies frameLevel maxOrder (freeBlocks a)) := by
  refine h.invariant (I := fun a => Moves (.empty totalFrames) a ∧ Proper a ∧
    (NoFreeBuddies frameLevel maxOrder (freeBlocks (filled totalFrames ranges)) →
      NoFreeBuddies frameLevel maxOrder (freeBlocks a))) ?_ ?_
  · rintro _ rfl
    exact ⟨(filled_cut hok).1, proper_of_filled hok, id⟩
  · rintro a c a' ⟨hm, hp, hn⟩ hfair hs
    have hpres := hp.step hfair hs
    exact ⟨hm.trans hpres.moves, hp.moves hpres.moves, fun hb => hpres.buddies (hn hb)⟩

end SlateOS.Mm.Frame.BuddyRuns

/-! ## Which double frees are detected

`free_inner` recognises a free block by the order that `page_info` keeps for its first frame, and the other
frames of a free block are marked as allocated ones are. A free that reaches into free memory is refused when it
starts where a free block does, and goes through everywhere else: on a frame that has been merged into the block
before it, and on a larger block whose later frames are free.
-/

namespace SlateOS.Mm.Frame.DoubleFree

open Foundation.Runs Foundation.Dyadic Foundation.BuddySpace Kernel Mm.Frame.Buddy Mm.Frame.Lists
open Mm.Frame.BuddyRuns
open Mm.Frame.Invariant (RangesOk)
open Mm.Frame.Refcount (isFree isFree_iff)

variable {a : BuddyAllocator} {addr order : Nat}

/-- The block reaches into free memory. -/
def Reaches (a : BuddyAllocator) (addr order : Nat) : Prop :=
  ∃ f, Within (frameLevel + order) addr f ∧ isFree a f = true

/-- A block that reaches into free memory begins in managed memory. -/
theorem index_lt_of_reaches (h : Proper a) (hreach : Reaches a addr order) : frameIndex addr < a.totalFrames := by
  obtain ⟨f, hin, hfree⟩ := hreach
  obtain ⟨o, y, hy, hwithin⟩ := (isFree_iff h).mp hfree
  refine (Nat.div_lt_iff_lt_mul frameSize_pos).mpr ?_
  exact hin.1.trans_lt (hwithin.2.trans_le (h.space.bounded hy))

/-- Where no free block begins, `free_inner` takes the frame for an allocated one. -/
theorem freeInner_of_not_seen (h : Proper a) (haligned : frameSize ∣ addr) (hreach : Reaches a addr order)
    (hseen : ¬ Seen a addr order) : ∃ a', a.freeInner addr order = .ok a' := by
  rw [Seen, not_or, not_exists] at hseen
  have hidx := index_lt_of_reaches h hreach
  have hinfo : a.pageInfo (frameIndex addr) = infoAllocated := by
    refine h.info_other _ fun o => ?_
    rw [frameIndex_mul haligned]
    exact hseen.2 o
  -- every check of the source passes
  unfold BuddyAllocator.freeInner
  rw [if_neg hseen.1, if_neg (not_not.mpr (Nat.mod_eq_zero_of_dvd haligned))]
  dsimp only
  rw [if_neg (not_le.mpr hidx), if_neg (not_not.mpr hinfo)]
  split
  · exact ⟨_, rfl⟩
  · exact ⟨_, rfl⟩

/-- **Double frees**: in every state that calls reach which free nothing free unseen, a free of a block that
reaches into free memory fails and changes nothing exactly when the block is seen. -/
theorem double_free_refused_iff {totalFrames : Nat} {ranges : List (Nat × Nat)} (hok : RangesOk totalFrames ranges)
    (hs : ReachBy step Fair (· = filled totalFrames ranges) a) (haligned : frameSize ∣ addr)
    (hreach : Reaches a addr order) :
    ((∃ e, a.freeInner addr order = .error e) ∧ step a (.free addr order) = some a) ↔ Seen a addr order := by
  have hproper := (of_reach hok hs).2.1
  constructor
  · rintro ⟨⟨e, herror⟩, -⟩
    by_contra hseen
    obtain ⟨a', hfreed⟩ := freeInner_of_not_seen hproper haligned hreach hseen
    rw [herror] at hfreed
    cases hfreed
  · intro hseen
    obtain ⟨e, herror⟩ := freeInner_of_seen hproper hseen
    refine ⟨⟨e, herror⟩, ?_⟩
    rw [step, herror]
    rfl

/-- Two free frames that make up one block. -/
def twoFrames : List (Nat × Nat) := [(32768, 65536)]

theorem rangesOk_twoFrames : RangesOk 4 twoFrames := by
  refine ⟨by decide, ?_, ?_, ?_, List.pairwise_singleton _ _⟩ <;> decide

theorem double_free_refused_iff_first_frame :
    (∃ e, (filled 4 twoFrames).freeInner 32768 0 = .error e) ∧
      step (filled 4 twoFrames) (.free 32768 0) = some (filled 4 twoFrames) :=
  (double_free_refused_iff rangesOk_twoFrames (.start rfl) (by decide) ⟨32768, by decide, by decide⟩).mpr
    (.inr ⟨1, by decide⟩)

/-- Both frames allocated, both freed, and the second freed once more: it was merged into the block of the first,
and is listed as a free block inside it. -/
theorem merged_frame_freed_again :
    ∃ a a', run step (filled 4 twoFrames) [.alloc 0, .alloc 0, .free 32768 0, .free 49152 0] = some a ∧
      freeBlocks a 1 = [32768] ∧ isFree a 49152 = true ∧ a.freeFrames = 2 ∧
      a.freeInner 49152 0 = .ok a' ∧ freeBlocks a' 1 = [32768] ∧ freeBlocks a' 0 = [49152] ∧ a'.freeFrames = 3 :=
  ⟨_, _, rfl, by decide, by decide, by decide, rfl, by decide, by decide, by decide⟩

end SlateOS.Mm.Frame.DoubleFree
