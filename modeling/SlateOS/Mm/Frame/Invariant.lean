/-
# SlateOS.Mm.Frame.Invariant -- the buddy allocator over whole runs

The allocator under its lock, with the list of blocks it has handed out. A run starts from ranges
of frames added to the empty allocator and goes on by `alloc_inner`, `alloc_inner_constrained`,
`free_inner` of an outstanding block at its order, and writes of the owners into their blocks: a
free block's list node lies in memory that was an owner's a moment before, so the invariant has to
survive whatever the owner left there.

`Inv` is what carries over from call to call; `Consistent` is what it says about the allocator's
own data, the blocks being read back from the lists themselves.
-/
import SlateOS.Foundation.Runs
import SlateOS.Mm.Frame.Operations

namespace SlateOS.Mm.Frame.Invariant

open Foundation.Runs Foundation.IntrusiveList Foundation.MachineInt Foundation.Dyadic Foundation.BuddySpace
open Kernel Mm.Frame.Buddy Mm.Frame.Lists Mm.Frame.Operations

/-! ## The system -/

/-- The allocator and the blocks `(addr, order)` it has handed out. -/
structure State where
  alloc : BuddyAllocator
  out : List (Nat × Nat)

/-- The calls made under the allocator lock, and an owner's write into its own block. -/
inductive Call
  | alloc (order : Nat)
  | allocConstrained (order maxAddr : Nat)
  | free (addr order : Nat)
  | write (addr : Nat) (node : Node Nat)

/-- Record the outcome of an allocation; a refused one changes nothing. -/
def State.allocated (s : State) (order : Nat) : KernelResult (Nat × BuddyAllocator) → State
  | .ok (addr, a) => ⟨a, (addr, order) :: s.out⟩
  | .error _ => s

/-- Record the outcome of freeing an outstanding block. -/
def State.freed (s : State) (addr order : Nat) : KernelResult BuddyAllocator → State
  | .ok a => ⟨a, s.out.erase (addr, order)⟩
  | .error _ => s

/-- One call. `free` is enabled on an outstanding block at its order, `write` inside one. -/
def step (s : State) : Call → Option State
  | .alloc order => some (s.allocated order (s.alloc.allocInner order))
  | .allocConstrained order maxAddr =>
    some (s.allocated order (s.alloc.allocInnerConstrained order maxAddr))
  | .free addr order =>
    if (addr, order) ∈ s.out then some (s.freed addr order (s.alloc.freeInner addr order))
    else none
  | .write addr node =>
    if ∃ b ∈ s.out, Within (frameLevel + b.2) b.1 addr then
      some { s with alloc := { s.alloc with mem := write s.alloc.mem addr node } }
    else none

/-- `add_free_range` over a list of ranges. -/
def addRanges (a : BuddyAllocator) (ranges : List (Nat × Nat)) : BuddyAllocator :=
  ranges.foldl (fun a r => a.addFreeRange r.1 r.2) a

/-- The allocator filled from `ranges`, nothing handed out. -/
def initial (totalFrames : Nat) (ranges : List (Nat × Nat)) : State :=
  ⟨addRanges (.empty totalFrames) ranges, []⟩

/-- Frame ranges `[r.1, r.2)` inside the managed memory, pairwise disjoint, none with address 0. -/
structure RangesOk (totalFrames : Nat) (ranges : List (Nat × Nat)) : Prop where
  total : totalFrames * frameSize ≤ 2 ^ 64
  aligned : ∀ r ∈ ranges, frameSize ∣ r.1 ∧ frameSize ∣ r.2
  bounded : ∀ r ∈ ranges, r.2 ≤ totalFrames * frameSize
  nonzero : ∀ r ∈ ranges, r.1 < r.2 → r.1 ≠ 0
  disjoint : ranges.Pairwise fun r q => ∀ f, r.1 ≤ f → f < r.2 → ¬ (q.1 ≤ f ∧ f < q.2)

/-- Frames in outstanding blocks. -/
def framesOut (out : List (Nat × Nat)) : Nat := (out.map fun b => 2 ^ b.2).sum

/-! ## The invariant of one state -/

/-- **The invariant**: the lists represent a free space, every outstanding block lies outside it
with one reference, outstanding blocks are disjoint, and the counter is the free space's size. -/
structure Inv (s : State) (L : Nat → List Nat) : Prop where
  represents : Represents s.alloc L
  out : ∀ b ∈ s.out, FreeFits s.alloc L b.1 b.2 ∧ b.1 ≠ 0 ∧ s.alloc.refcount (frameIndex b.1) = 1
  disjoint : s.out.Pairwise fun b c => Disjoint (frameLevel + b.2) b.1 (frameLevel + c.2) c.1
  freeFrames : s.alloc.freeFrames = weight maxOrder L

variable {s s' : State} {L L' : Nat → List Nat} {a : BuddyAllocator} {x o : Nat}

theorem Inv.hand (h : Inv s L) {b : Nat × Nat} (hb : b ∈ s.out) : Hand s.alloc L b.1 b.2 :=
  ⟨h.represents, (h.out b hb).1, (h.out b hb).2.1⟩

/-- Handing out a block keeps the invariant. -/
theorem Inv.take (h : Inv s L) (ht : Takes s.alloc L x o a L') : Inv ⟨a, (x, o) :: s.out⟩ L' where
  represents := ht.hand.represents
  out := by
    intro b hb
    rcases List.mem_cons.mp hb with rfl | hb
    · refine ⟨ht.hand.fits, ht.hand.ne_zero, ?_⟩
      rw [ht.refcount, if_pos]
      rw [frameIndex_mul ht.hand.dvd]
      exact within_base _ _
    · obtain ⟨hfit, hne, hrc⟩ := h.out b hb
      have hfresh : ∀ f, Within (frameLevel + b.2) b.1 f → ¬ Cover frameLevel L' f :=
        fun f hf hc => hfit.fresh f hf ((ht.cover f).mpr (Or.inl hc))
      refine ⟨⟨hfit.order_le, hfit.aligned, ?_, hfresh⟩, hne, ?_⟩
      · rw [ht.totalFrames]
        exact hfit.bounded
      · rw [ht.refcount, if_neg, hrc]
        rw [frameIndex_mul (h.hand hb).dvd]
        exact fun hw => hfit.fresh _ (within_base _ _) ((ht.cover _).mpr (Or.inr hw))
  disjoint := by
    refine List.pairwise_cons.mpr ⟨fun b hb f hx hf => ?_, h.disjoint⟩
    exact (h.out b hb).1.fresh f hf ((ht.cover f).mpr (Or.inr hx))
  freeFrames := by
    have hw := ht.weight
    rw [ht.freeFrames, h.freeFrames]
    omega

/-- Taking back an outstanding block keeps the invariant. -/
theorem Inv.give (h : Inv s L) (hx : (x, o) ∈ s.out) (hr : Returns s.alloc L x o a L') :
    Inv ⟨a, s.out.erase (x, o)⟩ L' where
  represents := hr.represents
  out := by
    have hp : ((x, o) :: s.out.erase (x, o)).Pairwise fun b c =>
        Disjoint (frameLevel + b.2) b.1 (frameLevel + c.2) c.1 :=
      ((List.perm_cons_erase hx).pairwise_iff fun hd => hd.symm).mp h.disjoint
    intro b hb
    have hbo : b ∈ s.out := List.mem_of_mem_erase hb
    have hd : Disjoint (frameLevel + o) x (frameLevel + b.2) b.1 := (List.pairwise_cons.mp hp).1 b hb
    obtain ⟨hfit, hne, hrc⟩ := h.out b hbo
    have hfresh : ∀ f, Within (frameLevel + b.2) b.1 f → ¬ Cover frameLevel L' f := by
      intro f hf hc
      rcases (hr.cover f).mp hc with hc | hw
      · exact hfit.fresh f hf hc
      · exact hd f hw hf
    refine ⟨⟨hfit.order_le, hfit.aligned, ?_, hfresh⟩, hne, ?_⟩
    · rw [hr.totalFrames]
      exact hfit.bounded
    · rw [hr.refcount, if_neg, hrc]
      rw [frameIndex_mul (h.hand hbo).dvd]
      exact fun hw => hd _ hw (within_base _ _)
  disjoint := h.disjoint.sublist List.erase_sublist
  freeFrames := by
    have hle := hr.represents.weight_le
    have ht := hr.represents.totalFrames_le
    have hw := hr.weight
    rw [hr.freeFrames, h.freeFrames, saturatingAdd_of_lt (by omega), hw]

theorem framesOut_cons (b : Nat × Nat) (out : List (Nat × Nat)) :
    framesOut (b :: out) = 2 ^ b.2 + framesOut out := rfl

theorem framesOut_erase {out : List (Nat × Nat)} (hx : (x, o) ∈ out) :
    framesOut out = 2 ^ o + framesOut (out.erase (x, o)) :=
  ((List.perm_cons_erase hx).map fun b : Nat × Nat => 2 ^ b.2).sum_eq

/-! ## One step -/

/-- What one call preserves besides the invariant: the number of frames, and full coalescing. -/
structure Preserves (s : State) (L : Nat → List Nat) (s' : State) (L' : Nat → List Nat) : Prop where
  inv : Inv s' L'
  frames : s'.alloc.freeFrames + framesOut s'.out = s.alloc.freeFrames + framesOut s.out
  buddies : NoFreeBuddies frameLevel maxOrder L → NoFreeBuddies frameLevel maxOrder L'

theorem Inv.preserves_refl (h : Inv s L) : Preserves s L s L := ⟨h, rfl, id⟩

/-- An allocation, granted or refused. -/
theorem Inv.allocated (h : Inv s L) {order : Nat} {r : KernelResult (Nat × BuddyAllocator)}
    (hr : ∀ x a, r = .ok (x, a) → ∃ L', Takes s.alloc L x order a L') :
    ∃ L', Preserves s L (s.allocated order r) L' := by
  cases r with
  | error e => exact ⟨L, h.preserves_refl⟩
  | ok xa =>
    obtain ⟨x, a⟩ := xa
    obtain ⟨L', ht⟩ := hr x a rfl
    refine ⟨L', h.take ht, ?_, ht.buddies⟩
    have hw := ht.weight
    have hf := ht.freeFrames
    have hs := h.freeFrames
    simp only [State.allocated, framesOut_cons]
    omega

/-- Freeing an outstanding block succeeds and returns it. -/
theorem Inv.freeInner (h : Inv s L) (hx : (x, o) ∈ s.out) :
    ∃ a L', s.alloc.freeInner x o = .ok a ∧ Returns s.alloc L x o a L' :=
  freeInner_last (h.hand hx) (h.out _ hx).2.2.le

/-- **One call** preserves the invariant, the number of frames and full coalescing. -/
theorem Inv.step (h : Inv s L) {c : Call} (hs : step s c = some s') :
    ∃ L', Preserves s L s' L' := by
  cases c with
  | alloc order =>
    cases hs
    exact h.allocated fun x a heq => allocInner_spec h.represents heq
  | allocConstrained order maxAddr =>
    cases hs
    exact h.allocated fun x a heq => allocInnerConstrained_spec h.represents heq
  | free x o =>
    simp only [Invariant.step] at hs
    split at hs
    · next hx =>
        obtain ⟨a, L', heq, hr⟩ := h.freeInner hx
        rw [heq] at hs
        cases hs
        have hg : Inv ⟨a, s.out.erase (x, o)⟩ L' := h.give hx hr
        refine ⟨L', hg, ?_, hr.buddies⟩
        have hw := hr.weight
        have hf := hg.freeFrames
        have hs' := h.freeFrames
        have ho := framesOut_erase hx
        simp only [State.freed] at hf ⊢
        omega
    · cases hs
  | write addr node =>
    simp only [Invariant.step] at hs
    split at hs
    · next hb =>
        obtain ⟨b, hb, hw⟩ := hb
        cases hs
        have hrep := h.represents.write_outside node ((h.out b hb).1.fresh addr hw)
        exact ⟨L, ⟨hrep, h.out, h.disjoint, h.freeFrames⟩, rfl, id⟩
    · cases hs

/-! ## The initial state -/

variable {ranges : List (Nat × Nat)}

/-- Adding ranges that are free of each other and of the space adds exactly their addresses. -/
theorem addRanges_spec (h : Represents a L)
    (hw : a.freeFrames = weight maxOrder L)
    (hok : RangesOk a.totalFrames ranges)
    (hnew : ∀ r ∈ ranges, ∀ f, r.1 ≤ f → f < r.2 → ¬ Cover frameLevel L f) :
    ∃ L', Represents (addRanges a ranges) L' ∧
      (addRanges a ranges).freeFrames = weight maxOrder L' ∧
      ∀ f, Cover frameLevel L' f ↔ Cover frameLevel L f ∨ ∃ r ∈ ranges, r.1 ≤ f ∧ f < r.2 := by
  induction ranges generalizing a L with
  | nil => exact ⟨L, h, hw, fun f => by simp⟩
  | cons r ranges ih =>
    have hmem : r ∈ r :: ranges := List.mem_cons_self
    obtain ⟨hd, hrest⟩ := List.pairwise_cons.mp hok.disjoint
    obtain ⟨L₁, hrep, hw₁, ht, _, hcov⟩ := addFreeRangeFrom_spec h hw (le_refl _)
      (hok.aligned r hmem).1 (hok.aligned r hmem).2 (hok.bounded r hmem) (hok.nonzero r hmem)
      (hnew r hmem)
    obtain ⟨L₂, hrep₂, hw₂, hcov₂⟩ := ih (a := a.addFreeRange r.1 r.2) hrep hw₁
      (by
        rw [BuddyAllocator.addFreeRange, ht]
        exact ⟨hok.total, fun q hq => hok.aligned q (List.mem_cons_of_mem _ hq),
          fun q hq => hok.bounded q (List.mem_cons_of_mem _ hq),
          fun q hq => hok.nonzero q (List.mem_cons_of_mem _ hq), hrest⟩)
      (by
        intro q hq f h1 h2 hc
        rcases (hcov f).mp hc with hc | hin
        · exact hnew q (List.mem_cons_of_mem _ hq) f h1 h2 hc
        · exact hd q hq f hin.1 hin.2 ⟨h1, h2⟩)
    refine ⟨L₂, hrep₂, hw₂, fun f => ?_⟩
    rw [hcov₂ f, hcov f, List.exists_mem_cons_iff, or_assoc]

/-- The filled allocator represents exactly the ranges. -/
theorem initial_spec {totalFrames : Nat}
    (hok : RangesOk totalFrames ranges) :
    ∃ L, Represents (addRanges (.empty totalFrames) ranges) L ∧
      (addRanges (.empty totalFrames) ranges).freeFrames = weight maxOrder L ∧
      ∀ f, Cover frameLevel L f ↔ ∃ r ∈ ranges, r.1 ≤ f ∧ f < r.2 := by
  have hw : (BuddyAllocator.empty totalFrames).freeFrames = weight maxOrder fun _ => [] := by
    simp [BuddyAllocator.empty, weight]
  have hnone : ∀ f, ¬ Cover frameLevel (fun _ => []) f := by
    rintro f ⟨_, _, hm, _⟩
    exact absurd hm List.not_mem_nil
  obtain ⟨L, hrep, hwL, hcov⟩ := addRanges_spec (represents_empty hok.total) hw hok
    fun r _ f _ _ => hnone f
  exact ⟨L, hrep, hwL, fun f => by simp [hcov f, hnone f]⟩

/-- The filled allocator satisfies the invariant. -/
theorem inv_initial {totalFrames : Nat}
    (hok : RangesOk totalFrames ranges) : ∃ L, Inv (initial totalFrames ranges) L := by
  obtain ⟨L, hrep, hw, _⟩ := initial_spec hok
  exact ⟨L, hrep, fun b hb => absurd hb List.not_mem_nil, List.Pairwise.nil, hw⟩

/-! ## Every reachable state -/

/-- The buddy allocator's own data is consistent: every clause is about the lists read back from
memory, `page_info`, the list heads and the counter. -/
structure Consistent (s : State) : Prop where
  shape : ∀ o, ∀ x ∈ freeBlocks s.alloc o,
    o ≤ maxOrder ∧ 2 ^ (frameLevel + o) ∣ x ∧ x + 2 ^ (frameLevel + o) ≤ s.alloc.totalFrames * frameSize
  free_disjoint : ∀ o, ∀ x ∈ freeBlocks s.alloc o, ∀ p, ∀ y ∈ freeBlocks s.alloc p,
    (x, o) ≠ (y, p) → Disjoint (frameLevel + o) x (frameLevel + p) y
  out_disjoint : ∀ o, ∀ x ∈ freeBlocks s.alloc o, ∀ b ∈ s.out,
    Disjoint (frameLevel + o) x (frameLevel + b.2) b.1
  info : ∀ f o, o ≤ maxOrder → (s.alloc.pageInfo f = o ↔ f * frameSize ∈ freeBlocks s.alloc o)
  info_other : ∀ f, (∀ o, f * frameSize ∉ freeBlocks s.alloc o) →
    s.alloc.pageInfo f = infoAllocated
  linked : ∀ o, Linked s.alloc.mem 0 (s.alloc.freeLists o).head (s.alloc.freeLists o).tail
    (freeBlocks s.alloc o)
  count : ∀ o, (s.alloc.freeLists o).count = (freeBlocks s.alloc o).length
  freeFrames : s.alloc.freeFrames = weight maxOrder (freeBlocks s.alloc)

theorem Inv.consistent (h : Inv s L) : Consistent s := by
  have hrep := h.represents
  have hL := hrep.freeBlocks_eq
  refine ⟨?_, ?_, ?_, ?_, ?_, ?_, ?_, ?_⟩ <;> rw [hL]
  · exact fun o x hx => ⟨hrep.order_le hx, hrep.space.aligned hx, hrep.space.bounded hx⟩
  · intro o x hx p y hy hne f hfx hfy
    obtain ⟨rfl, rfl⟩ := hrep.space.disjoint hx hy hfx hfy
    exact hne rfl
  · exact fun o x hx b hb f hfx hfb => (h.out b hb).1.fresh f hfb ⟨o, x, hx, hfx⟩
  · exact hrep.info
  · exact hrep.info_other
  · exact hrep.linked
  · exact hrep.count
  · exact h.freeFrames

/-- The invariant holds of every reachable state, together with what the run preserves. -/
theorem reach_inv {totalFrames : Nat}
    (hok : RangesOk totalFrames ranges)
    (hs : Reach step (fun s => s = initial totalFrames ranges) s) :
    ∃ L, Inv s L ∧
      s.alloc.freeFrames + framesOut s.out = (initial totalFrames ranges).alloc.freeFrames ∧
      (NoFreeBuddies frameLevel maxOrder (freeBlocks (initial totalFrames ranges).alloc) →
        NoFreeBuddies frameLevel maxOrder L) := by
  induction hs with
  | start h =>
    subst h
    obtain ⟨L, hinv⟩ := inv_initial hok
    refine ⟨L, hinv, rfl, ?_⟩
    rw [hinv.represents.freeBlocks_eq]
    exact id
  | next _ _ hstep ih =>
    obtain ⟨L, hinv, hframes, hbud⟩ := ih
    obtain ⟨L', hp⟩ := hinv.step hstep
    exact ⟨L', hp.inv, hp.frames.trans hframes, fun hn => hp.buddies (hbud hn)⟩

/-- **The buddy allocator's invariant over every run**: consistent lists, a constant number of
frames, and full coalescing if the ranges left no two free buddies. -/
theorem buddy_invariant {totalFrames : Nat} {ranges : List (Nat × Nat)}
    (hok : RangesOk totalFrames ranges) {s : State}
    (hs : Reach step (fun s => s = initial totalFrames ranges) s) :
    Consistent s ∧
    s.alloc.freeFrames + framesOut s.out = (initial totalFrames ranges).alloc.freeFrames ∧
    (NoFreeBuddies frameLevel maxOrder (freeBlocks (initial totalFrames ranges).alloc) →
      NoFreeBuddies frameLevel maxOrder (freeBlocks s.alloc)) := by
  obtain ⟨L, hinv, hframes, hbud⟩ := reach_inv hok hs
  refine ⟨hinv.consistent, hframes, ?_⟩
  rw [hinv.represents.freeBlocks_eq]
  exact hbud

/-- Two frames at 16 KiB, one allocated: the run's state is consistent, with one frame of two. -/
theorem buddy_invariant_two_frames :
    ∃ s, run step (initial 3 [(16384, 49152)]) [.alloc 0] = some s ∧ s.out = [(16384, 0)] ∧
      Consistent s ∧ s.alloc.freeFrames + framesOut s.out = 2 := by
  have hok : RangesOk 3 [(16384, 49152)] := by
    refine ⟨by decide, ?_, ?_, ?_, List.pairwise_singleton _ _⟩ <;> decide
  refine ⟨_, rfl, by decide, ?_⟩
  have h := buddy_invariant hok (.next (a := .alloc 0) (.start rfl) trivial rfl)
  exact ⟨h.1, h.2.1.trans (by decide)⟩

end SlateOS.Mm.Frame.Invariant
