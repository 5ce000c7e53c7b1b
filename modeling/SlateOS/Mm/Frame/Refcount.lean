/-
# SlateOS.Mm.Frame.Refcount -- the references of one allocated frame

`ref_inc`, `ref_dec` and `free_inner` at order 0 on one frame, from its allocation until it is on
the free lists again. `refs` counts what the callers hold: one reference from the allocation, one
more for each successful `ref_inc`, one less for each successful drop. The counter is a `u16`; as
long as it is not at its largest value when `ref_inc` is called, it is `refs`, and the frame returns
to the free lists exactly at a `free_inner` made when at most one reference is left.
-/
import SlateOS.Mm.Frame.Invariant

namespace SlateOS.Mm.Frame.Refcount

open Foundation.Runs Foundation.MachineInt Foundation.Dyadic Foundation.BuddySpace Kernel Mm.Frame.Buddy
open Mm.Frame.Lists Mm.Frame.Operations

/-! ## The system -/

/-- The address lies in a block read off the free lists. -/
def isFree (a : BuddyAllocator) (x : Nat) : Bool :=
  (List.range (maxOrder + 1)).any fun o =>
    (freeBlocks a o).any fun y => decide (Within (frameLevel + o) y x)

/-- The allocator and the number of references held to the frame. -/
structure RefState where
  alloc : BuddyAllocator
  refs : Nat

/-- The calls on the frame. -/
inductive RefCall
  | inc
  | dec
  | free
  deriving DecidableEq

/-- One call on the frame `x` while it is allocated; a refused call changes nothing. -/
def refStep (x : Nat) (t : RefState) (c : RefCall) : Option RefState :=
  if isFree t.alloc x then none
  else
    match c with
    | .inc =>
      match t.alloc.refInc x with
      | .ok a => some ⟨a, t.refs + 1⟩
      | .error _ => some t
    | .dec =>
      match t.alloc.refDec x with
      | .ok (_, a) => some ⟨a, t.refs - 1⟩
      | .error _ => some t
    | .free =>
      match t.alloc.freeInner x 0 with
      | .ok a => some ⟨a, t.refs - 1⟩
      | .error _ => some t

/-- `ref_inc` is not called with the counter at its largest value. -/
def BelowLimit (t : RefState) (c : RefCall) : Prop := c = .inc → t.refs < maxVal 16

/-! ## The invariant -/

variable {x : Nat} {t t' : RefState} {c : RefCall} {a : BuddyAllocator} {L : Nat → List Nat}

theorem isFree_iff (h : Represents a L) : isFree a x = true ↔ Cover frameLevel L x := by
  simp only [isFree, h.freeBlocks_eq, List.any_eq_true, List.mem_range, decide_eq_true_eq, Cover]
  constructor
  · rintro ⟨o, _, y, hy, hw⟩
    exact ⟨o, y, hy, hw⟩
  · rintro ⟨o, y, hy, hw⟩
    exact ⟨o, Nat.lt_succ_of_le (h.order_le hy), y, hy, hw⟩

/-- While the frame is allocated its counter is the number of references. -/
structure Held (x : Nat) (t : RefState) : Prop where
  hand : ∃ L, Hand t.alloc L x 0
  count : t.alloc.refcount (frameIndex x) = t.refs

theorem Held.not_free (h : Held x t) : isFree t.alloc x = false := by
  obtain ⟨L, hand⟩ := h.hand
  refine Bool.eq_false_iff.mpr fun hf => ?_
  exact hand.fits.fresh x (within_base _ _) ((isFree_iff hand.represents).mp hf)

theorem Held.index_lt (h : Held x t) : frameIndex x < t.alloc.totalFrames := by
  obtain ⟨L, hand⟩ := h.hand
  have := hand.index_add_le
  have := Nat.two_pow_pos 0
  omega

/-- **One call** either keeps the frame allocated with its references counted, or is a `free_inner`
made when at most one was left, and lists the frame. -/
theorem Held.step (h : Held x t) (hlim : BelowLimit t c) (hs : refStep x t c = some t') :
    (isFree t'.alloc x = true ∧ c = .free ∧ t.refs ≤ 1) ∨
      (Held x t' ∧ ¬ (c = .free ∧ t.refs ≤ 1)) := by
  obtain ⟨L, hand⟩ := h.hand
  have hidx : ¬ frameIndex x ≥ t.alloc.totalFrames := by
    have := h.index_lt
    omega
  unfold refStep at hs
  simp only [h.not_free, Bool.false_eq_true, if_false] at hs
  cases c with
  | inc =>
    right
    refine ⟨?_, by simp⟩
    by_cases hrc : t.refs = 0
    · simp only [BuddyAllocator.refInc, if_neg hidx, h.count, if_pos hrc] at hs
      cases hs
      exact h
    · simp only [BuddyAllocator.refInc, if_neg hidx, h.count, if_neg hrc] at hs
      cases hs
      have hlt := hlim rfl
      have hmax : maxVal 16 < 2 ^ 16 := by decide
      refine ⟨⟨L, hand.counts _ _⟩, ?_⟩
      dsimp only
      rw [Function.update_self, saturatingAdd_of_lt (by omega)]
  | dec =>
    right
    refine ⟨?_, by simp⟩
    by_cases hrc : t.refs = 0
    · simp only [BuddyAllocator.refDec, if_neg hidx, h.count, if_pos hrc] at hs
      cases hs
      exact h
    · simp only [BuddyAllocator.refDec, if_neg hidx, h.count, if_neg hrc] at hs
      cases hs
      exact ⟨⟨L, hand.counts _ _⟩, Function.update_self ..⟩
  | free =>
    by_cases hrc : t.refs ≤ 1
    · left
      obtain ⟨a', L', heq, hr⟩ := freeInner_last hand (by rw [h.count]; exact hrc)
      rw [heq] at hs
      cases hs
      exact ⟨(isFree_iff hr.represents).mpr ((hr.cover x).mpr (Or.inr (within_base _ _))), rfl, hrc⟩
    · right
      rw [freeInner_shared hand (by rw [h.count]; omega)] at hs
      cases hs
      refine ⟨⟨⟨L, hand.counts _ _⟩, ?_⟩, fun hc => hrc hc.2⟩
      dsimp only
      rw [hand.updateRefcounts, if_pos, h.count]
      rw [frameIndex_mul hand.dvd]
      exact within_base _ _

/-- Along a run on an allocated frame, either its references are counted or it has been listed. -/
theorem held_or_free {s : BuddyAllocator} (h : Held x ⟨s, 1⟩)
    (ht : ReachBy (refStep x) BelowLimit (fun t => t = ⟨s, 1⟩) t) :
    Held x t ∨ isFree t.alloc x = true := by
  refine ht.invariant (I := fun t => Held x t ∨ isFree t.alloc x = true) ?_ ?_
  · rintro _ rfl
    exact Or.inl h
  · rintro t c t' (hheld | hfree) hlim hstep
    · rcases hheld.step hlim hstep with ⟨hf, _⟩ | ⟨hh, _⟩
      · exact Or.inr hf
      · exact Or.inl hh
    · simp [refStep, hfree] at hstep

/-- An order-0 block handed out in a run of the allocator is held with one reference. -/
theorem held_of_out {s : Invariant.State} (hinv : Invariant.Inv s L) (hx : (x, 0) ∈ s.out) :
    Held x ⟨s.alloc, 1⟩ :=
  ⟨⟨L, hinv.hand hx⟩, (hinv.out _ hx).2.2⟩

/-! ## The law -/

/-- **The reference-count law.** From its allocation on, over any sequence of `ref_inc`, `ref_dec`
and `free_inner` that never increments a full counter, the frame is listed by a call exactly when
the call is a `free_inner` and at most one reference was left. -/
theorem listed_exactly_at_last_free {totalFrames : Nat} {ranges : List (Nat × Nat)}
    (hok : Invariant.RangesOk totalFrames ranges) {s : Invariant.State}
    (hs : Reach Invariant.step (fun s => s = Invariant.initial totalFrames ranges) s)
    (hx : (x, 0) ∈ s.out)
    (ht : ReachBy (refStep x) BelowLimit (fun t => t = ⟨s.alloc, 1⟩) t)
    (hlim : BelowLimit t c) (hstep : refStep x t c = some t') :
    isFree t'.alloc x = true ↔ c = .free ∧ t.refs ≤ 1 := by
  obtain ⟨L, hinv, _⟩ := Invariant.reach_inv hok hs
  rcases held_or_free (held_of_out hinv hx) ht with hheld | hfree
  · rcases hheld.step hlim hstep with ⟨hf, hc⟩ | ⟨hh, hc⟩
    · exact ⟨fun _ => hc, fun _ => hf⟩
    · exact ⟨fun hf => absurd hf (by simp [hh.not_free]), fun h => absurd h hc⟩
  · simp [refStep, hfree] at hstep

/-- The law at a frame shared once: the first free keeps it, the second lists it. -/
theorem listed_exactly_at_last_free_shared :
    ∃ s t t', run Invariant.step (Invariant.initial 3 [(16384, 49152)]) [.alloc 0] = some s ∧
      run (refStep 16384) ⟨s.alloc, 1⟩ [.inc, .free] = some t ∧ t.refs = 1 ∧
      refStep 16384 t .free = some t' ∧ isFree t.alloc 16384 = false ∧
      (isFree t'.alloc 16384 = true ↔ RefCall.free = .free ∧ t.refs ≤ 1) := by
  have hok : Invariant.RangesOk 3 [(16384, 49152)] := by
    refine ⟨by decide, ?_, ?_, ?_, List.pairwise_singleton _ _⟩ <;> decide
  refine ⟨_, _, _, rfl, rfl, by decide, rfl, by decide, ?_⟩
  exact listed_exactly_at_last_free hok (.next (a := .alloc 0) (.start rfl) trivial rfl) (by decide)
    (.next (a := .free) (.next (a := .inc) (.start rfl) (by simp [BelowLimit, maxVal]) rfl)
      (by simp [BelowLimit]) rfl) (by simp [BelowLimit]) rfl

/-- Dropping the only reference with `ref_dec` leaves the frame off the free lists. -/
theorem refDec_last_not_listed :
    ∃ s t, run Invariant.step (Invariant.initial 3 [(16384, 49152)]) [.alloc 0] = some s ∧
      (16384, 0) ∈ s.out ∧ run (refStep 16384) ⟨s.alloc, 1⟩ [.dec] = some t ∧ t.refs = 0 ∧
      isFree t.alloc 16384 = false :=
  ⟨_, _, rfl, by decide, rfl, by decide, by decide⟩

end SlateOS.Mm.Frame.Refcount
