/-
# SlateOS.Mm.Frame.Tokens -- references to allocated blocks, as tokens

Whoever may hand a block on or free it holds a `Token` for it: the caller of an allocation, each
mapping that shares a frame, a slot of a per-CPU cache or of the zero pool. A `sole` token is the
only reference to its frames. `Ledger` ties the tokens to the allocator: every token's block lies
outside the free space, a referenced frame's counter is the number of tokens for it, and the usable
frames are the free ones and the referenced ones.

Each allocator call is one lemma here: allocation adds a token, freeing one succeeds and removes it,
`ref_inc` adds a token beside another.
-/
import SlateOS.Mm.Frame.Operations

namespace SlateOS.Mm.Frame.Tokens

open Foundation.IntrusiveList Foundation.MachineInt Foundation.Dyadic Foundation.BuddySpace Kernel
open Mm.Frame.Buddy Mm.Frame.Lists Mm.Frame.Operations

/-! ## Tokens -/

/-- One reference to the block of this order at `addr`. -/
structure Token where
  addr : Nat
  order : Nat
  sole : Bool
  deriving DecidableEq

/-- The block has frame number `i`. -/
def Token.covers (t : Token) (i : Nat) : Bool :=
  decide (Within (frameLevel + t.order) t.addr (i * frameSize))

/-- The number of references to frame number `i`. -/
def refs (T : List Token) (i : Nat) : Nat := T.countP fun t => t.covers i

/-- **The ledger invariant.** -/
structure Ledger (usable : Nat → Prop) (a : BuddyAllocator) (L : Nat → List Nat)
    (T : List Token) : Prop where
  represents : Represents a L
  fits : ∀ t ∈ T, FreeFits a L t.addr t.order ∧ t.addr ≠ 0
  count : ∀ i, 0 < refs T i → a.refcount i = refs T i
  sole : ∀ t ∈ T, t.sole = true → ∀ i, t.covers i = true → refs T i = 1
  large : ∀ t ∈ T, 0 < t.order → t.sole = true
  usable : ∀ i, usable i ↔ Cover frameLevel L (i * frameSize) ∨ 0 < refs T i

variable {usable : Nat → Prop} {a a' : BuddyAllocator} {L L' : Nat → List Nat}
  {T T' : List Token} {t u : Token} {x o i : Nat}

@[simp] theorem refs_nil : refs [] i = 0 := rfl

theorem refs_cons : refs (t :: T) i = refs T i + if t.covers i then 1 else 0 :=
  List.countP_cons

theorem refs_cons_of_covers (h : t.covers i = true) : refs (t :: T) i = refs T i + 1 := by
  rw [refs_cons, if_pos h]

theorem refs_cons_of_not_covers (h : t.covers i = false) : refs (t :: T) i = refs T i := by
  rw [refs_cons, h]
  rfl

theorem refs_perm (h : T.Perm T') : refs T i = refs T' i := h.countP_eq _

@[simp] theorem refs_append : refs (T ++ T') i = refs T i + refs T' i := List.countP_append

theorem refs_pos_of_mem (ht : t ∈ T) (hc : t.covers i = true) : 0 < refs T i :=
  List.countP_pos_iff.mpr ⟨t, ht, hc⟩

theorem covers_iff : t.covers i = true ↔
    Within (frameLevel + t.order) t.addr (i * frameSize) := decide_eq_true_iff

/-- A block contains an address exactly when it contains the start of its frame. -/
theorem within_iff_frame {f : Nat} (hx : frameSize ∣ x) :
    Within (frameLevel + o) x f ↔ Within (frameLevel + o) x (frameIndex f * frameSize) := by
  rw [within_frame_iff hx]
  have hp : 2 ^ (frameLevel + o) = 2 ^ o * frameSize := by
    rw [Nat.pow_add, ← frameSize_eq, Nat.mul_comm]
  have hle : frameIndex x ≤ frameIndex f ↔ x ≤ f := by
    rw [frameIndex, frameIndex, Nat.le_div_iff_mul_le frameSize_pos, Nat.div_mul_cancel hx]
  have hlt : frameIndex f < frameIndex x + 2 ^ o ↔ f < x + 2 ^ o * frameSize := by
    have hxe : (frameIndex x + 2 ^ o) * frameSize = x + 2 ^ o * frameSize := by
      rw [Nat.add_mul, frameIndex_mul hx]
    rw [← hxe]
    exact Nat.div_lt_iff_lt_mul frameSize_pos
  rw [hle, hlt, Within, hp]

theorem covers_of_within {f : Nat} (hx : frameSize ∣ t.addr)
    (h : Within (frameLevel + t.order) t.addr f) : t.covers (frameIndex f) = true :=
  covers_iff.mpr ((within_iff_frame hx).mp h)

/-! ## Reading the ledger -/

theorem Ledger.hand (h : Ledger usable a L T) (ht : t ∈ T) : Hand a L t.addr t.order :=
  ⟨h.represents, (h.fits t ht).1, (h.fits t ht).2⟩

theorem Ledger.covers_base (h : Ledger usable a L T) (ht : t ∈ T) :
    t.covers (frameIndex t.addr) = true :=
  covers_of_within (h.hand ht).dvd (within_base _ _)

/-- A referenced frame is not free. -/
theorem Ledger.not_cover (h : Ledger usable a L T) (hi : 0 < refs T i) :
    ¬ Cover frameLevel L (i * frameSize) := by
  obtain ⟨t, ht, hc⟩ := List.countP_pos_iff.mp hi
  exact (h.fits t ht).1.fresh _ (covers_iff.mp hc)

/-- A free frame is not referenced. -/
theorem Ledger.refs_eq_zero (h : Ledger usable a L T)
    (hi : Cover frameLevel L (i * frameSize)) : refs T i = 0 := by
  by_contra hne
  exact h.not_cover (Nat.pos_of_ne_zero hne) hi

/-- The order-0 block of a token is one frame. -/
theorem Ledger.covers_small (h : Ledger usable a L T) (ht : t ∈ T) (ho : t.order = 0)
    (hc : t.covers i = true) : i = frameIndex t.addr := by
  have hw := (within_frame_iff (h.hand ht).dvd i).mp (covers_iff.mp hc)
  rw [ho] at hw
  omega

/-! ## Moving tokens -/

/-- The ledger does not depend on the order of the tokens. -/
theorem Ledger.perm (h : Ledger usable a L T) (hp : T.Perm T') : Ledger usable a L T' where
  represents := h.represents
  fits t ht := h.fits t (hp.mem_iff.mpr ht)
  count i hi := by
    rw [← refs_perm hp] at hi ⊢
    exact h.count i hi
  sole t ht hs i hc := by
    rw [← refs_perm hp]
    exact h.sole t (hp.mem_iff.mpr ht) hs i hc
  large t ht := h.large t (hp.mem_iff.mpr ht)
  usable i := by
    rw [← refs_perm hp]
    exact h.usable i

/-- A token for one frame need not be known to be the only one. -/
theorem Ledger.relax (h : Ledger usable a L (⟨x, 0, true⟩ :: T)) :
    Ledger usable a L (⟨x, 0, false⟩ :: T) where
  represents := h.represents
  fits u hu := by
    rcases List.mem_cons.mp hu with rfl | hu
    · exact h.fits ⟨x, 0, true⟩ List.mem_cons_self
    · exact h.fits u (List.mem_cons_of_mem _ hu)
  count := h.count
  sole u hu hs := by
    rcases List.mem_cons.mp hu with rfl | hu
    · cases hs
    · exact h.sole u (List.mem_cons_of_mem _ hu) hs
  large u hu ho := by
    rcases List.mem_cons.mp hu with rfl | hu
    · cases ho
    · exact h.large u (List.mem_cons_of_mem _ hu) ho
  usable := h.usable

/-- A token whose frame's counter is at most one is the only one. -/
theorem Ledger.claim (h : Ledger usable a L (⟨x, 0, false⟩ :: T))
    (hrc : a.refcount (frameIndex x) ≤ 1) : Ledger usable a L (⟨x, 0, true⟩ :: T) where
  represents := h.represents
  fits u hu := by
    rcases List.mem_cons.mp hu with rfl | hu
    · exact h.fits ⟨x, 0, false⟩ List.mem_cons_self
    · exact h.fits u (List.mem_cons_of_mem _ hu)
  count := h.count
  sole u hu hs i hc := by
    rcases List.mem_cons.mp hu with rfl | hu
    · have hpos := refs_pos_of_mem (List.mem_cons_self (l := T)) hc
      obtain rfl : i = frameIndex x := h.covers_small List.mem_cons_self rfl hc
      have hcount := h.count _ hpos
      change refs (⟨x, 0, false⟩ :: T) (frameIndex x) = 1
      change 0 < refs (⟨x, 0, false⟩ :: T) (frameIndex x) at hpos
      omega
    · exact h.sole u (List.mem_cons_of_mem _ hu) hs i hc
  large u hu ho := by
    rcases List.mem_cons.mp hu with rfl | hu
    · rfl
    · exact h.large u (List.mem_cons_of_mem _ hu) ho
  usable := h.usable

/-! ## The allocator's calls -/

/-- **Allocation** adds the only token for its block. -/
theorem Ledger.take (h : Ledger usable a L T) (ht : Takes a L x o a' L') {b : Bool}
    (hb : 0 < o → b = true) : Ledger usable a' L' (⟨x, o, b⟩ :: T) := by
  have hmem : (⟨x, o, b⟩ : Token) ∈ (⟨x, o, b⟩ : Token) :: T := List.mem_cons_self
  -- the frames of the block were free, so no token was for them
  have hnew : ∀ i, (⟨x, o, b⟩ : Token).covers i = true → refs T i = 0 := fun i hc =>
    h.refs_eq_zero ((ht.cover _).mpr (Or.inr (covers_iff.mp hc)))
  refine ⟨ht.hand.represents, fun u hu => ?_, fun i hi => ?_, fun u hu hs i hc => ?_,
    fun u hu ho => ?_, fun i => ?_⟩
  · rcases List.mem_cons.mp hu with rfl | hu
    · exact ⟨ht.hand.fits, ht.hand.ne_zero⟩
    · obtain ⟨hfit, hne⟩ := h.fits u hu
      refine ⟨⟨hfit.order_le, hfit.aligned, ?_, fun f hf hc =>
        hfit.fresh f hf ((ht.cover f).mpr (Or.inl hc))⟩, hne⟩
      rw [ht.totalFrames]
      exact hfit.bounded
  · rw [ht.refcount]
    by_cases hc : (⟨x, o, b⟩ : Token).covers i = true
    · rw [if_pos (covers_iff.mp hc), refs_cons_of_covers hc, hnew i hc]
    · have hc' := Bool.eq_false_iff.mpr hc
      rw [if_neg (fun hw => hc (covers_iff.mpr hw)), refs_cons_of_not_covers hc']
      rw [refs_cons_of_not_covers hc'] at hi
      exact h.count i hi
  · rcases List.mem_cons.mp hu with rfl | hu
    · rw [refs_cons_of_covers hc, hnew i hc]
    · have hpos := refs_pos_of_mem hu hc
      have hnc : (⟨x, o, b⟩ : Token).covers i = false := by
        refine Bool.eq_false_iff.mpr fun hx => ?_
        have := hnew i hx
        omega
      rw [refs_cons_of_not_covers hnc]
      exact h.sole u hu hs i hc
  · rcases List.mem_cons.mp hu with rfl | hu
    · exact hb ho
    · exact h.large u hu ho
  · rw [h.usable, ht.cover]
    by_cases hc : (⟨x, o, b⟩ : Token).covers i = true
    · rw [refs_cons_of_covers hc]
      have hw := covers_iff.mp hc
      simp only [hw, or_true, true_or, true_iff]
      omega
    · have hw : ¬ Within (frameLevel + o) x (i * frameSize) := fun hw => hc (covers_iff.mpr hw)
      rw [refs_cons_of_not_covers (Bool.eq_false_iff.mpr hc)]
      simp only [hw, or_false]

/-- Allocation gives out free frames only. -/
theorem Ledger.take_refs (ht : Takes a L x o a' L') {b : Bool}
    (hi : ¬ Cover frameLevel L (i * frameSize)) : refs (⟨x, o, b⟩ :: T) i = refs T i := by
  refine refs_cons_of_not_covers (Bool.eq_false_iff.mpr fun hc => hi ?_)
  exact (ht.cover _).mpr (Or.inr (covers_iff.mp hc))

/-- Freeing the only token of a block lists the block again. -/
theorem Ledger.give (h : Ledger usable a L (t :: T))
    (hone : ∀ i, t.covers i = true → refs (t :: T) i = 1)
    (hr : Returns a L t.addr t.order a' L') : Ledger usable a' L' T := by
  have hzero : ∀ i, t.covers i = true → refs T i = 0 := by
    intro i hc
    have h1 := hone i hc
    rw [refs_cons_of_covers hc] at h1
    omega
  have hrest : ∀ i, 0 < refs T i → t.covers i = false := by
    intro i hi
    refine Bool.eq_false_iff.mpr fun hc => ?_
    have := hzero i hc
    omega
  refine ⟨hr.represents, fun u hu => ?_, fun i hi => ?_, fun u hu hs i hc => ?_,
    fun u hu => h.large u (List.mem_cons_of_mem _ hu), fun i => ?_⟩
  · have hmem : u ∈ t :: T := List.mem_cons_of_mem _ hu
    obtain ⟨hfit, hne⟩ := h.fits u hmem
    refine ⟨⟨hfit.order_le, hfit.aligned, ?_, fun f hf hc => ?_⟩, hne⟩
    · rw [hr.totalFrames]
      exact hfit.bounded
    · rcases (hr.cover f).mp hc with hc | hw
      · exact hfit.fresh f hf hc
      · -- an address in both blocks would be in a frame with two references
        have h1 := covers_of_within (h.hand List.mem_cons_self).dvd hw
        have h2 := refs_pos_of_mem hu (covers_of_within (h.hand hmem).dvd hf)
        rw [hzero _ h1] at h2
        exact absurd h2 (lt_irrefl 0)
  · have hnc := hrest i hi
    have hw : ¬ Within (frameLevel + t.order) t.addr (i * frameSize) :=
      fun hw => by simp [covers_iff.mpr hw] at hnc
    rw [hr.refcount, if_neg hw]
    have hc := h.count i
    rw [refs_cons_of_not_covers hnc] at hc
    exact hc hi
  · have hnc := hrest i (refs_pos_of_mem hu hc)
    have h1 := h.sole u (List.mem_cons_of_mem _ hu) hs i hc
    rw [refs_cons_of_not_covers hnc] at h1
    exact h1
  · rw [h.usable, hr.cover]
    by_cases hc : t.covers i = true
    · rw [refs_cons_of_covers hc]
      have hw := covers_iff.mp hc
      simp only [hw, or_true, true_or, iff_true]
      omega
    · have hw : ¬ Within (frameLevel + t.order) t.addr (i * frameSize) :=
        fun hw => hc (covers_iff.mpr hw)
      rw [refs_cons_of_not_covers (Bool.eq_false_iff.mpr hc)]
      simp only [hw, or_false]

/-- **Freeing** a token succeeds and removes it, whether or not others share its frame. -/
theorem Ledger.free (h : Ledger usable a L (t :: T)) :
    ∃ a' L', a.freeInner t.addr t.order = .ok a' ∧ Ledger usable a' L' T := by
  have hmem : t ∈ t :: T := List.mem_cons_self
  have hand := h.hand hmem
  have hbase := h.covers_base hmem
  have hcount := h.count _ (refs_pos_of_mem hmem hbase)
  by_cases hrc : a.refcount (frameIndex t.addr) ≤ 1
  · obtain ⟨a', L', heq, hr⟩ := freeInner_last hand hrc
    refine ⟨a', L', heq, h.give (fun i hc => ?_) hr⟩
    by_cases ho : t.order = 0
    · obtain rfl := h.covers_small hmem ho hc
      have := refs_pos_of_mem hmem hbase
      omega
    · exact h.sole t hmem (h.large t hmem (Nat.pos_of_ne_zero ho)) i hc
  · -- shared: a block of one frame, whose counter goes down with its tokens
    have hns : ¬ t.sole = true := fun hs => by
      have := h.sole t hmem hs _ hbase
      omega
    have ho : t.order = 0 := by
      by_contra hne
      exact hns (h.large t hmem (Nat.pos_of_ne_zero hne))
    refine ⟨_, L, freeInner_shared hand (by omega), ?_⟩
    refine ⟨h.represents.counts _ _, fun u hu => h.fits u (List.mem_cons_of_mem _ hu),
      fun i hi => ?_, fun u hu hs i hc => ?_, fun u hu => h.large u (List.mem_cons_of_mem _ hu),
      fun i => ?_⟩
    · dsimp only
      rw [hand.updateRefcounts]
      by_cases hc : t.covers i = true
      · have hci := h.count i (refs_pos_of_mem hmem hc)
        rw [refs_cons_of_covers hc] at hci
        rw [if_pos (covers_iff.mp hc), hci, Nat.add_sub_cancel]
      · have hci := h.count i
        rw [refs_cons_of_not_covers (Bool.eq_false_iff.mpr hc)] at hci
        rw [if_neg (fun hw => hc (covers_iff.mpr hw)), hci hi]
    · have h1 := h.sole u (List.mem_cons_of_mem _ hu) hs i hc
      have hpos := refs_pos_of_mem hu hc
      rw [refs_cons] at h1
      omega
    · rw [h.usable]
      by_cases hc : t.covers i = true
      · obtain rfl := h.covers_small hmem ho hc
        rw [refs_cons_of_covers hc] at hcount ⊢
        have hpos : 0 < refs T (frameIndex t.addr) := by omega
        simp [hpos]
      · rw [refs_cons_of_not_covers (Bool.eq_false_iff.mpr hc)]

/-- **`ref_inc`** beside an order-0 token that is not marked as the only one succeeds below the
counter's maximum and adds a token. -/
theorem Ledger.inc (h : Ledger usable a L (⟨x, 0, false⟩ :: T))
    (hmax : a.refcount (frameIndex x) < maxVal 16) :
    ∃ a', a.refInc x = .ok a' ∧ Ledger usable a' L (⟨x, 0, false⟩ :: ⟨x, 0, false⟩ :: T) := by
  have hmem : (⟨x, 0, false⟩ : Token) ∈ (⟨x, 0, false⟩ : Token) :: T := List.mem_cons_self
  have hand := h.hand hmem
  have hbase := h.covers_base hmem
  have hpos := refs_pos_of_mem hmem hbase
  have hcount := h.count _ hpos
  have hidx : ¬ frameIndex x ≥ a.totalFrames := by
    have hle := hand.index_add_le
    have := Nat.two_pow_pos 0
    simp only at hle
    omega
  have hsat : saturatingAdd 16 (a.refcount (frameIndex x)) 1 = a.refcount (frameIndex x) + 1 := by
    have : maxVal 16 < 2 ^ 16 := by decide
    exact saturatingAdd_of_lt (by omega)
  simp only at hbase hcount hpos
  refine ⟨{ a with
    refcount := Function.update a.refcount (frameIndex x) (a.refcount (frameIndex x) + 1) }, ?_, ?_⟩
  · unfold BuddyAllocator.refInc
    simp only [if_neg hidx, hsat]
    rw [if_neg (by omega)]
  refine ⟨h.represents.counts _ _, fun u hu => h.fits u (List.mem_of_mem_cons_of_mem hu
    hmem), fun i hi => ?_, fun u hu hs i hc => ?_, fun u hu ho => ?_, fun i => ?_⟩
  · dsimp only
    by_cases hc : (⟨x, 0, false⟩ : Token).covers i = true
    · obtain rfl := h.covers_small hmem rfl hc
      rw [Function.update_self, refs_cons_of_covers hc, hcount]
    · have hne : i ≠ frameIndex x := by
        rintro rfl
        exact hc hbase
      have hc' := Bool.eq_false_iff.mpr hc
      rw [refs_cons_of_not_covers hc'] at hi ⊢
      rw [Function.update_of_ne hne]
      exact h.count i hi
  · have hu' : u ∈ (⟨x, 0, false⟩ : Token) :: T := List.mem_of_mem_cons_of_mem hu hmem
    have h1 := h.sole u hu' hs i hc
    have hut : u ∈ T := by
      rcases List.mem_cons.mp hu' with rfl | hut
      · cases hs
      · exact hut
    -- a token marked as the only one is for another frame
    by_cases hcx : (⟨x, 0, false⟩ : Token).covers i = true
    · have := refs_pos_of_mem hut hc
      rw [refs_cons_of_covers hcx] at h1
      omega
    · rw [refs_cons_of_not_covers (Bool.eq_false_iff.mpr hcx)]
      exact h1
  · exact h.large u (List.mem_of_mem_cons_of_mem hu hmem) ho
  · rw [h.usable]
    by_cases hc : (⟨x, 0, false⟩ : Token).covers i = true
    · exact iff_of_true (Or.inr (refs_pos_of_mem hmem hc))
        (Or.inr (refs_pos_of_mem List.mem_cons_self hc))
    · rw [refs_cons_of_not_covers (t := ⟨x, 0, false⟩) (T := ⟨x, 0, false⟩ :: T)
        (Bool.eq_false_iff.mpr hc)]

/-- A holder may write into its block. -/
theorem Ledger.write (h : Ledger usable a L T) (ht : t ∈ T) {y : Nat}
    (hy : Within (frameLevel + t.order) t.addr y) (n : Node Nat) :
    Ledger usable { a with mem := write a.mem y n } L T :=
  ⟨h.represents.write_outside n ((h.fits t ht).1.fresh y hy), h.fits, h.count, h.sole, h.large,
    h.usable⟩

end SlateOS.Mm.Frame.Tokens
