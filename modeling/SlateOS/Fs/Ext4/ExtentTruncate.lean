/-
# SlateOS.Fs.Ext4.ExtentTruncate -- what cutting a map frees

Cutting a valid map at a block keeps what it says below the block, and frees the physical blocks of the
rest. `validate` looks at logical ranges alone: only where the extents' physical ranges are apart, and
end inside `u64`, is what is freed mapped no more.
-/
import SlateOS.Fs.Ext4.ExtentSet

namespace SlateOS.Fs.Ext4

open Foundation.MachineInt Kernel

namespace Extent

/-- The physical range ends inside `u64`. -/
def Fits (e : Extent) : Prop := e.phys + e.len ≤ 2 ^ 64

/-- The physical ranges have no block in common. -/
def PhysApart (a b : Extent) : Prop := a.phys + a.len ≤ b.phys ∨ b.phys + b.len ≤ a.phys

instance (e : Extent) : Decidable e.Fits := inferInstanceAs (Decidable (e.phys + e.len ≤ 2 ^ 64))

instance (a b : Extent) : Decidable (a.PhysApart b) :=
  inferInstanceAs (Decidable (a.phys + a.len ≤ b.phys ∨ b.phys + b.len ≤ a.phys))

/-- The physical block of a block that the extent covers. -/
theorem value_of_fits {e : Extent} (h : e.Fits) {b : Nat} (hb : e.Covers b) :
    e.value b = (e.phys + (b - e.logical), e.unwritten) := by
  unfold Fits at h
  unfold Covers at hb
  rw [value, satAdd, saturatingAdd_of_lt (by omega)]

end Extent

namespace ExtentMap

open Extent

/-- A physical range holds a block. -/
def InRange (r : Nat × Nat) (p : Nat) : Prop := r.1 ≤ p ∧ p < r.1 + r.2

/-- Two physical ranges have no block in common. -/
def RangesApart (r s : Nat × Nat) : Prop := ∀ p, ¬ (InRange r p ∧ InRange s p)

variable {map : ExtentMap} {e : Extent} {n : Nat}

/-! ## One extent -/

/-- The three ways an extent lies to the new end. -/
theorem truncateExtent_eq (h : e.Sound) (n : Nat) :
    truncateExtent n e =
      if n ≤ e.logical then (none, [(e.phys, e.len)])
      else if n < e.logical + e.len then
        (some (below e n), [(satAdd e.phys (n - e.logical), e.logical + e.len - n)])
      else (some e, []) := by
  have hlen : e.len - (n - e.logical) = e.logical + e.len - n ∨ n ≤ e.logical := by omega
  unfold truncateExtent
  rw [theEnd_eq h.range]
  by_cases hn : n ≤ e.logical
  · rw [if_pos hn, if_pos hn]
  · rw [if_neg hn, if_neg hn]
    rw [← hlen.resolve_right hn]
    rfl

/-- What is kept of an extent: a sound part of it, with its blocks below the new end. -/
theorem truncateExtent_kept (h : e.Sound) {k : Extent} (hk : (truncateExtent n e).1 = some k) :
    k.Sound ∧ k.logical = e.logical ∧ k.logical + k.len ≤ e.logical + e.len ∧
      ∀ b v, (k.Covers b ∧ v = k.value b) ↔ b < n ∧ e.Covers b ∧ v = e.value b := by
  rw [truncateExtent_eq h] at hk
  split at hk
  · cases hk
  · next hstart =>
    split at hk
    · next hend =>
      cases hk
      refine ⟨below_sound h (by omega) (by omega), rfl, ?_, fun b v => ?_⟩
      · show e.logical + (n - e.logical) ≤ _
        omega
      · rw [← maps_singleton, maps_below e n b v (by omega)]
        unfold Covers
        constructor
        · rintro ⟨hlo, hhi, hv⟩
          exact ⟨hhi, ⟨hlo, by omega⟩, hv⟩
        · rintro ⟨hhi, ⟨hlo, -⟩, hv⟩
          exact ⟨hlo, hhi, hv⟩
    · next hend =>
      cases hk
      refine ⟨h, rfl, Nat.le_refl _, fun b v => ?_⟩
      unfold Covers
      constructor
      · rintro ⟨⟨hlo, hhi⟩, hv⟩
        exact ⟨by omega, ⟨hlo, hhi⟩, hv⟩
      · rintro ⟨-, hin, hv⟩
        exact ⟨hin, hv⟩

/-- An extent that is not kept lies at or after the new end. -/
theorem truncateExtent_dropped (h : e.Sound) (hk : (truncateExtent n e).1 = none) : n ≤ e.logical := by
  rw [truncateExtent_eq h] at hk
  split at hk
  · assumption
  · split at hk <;> cases hk

/-- What is freed of an extent: the physical blocks of its blocks at or after the new end, as one
range. -/
theorem truncateExtent_freed (h : e.Sound) (hfits : e.Fits) :
    (truncateExtent n e).2.Pairwise RangesApart ∧
      ∀ p, (∃ r ∈ (truncateExtent n e).2, InRange r p) ↔
        ∃ b, n ≤ b ∧ e.Covers b ∧ p = e.phys + (b - e.logical) := by
  unfold Fits at hfits
  rw [truncateExtent_eq h]
  split
  · next hstart =>
    -- all of the extent goes
    refine ⟨List.pairwise_singleton _ _, fun p => ?_⟩
    simp only [List.mem_singleton, exists_eq_left]
    unfold InRange Covers
    constructor
    · rintro ⟨hlo, hhi⟩
      exact ⟨e.logical + (p - e.phys), by omega, by omega, by omega⟩
    · rintro ⟨b, hb, hin, rfl⟩
      exact ⟨by omega, by omega⟩
  · next hstart =>
    split
    · next hend =>
      -- its part from `n` on goes, at an address that does not saturate
      refine ⟨List.pairwise_singleton _ _, fun p => ?_⟩
      have hadd : satAdd e.phys (n - e.logical) = e.phys + (n - e.logical) :=
        saturatingAdd_of_lt (by omega)
      simp only [List.mem_singleton, exists_eq_left]
      rw [hadd]
      unfold InRange Covers
      constructor
      · rintro ⟨hlo, hhi⟩
        simp only at hlo hhi
        exact ⟨e.logical + (p - e.phys), by omega, by omega, by omega⟩
      · rintro ⟨b, hb, hin, rfl⟩
        exact ⟨by simp only; omega, by simp only; omega⟩
    · next hend =>
      refine ⟨List.Pairwise.nil, fun p => iff_of_false ?_ ?_⟩
      · rintro ⟨r, hr, -⟩
        cases hr
      · rintro ⟨b, hb, hin, -⟩
        unfold Covers at hin
        omega

/-! ## The map that is left -/

theorem truncate_valid (h : Valid map) (n : Nat) : Valid (truncate map n).1 := by
  refine ⟨List.pairwise_filterMap.2 (h.ordered.imp_of_mem fun {a b} ha hb hab k hk l hl => ?_),
    fun k hk => ?_⟩
  · obtain ⟨-, -, hend, -⟩ := truncateExtent_kept (h.sound a ha) hk
    obtain ⟨-, hstart, -, -⟩ := truncateExtent_kept (h.sound b hb) hl
    unfold Before at hab ⊢
    omega
  · obtain ⟨e, he, hke⟩ := List.mem_filterMap.1 hk
    exact (truncateExtent_kept (h.sound e he) hke).1

/-- It says what the map said, below the new end. -/
theorem maps_truncate (h : Valid map) {b : Nat} {v : Nat × Bool} :
    Maps (truncate map n).1 b v ↔ b < n ∧ Maps map b v := by
  constructor
  · rintro ⟨k, hk, hin, hv⟩
    obtain ⟨e, he, hke⟩ := List.mem_filterMap.1 hk
    obtain ⟨hlt, hcovers, hvalue⟩ := ((truncateExtent_kept (h.sound e he) hke).2.2.2 b v).1 ⟨hin, hv⟩
    exact ⟨hlt, e, he, hcovers, hvalue⟩
  · rintro ⟨hlt, e, he, hin, hv⟩
    cases hke : (truncateExtent n e).1 with
    | none =>
      have hstart := truncateExtent_dropped (h.sound e he) hke
      unfold Covers at hin
      omega
    | some k =>
      obtain ⟨hcovers, hvalue⟩ :=
        ((truncateExtent_kept (h.sound e he) hke).2.2.2 b v).2 ⟨hlt, hin, hv⟩
      exact ⟨k, List.mem_filterMap.2 ⟨e, he, hke⟩, hcovers, hvalue⟩

/-! ## What is freed -/

/-- The freed ranges hold the physical blocks of the blocks at or after the new end. -/
theorem mem_freed (h : Valid map) (hfits : ∀ e ∈ map, e.Fits) {p : Nat} :
    (∃ r ∈ (truncate map n).2, InRange r p) ↔ ∃ b unwritten, n ≤ b ∧ Maps map b (p, unwritten) := by
  constructor
  · rintro ⟨r, hr, hp⟩
    obtain ⟨e, he, hre⟩ := List.mem_flatMap.1 hr
    obtain ⟨b, hb, hin, rfl⟩ :=
      ((truncateExtent_freed (h.sound e he) (hfits e he)).2 p).1 ⟨r, hre, hp⟩
    exact ⟨b, e.unwritten, hb, e, he, hin, (value_of_fits (hfits e he) hin).symm⟩
  · rintro ⟨b, unwritten, hb, e, he, hin, hv⟩
    rw [value_of_fits (hfits e he) hin] at hv
    obtain ⟨r, hr, hp⟩ := ((truncateExtent_freed (h.sound e he) (hfits e he)).2 p).2
      ⟨b, hb, hin, (Prod.mk.inj hv).1⟩
    exact ⟨r, List.mem_flatMap.2 ⟨e, he, hr⟩, hp⟩

/-- Extents with physical ranges apart are freed in ranges apart. -/
theorem freed_apart (h : Valid map) (hfits : ∀ e ∈ map, e.Fits) (hapart : map.Pairwise PhysApart) :
    (truncate map n).2.Pairwise RangesApart := by
  refine List.pairwise_flatMap.2
    ⟨fun e he => (truncateExtent_freed (h.sound e he) (hfits e he)).1, ?_⟩
  refine hapart.imp_of_mem fun {a b} ha hb hab r hr s hs p => ?_
  rintro ⟨hpr, hps⟩
  obtain ⟨i, -, hi, hpi⟩ := ((truncateExtent_freed (h.sound a ha) (hfits a ha)).2 p).1 ⟨r, hr, hpr⟩
  obtain ⟨j, -, hj, hpj⟩ := ((truncateExtent_freed (h.sound b hb) (hfits b hb)).2 p).1 ⟨s, hs, hps⟩
  unfold PhysApart at hab
  unfold Covers at hi hj
  omega

/-- Where the physical ranges are apart, a physical block belongs to one block. -/
theorem maps_phys_unique (hfits : ∀ e ∈ map, e.Fits) (hapart : map.Pairwise PhysApart) {b c p : Nat}
    {u w : Bool} (hb : Maps map b (p, u)) (hc : Maps map c (p, w)) : b = c := by
  obtain ⟨e, he, hin, hv⟩ := hb
  obtain ⟨f, hf, hin', hv'⟩ := hc
  rw [value_of_fits (hfits e he) hin] at hv
  rw [value_of_fits (hfits f hf) hin'] at hv'
  have hpe := (Prod.mk.inj hv).1
  have hpf := (Prod.mk.inj hv').1
  unfold Covers at hin hin'
  have hsymm : Std.Symm PhysApart := ⟨fun _ _ => Or.symm⟩
  by_cases hef : e = f
  · subst hef
    omega
  · have h : PhysApart e f := hapart.forall he hf hef
    unfold PhysApart at h
    omega

/-- Cutting a valid map: below the new end it says what it said, from there on it has holes. Where the
extents' physical ranges are apart and inside `u64`, the freed ranges are apart, and hold exactly the
physical blocks that are mapped no more. -/
theorem truncate_frees (hphys : ∀ e ∈ map, e.phys < 2 ^ 64) (h : validate map = .ok ()) (n : Nat) :
    validate (truncate map n).1 = .ok () ∧
      (∀ b, b < n → lookup (truncate map n).1 b = lookup map b) ∧
      (∀ b, n ≤ b → lookup (truncate map n).1 b = none) ∧
      ((∀ e ∈ map, e.Fits) → map.Pairwise PhysApart →
        (truncate map n).2.Pairwise RangesApart ∧
        ∀ p, (∃ r ∈ (truncate map n).2, InRange r p) ↔
          (∃ b unwritten, lookup map b = some (p, unwritten)) ∧
            ¬ ∃ b unwritten, lookup (truncate map n).1 b = some (p, unwritten)) := by
  have hvalid := (validate_ok_iff hphys).1 h
  have hkept := truncate_valid hvalid n
  have hlookup : ∀ b v, lookup (truncate map n).1 b = some v ↔ b < n ∧ lookup map b = some v := by
    intro b v
    rw [lookup_eq_some_iff hkept, maps_truncate hvalid, lookup_eq_some_iff hvalid]
  refine ⟨(validate_ok_iff fun e he => (hkept.sound e he).phys_lt).2 hkept, fun b hb => ?_,
    fun b hb => ?_, fun hfits hapart => ⟨freed_apart hvalid hfits hapart, fun p => ?_⟩⟩
  · refine Option.ext fun v => ?_
    rw [hlookup]
    exact and_iff_right hb
  · cases hv : lookup (truncate map n).1 b with
    | none => rfl
    | some v =>
      have hlt := ((hlookup b v).1 hv).1
      omega
  · rw [mem_freed hvalid hfits]
    simp only [hlookup, lookup_eq_some_iff hvalid]
    constructor
    · rintro ⟨b, u, hb, hmaps⟩
      refine ⟨⟨b, u, hmaps⟩, ?_⟩
      rintro ⟨c, w, hc, hmaps'⟩
      have heq := maps_phys_unique hfits hapart hmaps hmaps'
      omega
    · rintro ⟨⟨b, u, hmaps⟩, hgone⟩
      refine ⟨b, u, ?_, hmaps⟩
      by_contra hlt
      exact hgone ⟨b, u, by omega, hmaps⟩

/-- A written extent cut in its middle, and an unwritten one cut off. -/
theorem truncate_frees_small :
    (truncate [⟨10, 6, 300, false⟩, ⟨20, 2, 400, true⟩] 12).2.Pairwise RangesApart :=
  ((truncate_frees (by decide) rfl 12).2.2.2 (by decide) (by decide)).1

/-- What the conditions are for: of two extents of the same physical block, the one that is cut off frees
the block of the one that is kept; cut off both, they free it twice; and the blocks of an extent that
leaves `u64` are not the ones of the freed range. -/
theorem truncate_frees_mapped :
    (validate [⟨0, 1, 500, false⟩, ⟨1, 1, 500, false⟩] = .ok () ∧
      (truncate [⟨0, 1, 500, false⟩, ⟨1, 1, 500, false⟩] 1).2 = [(500, 1)] ∧
      lookup (truncate [⟨0, 1, 500, false⟩, ⟨1, 1, 500, false⟩] 1).1 0 = some (500, false) ∧
      (truncate [⟨0, 1, 500, false⟩, ⟨1, 1, 500, false⟩] 0).2 = [(500, 1), (500, 1)]) ∧
    (validate [⟨0, 2, 2 ^ 64 - 1, false⟩] = .ok () ∧
      (truncate [⟨0, 2, 2 ^ 64 - 1, false⟩] 0).2 = [(2 ^ 64 - 1, 2)] ∧
      lookup [⟨0, 2, 2 ^ 64 - 1, false⟩] 1 = some (2 ^ 64 - 1, false)) := by
  refine ⟨⟨?_, ?_, ?_, ?_⟩, ?_, ?_, ?_⟩ <;> decide

end ExtentMap

end SlateOS.Fs.Ext4
