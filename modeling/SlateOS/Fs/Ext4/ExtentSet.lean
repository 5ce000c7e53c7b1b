/-
# SlateOS.Fs.Ext4.ExtentSet -- what mapping a range does to an extent map

A map is read through `Maps`, what its extents say about a block, which neither order nor the way the
extents are cut matters to. Cutting, sorting, merging and splitting are each described by it; a valid
map's `lookup` is the same thing. That the result has the fewest entries rests on one property of
neighbours: one continues the other only if it is as long as its kind can be.
-/
import SlateOS.Fs.Ext4.ExtentMap
import Mathlib.Data.List.Chain

namespace SlateOS.Fs.Ext4

open Foundation.MachineInt Kernel

/-! ## Saturating block numbers -/

theorem satAdd_assoc (a b c : Nat) : satAdd (satAdd a b) c = satAdd a (b + c) := by
  unfold satAdd saturatingAdd
  omega

theorem satAdd_zero {a : Nat} (h : a < 2 ^ 64) : satAdd a 0 = a := by
  rw [satAdd, saturatingAdd_of_lt (by omega), Nat.add_zero]

theorem satAdd_lt (a b : Nat) : satAdd a b < 2 ^ 64 := by
  have := saturatingAdd_le_maxVal 64 a b
  have hmax : maxVal 64 = 2 ^ 64 - 1 := rfl
  show saturatingAdd 64 a b < 2 ^ 64
  omega

theorem satAdd_ne_zero {a : Nat} (h : a ≠ 0) (b : Nat) : satAdd a b ≠ 0 := by
  have hmax : maxVal 64 = 2 ^ 64 - 1 := rfl
  unfold satAdd saturatingAdd
  omega

namespace Extent

/-- The extent maps block `b`. -/
def Covers (e : Extent) (b : Nat) : Prop := e.logical ≤ b ∧ b < e.logical + e.len

instance (e : Extent) (b : Nat) : Decidable (e.Covers b) :=
  inferInstanceAs (Decidable (e.logical ≤ b ∧ b < e.logical + e.len))

/-- What it maps the block to. -/
def value (e : Extent) (b : Nat) : Nat × Bool := (satAdd e.phys (b - e.logical), e.unwritten)

/-- Nonempty, not at block 0, its logical range and its first block inside `u64`. -/
structure Sound (e : Extent) : Prop where
  len_ne : e.len ≠ 0
  phys_ne : e.phys ≠ 0
  range : e.logical + e.len < 2 ^ 64
  phys_lt : e.phys < 2 ^ 64

/-- `a` ends before `b` begins. -/
def Before (a b : Extent) : Prop := a.logical + a.len ≤ b.logical

instance (a b : Extent) : Decidable (a.Before b) :=
  inferInstanceAs (Decidable (a.logical + a.len ≤ b.logical))

theorem theEnd_eq {e : Extent} (h : e.logical + e.len < 2 ^ 64) : e.theEnd = e.logical + e.len :=
  saturatingAdd_of_lt h

end Extent

namespace ExtentMap

open Extent

variable {map : ExtentMap} {new e : Extent}

/-- Some extent maps `b` to `v`. -/
def Maps (map : List Extent) (b : Nat) (v : Nat × Bool) : Prop :=
  ∃ e ∈ map, e.Covers b ∧ v = e.value b

/-- In order, disjoint, every extent sound. -/
structure Valid (map : ExtentMap) : Prop where
  ordered : map.Pairwise Before
  sound : ∀ e ∈ map, e.Sound

theorem Valid.tail (h : Valid (e :: map)) : Valid map :=
  ⟨(List.pairwise_cons.1 h.ordered).2, fun x hx => h.sound x (List.mem_cons_of_mem e hx)⟩

theorem Valid.head_before (h : Valid (e :: map)) : ∀ x ∈ map, e.Before x :=
  (List.pairwise_cons.1 h.ordered).1

/-! ## The check and the lookup -/

theorem validateLoop_ok_iff (hphys : ∀ e ∈ map, e.phys < 2 ^ 64) (i prevEnd : Nat) :
    validateLoop i prevEnd map = .ok () ↔
      Valid map ∧ (i > 0 → ∀ e ∈ map, prevEnd ≤ e.logical) := by
  induction map generalizing i prevEnd with
  | nil =>
    refine iff_of_true rfl ⟨⟨List.Pairwise.nil, fun _ h => absurd h List.not_mem_nil⟩, ?_⟩
    exact fun _ _ h => absurd h List.not_mem_nil
  | cons e rest ih =>
    have hrest := ih (fun x hx => hphys x (List.mem_cons_of_mem e hx)) (i + 1) e.theEnd
    unfold validateLoop
    split
    · rename_i hbad
      refine iff_of_false (by simp) fun hv => ?_
      have hs := hv.1.sound e List.mem_cons_self
      rcases hbad with h | h | h
      · exact hs.len_ne h
      · exact hs.phys_ne h
      · rw [checkedAdd_of_lt hs.range] at h
        cases h
    · rename_i hgood
      obtain ⟨hlen, hzero, hadd⟩ : e.len ≠ 0 ∧ e.phys ≠ 0 ∧ checkedAdd 64 e.logical e.len ≠ none := by
        simpa using hgood
      have hrange : e.logical + e.len < 2 ^ 64 := by
        by_contra hover
        exact hadd (if_neg hover)
      have hsound : e.Sound := ⟨hlen, hzero, hrange, hphys e List.mem_cons_self⟩
      split
      · rename_i hback
        refine iff_of_false (by simp) fun hv => ?_
        have := hv.2 hback.1 e List.mem_cons_self
        omega
      · rename_i hforth
        rw [hrest, theEnd_eq hrange]
        constructor
        · rintro ⟨hvalid, hafter⟩
          refine ⟨⟨List.pairwise_cons.2 ⟨hafter (by omega), hvalid.ordered⟩, ?_⟩, fun hi x hx => ?_⟩
          · rintro x hx
            rcases List.mem_cons.1 hx with rfl | hx
            · exact hsound
            · exact hvalid.sound x hx
          · rcases List.mem_cons.1 hx with rfl | hx
            · omega
            · have := hafter (by omega) x hx
              omega
        · rintro ⟨hvalid, -⟩
          exact ⟨hvalid.tail, fun _ => hvalid.head_before⟩

/-- `validate` accepts exactly the valid maps. -/
theorem validate_ok_iff (hphys : ∀ e ∈ map, e.phys < 2 ^ 64) :
    validate map = .ok () ↔ Valid map := by
  rw [validate, validateLoop_ok_iff hphys]
  simp

theorem lookup_cons (e : Extent) (rest : ExtentMap) (b : Nat) :
    lookup (e :: rest) b =
      if e.theEnd ≤ b then lookup rest b else if e.logical ≤ b then some (e.value b) else none := by
  unfold lookup
  by_cases h : e.theEnd ≤ b
  · simp [h]
  · simp [h, value]

variable {b : Nat}

/-- In a valid map, the lookup finds what the extents say. -/
theorem lookup_eq_some_iff (h : Valid map) {v : Nat × Bool} :
    lookup map b = some v ↔ Maps map b v := by
  induction map with
  | nil => simp [lookup, Maps]
  | cons e rest ih =>
    have hsound := h.sound e List.mem_cons_self
    have hmaps : Maps (e :: rest) b v ↔ (e.Covers b ∧ v = e.value b) ∨ Maps rest b v := by
      simp [Maps]
    rw [lookup_cons, hmaps, theEnd_eq hsound.range]
    by_cases hend : e.logical + e.len ≤ b
    · rw [if_pos hend, ih h.tail]
      constructor
      · exact .inr
      · rintro (⟨hc, -⟩ | hm)
        · exact absurd hc.2 (Nat.not_lt.2 hend)
        · exact hm
    · -- the later extents begin after `b`
      have hnone : ¬ Maps rest b v := by
        rintro ⟨x, hx, hc, -⟩
        have hbefore : e.logical + e.len ≤ x.logical := h.head_before x hx
        have := hc.1
        omega
      rw [if_neg hend]
      by_cases hstart : e.logical ≤ b
      · rw [if_pos hstart, Option.some.injEq]
        constructor
        · rintro rfl
          exact .inl ⟨⟨hstart, Nat.not_le.1 hend⟩, rfl⟩
        · rintro (⟨-, rfl⟩ | hm)
          · rfl
          · exact absurd hm hnone
      · rw [if_neg hstart]
        refine iff_of_false (by simp) ?_
        rintro (⟨hc, -⟩ | hm)
        · exact hstart hc.1
        · exact hnone hm

/-! ## Cutting out the new range -/

theorem maps_append (xs ys : List Extent) (b : Nat) (v : Nat × Bool) :
    Maps (xs ++ ys) b v ↔ Maps xs b v ∨ Maps ys b v := by
  simp only [Maps, List.mem_append, or_and_right, exists_or]

theorem maps_singleton (e : Extent) (b : Nat) (v : Nat × Bool) :
    Maps [e] b v ↔ e.Covers b ∧ v = e.value b := by
  simp [Maps]

theorem maps_flatMap (xs : List Extent) (f : Extent → List Extent) (b : Nat) (v : Nat × Bool) :
    Maps (xs.flatMap f) b v ↔ ∃ e ∈ xs, Maps (f e) b v := by
  simp only [Maps, List.mem_flatMap]
  constructor
  · rintro ⟨p, ⟨e, he, hp⟩, hc⟩
    exact ⟨e, he, p, hp, hc⟩
  · rintro ⟨e, he, p, hp, hc⟩
    exact ⟨p, ⟨e, he, hp⟩, hc⟩

/-- The part of `e` below `b`. -/
def below (e : Extent) (b : Nat) : Extent := { e with len := b - e.logical }

/-- The part of `e` from `b` on. -/
def above (e : Extent) (b : Nat) : Extent :=
  { e with logical := b, len := e.logical + e.len - b, phys := satAdd e.phys (b - e.logical) }

theorem below_sound (h : e.Sound) (hb : e.logical < b) (hle : b ≤ e.logical + e.len) :
    (below e b).Sound where
  len_ne := Nat.sub_ne_zero_of_lt hb
  phys_ne := h.phys_ne
  range := by
    have := h.range
    show e.logical + (b - e.logical) < 2 ^ 64
    omega
  phys_lt := h.phys_lt

theorem above_sound (h : e.Sound) (hlt : b < e.logical + e.len) : (above e b).Sound where
  len_ne := Nat.sub_ne_zero_of_lt hlt
  phys_ne := satAdd_ne_zero h.phys_ne _
  range := by
    have := h.range
    show b + (e.logical + e.len - b) < 2 ^ 64
    omega
  phys_lt := satAdd_lt _ _

theorem maps_below (e : Extent) (b c : Nat) (v : Nat × Bool) (hb : e.logical < b) :
    Maps [below e b] c v ↔ e.logical ≤ c ∧ c < b ∧ v = e.value c := by
  rw [maps_singleton]
  show (e.logical ≤ c ∧ c < e.logical + (b - e.logical)) ∧ v = e.value c ↔ _
  rw [Nat.add_sub_cancel' (Nat.le_of_lt hb), and_assoc]

theorem maps_above (e : Extent) (c : Nat) (v : Nat × Bool) (hb : e.logical ≤ b)
    (hlt : b ≤ e.logical + e.len) :
    Maps [above e b] c v ↔ b ≤ c ∧ c < e.logical + e.len ∧ v = e.value c := by
  rw [maps_singleton]
  show (b ≤ c ∧ c < b + (e.logical + e.len - b)) ∧
    v = (satAdd (satAdd e.phys (b - e.logical)) (c - b), e.unwritten) ↔ _
  rw [Nat.add_sub_cancel' hlt, and_assoc]
  refine and_congr_right fun hc => ?_
  have hsum : b - e.logical + (c - b) = c - e.logical := by omega
  rw [satAdd_assoc, hsum]
  rfl

theorem maps_below_if (e : Extent) (b c : Nat) (v : Nat × Bool) :
    Maps (if e.logical < b then [below e b] else []) c v ↔ e.logical ≤ c ∧ c < b ∧ v = e.value c := by
  split
  · next hlt => exact maps_below e b c v hlt
  · refine iff_of_false (fun ⟨_, hp, _⟩ => List.not_mem_nil hp) ?_
    omega

theorem maps_above_if (e : Extent) (c : Nat) (v : Nat × Bool) (hb : e.logical ≤ b) :
    Maps (if b < e.logical + e.len then [above e b] else []) c v ↔
      b ≤ c ∧ c < e.logical + e.len ∧ v = e.value c := by
  split
  · next hlt => exact maps_above e c v hb (Nat.le_of_lt hlt)
  · refine iff_of_false (fun ⟨_, hp, _⟩ => List.not_mem_nil hp) ?_
    omega

/-- What `set` keeps of one extent: the parts of it below and above the new range. -/
theorem cut_eq (h : e.Sound) (hn : new.logical + new.len < 2 ^ 64) :
    cut new e =
      if e.Before new ∨ new.Before e then [e]
      else
        (if e.logical < new.logical then [below e new.logical] else []) ++
        (if new.logical + new.len < e.logical + e.len then
          [above e (new.logical + new.len)] else []) := by
  unfold cut
  rw [theEnd_eq h.range, theEnd_eq hn]
  rfl

/-- What `kept` of `e` is left beside the new range. -/
structure CutSpec (new e : Extent) (kept : List Extent) : Prop where
  sound : ∀ p ∈ kept, p.Sound
  inside : ∀ p ∈ kept, e.logical ≤ p.logical ∧ p.logical + p.len ≤ e.logical + e.len
  apart : ∀ p ∈ kept, p.Before new ∨ new.Before p
  ordered : kept.Pairwise Before
  maps : ∀ b v, Maps kept b v ↔ Maps [e] b v ∧ ¬ new.Covers b

/-- An extent outside the new range stays. -/
theorem CutSpec.untouched (h : e.Sound) (hapart : e.Before new ∨ new.Before e) : CutSpec new e [e] := by
  refine ⟨fun p hp => ?_, fun p hp => ?_, fun p hp => ?_, List.pairwise_singleton _ _, fun b v => ?_⟩
  · rwa [List.mem_singleton.1 hp]
  · rw [List.mem_singleton.1 hp]
    exact ⟨Nat.le_refl _, Nat.le_refl _⟩
  · rwa [List.mem_singleton.1 hp]
  · rw [maps_singleton]
    refine ⟨fun hm => ⟨hm, fun hc => ?_⟩, fun hm => hm.1⟩
    have hin := hm.1
    unfold Covers at hc hin
    unfold Before at hapart
    omega

/-- Of an extent that meets the new range its two parts are left, each of them there or not. -/
theorem CutSpec.parts (h : e.Sound) (hmeet : ¬ (e.Before new ∨ new.Before e)) :
    CutSpec new e
      ((if e.logical < new.logical then [below e new.logical] else []) ++
        (if new.logical + new.len < e.logical + e.len then
          [above e (new.logical + new.len)] else [])) := by
  unfold Before at hmeet
  refine ⟨fun p hp => ?_, fun p hp => ?_, fun p hp => ?_, ?_, fun b v => ?_⟩
  · rcases List.mem_append.1 hp with hp | hp
    · obtain ⟨hlt, hp⟩ := List.mem_ite_nil_right.1 hp
      rw [List.mem_singleton.1 hp]
      exact below_sound h hlt (by omega)
    · obtain ⟨hlt, hp⟩ := List.mem_ite_nil_right.1 hp
      rw [List.mem_singleton.1 hp]
      exact above_sound h hlt
  · rcases List.mem_append.1 hp with hp | hp
    · obtain ⟨hlt, hp⟩ := List.mem_ite_nil_right.1 hp
      rw [List.mem_singleton.1 hp]
      show e.logical ≤ e.logical ∧ e.logical + (new.logical - e.logical) ≤ e.logical + e.len
      omega
    · obtain ⟨hlt, hp⟩ := List.mem_ite_nil_right.1 hp
      rw [List.mem_singleton.1 hp]
      show e.logical ≤ new.logical + new.len ∧
        new.logical + new.len + (e.logical + e.len - (new.logical + new.len)) ≤ e.logical + e.len
      omega
  · rcases List.mem_append.1 hp with hp | hp
    · obtain ⟨hlt, hp⟩ := List.mem_ite_nil_right.1 hp
      rw [List.mem_singleton.1 hp]
      refine .inl ?_
      show e.logical + (new.logical - e.logical) ≤ new.logical
      omega
    · rw [List.mem_singleton.1 (List.mem_ite_nil_right.1 hp).2]
      exact .inr (Nat.le_refl _)
  · refine List.pairwise_append.2 ⟨?_, ?_, fun p hp q hq => ?_⟩
    · split
      · exact List.pairwise_singleton _ _
      · exact List.Pairwise.nil
    · split
      · exact List.pairwise_singleton _ _
      · exact List.Pairwise.nil
    · obtain ⟨hlt, hp⟩ := List.mem_ite_nil_right.1 hp
      rw [List.mem_singleton.1 hp, List.mem_singleton.1 (List.mem_ite_nil_right.1 hq).2]
      show e.logical + (new.logical - e.logical) ≤ new.logical + new.len
      omega
  · rw [maps_append, maps_below_if, maps_above_if e b v (by omega), maps_singleton]
    unfold Covers
    constructor
    · rintro (⟨h1, h2, hv⟩ | ⟨h1, h2, hv⟩)
      · exact ⟨⟨⟨h1, by omega⟩, hv⟩, by omega⟩
      · exact ⟨⟨⟨by omega, h2⟩, hv⟩, by omega⟩
    · rintro ⟨⟨⟨h1, h2⟩, hv⟩, hout⟩
      by_cases hb : b < new.logical
      · exact .inl ⟨h1, hb, hv⟩
      · exact .inr ⟨by omega, h2, hv⟩

theorem cut_spec (h : e.Sound) (hn : new.logical + new.len < 2 ^ 64) :
    CutSpec new e (cut new e) := by
  rw [cut_eq h hn]
  by_cases hapart : e.Before new ∨ new.Before e
  · rw [if_pos hapart]
    exact .untouched h hapart
  · rw [if_neg hapart]
    exact .parts h hapart

/-! ## Sorting -/

/-- Sound extents that do not overlap are valid once they are sorted. -/
theorem valid_sorted {xs : List Extent} (hsound : ∀ e ∈ xs, e.Sound)
    (hapart : xs.Pairwise fun a b => a.Before b ∨ b.Before a) :
    Valid (xs.insertionSort fun a b => a.logical ≤ b.logical) := by
  have htotal : Std.Total fun a b : Extent => a.logical ≤ b.logical :=
    ⟨fun a b => Nat.le_total a.logical b.logical⟩
  have htrans : IsTrans Extent fun a b => a.logical ≤ b.logical :=
    ⟨fun a b c hab hbc => Nat.le_trans hab hbc⟩
  have hperm := xs.perm_insertionSort fun a b => a.logical ≤ b.logical
  have hsorted := xs.pairwise_insertionSort fun a b => a.logical ≤ b.logical
  have hmem : ∀ e ∈ xs.insertionSort fun a b => a.logical ≤ b.logical, e.Sound :=
    fun e he => hsound e (hperm.mem_iff.1 he)
  refine ⟨?_, hmem⟩
  have hboth := (hperm.pairwise_iff fun h => Or.symm h).2 hapart
  refine (hboth.and hsorted).imp_of_mem ?_
  rintro a b ha hb ⟨hab | hba, hle⟩
  · exact hab
  · -- `b` is nonempty and would end before it begins
    have := (hmem b hb).len_ne
    unfold Before at hba
    omega

theorem maps_perm {xs ys : List Extent} (h : xs.Perm ys) (b : Nat) (v : Nat × Bool) :
    Maps xs b v ↔ Maps ys b v := by
  simp only [Maps, h.mem_iff]

/-- The list `set` normalizes. -/
theorem placed_spec (h : Valid map) (hnew : new.Sound) :
    Valid ((map.flatMap (cut new) ++ [new]).insertionSort fun a b => a.logical ≤ b.logical) ∧
      ∀ b v, Maps ((map.flatMap (cut new) ++ [new]).insertionSort
          fun a b => a.logical ≤ b.logical) b v ↔
        if new.Covers b then v = new.value b else Maps map b v := by
  have hcut : ∀ e ∈ map, CutSpec new e (cut new e) :=
    fun e he => cut_spec (h.sound e he) hnew.range
  constructor
  · refine valid_sorted (fun p hp => ?_) ?_
    · rcases List.mem_append.1 hp with hp | hp
      · obtain ⟨e, he, hpe⟩ := List.mem_flatMap.1 hp
        exact (hcut e he).sound p hpe
      · rwa [List.mem_singleton.1 hp]
    · refine List.pairwise_append.2 ⟨?_, List.pairwise_singleton _ _, fun p hp q hq => ?_⟩
      · refine (List.pairwise_flatMap.2 ⟨fun e he => (hcut e he).ordered, ?_⟩).imp .inl
        refine h.ordered.imp_of_mem fun ha hb hab p hp q hq => ?_
        have hpa := ((hcut _ ha).inside p hp).2
        have hqb := ((hcut _ hb).inside q hq).1
        unfold Before at hab ⊢
        omega
      · obtain ⟨e, he, hpe⟩ := List.mem_flatMap.1 hp
        rw [List.mem_singleton.1 hq]
        exact (hcut e he).apart p hpe
  · intro b v
    rw [maps_perm (List.perm_insertionSort _ _), maps_append, maps_flatMap, maps_singleton]
    have hkept : (∃ e ∈ map, Maps (cut new e) b v) ↔ Maps map b v ∧ ¬ new.Covers b := by
      constructor
      · rintro ⟨e, he, hm⟩
        obtain ⟨hm, hout⟩ := ((hcut e he).maps b v).1 hm
        exact ⟨⟨e, he, (maps_singleton e b v).1 hm⟩, hout⟩
      · rintro ⟨⟨e, he, hm⟩, hout⟩
        exact ⟨e, he, ((hcut e he).maps b v).2 ⟨(maps_singleton e b v).2 hm, hout⟩⟩
    rw [hkept]
    by_cases hc : new.Covers b <;> simp [hc]

/-! ## Merging -/

/-- The merging loop, seen from the entry it is about to extend. -/
def mergeFrom (prev : Extent) : List Extent → List Extent
  | [] => [prev]
  | e :: rest =>
    if continues prev e then mergeFrom { prev with len := satAdd prev.len e.len } rest
    else prev :: mergeFrom e rest

theorem foldl_mergeStep (merged : List Extent) (prev : Extent) (rest : List Extent) :
    rest.foldl mergeStep (merged ++ [prev]) = merged ++ mergeFrom prev rest := by
  induction rest generalizing merged prev with
  | nil => rfl
  | cons e rest ih =>
    rw [List.foldl_cons, mergeFrom, mergeStep, List.getLast?_concat]
    simp only
    split
    · rw [List.dropLast_concat, ih]
    · rw [List.append_assoc, ← List.append_assoc merged, ih, List.append_assoc]
      rfl

theorem continues_iff {prev e : Extent} (h : prev.logical + prev.len < 2 ^ 64) :
    continues prev e = true ↔ prev.logical + prev.len = e.logical ∧
      satAdd prev.phys prev.len = e.phys ∧ prev.unwritten = e.unwritten := by
  rw [continues, decide_eq_true_iff, theEnd_eq h]

variable {prev : Extent}

/-- The two extents in one. -/
theorem merged_spec {rest : List Extent} (h : Valid (prev :: e :: rest))
    (hc : continues prev e = true) :
    Valid ({ prev with len := satAdd prev.len e.len } :: rest) ∧
      ∀ b v, Maps ({ prev with len := satAdd prev.len e.len } :: rest) b v ↔
        Maps (prev :: e :: rest) b v := by
  have hprev := h.sound prev List.mem_cons_self
  have he := h.sound e (List.mem_cons_of_mem _ List.mem_cons_self)
  obtain ⟨hlogical, hphys, hkind⟩ := (continues_iff hprev.range).1 hc
  have hrange := he.range
  have hlen : satAdd prev.len e.len = prev.len + e.len := saturatingAdd_of_lt (by omega)
  rw [hlen]
  constructor
  · refine ⟨List.pairwise_cons.2 ⟨fun x hx => ?_, h.tail.tail.ordered⟩, fun x hx => ?_⟩
    · have hbefore : e.logical + e.len ≤ x.logical := h.tail.head_before x hx
      show prev.logical + (prev.len + e.len) ≤ x.logical
      omega
    · rcases List.mem_cons.1 hx with rfl | hx
      · refine ⟨?_, hprev.phys_ne, ?_, hprev.phys_lt⟩
        · have := hprev.len_ne
          show prev.len + e.len ≠ 0
          omega
        · show prev.logical + (prev.len + e.len) < 2 ^ 64
          omega
      · exact h.tail.tail.sound x hx
  · intro b v
    rw [← List.singleton_append, ← List.singleton_append (l := e :: rest),
      ← List.singleton_append (l := rest), maps_append, maps_append, maps_append, ← or_assoc]
    refine or_congr_left ?_
    rw [maps_singleton, maps_singleton, maps_singleton]
    -- in the second extent the merged value counts on from the first
    have hvalue : ∀ c, e.logical ≤ c → e.value c = prev.value c := by
      intro c hle
      have hsum : prev.len + (c - e.logical) = c - prev.logical := by omega
      unfold value
      rw [← hphys, satAdd_assoc, hsum, hkind]
    show (prev.logical ≤ b ∧ b < prev.logical + (prev.len + e.len)) ∧ v = prev.value b ↔ _
    unfold Covers
    constructor
    · rintro ⟨⟨h1, h2⟩, hv⟩
      by_cases hb : b < prev.logical + prev.len
      · exact .inl ⟨⟨h1, hb⟩, hv⟩
      · have hle : e.logical ≤ b := by omega
        exact .inr ⟨⟨hle, by omega⟩, hv.trans (hvalue b hle).symm⟩
    · rintro (⟨⟨h1, h2⟩, hv⟩ | ⟨⟨h1, h2⟩, hv⟩)
      · exact ⟨⟨h1, by omega⟩, hv⟩
      · exact ⟨⟨by omega, by omega⟩, hv.trans (hvalue b h1)⟩

/-- What merging a valid map from `prev` on leaves: the same mappings, in order, no extent continuing
the one before it, and the first one longer at most. -/
structure Merged (prev : Extent) (rest merged : List Extent) : Prop where
  valid : Valid merged
  maps : ∀ b v, Maps merged b v ↔ Maps (prev :: rest) b v
  chain : merged.IsChain fun a b => continues a b = false
  head : ∃ n tail, merged = { prev with len := n } :: tail

theorem mergeFrom_spec {rest : List Extent} (h : Valid (prev :: rest)) :
    Merged prev rest (mergeFrom prev rest) := by
  induction rest generalizing prev with
  | nil => exact ⟨h, fun _ _ => Iff.rfl, List.IsChain.singleton _, prev.len, [], rfl⟩
  | cons e rest ih =>
    unfold mergeFrom
    split
    · rename_i hc
      obtain ⟨hvalid, hmaps⟩ := merged_spec h hc
      have hm := ih hvalid
      obtain ⟨n, tail, hhead⟩ := hm.head
      exact ⟨hm.valid, fun b v => (hm.maps b v).trans (hmaps b v), hm.chain, n, tail, hhead⟩
    · rename_i hc
      have hm := ih h.tail
      obtain ⟨n, tail, hhead⟩ := hm.head
      refine ⟨⟨List.pairwise_cons.2 ⟨fun x hx => ?_, hm.valid.ordered⟩, fun x hx => ?_⟩,
        fun b v => ?_, ?_, prev.len, _, rfl⟩
      · -- everything merged from `e` on begins where `e` does or later
        have hbefore : prev.logical + prev.len ≤ e.logical := h.head_before e List.mem_cons_self
        have hle : e.logical ≤ x.logical := by
          rw [hhead] at hx
          rcases List.mem_cons.1 hx with rfl | hx
          · exact Nat.le_refl _
          · have hv := hm.valid
            rw [hhead] at hv
            have hx' : e.logical + n ≤ x.logical := hv.head_before x hx
            omega
        show prev.logical + prev.len ≤ x.logical
        omega
      · rcases List.mem_cons.1 hx with rfl | hx
        · exact h.sound x List.mem_cons_self
        · exact hm.valid.sound x hx
      · rw [← List.singleton_append, maps_append, hm.maps, ← maps_append]
        rfl
      · rw [hhead] at hm ⊢
        refine List.IsChain.cons_cons ?_ hm.chain
        have hfalse : continues prev e = false := Bool.not_eq_true _ ▸ hc
        simpa [continues] using hfalse

/-! ## Splitting -/

/-- One piece of an extent. -/
def piece (e : Extent) (done : Nat) : Extent :=
  { e with
    logical := satAdd e.logical done
    len := min (e.len - done) e.maxLen
    phys := satAdd e.phys done }

variable {done : Nat}

theorem splitFrom_of_lt (h : done < e.len) :
    splitFrom e done = piece e done :: splitFrom e (done + (piece e done).len) := by
  rw [splitFrom, dif_pos h]
  rfl

theorem splitFrom_of_le (h : e.len ≤ done) : splitFrom e done = [] := by
  rw [splitFrom, dif_neg (Nat.not_lt.2 h)]

theorem piece_spec (h : e.Sound) (hd : done < e.len) :
    (piece e done).Sound ∧ (piece e done).logical = e.logical + done ∧
      (piece e done).len = min (e.len - done) e.maxLen ∧
      (piece e done).maxLen = e.maxLen ∧ (piece e done).unwritten = e.unwritten ∧
      ∀ b, e.logical + done ≤ b → (piece e done).value b = e.value b := by
  have hrange := h.range
  have hpos := e.maxLen_pos
  have hlogical : satAdd e.logical done = e.logical + done := saturatingAdd_of_lt (by omega)
  refine ⟨⟨?_, satAdd_ne_zero h.phys_ne _, ?_, satAdd_lt _ _⟩, hlogical, rfl, rfl, rfl, fun b hb => ?_⟩
  · show min (e.len - done) e.maxLen ≠ 0
    omega
  · show satAdd e.logical done + min (e.len - done) e.maxLen < 2 ^ 64
    omega
  · have hsum : done + (b - (e.logical + done)) = b - e.logical := by omega
    show (satAdd (satAdd e.phys done) (b - satAdd e.logical done), e.unwritten) = e.value b
    rw [hlogical, satAdd_assoc, hsum]
    rfl

/-- An extent that another one continues is full. -/
def Tight (a b : Extent) : Prop := continues a b = true → a.len = a.maxLen

/-- The pieces of an extent from `done` on. -/
structure Split (e : Extent) (done : Nat) (pieces : List Extent) : Prop where
  sound : ∀ p ∈ pieces, p.Sound
  inside : ∀ p ∈ pieces, e.logical + done ≤ p.logical ∧ p.logical + p.len ≤ e.logical + e.len
  short : ∀ p ∈ pieces, p.len ≤ p.maxLen
  ordered : pieces.Pairwise Before
  maps : ∀ b v, Maps pieces b v ↔
    e.logical + done ≤ b ∧ b < e.logical + e.len ∧ v = e.value b
  chain : pieces.IsChain Tight
  head : ∀ p ∈ pieces.head?,
    p.logical = e.logical + done ∧ p.phys = satAdd e.phys done ∧ p.unwritten = e.unwritten
  last : ∀ p ∈ pieces.getLast?, p.logical + p.len = e.logical + e.len ∧
    satAdd p.phys p.len = satAdd e.phys e.len ∧ p.unwritten = e.unwritten

/-- At the end of the extent no piece is left. -/
theorem Split.nil (hdone : e.len ≤ done) : Split e done [] := by
  refine ⟨?_, ?_, ?_, List.Pairwise.nil, fun b v => ?_, List.IsChain.nil, ?_, ?_⟩
  · exact fun p hp => absurd hp List.not_mem_nil
  · exact fun p hp => absurd hp List.not_mem_nil
  · exact fun p hp => absurd hp List.not_mem_nil
  · refine iff_of_false (fun ⟨_, hp, _⟩ => List.not_mem_nil hp) ?_
    omega
  · exact fun p hp => by cases hp
  · exact fun p hp => by cases hp

/-- The next piece in front of the pieces after it. -/
theorem Split.cons (h : e.Sound) (hlt : done < e.len) {rest : List Extent}
    (hrest : Split e (done + (piece e done).len) rest)
    (hnone : rest = [] ↔ e.len ≤ done + (piece e done).len) : Split e done (piece e done :: rest) := by
  obtain ⟨hsound, hlogical, hlen, hmax, hkind, hvalue⟩ := piece_spec h hlt
  refine ⟨fun p hp => ?_, fun p hp => ?_, fun p hp => ?_, ?_, fun b v => ?_, ?_, fun p hp => ?_,
    fun p hp => ?_⟩
  · rcases List.mem_cons.1 hp with rfl | hp
    · exact hsound
    · exact hrest.sound p hp
  · rcases List.mem_cons.1 hp with rfl | hp
    · omega
    · have := hrest.inside p hp
      omega
  · rcases List.mem_cons.1 hp with rfl | hp
    · omega
    · exact hrest.short p hp
  · refine List.pairwise_cons.2 ⟨fun p hp => ?_, hrest.ordered⟩
    have := (hrest.inside p hp).1
    show (piece e done).logical + (piece e done).len ≤ p.logical
    omega
  · rw [← List.singleton_append, maps_append, hrest.maps, maps_singleton]
    unfold Covers
    constructor
    · rintro (⟨⟨h1, h2⟩, hv⟩ | ⟨h1, h2, hv⟩)
      · exact ⟨by omega, by omega, hv.trans (hvalue b (by omega))⟩
      · exact ⟨by omega, h2, hv⟩
    · rintro ⟨h1, h2, hv⟩
      by_cases hb : b < e.logical + (done + (piece e done).len)
      · exact .inl ⟨⟨by omega, by omega⟩, hv.trans (hvalue b h1).symm⟩
      · exact .inr ⟨by omega, h2, hv⟩
  · -- a piece with another one behind it has the full length
    refine hrest.chain.cons fun p hp _ => ?_
    have hmore : ¬ e.len ≤ done + (piece e done).len := by
      intro hle
      rw [hnone.2 hle] at hp
      cases hp
    omega
  · obtain rfl : piece e done = p := by simpa using hp
    exact ⟨hlogical, rfl, hkind⟩
  · cases rest with
    | nil =>
      obtain rfl : piece e done = p := by simpa using hp
      have hsum : done + (piece e done).len = e.len := by
        have := hnone.1 rfl
        omega
      refine ⟨by omega, ?_, hkind⟩
      show satAdd (satAdd e.phys done) (piece e done).len = _
      rw [satAdd_assoc, hsum]
    | cons q rest =>
      rw [List.getLast?_cons_cons] at hp
      exact hrest.last p hp

theorem splitFrom_spec (h : e.Sound) (hd : done ≤ e.len) :
    Split e done (splitFrom e done) := by
  induction hk : e.len - done using Nat.strong_induction_on generalizing done with
  | _ k ih =>
    by_cases hlt : done < e.len
    · have hlen : (piece e done).len = min (e.len - done) e.maxLen := rfl
      have hpos := e.maxLen_pos
      rw [splitFrom_of_lt hlt]
      refine .cons h hlt (ih (e.len - (done + (piece e done).len)) (by omega) (by omega) rfl) ?_
      by_cases hmore : done + (piece e done).len < e.len
      · rw [splitFrom_of_lt hmore]
        exact iff_of_false (List.cons_ne_nil _ _) (Nat.not_le.2 hmore)
      · exact iff_of_true (splitFrom_of_le (Nat.not_lt.1 hmore)) (Nat.not_lt.1 hmore)
    · rw [splitFrom_of_le (Nat.not_lt.1 hlt)]
      exact .nil (Nat.not_lt.1 hlt)

/-- Where none of the extents continues the one before it, the pieces of two of them never meet. -/
theorem split_chain {merged : List Extent} (h : Valid merged)
    (hchain : merged.IsChain fun a b => continues a b = false) :
    (merged.flatMap fun e => splitFrom e 0).IsChain Tight := by
  have hsplit : ∀ e ∈ merged, Split e 0 (splitFrom e 0) :=
    fun e he => splitFrom_spec (h.sound e he) (Nat.zero_le _)
  induction merged with
  | nil => exact List.IsChain.nil
  | cons e rest ih =>
    have he := hsplit e List.mem_cons_self
    rw [List.flatMap_cons]
    refine he.chain.append (ih h.tail (List.IsChain.tail hchain)
      fun x hx => hsplit x (List.mem_cons_of_mem e hx)) fun p hp q hq => ?_
    -- the last piece of `e` is continued by the first of the next extent only if `e` is
    cases rest with
    | nil => cases hq
    | cons f rest =>
      have hf := hsplit f (List.mem_cons_of_mem e List.mem_cons_self)
      have hfs := h.sound f (List.mem_cons_of_mem e List.mem_cons_self)
      have hpos : 0 < f.len := Nat.pos_of_ne_zero hfs.len_ne
      have hhead : q ∈ (splitFrom f 0).head? := by
        rw [List.flatMap_cons, splitFrom_of_lt hpos] at hq
        rw [splitFrom_of_lt hpos]
        exact hq
      obtain ⟨hl, hph, hk⟩ := he.last p hp
      obtain ⟨hl', hph', hk'⟩ := hf.head q hhead
      have hps := he.sound p (List.mem_of_mem_getLast? hp)
      have hes := h.sound e List.mem_cons_self
      have hno := List.IsChain.rel hchain
      intro hc
      rw [continues_iff hps.range, hl, hph, hk, hl', hph', hk', Nat.add_zero,
        satAdd_zero hfs.phys_lt, ← continues_iff hes.range, hno] at hc
      cases hc

/-- Splitting every extent of a valid map in which none continues the one before it. -/
theorem split_all {merged : List Extent} (h : Valid merged)
    (hchain : merged.IsChain fun a b => continues a b = false) :
    Valid (merged.flatMap fun e => splitFrom e 0) ∧
      (∀ p ∈ merged.flatMap fun e => splitFrom e 0, p.len ≤ p.maxLen) ∧
      (∀ b v, Maps (merged.flatMap fun e => splitFrom e 0) b v ↔ Maps merged b v) ∧
      (merged.flatMap fun e => splitFrom e 0).IsChain Tight := by
  have hsplit : ∀ e ∈ merged, Split e 0 (splitFrom e 0) :=
    fun e he => splitFrom_spec (h.sound e he) (Nat.zero_le _)
  refine ⟨⟨?_, fun p hp => ?_⟩, fun p hp => ?_, fun b v => ?_, ?_⟩
  · refine List.pairwise_flatMap.2 ⟨fun e he => (hsplit e he).ordered, ?_⟩
    refine h.ordered.imp_of_mem fun ha hb hab p hp q hq => ?_
    have hpa := ((hsplit _ ha).inside p hp).2
    have hqb := ((hsplit _ hb).inside q hq).1
    unfold Before at hab ⊢
    omega
  · obtain ⟨e, he, hpe⟩ := List.mem_flatMap.1 hp
    exact (hsplit e he).sound p hpe
  · obtain ⟨e, he, hpe⟩ := List.mem_flatMap.1 hp
    exact (hsplit e he).short p hpe
  · rw [maps_flatMap]
    refine exists_congr fun e => and_congr_right fun he => ?_
    rw [(hsplit e he).maps, Nat.add_zero, ← and_assoc]
    rfl
  · exact split_chain h hchain

/-- What `normalize` makes of a valid map. -/
theorem normalize_spec (h : Valid map) :
    Valid (normalize map) ∧ (∀ p ∈ normalize map, p.len ≤ p.maxLen) ∧
      (∀ b v, Maps (normalize map) b v ↔ Maps map b v) ∧ (normalize map).IsChain Tight := by
  cases map with
  | nil => exact ⟨h, by simp [normalize], fun _ _ => Iff.rfl, List.IsChain.nil⟩
  | cons e rest =>
    have hm := mergeFrom_spec h
    have hfold : (e :: rest).foldl mergeStep [] = mergeFrom e rest := foldl_mergeStep [] e rest
    obtain ⟨hvalid, hshort, hmaps, hchain⟩ := split_all hm.valid hm.chain
    unfold normalize
    rw [hfold]
    exact ⟨hvalid, hshort, fun b v => (hmaps b v).trans (hm.maps b v), hchain⟩

/-! ## The fewest entries -/

theorem Valid.apart (h : Valid map) {a b : Extent} (ha : a ∈ map) (hb : b ∈ map) :
    a = b ∨ a.Before b ∨ b.Before a := by
  have hpair : map.Pairwise fun a b => a.Before b ∨ b.Before a := h.ordered.imp .inl
  have hsymm : Std.Symm fun a b : Extent => a.Before b ∨ b.Before a := ⟨fun _ _ => Or.symm⟩
  by_cases hab : a = b
  · exact .inl hab
  · exact .inr (hpair.forall ha hb hab)

/-- At most one extent of a valid map covers a block. -/
theorem Valid.covers_unique (h : Valid map) {a b : Extent} (ha : a ∈ map) (hb : b ∈ map) {c : Nat}
    (hac : a.Covers c) (hbc : b.Covers c) : a = b := by
  rcases h.apart ha hb with hab | hab | hba
  · exact hab
  · unfold Before at hab
    unfold Covers at hac hbc
    omega
  · unfold Before at hba
    unfold Covers at hac hbc
    omega

/-- In a valid map, what continues an extent stands next to it. -/
theorem tight_of_chain (h : Valid map) (hchain : map.IsChain Tight) {a x : Extent} (ha : a ∈ map)
    (hx : x ∈ map) (hc : continues a x = true) : a.len = a.maxLen := by
  induction map with
  | nil => exact absurd ha List.not_mem_nil
  | cons y ys ih =>
    have hy := h.sound y List.mem_cons_self
    have has := h.sound a ha
    have hmeet := ((continues_iff has.range).1 hc).1
    rcases List.mem_cons.1 ha with rfl | hays
    · -- `x` is among the later ones, and none of these ends before it
      rcases List.mem_cons.1 hx with rfl | hx
      · have := has.len_ne
        omega
      · cases ys with
        | nil => exact absurd hx List.not_mem_nil
        | cons z zs =>
          rcases List.mem_cons.1 hx with rfl | hx
          · exact List.IsChain.rel hchain hc
          · have hz := (h.tail.sound z List.mem_cons_self).len_ne
            have h1 : a.logical + a.len ≤ z.logical := h.head_before z List.mem_cons_self
            have h2 : z.logical + z.len ≤ x.logical := h.tail.head_before x hx
            omega
    · rcases List.mem_cons.1 hx with rfl | hx
      · have hback : x.logical + x.len ≤ a.logical := h.head_before a hays
        have := has.len_ne
        omega
      · exact ih h.tail (List.IsChain.tail hchain) hays hx

theorem value_logical (h : e.Sound) : e.value e.logical = (e.phys, e.unwritten) := by
  rw [value, Nat.sub_self, satAdd_zero h.phys_lt]

theorem covers_logical (h : e.Sound) : e.Covers e.logical :=
  ⟨Nat.le_refl _, Nat.lt_add_of_pos_right (Nat.pos_of_ne_zero h.len_ne)⟩

/-- Two extents of a tight map begin in different entries of any map of short extents that says the
same. -/
theorem begin_apart {m : ExtentMap} (h : Valid map) (hchain : map.IsChain Tight) (hm : Valid m)
    (hshort : ∀ q ∈ m, q.len ≤ q.maxLen) (hsame : ∀ b v, Maps map b v ↔ Maps m b v) {a b q : Extent}
    (ha : a ∈ map) (hab : a.Before b) (hq : q ∈ m) (hqa : q.Covers a.logical) :
    ¬ q.Covers b.logical := by
  intro hqb
  have has := h.sound a ha
  -- `q` and `a` agree at the first block of `a`
  obtain ⟨q', hq', hq'a, hvalue⟩ := (hsame a.logical (a.value a.logical)).1
    ⟨a, ha, covers_logical has, rfl⟩
  obtain rfl := hm.covers_unique hq' hq hq'a hqa
  rw [value_logical has] at hvalue
  obtain ⟨hphys, hkind⟩ := Prod.mk.inj hvalue
  -- `q` goes on to the block after `a`, where some `x` begins
  have hmid : q'.Covers (a.logical + a.len) := by
    unfold Covers at hqa hqb ⊢
    unfold Before at hab
    omega
  obtain ⟨x, hx, hxc, hxvalue⟩ := (hsame _ (q'.value (a.logical + a.len))).2 ⟨q', hq', hmid, rfl⟩
  have hbegin : x.logical = a.logical + a.len := by
    have hpos := has.len_ne
    unfold Covers at hxc
    rcases h.apart hx ha with rfl | hxa | hax
    · omega
    · unfold Before at hxa
      omega
    · unfold Before at hax
      omega
  rw [← hbegin, value_logical (h.sound x hx)] at hxvalue
  obtain ⟨hxphys, hxkind⟩ := Prod.mk.inj hxvalue
  have hcontinues : continues a x = true := by
    refine (continues_iff has.range).2 ⟨hbegin.symm, ?_, ?_⟩
    · have hsum : a.logical - q'.logical + a.len = a.logical + a.len - q'.logical := by
        have := hqa.1
        omega
      rw [hphys, satAdd_assoc, hsum, ← hbegin]
      exact hxphys
    · rw [hkind]
      exact hxkind
  -- so `a` is full, and `q`, of the same kind, would be longer
  have hfull := tight_of_chain h hchain ha hx hcontinues
  have hmax : a.maxLen = q'.maxLen := by
    unfold maxLen
    rw [hkind]
  have := hshort q' hq'
  unfold Covers at hqa hmid
  omega

/-- A list each of whose members is served by a member of another one, no two by the same, is not the
longer of the two. -/
theorem length_le_of_served {α β : Type} {xs : List α} {ys : List β} (serves : β → α → Bool)
    (hserved : ∀ a ∈ xs, ∃ q ∈ ys, serves q a = true)
    (hapart : xs.Pairwise fun a b => ∀ q ∈ ys, serves q a = true → serves q b = false) :
    xs.length ≤ ys.length := by
  have hfind : ∀ a ∈ xs, ∃ q ∈ ys, ys.find? (serves · a) = some q ∧ serves q a = true := by
    intro a ha
    obtain ⟨q, hq, hqa⟩ := hserved a ha
    obtain ⟨q', hq'⟩ := Option.isSome_iff_exists.1 ((List.find?_isSome (p := fun q => serves q a)).2 ⟨q, hq, hqa⟩)
    have hserves := List.find?_some hq'
    exact ⟨q', List.mem_of_find?_eq_some hq', hq', hserves⟩
  have hnodup : (xs.map fun a => ys.find? (serves · a)).Nodup := by
    refine List.pairwise_map.2 (hapart.imp_of_mem fun ha hb hab heq => ?_)
    obtain ⟨q, hq, hfa, hqa⟩ := hfind _ ha
    obtain ⟨q', hq', hfb, hqb⟩ := hfind _ hb
    rw [hfa, hfb, Option.some.injEq] at heq
    subst heq
    rw [hab q hq hqa] at hqb
    cases hqb
  have hsub : (xs.map fun a => ys.find? (serves · a)) ⊆ ys.map some := by
    intro o ho
    obtain ⟨a, ha, rfl⟩ := List.mem_map.1 ho
    obtain ⟨q, hq, hfa, -⟩ := hfind a ha
    exact List.mem_map.2 ⟨q, hq, hfa.symm⟩
  have hle := (List.subperm_of_subset hnodup hsub).length_le
  rwa [List.length_map, List.length_map] at hle

/-- A tight valid map has the fewest entries. -/
theorem fewest {m : ExtentMap} (h : Valid map) (hchain : map.IsChain Tight) (hm : Valid m)
    (hshort : ∀ q ∈ m, q.len ≤ q.maxLen) (hsame : ∀ b v, Maps map b v ↔ Maps m b v) :
    map.length ≤ m.length := by
  refine length_le_of_served (fun q a => decide (q.Covers a.logical)) (fun a ha => ?_) ?_
  · have has := h.sound a ha
    obtain ⟨q, hq, hqa, -⟩ := (hsame a.logical _).1 ⟨a, ha, covers_logical has, rfl⟩
    exact ⟨q, hq, decide_eq_true hqa⟩
  · refine h.ordered.imp_of_mem fun ha _ hab q hq hqa => ?_
    exact decide_eq_false (begin_apart h hchain hm hshort hsame ha hab hq (of_decide_eq_true hqa))

/-! ## Setting an extent -/

theorem set_spec (h : Valid map) (hnew : new.Sound) :
    Valid (set map new) ∧ (∀ p ∈ set map new, p.len ≤ p.maxLen) ∧
      (∀ b v, Maps (set map new) b v ↔
        if new.Covers b then v = new.value b else Maps map b v) ∧ (set map new).IsChain Tight := by
  obtain ⟨hvalid, hmaps⟩ := placed_spec h hnew
  obtain ⟨h1, h2, h3, h4⟩ := normalize_spec hvalid
  exact ⟨h1, h2, fun b v => (h3 b v).trans (hmaps b v), h4⟩

/-- **Setting an extent.** On a map `validate` accepts and an extent that is not empty, not at block 0
and whose ranges do not overflow: the result is accepted, maps the new range to the new blocks and
every other block as before, keeps every length within the limit of its kind, and no accepted map within
these limits says the same with fewer entries. -/
theorem set_extent (hphys : ∀ e ∈ map, e.phys < 2 ^ 64) (h : validate map = .ok ())
    (hlen : new.len ≠ 0) (hzero : new.phys ≠ 0) (hlogical : new.logical + new.len < 2 ^ 64)
    (hrange : new.phys + new.len < 2 ^ 64) :
    validate (set map new) = .ok () ∧
      (∀ b, new.logical ≤ b → b < new.logical + new.len →
        lookup (set map new) b = some (new.phys + (b - new.logical), new.unwritten)) ∧
      (∀ b, (b < new.logical ∨ new.logical + new.len ≤ b) → lookup (set map new) b = lookup map b) ∧
      (∀ p ∈ set map new, p.len ≤ p.maxLen) ∧
      ∀ m : ExtentMap, (∀ q ∈ m, q.phys < 2 ^ 64) → validate m = .ok () →
        (∀ q ∈ m, q.len ≤ q.maxLen) → (∀ b, lookup m b = lookup (set map new) b) →
        (set map new).length ≤ m.length := by
  have hvalid := (validate_ok_iff hphys).1 h
  have hnew : new.Sound := ⟨hlen, hzero, hlogical, by omega⟩
  obtain ⟨hset, hshort, hmaps, hchain⟩ := set_spec hvalid hnew
  refine ⟨(validate_ok_iff fun e he => (hset.sound e he).phys_lt).2 hset, fun b hb hlt => ?_,
    fun b hb => ?_, hshort, fun m hmphys hm hmshort hsame => ?_⟩
  · have hc : new.Covers b := ⟨hb, hlt⟩
    have hadd : satAdd new.phys (b - new.logical) = new.phys + (b - new.logical) :=
      saturatingAdd_of_lt (by omega)
    rw [lookup_eq_some_iff hset, hmaps, if_pos hc, value, hadd]
  · have hc : ¬ new.Covers b := by
      unfold Covers
      omega
    refine Option.ext fun v => ?_
    rw [lookup_eq_some_iff hset, lookup_eq_some_iff hvalid, hmaps, if_neg hc]
  · have hmvalid := (validate_ok_iff hmphys).1 hm
    refine fewest hset hchain hmvalid hmshort fun b v => ?_
    rw [← lookup_eq_some_iff hset, ← lookup_eq_some_iff hmvalid, hsame]

/-- The middle of an unwritten extent is written. -/
theorem set_extent_middle :
    validate (set [⟨0, 10, 500, true⟩] ⟨3, 2, 503, false⟩) = .ok () :=
  (set_extent (by decide) rfl (by decide) (by decide) (by decide) (by decide)).1

/-- Two extents and the one they merge into say the same. -/
theorem lookup_merged (h : Valid [prev, e]) (hc : continues prev e = true) (b : Nat) :
    lookup [{ prev with len := satAdd prev.len e.len }] b = lookup [prev, e] b := by
  obtain ⟨hvalid, hmaps⟩ := merged_spec h hc
  refine Option.ext fun v => ?_
  rw [lookup_eq_some_iff hvalid, lookup_eq_some_iff h, hmaps]

/-- What the conditions are for: an extent at block 0 makes the map one `validate` refuses; an empty one
keeps its neighbours apart; and `validate` accepts an extent longer than `ee_len` can say, which takes
two entries to write down. -/
theorem set_extent_unconditional_fails :
    validate (set [] ⟨0, 1, 0, false⟩) = .error .ioError ∧
    (validate [⟨3, 12, 503, false⟩] = .ok () ∧
      (∀ b, lookup [⟨3, 12, 503, false⟩] b =
        lookup (set [⟨3, 7, 503, false⟩, ⟨10, 5, 510, false⟩] ⟨3, 0, 999, false⟩) b) ∧
      (set [⟨3, 7, 503, false⟩, ⟨10, 5, 510, false⟩] ⟨3, 0, 999, false⟩).length = 2) ∧
    (validate [⟨0, 32768, 1, true⟩] = .ok () ∧
      (∀ b, lookup [⟨0, 32768, 1, true⟩] b =
        lookup (set [⟨0, 32767, 1, true⟩] ⟨32767, 1, 32768, true⟩) b) ∧
      (set [⟨0, 32767, 1, true⟩] ⟨32767, 1, 32768, true⟩).length = 2) := by
  have hempty : set [⟨3, 7, 503, false⟩, ⟨10, 5, 510, false⟩] ⟨3, 0, 999, false⟩ =
      [⟨3, 7, 503, false⟩, ⟨10, 5, 510, false⟩] := by decide +kernel
  have hlong : set [⟨0, 32767, 1, true⟩] ⟨32767, 1, 32768, true⟩ =
      [⟨0, 32767, 1, true⟩, ⟨32767, 1, 32768, true⟩] := by decide +kernel
  have hvalid : Valid [⟨3, 7, 503, false⟩, ⟨10, 5, 510, false⟩] :=
    (validate_ok_iff (by decide)).1 rfl
  have hvalid' : Valid [⟨0, 32767, 1, true⟩, ⟨32767, 1, 32768, true⟩] :=
    (validate_ok_iff (by decide)).1 rfl
  refine ⟨by decide +kernel, ⟨rfl, fun b => ?_, by rw [hempty]; rfl⟩,
    ⟨rfl, fun b => ?_, by rw [hlong]; rfl⟩⟩
  · rw [hempty]
    exact lookup_merged hvalid (by decide) b
  · rw [hlong]
    exact lookup_merged hvalid' (by decide) b

end ExtentMap

end SlateOS.Fs.Ext4
