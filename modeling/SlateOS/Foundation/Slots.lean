/-
# SlateOS.Foundation.Slots -- tables of reusable slots

A fixed array whose slots are live or free, and a key read off a live slot. `Unique` says that no two
live slots carry one key; it is phrased by positions, so that a slot may be updated in place. A table
changes in three ways: a slot is overwritten with a fresh key, a slot is updated keeping its key, and
a pass over all slots kills some of them.
-/
import Mathlib.Data.List.Basic

namespace SlateOS.Foundation.Slots

universe u v

variable {α : Type u} {κ : Type v} {live : α → Prop} {key : α → κ} {l : List α}

/-- No two live slots carry one key. -/
def Unique (live : α → Prop) (key : α → κ) (l : List α) : Prop :=
  ∀ (i j : Nat) (a b : α), l[i]? = some a → l[j]? = some b → live a → live b → key a = key b → i = j

variable {x a : α}

/-- The reading of a table after one slot is overwritten. -/
theorem getElem?_set_cases {i j : Nat} (h : (l.set i x)[j]? = some a) :
    (i = j ∧ a = x ∧ i < l.length) ∨ (i ≠ j ∧ l[j]? = some a) := by
  rw [List.getElem?_set] at h
  split at h
  next hij =>
    split at h
    next hlt => exact Or.inl ⟨hij, (Option.some.inj h).symm, hij ▸ hlt⟩
    next => exact absurd h (by simp)
  next hij => exact Or.inr ⟨hij, h⟩

variable {i : Nat}

theorem mem_set_cases (h : a ∈ l.set i x) : a = x ∨ a ∈ l := by
  obtain ⟨j, hj⟩ := List.mem_iff_getElem?.mp h
  rcases getElem?_set_cases hj with ⟨-, ha, -⟩ | ⟨-, ha⟩
  · exact Or.inl ha
  · exact Or.inr (List.mem_of_getElem? ha)

variable {c : α}

/-- A live slot survives the overwriting of a free one. -/
theorem mem_set_of_mem (hc : l[i]? = some c) (hdead : ¬live c) (ha : a ∈ l)
    (hlive : live a) : a ∈ l.set i x := by
  obtain ⟨j, hj⟩ := List.mem_iff_getElem?.mp ha
  have hne : i ≠ j := by
    intro hij
    rw [hij, hj] at hc
    exact hdead (Option.some.inj hc ▸ hlive)
  exact List.mem_of_getElem? (i := j) (by rw [List.getElem?_set_ne hne, hj])

/-- Overwriting one slot moves the number of slots that satisfy a test by that slot alone. -/
theorem countP_set (p : α → Bool) (x : α) (hc : l[i]? = some c) :
    (l.set i x).countP p + (p c).toNat = l.countP p + (p x).toNat := by
  obtain ⟨hi, rfl⟩ := List.getElem?_eq_some_iff.mp hc
  rw [List.countP_set hi]
  have hpos : p l[i] = true → 0 < l.countP p := fun hp => List.countP_pos_iff.mpr ⟨_, List.getElem_mem hi, hp⟩
  cases hold : p l[i] <;> cases hnew : p x <;> simp_all

namespace Unique

/-- A live slot is determined by its key. -/
theorem eq_of_mem (h : Unique live key l) {a b : α} (ha : a ∈ l) (hb : b ∈ l) (hla : live a)
    (hlb : live b) (hkey : key a = key b) : a = b := by
  obtain ⟨i, hi⟩ := List.mem_iff_getElem?.mp ha
  obtain ⟨j, hj⟩ := List.mem_iff_getElem?.mp hb
  have hij : i = j := h i j a b hi hj hla hlb hkey
  rw [hij, hj] at hi
  exact (Option.some.inj hi).symm

theorem of_free (h : ∀ a ∈ l, ¬live a) : Unique live key l := by
  intro i j a b hi hj ha
  exact absurd ha (h a (List.mem_of_getElem? hi))

/-- A slot takes a key that no live slot carries. -/
theorem set_of_fresh (h : Unique live key l)
    (hfresh : ∀ a ∈ l, live a → key a ≠ key x) : Unique live key (l.set i x) := by
  intro j k a b hj hk ha hb hkey
  rcases getElem?_set_cases hj with ⟨hij, hax, -⟩ | ⟨-, hj⟩ <;>
    rcases getElem?_set_cases hk with ⟨hik, hbx, -⟩ | ⟨-, hk⟩
  · exact hij.symm.trans hik
  · exact absurd (hkey.symm.trans (congrArg key hax)) (hfresh b (List.mem_of_getElem? hk) hb)
  · exact absurd (hkey.trans (congrArg key hbx)) (hfresh a (List.mem_of_getElem? hj) ha)
  · exact h j k a b hj hk ha hb hkey

/-- A slot is updated in place and keeps its key. -/
theorem set_of_same (h : Unique live key l) (hc : l[i]? = some c)
    (hlive : live x → live c) (hsame : key x = key c) : Unique live key (l.set i x) := by
  -- the new slot answers for the old one at the same position
  have hold : ∀ (j : Nat) (a : α), (l.set i x)[j]? = some a → live a →
      ∃ a', l[j]? = some a' ∧ live a' ∧ key a' = key a := by
    intro j a hj ha
    rcases getElem?_set_cases hj with ⟨hij, hax, -⟩ | ⟨-, hj⟩
    · exact ⟨c, hij ▸ hc, hlive (hax ▸ ha), hax ▸ hsame.symm⟩
    · exact ⟨a, hj, ha, rfl⟩
  intro j k a b hj hk ha hb hkey
  obtain ⟨a', hj', ha', hka⟩ := hold j a hj ha
  obtain ⟨b', hk', hb', hkb⟩ := hold k b hk hb
  exact h j k a' b' hj' hk' ha' hb' (hka.trans (hkey.trans hkb.symm))

/-- A pass over the table that revives nothing and changes no live key. -/
theorem map (h : Unique live key l) {f : α → α} (hlive : ∀ a, live (f a) → live a)
    (hkey : ∀ a, live (f a) → key (f a) = key a) : Unique live key (l.map f) := by
  intro i j a b hi hj ha hb hab
  rw [List.getElem?_map, Option.map_eq_some_iff] at hi hj
  obtain ⟨a', hi', rfl⟩ := hi
  obtain ⟨b', hj', rfl⟩ := hj
  apply h i j a' b' hi' hj' (hlive a' ha) (hlive b' hb)
  rw [← hkey a' ha, ← hkey b' hb, hab]

end Unique

/-! ## Looking a key up -/

section Lookup

variable [DecidablePred live] [DecidableEq κ] {k : κ}

/-- The first live slot that carries the key. -/
def lookup (live : α → Prop) [DecidablePred live] (key : α → κ) (l : List α) (k : κ) : Option α :=
  l.find? fun a => decide (live a ∧ key a = k)

theorem lookup_eq_none_iff : lookup live key l k = none ↔ ∀ a ∈ l, live a → key a ≠ k := by
  simp [lookup, List.find?_eq_none]

theorem mem_of_lookup (h : lookup live key l k = some a) : a ∈ l ∧ live a ∧ key a = k :=
  ⟨List.mem_of_find?_eq_some h, by simpa using List.find?_some h⟩

namespace Unique

theorem lookup_eq_some_iff (h : Unique live key l) :
    lookup live key l k = some a ↔ a ∈ l ∧ live a ∧ key a = k := by
  refine ⟨mem_of_lookup, fun ⟨ha, hla, hka⟩ => ?_⟩
  cases hb : lookup live key l k with
  | none => exact absurd hka (lookup_eq_none_iff.1 hb a ha hla)
  | some b =>
    obtain ⟨hmem, hlb, hkb⟩ := mem_of_lookup hb
    rw [h.eq_of_mem hmem ha hlb hla (hkb.trans hka.symm)]

/-- An overwritten slot that carries the key neither before nor after does not matter. -/
theorem lookup_set_of_ne (h : Unique live key l) (h' : Unique live key (l.set i x))
    (hc : l[i]? = some c) (hck : live c → key c ≠ k) (hxk : live x → key x ≠ k) :
    lookup live key (l.set i x) k = lookup live key l k := by
  ext a
  rw [h'.lookup_eq_some_iff, h.lookup_eq_some_iff]
  constructor
  · rintro ⟨ha, hla, hka⟩
    rcases mem_set_cases ha with rfl | ha
    · exact absurd hka (hxk hla)
    · exact ⟨ha, hla, hka⟩
  · rintro ⟨ha, hla, hka⟩
    obtain ⟨j, hj⟩ := List.mem_iff_getElem?.mp ha
    have hij : i ≠ j := by
      rintro rfl
      rw [hc] at hj
      cases hj
      exact hck hla hka
    exact ⟨List.mem_of_getElem? (i := j) (by rw [List.getElem?_set_ne hij, hj]), hla, hka⟩

theorem lookup_set_self (h' : Unique live key (l.set i x)) (hc : l[i]? = some c)
    (hx : live x) (hkey : key x = k) : lookup live key (l.set i x) k = some x := by
  have hi : i < l.length := (List.getElem?_eq_some_iff.1 hc).1
  exact h'.lookup_eq_some_iff.2 ⟨List.mem_set hi x, hx, hkey⟩

/-- A slot that dies takes its key with it. -/
theorem lookup_set_dead (h : Unique live key l) (hc : l[i]? = some c)
    (hlive : live c) (hkey : key c = k) (hx : ¬live x) : lookup live key (l.set i x) k = none := by
  rw [lookup_eq_none_iff]
  intro a ha hla hka
  obtain ⟨j, hj⟩ := List.mem_iff_getElem?.mp ha
  rcases getElem?_set_cases hj with ⟨-, rfl, -⟩ | ⟨hij, hj⟩
  · exact hx hla
  · exact hij (h i j c a hc hj hlive hla (hkey.trans hka.symm))

/-- A pass over the table that leaves the slot with the key alone, and revives nothing. -/
theorem lookup_map (h : Unique live key l) {f : α → α}
    (hf : ∀ a, live (f a) → live a ∧ key (f a) = key a)
    (hsame : ∀ a ∈ l, live a → key a = k → f a = a) :
    lookup live key (l.map f) k = lookup live key l k := by
  have h' : Unique live key (l.map f) := h.map (fun a ha => (hf a ha).1) fun a ha => (hf a ha).2
  ext a
  rw [h'.lookup_eq_some_iff, h.lookup_eq_some_iff]
  constructor
  · rintro ⟨ha, hla, hka⟩
    obtain ⟨b, hb, rfl⟩ := List.mem_map.1 ha
    have hbk : key b = k := (hf b hla).2.symm.trans hka
    rw [hsame b hb (hf b hla).1 hbk]
    exact ⟨hb, (hf b hla).1, hbk⟩
  · rintro ⟨ha, hla, hka⟩
    refine ⟨List.mem_map.2 ⟨a, ha, hsame a ha hla hka⟩, hla, hka⟩

end Unique

end Lookup

end SlateOS.Foundation.Slots
