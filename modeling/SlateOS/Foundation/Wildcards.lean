/-
# SlateOS.Foundation.Wildcards -- cutting a text along a pattern with stars

A pattern is a graph of items: a star takes any run of positions that it may eat, every other item takes one
position that it fits. The positions are those of one fixed text, which stays in the background.

A matcher that meets a star may forget the one before it. That is sound where a star is stopped by walls alone, and
by positions right behind a wall, and an item fits walls only or none: then whatever the earlier star would have
eaten more, the later one can eat in its place (`Cut.exchange`).
-/
import Mathlib.Logic.Basic

namespace SlateOS.Foundation.Wildcards

universe u

variable {ι : Type u}

/-- What a pattern asks for at one of its places. -/
inductive Item (ι : Type u) where
  | finish
  | star (next : ι)
  | one (fits : Nat → Bool) (next : ι)

section Cuts

variable (item : ι → Item ι) (eat : Nat → Prop)

/-- The items from a place on take the positions from `n` up to `m`. -/
inductive Cut : ι → Nat → Nat → Prop
  | finish {p : ι} {n : Nat} (hp : item p = .finish) : Cut p n n
  | skip {p q : ι} {n m : Nat} (hp : item p = .star q) (h : Cut q n m) : Cut p n m
  | eat {p q : ι} {n m : Nat} (hp : item p = .star q) (hn : eat n) (h : Cut p (n + 1) m) : Cut p n m
  | one {p q : ι} {n m : Nat} {fits : Nat → Bool} (hp : item p = .one fits q) (hn : fits n = true)
      (h : Cut q (n + 1) m) : Cut p n m

/-- Items without a star among them take the positions from `n` up to `m`. -/
inductive Line (p : ι) (n : Nat) : ι → Nat → Prop
  | refl : Line p n p n
  | snoc {q r : ι} {m : Nat} {fits : Nat → Bool} (h : Line p n q m) (hq : item q = .one fits r)
      (hm : fits m = true) : Line p n r (m + 1)

end Cuts

variable {item : ι → Item ι} {eat : Nat → Prop} {p q s : ι} {n m a k d : Nat} {fits : Nat → Bool}

/-! ## One item at a time -/

theorem Cut.finish_iff (hp : item p = .finish) : Cut item eat p n m ↔ n = m := by
  constructor
  · intro h
    cases h with
    | finish => rfl
    | skip hp' | eat hp' | one hp' => rw [hp] at hp'; cases hp'
  · rintro rfl
    exact .finish hp

theorem Cut.one_iff (hp : item p = .one fits q) : Cut item eat p n m ↔ fits n = true ∧ Cut item eat q (n + 1) m := by
  constructor
  · intro h
    cases h with
    | one hp' hn h =>
      rw [hp] at hp'
      cases hp'
      exact ⟨hn, h⟩
    | finish hp' | skip hp' | eat hp' => rw [hp] at hp'; cases hp'
  · rintro ⟨hn, h⟩
    exact .one hp hn h

theorem Cut.star_iff (hp : item p = .star q) :
    Cut item eat p n m ↔ Cut item eat q n m ∨ eat n ∧ Cut item eat p (n + 1) m := by
  constructor
  · intro h
    cases h with
    | skip hp' h =>
      rw [hp] at hp'
      cases hp'
      exact .inl h
    | eat _ hn h => exact .inr ⟨hn, h⟩
    | finish hp' | one hp' => rw [hp] at hp'; cases hp'
  · rintro (h | ⟨hn, h⟩)
    · exact .skip hp h
    · exact .eat hp hn h

/-- A star takes a run. -/
theorem Cut.star_run_iff (hp : item p = .star q) :
    Cut item eat p n m ↔ ∃ k, n ≤ k ∧ (∀ j, n ≤ j → j < k → eat j) ∧ Cut item eat q k m := by
  constructor
  · intro h
    induction h with
    | finish hp' | one hp' => rw [hp] at hp'; cases hp'
    | skip hp' h =>
      rw [hp] at hp'
      cases hp'
      exact ⟨_, Nat.le_refl _, fun j hj hlt => absurd hlt (by omega), h⟩
    | @eat p r n m hp' hn h ih =>
      obtain ⟨k, hk, hrun, hcut⟩ := ih hp
      refine ⟨k, by omega, fun j hj hlt => ?_, hcut⟩
      by_cases hjn : j = n
      · exact hjn ▸ hn
      · exact hrun j (by omega) hlt
  · rintro ⟨k, hk, hrun, hcut⟩
    obtain ⟨d, rfl⟩ := Nat.exists_eq_add_of_le hk
    clear hk
    induction d generalizing n with
    | zero => exact .skip hp hcut
    | succ d ih =>
      apply Cut.eat hp (hrun n (Nat.le_refl _) (by omega))
      apply ih
      · intro j hj hlt
        exact hrun j (by omega) (by omega)
      · rwa [show n + 1 + d = n + (d + 1) by omega]

theorem Line.le (h : Line item p n q m) : n ≤ m := by
  induction h with
  | refl => exact Nat.le_refl _
  | snoc _ _ _ ih => omega

/-! ## The same pattern in another place -/

universe v

variable {κ : Type v}

/-- An item of one pattern asks from `n₀` on what the item of another asks `d` positions later. -/
inductive Item.Shifts (f : ι → κ) (d n₀ : Nat) : Item ι → Item κ → Prop
  | finish : Shifts f d n₀ .finish .finish
  | star (q : ι) : Shifts f d n₀ (.star q) (.star (f q))
  | one {fits fits' : Nat → Bool} (q : ι) (h : ∀ n, n₀ ≤ n → fits' (n + d) = fits n) :
    Shifts f d n₀ (.one fits q) (.one fits' (f q))

variable {item' : κ → Item κ} {eat' : Nat → Prop} {f : ι → κ} {n₀ m' : Nat}

/-- A pattern that stands in another cuts the later positions as it does by itself. -/
theorem Cut.shift_iff (hitem : ∀ p, (item p).Shifts f d n₀ (item' (f p)))
    (heat : ∀ n, n₀ ≤ n → (eat n ↔ eat' (n + d))) (hn : n₀ ≤ n) :
    Cut item' eat' (f p) (n + d) m' ↔ ∃ m, m' = m + d ∧ Cut item eat p n m := by
  constructor
  · intro h
    generalize hq : f p = q at h
    generalize hk : n + d = k at h
    induction h generalizing p n with
    | finish hp =>
      subst hq hk
      have hshift := hitem p
      rw [hp] at hshift
      cases hi : item p with
      | finish => exact ⟨n, rfl, .finish hi⟩
      | star | one => rw [hi] at hshift; cases hshift
    | skip hp _ ih =>
      subst hq hk
      have hshift := hitem p
      rw [hp] at hshift
      cases hi : item p with
      | finish | one => rw [hi] at hshift; cases hshift
      | star r =>
        rw [hi] at hshift
        cases hshift
        obtain ⟨m, hm, hcut⟩ := ih hn rfl rfl
        exact ⟨m, hm, .skip hi hcut⟩
    | eat hp hk _ ih =>
      subst hq hk
      have hshift := hitem p
      rw [hp] at hshift
      cases hi : item p with
      | finish | one => rw [hi] at hshift; cases hshift
      | star r =>
        obtain ⟨m, hm, hcut⟩ := ih (n := n + 1) (Nat.le_succ_of_le hn) rfl (by omega)
        exact ⟨m, hm, .eat hi ((heat n hn).mpr hk) hcut⟩
    | one hp hk _ ih =>
      subst hq hk
      have hshift := hitem p
      rw [hp] at hshift
      cases hi : item p with
      | finish | star => rw [hi] at hshift; cases hshift
      | one fits r =>
        rw [hi] at hshift
        cases hshift with
        | one _ hfits =>
          obtain ⟨m, hm, hcut⟩ := ih (n := n + 1) (Nat.le_succ_of_le hn) rfl (by omega)
          exact ⟨m, hm, .one hi ((hfits n hn).symm.trans hk) hcut⟩
  · rintro ⟨m, rfl, h⟩
    induction h with
    | @finish p n hp =>
      have hshift := hitem p
      rw [hp] at hshift
      cases hi : item' (f p) with
      | finish => exact .finish hi
      | star | one => rw [hi] at hshift; cases hshift
    | @skip p q n m hp _ ih =>
      have hshift := hitem p
      rw [hp] at hshift
      generalize hi : item' (f p) = i at hshift
      cases hshift
      exact .skip hi (ih hn)
    | @eat p q n m hp hk _ ih =>
      have hshift := hitem p
      rw [hp] at hshift
      generalize hi : item' (f p) = i at hshift
      cases hshift
      have hrest := ih (Nat.le_succ_of_le hn)
      rw [Nat.add_right_comm] at hrest
      exact .eat hi ((heat n hn).mp hk) hrest
    | @one p q n m fits hp hk _ ih =>
      have hshift := hitem p
      rw [hp] at hshift
      generalize hi : item' (f p) = i at hshift
      cases hshift with
      | one _ hfits =>
        have hrest := ih (Nat.le_succ_of_le hn)
        rw [Nat.add_right_comm] at hrest
        exact .one hi ((hfits n hn).trans hk) hrest

/-! ## A later star does for an earlier one -/

variable {wall : Nat → Prop} {len : Nat}

/-- Stars are stopped by walls, and maybe right behind a wall or at the very start; an item fits walls only or no
wall. All positions taken lie in the text. -/
structure Walled (item : ι → Item ι) (eat wall : Nat → Prop) (len : Nat) : Prop where
  eat_lt : ∀ k, eat k → k < len
  eat_open : ∀ k, eat k → ¬wall k
  open_eat : ∀ k, k + 1 < len → ¬wall k → ¬wall (k + 1) → eat (k + 1)
  fits_lt : ∀ p fits q k, item p = .one fits q → fits k = true → k < len
  fits_alike : ∀ p fits q k l, item p = .one fits q → fits k = true → fits l = true → (wall k ↔ wall l)

/-- A cut that begins `d` later than a line takes the line's items `d` later, wall for wall. -/
theorem Line.follow (hw : Walled item eat wall len) (h : Line item p n q k) (hcut : Cut item eat p (n + d) m) :
    Cut item eat q (k + d) m ∧ ∀ j, n ≤ j → j < k → j + d < len ∧ (wall j ↔ wall (j + d)) := by
  induction h with
  | refl => exact ⟨hcut, fun j hj hlt => absurd hlt (by omega)⟩
  | @snoc q r k fits _ hq hk ih =>
    obtain ⟨hrest, halike⟩ := ih
    obtain ⟨hfits, hrest⟩ := (Cut.one_iff hq).mp hrest
    refine ⟨by rwa [Nat.add_right_comm] at hrest, fun j hj hlt => ?_⟩
    by_cases hjk : j = k
    · subst hjk
      exact ⟨hw.fits_lt _ _ _ _ hq hfits, hw.fits_alike _ _ _ _ _ hq hk hfits⟩
    · exact halike j hj (by omega)

/-- Without a wall in the first `d` positions, a stretch that repeats its walls at the distance `d` has none. -/
theorem no_wall (hd : 0 < d) (hfirst : ∀ j, a ≤ j → j < a + d → ¬wall j)
    (halike : ∀ j, a ≤ j → j < n → (wall j ↔ wall (j + d))) (j : Nat) (hj : a ≤ j) (hlt : j < n + d) : ¬wall j := by
  induction j using Nat.strongRecOn with
  | _ j ih =>
    by_cases hnear : j < a + d
    · exact hfirst j hj hnear
    · have hback := halike (j - d) (by omega) (by omega)
      rw [Nat.sub_add_cancel (by omega)] at hback
      rw [← hback]
      exact ih (j - d) (by omega) (by omega) (by omega)

/-- **A star met at the end of a line makes the star before the line needless**: what it would still have eaten, the
later one eats. -/
theorem Cut.exchange (hw : Walled item eat wall len) (hs : item s = .star p) (hline : Line item p a q n)
    {r : ι} (hq : item q = .star r) (ha : eat a) (hcut : Cut item eat s (a + 1) m) : Cut item eat q n m := by
  obtain ⟨k, hk, hrun, hcut⟩ := (Cut.star_run_iff hs).mp hcut
  obtain ⟨d, rfl⟩ := Nat.exists_eq_add_of_le (show a ≤ k by omega)
  have hle := hline.le
  -- all of the earlier star's longer run is free of walls
  have hearlier : ∀ j, a ≤ j → j < a + d → eat j := by
    intro j hj hlt
    by_cases hja : j = a
    · exact hja ▸ ha
    · exact hrun j (by omega) hlt
  obtain ⟨hcut, halike⟩ := hline.follow hw hcut
  have hopen : ∀ j, a ≤ j → j < n + d → ¬wall j :=
    no_wall (by omega) (fun j hj hlt => hw.eat_open j (hearlier j hj hlt)) fun j hj hlt => (halike j hj hlt).2
  have hinside : ∀ j, a ≤ j → j < n + d → j < len := by
    intro j hj hlt
    by_cases hnear : j < a + d
    · exact hw.eat_lt j (hearlier j hj hnear)
    · have hfar := (halike (j - d) (by omega) (by omega)).1
      rwa [Nat.sub_add_cancel (by omega)] at hfar
  obtain ⟨k, hk, hrun, hcut⟩ := (Cut.star_run_iff hq).mp hcut
  refine (Cut.star_run_iff hq).mpr ⟨k, by omega, fun j hj hlt => ?_, hcut⟩
  by_cases hja : j = a
  · exact hja ▸ ha
  by_cases hfar : n + d ≤ j
  · exact hrun j hfar hlt
  · obtain ⟨i, rfl⟩ : ∃ i, j = i + 1 := ⟨j - 1, by omega⟩
    exact hw.open_eat i (hinside (i + 1) (by omega) (by omega)) (hopen i (by omega) (by omega))
      (hopen (i + 1) (by omega) (by omega))

end SlateOS.Foundation.Wildcards
