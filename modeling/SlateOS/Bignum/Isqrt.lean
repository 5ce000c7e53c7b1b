/-
# SlateOS.Bignum.Isqrt -- the integer square root

`isqrt` of `userspace/bignum/src/lib.rs`: Newton's iteration from a power of ten, stopped when it no longer
decreases, and two loops that settle the last place. Newton's loop only has to keep the guess positive, and the
two loops behind it make the root exact whatever the guess was.
-/
import SlateOS.Bignum.Text

namespace SlateOS.Bignum

open Foundation Foundation.MachineInt Foundation.Traced

/-- How many digits a limb is written with, as the loop of `isqrt` counts them. -/
def digitCount (v : Nat) : Nat := if v = 0 then 0 else digitCount (v / 10) + 1
termination_by v
decreasing_by omega

namespace BigInt

/-- One round of Newton's iteration. -/
def newtonRound (a guess : BigInt) : Traced (BigInt ⊕ BigInt) := do
  let (div, _) ← a.divmod guess
  let sum ← guess.add div
  let (newGuess, _) ← sum.divmod (fromI64 2)
  if 0 ≤ newGuess.cmpMag guess then return .inr guess
  else return .inl newGuess

/-- One round of the loop that takes an overshoot back. -/
def lowerRound (a guess : BigInt) : Traced (BigInt ⊕ BigInt) := do
  let square ← guess.mul guess
  if 0 < square.cmpMag a then
    let guess ← guess.sub one
    return .inl guess
  else return .inr guess

/-- One round of the loop that takes an undershoot up. -/
def raiseRound (a guess : BigInt) : Traced (BigInt ⊕ BigInt) := do
  let next ← guess.add one
  let square ← next.mul next
  if square.cmpMag a ≤ 0 then return .inl next
  else return .inr guess

/-- The digits that `isqrt` starts with: half as many as the number has. -/
def halfDigits (a : BigInt) : Nat :=
  ((a.limbs.length - 1) * limbDigits + max (a.limbs.getLast?.elim 1 digitCount) 1 + 1) / 2

/-- `isqrt`, with `fuel` rounds for each of its loops. -/
def isqrt (fuel : Nat) (a : BigInt) : Traced (Option BigInt) := do
  if a.negative = true ∨ a.isZero = true then return some zero
  else if a.cmpMag one = 0 then return some one
  else
    let guess ← one.shiftLeftDecimal a.halfDigits
    match ← iterate (newtonRound a) fuel guess with
    | none => return none
    | some guess =>
      match ← iterate (lowerRound a) fuel guess with
      | none => return none
      | some guess => iterate (raiseRound a) fuel guess

/-! ## The rounds -/

variable {a guess : BigInt} {n g : Nat}

/-- The order of two natural numbers, from `cmp_mag`. -/
theorem cmpMag_nat {b : BigInt} {m : Nat} (ha : a.Represents n) (hb : b.Represents m) :
    (a.cmpMag b = 0 ↔ n = m) ∧ (0 < a.cmpMag b ↔ m < n) := by
  have hcmp := ha.cmpMag hb
  rw [Int.natAbs_natCast, Int.natAbs_natCast] at hcmp
  rw [hcmp, order]
  split
  · omega
  · split <;> omega

/-- Newton's step keeps a positive guess positive, and goes on only when it lowers it. -/
theorem newtonRound_meets (ha : a.Represents n) (hn : 0 < n) (hguess : guess.Represents g) (hg : 0 < g) :
    (newtonRound a guess).Meets 2 (Sum.elim
      (fun next => (∃ m : Nat, next.Represents m ∧ 0 < m) ∧ value next.limbs < value guess.limbs)
      (fun out => ∃ m : Nat, out.Represents m ∧ m ≤ g)) := by
  unfold newtonRound
  refine Meets.bind (divmod_nat ha hguess hg) ?_
  rintro ⟨div, rest⟩ ⟨hdiv, -⟩
  refine Meets.bind (add_meets hguess hdiv) ?_
  intro sum hsum
  have hsum : sum.Represents (g + n / g : Nat) := by exact_mod_cast hsum
  refine Meets.bind (divmod_nat (m := 2) hsum (fromI64_represents 2) (by decide)) ?_
  rintro ⟨next, odd⟩ ⟨hnext, -⟩
  have hcmp := cmpMag_nat hguess hnext
  have hback := cmpMag_nat hnext hguess
  dsimp only
  split
  next hstop => exact Meets.pure ⟨g, hguess, Nat.le_refl g⟩
  next hgo =>
  have hless : (g + n / g) / 2 < g := by
    by_contra hge
    refine hgo ?_
    rcases Nat.lt_or_eq_of_le (Nat.not_lt.mp hge) with hlt | heq
    · exact (hback.2.mpr hlt).le
    · exact (hback.1.mpr heq.symm).ge
  refine Meets.pure ⟨⟨_, hnext, ?_⟩, ?_⟩
  · -- A guess of one is below no next guess, so the guess is at least two.
    have hone : 1 ≤ n / g ∨ 2 ≤ g := by
      rcases Nat.lt_or_ge g 2 with hlt | hge
      · left
        have : g = 1 := by omega
        rw [this, Nat.div_one]
        exact hn
      · exact Or.inr hge
    generalize n / g = quotient at hone hless ⊢
    omega
  · rw [hnext.natAbs, hguess.natAbs]
    exact_mod_cast hless

/-- An overshoot is lowered by one. -/
theorem lowerRound_meets (ha : a.Represents n) (hguess : guess.Represents g) :
    (lowerRound a guess).Meets 2 (Sum.elim
      (fun next => (∃ m : Nat, next.Represents m) ∧ value next.limbs < value guess.limbs)
      (fun out => ∃ m : Nat, out.Represents m ∧ m * m ≤ n)) := by
  unfold lowerRound
  refine Meets.bind (mul_meets hguess hguess) ?_
  intro square hsquare
  have hsquare : square.Represents (g * g : Nat) := by exact_mod_cast hsquare
  have hcmp := cmpMag_nat hsquare ha
  split
  next hover =>
    have hpos : 0 < g := by
      have hlt := hcmp.2.mp hover
      rcases Nat.eq_zero_or_pos g with rfl | hpos
      · omega
      · exact hpos
    refine Meets.bind (sub_meets hguess Represents.one) ?_
    intro next hnext
    have hnext : next.Represents (g - 1 : Nat) := by
      rw [Int.natCast_sub hpos]
      exact_mod_cast hnext
    refine Meets.pure ⟨⟨_, hnext⟩, ?_⟩
    have hless : g - 1 < g := by omega
    rw [hnext.natAbs, hguess.natAbs]
    exact_mod_cast hless
  next hunder =>
  refine Meets.pure ⟨g, hguess, ?_⟩
  by_contra hlt
  exact hunder (hcmp.2.mpr (Nat.not_le.mp hlt))

/-- An undershoot is raised by one, and the loop ends at the root. -/
theorem raiseRound_meets (ha : a.Represents n) (hguess : guess.Represents g) (hle : g * g ≤ n) :
    (raiseRound a guess).Meets 2 (Sum.elim
      (fun next => (∃ m : Nat, next.Represents m ∧ m * m ≤ n) ∧ n - value next.limbs < n - value guess.limbs)
      (Represents · (Nat.sqrt n))) := by
  unfold raiseRound
  refine Meets.bind (add_meets hguess Represents.one) ?_
  intro next hnext
  have hnext : next.Represents (g + 1 : Nat) := by exact_mod_cast hnext
  refine Meets.bind (mul_meets hnext hnext) ?_
  intro square hsquare
  have hsquare : square.Represents ((g + 1) * (g + 1) : Nat) := by exact_mod_cast hsquare
  have hcmp := cmpMag_nat hsquare ha
  split
  next hunder =>
    have hless : (g + 1) * (g + 1) ≤ n := by
      by_contra hlt
      have hpos := hcmp.2.mpr (Nat.not_le.mp hlt)
      omega
    refine Meets.pure ⟨⟨_, hnext, hless⟩, ?_⟩
    have hgn : g + 1 ≤ n := (Nat.le_mul_self (g + 1)).trans hless
    rw [hnext.natAbs, hguess.natAbs, Int.natAbs_natCast, Int.natAbs_natCast]
    omega
  next hover =>
  have hlt : n < (g + 1) * (g + 1) := hcmp.2.mp (by omega)
  have hroot : Nat.sqrt n = g := (Nat.eq_sqrt.mpr ⟨hle, hlt⟩).symm
  rw [hroot]
  exact Meets.pure hguess

/-! ## The first guess -/

theorem digitCount_spec (v : Nat) (hpos : 0 < v) : 0 < digitCount v ∧ 10 ^ digitCount v ≤ 10 * v := by
  induction v using Nat.strong_induction_on with
  | _ v ih =>
    rw [digitCount, if_neg hpos.ne']
    refine ⟨Nat.succ_pos _, ?_⟩
    rw [pow_succ, Nat.mul_comm]
    refine Nat.mul_le_mul_left 10 ?_
    rcases Nat.eq_zero_or_pos (v / 10) with hzero | hmore
    · rw [hzero, digitCount, if_pos rfl, pow_zero]
      exact hpos
    · have hless : v / 10 < v := Nat.div_lt_self hpos (by decide)
      calc 10 ^ digitCount (v / 10) ≤ 10 * (v / 10) := (ih _ hless hmore).2
        _ ≤ v := Nat.mul_div_le v 10

/-- The first guess is not far above the number. -/
theorem halfDigits_le (ha : a.Represents n) (hn : 0 < n) : 10 ^ a.halfDigits ≤ 10 * n := by
  have hvalue : value a.limbs = n := ha.natAbs.trans (Int.natAbs_natCast n)
  obtain ⟨low, top, hlimbs, htop⟩ := ha.normalized.split_top (by omega)
  obtain ⟨hpos, hdigits⟩ := digitCount_spec top htop
  have hall : Limbs (low ++ [top]) := hlimbs ▸ ha.normalized.limbs
  have hbound := hall.top_bounds.1
  rw [← hlimbs, hvalue] at hbound
  have hhalf : a.halfDigits = (low.length * 9 + digitCount top + 1) / 2 := by
    unfold halfDigits
    rw [hlimbs, List.getLast?_concat, List.length_append, List.length_singleton, Nat.add_sub_cancel]
    show (low.length * 9 + max (digitCount top) 1 + 1) / 2 = _
    rw [Nat.max_eq_left hpos]
  calc 10 ^ a.halfDigits ≤ 10 ^ (9 * low.length + digitCount top) := by
        refine Nat.pow_le_pow_right (by decide) ?_
        omega
    _ = limbBase ^ low.length * 10 ^ digitCount top := by
        rw [pow_add, pow_mul]
        rfl
    _ ≤ limbBase ^ low.length * (10 * top) := Nat.mul_le_mul_left _ hdigits
    _ = 10 * (top * limbBase ^ low.length) := by ring
    _ ≤ 10 * n := Nat.mul_le_mul_left 10 hbound

/-! ## The root -/

/-- **`isqrt` is the integer square root**, and its loops end. -/
theorem isqrt_meets {fuel : Nat} (ha : a.Represents n) (hfuel : 10 * n < fuel) :
    (isqrt fuel a).Meets 2 fun out => ∃ r, out = some r ∧ r.Represents (Nat.sqrt n) := by
  have hnegative : a.negative = false := by
    rw [ha.negative, decide_eq_false]
    omega
  have hzero := ha.isZero
  unfold isqrt
  split
  next hnone =>
    have hn : n = 0 := by
      rw [hnegative, hzero] at hnone
      simpa using hnone
    refine Meets.pure ⟨_, rfl, ?_⟩
    rw [hn, Nat.sqrt_zero]
    exact Represents.zero
  next hsome =>
  have hn : 0 < n := by
    rw [hnegative, hzero] at hsome
    have hne : ¬ n = 0 := by simpa using hsome
    omega
  split
  next hone =>
    have hn1 : n = 1 := (cmpMag_nat (m := 1) ha Represents.one).1.mp hone
    refine Meets.pure ⟨_, rfl, ?_⟩
    rw [hn1, Nat.sqrt_one]
    exact Represents.one
  next =>
  have hstart := halfDigits_le ha hn
  refine Meets.bind (shiftLeftDecimal_meets Represents.one a.halfDigits) ?_
  intro guess hguess
  rw [one_mul] at hguess
  have hguess : guess.Represents (10 ^ a.halfDigits : Nat) := by exact_mod_cast hguess
  have hnewton : (iterate (newtonRound a) fuel guess).Meets 2 fun out =>
      ∃ g, out = some g ∧ ∃ m : Nat, g.Represents m ∧ m < fuel := by
    refine Meets.iterate (fun g => (∃ m : Nat, g.Represents m ∧ 0 < m) ∧ value g.limbs < fuel)
      (fun g => value g.limbs) ?_ ⟨⟨_, hguess, Nat.pow_pos (by decide)⟩, ?_⟩ ?_
    · rintro g ⟨⟨m, hg, hm⟩, hless⟩
      refine (newtonRound_meets ha hn hg hm).mono ?_
      rw [hg.natAbs, Int.natAbs_natCast] at hless
      rintro (next | out) hround
      · obtain ⟨hnext, hdown⟩ := hround
        rw [hg.natAbs, Int.natAbs_natCast] at hdown
        exact ⟨⟨hnext, hdown.trans hless⟩, by rwa [hg.natAbs, Int.natAbs_natCast]⟩
      · obtain ⟨k, hout, hle⟩ := hround
        exact ⟨k, hout, hle.trans_lt hless⟩
    · rw [hguess.natAbs, Int.natAbs_natCast]
      omega
    · rw [hguess.natAbs, Int.natAbs_natCast]
      omega
  refine Meets.bind hnewton ?_
  rintro _ ⟨g, rfl, m, hg, hm⟩
  have hlower : (iterate (lowerRound a) fuel g).Meets 2 fun out =>
      ∃ g, out = some g ∧ ∃ m : Nat, g.Represents m ∧ m * m ≤ n := by
    refine Meets.iterate (fun g => ∃ m : Nat, g.Represents m) (fun g => value g.limbs) ?_ ⟨m, hg⟩ ?_
    · rintro g ⟨m, hg⟩
      exact lowerRound_meets ha hg
    · rw [hg.natAbs, Int.natAbs_natCast]
      exact hm
  refine Meets.bind hlower ?_
  rintro _ ⟨g, rfl, m, hg, hm⟩
  refine Meets.iterate (fun g => ∃ m : Nat, g.Represents m ∧ m * m ≤ n) (fun g => n - value g.limbs) ?_
    ⟨m, hg, hm⟩ ?_
  · rintro g ⟨m, hg, hm⟩
    exact raiseRound_meets ha hg hm
  · show n - value g.limbs < fuel
    omega

end BigInt

end SlateOS.Bignum
