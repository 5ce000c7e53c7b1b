/-
# SlateOS.Foundation.MachineInt -- fixed-width unsigned arithmetic on `Nat`

Machine words are natural numbers below `2^w`. The operations here are the ones whose result leaves
the naturals' own arithmetic: saturating addition stops at the largest word, checked addition and
checked shift report overflow. Saturating subtraction is the naturals' truncated subtraction.
-/
import Mathlib.Tactic.Ring

namespace SlateOS.Foundation.MachineInt

/-- The largest word of width `w`. -/
def maxVal (w : Nat) : Nat := 2 ^ w - 1

/-- Addition that stops at the largest word. -/
def saturatingAdd (w a b : Nat) : Nat := min (a + b) (maxVal w)

/-- Multiplication that stops at the largest word. -/
def saturatingMul (w a b : Nat) : Nat := min (a * b) (maxVal w)

/-- Addition that reports a result outside the width. -/
def checkedAdd (w a b : Nat) : Option Nat := if a + b < 2 ^ w then some (a + b) else none

/-- Left shift that reports a shift amount outside the width; bits shifted out are lost. -/
def checkedShl (w a k : Nat) : Option Nat := if k < w then some ((a <<< k) % 2 ^ w) else none

/-- Addition modulo `2^w`. -/
def wrappingAdd (w a b : Nat) : Nat := (a + b) % 2 ^ w

theorem saturatingAdd_of_lt {w a b : Nat} (h : a + b < 2 ^ w) : saturatingAdd w a b = a + b := by
  rw [saturatingAdd, maxVal, Nat.min_eq_left (by omega)]

theorem saturatingAdd_le_add (w a b : Nat) : saturatingAdd w a b ≤ a + b := Nat.min_le_left _ _

theorem saturatingAdd_le_maxVal (w a b : Nat) : saturatingAdd w a b ≤ maxVal w :=
  Nat.min_le_right _ _

theorem checkedAdd_eq_some {w a b c : Nat} :
    checkedAdd w a b = some c ↔ a + b < 2 ^ w ∧ c = a + b := by
  unfold checkedAdd
  split <;> simp_all [eq_comm]

theorem checkedAdd_eq_none {w a b : Nat} : checkedAdd w a b = none ↔ 2 ^ w ≤ a + b := by
  unfold checkedAdd
  split <;> simp_all

theorem checkedAdd_of_lt {w a b : Nat} (h : a + b < 2 ^ w) : checkedAdd w a b = some (a + b) :=
  if_pos h

/-- Clearing the low bits of a word. -/
theorem and_sub_two_pow {w n x : Nat} (hx : x < 2 ^ w) (hn : n ≤ w) : x &&& (2 ^ w - 2 ^ n) = x / 2 ^ n * 2 ^ n := by
  have hpos := Nat.two_pow_pos n
  have hle : 2 ^ n ≤ 2 ^ w := Nat.pow_le_pow_right (by decide) hn
  have hmask : 2 ^ w - 2 ^ n = 2 ^ w - ((2 ^ n - 1) + 1) := by omega
  refine Nat.eq_of_testBit_eq fun i => ?_
  rw [Nat.testBit_and, hmask, Nat.testBit_two_pow_sub_succ (by omega), Nat.testBit_two_pow_sub_one,
    Nat.testBit_mul_two_pow, Nat.testBit_div_two_pow]
  by_cases hlow : i < n
  · simp [hlow, not_le.2 hlow]
  have hsum : i - n + n = i := by omega
  by_cases hi : i < w
  · simp [hlow, hi, not_lt.1 hlow]
  · have hbit : x.testBit i = false :=
      Nat.testBit_lt_two_pow (hx.trans_le (Nat.pow_le_pow_right (by decide) (not_lt.1 hi)))
    simp [hi, hsum, hbit]

end SlateOS.Foundation.MachineInt
