/-
# SlateOS.Foundation.Lz77 -- sequences of literals and back-references

A sequence appends its literals and then copies, one element at a time, from a fixed distance back, so
that a copy may overlap what it is writing. A list of sequences expands to what they append in turn.
-/
import Mathlib.Data.List.Basic

namespace SlateOS.Foundation.Lz77

universe u

variable {α : Type u}

/-- Appends `n` elements, each the one `offset` places back. -/
def copyBack (offset : Nat) : Nat → List α → Option (List α)
  | 0, out => some out
  | n + 1, out => out[out.length - offset]?.bind fun b => copyBack offset n (out ++ [b])

/-- Literals, and the match behind them. -/
structure Sequence (α : Type u) where
  literals : List α
  offset : Nat
  length : Nat

/-- What a list of sequences makes of what is already there. -/
def expand : List (Sequence α) → List α → Option (List α)
  | [], out => some out
  | s :: rest, out => (copyBack s.offset s.length (out ++ s.literals)).bind (expand rest)

theorem length_of_copyBack {offset n : Nat} {out out' : List α}
    (h : copyBack offset n out = some out') : out'.length = out.length + n := by
  induction n generalizing out with
  | zero => rw [Option.some.inj h, Nat.add_zero]
  | succ n ih =>
    obtain ⟨b, _, hrest⟩ := Option.bind_eq_some_iff.1 h
    rw [ih hrest, List.length_append, List.length_singleton]
    omega

theorem length_le_of_expand {ss : List (Sequence α)} {out out' : List α}
    (h : expand ss out = some out') : out.length ≤ out'.length := by
  induction ss generalizing out with
  | nil => exact Nat.le_of_eq (congrArg List.length (Option.some.inj h))
  | cons s ss ih =>
    obtain ⟨mid, hmid, hrest⟩ := Option.bind_eq_some_iff.1 h
    have hlen := length_of_copyBack hmid
    rw [List.length_append] at hlen
    have hle := ih hrest
    omega

/-- Where the data repeats itself `offset` places back, copying back from a prefix extends it. -/
theorem copyBack_take {data : List α} {offset n p : Nat} (hpos : 0 < offset) (hle : offset ≤ p)
    (hlen : p + n ≤ data.length)
    (hrepeat : ∀ i, p ≤ i → i < p + n → data[i - offset]? = data[i]?) :
    copyBack offset n (data.take p) = some (data.take (p + n)) := by
  induction n generalizing p with
  | zero => rfl
  | succ n ih =>
    have hp : p < data.length := by omega
    have htake : (data.take p).length = p := List.length_take_of_le (by omega)
    have hread : (data.take p)[(data.take p).length - offset]? = some (data[p]) := by
      rw [htake, List.getElem?_take_of_lt (by omega), hrepeat p (Nat.le_refl p) (by omega),
        List.getElem?_eq_getElem hp]
    rw [copyBack, hread, Option.bind_some, List.take_append_getElem hp,
      ih (by omega) (by omega) fun i hi hi' => hrepeat i (by omega) (by omega)]
    congr 2
    omega

end SlateOS.Foundation.Lz77
