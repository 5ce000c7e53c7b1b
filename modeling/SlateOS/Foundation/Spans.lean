/-
# SlateOS.Foundation.Spans -- pieces that cut a range of numbers

A list of pieces, each with a first number and a length, tiles a range when the pieces are nonempty, the
first begins where the range does, each of the others where the one before it ends, and the last ends
with the range.
-/
import Mathlib.Data.List.Basic

namespace SlateOS.Foundation

variable {α : Type*} (start len : α → Nat)

/-- The pieces are nonempty and follow each other from `lo` to `hi`. -/
inductive Tiles : Nat → List α → Nat → Prop
  | nil (lo : Nat) : Tiles lo [] lo
  | cons {lo hi : Nat} {piece : α} {rest : List α} (begins : start piece = lo)
      (nonempty : 0 < len piece) (follow : Tiles (lo + len piece) rest hi) :
      Tiles lo (piece :: rest) hi

namespace Tiles

variable {start len} {lo hi : Nat} {pieces : List α} {piece : α}

theorem le (h : Tiles start len lo pieces hi) : lo ≤ hi := by
  induction h with
  | nil => exact Nat.le_refl _
  | cons _ _ _ ih => omega

/-- A piece lies in the range. -/
theorem bounds (h : Tiles start len lo pieces hi) (hmem : piece ∈ pieces) :
    lo ≤ start piece ∧ start piece + len piece ≤ hi := by
  induction h with
  | nil => cases hmem
  | cons hbegins hpos hfollow ih =>
    rcases List.mem_cons.1 hmem with rfl | hlater
    · have hle := hfollow.le
      exact ⟨by omega, by omega⟩
    · have hin := ih hlater
      exact ⟨by omega, hin.2⟩

end Tiles

end SlateOS.Foundation
