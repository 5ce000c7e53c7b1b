/-
# SlateOS.Foundation.Traced -- computations that record what they had to give up

A computation with machine integers that never fails, because its operations saturate or truncate instead,
still says whether one of them did: beside its value it carries whether every operation was exact, and the
most rounds that any of its inner loops took. `Meets` is the triple for it: all exact, within a number of
rounds, and the value as wanted.
-/
import Mathlib.Order.Lattice

namespace SlateOS.Foundation

universe u

/-- A value, whether every operation on the way to it was exact, and the most rounds of a loop. -/
structure Traced (α : Type u) where
  val : α
  exact : Bool
  rounds : Nat

namespace Traced

variable {α β : Type u}

/-- The value of one operation; `ok` is whether it is exact. -/
def op (ok : Bool) (a : α) : Traced α := ⟨a, ok, 0⟩

/-- A loop that took so many rounds. -/
def loop (n : Nat) (a : α) : Traced α := ⟨a, true, n⟩

instance : Monad Traced where
  pure a := ⟨a, true, 0⟩
  bind m f := ⟨(f m.val).val, m.exact && (f m.val).exact, max m.rounds (f m.val).rounds⟩

/-- All operations are exact, no loop takes more than `k` rounds, and the value has the property. -/
structure Meets (m : Traced α) (k : Nat) (P : α → Prop) : Prop where
  exact : m.exact = true
  rounds : m.rounds ≤ k
  val : P m.val

variable {m : Traced α} {f : α → Traced β} {k : Nat} {P P' : α → Prop} {Q : β → Prop}

theorem Meets.mono (h : m.Meets k P) (hP : ∀ a, P a → P' a) : m.Meets k P' :=
  ⟨h.exact, h.rounds, hP _ h.val⟩

theorem Meets.pure {a : α} (h : P a) : (pure a : Traced α).Meets k P := ⟨rfl, Nat.zero_le _, h⟩

theorem Meets.op {ok : Bool} {a : α} (hok : ok = true) (h : P a) : (op ok a).Meets k P :=
  ⟨hok, Nat.zero_le _, h⟩

theorem Meets.loop {n : Nat} {a : α} (hn : n ≤ k) (h : P a) : (loop n a).Meets k P := ⟨rfl, hn, h⟩

/-- **The rule of sequence.** -/
theorem Meets.bind (h : m.Meets k P) (hf : ∀ a, P a → (f a).Meets k Q) : (m >>= f).Meets k Q := by
  obtain ⟨hexact, hrounds, hval⟩ := h
  have hnext := hf m.val hval
  refine ⟨?_, ?_, hnext.val⟩
  · show (m.exact && (f m.val).exact) = true
    rw [hexact, hnext.exact]
    rfl
  · exact max_le hrounds hnext.rounds

/-! ## Loops -/

/-- A loop whose body goes on from a new state or ends with a value; `none` when `fuel` rounds do not end
it. -/
def iterate {σ : Type u} (body : σ → Traced (σ ⊕ α)) : Nat → σ → Traced (Option α)
  | 0, _ => return none
  | fuel + 1, s => do
    match ← body s with
    | .inl next => iterate body fuel next
    | .inr a => return some a

/-- **The rule of loops**: a body that keeps the invariant and lowers the measure, or ends with what is
wanted, ends for all fuel above the measure. -/
theorem Meets.iterate {σ : Type u} {body : σ → Traced (σ ⊕ α)} (Inv : σ → Prop) (measure : σ → Nat)
    (hbody : ∀ s, Inv s → (body s).Meets k (Sum.elim (fun next => Inv next ∧ measure next < measure s) P)) :
    ∀ {fuel : Nat} {s : σ}, Inv s → measure s < fuel →
      (Traced.iterate body fuel s).Meets k fun out => ∃ a, out = some a ∧ P a
  | 0, _, _, hfuel => absurd hfuel (Nat.not_lt_zero _)
  | fuel + 1, s, hs, hfuel => by
    unfold Traced.iterate
    refine Meets.bind (hbody s hs) ?_
    rintro (next | a) hround
    · obtain ⟨hnext, hless⟩ := hround
      exact Meets.iterate Inv measure hbody hnext (hless.trans_le (Nat.le_of_lt_succ hfuel))
    · exact Meets.pure ⟨a, rfl, hround⟩

end Traced

end SlateOS.Foundation
