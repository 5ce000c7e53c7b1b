/-
# SlateOS.Cap.Rights -- rights words and resource types

`Rights` is a 64-bit word, one bit for each right; the operations are the bitwise ones of
`kernel/src/cap/rights.rs`. `Rights.has r i` reads bit `i`, and every operation is characterised by
the bits it has, so that proofs about rights are about sets of bits and never about words.
-/
import Mathlib.Data.Nat.Notation
import Mathlib.Logic.Basic

namespace SlateOS.Cap

/-- `Rights`. -/
structure Rights where
  bits : BitVec 64
  deriving DecidableEq, Repr

namespace Rights

/-- The right of bit `i` alone. -/
def bit (i : Nat) : Rights := ⟨1 <<< i⟩

def read : Rights := bit 0
def write : Rights := bit 1
def create : Rights := bit 3
def delete : Rights := bit 4
def metadata : Rights := bit 5
def duplicate : Rights := bit 7

/-- No right. -/
def none : Rights := ⟨0⟩

/-- Every bit, declared or not. -/
def all : Rights := ⟨BitVec.allOnes 64⟩

/-- `contains`: every right of `other` is in `self`. -/
def contains (self other : Rights) : Bool := self.bits &&& other.bits == other.bits

/-- `union`. -/
def union (self other : Rights) : Rights := ⟨self.bits ||| other.bits⟩

/-- `remove`: the rights of `self` that are not in `other`. -/
def remove (self other : Rights) : Rights := ⟨self.bits &&& ~~~other.bits⟩

/-- `is_empty`. -/
def isEmpty (self : Rights) : Bool := self.bits == 0

/-- `is_subset_of`. -/
def isSubsetOf (self other : Rights) : Bool := self.bits &&& ~~~other.bits == 0

/-! ## Rights as sets of bits -/

/-- Bit `i` is in the word. -/
def has (r : Rights) (i : Nat) : Bool := r.bits.getLsbD i

theorem ext_has {a b : Rights} (h : ∀ i, a.has i = b.has i) : a = b := by
  obtain ⟨a⟩ := a
  obtain ⟨b⟩ := b
  rw [Rights.mk.injEq]
  exact BitVec.eq_of_getLsbD_eq fun i _ => h i

@[simp] theorem has_union (a b : Rights) (i : Nat) : (a.union b).has i = (a.has i || b.has i) :=
  BitVec.getLsbD_or

@[simp] theorem has_remove (a b : Rights) (i : Nat) :
    (a.remove b).has i = (a.has i && !b.has i) := by
  by_cases hi : i < 64
  · simp [has, remove, hi]
  · simp [has, remove, BitVec.getLsbD_of_ge _ _ (Nat.le_of_not_lt hi)]

@[simp] theorem has_none (i : Nat) : none.has i = false := by
  simp [has, none]

theorem contains_iff {a b : Rights} : a.contains b = true ↔ ∀ i, b.has i = true → a.has i = true := by
  unfold contains
  rw [beq_iff_eq]
  constructor
  · intro h i hi
    have hand : (a.bits &&& b.bits).getLsbD i = true := by
      rw [h]
      exact hi
    rw [BitVec.getLsbD_and, Bool.and_eq_true] at hand
    exact hand.1
  · intro h
    refine BitVec.eq_of_getLsbD_eq fun i _ => ?_
    rw [BitVec.getLsbD_and]
    have hi := h i
    unfold has at hi
    cases hb : b.bits.getLsbD i with
    | false => exact Bool.and_false _
    | true => rw [hi hb, Bool.and_true]

theorem isEmpty_iff {a : Rights} : a.isEmpty = true ↔ a = none := by
  obtain ⟨a⟩ := a
  simp [isEmpty, none]

theorem isSubsetOf_iff {a b : Rights} :
    a.isSubsetOf b = true ↔ ∀ i, a.has i = true → b.has i = true := by
  have hempty : a.isSubsetOf b = (a.remove b).isEmpty := rfl
  rw [hempty, isEmpty_iff]
  constructor
  · intro h i hi
    have hr : (a.remove b).has i = false := by
      rw [h, has_none]
    rw [has_remove, hi, Bool.true_and, Bool.not_eq_false'] at hr
    exact hr
  · intro h
    refine ext_has fun i => ?_
    rw [has_remove, has_none]
    cases ha : a.has i with
    | false => rfl
    | true => simp [h i ha]

theorem contains_refl (a : Rights) : a.contains a = true := contains_iff.mpr fun _ hi => hi

theorem contains_trans {a b c : Rights} (hab : a.contains b = true) (hbc : b.contains c = true) :
    a.contains c = true :=
  contains_iff.mpr fun i hi => contains_iff.mp hab i (contains_iff.mp hbc i hi)

end Rights

/-- `ResourceType`, with the numbers the kernel gives them (17 is unused). -/
inductive ResourceType
  | channel | pipe | sharedMemory | eventFd | completionPort | process | thread | portIo
  | deviceIrq | file | socket | timer | ioScheduler | service | nameSpace | streamSocket | epoll
  | signalFd | timerfd | inotify | alsaPcm | drm | netRaw | netSocket | pty | systemClock
  | privilegedPort | resourceLimit | inputDevice | blockDevice | semaphore | unixSocket
  | nativeSocket | capBroker | pciDevice | fileTree
  deriving DecidableEq, Repr

/-- `ResourceType::LAST`: the largest number in use, `FileTree`'s. -/
def ResourceType.last : Nat := 37

end SlateOS.Cap
