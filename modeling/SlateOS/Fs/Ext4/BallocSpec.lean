/-
# SlateOS.Fs.Ext4.BallocSpec -- what setting a descriptor's count leaves alone

A count is kept in two halves, and a descriptor has one count for each kind: splitting and combining the
halves gives the count back, and setting the count of one kind leaves the other kind's and both bitmaps.
-/
import SlateOS.Fs.Ext4.Balloc

namespace SlateOS.Fs.Ext4

open Foundation.MachineInt Kernel

/-! ## Two halves of a number -/

/-- How large a number two halves can keep. -/
def halvesLimit (w : Nat) (wide : Bool) : Nat := if wide then 2 ^ (w + w) else 2 ^ w

/-- Splitting a number that fits and combining the halves gives it back. -/
theorem combine_split {w n : Nat} {wide : Bool} (hi : BitVec w) (h : n < halvesLimit w wide) :
    combine w wide (BitVec.ofNat w n).toNat
      (if wide then BitVec.ofNat w (n >>> w) else hi).toNat = n := by
  unfold halvesLimit at h
  unfold combine
  split at h
  · next hwide =>
      have hdiv : n / 2 ^ w < 2 ^ w := by
        rw [pow_add] at h
        exact Nat.div_lt_of_lt_mul h
      rw [if_pos hwide, if_pos hwide, BitVec.toNat_ofNat, BitVec.toNat_ofNat, Nat.shiftRight_eq_div_pow,
        Nat.mod_eq_of_lt hdiv, Nat.or_comm,
        ← Nat.shiftLeft_add_eq_or_of_lt (Nat.mod_lt n (Nat.two_pow_pos w)), Nat.shiftLeft_eq]
      exact Nat.div_add_mod' n (2 ^ w)
  · next hwide =>
      rw [if_neg hwide, BitVec.toNat_ofNat, Nat.mod_eq_of_lt h]

/-! ## Fields of a descriptor -/

namespace Kind

variable {kind kind' : Kind} {gd : Ext4GroupDesc} {is64bit : Bool} {n : Nat}

theorem descFree_setDescFree_of_ne (h : kind' ≠ kind) :
    kind'.descFree (kind.setDescFree gd is64bit n) is64bit = kind'.descFree gd is64bit := by
  cases kind <;> cases kind' <;> first | rfl | exact absurd rfl h

@[simp] theorem bitmapBlock_setDescFree :
    kind'.bitmapBlock (kind.setDescFree gd is64bit n) is64bit = kind'.bitmapBlock gd is64bit := by
  cases kind <;> cases kind' <;> rfl

@[simp] theorem bitmapBlock_setChecksum {descSize : Nat} {csum : BitVec 32} :
    kind'.bitmapBlock (kind.setChecksum gd descSize csum) is64bit = kind'.bitmapBlock gd is64bit := by
  cases kind <;> cases kind' <;> rfl

/-- What no change of a count touches. -/
theorem repeat_setDescFree_frame (kind : Kind) (gd : Ext4GroupDesc) (is64bit : Bool) (n : Nat)
    (step : Ext4GroupDesc → Ext4GroupDesc)
    (hstep : ∀ gd, ∃ n, step gd = kind.setDescFree gd is64bit n) :
    (∀ kind' : Kind,
      kind'.bitmapBlock (Nat.repeat step n gd) is64bit = kind'.bitmapBlock gd is64bit) ∧
    ∀ kind' : Kind, kind' ≠ kind →
      kind'.descFree (Nat.repeat step n gd) is64bit = kind'.descFree gd is64bit := by
  induction n with
  | zero => exact ⟨fun _ => rfl, fun _ _ => rfl⟩
  | succ n ih =>
    obtain ⟨m, hm⟩ := hstep (Nat.repeat step n gd)
    rw [Nat.repeat, hm]
    refine ⟨fun kind' => ?_, fun kind' hne => ?_⟩
    · rw [bitmapBlock_setDescFree, ih.1]
    · rw [descFree_setDescFree_of_ne hne, ih.2 kind' hne]

end Kind

end SlateOS.Fs.Ext4
