/-
# SlateOS.Fs.Ext4.Bitmap -- bitmaps of the block groups

`kernel/src/fs/ext4/balloc.rs`: testing, setting and clearing one bit of a bitmap block, and the two
searches for clear bits. Bit numbers are `u32`.
-/
import SlateOS.Foundation.BitScan
import SlateOS.Foundation.MachineInt
import SlateOS.Fs.Ext4.Io
import Mathlib.Order.Interval.Finset.Nat

namespace SlateOS.Fs.Ext4

open Foundation Foundation.MachineInt

/-- `bitmap_test`. -/
def bitmapTest (bitmap : List Byte) (bit : Nat) : Bool :=
  match bitmap[bit / 8]? with
  | some b => (b >>> (bit % 8)) &&& 1#8 != 0#8
  | none => false

/-- `bitmap_set`. -/
def bitmapSet (bitmap : List Byte) (bit : Nat) : List Byte :=
  bitmap.modify (bit / 8) fun b => b ||| 1#8 <<< (bit % 8)

/-- `bitmap_clear`. -/
def bitmapClear (bitmap : List Byte) (bit : Nat) : List Byte :=
  bitmap.modify (bit / 8) fun b => b &&& ~~~(1#8 <<< (bit % 8))

/-- `bitmap_find_free`. -/
def bitmapFindFree (bitmap : List Byte) (start maxBits : Nat) : Option Nat :=
  match (List.range' start (maxBits - start)).find? fun bit => !bitmapTest bitmap bit with
  | some bit => some bit
  | none => (List.range start).find? fun bit => !bitmapTest bitmap bit

/-- The inner loop of `bitmap_find_free_run`: how far the run of clear bits at `bit` reaches, with
`remaining` bits still to look at. -/
def freeRunLen (bitmap : List Byte) (maxBits bit : Nat) : Nat → Nat → Nat
  | 0, runLen => runLen
  | remaining + 1, runLen =>
    if saturatingAdd 32 bit runLen ≥ maxBits ∨ bitmapTest bitmap (saturatingAdd 32 bit runLen) then
      runLen
    else freeRunLen bitmap maxBits bit remaining (saturatingAdd 32 runLen 1)

/-- The outer loop of `bitmap_find_free_run`. -/
def findFreeRunLoop (bitmap : List Byte) (maxBits count : Nat) : Nat → Nat → Nat → Option Nat
  | 0, _, _ => none
  | fuel + 1, bit, scanned =>
    if scanned < maxBits then
      let bit := if bit ≥ maxBits then 0 else bit
      let runLen := freeRunLen bitmap maxBits bit count 0
      if runLen ≥ count then some bit
      else
        let advance := max (saturatingAdd 32 runLen 1) 1
        findFreeRunLoop bitmap maxBits count fuel (saturatingAdd 32 bit advance)
          (saturatingAdd 32 scanned advance)
    else none

/-- `bitmap_find_free_run`. Every round of the loop scans at least one bit, so `max_bits` rounds are all
it can take. -/
def bitmapFindFreeRun (bitmap : List Byte) (start maxBits count : Nat) : Option Nat :=
  if count = 0 then some start
  else if count = 1 then bitmapFindFree bitmap start maxBits
  else findFreeRunLoop bitmap maxBits count maxBits start 0

variable {bitmap : List Byte} {bit start maxBits count : Nat}

/-! ## The searches -/

/-- The bits the inner loop has walked over are clear and below the limit. -/
theorem freeRunLen_spec {remaining runLen : Nat} (hmax : maxBits < 2 ^ 32)
    (hrun : ∀ i, i < runLen → bit + i < maxBits ∧ bitmapTest bitmap (bit + i) = false) (hbit : bit < maxBits) :
    ∀ i, i < freeRunLen bitmap maxBits bit remaining runLen →
      bit + i < maxBits ∧ bitmapTest bitmap (bit + i) = false := by
  induction remaining generalizing runLen with
  | zero => exact hrun
  | succ remaining ih =>
    unfold freeRunLen
    split
    · exact hrun
    · next hgo =>
        push Not at hgo
        have hlt : bit + runLen < 2 ^ 32 := by
          -- the run has not left the limit, so nothing has saturated
          cases runLen with
          | zero => omega
          | succ n =>
            have hn := (hrun n (by omega)).1
            omega
        rw [saturatingAdd_of_lt hlt] at hgo
        refine ih fun i hi => ?_
        rw [saturatingAdd_of_lt (by omega)] at hi
        rcases Nat.lt_or_ge i runLen with hold | hnew
        · exact hrun i hold
        · obtain rfl : i = runLen := by omega
          exact ⟨hgo.1, by simpa using hgo.2⟩

theorem findFreeRunLoop_spec {fuel scanned : Nat} (hmax : maxBits < 2 ^ 32)
    (h : findFreeRunLoop bitmap maxBits count fuel start scanned = some bit) :
    ∀ i, i < count → bit + i < maxBits ∧ bitmapTest bitmap (bit + i) = false := by
  induction fuel generalizing start scanned with
  | zero => simp [findFreeRunLoop] at h
  | succ fuel ih =>
    unfold findFreeRunLoop at h
    by_cases hscan : scanned < maxBits
    · rw [if_pos hscan] at h
      have hb : (if start ≥ maxBits then 0 else start) < maxBits := by split <;> omega
      generalize (if start ≥ maxBits then 0 else start) = b at h hb
      simp only at h
      split at h
      · next hrun =>
          obtain rfl := Option.some.inj h
          have hclear : ∀ i, i < freeRunLen bitmap maxBits b count 0 →
              b + i < maxBits ∧ bitmapTest bitmap (b + i) = false :=
            freeRunLen_spec hmax (fun i hi => absurd hi (Nat.not_lt_zero i)) hb
          exact fun i hi => hclear i (by omega)
      · exact ih h
    · rw [if_neg hscan] at h
      exact absurd h (by simp)

/-- The second search finds a run of clear bits below the limit, when it looks for two or more. -/
theorem bitmapFindFreeRun_spec (hmax : maxBits < 2 ^ 32) (hcount : 2 ≤ count)
    (h : bitmapFindFreeRun bitmap start maxBits count = some bit) :
    ∀ i, i < count → bit + i < maxBits ∧ bitmapTest bitmap (bit + i) = false := by
  rw [bitmapFindFreeRun, if_neg (by omega), if_neg (by omega)] at h
  exact findFreeRunLoop_spec hmax h

end SlateOS.Fs.Ext4
