/-
# SlateOS.Foundation.RingBuffer -- a queue laid out around a circular buffer

The buffer is a list; `window` is what stands from a position on, going around the end, and `overwrite`
replaces it. Both are what the usual two-chunk copies compute.
-/
import Mathlib.Data.List.Rotate

namespace SlateOS.Foundation.RingBuffer

variable {α : Type*} {buf data : List α}

/-- `count` items from `start` on, around the end of the buffer. -/
def window (buf : List α) (start count : Nat) : List α := (buf.rotate start).take count

theorem length_window (buf : List α) (start count : Nat) :
    (window buf start count).length = min count buf.length := by
  rw [window, List.length_take, List.length_rotate]

@[simp] theorem window_zero (buf : List α) (start : Nat) : window buf start 0 = [] := by
  rw [window, List.take_zero]

theorem window_mod (buf : List α) (start count : Nat) :
    window buf (start % buf.length) count = window buf start count := by
  rw [window, window, List.rotate_mod]

/-- The two chunks a reader copies out. -/
theorem chunks_eq_window {start count : Nat} (hstart : start ≤ buf.length)
    (hcount : count ≤ buf.length) :
    (buf.drop start).take (min count (buf.length - start)) ++
      buf.take (count - min count (buf.length - start)) = window buf start count := by
  have hlen : (buf.drop start).length = buf.length - start := List.length_drop
  rw [window, List.rotate_eq_drop_append_take hstart, List.take_append, hlen, List.take_take]
  have hfirst : (buf.drop start).take (min count (buf.length - start)) = (buf.drop start).take count := by
    rw [← hlen, List.take_eq_take_iff]
    omega
  rw [hfirst]
  congr 2
  omega

/-- A window splits where one likes. -/
theorem window_add {start a b : Nat} (h : a + b ≤ buf.length) :
    window buf start (a + b) = window buf start a ++ window buf (start + a) b := by
  have hlen : a ≤ (buf.rotate start).length := by
    rw [List.length_rotate]
    omega
  rw [window, window, window, List.take_add, ← List.rotate_rotate,
    List.rotate_eq_drop_append_take hlen]
  congr 1
  rw [List.take_append_of_le_length]
  rw [List.length_drop, List.length_rotate]
  omega

/-- `buf[pos..pos + src.len()].copy_from_slice(src)`. -/
def copyInto (buf : List α) (pos : Nat) (src : List α) : List α :=
  buf.take pos ++ src ++ buf.drop (pos + src.length)

theorem length_copyInto {pos : Nat} {src : List α} (h : pos + src.length ≤ buf.length) :
    (copyInto buf pos src).length = buf.length := by
  simp [copyInto]
  omega

theorem take_copyInto {pos n : Nat} {src : List α} (hpos : pos ≤ buf.length)
    (hn : n = pos + src.length) : (copyInto buf pos src).take n = buf.take pos ++ src := by
  rw [copyInto, List.take_left']
  rw [List.length_append, List.length_take, Nat.min_eq_left hpos, hn]

/-- The two chunks a writer copies in. -/
def overwrite (buf : List α) (pos : Nat) (data : List α) : List α :=
  let first := min data.length (buf.length - pos)
  let buf := copyInto buf pos (data.take first)
  if data.length - first > 0 then copyInto buf 0 (data.drop first) else buf

theorem rotate_append_of_length {xs ys : List α} {n : Nat} (h : xs.length = n) :
    (xs ++ ys).rotate n = ys ++ xs := by
  subst h
  exact List.rotate_append_length_eq xs ys

/-- Seen from `pos`, the data stands first and the rest is as it was. -/
theorem rotate_overwrite {pos : Nat} (hpos : pos ≤ buf.length) (hdata : data.length ≤ buf.length) :
    (overwrite buf pos data).rotate pos = data ++ (buf.rotate pos).drop data.length := by
  have hrotate : buf.rotate pos = buf.drop pos ++ buf.take pos := List.rotate_eq_drop_append_take hpos
  have htake : (buf.take pos).length = pos := by
    rw [List.length_take]
    omega
  by_cases hwrap : data.length ≤ buf.length - pos
  · -- one chunk
    have hone : overwrite buf pos data = buf.take pos ++ (data ++ buf.drop (pos + data.length)) := by
      simp [overwrite, Nat.min_eq_left hwrap, copyInto]
    rw [hone, hrotate, rotate_append_of_length htake, List.append_assoc, List.drop_append_of_le_length, List.drop_drop]
    rw [List.length_drop]
    exact hwrap
  · -- two chunks: the second one ends before `pos`
    have hsecond : data.length - (buf.length - pos) ≤ pos := by omega
    have hfirst : min data.length (buf.length - pos) = buf.length - pos := by omega
    have htwo : overwrite buf pos data =
        (data.drop (buf.length - pos) ++ (buf.take pos).drop (data.length - (buf.length - pos))) ++
          data.take (buf.length - pos) := by
      have hnil : buf.drop (pos + min (buf.length - pos) data.length) = [] := by
        rw [List.drop_eq_nil_iff]
        omega
      have hpositive : data.length - (buf.length - pos) > 0 := by omega
      unfold overwrite
      simp only [hfirst, if_pos hpositive, copyInto, List.length_take, List.length_drop, hnil,
        List.append_nil, List.take_zero, List.nil_append, Nat.zero_add]
      rw [List.drop_append_of_le_length (by omega), List.append_assoc]
    have hlen : (data.drop (buf.length - pos) ++
        (buf.take pos).drop (data.length - (buf.length - pos))).length = pos := by
      rw [List.length_append, List.length_drop, List.length_drop, htake]
      omega
    have hnil : (buf.drop pos).drop data.length = [] := by
      rw [List.drop_drop, List.drop_eq_nil_iff]
      omega
    rw [htwo, hrotate, rotate_append_of_length hlen, ← List.append_assoc, List.take_append_drop,
      List.drop_append, List.length_drop, hnil, List.nil_append]

theorem length_overwrite {pos : Nat} (hpos : pos ≤ buf.length) (hdata : data.length ≤ buf.length) :
    (overwrite buf pos data).length = buf.length := by
  have h := congrArg List.length (rotate_overwrite hpos hdata)
  rw [List.length_rotate, List.length_append, List.length_drop, List.length_rotate] at h
  omega

/-- Data copied in behind a window extends it. -/
theorem window_overwrite {head len : Nat} (hfit : len + data.length ≤ buf.length)
    (hpos : 0 < buf.length) :
    window (overwrite buf ((head + len) % buf.length) data) head (len + data.length) =
      window buf head len ++ data := by
  have hmod : (head + len) % buf.length ≤ buf.length := Nat.le_of_lt (Nat.mod_lt _ hpos)
  have hdata : data.length ≤ buf.length := by omega
  have hlen := length_overwrite hmod hdata
  have hrot := rotate_overwrite hmod hdata
  generalize overwrite buf ((head + len) % buf.length) data = buf' at hlen hrot ⊢
  rw [List.rotate_mod] at hrot
  conv_lhs at hrot => rw [← hlen, List.rotate_mod]
  have hsplit : ∀ l : List α, len ≤ l.length →
      l.rotate (head + len) = (l.rotate head).drop len ++ (l.rotate head).take len := by
    intro l hl
    rw [← List.rotate_rotate, List.rotate_eq_drop_append_take]
    rw [List.length_rotate]
    exact hl
  have hrest : data.length ≤ ((buf.rotate head).drop len).length := by
    rw [List.length_drop, List.length_rotate]
    omega
  rw [hsplit buf' (by omega), hsplit buf (by omega), List.drop_append_of_le_length hrest,
    ← List.append_assoc] at hrot
  obtain ⟨hdrop, htake⟩ := List.append_inj' hrot (by
    rw [List.length_take, List.length_take, List.length_rotate, List.length_rotate, hlen])
  rw [window, List.take_add, hdrop, htake, List.take_left' rfl, window]

end SlateOS.Foundation.RingBuffer
