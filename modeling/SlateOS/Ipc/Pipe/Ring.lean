/-
# SlateOS.Ipc.Pipe.Ring -- the ring buffer of a pipe is a byte queue

`contents` is what the buffer holds, oldest byte first. Writing appends to it, reading takes from its
front, peeking copies from it, and a change of capacity leaves it alone.
-/
import SlateOS.Ipc.Pipe.Model

namespace SlateOS.Ipc.Pipe

open Foundation.RingBuffer Kernel

variable {p : Pipe}

/-- The buffered bytes, oldest first. -/
def contents (p : Pipe) : List UInt8 := window p.buf p.head p.len

/-- The indices are inside the buffer. -/
structure Ring (p : Pipe) : Prop where
  len_le : p.len ≤ p.buf.length
  head_lt : 0 < p.buf.length → p.head < p.buf.length

theorem ring_new (capacity : Nat) : (Pipe.new capacity).Ring where
  len_le := Nat.zero_le _
  head_lt h := h

theorem contents_new (capacity : Nat) : (Pipe.new capacity).contents = [] := window_zero _ _

theorem chunks_eq {start count : Nat} (hstart : start ≤ p.buf.length) (hcount : count ≤ p.buf.length) :
    p.chunks start count = window p.buf start count := by
  rw [← chunks_eq_window hstart hcount]
  unfold chunks
  simp only
  split
  · rfl
  · rename_i hnone
    have hzero : count - min count (p.buf.length - start) = 0 := by omega
    rw [hzero, List.take_zero]

/-! ## Writing -/

/-- `write_bytes` appends what there is room for. -/
theorem Ring.writeBytes (h : p.Ring) (data : List UInt8) :
    (p.writeBytes data).2.Ring ∧ (p.writeBytes data).1 = min data.length p.writable ∧
      (p.writeBytes data).2.contents = p.contents ++ data.take (p.writeBytes data).1 ∧
      (p.writeBytes data).2.buf.length = p.buf.length := by
  have hlen := h.len_le
  unfold Pipe.writeBytes
  simp only
  split
  · rename_i hzero
    refine ⟨h, hzero.symm, ?_, rfl⟩
    rw [List.take_zero, List.append_nil]
  · rename_i hsome
    have hwritable : p.writable = p.buf.length - p.len := rfl
    have hpos : 0 < p.buf.length := by omega
    have hmod : (p.head + p.len) % p.buf.length ≤ p.buf.length := Nat.le_of_lt (Nat.mod_lt _ hpos)
    have htaken : (data.take (min data.length p.writable)).length = min data.length p.writable := by
      rw [List.length_take]
      omega
    -- the two chunks of the source are those of an overwrite with the part that fits
    have hbuf : (if min data.length p.writable -
          min (min data.length p.writable) (p.buf.length - (p.head + p.len) % p.buf.length) > 0 then
        copyInto (copyInto p.buf ((p.head + p.len) % p.buf.length)
            (data.take (min (min data.length p.writable)
              (p.buf.length - (p.head + p.len) % p.buf.length)))) 0
          ((data.drop (min (min data.length p.writable)
              (p.buf.length - (p.head + p.len) % p.buf.length))).take
            (min data.length p.writable - min (min data.length p.writable)
              (p.buf.length - (p.head + p.len) % p.buf.length)))
      else copyInto p.buf ((p.head + p.len) % p.buf.length)
        (data.take (min (min data.length p.writable)
          (p.buf.length - (p.head + p.len) % p.buf.length)))) =
        overwrite p.buf ((p.head + p.len) % p.buf.length)
          (data.take (min data.length p.writable)) := by
      unfold overwrite
      simp only [htaken]
      rw [List.take_take, List.drop_take, Nat.min_eq_left (Nat.min_le_left _ _)]
    rw [hbuf]
    have hover := @length_overwrite _ _ (data.take (min data.length p.writable)) _ hmod (by omega)
    have hwindow := @window_overwrite _ p.buf (data.take (min data.length p.writable)) p.head p.len
      (by omega) hpos
    rw [htaken] at hwindow
    refine ⟨⟨?_, fun _ => ?_⟩, rfl, hwindow, hover⟩
    · show p.len + min data.length p.writable ≤ (overwrite _ _ _).length
      omega
    · show p.head < (overwrite _ _ _).length
      rw [hover]
      exact h.head_lt hpos

/-! ## Reading -/

/-- `read_bytes` takes from the front. -/
theorem Ring.readBytes (h : p.Ring) (room : Nat) :
    (p.readBytes room).2.Ring ∧ (p.readBytes room).1.length = min room p.len ∧
      p.contents = (p.readBytes room).1 ++ (p.readBytes room).2.contents ∧
      (p.readBytes room).2.buf = p.buf := by
  have hlen := h.len_le
  unfold Pipe.readBytes
  simp only
  split
  · rename_i hzero
    exact ⟨h, hzero.symm, rfl, rfl⟩
  · rename_i hsome
    have hpos : 0 < p.buf.length := by omega
    have hhead := h.head_lt hpos
    rw [chunks_eq (Nat.le_of_lt hhead) (by omega)]
    refine ⟨⟨?_, fun _ => ?_⟩, ?_, ?_, rfl⟩
    · show p.len - min room p.len ≤ p.buf.length
      omega
    · exact Nat.mod_lt _ hpos
    · rw [length_window]
      omega
    · show window p.buf p.head p.len = window p.buf p.head (min room p.len) ++
        window p.buf ((p.head + min room p.len) % p.buf.length) (p.len - min room p.len)
      rw [window_mod, ← window_add (by omega)]
      congr 1
      omega

/-- In the new buffer the contents stand at the front. -/
theorem relocated_spec (h : p.Ring) {newCap : Nat} (hfit : p.len ≤ newCap) :
    (relocated p newCap).length = newCap ∧ (relocated p newCap).take p.len = p.contents := by
  have hlen := h.len_le
  unfold relocated
  split
  · rename_i hsome
    have hhead := h.head_lt (by omega)
    have hchunks := chunks_eq_window (Nat.le_of_lt hhead) hlen
    have hfirst : ((p.buf.drop p.head).take (min p.len (p.buf.length - p.head))).length =
        min p.len (p.buf.length - p.head) := by
      rw [List.length_take, List.length_drop]
      omega
    have hone := @take_copyInto _ (List.replicate newCap (0 : UInt8)) _ _ _ (Nat.zero_le _)
      (hfirst.symm.trans (Nat.zero_add _).symm)
    have hlenOne : (copyInto (List.replicate newCap (0 : UInt8)) 0
        ((p.buf.drop p.head).take (min p.len (p.buf.length - p.head)))).length = newCap := by
      rw [length_copyInto, List.length_replicate]
      rw [hfirst, List.length_replicate]
      omega
    rw [List.take_zero, List.nil_append] at hone
    simp only
    split
    · -- the second chunk follows the first
      rename_i hsecond
      have hsecondLen : (p.buf.take (p.len - min p.len (p.buf.length - p.head))).length =
          p.len - min p.len (p.buf.length - p.head) := by
        rw [List.length_take]
        omega
      constructor
      · rw [length_copyInto, hlenOne]
        rw [hsecondLen, hlenOne]
        omega
      · rw [take_copyInto, hone, hchunks]
        · rfl
        · rw [hlenOne]
          omega
        · rw [hsecondLen]
          omega
    · rename_i hnone
      have hall : min p.len (p.buf.length - p.head) = p.len := by omega
      refine ⟨hlenOne, ?_⟩
      rw [hall] at hone hchunks ⊢
      rw [hone, contents, ← hchunks, Nat.sub_self, List.take_zero, List.append_nil]
  · rename_i hempty
    have hzero : p.len = 0 := by omega
    refine ⟨List.length_replicate, ?_⟩
    rw [contents, hzero, List.take_zero, window_zero]

/-- `set_capacity` refuses, or leaves the contents as they are. -/
theorem Ring.setCapacity (h : p.Ring) (newCap : Nat) :
    (p.setCapacity newCap).2.Ring ∧ (p.setCapacity newCap).2.contents = p.contents ∧
      ((p.setCapacity newCap).1 = .ok newCap ∧ (p.setCapacity newCap).2.buf.length = newCap ∨
        ∃ e, p.setCapacity newCap = (.error e, p)) := by
  have hlen := h.len_le
  unfold Pipe.setCapacity
  split
  · exact ⟨h, rfl, .inr ⟨_, rfl⟩⟩
  · rename_i hfit
    have hfits : p.len ≤ newCap := Nat.not_lt.1 hfit
    obtain ⟨hcap, htake⟩ := relocated_spec h hfits
    refine ⟨⟨?_, fun hpos => hpos⟩, ?_, .inl ⟨rfl, hcap⟩⟩
    · show p.len ≤ (relocated p newCap).length
      omega
    · show window (relocated p newCap) 0 p.len = p.contents
      rw [window, List.rotate_zero, htake]

end SlateOS.Ipc.Pipe
