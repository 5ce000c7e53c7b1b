/-
# SlateOS.Mm.Swap.Slots -- swap areas, their slots and what the slots hold

`kernel/src/mm/swap.rs`: areas are asked in order of priority, each gives out its first free slot from the word
it looked at last, and the compressed tier refuses a page that does not shrink to half a frame. A slot counts
the page-table entries that name it, and is freed with the last.
-/
import SlateOS.Mm.CompressRoundTrip
import SlateOS.Mm.Swap.Entry
import Mathlib.Data.List.OfFn

namespace SlateOS.Mm.Swap

open Mm.Compress
open Function (update)

/-! ## Pages and their encodings -/

/-- The bytes of a 4 KiB part of a frame. -/
abbrev Part := Fin 4096 → BitVec 8

/-- The bytes of a frame. -/
abbrev Frame := Fin 4 → Part

def frameSize : Nat := 16384

def maxStored : Nat := frameSize / 2

/-- A compressor of frames that loses nothing. -/
structure Codec where
  compress : Frame → Option (List Byte)
  decompress : List Byte → Option Frame
  roundTrip : ∀ f c, compress f = some c → decompress c = some f
  zeroPage : decompress [zeroPageMarker] = some fun _ _ => 0#8

/-- A frame as its bytes in order. -/
def frameBytes (f : Frame) : List Byte :=
  List.ofFn fun k : Fin 16384 => f ⟨k.val / 4096, by omega⟩ ⟨k.val % 4096, by omega⟩

/-- And back. -/
def bytesFrame (bytes : List Byte) : Frame := fun i j => bytes.getD (4096 * i.val + j.val) 0#8

theorem length_frameBytes (f : Frame) : (frameBytes f).length = 16384 := List.length_ofFn

theorem bytesFrame_frameBytes (f : Frame) : bytesFrame (frameBytes f) = f := by
  funext i j
  have hlt : 4096 * i.val + j.val < 16384 := by omega
  have hi : (4096 * i.val + j.val) / 4096 = i.val := by omega
  have hj : (4096 * i.val + j.val) % 4096 = j.val := by omega
  have hlen : 4096 * i.val + j.val < (frameBytes f).length := by
    rw [length_frameBytes]
    exact hlt
  have hget : (frameBytes f)[4096 * i.val + j.val] = f i j := by
    simp only [frameBytes, List.getElem_ofFn, hi, hj]
  rw [bytesFrame, List.getD_eq_getElem _ _ hlen, hget]

/-- `compress_into` and `decompress_into`, in the buffers of `PageScratch`. -/
def kernelCodec : Codec where
  compress f :=
    (compressInto (frameBytes f) (List.replicate frameSize 0#8) (List.replicate hashTableSize 0#32)).map
      fun r => r.2.take r.1
  decompress c := (decompressInto c (List.replicate frameSize 0#8)).toOption.map bytesFrame
  roundTrip f c h := by
    obtain ⟨⟨n, output⟩, hcomp, rfl⟩ := Option.map_eq_some_iff.mp h
    have hlong : frameBytes f ≠ [0] := by
      intro heq
      have hlen := length_frameBytes f
      rw [heq] at hlen
      cases hlen
    have hbuf : (List.replicate frameSize 0#8).length = (frameBytes f).length := by
      rw [List.length_replicate, length_frameBytes, frameSize]
    have hround := ((compressed_iff _ _ _).mpr (fun hz => hlong hz.1) n output hcomp).roundTrip _ hbuf
    rw [hround]
    exact congrArg some (bytesFrame_frameBytes f)
  zeroPage := by
    rw [decompressInto, if_neg (by simp), if_pos rfl]
    refine congrArg some (funext fun i => funext fun j => ?_)
    rw [bytesFrame, List.map_replicate, List.getD_eq_getElem?_getD, List.getElem?_replicate]
    split <;> rfl

/-- What a slot holds: of the compressed tier `SlotData`, of a disk area what its `meta` says was written. -/
inductive SlotData
  | zero
  | compressed (bytes : List Byte)
  | raw (frame : Frame)

/-- `SwapBackend`. -/
inductive Backend
  | memory
  | disk

/-- What asking a backend to keep a page comes to. -/
inductive Written
  | kept (data : SlotData)
  | refused
  | outOfMemory
  | failed

namespace Backend

/-- `write`: `able` says that the bytes could be allocated, or that the device took them. -/
def write (codec : Codec) (able : Bool) (f : Frame) : Backend → Written
  | memory =>
    match codec.compress f with
    | some c =>
      if c.length ≤ maxStored then
        if c = [zeroPageMarker] then .kept .zero
        else if able then .kept (.compressed c)
        else .outOfMemory
      else .refused
    | none => .refused
  | disk =>
    if able then
      match codec.compress f with
      | some c => if 0 < c.length then .kept (.compressed c) else .kept (.raw f)
      | none => .kept (.raw f)
    else .failed

end Backend

/-- `read`. -/
def SlotData.read (codec : Codec) : SlotData → Option Frame
  | zero => some fun _ _ => 0#8
  | compressed bytes => codec.decompress bytes
  | raw f => some f

/-- What is kept is what was written. -/
theorem Backend.read_of_write {codec : Codec} {able : Bool} {f : Frame} {b : Backend} {data : SlotData}
    (h : b.write codec able f = .kept data) : data.read codec = some f := by
  cases b with
  | memory =>
    cases hc : codec.compress f with
    | none => simp [write, hc] at h
    | some c =>
      have hround := codec.roundTrip f c hc
      simp only [write, hc] at h
      by_cases hlen : c.length ≤ maxStored
      · rw [if_pos hlen] at h
        by_cases hzero : c = [zeroPageMarker]
        · rw [if_pos hzero] at h
          rw [hzero, codec.zeroPage] at hround
          cases h
          exact hround
        · rw [if_neg hzero] at h
          cases able with
          | false => simp at h
          | true =>
            rw [if_pos rfl] at h
            cases h
            exact hround
      · rw [if_neg hlen] at h
        cases h
  | disk =>
    cases able with
    | false => simp [write] at h
    | true =>
      cases hc : codec.compress f with
      | none =>
        simp only [write, hc, if_true] at h
        cases h
        rfl
      | some c =>
        simp only [write, hc, if_true] at h
        by_cases hlen : 0 < c.length
        · rw [if_pos hlen] at h
          cases h
          exact codec.roundTrip f c hc
        · rw [if_neg hlen] at h
          cases h
          rfl

/-! ## Areas -/

/-- A `SwapDevice`, less what changes as slots are given out. -/
structure SwapDevice where
  backend : Backend
  baseSlot : Nat
  capacity : Nat
  draining : Bool

/-- The areas in order of priority: no two meet, and `find_gap` keeps them below the last slot. -/
structure Areas where
  devices : List SwapDevice
  disjoint : devices.Pairwise fun d e => d.baseSlot + d.capacity ≤ e.baseSlot ∨ e.baseSlot + e.capacity ≤ d.baseSlot
  bounded : ∀ d ∈ devices, d.baseSlot + d.capacity ≤ maxSwapSlots
  /-- A disk area's header, and its bad pages. -/
  reserved : Nat → Bool
  codec : Codec

/-- The slots of all areas by their global number: the bitmaps, each area's hint, `part_refs` and what is kept. -/
structure SwapState where
  used : Nat → Bool
  hint : Nat → Nat
  partRefs : Nat → Nat
  data : Nat → Option SlotData

namespace SwapDevice

/-- The slots of an area in the order in which `alloc` looks at them. -/
def scanOrder (d : SwapDevice) (hint : Nat) : List Nat :=
  (List.range ((d.capacity + 63) / 64)).flatMap fun pass =>
    (List.range 64).map fun bit => 64 * ((hint + pass) % ((d.capacity + 63) / 64)) + bit

/-- `alloc`: the local number of the first free slot. -/
def alloc (d : SwapDevice) (used : Nat → Bool) (hint : Nat) : Option Nat :=
  (d.scanOrder hint).find? fun slot => decide (slot < d.capacity) && !used (d.baseSlot + slot)

theorem alloc_spec {d : SwapDevice} {used : Nat → Bool} {hint slot : Nat} (h : d.alloc used hint = some slot) :
    slot < d.capacity ∧ used (d.baseSlot + slot) = false := by
  have := List.find?_some h
  rwa [Bool.and_eq_true, decide_eq_true_eq, Bool.not_eq_true'] at this

end SwapDevice

/-- The loop of `store_page` over the areas from the `i`-th on: the slot with what is kept there, and the hints.
A slot that was given out and not written is free again. -/
def storeIn (codec : Codec) (used : Nat → Bool) (f : Frame) (able : Nat → Bool) :
    Nat → List SwapDevice → (Nat → Nat) → Option (Nat × SlotData) × (Nat → Nat)
  | _, [], hint => (none, hint)
  | i, d :: rest, hint =>
    if d.draining then storeIn codec used f able (i + 1) rest hint
    else
      match d.alloc used (hint i) with
      | none => storeIn codec used f able (i + 1) rest hint
      | some slot =>
        let hint := update hint i (slot / 64)
        match d.backend.write codec (able i) f with
        | .kept data => (some (d.baseSlot + slot, data), hint)
        | .refused | .outOfMemory => storeIn codec used f able (i + 1) rest hint
        | .failed => (none, hint)

/-- A page goes to a free slot of one of the areas, and can be read from there. -/
theorem storeIn_spec {codec : Codec} {used : Nat → Bool} {f : Frame} {able : Nat → Bool} {i : Nat}
    {devices : List SwapDevice} {hint hint' : Nat → Nat} {slot : Nat} {data : SlotData}
    (h : storeIn codec used f able i devices hint = (some (slot, data), hint')) :
    used slot = false ∧ data.read codec = some f ∧
      ∃ d ∈ devices, d.baseSlot ≤ slot ∧ slot < d.baseSlot + d.capacity := by
  induction devices generalizing i hint with
  | nil => cases h
  | cons d rest ih =>
    have hrest : ∀ hint₀, storeIn codec used f able (i + 1) rest hint₀ = (some (slot, data), hint') →
        used slot = false ∧ data.read codec = some f ∧
          ∃ e ∈ d :: rest, e.baseSlot ≤ slot ∧ slot < e.baseSlot + e.capacity := by
      intro hint₀ h₀
      obtain ⟨hused, hread, e, he, hin⟩ := ih h₀
      exact ⟨hused, hread, e, List.mem_cons_of_mem d he, hin⟩
    unfold storeIn at h
    split at h
    · exact hrest _ h
    · cases halloc : d.alloc used (hint i) with
      | none =>
        rw [halloc] at h
        exact hrest _ h
      | some local' =>
        rw [halloc] at h
        obtain ⟨hlt, hfree⟩ := SwapDevice.alloc_spec halloc
        dsimp only at h
        cases hwrite : d.backend.write codec (able i) f with
        | kept kept =>
          rw [hwrite] at h
          obtain ⟨rfl, rfl⟩ := Prod.mk.inj (Option.some.inj (Prod.mk.inj h).1)
          exact ⟨hfree, Backend.read_of_write hwrite, d, List.mem_cons_self, by omega, by omega⟩
        | refused | outOfMemory =>
          rw [hwrite] at h
          exact hrest _ h
        | failed =>
          rw [hwrite] at h
          cases (Prod.mk.inj h).1

namespace SwapState

/-- `store_page`, and the counting of the entries to come in `swap_out_page`. -/
def storePage (areas : Areas) (st : SwapState) (f : Frame) (able : Nat → Bool) : Option Nat × SwapState :=
  match storeIn areas.codec st.used f able 0 areas.devices st.hint with
  | (none, hint) => (none, { st with hint })
  | (some (slot, data), hint) =>
    (some slot,
      { used := update st.used slot true
        hint
        partRefs := update st.partRefs slot 4
        data := update st.data slot (some data) })

/-- `read_slot`. -/
def readSlot (areas : Areas) (st : SwapState) (slot : Nat) : Option Frame :=
  (st.data slot).bind (SlotData.read areas.codec)

/-- `find_device`: the area, and the slot's local number. -/
def findDevice (areas : Areas) (slot : Nat) : Option (Nat × Nat) :=
  (areas.devices.findIdx? fun d => decide (d.baseSlot ≤ slot) && decide (slot < d.baseSlot + d.capacity)).map fun i =>
    (i, slot - (areas.devices.map SwapDevice.baseSlot).getD i 0)

/-- `discard_slot` and `free_slot`. -/
def freeSlot (areas : Areas) (st : SwapState) (slot : Nat) : SwapState :=
  match findDevice areas slot with
  | none => st
  | some (i, slot') =>
    { st with
      used := update st.used slot false
      hint := if slot' / 64 < st.hint i then update st.hint i (slot' / 64) else st.hint
      data := update st.data slot none }

/-- `release_parts`. -/
def releaseParts (areas : Areas) (st : SwapState) (slot count : Nat) : SwapState :=
  if st.partRefs slot = 0 then st
  else
    let st' := { st with partRefs := update st.partRefs slot (st.partRefs slot - count) }
    if st.partRefs slot - count = 0 then st'.freeSlot areas slot else st'

variable {areas : Areas} {st st' : SwapState} {f : Frame} {able : Nat → Bool} {slot count : Nat}

/-- The slot lies in one of the areas. -/
def InArea (areas : Areas) (slot : Nat) : Prop :=
  ∃ d ∈ areas.devices, d.baseSlot ≤ slot ∧ slot < d.baseSlot + d.capacity

theorem storePage_cases (areas : Areas) (st : SwapState) (f : Frame) (able : Nat → Bool) :
    (∃ hint, st.storePage areas f able = (none, { st with hint })) ∨
      ∃ slot data hint, st.used slot = false ∧ data.read areas.codec = some f ∧ InArea areas slot ∧
        st.storePage areas f able = (some slot,
          { used := update st.used slot true
            hint
            partRefs := update st.partRefs slot 4
            data := update st.data slot (some data) }) := by
  unfold storePage
  cases h : storeIn areas.codec st.used f able 0 areas.devices st.hint with
  | mk r hint =>
    cases r with
    | none => exact .inl ⟨hint, rfl⟩
    | some r =>
      obtain ⟨slot, data⟩ := r
      obtain ⟨hused, hread, hin⟩ := storeIn_spec h
      exact .inr ⟨slot, data, hint, hused, hread, hin, rfl⟩

theorem findDevice_isSome (h : InArea areas slot) : ∃ i slot', findDevice areas slot = some (i, slot') := by
  obtain ⟨d, hd, hlo, hhi⟩ := h
  unfold findDevice
  cases hidx : areas.devices.findIdx? fun d => decide (d.baseSlot ≤ slot) && decide (slot < d.baseSlot + d.capacity) with
  | none =>
    have := List.findIdx?_eq_none_iff.mp hidx d hd
    simp [hlo, hhi] at this
  | some i => exact ⟨i, _, rfl⟩

/-- Giving back the last entries frees the slot, and only then. -/
theorem releaseParts_cases (hin : InArea areas slot) (hrefs : st.partRefs slot ≠ 0) (count : Nat) :
    (st.releaseParts areas slot count).partRefs
        = update st.partRefs slot (st.partRefs slot - count) ∧
      (st.releaseParts areas slot count).used
        = (if st.partRefs slot - count = 0 then update st.used slot false else st.used) ∧
      (st.releaseParts areas slot count).data
        = (if st.partRefs slot - count = 0 then update st.data slot none else st.data) := by
  obtain ⟨i, slot', hfind⟩ := findDevice_isSome hin
  unfold releaseParts
  rw [if_neg hrefs]
  by_cases hleft : st.partRefs slot - count = 0
  · simp only [if_pos hleft, freeSlot, hfind, and_self]
  · simp only [if_neg hleft, and_self]

end SwapState

end SlateOS.Mm.Swap
