/-
# SlateOS.Ipc.Pipe.Model -- ring buffer and end counts of a pipe

`Pipe` and the table operations of `kernel/src/ipc/pipe.rs`. The buffer is a list whose length is the
capacity; what a `copy_from_slice` puts in place is `copyInto`. The node and the name of a FIFO are
left out, its identity is kept.
-/
import Mathlib.Algebra.Group.Nat.Defs
import Mathlib.Logic.Basic
import SlateOS.Foundation.RingBuffer
import SlateOS.Ipc.WaiterSet

/-! ## The word a pipe handle is

`PipeHandle` of `kernel/src/ipc/pipe.rs`: bit 0 is the end, bits 1 to 40 the pipe, bits 41 to 60 a writer
count, bit 61 says both ends and bit 62 that the count is there.
-/

namespace SlateOS.Ipc

/-- `PipeId`. -/
abbrev PipeId := BitVec 64

/-- `PipeHandle`. -/
abbrev PipeHandle := BitVec 64

/-- `PipeEnd`. -/
inductive PipeEnd
  | read | write | both
  deriving DecidableEq

/-- `ID_BITS`. -/
def idBits : Nat := 40

/-- `SEEN_SHIFT`. -/
def seenShift : Nat := 41

/-- `SEEN_BITS`. -/
def seenBits : Nat := 20

/-- `BOTH_BIT`. -/
def bothBit : BitVec 64 := 1#64 <<< 61

/-- `SEEN_FLAG`. -/
def seenFlag : BitVec 64 := 1#64 <<< 62

/-- `(1 << bits) - 1`. -/
def lowMask (bits : Nat) : BitVec 64 := (1#64 <<< bits) - 1#64

namespace PipeHandle

/-- `PipeHandle::new`. -/
def new (pipeId : PipeId) (e : PipeEnd) : PipeHandle :=
  let id := (pipeId &&& lowMask idBits) <<< 1
  match e with
  | .read => id
  | .write => id ||| 1#64
  | .both => id ||| bothBit

/-- `with_seen`. -/
def withSeen (h : PipeHandle) (writers : BitVec 32) : PipeHandle :=
  let seen := writers.setWidth 64 &&& lowMask seenBits
  h ||| seenFlag ||| (seen <<< seenShift)

/-- `seen_writers`. -/
def seenWriters (h : PipeHandle) : Option (BitVec 32) :=
  if h &&& seenFlag ≠ 0#64 then some (((h >>> seenShift) &&& lowMask seenBits).setWidth 32) else none

/-- `pipe_id`. -/
def pipeId (h : PipeHandle) : PipeId := (h >>> 1) &&& lowMask idBits

/-- `end`. -/
def theEnd (h : PipeHandle) : PipeEnd :=
  if h &&& bothBit ≠ 0#64 then .both
  else if h &&& 1#64 = 0#64 then .read
  else .write

/-- `reads`. -/
def reads (h : PipeHandle) : Bool :=
  match theEnd h with
  | .read | .both => true
  | .write => false

/-- `writes`. -/
def writes (h : PipeHandle) : Bool :=
  match theEnd h with
  | .write | .both => true
  | .read => false

end PipeHandle

/-! ## The fields do not disturb each other -/

theorem getLsbD_lowMask {bits : Nat} (h : bits < 64) (i : Nat) :
    (lowMask bits).getLsbD i = decide (i < bits) := by
  have hmask : lowMask bits = BitVec.ofNat 64 (2 ^ bits - 1) := by
    apply BitVec.eq_of_toNat_eq
    have hlt : 2 ^ bits < 2 ^ 64 := Nat.pow_lt_pow_right (by decide) h
    have hpos : 0 < 2 ^ bits := Nat.two_pow_pos bits
    have hmod : 2 ^ bits % 18446744073709551616 = 2 ^ bits := Nat.mod_eq_of_lt hlt
    simp [lowMask, BitVec.toNat_sub, Nat.shiftLeft_eq, hmod]
    omega
  rw [hmask, BitVec.getLsbD_ofNat, Nat.testBit_two_pow_sub_one]
  simp
  omega

/-- A mask of one bit tests it. -/
theorem and_bit_ne_zero {x : BitVec 64} {n : Nat} (hn : n < 64) :
    x &&& (1#64 <<< n) ≠ 0#64 ↔ x.getLsbD n = true := by
  have htwo : 1#64 <<< n = BitVec.twoPow 64 n := rfl
  have hne : BitVec.twoPow 64 n ≠ 0#64 := by
    intro h
    have := congrArg (fun b => BitVec.getLsbD b n) h
    simp [hn] at this
  rw [htwo, BitVec.and_twoPow]
  split <;> simp_all

namespace PipeHandle

/-- Bit 61 and bit 0 name the end. -/
theorem theEnd_eq (h : PipeHandle) :
    h.theEnd = if h.getLsbD 61 then .both else if h.getLsbD 0 then .write else .read := by
  have hlow : h &&& 1#64 = 0#64 ↔ h.getLsbD 0 = false := by
    have := and_bit_ne_zero (x := h) (n := 0) (by decide)
    rw [BitVec.shiftLeft_zero] at this
    rw [← Bool.not_eq_true, ← this, not_not]
  unfold theEnd bothBit
  simp only [and_bit_ne_zero (x := h) (n := 61) (by decide), hlow]
  cases h.getLsbD 61 <;> cases h.getLsbD 0 <;> rfl

theorem getLsbD_pipeId (h : PipeHandle) (i : Nat) :
    h.pipeId.getLsbD i = (h.getLsbD (1 + i) && decide (i < 40)) := by
  unfold pipeId
  rw [BitVec.getLsbD_and, BitVec.getLsbD_ushiftRight, getLsbD_lowMask (by decide)]
  rfl

theorem getLsbD_new (id : PipeId) (e : PipeEnd) (i : Nat) :
    (new id e).getLsbD i =
      ((decide (1 ≤ i ∧ i < 41) && id.getLsbD (i - 1)) ||
        (decide (e = .write ∧ i = 0)) || (decide (e = .both ∧ i = 61))) := by
  have hid : ((id &&& lowMask idBits) <<< 1).getLsbD i =
      (decide (1 ≤ i ∧ i < 41) && id.getLsbD (i - 1)) := by
    rw [BitVec.getLsbD_shiftLeft, BitVec.getLsbD_and, getLsbD_lowMask (by decide), idBits,
      Bool.eq_iff_iff]
    simp only [Bool.and_eq_true, decide_eq_true_eq, Bool.not_eq_true', decide_eq_false_iff_not]
    constructor
    · rintro ⟨⟨h64, h1⟩, hbit, h40⟩
      exact ⟨⟨by omega, by omega⟩, hbit⟩
    · rintro ⟨⟨h1, h41⟩, hbit⟩
      exact ⟨⟨by omega, by omega⟩, hbit, by omega⟩
  cases e with
  | read => simpa [new] using hid
  | write => simp [new, hid]
  | both =>
    have hboth : bothBit.getLsbD i = decide (i = 61) := by
      have htwo : bothBit = BitVec.twoPow 64 61 := rfl
      rw [htwo, BitVec.getLsbD_twoPow]
      simp [eq_comm]
    simp [new, hid, hboth]

/-- The handle names the low 40 bits of the pipe's id. -/
theorem pipeId_new (id : PipeId) (e : PipeEnd) : (new id e).pipeId = id &&& lowMask idBits := by
  refine BitVec.eq_of_getLsbD_eq fun i hi => ?_
  rw [getLsbD_pipeId, getLsbD_new, BitVec.getLsbD_and, getLsbD_lowMask (by decide), idBits]
  by_cases h40 : i < 40
  · have h61 : 1 + i ≠ 61 := by omega
    simp [h40, h61]
    omega
  · simp [h40]

theorem theEnd_new (id : PipeId) (e : PipeEnd) : (new id e).theEnd = e := by
  rw [theEnd_eq, getLsbD_new, getLsbD_new]
  cases e <;> simp

theorem getLsbD_withSeen {h : PipeHandle} (writers : BitVec 32) {i : Nat}
    (hi : i < 41 ∨ i = 61) : (h.withSeen writers).getLsbD i = h.getLsbD i := by
  have hflag : seenFlag.getLsbD i = false := by
    have htwo : seenFlag = BitVec.twoPow 64 62 := rfl
    rw [htwo, BitVec.getLsbD_twoPow]
    simp
    omega
  unfold withSeen
  rw [BitVec.getLsbD_or, BitVec.getLsbD_or, hflag, Bool.or_false, BitVec.getLsbD_shiftLeft,
    BitVec.getLsbD_and, getLsbD_lowMask (by decide), seenShift, seenBits]
  have hseen : (decide (i < 64) && !decide (i < 41) &&
      ((writers.setWidth 64).getLsbD (i - 41) && decide (i - 41 < 20))) = false := by
    rcases hi with hi | hi
    · simp [hi]
    · simp [hi]
  rw [hseen, Bool.or_false]

theorem pipeId_withSeen (h : PipeHandle) (writers : BitVec 32) :
    (h.withSeen writers).pipeId = h.pipeId := by
  refine BitVec.eq_of_getLsbD_eq fun i hi => ?_
  rw [getLsbD_pipeId, getLsbD_pipeId]
  by_cases h40 : i < 40
  · rw [getLsbD_withSeen writers (.inl (by omega))]
  · simp [h40]

theorem theEnd_withSeen (h : PipeHandle) (writers : BitVec 32) :
    (h.withSeen writers).theEnd = h.theEnd := by
  rw [theEnd_eq, theEnd_eq, getLsbD_withSeen writers (.inr rfl),
    getLsbD_withSeen writers (.inl (by omega))]

/-- An id below 2^40 is named whole. -/
theorem pipeId_new_of_lt {id : PipeId} (h : id.toNat < 2 ^ 40) (e : PipeEnd) :
    (new id e).pipeId = id := by
  rw [pipeId_new]
  refine BitVec.eq_of_getLsbD_eq fun i hi => ?_
  rw [BitVec.getLsbD_and, getLsbD_lowMask (by decide), idBits]
  by_cases h40 : i < 40
  · simp [h40]
  · have hzero : id.getLsbD i = false :=
      Nat.testBit_lt_two_pow (Nat.lt_of_lt_of_le h (Nat.pow_le_pow_right (by decide) (by omega)))
    simp [hzero]

end PipeHandle

end SlateOS.Ipc

/-! ## Ring buffer and end counts of a pipe -/

namespace SlateOS.Ipc

open Foundation.RingBuffer Kernel

/-! ## A pipe -/

/-- `DEFAULT_BUFFER_CAPACITY`. -/
def defaultBufferCapacity : Nat := 64 * 1024

/-- `MAX_PIPE_BUFFER_CAPACITY`. -/
def maxPipeBufferCapacity : Nat := 1024 * 1024

/-- `PIPE_BUF`. -/
def pipeBuf : Nat := 4096

/-- `FifoLink`. -/
structure FifoLink where
  id : Nat
  rCounter : BitVec 32
  wCounter : BitVec 32
  openWaiters : WaiterSet

/-- `Pipe`. -/
structure Pipe where
  buf : List UInt8
  head : Nat
  len : Nat
  readClosed : Bool
  writeClosed : Bool
  readerWaiters : WaiterSet
  writerWaiters : WaiterSet
  readerRefcount : Nat
  writerRefcount : Nat
  fifo : Option FifoLink

namespace Pipe

/-- `Pipe::new`. -/
def new (capacity : Nat) : Pipe where
  buf := List.replicate capacity 0
  head := 0
  len := 0
  readClosed := false
  writeClosed := false
  readerWaiters := []
  writerWaiters := []
  readerRefcount := 1
  writerRefcount := 1
  fifo := none

/-- `writable`. -/
def writable (p : Pipe) : Nat := p.buf.length - p.len

/-- `readable`. -/
def readable (p : Pipe) : Nat := p.len

/-- `write_bytes`. -/
def writeBytes (p : Pipe) (data : List UInt8) : Nat × Pipe :=
  let toWrite := min data.length p.writable
  if toWrite = 0 then (0, p)
  else
    let cap := p.buf.length
    let writePos := (p.head + p.len) % cap
    let first := min toWrite (cap - writePos)
    let buf := copyInto p.buf writePos (data.take first)
    let second := toWrite - first
    let buf := if second > 0 then copyInto buf 0 ((data.drop first).take second) else buf
    (toWrite, { p with buf, len := p.len + toWrite })

/-- The two chunks from `start` on, wrapped around the end of the buffer. -/
def chunks (p : Pipe) (start count : Nat) : List UInt8 :=
  let first := min count (p.buf.length - start)
  let second := count - first
  (p.buf.drop start).take first ++ (if second > 0 then p.buf.take second else [])

/-- `read_bytes` into a buffer of `room` bytes: the bytes taken. -/
def readBytes (p : Pipe) (room : Nat) : List UInt8 × Pipe :=
  let toRead := min room p.len
  if toRead = 0 then ([], p)
  else
    (p.chunks p.head toRead,
      { p with head := (p.head + toRead) % p.buf.length, len := p.len - toRead })

/-- The new buffer of `set_capacity`, the contents copied to its front. -/
def relocated (p : Pipe) (newCap : Nat) : List UInt8 :=
  if p.len > 0 then
    let first := min p.len (p.buf.length - p.head)
    let newBuf := copyInto (List.replicate newCap 0) 0 ((p.buf.drop p.head).take first)
    let second := p.len - first
    if second > 0 then copyInto newBuf first (p.buf.take second) else newBuf
  else List.replicate newCap 0

/-- The locked part of `set_capacity`. -/
def setCapacity (p : Pipe) (newCap : Nat) : KernelResult Nat × Pipe :=
  if newCap < p.len then (.error .deviceBusy, p)
  else (.ok newCap, { p with buf := relocated p newCap, head := 0 })

end Pipe

/-! ## The table of live pipes -/

/-- `PIPES` and `NEXT_PIPE_ID`. -/
structure PipeTable where
  pipes : PipeId → Option Pipe
  nextPipeId : PipeId

namespace PipeTable

/-- No pipe yet. -/
def empty : PipeTable := ⟨fun _ => none, 1#64⟩

/-- One entry replaced. -/
def set (t : PipeTable) (id : PipeId) (p : Option Pipe) : PipeTable :=
  { t with pipes := Function.update t.pipes id p }

/-- `create`. -/
def create (t : PipeTable) : (PipeHandle × PipeHandle) × PipeTable :=
  let id := t.nextPipeId
  ((.new id .read, .new id .write),
    { t.set id (some (.new defaultBufferCapacity)) with nextPipeId := t.nextPipeId + 1 })

/-- The pipe `fifo_create` makes: no end is open. -/
def fifoPipe (fileId : Nat) : Pipe :=
  { Pipe.new defaultBufferCapacity with
    readerRefcount := 0
    writerRefcount := 0
    readClosed := true
    writeClosed := true
    fifo := some ⟨fileId, 0#32, 0#32, []⟩ }

/-- `fifo_create`. -/
def fifoCreate (t : PipeTable) (fileId : Nat) : PipeId × PipeTable :=
  (t.nextPipeId, { t.set t.nextPipeId (some (fifoPipe fileId)) with nextPipeId := t.nextPipeId + 1 })

/-- `FifoAccess`. -/
inductive FifoAccess
  | read | write | both
  deriving DecidableEq

/-- Whether the opener reads. -/
def FifoAccess.reads : FifoAccess → Bool
  | .read | .both => true
  | .write => false

/-- Whether the opener writes. -/
def FifoAccess.writes : FifoAccess → Bool
  | .write | .both => true
  | .read => false

/-- `FifoPartner`. -/
inductive FifoPartner
  | writer (seen : BitVec 32)
  | reader (seen : BitVec 32)

/-- `count.checked_add(1)` on a `u32`, where the end gains a reference. -/
def addRef (gains : Bool) (count : Nat) : Option Nat :=
  if gains then (if count + 1 < 2 ^ 32 then some (count + 1) else none) else some count

/-- The handle and the partner of an attach, from the counts before and the counters after it. -/
def attached (pipeId : PipeId) (access : FifoAccess) (nonblock : Bool) (readers writers : Nat)
    (link : FifoLink) : PipeHandle × Option FifoPartner :=
  match access with
  | .read =>
    if writers = 0 ∧ nonblock = true then
      ((PipeHandle.new pipeId .read).withSeen link.wCounter, none)
    else
      (.new pipeId .read, if writers = 0 then some (.writer link.wCounter) else none)
  | .write => (.new pipeId .write, if readers = 0 then some (.reader link.rCounter) else none)
  | .both => (.new pipeId .both, none)

/-- `fifo_attach`: the answer, the openers to wake, and the table. -/
def fifoAttach (t : PipeTable) (pipeId : PipeId) (access : FifoAccess) (nonblock : Bool) :
    KernelResult ((PipeHandle × Option FifoPartner) × WaiterSet) × PipeTable :=
  match t.pipes pipeId with
  | none => (.error .invalidHandle, t)
  | some p =>
    match p.fifo with
    | none => (.error .invalidHandle, t)
    | some link =>
      let readers := p.readerRefcount
      let writers := p.writerRefcount
      let read := access.reads
      let write := access.writes
      if write && !read && nonblock && readers == 0 then (.error .noSuchDeviceOrAddress, t)
      else
        match addRef read readers, addRef write writers with
        | some newReaders, some newWriters =>
          let link := { link with
            rCounter := if read then link.rCounter + 1 else link.rCounter
            wCounter := if write then link.wCounter + 1 else link.wCounter }
          let wakes := (read && readers == 0) || (write && writers == 0)
          (.ok (attached pipeId access nonblock readers writers link,
              if wakes then link.openWaiters else []),
            t.set pipeId (some { p with
              readerRefcount := newReaders
              writerRefcount := newWriters
              readClosed := if read then false else p.readClosed
              writeClosed := if write then false else p.writeClosed
              fifo := some { link with
                openWaiters := if wakes then [] else link.openWaiters } }))
        | _, _ => (.error .overflow, t)

/-- `dup`. -/
def dup (t : PipeTable) (h : PipeHandle) : KernelResult PipeHandle × PipeTable :=
  match t.pipes h.pipeId with
  | none => (.error .invalidHandle, t)
  | some p =>
    if (h.reads && p.readerRefcount == 0) || (h.writes && p.writerRefcount == 0) then
      (.error .invalidHandle, t)
    else
      match addRef h.reads p.readerRefcount, addRef h.writes p.writerRefcount with
      | some readers, some writers =>
        (.ok h, t.set h.pipeId (some { p with
          readerRefcount := readers
          writerRefcount := writers }))
      | _, _ => (.error .invalidHandle, t)

/-- The read side of `close`, with the writers it wakes. -/
def closeRead (p : Pipe) : WaiterSet × Pipe :=
  let p := { p with readerRefcount := p.readerRefcount - 1 }
  if p.readerRefcount = 0 ∧ p.readClosed = false then
    (p.writerWaiters, { p with readClosed := true, writerWaiters := [] })
  else ([], p)

/-- The write side of `close`, with the readers it wakes. -/
def closeWrite (p : Pipe) : WaiterSet × Pipe :=
  let p := { p with writerRefcount := p.writerRefcount - 1 }
  if p.writerRefcount = 0 ∧ p.writeClosed = false then
    (p.readerWaiters, { p with writeClosed := true, readerWaiters := [] })
  else ([], p)

/-- `close`: the tasks to wake, the FIFO that is gone, and the table. -/
def close (t : PipeTable) (h : PipeHandle) : (WaiterSet × Option Nat) × PipeTable :=
  match t.pipes h.pipeId with
  | none => (([], none), t)
  | some p =>
    let r := if h.reads then closeRead p else ([], p)
    let w := if h.writes then closeWrite r.2 else ([], r.2)
    if w.2.readClosed && w.2.writeClosed then
      ((r.1 ++ w.1, w.2.fifo.map FifoLink.id), t.set h.pipeId none)
    else
      ((r.1 ++ w.1, none), t.set h.pipeId (some w.2))

end PipeTable

end SlateOS.Ipc
