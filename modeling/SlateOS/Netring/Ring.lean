/-
# SlateOS.Netring.Ring -- the shared-memory data ring and its driver

The ring ABI of `netipc/src/ring.rs` (layout, entries, index arithmetic) and the driver over it of
`netring/src/lib.rs`. Each call is a program of atomic accesses to the region; the plain copies go byte
by byte. `usize` has 64 bits, which no sum of 32-bit geometry reaches.
-/
import SlateOS.Foundation.MachineInt
import SlateOS.Foundation.SharedMemory

namespace SlateOS.Netring

open Foundation Foundation.MachineInt Foundation.MemProgram

/-- `u8`. -/
abbrev Byte := BitVec 8

/-! ## The region header -/

def ringMagic : BitVec 32 := 0x4E524E47
def ringVersion : BitVec 32 := 1
def cacheLine : Nat := 64
def offMagic : Nat := 0
def offVersion : Nat := 4
def offSqEntries : Nat := 8
def offCqEntries : Nat := 12
def offSqeOff : Nat := 16
def offCqeOff : Nat := 20
def offDataOff : Nat := 24
def offDataLen : Nat := 28
def offSqHead : Nat := cacheLine
def offSqTail : Nat := 2 * cacheLine
def offCqHead : Nat := 3 * cacheLine
def offCqTail : Nat := 4 * cacheLine
def offSqSleep : Nat := offSqHead + 4
def offCqSleep : Nat := offCqHead + 4
def headerLen : Nat := 5 * cacheLine
def sqeSize : Nat := 32
def cqeSize : Nat := 16

/-! ## Entries -/

/-- `Sqe`. -/
structure Sqe where
  op : Byte
  connId : BitVec 32
  dataOff : BitVec 32
  dataLen : BitVec 32
  userData : BitVec 64
  aux : BitVec 64
  deriving DecidableEq

/-- `to_le_bytes`. -/
def toLeBytes (n : Nat) (v : BitVec (8 * n)) : List Byte := LittleEndian.encode n v.toNat

/-- `from_le_bytes` of the `n` bytes at `off`. -/
def fromLeBytes (n : Nat) (b : List Byte) (off : Nat) : BitVec (8 * n) :=
  BitVec.ofNat (8 * n) (LittleEndian.decode ((b.drop off).take n))

/-- `Sqe::to_bytes`. -/
def Sqe.toBytes (sqe : Sqe) : List Byte :=
  [sqe.op, 0, 0, 0] ++ (toLeBytes 4 sqe.connId ++ (toLeBytes 4 sqe.dataOff ++
    (toLeBytes 4 sqe.dataLen ++ (toLeBytes 8 sqe.userData ++ toLeBytes 8 sqe.aux))))

/-- `Sqe::from_bytes`. -/
def Sqe.fromBytes (b : List Byte) : Option Sqe :=
  if b.length < sqeSize then none
  else some {
    op := b.headD 0
    connId := fromLeBytes 4 b 4
    dataOff := fromLeBytes 4 b 8
    dataLen := fromLeBytes 4 b 12
    userData := fromLeBytes 8 b 16
    aux := fromLeBytes 8 b 24 }

/-- `Cqe`. -/
structure Cqe where
  userData : BitVec 64
  result : BitVec 32
  flags : BitVec 32
  deriving DecidableEq

/-- `Cqe::to_bytes`. -/
def Cqe.toBytes (cqe : Cqe) : List Byte :=
  toLeBytes 8 cqe.userData ++ (toLeBytes 4 cqe.result ++ toLeBytes 4 cqe.flags)

/-- `Cqe::from_bytes`. -/
def Cqe.fromBytes (b : List Byte) : Option Cqe :=
  if b.length < cqeSize then none
  else some {
    userData := fromLeBytes 8 b 0
    result := fromLeBytes 4 b 8
    flags := fromLeBytes 4 b 12 }

@[simp] theorem length_toLeBytes (n : Nat) (v : BitVec (8 * n)) : (toLeBytes n v).length = n :=
  LittleEndian.length_encode n _

/-- A field is read back from where it was written. -/
theorem fromLeBytes_append {n : Nat} (pre rest : List Byte) (v : BitVec (8 * n)) :
    fromLeBytes n (pre ++ (toLeBytes n v ++ rest)) pre.length = v := by
  rw [fromLeBytes, List.drop_left, List.take_left' (length_toLeBytes n v)]
  exact LittleEndian.ofNat_decode_encode rfl v

theorem fromLeBytes_of_eq {n off : Nat} {b pre rest : List Byte} {v : BitVec (8 * n)}
    (h : b = pre ++ (toLeBytes n v ++ rest)) (hoff : pre.length = off) :
    fromLeBytes n b off = v := by
  rw [h, ← hoff, fromLeBytes_append]

@[simp] theorem Sqe.length_toBytes (sqe : Sqe) : sqe.toBytes.length = sqeSize := by
  simp [Sqe.toBytes, sqeSize]

@[simp] theorem Cqe.length_toBytes (cqe : Cqe) : cqe.toBytes.length = cqeSize := by
  simp [Cqe.toBytes, cqeSize]

/-- What is serialised is deserialised again. -/
theorem Sqe.fromBytes_toBytes (sqe : Sqe) : Sqe.fromBytes sqe.toBytes = some sqe := by
  have hassoc : ∀ a b c : List Byte, a ++ (b ++ c) = a ++ b ++ c := fun a b c =>
    (List.append_assoc a b c).symm
  have h1 : fromLeBytes 4 sqe.toBytes 4 = sqe.connId :=
    fromLeBytes_of_eq (n := 4) (show sqe.toBytes = [sqe.op, 0, 0, 0] ++ _ from rfl) rfl
  have h2 : fromLeBytes 4 sqe.toBytes 8 = sqe.dataOff :=
    fromLeBytes_of_eq (n := 4) (hassoc _ _ _) (by simp)
  have h3 : fromLeBytes 4 sqe.toBytes 12 = sqe.dataLen :=
    fromLeBytes_of_eq (n := 4) ((hassoc _ _ _).trans (hassoc _ _ _)) (by simp)
  have h4 : fromLeBytes 8 sqe.toBytes 16 = sqe.userData :=
    fromLeBytes_of_eq (n := 8) (((hassoc _ _ _).trans (hassoc _ _ _)).trans (hassoc _ _ _)) (by simp)
  have h5 : fromLeBytes 8 sqe.toBytes 24 = sqe.aux :=
    fromLeBytes_of_eq (n := 8) ((((hassoc _ _ _).trans (hassoc _ _ _)).trans (hassoc _ _ _)).trans
      ((hassoc _ _ _).trans (congrArg _ (List.append_nil _).symm))) (by simp)
  rw [Sqe.fromBytes, if_neg (by rw [Sqe.length_toBytes]; exact Nat.lt_irrefl _), h1, h2, h3, h4, h5]
  rfl

theorem Cqe.fromBytes_toBytes (cqe : Cqe) : Cqe.fromBytes cqe.toBytes = some cqe := by
  have hassoc : ∀ a b c : List Byte, a ++ (b ++ c) = a ++ b ++ c := fun a b c =>
    (List.append_assoc a b c).symm
  have h1 : fromLeBytes 8 cqe.toBytes 0 = cqe.userData :=
    fromLeBytes_of_eq (n := 8) (show cqe.toBytes = [] ++ _ from rfl) rfl
  have h2 : fromLeBytes 4 cqe.toBytes 8 = cqe.result :=
    fromLeBytes_of_eq (n := 4) rfl (by simp)
  have h3 : fromLeBytes 4 cqe.toBytes 12 = cqe.flags :=
    fromLeBytes_of_eq (n := 4) ((hassoc _ _ _).trans (congrArg _ (List.append_nil _).symm)) (by simp)
  rw [Cqe.fromBytes, if_neg (by rw [Cqe.length_toBytes]; exact Nat.lt_irrefl _), h1, h2, h3]

/-! ## Index arithmetic -/

/-- `slot`. -/
def slot (index entries : BitVec 32) : BitVec 32 := index &&& (entries - 1)

/-- `used`. -/
def used (head tail : BitVec 32) : BitVec 32 := tail - head

/-- `is_empty`. -/
def isEmpty (head tail : BitVec 32) : Bool := head == tail

/-- `is_full`. -/
def isFull (head tail entries : BitVec 32) : Bool := decide (used head tail ≥ entries)

/-- `is_broken`. -/
def isBroken (head tail entries : BitVec 32) : Bool := decide (used head tail > entries)

/-- `is_power_of_two`. -/
def isPowerOfTwo (n : BitVec 32) : Bool := n != 0 && (n &&& (n - 1)) == 0

/-! ## Layout -/

/-- `sqe_array_off`. -/
def sqeArrayOff : Nat := headerLen

/-- `cqe_array_off`. -/
def cqeArrayOff (sqEntries : BitVec 32) : Nat := headerLen + sqEntries.toNat * sqeSize

/-- `data_area_off`. -/
def dataAreaOff (sqEntries cqEntries : BitVec 32) : Nat :=
  cqeArrayOff sqEntries + cqEntries.toNat * cqeSize

/-- `region_size`. -/
def regionSize (sqEntries cqEntries dataLen : BitVec 32) : Nat :=
  dataAreaOff sqEntries cqEntries + dataLen.toNat

/-! ## One queue -/

/-- Where the words and the entries of a queue are, and how its entries are serialised. The submission
and the completion queue differ in nothing else. -/
structure Queue (ε : Type) where
  headOff : Nat
  tailOff : Nat
  sleepOff : Nat
  arrayOff : Nat
  entrySize : Nat
  entries : BitVec 32
  toBytes : ε → List Byte
  fromBytes : List Byte → Option ε

namespace Queue

variable {ε : Type} (q : Queue ε)

/-- Where the entry of an index is. -/
def entryOff (index : BitVec 32) : Nat := q.arrayOff + (slot index q.entries).toNat * q.entrySize

/-- The end of a push: the entry, and then the tail that publishes it. -/
def publish (e : ε) (tail : BitVec 32) : MemProgram Bool := do
  writeBytes (q.entryOff tail) (q.toBytes e)
  storeWord q.tailOff (tail + 1)
  return true

/-- A push that has loaded its tail. -/
def pushFrom (e : ε) (tail : BitVec 32) : MemProgram Bool := do
  let head ← loadWord q.headOff
  if isFull head tail q.entries then return false else q.publish e tail

/-- `sq_push`, `cq_push`. -/
def push (e : ε) : MemProgram Bool := do
  let tail ← loadWord q.tailOff
  q.pushFrom e tail

/-- The end of a pop: the entry's bytes are loaded. -/
def consume (head : BitVec 32) (buf : List Byte) : MemProgram (Option ε) :=
  match q.fromBytes buf with
  | none => return none
  | some e => do
    storeWord q.headOff (head + 1)
    return some e

/-- A pop that has loaded its head. -/
def popFrom (head : BitVec 32) : MemProgram (Option ε) := do
  let tail ← loadWord q.tailOff
  if isEmpty head tail || isBroken head tail q.entries then return none
  else
    let buf ← readBytes (q.entryOff head) q.entrySize []
    q.consume head buf

/-- `sq_pop`, `cq_pop`. -/
def pop : MemProgram (Option ε) := do
  let head ← loadWord q.headOff
  q.popFrom head

/-- A consumer going to sleep that has loaded its head. -/
def sleepFrom (head : BitVec 32) : MemProgram Bool := do
  let tail ← loadWord q.tailOff
  if isEmpty head tail || isBroken head tail q.entries then return true
  else
    storeWord q.sleepOff 0
    return false

/-- A consumer going to sleep that has set its word. -/
def sleepLook : MemProgram Bool := do
  let head ← loadWord q.headOff
  q.sleepFrom head

/-- `sleep`. -/
def sleep (number : BitVec 32) : MemProgram Bool := do
  storeWord q.sleepOff number
  q.sleepLook

/-- `sq_wake`, `cq_wake`. -/
def wake : MemProgram Unit := storeWord q.sleepOff 0

/-- `sq_sleeper`, `cq_sleeper`. -/
def sleeper : MemProgram (BitVec 32) := loadWord q.sleepOff

/-- `sq_broken`, `cq_broken`. -/
def broken : MemProgram Bool := do
  let head ← loadWord q.headOff
  let tail ← loadWord q.tailOff
  return isBroken head tail q.entries

end Queue

/-! ## The driver -/

/-- `Ring`: a view of a region whose geometry has been checked. -/
structure Ring where
  len : Nat
  sqEntries : BitVec 32
  cqEntries : BitVec 32
  sqeOff : Nat
  cqeOff : Nat
  dataOff : Nat
  dataLen : Nat
  sqPower : isPowerOfTwo sqEntries = true
  cqPower : isPowerOfTwo cqEntries = true
  sqeOff_eq : sqeOff = sqeArrayOff
  cqeOff_eq : cqeOff = cqeArrayOff sqEntries
  dataOff_eq : dataOff = dataAreaOff sqEntries cqEntries
  fits : dataOff + dataLen ≤ len

namespace Ring

/-- `Ring::attach`. -/
def attach (len : Nat) : MemProgram (Option Ring) :=
  if len < headerLen then return none
  else do
    let magic ← loadWord offMagic
    let version ← loadWord offVersion
    if magic ≠ ringMagic ∨ version ≠ ringVersion then return none
    else
      let sqEntries ← loadWord offSqEntries
      let cqEntries ← loadWord offCqEntries
      let sqeOff ← loadWord offSqeOff
      let cqeOff ← loadWord offCqeOff
      let dataOff ← loadWord offDataOff
      let dataLen ← loadWord offDataLen
      if hpower : isPowerOfTwo sqEntries = true ∧ isPowerOfTwo cqEntries = true then
        if hoffs : sqeOff.toNat = sqeArrayOff ∧ cqeOff.toNat = cqeArrayOff sqEntries ∧
            dataOff.toNat = dataAreaOff sqEntries cqEntries then
          if hneed : regionSize sqEntries cqEntries dataLen ≤ len then
            return some {
              len, sqEntries, cqEntries
              sqeOff := sqeOff.toNat
              cqeOff := cqeOff.toNat
              dataOff := dataOff.toNat
              dataLen := dataLen.toNat
              sqPower := hpower.1
              cqPower := hpower.2
              sqeOff_eq := hoffs.1
              cqeOff_eq := hoffs.2.1
              dataOff_eq := hoffs.2.2
              fits := by rw [hoffs.2.2]; exact hneed }
          else return none
        else return none
      else return none

variable (r : Ring)

/-- The submission queue. -/
def sq : Queue Sqe where
  headOff := offSqHead
  tailOff := offSqTail
  sleepOff := offSqSleep
  arrayOff := r.sqeOff
  entrySize := sqeSize
  entries := r.sqEntries
  toBytes := Sqe.toBytes
  fromBytes := Sqe.fromBytes

/-- The completion queue. -/
def cq : Queue Cqe where
  headOff := offCqHead
  tailOff := offCqTail
  sleepOff := offCqSleep
  arrayOff := r.cqeOff
  entrySize := cqeSize
  entries := r.cqEntries
  toBytes := Cqe.toBytes
  fromBytes := Cqe.fromBytes

/-- `sq_push`. -/
def sqPush (sqe : Sqe) : MemProgram Bool := r.sq.push sqe

/-- `sq_pop`. -/
def sqPop : MemProgram (Option Sqe) := r.sq.pop

/-- `cq_push`. -/
def cqPush (cqe : Cqe) : MemProgram Bool := r.cq.push cqe

/-- `cq_pop`. -/
def cqPop : MemProgram (Option Cqe) := r.cq.pop

/-- `sq_sleep`. -/
def sqSleep (number : BitVec 32) : MemProgram Bool := r.sq.sleep number

/-- `cq_sleep`. -/
def cqSleep (number : BitVec 32) : MemProgram Bool := r.cq.sleep number

/-- The end of a window of the data area; `none` where it lies outside. -/
def windowEnd (off n : Nat) : Option Nat :=
  match checkedAdd 64 off n with
  | none => none
  | some last => if last > r.dataLen then none else some last

/-- `write_data`. -/
def writeData (off : Nat) (src : List Byte) : MemProgram Bool :=
  match r.windowEnd off src.length with
  | none => return false
  | some _ => do
    writeBytes (r.dataOff + off) src
    return true

/-- `read_data` of `n` bytes; `none` is the source's `false`. -/
def readData (off n : Nat) : MemProgram (Option (List Byte)) :=
  match r.windowEnd off n with
  | none => return none
  | some _ => do
    let dst ← readBytes (r.dataOff + off) n []
    return some dst

/-- `data_window`: where in the region the window begins. -/
def dataWindow (off n : Nat) : Option Nat := (r.windowEnd off n).map fun _ => r.dataOff + off

end Ring

end SlateOS.Netring
