/-
# SlateOS.Foundation.SharedMemory -- programs over a shared byte memory

A party of a shared memory issues loads and stores of bytes and of 32-bit words, each of them atomic.
`perform` answers one access in sequentially consistent memory; a program all of whose accesses lie
inside a region may be run against any peer.
-/
import Mathlib.Algebra.Group.Nat.Defs
import Mathlib.Data.List.Basic
import Mathlib.Logic.Basic

/-! ## Numbers as bytes, least significant first -/

namespace SlateOS.Foundation.LittleEndian

/-- The low `n` bytes of a number. -/
def encode : Nat → Nat → List (BitVec 8)
  | 0, _ => []
  | n + 1, v => BitVec.ofNat 8 v :: encode n (v / 256)

/-- The number that bytes stand for. -/
def decode : List (BitVec 8) → Nat
  | [] => 0
  | b :: rest => b.toNat + 256 * decode rest

@[simp] theorem length_encode (n v : Nat) : (encode n v).length = n := by
  induction n generalizing v with
  | zero => rfl
  | succ n ih => rw [encode, List.length_cons, ih]

theorem decode_encode (n v : Nat) : decode (encode n v) = v % 256 ^ n := by
  induction n generalizing v with
  | zero => rw [encode, decode, Nat.pow_zero, Nat.mod_one]
  | succ n ih =>
    have hmod : v % (256 * 256 ^ n) = v % 256 + 256 * (v / 256 % 256 ^ n) := Nat.mod_mul
    have hbyte : (BitVec.ofNat 8 v).toNat = v % 256 := BitVec.toNat_ofNat v 8
    have hpow : 256 ^ (n + 1) = 256 * 256 ^ n := Nat.pow_succ'
    rw [encode, decode, ih, hbyte, hpow, hmod]

/-- A word is read back from its bytes. -/
theorem ofNat_decode_encode {w n : Nat} (hw : w = 8 * n) (v : BitVec w) :
    BitVec.ofNat w (decode (encode n v.toNat)) = v := by
  have hpow : 256 ^ n = 2 ^ w := by
    rw [hw, Nat.pow_mul]
  rw [decode_encode, hpow, Nat.mod_eq_of_lt v.isLt, BitVec.ofNat_toNat, BitVec.setWidth_eq]

end SlateOS.Foundation.LittleEndian

/-! ## Programs that issue requests

A program is a tree: it is done, or issues a request and goes on with the answer. What answers is left
open: an adversary, for which every answer is possible, or a shared state that answers one request at a
time.
-/

namespace SlateOS.Foundation

universe u

/-- A program over requests `R` that answers an `α`. -/
inductive Program (R : Type) (Answer : R → Type) (α : Type u)
  | done (a : α)
  | request (r : R) (next : Answer r → Program R Answer α)

namespace Program

variable {R : Type} {Answer : R → Type} {α β : Type}

/-- One program, then the other. -/
def bind : Program R Answer α → (α → Program R Answer β) → Program R Answer β
  | done a, f => f a
  | request r next, f => request r fun answer => (next answer).bind f

instance : Monad (Program R Answer) where
  pure := done
  bind := bind

/-! ## Whatever is answered -/

/-- Every request that the program can come to meets `P`. -/
def Always (P : R → Prop) : Program R Answer α → Prop
  | done _ => True
  | request r next => P r ∧ ∀ answer, (next answer).Always P

theorem Always.bind {P : R → Prop} {p : Program R Answer α} {f : α → Program R Answer β}
    (hp : p.Always P) (hf : ∀ a, (f a).Always P) : (p >>= f).Always P := by
  induction p with
  | done a => exact hf a
  | request r next ih => exact ⟨hp.1, fun answer => ih answer (hp.2 answer)⟩

/-- A request and what it was answered. -/
abbrev Exchange (R : Type) (Answer : R → Type) : Type := Σ r : R, Answer r

/-- The program can issue these requests, so answered, and then be done with `a`. -/
inductive Runs : Program R Answer α → List (Exchange R Answer) → α → Prop
  | done (a : α) : Runs (done a) [] a
  | request {r : R} {next : Answer r → Program R Answer α} {answer : Answer r}
      {rest : List (Exchange R Answer)} {a : α} (h : Runs (next answer) rest a) :
      Runs (request r next) (⟨r, answer⟩ :: rest) a

variable {trace : List (Exchange R Answer)}

theorem Always.of_runs {P : R → Prop} {p : Program R Answer α}
    {a : α} (hp : p.Always P) (h : Runs p trace a) : ∀ e ∈ trace, P e.1 := by
  induction h with
  | done a => simp
  | request h ih =>
    intro e he
    obtain rfl | he := List.mem_cons.1 he
    · exact hp.1
    · exact ih (hp.2 _) e he

theorem runs_request_iff {r : R} {next : Answer r → Program R Answer α} {a : α} :
    Runs (request r next) trace a ↔
      ∃ answer rest, trace = ⟨r, answer⟩ :: rest ∧ Runs (next answer) rest a := by
  constructor
  · intro h
    cases h with
    | request h => exact ⟨_, _, rfl, h⟩
  · rintro ⟨answer, rest, rfl, h⟩
    exact .request h

theorem runs_done_iff {b : α} {a : α} :
    Runs (done b : Program R Answer α) trace a ↔ trace = [] ∧ a = b := by
  constructor
  · intro h
    cases h with
    | done => exact ⟨rfl, rfl⟩
  · rintro ⟨rfl, rfl⟩
    exact .done _

theorem Runs.bind {p : Program R Answer α} {f : α → Program R Answer β} {b : β} (h : Runs (p >>= f) trace b) :
    ∃ first second a, trace = first ++ second ∧ Runs p first a ∧ Runs (f a) second b := by
  induction p generalizing trace with
  | done a => exact ⟨[], trace, a, rfl, .done a, h⟩
  | request r next ih =>
    obtain ⟨answer, rest, rfl, hrest⟩ := runs_request_iff.1 h
    obtain ⟨first, second, a, rfl, hfirst, hsecond⟩ := ih answer hrest
    exact ⟨⟨r, answer⟩ :: first, second, a, rfl, .request hfirst, hsecond⟩

end Program

end SlateOS.Foundation

/-! ## Programs over a shared byte memory -/

namespace SlateOS.Foundation

/-- Byte addresses to bytes. -/
abbrev Memory : Type := Nat → BitVec 8

/-- An atomic access. -/
inductive Access
  | loadWord (off : Nat)
  | storeWord (off : Nat) (v : BitVec 32)
  | loadByte (off : Nat)
  | storeByte (off : Nat) (b : BitVec 8)
  deriving DecidableEq

namespace Access

/-- What an access is answered with. -/
abbrev Answer : Access → Type
  | loadWord _ => BitVec 32
  | storeWord _ _ => Unit
  | loadByte _ => BitVec 8
  | storeByte _ _ => Unit

/-- The address of an access, and how many bytes it touches. -/
def span : Access → Nat × Nat
  | loadWord off | storeWord off _ => (off, 4)
  | loadByte off | storeByte off _ => (off, 1)

/-- The access touches only bytes below `len`. -/
def Inside (len : Nat) (a : Access) : Prop := a.span.1 + a.span.2 ≤ len

instance (len : Nat) (a : Access) : Decidable (a.Inside len) :=
  inferInstanceAs (Decidable (_ ≤ _))

end Access

namespace Memory

/-- The word at `off`, least significant byte first. -/
def word (m : Memory) (off : Nat) : BitVec 32 :=
  BitVec.ofNat 32 (LittleEndian.decode [m off, m (off + 1), m (off + 2), m (off + 3)])

def setByte (m : Memory) (off : Nat) (b : BitVec 8) : Memory := fun i => if i = off then b else m i

def setWord (m : Memory) (off : Nat) (v : BitVec 32) : Memory := fun i =>
  if off ≤ i then (LittleEndian.encode 4 v.toNat)[i - off]?.getD (m i) else m i

variable {m : Memory} {off off' i : Nat} {b : BitVec 8} {v : BitVec 32}

@[simp] theorem setByte_self : m.setByte off b off = b := if_pos rfl

theorem setByte_of_ne (h : i ≠ off) : m.setByte off b i = m i := if_neg h

theorem setWord_of_outside (h : i < off ∨ off + 4 ≤ i) : m.setWord off v i = m i := by
  unfold setWord
  split
  · rw [List.getElem?_eq_none (by rw [LittleEndian.length_encode]; omega), Option.getD_none]
  · rfl

@[simp] theorem word_setWord : (m.setWord off v).word off = v := by
  have hbytes : [m.setWord off v off, m.setWord off v (off + 1), m.setWord off v (off + 2),
      m.setWord off v (off + 3)] = LittleEndian.encode 4 v.toNat := by
    simp [setWord, LittleEndian.encode]
  rw [word, hbytes]
  exact LittleEndian.ofNat_decode_encode (show 32 = 8 * 4 from rfl) v

/-- A word depends on its four bytes alone. -/
theorem word_congr {m' : Memory} (h : ∀ i, off ≤ i → i < off + 4 → m' i = m i) :
    m'.word off = m.word off := by
  rw [word, word, h off (by omega) (by omega), h (off + 1) (by omega) (by omega),
    h (off + 2) (by omega) (by omega), h (off + 3) (by omega) (by omega)]

theorem word_setWord_of_disjoint (h : off + 4 ≤ off' ∨ off' + 4 ≤ off) :
    (m.setWord off' v).word off = m.word off :=
  word_congr fun _ _ _ => setWord_of_outside (by omega)

theorem word_setByte_of_outside (h : i < off ∨ off + 4 ≤ i) :
    (m.setByte i b).word off = m.word off :=
  word_congr fun _ _ _ => setByte_of_ne (by omega)

end Memory

namespace Access

/-- One access in sequentially consistent memory: its answer, and the memory after it. -/
def perform : (a : Access) → Memory → a.Answer × Memory
  | loadWord off, m => (m.word off, m)
  | storeWord off v, m => ((), m.setWord off v)
  | loadByte off, m => (m off, m)
  | storeByte off b, m => ((), m.setByte off b)

end Access

/-- A program of one party of a shared memory. -/
abbrev MemProgram (α : Type) : Type := Program Access Access.Answer α

namespace MemProgram

open Program

def loadWord (off : Nat) : MemProgram (BitVec 32) := request (.loadWord off) done

def storeWord (off : Nat) (v : BitVec 32) : MemProgram Unit := request (.storeWord off v) done

/-- Stores bytes one by one. -/
def writeBytes (off : Nat) : List (BitVec 8) → MemProgram Unit
  | [] => done ()
  | b :: rest => request (.storeByte off b) fun _ => writeBytes (off + 1) rest

/-- Loads `n` bytes one by one, behind those already loaded. -/
def readBytes (off : Nat) : Nat → List (BitVec 8) → MemProgram (List (BitVec 8))
  | 0, loaded => done loaded
  | n + 1, loaded => request (.loadByte off) fun b => readBytes (off + 1) n (loaded ++ [b])

variable {len off n : Nat}

theorem inside_loadWord (h : off + 4 ≤ len) : (loadWord off).Always (Access.Inside len) :=
  ⟨h, fun _ => trivial⟩

theorem inside_storeWord {v : BitVec 32} (h : off + 4 ≤ len) :
    (storeWord off v).Always (Access.Inside len) :=
  ⟨h, fun _ => trivial⟩

theorem inside_writeBytes {bytes : List (BitVec 8)} (h : off + bytes.length ≤ len) :
    (writeBytes off bytes).Always (Access.Inside len) := by
  induction bytes generalizing off with
  | nil => exact trivial
  | cons b rest ih =>
    rw [List.length_cons] at h
    exact ⟨show off + 1 ≤ len by omega, fun _ => ih (by omega)⟩

theorem inside_readBytes {loaded : List (BitVec 8)} (h : off + n ≤ len) :
    (readBytes off n loaded).Always (Access.Inside len) := by
  induction n generalizing off loaded with
  | zero => exact trivial
  | succ n ih => exact ⟨show off + 1 ≤ len by omega, fun _ => ih (by omega)⟩

/-- What a run of `readBytes` exchanged: the bytes it answers, each from its place. -/
theorem runs_readBytes {loaded bytes : List (BitVec 8)}
    {trace : List (Exchange Access Access.Answer)} (h : Runs (readBytes off n loaded) trace bytes) :
    ∃ fresh, bytes = loaded ++ fresh ∧ fresh.length = n ∧
      trace.map Sigma.fst = (List.range' off n).map .loadByte := by
  induction n generalizing off loaded trace with
  | zero =>
    obtain ⟨rfl, rfl⟩ := runs_done_iff.1 h
    exact ⟨[], (List.append_nil _).symm, rfl, rfl⟩
  | succ n ih =>
    obtain ⟨b, rest, rfl, hrest⟩ := runs_request_iff.1 h
    obtain ⟨fresh, rfl, hlen, htrace⟩ := ih hrest
    refine ⟨b :: fresh, by simp, by rw [List.length_cons, hlen], ?_⟩
    rw [List.map_cons, htrace, List.range'_succ, List.map_cons]

end MemProgram

end SlateOS.Foundation
