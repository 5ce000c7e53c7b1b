/-
# SlateOS.Netring.Spsc -- one producer and one consumer on a queue

The two parties' calls run access by access against one memory, in any order, and other parties may
write any byte that is not the queue's. The bookkeeping beside the memory -- what has been pushed and
popped, and how much had been pushed at the producer's last look that found the consumer awake -- is read
by no step.
-/
import SlateOS.Foundation.Runs
import SlateOS.Netring.Bounds

namespace SlateOS.Netring

open Foundation Foundation.MemProgram Foundation.Runs

/-- The call of the producer that is under way. -/
inductive Producer (ε : Type)
  | idle
  | pushing (e : ε) (rest : MemProgram Bool)
  | looking (rest : MemProgram (BitVec 32))

/-- The call of the consumer that is under way, or its sleep. -/
inductive Consumer (ε : Type)
  | idle
  | popping (rest : MemProgram (Option ε))
  | fallingAsleep (number : BitVec 32) (rest : MemProgram Bool)
  | asleep (number : BitVec 32)
  | waking (rest : MemProgram Unit)

/-- A queue in use. -/
structure System (ε : Type) where
  memory : Memory
  producer : Producer ε
  consumer : Consumer ε
  pushed : List ε
  popped : List ε
  /-- How many entries had been pushed when the producer last found the sleep word 0. -/
  sawAwake : Nat

/-- What happens next: a party begins a call or makes one access, or somebody else writes a byte. -/
inductive Event (ε : Type)
  | push (e : ε)
  | look
  | produce
  | pop
  | sleep (number : BitVec 32)
  | wake
  | consume
  | other (off : Nat) (b : Byte)

/-- One access of a program. -/
def advance {α : Type} : MemProgram α → Memory → Option (MemProgram α × Memory)
  | .done _, _ => none
  | .request a next, m => some (next (a.perform m).1, (a.perform m).2)

namespace System

variable {ε : Type} (q : Queue ε) (s : System ε)

/-- A push after one of its accesses; it returns with its last. -/
def afterPush (e : ε) (m : Memory) : MemProgram Bool → System ε
  | .done true => { s with memory := m, producer := .idle, pushed := s.pushed ++ [e] }
  | .done false => { s with memory := m, producer := .idle }
  | rest => { s with memory := m, producer := .pushing e rest }

/-- A look after its access. -/
def afterLook (m : Memory) : MemProgram (BitVec 32) → System ε
  | .done number =>
    { s with
      memory := m, producer := .idle
      sawAwake := if number = 0 then s.pushed.length else s.sawAwake }
  | rest => { s with memory := m, producer := .looking rest }

def afterPop (m : Memory) : MemProgram (Option ε) → System ε
  | .done (some e) => { s with memory := m, consumer := .idle, popped := s.popped ++ [e] }
  | .done none => { s with memory := m, consumer := .idle }
  | rest => { s with memory := m, consumer := .popping rest }

def afterSleep (number : BitVec 32) (m : Memory) : MemProgram Bool → System ε
  | .done true => { s with memory := m, consumer := .asleep number }
  | .done false => { s with memory := m, consumer := .idle }
  | rest => { s with memory := m, consumer := .fallingAsleep number rest }

def afterWake (m : Memory) : MemProgram Unit → System ε
  | .done () => { s with memory := m, consumer := .idle }
  | rest => { s with memory := m, consumer := .waking rest }

end System

/-- The byte is one of the queue's words or entries. -/
def Queue.Owns {ε : Type} (q : Queue ε) (off : Nat) : Prop :=
  (q.headOff ≤ off ∧ off < q.headOff + 4) ∨ (q.tailOff ≤ off ∧ off < q.tailOff + 4) ∨
    (q.sleepOff ≤ off ∧ off < q.sleepOff + 4) ∨ (q.arrayOff ≤ off ∧ off < q.arrayEnd)

instance {ε : Type} (q : Queue ε) (off : Nat) : Decidable (q.Owns off) :=
  inferInstanceAs (Decidable (_ ∨ _))

/-- One step of a queue in use. -/
def step {ε : Type} (q : Queue ε) (s : System ε) : Event ε → Option (System ε)
  | .push e =>
    match s.producer with
    | .idle => some { s with producer := .pushing e (q.push e) }
    | _ => none
  | .look =>
    match s.producer with
    | .idle => some { s with producer := .looking q.sleeper }
    | _ => none
  | .produce =>
    match s.producer with
    | .idle => none
    | .pushing e rest => (advance rest s.memory).map fun p => s.afterPush e p.2 p.1
    | .looking rest => (advance rest s.memory).map fun p => s.afterLook p.2 p.1
  | .pop =>
    match s.consumer with
    | .idle => some { s with consumer := .popping q.pop }
    | _ => none
  | .sleep number =>
    match s.consumer with
    | .idle => some { s with consumer := .fallingAsleep number (q.sleep number) }
    | _ => none
  | .wake =>
    match s.consumer with
    | .idle | .asleep _ => some { s with consumer := .waking q.wake }
    | _ => none
  | .consume =>
    match s.consumer with
    | .idle | .asleep _ => none
    | .popping rest => (advance rest s.memory).map fun p => s.afterPop p.2 p.1
    | .fallingAsleep number rest =>
      (advance rest s.memory).map fun p => s.afterSleep number p.2 p.1
    | .waking rest => (advance rest s.memory).map fun p => s.afterWake p.2 p.1
  | .other off b =>
    if q.Owns off then none else some { s with memory := s.memory.setByte off b }

/-- A queue as `init` leaves it: the indices and the sleep word 0, and nobody using it. -/
def Fresh {ε : Type} (q : Queue ε) (s : System ε) : Prop :=
  ∃ m : Memory, m.word q.headOff = 0 ∧ m.word q.tailOff = 0 ∧ m.word q.sleepOff = 0 ∧
    s = { memory := m, producer := .idle, consumer := .idle, pushed := [], popped := [], sawAwake := 0 }

/-! ## Index arithmetic over the counts -/

theorem exists_pow_of_isPowerOfTwo {n : BitVec 32} (h : isPowerOfTwo n = true) :
    ∃ k, k < 32 ∧ n.toNat = 2 ^ k := by
  obtain ⟨hpos, hsub⟩ := toNat_sub_one h
  have hand : n.toNat &&& (n.toNat - 1) = 0 := by
    unfold isPowerOfTwo at h
    rw [Bool.and_eq_true, beq_iff_eq] at h
    rw [← hsub, ← BitVec.toNat_and, h.2]
    rfl
  obtain ⟨k, hk⟩ := (Nat.and_sub_one_eq_zero_iff_isPowerOfTwo (Nat.pos_iff_ne_zero.1 hpos)).1 hand
  refine ⟨k, ?_, hk⟩
  have hlt := n.isLt
  rw [hk] at hlt
  exact (Nat.pow_lt_pow_iff_right (by decide)).1 hlt

/-- The slot of a count. -/
theorem slot_ofNat {entries : BitVec 32} (h : isPowerOfTwo entries = true) (n : Nat) :
    (slot (BitVec.ofNat 32 n) entries).toNat = n % entries.toNat := by
  obtain ⟨k, hk, hpow⟩ := exists_pow_of_isPowerOfTwo h
  rw [slot, BitVec.toNat_and, (toNat_sub_one h).2, hpow, Nat.and_two_pow_sub_one_eq_mod,
    BitVec.toNat_ofNat, Nat.mod_mod_of_dvd n (Nat.pow_dvd_pow 2 hk.le)]

/-- The distance of two counts that are less than a round of the indices apart. -/
theorem used_ofNat {a b : Nat} (hle : a ≤ b) (hlt : b - a < 2 ^ 32) :
    (used (BitVec.ofNat 32 a) (BitVec.ofNat 32 b)).toNat = b - a := by
  rw [used, BitVec.toNat_sub, BitVec.toNat_ofNat, BitVec.toNat_ofNat]
  omega

/-- Two counts less than a round of the queue apart have slots of their own. -/
theorem mod_ne_of_lt {a b cap : Nat} (hne : a < b) (hlt : b < a + cap) : a % cap ≠ b % cap := by
  intro heq
  have hzero := Nat.sub_mod_eq_zero_of_mod_eq heq.symm
  rw [Nat.mod_eq_of_lt (by omega)] at hzero
  omega

/-! ## The invariant -/

namespace Queue

variable {ε : Type} (q : Queue ε)

/-- The capacity. -/
def cap : Nat := q.entries.toNat

/-- A push that has written `i` bytes of its entry. -/
def writing (e : ε) (tail : BitVec 32) (i : Nat) : MemProgram Bool := do
  writeBytes (q.entryOff tail + i) ((q.toBytes e).drop i)
  storeWord q.tailOff (tail + 1)
  return true

/-- A pop that has loaded some bytes of its entry. -/
def reading (head : BitVec 32) (loaded : List Byte) : MemProgram (Option ε) := do
  let buf ← readBytes (q.entryOff head + loaded.length) (q.entrySize - loaded.length) loaded
  q.consume head buf

/-- A consumer that found something and clears its word. -/
def clearing : MemProgram Bool := do
  storeWord q.sleepOff 0
  return false

/-- The first `n` bytes of the entry of a count are those of `e`. -/
def Holds (m : Memory) (count n : Nat) (e : ε) : Prop :=
  ∀ i < n, (q.toBytes e)[i]? = some (m (q.entryOff (BitVec.ofNat 32 count) + i))

/-- Where the producer is. -/
inductive ProducerAt (m : Memory) (pushed popped : List ε) : Producer ε → Prop
  | idle : ProducerAt m pushed popped .idle
  | start (e : ε) : ProducerAt m pushed popped (.pushing e (q.push e))
  | tail (e : ε) :
      ProducerAt m pushed popped (.pushing e (q.pushFrom e (BitVec.ofNat 32 pushed.length)))
  | writing (e : ε) (i : Nat) (hi : i ≤ q.entrySize)
      (hroom : pushed.length < popped.length + q.cap) (hheld : q.Holds m pushed.length i e) :
      ProducerAt m pushed popped (.pushing e (q.writing e (BitVec.ofNat 32 pushed.length) i))
  | looking : ProducerAt m pushed popped (.looking q.sleeper)

/-- Where the consumer is. -/
inductive ConsumerAt (m : Memory) (pushed popped : List ε) (sawAwake : Nat) : Consumer ε → Prop
  | idle : ConsumerAt m pushed popped sawAwake .idle
  | start : ConsumerAt m pushed popped sawAwake (.popping q.pop)
  | head : ConsumerAt m pushed popped sawAwake (.popping (q.popFrom (BitVec.ofNat 32 popped.length)))
  | reading (e : ε) (n : Nat) (hn : n ≤ q.entrySize) (he : pushed[popped.length]? = some e) :
      ConsumerAt m pushed popped sawAwake
        (.popping (q.reading (BitVec.ofNat 32 popped.length) ((q.toBytes e).take n)))
  | sleep (number : BitVec 32) :
      ConsumerAt m pushed popped sawAwake (.fallingAsleep number (q.sleep number))
  | sleepLook (number : BitVec 32) (hword : m.word q.sleepOff = number) :
      ConsumerAt m pushed popped sawAwake (.fallingAsleep number q.sleepLook)
  | sleepHead (number : BitVec 32) (hword : m.word q.sleepOff = number) :
      ConsumerAt m pushed popped sawAwake
        (.fallingAsleep number (q.sleepFrom (BitVec.ofNat 32 popped.length)))
  | clearing (number : BitVec 32) :
      ConsumerAt m pushed popped sawAwake (.fallingAsleep number q.clearing)
  | asleep (number : BitVec 32) (hword : m.word q.sleepOff = number)
      (hseen : number ≠ 0 → sawAwake ≤ popped.length) :
      ConsumerAt m pushed popped sawAwake (.asleep number)
  | waking : ConsumerAt m pushed popped sawAwake (.waking q.wake)

/-- The invariant of a queue in use. -/
structure Inv (s : System ε) : Prop where
  head : s.memory.word q.headOff = BitVec.ofNat 32 s.popped.length
  tail : s.memory.word q.tailOff = BitVec.ofNat 32 s.pushed.length
  order : s.popped.length ≤ s.pushed.length
  room : s.pushed.length ≤ s.popped.length + q.cap
  taken : s.popped = s.pushed.take s.popped.length
  held : ∀ i e, s.popped.length ≤ i → s.pushed[i]? = some e → q.Holds s.memory i q.entrySize e
  seen : s.sawAwake ≤ s.pushed.length
  producer : q.ProducerAt s.memory s.pushed s.popped s.producer
  consumer : q.ConsumerAt s.memory s.pushed s.popped s.sawAwake s.consumer

variable {q} {s : System ε} {m : Memory}

/-! ## What an access changes -/

/-- The same words of the queue, and the same bytes of its entries. -/
structure SameView (q : Queue ε) (m m' : Memory) : Prop where
  head : m'.word q.headOff = m.word q.headOff
  tail : m'.word q.tailOff = m.word q.tailOff
  sleep : m'.word q.sleepOff = m.word q.sleepOff
  entries : ∀ i, q.arrayOff ≤ i → i < q.arrayEnd → m' i = m i

theorem entryOff_le (h : q.Sound) (count : Nat) :
    q.arrayOff ≤ q.entryOff (BitVec.ofNat 32 count) ∧
      q.entryOff (BitVec.ofNat 32 count) + q.entrySize ≤ q.arrayEnd :=
  ⟨Nat.le_add_right _ _, h.entryOff_add_le _⟩

/-- The entries of two counts less than a round apart do not overlap. -/
theorem entryOff_disjoint (h : q.Sound) {a b : Nat} (hne : a < b) (hlt : b < a + q.cap) :
    q.entryOff (BitVec.ofNat 32 a) + q.entrySize ≤ q.entryOff (BitVec.ofNat 32 b) ∨
      q.entryOff (BitVec.ofNat 32 b) + q.entrySize ≤ q.entryOff (BitVec.ofNat 32 a) := by
  have hslots := mod_ne_of_lt hne hlt
  rw [cap, ← slot_ofNat h.power, ← slot_ofNat h.power] at hslots
  have hmul : ∀ x y : Nat, x < y → x * q.entrySize + q.entrySize ≤ y * q.entrySize := by
    intro x y hxy
    rw [← Nat.succ_mul]
    exact Nat.mul_le_mul_right _ hxy
  unfold entryOff
  obtain hlt | hlt := Nat.lt_or_gt_of_ne hslots
  · have hle := hmul _ _ hlt
    exact .inl (by omega)
  · have hle := hmul _ _ hlt
    exact .inr (by omega)

variable {m' : Memory} {e : ε}

theorem Holds.congr {count n : Nat} (hheld : q.Holds m count n e)
    (h : ∀ i < n, m' (q.entryOff (BitVec.ofNat 32 count) + i) =
      m (q.entryOff (BitVec.ofNat 32 count) + i)) : q.Holds m' count n e := by
  intro i hi
  rw [hheld i hi, h i hi]

/-- What an entry holds does not depend on the words. -/
theorem Holds.of_entries (h : q.Sound) {count n : Nat}
    (hn : n ≤ q.entrySize) (hheld : q.Holds m count n e)
    (hsame : ∀ i, q.arrayOff ≤ i → i < q.arrayEnd → m' i = m i) : q.Holds m' count n e := by
  obtain ⟨hlow, hhigh⟩ := entryOff_le h count
  exact hheld.congr fun i hi => hsame _ (by omega) (by omega)

/-- A word of the queue is none of its entries. -/
theorem entries_setWord {off : Nat} {v : BitVec 32} (hoff : off + 4 ≤ q.arrayOff) :
    ∀ i, q.arrayOff ≤ i → i < q.arrayEnd → m.setWord off v i = m i :=
  fun _ hi _ => Memory.setWord_of_outside (by omega)

/-- Another party's byte is none of the queue's. -/
theorem sameView_of_other {off : Nat} {b : Byte} (hoff : ¬ q.Owns off) :
    q.SameView m (m.setByte off b) := by
  unfold Owns at hoff
  refine ⟨?_, ?_, ?_, fun i hi hi' => Memory.setByte_of_ne (by omega)⟩
  all_goals exact Memory.word_setByte_of_outside (by omega)

theorem ProducerAt.of_entries (h : q.Sound) {pushed popped : List ε} {p : Producer ε}
    (hp : q.ProducerAt m pushed popped p)
    (hsame : ∀ i, q.arrayOff ≤ i → i < q.arrayEnd → m' i = m i) : q.ProducerAt m' pushed popped p := by
  cases hp with
  | idle => exact .idle
  | start e => exact .start e
  | tail e => exact .tail e
  | writing e i hi hroom hheld => exact .writing e i hi hroom (hheld.of_entries h hi hsame)
  | looking => exact .looking

variable {c : Consumer ε}

/-- The consumer's place depends on its sleep word alone, and outlives more pushes. -/
theorem ConsumerAt.of_sleep {pushed popped more : List ε} {sawAwake : Nat} (hc : q.ConsumerAt m pushed popped sawAwake c)
    (hsleep : m'.word q.sleepOff = m.word q.sleepOff) :
    q.ConsumerAt m' (pushed ++ more) popped sawAwake c := by
  cases hc with
  | idle => exact .idle
  | start => exact .start
  | head => exact .head
  | reading e n hn he =>
    refine .reading e n hn ?_
    obtain ⟨hlt, _⟩ := List.getElem?_eq_some_iff.1 he
    rw [List.getElem?_append_left hlt, he]
  | sleep number => exact .sleep number
  | sleepLook number hword => exact .sleepLook number (hsleep.trans hword)
  | sleepHead number hword => exact .sleepHead number (hsleep.trans hword)
  | clearing number => exact .clearing number
  | asleep number hword hseen => exact .asleep number (hsleep.trans hword) hseen
  | waking => exact .waking

theorem ConsumerAt.congr {pushed popped : List ε} {sawAwake : Nat} (hc : q.ConsumerAt m pushed popped sawAwake c)
    (hsleep : m'.word q.sleepOff = m.word q.sleepOff) : q.ConsumerAt m' pushed popped sawAwake c := by
  have happ : q.ConsumerAt m' (pushed ++ []) popped sawAwake c := hc.of_sleep hsleep
  rwa [List.append_nil] at happ

/-- A step that changes neither the queue's part of the memory nor what was pushed and popped. -/
theorem Inv.move (h : q.Sound) (hinv : q.Inv s) {p : Producer ε}
    (hview : q.SameView s.memory m') (hp : q.ProducerAt s.memory s.pushed s.popped p)
    (hc : q.ConsumerAt s.memory s.pushed s.popped s.sawAwake c) :
    q.Inv { s with memory := m', producer := p, consumer := c } where
  head := hview.head.trans hinv.head
  tail := hview.tail.trans hinv.tail
  order := hinv.order
  room := hinv.room
  taken := hinv.taken
  held i e hi he := (hinv.held i e hi he).of_entries h (Nat.le_refl _) hview.entries
  seen := hinv.seen
  producer := hp.of_entries h hview.entries
  consumer := hc.congr hview.sleep

theorem SameView.refl (m : Memory) : q.SameView m m := ⟨rfl, rfl, rfl, fun _ _ _ => rfl⟩

/-! ## The producer's accesses -/

variable {i : Nat}

theorem exists_request_writing (h : q.Sound) (e : ε) (t : BitVec 32)
    (hi : i ≤ q.entrySize) : ∃ a next, q.writing e t i = .request a next := by
  obtain hlt | rfl := Nat.lt_or_eq_of_le hi
  · rw [← h.length_toBytes e] at hlt
    exact ⟨_, _, by rw [writing, List.drop_eq_getElem_cons hlt]; rfl⟩
  · exact ⟨_, _, by rw [writing, ← h.length_toBytes e, List.drop_length]; rfl⟩

theorem advance_writing_of_lt {t : BitVec 32} (hi : i < (q.toBytes e).length) :
    advance (q.writing e t i) m =
      some (q.writing e t (i + 1), m.setByte (q.entryOff t + i) (q.toBytes e)[i]) := by
  rw [writing, List.drop_eq_getElem_cons hi]
  rfl

theorem advance_writing_of_eq {t : BitVec 32} (hi : i = (q.toBytes e).length) :
    advance (q.writing e t i) m = some (.done true, m.setWord q.tailOff (t + 1)) := by
  rw [writing, hi, List.drop_length]
  rfl

theorem afterPush_writing (h : q.Sound) (e : ε) (t : BitVec 32) (hi : i ≤ q.entrySize) :
    s.afterPush e m (q.writing e t i) =
      { s with memory := m, producer := .pushing e (q.writing e t i) } := by
  obtain ⟨a, next, heq⟩ := exists_request_writing h e t hi
  rw [heq]
  rfl

theorem ofNat_succ (n : Nat) : BitVec.ofNat 32 n + 1 = BitVec.ofNat 32 (n + 1) := by
  rw [BitVec.ofNat_add]
  rfl

/-- A byte of the entry under way leaves the words and the entries that wait. -/
theorem Inv.writeByte (h : q.Sound) (hinv : q.Inv s) {b : Byte}
    (hb : (q.toBytes e)[i]? = some b) (hi : i < q.entrySize)
    (hroom : s.pushed.length < s.popped.length + q.cap) (hheld : q.Holds s.memory s.pushed.length i e) :
    q.Inv { s with
      memory := s.memory.setByte (q.entryOff (BitVec.ofNat 32 s.pushed.length) + i) b
      producer := .pushing e (q.writing e (BitVec.ofNat 32 s.pushed.length) (i + 1)) } := by
  obtain ⟨hlow, hhigh⟩ := entryOff_le h s.pushed.length
  obtain ⟨hheadWord, htailWord, hsleepWord⟩ := h.words
  have hword : ∀ off, off + 4 ≤ q.arrayOff → (s.memory.setByte
      (q.entryOff (BitVec.ofNat 32 s.pushed.length) + i) b).word off = s.memory.word off :=
    fun off hoff => Memory.word_setByte_of_outside (by omega)
  have hbytes : q.Holds (s.memory.setByte (q.entryOff (BitVec.ofNat 32 s.pushed.length) + i) b)
      s.pushed.length (i + 1) e := by
    intro j hj
    obtain hlt | rfl := Nat.lt_succ_iff_lt_or_eq.1 hj
    · rw [Memory.setByte_of_ne (by omega)]
      exact hheld j hlt
    · rw [Memory.setByte_self, hb]
  exact {
    head := (hword _ hheadWord).trans hinv.head
    tail := (hword _ htailWord).trans hinv.tail
    order := hinv.order
    room := hinv.room
    taken := hinv.taken
    held := by
      intro j e' (hj : s.popped.length ≤ j) (he' : s.pushed[j]? = some e')
      obtain ⟨hlt, _⟩ := List.getElem?_eq_some_iff.1 he'
      have hdisjoint := entryOff_disjoint h hlt (by omega)
      exact (hinv.held j e' hj he').congr fun k hk => Memory.setByte_of_ne (by omega)
    seen := hinv.seen
    producer := .writing e (i + 1) hi hroom hbytes
    consumer := hinv.consumer.congr (hword _ hsleepWord) }

/-- The tail publishes the entry. -/
theorem Inv.publish (h : q.Sound) (hinv : q.Inv s)
    (hroom : s.pushed.length < s.popped.length + q.cap)
    (hheld : q.Holds s.memory s.pushed.length q.entrySize e) :
    q.Inv { s with
      memory := s.memory.setWord q.tailOff (BitVec.ofNat 32 s.pushed.length + 1)
      producer := .idle
      pushed := s.pushed ++ [e] } := by
  obtain ⟨_, htailWord, _⟩ := h.words
  have hentries := entries_setWord (m := s.memory)
    (v := BitVec.ofNat 32 s.pushed.length + 1) htailWord
  have hlen : (s.pushed ++ [e]).length = s.pushed.length + 1 := List.length_append
  have horder := hinv.order
  exact {
    head := (Memory.word_setWord_of_disjoint h.headTail).trans hinv.head
    tail := by
      rw [Memory.word_setWord, hlen, ofNat_succ]
    order := by
      show s.popped.length ≤ (s.pushed ++ [e]).length
      omega
    room := by
      show (s.pushed ++ [e]).length ≤ s.popped.length + q.cap
      omega
    taken := by
      rw [List.take_append_of_le_length horder]
      exact hinv.taken
    held := by
      intro i e' (hi : s.popped.length ≤ i) (he' : (s.pushed ++ [e])[i]? = some e')
      obtain hlt | hge := Nat.lt_or_ge i s.pushed.length
      · rw [List.getElem?_append_left hlt] at he'
        exact (hinv.held i e' hi he').of_entries h (Nat.le_refl _) hentries
      · obtain ⟨hbound, _⟩ := List.getElem?_eq_some_iff.1 he'
        obtain rfl : i = s.pushed.length := by omega
        rw [List.getElem?_append_right (Nat.le_refl _), Nat.sub_self] at he'
        cases he'
        exact hheld.of_entries h (Nat.le_refl _) hentries
    seen := by
      have hseen := hinv.seen
      show s.sawAwake ≤ (s.pushed ++ [e]).length
      omega
    producer := .idle
    consumer := hinv.consumer.of_sleep (Memory.word_setWord_of_disjoint h.tailSleep.symm) }

/-- **The producer's step.** -/
theorem Inv.produce (h : q.Sound) (hinv : q.Inv s) {t : System ε}
    (hstep : step q s .produce = some t) : q.Inv t := by
  have hprod := hinv.producer
  unfold step at hstep
  generalize hp : s.producer = p at hprod hstep
  cases hprod with
  | idle => simp at hstep
  | start e =>
    cases hstep
    have hmove := hinv.move h (SameView.refl _) (.tail e) hinv.consumer
    rw [← hinv.tail] at hmove
    exact hmove
  | tail e =>
    have hadvance : advance (q.pushFrom e (BitVec.ofNat 32 s.pushed.length)) s.memory =
        some (if isFull (s.memory.word q.headOff) (BitVec.ofNat 32 s.pushed.length) q.entries then
          .done false else q.publish e (BitVec.ofNat 32 s.pushed.length), s.memory) := rfl
    simp only [hadvance, Option.map_some, Option.some.injEq] at hstep
    subst hstep
    have horder := hinv.order
    have hroom := hinv.room
    have hcap : q.cap < 2 ^ 32 := q.entries.isLt
    by_cases hfull : isFull (s.memory.word q.headOff) (BitVec.ofNat 32 s.pushed.length) q.entries
    · rw [if_pos hfull]
      exact hinv.move h (SameView.refl _) .idle hinv.consumer
    · rw [if_neg hfull]
      have hwriting : q.publish e (BitVec.ofNat 32 s.pushed.length) =
          q.writing e (BitVec.ofNat 32 s.pushed.length) 0 := rfl
      rw [hwriting, afterPush_writing h e _ (Nat.zero_le _)]
      -- the head may have moved on since, which only makes more room
      rw [isFull, decide_eq_true_iff, hinv.head] at hfull
      have hused := used_ofNat horder (by omega)
      refine hinv.move h (SameView.refl _) (.writing e 0 (Nat.zero_le _) ?_ ?_) hinv.consumer
      · have hlt : (used (BitVec.ofNat 32 s.popped.length) (BitVec.ofNat 32 s.pushed.length)).toNat <
            q.entries.toNat := BitVec.not_le.1 hfull
        rw [cap]
        omega
      · exact fun i hi => absurd hi (Nat.not_lt_zero i)
  | writing e i hi hroom hheld =>
    obtain hlt | rfl := Nat.lt_or_eq_of_le hi
    · have hbyte : i < (q.toBytes e).length := by
        rw [h.length_toBytes]
        exact hlt
      simp only [advance_writing_of_lt hbyte, Option.map_some, Option.some.injEq] at hstep
      rw [afterPush_writing h e _ hlt] at hstep
      subst hstep
      exact hinv.writeByte h (List.getElem?_eq_getElem hbyte) hlt hroom hheld
    · simp only [advance_writing_of_eq (h.length_toBytes e).symm, Option.map_some,
        Option.some.injEq] at hstep
      subst hstep
      exact hinv.publish h hroom hheld
  | looking =>
    cases hstep
    have hmove := hinv.move h (SameView.refl _) .idle hinv.consumer
    have horder := hinv.order
    refine { hmove with seen := ?_, consumer := ?_ }
    · show (if _ then s.pushed.length else s.sawAwake) ≤ s.pushed.length
      split
      · exact Nat.le_refl _
      · exact hinv.seen
    · show q.ConsumerAt s.memory s.pushed s.popped
        (if s.memory.word q.sleepOff = 0 then s.pushed.length else s.sawAwake) s.consumer
      have hcons := hinv.consumer
      generalize s.consumer = c at hcons
      cases hcons with
      | idle => exact .idle
      | start => exact .start
      | head => exact .head
      | reading e n hn he => exact .reading e n hn he
      | sleep number => exact .sleep number
      | sleepLook number hword => exact .sleepLook number hword
      | sleepHead number hword => exact .sleepHead number hword
      | clearing number => exact .clearing number
      | asleep number hword hseen =>
        refine .asleep number hword fun hne => ?_
        rw [hword, if_neg hne]
        exact hseen hne
      | waking => exact .waking

/-! ## The consumer's accesses -/

theorem advance_reading_of_lt {t : BitVec 32} {loaded : List Byte} (hlt : loaded.length < q.entrySize) :
    advance (q.reading t loaded) m =
      some (q.reading t (loaded ++ [m (q.entryOff t + loaded.length)]), m) := by
  have hmore : q.entrySize - loaded.length = (q.entrySize - (loaded.length + 1)) + 1 := by omega
  rw [reading, hmore, reading, List.length_append, List.length_singleton]
  rfl

theorem reading_of_full (h : q.Sound) (t : BitVec 32) (e : ε) :
    q.reading t (q.toBytes e) = .request (.storeWord q.headOff (t + 1)) fun _ => .done (some e) := by
  rw [reading, h.length_toBytes, Nat.sub_self]
  show q.consume t (q.toBytes e) = _
  rw [consume, h.fromBytes_toBytes]
  rfl

variable {n : Nat}

theorem exists_request_reading (h : q.Sound) (t : BitVec 32) (e : ε)
    (hn : n ≤ q.entrySize) : ∃ a next, q.reading t ((q.toBytes e).take n) = .request a next := by
  have hlen : ((q.toBytes e).take n).length = n := by
    rw [List.length_take, h.length_toBytes]
    omega
  obtain hlt | rfl := Nat.lt_or_eq_of_le hn
  · have hmore : q.entrySize - n = (q.entrySize - (n + 1)) + 1 := by omega
    exact ⟨_, _, by rw [reading, hlen, hmore]; rfl⟩
  · rw [List.take_of_length_le (Nat.le_of_eq (h.length_toBytes e)), reading_of_full h]
    exact ⟨_, _, rfl⟩

theorem afterPop_reading (h : q.Sound) (t : BitVec 32) (e : ε) (hn : n ≤ q.entrySize) :
    s.afterPop m (q.reading t ((q.toBytes e).take n)) =
      { s with memory := m, consumer := .popping (q.reading t ((q.toBytes e).take n)) } := by
  obtain ⟨a, next, heq⟩ := exists_request_reading h t e hn
  rw [heq]
  rfl

/-- The head gives the slot of the entry back. -/
theorem Inv.take (h : q.Sound) (hinv : q.Inv s) (he : s.pushed[s.popped.length]? = some e) :
    q.Inv { s with
      memory := s.memory.setWord q.headOff (BitVec.ofNat 32 s.popped.length + 1)
      consumer := .idle
      popped := s.popped ++ [e] } := by
  obtain ⟨hheadWord, _, _⟩ := h.words
  have hentries := entries_setWord (m := s.memory)
    (v := BitVec.ofNat 32 s.popped.length + 1) hheadWord
  have hlen : (s.popped ++ [e]).length = s.popped.length + 1 := List.length_append
  obtain ⟨hlt, _⟩ := List.getElem?_eq_some_iff.1 he
  have hroom := hinv.room
  exact {
    head := by
      rw [Memory.word_setWord, hlen, ofNat_succ]
    tail := (Memory.word_setWord_of_disjoint h.headTail.symm).trans hinv.tail
    order := by
      show (s.popped ++ [e]).length ≤ s.pushed.length
      omega
    room := by
      show s.pushed.length ≤ (s.popped ++ [e]).length + q.cap
      omega
    taken := by
      show s.popped ++ [e] = s.pushed.take (s.popped ++ [e]).length
      rw [hlen, List.take_add_one, he, ← hinv.taken]
      rfl
    held := by
      intro i e' (hi : (s.popped ++ [e]).length ≤ i) (he' : s.pushed[i]? = some e')
      exact (hinv.held i e' (by omega) he').of_entries h (Nat.le_refl _) hentries
    seen := hinv.seen
    producer := by
      have hprod := hinv.producer.of_entries h hentries
      show q.ProducerAt _ s.pushed (s.popped ++ [e]) s.producer
      generalize s.producer = p at hprod
      cases hprod with
      | idle => exact .idle
      | start e => exact .start e
      | tail e => exact .tail e
      | writing e i hi hroom hheld => exact .writing e i hi (by omega) hheld
      | looking => exact .looking
    consumer := .idle }

/-- The sleep word is the consumer's. -/
theorem Inv.setSleep (h : q.Sound) (hinv : q.Inv s) {v : BitVec 32}
    (hc : q.ConsumerAt (s.memory.setWord q.sleepOff v) s.pushed s.popped s.sawAwake c) :
    q.Inv { s with memory := s.memory.setWord q.sleepOff v, consumer := c } := by
  obtain ⟨_, _, hsleepWord⟩ := h.words
  have hentries := entries_setWord (m := s.memory) (v := v) hsleepWord
  exact {
    head := (Memory.word_setWord_of_disjoint h.headSleep).trans hinv.head
    tail := (Memory.word_setWord_of_disjoint h.tailSleep).trans hinv.tail
    order := hinv.order
    room := hinv.room
    taken := hinv.taken
    held := fun i e hi he => (hinv.held i e hi he).of_entries h (Nat.le_refl _) hentries
    seen := hinv.seen
    producer := hinv.producer.of_entries h hentries
    consumer := hc }

/-- The indices differ exactly when something waits, and are never broken. -/
theorem Inv.nothing_iff (hinv : q.Inv s) :
    (isEmpty (BitVec.ofNat 32 s.popped.length) (s.memory.word q.tailOff) ||
        isBroken (BitVec.ofNat 32 s.popped.length) (s.memory.word q.tailOff) q.entries) = true ↔
      s.popped.length = s.pushed.length := by
  have horder := hinv.order
  have hroom := hinv.room
  have hcap : q.cap < 2 ^ 32 := q.entries.isLt
  have hused := used_ofNat horder (by omega)
  rw [hinv.tail, Bool.or_eq_true]
  constructor
  · rintro (hempty | hbroken)
    · rw [isEmpty, beq_iff_eq] at hempty
      rw [used, hempty, BitVec.sub_self] at hused
      have hzero : (0#32).toNat = 0 := rfl
      omega
    · rw [isBroken, decide_eq_true_iff] at hbroken
      have hlt : q.entries.toNat <
          (used (BitVec.ofNat 32 s.popped.length) (BitVec.ofNat 32 s.pushed.length)).toNat := hbroken
      rw [cap] at hroom
      omega
  · intro heq
    rw [heq]
    exact .inl (beq_self_eq_true _)

/-- **The consumer's step.** -/
theorem Inv.consume (h : q.Sound) (hinv : q.Inv s) {t : System ε}
    (hstep : step q s .consume = some t) : q.Inv t := by
  have hcons := hinv.consumer
  have hnothing := hinv.nothing_iff
  unfold step at hstep
  generalize hc : s.consumer = c at hcons hstep
  cases hcons with
  | idle => simp at hstep
  | start =>
    cases hstep
    have hmove := hinv.move h (SameView.refl _) hinv.producer .head
    rw [← hinv.head] at hmove
    exact hmove
  | head =>
    have hadvance : advance (q.popFrom (BitVec.ofNat 32 s.popped.length)) s.memory =
        some (if isEmpty (BitVec.ofNat 32 s.popped.length) (s.memory.word q.tailOff) ||
            isBroken (BitVec.ofNat 32 s.popped.length) (s.memory.word q.tailOff) q.entries then
          .done none else q.reading (BitVec.ofNat 32 s.popped.length) [], s.memory) := rfl
    simp only [hadvance, Option.map_some, Option.some.injEq] at hstep
    subst hstep
    split
    · exact hinv.move h (SameView.refl _) hinv.producer .idle
    · rename_i hsome
      have hne : s.popped.length ≠ s.pushed.length := fun heq => hsome (hnothing.2 heq)
      have horder := hinv.order
      obtain ⟨e, he⟩ : ∃ e, s.pushed[s.popped.length]? = some e :=
        ⟨_, List.getElem?_eq_getElem (by omega)⟩
      have hafter := afterPop_reading (s := s) (m := s.memory) h (BitVec.ofNat 32 s.popped.length) e
        (Nat.zero_le _)
      rw [List.take_zero] at hafter
      rw [hafter]
      have hreading : q.ConsumerAt s.memory s.pushed s.popped s.sawAwake
          (.popping (q.reading (BitVec.ofNat 32 s.popped.length) ((q.toBytes e).take 0))) :=
        .reading e 0 (Nat.zero_le _) he
      exact hinv.move h (SameView.refl _) hinv.producer hreading
  | reading e n hn he =>
    have hlen : ((q.toBytes e).take n).length = n := by
      rw [List.length_take, h.length_toBytes]
      omega
    have hheld := hinv.held _ e (Nat.le_refl _) he
    obtain hlt | rfl := Nat.lt_or_eq_of_le hn
    · have hbyte : (q.toBytes e).take n ++
          [s.memory (q.entryOff (BitVec.ofNat 32 s.popped.length) + ((q.toBytes e).take n).length)] =
            (q.toBytes e).take (n + 1) := by
        rw [hlen, List.take_add_one, hheld n hlt]
        rfl
      simp only [advance_reading_of_lt (hlen.trans_lt hlt), Option.map_some, Option.some.injEq] at hstep
      rw [hbyte, afterPop_reading h _ e hlt] at hstep
      subst hstep
      exact hinv.move h (SameView.refl _) hinv.producer (.reading e (n + 1) hlt he)
    · rw [List.take_of_length_le (Nat.le_of_eq (h.length_toBytes e)), reading_of_full h] at hstep
      cases hstep
      exact hinv.take h he
  | sleep number =>
    cases hstep
    exact hinv.setSleep h (.sleepLook number Memory.word_setWord)
  | sleepLook number hword =>
    cases hstep
    have hmove := hinv.move h (SameView.refl _) hinv.producer (.sleepHead number hword)
    rw [← hinv.head] at hmove
    exact hmove
  | sleepHead number hword =>
    have hadvance : advance (q.sleepFrom (BitVec.ofNat 32 s.popped.length)) s.memory =
        some (if isEmpty (BitVec.ofNat 32 s.popped.length) (s.memory.word q.tailOff) ||
            isBroken (BitVec.ofNat 32 s.popped.length) (s.memory.word q.tailOff) q.entries then
          .done true else q.clearing, s.memory) := rfl
    simp only [hadvance, Option.map_some, Option.some.injEq] at hstep
    subst hstep
    split
    · rename_i hempty
      -- nothing waits, so that every look so far was before the last entry was taken
      have hall := hnothing.1 hempty
      refine hinv.move h (SameView.refl _) hinv.producer (.asleep number hword fun _ => ?_)
      rw [hall]
      exact hinv.seen
    · exact hinv.move h (SameView.refl _) hinv.producer (.clearing number)
  | clearing number =>
    cases hstep
    exact hinv.setSleep h .idle
  | asleep number hword hseen => simp at hstep
  | waking =>
    cases hstep
    exact hinv.setSleep h .idle

/-- **The step lemma.** -/
theorem Inv.step (h : q.Sound) (hinv : q.Inv s) {a : Event ε} {t : System ε}
    (hstep : Netring.step q s a = some t) : q.Inv t := by
  cases a with
  | push e =>
    simp only [Netring.step] at hstep
    split at hstep
    · cases hstep
      exact hinv.move h (SameView.refl _) (.start e) hinv.consumer
    · simp at hstep
  | look =>
    simp only [Netring.step] at hstep
    split at hstep
    · cases hstep
      exact hinv.move h (SameView.refl _) .looking hinv.consumer
    · simp at hstep
  | produce => exact hinv.produce h hstep
  | pop =>
    simp only [Netring.step] at hstep
    split at hstep
    · cases hstep
      exact hinv.move h (SameView.refl _) hinv.producer .start
    · simp at hstep
  | sleep number =>
    simp only [Netring.step] at hstep
    split at hstep
    · cases hstep
      exact hinv.move h (SameView.refl _) hinv.producer (.sleep number)
    · simp at hstep
  | wake =>
    simp only [Netring.step] at hstep
    split at hstep
    · cases hstep
      exact hinv.move h (SameView.refl _) hinv.producer .waking
    · cases hstep
      exact hinv.move h (SameView.refl _) hinv.producer .waking
    · simp at hstep
  | consume => exact hinv.consume h hstep
  | other off b =>
    simp only [Netring.step] at hstep
    split at hstep
    · simp at hstep
    · rename_i hoff
      cases hstep
      exact hinv.move h (sameView_of_other hoff) hinv.producer hinv.consumer

theorem Inv.of_fresh (hfresh : Fresh q s) : q.Inv s := by
  obtain ⟨m, hhead, htail, _, rfl⟩ := hfresh
  exact {
    head := hhead
    tail := htail
    order := Nat.le_refl _
    room := Nat.zero_le _
    taken := rfl
    held := by
      intro i e _ he
      simp at he
    seen := Nat.le_refl _
    producer := .idle
    consumer := .idle }

theorem Inv.of_reach (h : q.Sound) (hreach : Reach (Netring.step q) (Fresh q) s) : q.Inv s :=
  hreach.invariant (fun _ => Inv.of_fresh) fun _ _ _ hinv _ hstep => hinv.step h hstep

/-! ## The queue -/

/-- What the two parties can rely on. -/
structure Safe (q : Queue ε) (s : System ε) : Prop where
  /-- The entries come out in the order in which they went in. -/
  inOrder : s.popped <+: s.pushed
  /-- An entry that waits is still in its slot. -/
  intact : ∀ i e, s.popped.length ≤ i → s.pushed[i]? = some e → q.Holds s.memory i q.entrySize e
  /-- While the consumer sleeps, no waiting entry was followed by a look that found it awake. -/
  noLostWake : ∀ number, s.consumer = .asleep number → number ≠ 0 → s.sawAwake ≤ s.popped.length

theorem Inv.safe (hinv : q.Inv s) : q.Safe s where
  inOrder := hinv.taken ▸ List.take_prefix _ _
  intact := hinv.held
  noLostWake := by
    intro number hasleep hne
    have hcons := hinv.consumer
    rw [hasleep] at hcons
    cases hcons with
    | asleep _ _ hseen => exact hseen hne

end Queue

/-- **One producer, one consumer.** On either queue of a ring of any geometry, in every interleaving. -/
theorem Ring.queues_safe (r : Ring) :
    (∀ s, Reach (step r.sq) (Fresh r.sq) s → r.sq.Safe s) ∧
      ∀ s, Reach (step r.cq) (Fresh r.cq) s → r.cq.Safe s :=
  ⟨fun _ hreach => (Queue.Inv.of_reach r.sq_sound hreach).safe,
    fun _ hreach => (Queue.Inv.of_reach r.cq_sound hreach).safe⟩

end SlateOS.Netring
