/-
# SlateOS.Netring.Bounds -- a ring over a hostile region

Nothing is assumed about what the region holds: a load may be answered with anything. What `attach`
checks of the geometry is carried by the ring, and every access of every later call lies inside the
region because of it.
-/
import SlateOS.Netring.Ring

namespace SlateOS.Netring

open Foundation Foundation.MachineInt Foundation.MemProgram Foundation.Program

/-! ## Power-of-two capacities -/

theorem toNat_and_le_right (a b : BitVec 32) : (a &&& b).toNat ≤ b.toNat := by
  rw [BitVec.toNat_and]
  exact Nat.and_le_right

theorem toNat_sub_one {n : BitVec 32} (h : isPowerOfTwo n = true) :
    0 < n.toNat ∧ (n - 1).toNat = n.toNat - 1 := by
  have hne : n ≠ 0 := by
    intro hzero
    rw [hzero] at h
    exact Bool.noConfusion h
  have hpos : 0 < n.toNat := Nat.pos_of_ne_zero fun hzero => hne (BitVec.eq_of_toNat_eq hzero)
  refine ⟨hpos, ?_⟩
  bv_omega

/-- A slot is one of the ring's. -/
theorem slot_lt {entries : BitVec 32} (h : isPowerOfTwo entries = true) (index : BitVec 32) :
    (slot index entries).toNat < entries.toNat := by
  obtain ⟨hpos, hsub⟩ := toNat_sub_one h
  have hle := toNat_and_le_right index (entries - 1)
  rw [slot]
  omega

/-! ## One queue inside a region -/

namespace Queue

variable {ε : Type} {q : Queue ε} {len : Nat}

/-- What the geometry of a queue guarantees. -/
structure Sound (q : Queue ε) : Prop where
  power : isPowerOfTwo q.entries = true
  length_toBytes : ∀ e, (q.toBytes e).length = q.entrySize
  fromBytes_toBytes : ∀ e, q.fromBytes (q.toBytes e) = some e
  fromBytes_isSome : ∀ b : List Byte, b.length = q.entrySize → (q.fromBytes b).isSome = true
  /-- The words are three, and all in front of the entries. -/
  words : q.headOff + 4 ≤ q.arrayOff ∧ q.tailOff + 4 ≤ q.arrayOff ∧ q.sleepOff + 4 ≤ q.arrayOff
  headTail : q.headOff + 4 ≤ q.tailOff ∨ q.tailOff + 4 ≤ q.headOff
  headSleep : q.headOff + 4 ≤ q.sleepOff ∨ q.sleepOff + 4 ≤ q.headOff
  tailSleep : q.tailOff + 4 ≤ q.sleepOff ∨ q.sleepOff + 4 ≤ q.tailOff

/-- Where the entries end. -/
def arrayEnd (q : Queue ε) : Nat := q.arrayOff + q.entries.toNat * q.entrySize

/-- An entry lies among the entries. -/
theorem Sound.entryOff_add_le (h : q.Sound) (index : BitVec 32) :
    q.entryOff index + q.entrySize ≤ q.arrayEnd := by
  have hslot := slot_lt h.power index
  have hle : ((slot index q.entries).toNat + 1) * q.entrySize ≤ q.entries.toNat * q.entrySize :=
    Nat.mul_le_mul_right _ hslot
  rw [Nat.succ_mul] at hle
  rw [entryOff, arrayEnd]
  omega

variable (h : q.Sound) (hlen : q.arrayEnd ≤ len)

include h hlen

theorem Sound.words_le :
    q.headOff + 4 ≤ len ∧ q.tailOff + 4 ≤ len ∧ q.sleepOff + 4 ≤ len := by
  have hwords := h.words
  rw [arrayEnd] at hlen
  omega

theorem Sound.inside_push (e : ε) : (q.push e).Always (Access.Inside len) := by
  obtain ⟨hhead, htail, _⟩ := h.words_le hlen
  apply (inside_loadWord htail).bind
  intro tail
  apply (inside_loadWord hhead).bind
  intro head
  split
  · exact trivial
  · have hentry := h.entryOff_add_le tail
    have hbytes := h.length_toBytes e
    apply (inside_writeBytes (by omega)).bind
    intro _
    apply (inside_storeWord htail).bind
    exact fun _ => trivial

theorem Sound.inside_pop : q.pop.Always (Access.Inside len) := by
  obtain ⟨hhead, htail, _⟩ := h.words_le hlen
  apply (inside_loadWord hhead).bind
  intro head
  apply (inside_loadWord htail).bind
  intro tail
  split
  · exact trivial
  · have hentry := h.entryOff_add_le head
    apply (inside_readBytes (by omega)).bind
    intro buf
    unfold consume
    split
    · exact trivial
    · apply (inside_storeWord hhead).bind
      exact fun _ => trivial

theorem Sound.inside_sleep (number : BitVec 32) : (q.sleep number).Always (Access.Inside len) := by
  obtain ⟨hhead, htail, hsleep⟩ := h.words_le hlen
  apply (inside_storeWord hsleep).bind
  intro _
  apply (inside_loadWord hhead).bind
  intro head
  apply (inside_loadWord htail).bind
  intro tail
  split
  · exact trivial
  · apply (inside_storeWord hsleep).bind
    exact fun _ => trivial

theorem Sound.inside_broken : q.broken.Always (Access.Inside len) := by
  obtain ⟨hhead, htail, _⟩ := h.words_le hlen
  apply (inside_loadWord hhead).bind
  intro head
  apply (inside_loadWord htail).bind
  exact fun _ => trivial

omit hlen

/-- What a pop exchanges with the region: it loads its head and the peer's tail, and either takes
nothing, which it does wherever the tail claims nothing or more than the queue holds, or takes the bytes
of the head's slot and advances the head, once. -/
def PopTrace (q : Queue ε) (trace : List (Exchange Access Access.Answer)) (answer : Option ε) : Prop :=
  ∃ head tail : BitVec 32, ∃ rest,
    trace = ⟨.loadWord q.headOff, head⟩ :: ⟨.loadWord q.tailOff, tail⟩ :: rest ∧
      if isEmpty head tail || isBroken head tail q.entries then answer = none ∧ rest = []
      else ∃ e taken, answer = some e ∧
        rest = taken ++ [⟨.storeWord q.headOff (head + 1), ()⟩] ∧
        taken.map Sigma.fst = (List.range' (q.entryOff head) q.entrySize).map .loadByte

theorem Sound.popTrace {trace : List (Exchange Access Access.Answer)} {answer : Option ε}
    (hpop : Runs q.pop trace answer) : q.PopTrace trace answer := by
  obtain ⟨head, _, rfl, hhead⟩ := runs_request_iff.1 hpop
  obtain ⟨tail, rest, rfl, hrun⟩ := runs_request_iff.1 hhead
  refine ⟨head, tail, rest, rfl, ?_⟩
  simp only [Program.bind] at hrun
  split at hrun
  · rename_i hnothing
    rw [if_pos hnothing]
    obtain ⟨rfl, rfl⟩ := runs_done_iff.1 hrun
    exact ⟨rfl, rfl⟩
  · rename_i hsome
    rw [if_neg hsome]
    obtain ⟨taken, last, buf, rfl, hread, hconsume⟩ := hrun.bind
    obtain ⟨fresh, hbuf, hfresh, htaken⟩ := runs_readBytes hread
    obtain ⟨e, he⟩ := Option.isSome_iff_exists.1 (h.fromBytes_isSome buf (hbuf ▸ hfresh))
    rw [consume, he] at hconsume
    obtain ⟨_, rest, rfl, hdone⟩ := runs_request_iff.1 hconsume
    obtain ⟨rfl, rfl⟩ := runs_done_iff.1 hdone
    exact ⟨e, taken, rfl, rfl, htaken⟩

end Queue

/-! ## The ring inside a region -/

namespace Ring

variable (r : Ring)

theorem sq_sound : r.sq.Sound where
  power := r.sqPower
  length_toBytes := Sqe.length_toBytes
  fromBytes_toBytes := Sqe.fromBytes_toBytes
  fromBytes_isSome := by
    intro b hb
    show (Sqe.fromBytes b).isSome = true
    rw [Sqe.fromBytes, if_neg (by rw [hb]; exact Nat.lt_irrefl _)]
    rfl
  words := by
    show offSqHead + 4 ≤ r.sqeOff ∧ offSqTail + 4 ≤ r.sqeOff ∧ offSqSleep + 4 ≤ r.sqeOff
    rw [r.sqeOff_eq]
    decide
  headTail := .inl (show offSqHead + 4 ≤ offSqTail by decide)
  headSleep := .inl (show offSqHead + 4 ≤ offSqSleep by decide)
  tailSleep := .inr (show offSqSleep + 4 ≤ offSqTail by decide)

theorem cq_sound : r.cq.Sound where
  power := r.cqPower
  length_toBytes := Cqe.length_toBytes
  fromBytes_toBytes := Cqe.fromBytes_toBytes
  fromBytes_isSome := by
    intro b hb
    show (Cqe.fromBytes b).isSome = true
    rw [Cqe.fromBytes, if_neg (by rw [hb]; exact Nat.lt_irrefl _)]
    rfl
  words := by
    have hheader : headerLen ≤ r.cqeOff := by
      rw [r.cqeOff_eq, cqeArrayOff]
      exact Nat.le_add_right _ _
    have hwords : offCqHead + 4 ≤ headerLen ∧ offCqTail + 4 ≤ headerLen ∧
        offCqSleep + 4 ≤ headerLen := by decide
    exact ⟨hwords.1.trans hheader, hwords.2.1.trans hheader, hwords.2.2.trans hheader⟩
  headTail := .inl (show offCqHead + 4 ≤ offCqTail by decide)
  headSleep := .inl (show offCqHead + 4 ≤ offCqSleep by decide)
  tailSleep := .inr (show offCqSleep + 4 ≤ offCqTail by decide)

/-- The entries of the submission queue end where those of the completion queue begin, and these end
where the data area begins. -/
theorem arrayEnds : r.sq.arrayEnd = r.cqeOff ∧ r.cq.arrayEnd = r.dataOff := by
  constructor
  · show r.sqeOff + r.sqEntries.toNat * sqeSize = r.cqeOff
    rw [r.sqeOff_eq, r.cqeOff_eq]
    rfl
  · show r.cqeOff + r.cqEntries.toNat * cqeSize = r.dataOff
    rw [r.cqeOff_eq, r.dataOff_eq]
    rfl

theorem arrayEnds_le : r.sq.arrayEnd ≤ r.len ∧ r.cq.arrayEnd ≤ r.len := by
  obtain ⟨hsq, hcq⟩ := r.arrayEnds
  have hfits := r.fits
  have hle : r.cqeOff ≤ r.dataOff := by
    rw [← hcq]
    exact Nat.le_add_right _ _
  omega

variable {r}

theorem windowEnd_eq_some {off n last : Nat} (h : r.windowEnd off n = some last) :
    off + n ≤ r.dataLen := by
  unfold windowEnd at h
  cases hadd : checkedAdd 64 off n with
  | none =>
    rw [hadd] at h
    simp at h
  | some stop =>
    obtain ⟨_, rfl⟩ := checkedAdd_eq_some.1 hadd
    rw [hadd] at h
    simp only at h
    split at h
    · simp at h
    · omega

/-- A window lies inside the region. -/
theorem dataWindow_inside {off n start : Nat} (h : r.dataWindow off n = some start) :
    start + n ≤ r.len := by
  obtain ⟨last, hlast, rfl⟩ := Option.map_eq_some_iff.1 h
  have hend := windowEnd_eq_some hlast
  have hfits := r.fits
  omega

theorem inside_writeData (off : Nat) (src : List Byte) :
    (r.writeData off src).Always (Access.Inside r.len) := by
  unfold writeData
  cases hend : r.windowEnd off src.length with
  | none => exact trivial
  | some last =>
    have hle := windowEnd_eq_some hend
    have hfits := r.fits
    apply (inside_writeBytes (by omega)).bind
    exact fun _ => trivial

theorem inside_readData (off n : Nat) : (r.readData off n).Always (Access.Inside r.len) := by
  unfold readData
  cases hend : r.windowEnd off n with
  | none => exact trivial
  | some last =>
    have hle := windowEnd_eq_some hend
    have hfits := r.fits
    apply (inside_readBytes (by omega)).bind
    exact fun _ => trivial

/-- `attach` looks at the header alone. -/
theorem inside_attach (len : Nat) : (attach len).Always (Access.Inside len) := by
  unfold attach
  split
  · exact trivial
  · rename_i hlen
    have hheader : headerLen ≤ len := Nat.le_of_not_lt hlen
    have hword : ∀ off, off + 4 ≤ headerLen → (loadWord off).Always (Access.Inside len) :=
      fun off hoff => inside_loadWord (hoff.trans hheader)
    apply (hword offMagic (by decide)).bind
    intro magic
    apply (hword offVersion (by decide)).bind
    intro version
    split
    · exact trivial
    · apply (hword offSqEntries (by decide)).bind
      intro sqEntries
      apply (hword offCqEntries (by decide)).bind
      intro cqEntries
      apply (hword offSqeOff (by decide)).bind
      intro sqeOff
      apply (hword offCqeOff (by decide)).bind
      intro cqeOff
      apply (hword offDataOff (by decide)).bind
      intro dataOff
      apply (hword offDataLen (by decide)).bind
      intro dataLen
      split
      · split
        · split <;> exact trivial
        · exact trivial
      · exact trivial

/-- The ring that `attach` answers is a view of the region it was given. -/
theorem len_of_attach {len : Nat} {trace : List (Exchange Access Access.Answer)}
    (h : Runs (attach len) trace (some r)) : r.len = len := by
  unfold attach at h
  split at h
  · simp [pure, runs_done_iff] at h
  · obtain ⟨magic, _, _, h⟩ := runs_request_iff.1 h
    obtain ⟨version, _, _, h⟩ := runs_request_iff.1 h
    simp only [Program.bind] at h
    split at h
    · simp [pure, runs_done_iff] at h
    · obtain ⟨sqEntries, _, _, h⟩ := runs_request_iff.1 h
      obtain ⟨cqEntries, _, _, h⟩ := runs_request_iff.1 h
      obtain ⟨sqeOff, _, _, h⟩ := runs_request_iff.1 h
      obtain ⟨cqeOff, _, _, h⟩ := runs_request_iff.1 h
      obtain ⟨dataOff, _, _, h⟩ := runs_request_iff.1 h
      obtain ⟨dataLen, _, _, h⟩ := runs_request_iff.1 h
      simp only [Program.bind] at h
      split at h
      · split at h
        · split at h
          · obtain ⟨_, heq⟩ := runs_done_iff.1 h
            rw [Option.some.inj heq]
          · simp [pure, runs_done_iff] at h
        · simp [pure, runs_done_iff] at h
      · simp [pure, runs_done_iff] at h

/-! ## Any calls -/

/-- A call on a ring, with its arguments. -/
inductive Call
  | sqPush (sqe : Sqe)
  | sqPop
  | cqPush (cqe : Cqe)
  | cqPop
  | writeData (off : Nat) (src : List Byte)
  | readData (off n : Nat)
  | sqSleep (number : BitVec 32)
  | cqSleep (number : BitVec 32)
  | sqBroken
  | cqBroken

/-- What a call does to the region. -/
def call (r : Ring) : Call → MemProgram Unit
  | .sqPush sqe => do let _ ← r.sqPush sqe
  | .sqPop => do let _ ← r.sqPop
  | .cqPush cqe => do let _ ← r.cqPush cqe
  | .cqPop => do let _ ← r.cqPop
  | .writeData off src => do let _ ← r.writeData off src
  | .readData off n => do let _ ← r.readData off n
  | .sqSleep number => do let _ ← r.sqSleep number
  | .cqSleep number => do let _ ← r.cqSleep number
  | .sqBroken => do let _ ← r.sq.broken
  | .cqBroken => do let _ ← r.cq.broken

/-- A sequence of calls. -/
def calls (r : Ring) : List Call → MemProgram Unit
  | [] => return ()
  | c :: rest => do
    r.call c
    r.calls rest

theorem inside_call (c : Call) : (r.call c).Always (Access.Inside r.len) := by
  obtain ⟨hsq, hcq⟩ := r.arrayEnds_le
  have hdone : ∀ {α : Type} {p : MemProgram α}, p.Always (Access.Inside r.len) →
      (p >>= fun _ => (pure () : MemProgram Unit)).Always (Access.Inside r.len) :=
    fun hp => hp.bind fun _ => trivial
  cases c with
  | sqPush sqe => exact hdone (r.sq_sound.inside_push hsq sqe)
  | sqPop => exact hdone (r.sq_sound.inside_pop hsq)
  | cqPush cqe => exact hdone (r.cq_sound.inside_push hcq cqe)
  | cqPop => exact hdone (r.cq_sound.inside_pop hcq)
  | writeData off src => exact hdone (inside_writeData off src)
  | readData off n => exact hdone (inside_readData off n)
  | sqSleep number => exact hdone (r.sq_sound.inside_sleep hsq number)
  | cqSleep number => exact hdone (r.cq_sound.inside_sleep hcq number)
  | sqBroken => exact hdone (r.sq_sound.inside_broken hsq)
  | cqBroken => exact hdone (r.cq_sound.inside_broken hcq)

theorem inside_calls (cs : List Call) : (r.calls cs).Always (Access.Inside r.len) := by
  induction cs with
  | nil => exact trivial
  | cons c cs ih => exact (inside_call c).bind fun _ => ih

/-- **A hostile region.** Whatever the loads are answered with, a ring that `attach` answers for a region
of `len` bytes makes no access outside it in any sequence of calls, hands out no window outside it, and
takes at most one entry for each advance of a head, and none where the tail claims more than the queue
holds. -/
theorem attached_stays_inside (len : Nat) (r : Ring)
    (attachTrace : List (Exchange Access Access.Answer))
    (h : Runs (attach len) attachTrace (some r)) :
    (∀ e ∈ attachTrace, e.1.Inside len) ∧
      (∀ cs trace, Runs (r.calls cs) trace () → ∀ e ∈ trace, e.1.Inside len) ∧
      (∀ off n start, r.dataWindow off n = some start → start + n ≤ len) ∧
      (∀ trace answer, Runs r.sqPop trace answer → r.sq.PopTrace trace answer) ∧
      ∀ trace answer, Runs r.cqPop trace answer → r.cq.PopTrace trace answer := by
  have hlen := len_of_attach h
  refine ⟨(inside_attach len).of_runs h, ?_, ?_, fun _ _ => r.sq_sound.popTrace,
    fun _ _ => r.cq_sound.popTrace⟩
  · intro cs trace hrun
    rw [← hlen]
    exact (inside_calls cs).of_runs hrun
  · intro off n start hwindow
    rw [← hlen]
    exact dataWindow_inside hwindow

/-- The header of the smallest ring, with one entry in each queue and no data area. -/
def smallestHeader : List (Exchange Access Access.Answer) :=
  [⟨.loadWord offMagic, ringMagic⟩, ⟨.loadWord offVersion, ringVersion⟩,
    ⟨.loadWord offSqEntries, (1 : BitVec 32)⟩, ⟨.loadWord offCqEntries, (1 : BitVec 32)⟩,
    ⟨.loadWord offSqeOff, (320 : BitVec 32)⟩, ⟨.loadWord offCqeOff, (352 : BitVec 32)⟩,
    ⟨.loadWord offDataOff, (368 : BitVec 32)⟩, ⟨.loadWord offDataLen, (0 : BitVec 32)⟩]

/-- The smallest ring. -/
def smallest : Ring where
  len := 368
  sqEntries := 1
  cqEntries := 1
  sqeOff := 320
  cqeOff := 352
  dataOff := 368
  dataLen := 0
  sqPower := rfl
  cqPower := rfl
  sqeOff_eq := rfl
  cqeOff_eq := rfl
  dataOff_eq := rfl
  fits := Nat.le_refl _

theorem runs_attach_smallest : Runs (attach 368) smallestHeader (some smallest) :=
  .request (.request (.request (.request (.request (.request (.request (.request (.done _))))))))

theorem attached_stays_inside_smallest :
    (∀ e ∈ smallestHeader, e.1.Inside 368) ∧
      ∀ cs trace, Runs (smallest.calls cs) trace () → ∀ e ∈ trace, e.1.Inside 368 := by
  obtain ⟨hattach, hcalls, _⟩ := attached_stays_inside 368 smallest smallestHeader runs_attach_smallest
  exact ⟨hattach, hcalls⟩

end Ring

end SlateOS.Netring
