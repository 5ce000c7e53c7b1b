/-
# SlateOS.Ipc.EventFd.Runs -- what the eventfd keeps, over every run

Every section either leaves the counter alone, adds the value of a write and takes the readers, or takes what a
read returns and takes the writers. A reader waits for a counter above 0 and a writer for room, so whoever stays
registered still has to wait.
-/
import SlateOS.Ipc.EventFd.Model

namespace SlateOS.Ipc.EventFd

open Foundation.MachineInt Foundation.Runs Kernel
open Function (update update_self update_of_ne)

variable {e e' : EventFd} {task t value timeout : Nat} {env : Env} {c : Call}

/-! ## Waiter sets -/

theorem mem_remove {w : WaiterSet} : t ∈ WaiterSet.remove w task ↔ t ∈ w ∧ t ≠ task := by
  rw [WaiterSet.remove, List.mem_filter, decide_eq_true_eq]

theorem mem_insert {w : WaiterSet} : t ∈ WaiterSet.insert w task ↔ t ∈ w ∨ t = task := by
  unfold WaiterSet.insert
  split
  case isTrue hin => exact ⟨.inl, fun h => h.elim id fun heq => heq ▸ hin⟩
  case isFalse => rw [List.mem_append, List.mem_singleton]

/-! ## One section -/

theorem added_eq_some : e.added value = some e' ↔
    e.counter + value ≤ maxCounter ∧ e' = { e with counter := e.counter + value } := by
  unfold added checkedAdd maxCounter maxVal
  constructor
  · intro h
    split at h
    · next newVal hadd =>
        rw [Option.ite_none_right_eq_some, Option.some.injEq] at hadd h
        obtain ⟨-, rfl⟩ := hadd
        exact ⟨h.1, h.2.symm⟩
    · cases h
  · rintro ⟨hle, rfl⟩
    have hlt : e.counter + value < 2 ^ 64 := by omega
    rw [if_pos hlt]
    exact if_pos hle

theorem added_eq_none : e.added value = none ↔ maxCounter < e.counter + value := by
  cases h : e.added value with
  | none =>
    refine ⟨fun _ => ?_, fun _ => rfl⟩
    by_contra hle
    rw [added_eq_some.mpr ⟨Nat.le_of_not_lt hle, rfl⟩] at h
    cases h
  | some e' => exact ⟨fun hn => (nomatch hn), fun hlt => absurd (added_eq_some.mp h).1 (Nat.not_le.mpr hlt)⟩

/-- The call may be registered: it is past a fast path. -/
def Call.waiting : Call → Bool
  | .write _ | .read => true
  | .writeTimeout _ _ timer | .readTimeout _ timer => timer

/-- The eventfd once the call has deregistered its task. -/
def base (e : EventFd) (task : Nat) : Call → EventFd
  | .write _ => e.leaveWriters task
  | .writeTimeout _ _ timer => if timer then e.leaveWriters task else e
  | .read => e.leaveReaders task
  | .readTimeout _ timer => if timer then e.leaveReaders task else e

theorem base_cases (e : EventFd) (task : Nat) (c : Call) :
    (c.waiting = true ∧ c.writes.isSome = true ∧ e.base task c = e.leaveWriters task) ∨
      (c.waiting = true ∧ c.writes = none ∧ e.base task c = e.leaveReaders task) ∨
        (c.waiting = false ∧ e.base task c = e) := by
  cases c with
  | write value => exact .inl ⟨rfl, rfl, rfl⟩
  | read => exact .inr (.inl ⟨rfl, rfl, rfl⟩)
  | writeTimeout value timeout timer =>
    cases timer with
    | true => exact .inl ⟨rfl, rfl, rfl⟩
    | false => exact .inr (.inr ⟨rfl, rfl⟩)
  | readTimeout timeout timer =>
    cases timer with
    | true => exact .inr (.inl ⟨rfl, rfl, rfl⟩)
    | false => exact .inr (.inr ⟨rfl, rfl⟩)

/-- What the section of a call may do to an open eventfd. -/
inductive Does (e : EventFd) (task : Nat) (c : Call) : Section → Prop
  /-- The value of a write is added, and all readers are woken. -/
  | wrote (value : Nat) (hcall : c.writes = some value) (hroom : e.counter + value ≤ maxCounter) :
      Does e task c ⟨.ret (.ok ()), e.readerWaiters,
        { e.base task c with counter := e.counter + value, readerWaiters := [] }, .wrote value⟩
  /-- A value is read, and all writers are woken. -/
  | took (hcall : c.writes = none) (hpos : 0 < e.counter) :
      Does e task c ⟨.ret (.ok ()), e.writerWaiters,
        { e.base task c with counter := e.counter - e.unitOf, writerWaiters := [] }, .took e.unitOf⟩
  | refused (err : KernelError) : Does e task c ((e.base task c).refuse err)
  | timer (hfast : c.waiting = false) : Does e task c ⟨.timer, [], e, .nothing⟩
  | parkWriter (value : Nat) (hcall : c.writes = some value) (hwaiting : c.waiting = true)
      (hfull : maxCounter < e.counter + value) :
      Does e task c ((e.base task c).parkWriter task)
  | parkReader (hcall : c.writes = none) (hwaiting : c.waiting = true) (hzero : e.counter = 0) :
      Does e task c ((e.base task c).parkReader task)

/-- The writing side of a section. -/
theorem tryAdd_does {full : Section} (hopen : e.closed = false) (hcall : c.writes = some value)
    (hbase : (e.base task c).readerWaiters = e.readerWaiters)
    (hfull : maxCounter < e.counter + value → Does e task c full) :
    Does e task c ((e.base task c).tryAdd value full) := by
  have hcounter : (e.base task c).counter = e.counter ∧ (e.base task c).closed = e.closed := by
    obtain ⟨-, -, h⟩ | ⟨-, -, h⟩ | ⟨-, h⟩ := base_cases e task c <;> rw [h] <;> exact ⟨rfl, rfl⟩
  rw [tryAdd, hcounter.2, hopen, if_neg Bool.false_ne_true]
  cases hadd : (e.base task c).added value with
  | none =>
    rw [added_eq_none, hcounter.1] at hadd
    exact hfull hadd
  | some e' =>
    rw [added_eq_some, hcounter.1] at hadd
    obtain ⟨hroom, rfl⟩ := hadd
    dsimp only
    rw [hbase]
    exact .wrote value hcall hroom

/-- The reading side of a section. -/
theorem tryTake_does {empty : Section} (hopen : e.closed = false) (hcall : c.writes = none)
    (hbase : (e.base task c).writerWaiters = e.writerWaiters)
    (hempty : e.counter = 0 → Does e task c empty) :
    Does e task c ((e.base task c).tryTake empty) := by
  have hcounter : (e.base task c).counter = e.counter ∧ (e.base task c).closed = e.closed ∧
      (e.base task c).unitOf = e.unitOf := by
    obtain ⟨-, -, h⟩ | ⟨-, -, h⟩ | ⟨-, h⟩ := base_cases e task c <;> rw [h] <;> exact ⟨rfl, rfl, rfl⟩
  rw [tryTake, hcounter.1, hcounter.2.2, hbase]
  by_cases hpos : 0 < e.counter
  · rw [if_pos hpos]
    exact .took hcall hpos
  · rw [if_neg hpos, hcounter.2.1, hopen, if_neg Bool.false_ne_true]
    exact hempty (Nat.eq_zero_of_not_pos hpos)

/-- **Every section of a call does one of these.** -/
theorem sectionOf_does (hopen : e.closed = false) : Does e task c (e.sectionOf task env c) := by
  cases c with
  | write value =>
    refine tryAdd_does hopen rfl rfl fun hfull => ?_
    by_cases hs : env.signal = true
    · exact (if_pos hs).symm ▸ Does.refused (c := .write value) .interrupted
    · exact (if_neg hs).symm ▸ Does.parkWriter (c := .write value) value rfl rfl hfull
  | writeTimeout value timeout timer =>
    cases timer with
    | true =>
      refine tryAdd_does (c := .writeTimeout value timeout true) hopen rfl rfl fun hfull => ?_
      by_cases hx : env.expired = true
      · exact (if_pos hx).symm ▸ Does.refused (c := .writeTimeout value timeout true) .timedOut
      · by_cases hs : env.signal = true
        · rw [if_neg hx, if_pos hs]
          exact Does.refused (c := .writeTimeout value timeout true) .interrupted
        · rw [if_neg hx, if_neg hs]
          exact Does.parkWriter (c := .writeTimeout value timeout true) value rfl rfl hfull
    | false =>
      refine tryAdd_does (c := .writeTimeout value timeout false) hopen rfl rfl fun _ => ?_
      by_cases hz : timeout = 0
      · exact (if_pos hz).symm ▸ Does.refused (c := .writeTimeout value timeout false) .timedOut
      · exact (if_neg hz).symm ▸ Does.timer rfl
  | read =>
    refine tryTake_does hopen rfl rfl fun hzero => ?_
    by_cases hs : env.signal = true
    · exact (if_pos hs).symm ▸ Does.refused (c := .read) .interrupted
    · exact (if_neg hs).symm ▸ Does.parkReader (c := .read) rfl rfl hzero
  | readTimeout timeout timer =>
    cases timer with
    | true =>
      refine tryTake_does (c := .readTimeout timeout true) hopen rfl rfl fun hzero => ?_
      by_cases hx : env.expired = true
      · exact (if_pos hx).symm ▸ Does.refused (c := .readTimeout timeout true) .timedOut
      · by_cases hs : env.signal = true
        · rw [if_neg hx, if_pos hs]
          exact Does.refused (c := .readTimeout timeout true) .interrupted
        · rw [if_neg hx, if_neg hs]
          exact Does.parkReader (c := .readTimeout timeout true) rfl rfl hzero
    | false =>
      refine tryTake_does (c := .readTimeout timeout false) hopen rfl rfl fun _ => ?_
      by_cases hz : timeout = 0
      · exact (if_pos hz).symm ▸ Does.refused (c := .readTimeout timeout false) .timedOut
      · exact (if_neg hz).symm ▸ Does.timer rfl

/-- `try_write` does what a fast path may do. -/
theorem tryWrite_does (hopen : e.closed = false) (task : Nat) :
    Does e task (.writeTimeout value 0 false) (e.tryWrite value) :=
  tryAdd_does (c := .writeTimeout value 0 false) hopen rfl rfl fun _ => .refused .wouldBlock

/-- `try_read` does what a fast path may do. -/
theorem tryRead_does (hopen : e.closed = false) (task : Nat) : Does e task (.readTimeout 0 false) e.tryRead :=
  tryTake_does (c := .readTimeout 0 false) hopen rfl rfl fun _ => .refused .wouldBlock

/-! ## What a section keeps -/

namespace Does

variable {l : Section} {ct : Call}

theorem base_counter : (e.base task c).counter = e.counter ∧ (e.base task c).closed = e.closed := by
  obtain ⟨-, -, h⟩ | ⟨-, -, h⟩ | ⟨-, h⟩ := base_cases e task c <;> rw [h] <;> exact ⟨rfl, rfl⟩

/-- Others stay registered. -/
theorem base_waiters (ht : t ≠ task) :
    (t ∈ (e.base task c).writerWaiters ↔ t ∈ e.writerWaiters) ∧
      (t ∈ (e.base task c).readerWaiters ↔ t ∈ e.readerWaiters) := by
  obtain ⟨-, -, h⟩ | ⟨-, -, h⟩ | ⟨-, h⟩ := base_cases e task c
  · rw [h]
    exact ⟨mem_remove.trans (and_iff_left ht), Iff.rfl⟩
  · rw [h]
    exact ⟨Iff.rfl, mem_remove.trans (and_iff_left ht)⟩
  · rw [h]
    exact ⟨Iff.rfl, Iff.rfl⟩

/-- The amounts. -/
theorem counter (h : Does e task c l) (hb : e.counter ≤ maxCounter) :
    l.efd.closed = e.closed ∧ l.efd.counter ≤ maxCounter ∧
      match l.moved with
      | .nothing => l.efd.counter = e.counter
      | .wrote value => l.efd.counter = e.counter + value
      | .took value => l.efd.counter + value = e.counter := by
  obtain ⟨hcounter, hclosed⟩ : (e.base task c).counter = e.counter ∧ (e.base task c).closed = e.closed := base_counter
  cases h with
  | wrote value hcall hroom => exact ⟨hclosed, hroom, rfl⟩
  | took hcall hpos =>
    have hunit : e.unitOf ≤ e.counter := by
      unfold unitOf
      split <;> omega
    refine ⟨hclosed, ?_, ?_⟩
    · exact Nat.le_trans (Nat.sub_le _ _) hb
    · exact Nat.sub_add_cancel hunit
  | refused err => exact ⟨hclosed, hcounter.symm ▸ hb, hcounter⟩
  | timer => exact ⟨rfl, hb, rfl⟩
  | parkWriter | parkReader => exact ⟨hclosed, hcounter.symm ▸ hb, hcounter⟩

/-- A section registers nobody but its own task. -/
theorem registers (h : Does e task c l) (ht : t ≠ task) :
    (t ∈ l.efd.writerWaiters → t ∈ e.writerWaiters) ∧ (t ∈ l.efd.readerWaiters → t ∈ e.readerWaiters) := by
  obtain ⟨hw, hr⟩ := base_waiters (e := e) (c := c) ht
  cases h with
  | wrote => exact ⟨hw.mp, fun hin => nomatch hin⟩
  | took => exact ⟨fun hin => (nomatch hin), hr.mp⟩
  | refused => exact ⟨hw.mp, hr.mp⟩
  | timer => exact ⟨id, id⟩
  | parkWriter => exact ⟨fun hin => hw.mp ((mem_insert.mp hin).resolve_right ht), hr.mp⟩
  | parkReader => exact ⟨hw.mp, fun hin => hr.mp ((mem_insert.mp hin).resolve_right ht)⟩

/-- **Who waits is woken, or goes on waiting for what is yet to come.** -/
theorem keeps (h : Does e task c l) (ht : t ≠ task) (hwait : System.Waits e t ct) :
    t ∈ l.wakes ∨ System.Waits l.efd t ct := by
  obtain ⟨hw, hr⟩ := base_waiters (e := e) (c := c) ht
  have hcounter : (e.base task c).counter = e.counter := base_counter.1
  unfold System.Waits at hwait ⊢
  cases hct : ct.writes with
  | some value' =>
    rw [hct] at hwait
    obtain ⟨hin, hfull⟩ := hwait
    cases h with
    | wrote value hcall hroom => exact .inr ⟨hw.mpr hin, by dsimp only; omega⟩
    | took => exact .inl hin
    | refused => exact .inr ⟨hw.mpr hin, hcounter.symm ▸ hfull⟩
    | timer => exact .inr ⟨hin, hfull⟩
    | parkWriter => exact .inr ⟨mem_insert.mpr (.inl (hw.mpr hin)), hcounter.symm ▸ hfull⟩
    | parkReader => exact .inr ⟨hw.mpr hin, hcounter.symm ▸ hfull⟩
  | none =>
    rw [hct] at hwait
    obtain ⟨hin, hzero⟩ := hwait
    cases h with
    | wrote => exact .inl hin
    | took hcall hpos => exact absurd hzero (Nat.ne_of_gt hpos)
    | refused => exact .inr ⟨hr.mpr hin, hcounter.trans hzero⟩
    | timer => exact .inr ⟨hin, hzero⟩
    | parkWriter => exact .inr ⟨hr.mpr hin, hcounter.trans hzero⟩
    | parkReader => exact .inr ⟨mem_insert.mpr (.inl (hr.mpr hin)), hcounter.trans hzero⟩

/-- A call that parks waits for what is yet to come. -/
theorem waits (h : Does e task c l) (hpark : l.next = .park) : System.Waits l.efd task c := by
  have hcounter : (e.base task c).counter = e.counter := base_counter.1
  unfold System.Waits
  cases h with
  | wrote | took | refused | timer => cases hpark
  | parkWriter value hcall hwaiting hfull =>
    rw [hcall]
    exact ⟨mem_insert.mpr (.inr rfl), hcounter.symm ▸ hfull⟩
  | parkReader hcall hwaiting hzero =>
    rw [hcall]
    exact ⟨mem_insert.mpr (.inr rfl), hcounter.trans hzero⟩

/-- The task of a call is in the waiter set of its call at most. -/
theorem own (h : Does e task c l)
    (hw : task ∈ e.writerWaiters → c.writes.isSome = true ∧ c.waiting = true)
    (hr : task ∈ e.readerWaiters → c.writes = none ∧ c.waiting = true) :
    (task ∈ l.efd.writerWaiters → l.next = .park ∧ c.writes.isSome = true ∧ c.waiting = true) ∧
      (task ∈ l.efd.readerWaiters → l.next = .park ∧ c.writes = none ∧ c.waiting = true) := by
  have hbase : task ∉ (e.base task c).writerWaiters ∧ task ∉ (e.base task c).readerWaiters := by
    obtain ⟨-, hs, hb⟩ | ⟨-, hn, hb⟩ | ⟨hfast, hb⟩ := base_cases e task c
    · rw [hb]
      refine ⟨fun hin => (mem_remove.mp hin).2 rfl, fun hin => ?_⟩
      rw [(hr hin).1] at hs
      cases hs
    · rw [hb]
      refine ⟨fun hin => ?_, fun hin => (mem_remove.mp hin).2 rfl⟩
      have hs := (hw hin).1
      rw [hn] at hs
      cases hs
    · rw [hb]
      refine ⟨fun hin => ?_, fun hin => ?_⟩
      · rw [(hw hin).2] at hfast
        cases hfast
      · rw [(hr hin).2] at hfast
        cases hfast
  cases h with
  | wrote => exact ⟨fun hin => absurd hin hbase.1, fun hin => nomatch hin⟩
  | took => exact ⟨fun hin => (nomatch hin), fun hin => absurd hin hbase.2⟩
  | refused => exact ⟨fun hin => absurd hin hbase.1, fun hin => absurd hin hbase.2⟩
  | timer hfast =>
    refine ⟨fun hin => ?_, fun hin => ?_⟩
    · rw [(hw hin).2] at hfast
      cases hfast
    · rw [(hr hin).2] at hfast
      cases hfast
  | parkWriter value hcall hwaiting =>
    exact ⟨fun _ => ⟨rfl, by rw [hcall]; rfl, hwaiting⟩, fun hin => absurd hin hbase.2⟩
  | parkReader hcall hwaiting => exact ⟨fun hin => absurd hin hbase.1, fun _ => ⟨rfl, hcall, hwaiting⟩⟩

end Does

/-! ## The invariant -/

namespace System

variable {initial : Nat} {s s' : System} {l : Section}

/-- What every run keeps. -/
structure Inv (initial : Nat) (s : System) : Prop where
  opened : ∀ e, s.efd = some e → e.closed = false
  conserved : ∀ e, s.efd = some e → min initial maxCounter + s.accepted = e.counter + s.returned
  bounded : ∀ e, s.efd = some e → e.counter ≤ maxCounter
  /-- A registered writer is in a call that writes and is past its fast path. -/
  writers : ∀ e t, s.efd = some e → t ∈ e.writerWaiters →
    ∃ c b, s.calls t = some (c, b) ∧ c.writes.isSome = true ∧ c.waiting = true
  readers : ∀ e t, s.efd = some e → t ∈ e.readerWaiters →
    ∃ c b, s.calls t = some (c, b) ∧ c.writes = none ∧ c.waiting = true
  parked : ∀ t c, s.calls t = some (c, true) → t ∈ s.waking ∨ ∃ e, s.efd = some e ∧ Waits e t c

theorem Inv.sound (h : s.Inv initial) : s.Sound initial where
  conserved := h.conserved
  bounded := h.bounded
  registered e task he hnone := by
    refine ⟨fun hin => ?_, fun hin => ?_⟩
    · obtain ⟨c, b, hc, -⟩ := h.readers e task he hin
      rw [hnone] at hc
      cases hc
    · obtain ⟨c, b, hc, -⟩ := h.writers e task he hin
      rw [hnone] at hc
      cases hc
  parked := h.parked

theorem Inv.start {semaphore : Bool} (h : Start initial semaphore s) : s.Inv initial := by
  obtain ⟨hefd, hcalls, -, haccepted, hreturned⟩ := h
  have hnew : ∀ e, s.efd = some e → e = .new initial semaphore :=
    fun e he => Option.some.inj (he.symm.trans hefd)
  refine ⟨?_, ?_, ?_, ?_, ?_, ?_⟩
  · intro e he
    rw [hnew e he]
    rfl
  · intro e he
    rw [hnew e he, haccepted, hreturned]
    rfl
  · intro e he
    rw [hnew e he]
    exact Nat.min_le_right _ _
  · intro e t he hin
    rw [hnew e he] at hin
    cases hin
  · intro e t he hin
    rw [hnew e he] at hin
    cases hin
  · intro t c hc
    rw [hcalls] at hc
    cases hc

@[simp] theorem after_efd : (s.after l).efd = some l.efd := by
  rw [after]
  cases l.moved <;> rfl

@[simp] theorem after_waking : (s.after l).waking = s.waking ++ l.wakes := by
  rw [after]
  cases l.moved <;> rfl

/-- A section, by a call or not, with what becomes of the calls. -/
theorem Inv.decided (h : s.Inv initial) (he : s.efd = some e) {task : Nat} (hdoes : Does e task c l)
    {calls : Nat → Option (Call × Bool)}
    (hwriters : ∀ t ∈ l.efd.writerWaiters, ∃ c b, calls t = some (c, b) ∧ c.writes.isSome = true ∧ c.waiting = true)
    (hreaders : ∀ t ∈ l.efd.readerWaiters, ∃ c b, calls t = some (c, b) ∧ c.writes = none ∧ c.waiting = true)
    (hparked : ∀ t ct, calls t = some (ct, true) → t ∈ s.waking ∨ t ∈ l.wakes ∨ Waits l.efd t ct) :
    Inv initial { s.after l with calls := calls } := by
  obtain ⟨hclosed, hbounded, hmoved⟩ := hdoes.counter (h.bounded e he)
  have hconserved := h.conserved e he
  have hefd : ∀ e', (s.after l).efd = some e' → e' = l.efd :=
    fun e' he' => Option.some.inj (he'.symm.trans after_efd)
  refine ⟨fun e' he' => ?_, fun e' he' => ?_, fun e' he' => ?_, fun e' t he' hin => ?_, fun e' t he' hin => ?_,
    fun t ct hct => ?_⟩
  · rw [hefd e' he', hclosed]
    exact h.opened e he
  · rw [hefd e' he']
    show min initial maxCounter + (s.after l).accepted = l.efd.counter + (s.after l).returned
    rw [after]
    generalize hm : l.moved = m at hmoved
    cases m with
    | nothing => exact hconserved.trans (hmoved ▸ rfl)
    | wrote value =>
      show _ + (s.accepted + value) = l.efd.counter + s.returned
      dsimp only at hmoved
      omega
    | took value =>
      show _ + s.accepted = l.efd.counter + (s.returned + value)
      dsimp only at hmoved
      omega
  · exact (hefd e' he') ▸ hbounded
  · exact hwriters t (hefd e' he' ▸ hin)
  · exact hreaders t (hefd e' he' ▸ hin)
  · obtain hin | hin | hwait := hparked t ct hct
    · exact .inl (after_waking ▸ List.mem_append_left _ hin)
    · exact .inl (after_waking ▸ List.mem_append_right _ hin)
    · exact .inr ⟨l.efd, after_efd, hwait⟩

/-- One section of a call. -/
theorem Inv.look (h : s.Inv initial) (he : s.efd = some e) (hcall : s.calls task = some (c, false)) (env : Env) :
    Inv initial
      { s.after (e.sectionOf task env c) with
        calls := update s.calls task (resumed c (e.sectionOf task env c).next) } := by
  have hdoes : Does e task c (e.sectionOf task env c) := sectionOf_does (h.opened e he)
  generalize e.sectionOf task env c = l at hdoes
  have hself : ∀ c' b, s.calls task = some (c', b) → c' = c := by
    intro c' b hc'
    rw [hcall, Option.some.injEq, Prod.mk.injEq] at hc'
    exact hc'.1.symm
  obtain ⟨hownw, hownr⟩ := hdoes.own
    (fun hin => by
      obtain ⟨c', b, hc', hplace⟩ := h.writers e task he hin
      exact hself c' b hc' ▸ hplace)
    (fun hin => by
      obtain ⟨c', b, hc', hplace⟩ := h.readers e task he hin
      exact hself c' b hc' ▸ hplace)
  have hpark : l.next = .park → update s.calls task (resumed c l.next) task = some (c, true) := by
    intro hpark
    rw [update_self, hpark]
    rfl
  refine h.decided he hdoes ?_ ?_ ?_
  · intro t hin
    by_cases ht : t = task
    · subst ht
      obtain ⟨hnext, hplace⟩ := hownw hin
      exact ⟨c, true, hpark hnext, hplace⟩
    · obtain ⟨c', b, hc', hplace⟩ := h.writers e t he ((hdoes.registers ht).1 hin)
      exact ⟨c', b, (update_of_ne ht _ _).trans hc', hplace⟩
  · intro t hin
    by_cases ht : t = task
    · subst ht
      obtain ⟨hnext, hplace⟩ := hownr hin
      exact ⟨c, true, hpark hnext, hplace⟩
    · obtain ⟨c', b, hc', hplace⟩ := h.readers e t he ((hdoes.registers ht).2 hin)
      exact ⟨c', b, (update_of_ne ht _ _).trans hc', hplace⟩
  · intro t ct hct
    by_cases ht : t = task
    · subst ht
      rw [update_self] at hct
      cases hnext : l.next with
      | ret r =>
        rw [hnext] at hct
        cases hct
      | timer =>
        rw [hnext] at hct
        cases hct
      | park =>
        rw [hnext, resumed, Option.some.injEq, Prod.mk.injEq] at hct
        exact .inr (.inr (hct.1 ▸ hdoes.waits hnext))
    · rw [update_of_ne ht] at hct
      obtain hin | ⟨e', he', hwait⟩ := h.parked t ct hct
      · exact .inl hin
      · rw [he, Option.some.injEq] at he'
        subst he'
        exact .inr (hdoes.keeps ht hwait)

/-- A section outside of the calls. -/
theorem Inv.attempt (h : s.Inv initial) (he : s.efd = some e) (hdoes : ∀ task, Does e task c l) :
    (s.after l).Inv initial := by
  have hstate : { s.after l with calls := s.calls } = s.after l := by
    rw [after]
    cases l.moved <;> rfl
  rw [← hstate]
  refine h.decided he (hdoes 0) ?_ ?_ ?_
  · exact fun t hin => h.writers e t he (((hdoes (t + 1)).registers (Nat.ne_of_lt (Nat.lt_succ_self t))).1 hin)
  · exact fun t hin => h.readers e t he (((hdoes (t + 1)).registers (Nat.ne_of_lt (Nat.lt_succ_self t))).2 hin)
  · intro t ct hct
    obtain hin | ⟨e', he', hwait⟩ := h.parked t ct hct
    · exact .inl hin
    · rw [he, Option.some.injEq] at he'
      subst he'
      exact .inr ((hdoes (t + 1)).keeps (Nat.ne_of_lt (Nat.lt_succ_self t)) hwait)

/-- A call begins. -/
theorem Inv.call (h : s.Inv initial) (hnone : s.calls task = none) :
    Inv initial { s with calls := update s.calls task (some (c, false)) } := by
  have hkept : ∀ t x, s.calls t = some x → update s.calls task (some (c, false)) t = some x := by
    intro t x hx
    refine (update_of_ne ?_ _ _).trans hx
    rintro rfl
    rw [hnone] at hx
    cases hx
  refine ⟨h.opened, h.conserved, h.bounded, fun e t he hin => ?_, fun e t he hin => ?_, fun t ct hct => ?_⟩
  · obtain ⟨c', b, hc', hplace⟩ := h.writers e t he hin
    exact ⟨c', b, hkept t _ hc', hplace⟩
  · obtain ⟨c', b, hc', hplace⟩ := h.readers e t he hin
    exact ⟨c', b, hkept t _ hc', hplace⟩
  · by_cases ht : t = task
    · subst ht
      dsimp only at hct
      rw [update_self] at hct
      cases hct
    · exact h.parked t ct ((update_of_ne ht _ _).symm.trans hct)

/-- A call finds no eventfd any more. -/
theorem Inv.invalid (h : s.Inv initial) (hgone : s.efd = none) :
    Inv initial { s with calls := update s.calls task none } := by
  have hno : ∀ e, s.efd ≠ some e := by
    rw [hgone]
    exact fun e he => nomatch he
  refine ⟨h.opened, h.conserved, h.bounded, fun e t he => absurd he (hno e), fun e t he => absurd he (hno e),
    fun t ct hct => ?_⟩
  by_cases ht : t = task
  · subst ht
    dsimp only at hct
    rw [update_self] at hct
    cases hct
  · exact h.parked t ct ((update_of_ne ht _ _).symm.trans hct)

/-- A parked call passes again. -/
theorem Inv.rouse (h : s.Inv initial) {waking : List Nat} (hwaking : ∀ t, t ≠ task → t ∈ s.waking → t ∈ waking) :
    Inv initial { s with waking := waking, calls := s.roused task } := by
  have hkept : ∀ t c b, s.calls t = some (c, b) → ∃ b', s.roused task t = some (c, b') := by
    intro t c b hc
    by_cases ht : t = task
    · subst ht
      refine ⟨false, ?_⟩
      rw [roused, update_self, hc]
      rfl
    · exact ⟨b, (update_of_ne ht _ _).trans hc⟩
  refine ⟨h.opened, h.conserved, h.bounded, fun e t he hin => ?_, fun e t he hin => ?_, fun t ct hct => ?_⟩
  · obtain ⟨c', b, hc', hplace⟩ := h.writers e t he hin
    obtain ⟨b', hb'⟩ := hkept t c' b hc'
    exact ⟨c', b', hb', hplace⟩
  · obtain ⟨c', b, hc', hplace⟩ := h.readers e t he hin
    obtain ⟨b', hb'⟩ := hkept t c' b hc'
    exact ⟨c', b', hb', hplace⟩
  · dsimp only [roused] at hct
    by_cases ht : t = task
    · subst ht
      rw [update_self, Option.map_eq_some_iff] at hct
      obtain ⟨c', -, heq⟩ := hct
      cases heq
    · rw [update_of_ne ht] at hct
      exact (h.parked t ct hct).imp (hwaking t ht) id

/-- The reference count changes. -/
theorem Inv.counted (h : s.Inv initial) (he : s.efd = some e) (refcount : Nat) :
    Inv initial { s with efd := some { e with refcount := refcount } } := by
  refine ⟨?_, ?_, ?_, ?_, ?_, fun t ct hct => ?_⟩
  · rintro _ ⟨⟩
    exact h.opened e he
  · rintro _ ⟨⟩
    exact h.conserved e he
  · rintro _ ⟨⟩
    exact h.bounded e he
  · rintro _ t ⟨⟩
    exact h.writers e t he
  · rintro _ t ⟨⟩
    exact h.readers e t he
  · obtain hin | ⟨e', he', hwait⟩ := h.parked t ct hct
    · exact .inl hin
    · rw [he, Option.some.injEq] at he'
      subst he'
      exact .inr ⟨_, rfl, hwait⟩

theorem Inv.dup (h : s.Inv initial) : Inv initial { s with efd := s.efd.map fun e => e.dup.2 } := by
  cases he : s.efd with
  | none =>
    rw [Option.map_none, ← he]
    exact h
  | some e =>
    rw [Option.map_some, EventFd.dup]
    cases checkedAdd 32 e.refcount 1 with
    | none =>
      dsimp only
      rw [← he]
      exact h
    | some refcount => exact h.counted he refcount

theorem Inv.close (h : s.Inv initial) (he : s.efd = some e) :
    Inv initial { s with efd := e.close.2, waking := s.waking ++ e.close.1 } := by
  rw [EventFd.close]
  split
  · rw [List.append_nil]
    exact h.counted he _
  · refine ⟨fun _ he' => (nomatch he'), fun _ he' => (nomatch he'), fun _ he' => (nomatch he'),
      fun _ _ he' => (nomatch he'), fun _ _ he' => (nomatch he'), fun t ct hct => .inl ?_⟩
    -- every registered task is woken, and every parked one was registered
    obtain hin | ⟨e', he', hwait⟩ := h.parked t ct hct
    · exact List.mem_append_left _ hin
    · rw [he, Option.some.injEq] at he'
      subst he'
      refine List.mem_append_right _ ?_
      unfold Waits at hwait
      split at hwait
      · exact List.mem_append_right _ hwait.1
      · exact List.mem_append_left _ hwait.1

/-- **Every step keeps the invariant.** -/
theorem Inv.step (h : s.Inv initial) {a : Act} (hs : s.step a = some s') : s'.Inv initial := by
  cases a with
  | call task c =>
    simp only [System.step, Option.ite_none_right_eq_some] at hs
    obtain ⟨⟨hnone, -⟩, hs⟩ := hs
    split at hs
    · cases hs
      exact h
    · cases hs
      exact h.call (Option.isNone_iff_eq_none.mp hnone)
  | look task env =>
    simp only [System.step] at hs
    split at hs
    · next c hcall =>
        split at hs
        · next hgone =>
            cases hs
            exact h.invalid hgone
        · next e he =>
            cases hs
            exact h.look he hcall env
    · cases hs
  | wake task =>
    simp only [System.step, Option.ite_none_right_eq_some, Option.some.injEq] at hs
    obtain ⟨-, rfl⟩ := hs
    exact h.rouse fun t ht hin => (List.mem_erase_of_ne ht).mpr hin
  | rouse task =>
    simp only [System.step] at hs
    split at hs
    · cases hs
      exact h.rouse fun t ht hin => hin
    · cases hs
  | tryWrite value =>
    simp only [System.step] at hs
    split at hs
    · cases hs
      exact h
    · next e he =>
        split at hs
        · cases hs
          exact h
        · cases hs
          exact h.attempt he fun task => tryWrite_does (h.opened e he) task
  | tryRead =>
    simp only [System.step] at hs
    split at hs
    · cases hs
      exact h
    · next e he =>
        cases hs
        exact h.attempt he fun task => tryRead_does (h.opened e he) task
  | dup =>
    cases hs
    exact h.dup
  | close =>
    simp only [System.step] at hs
    split at hs
    · cases hs
      exact h
    · next e he =>
        cases hs
        exact h.close he

/-! ## Refusals -/

/-- A refused section moves nothing and wakes nobody. -/
theorem refused_of_error {err : KernelError} (hdoes : Does e task c l) (herr : l.next = .ret (.error err)) :
    l = (e.base task c).refuse err := by
  cases hdoes with
  | wrote | took | timer | parkWriter | parkReader => cases herr
  | refused err' =>
    cases herr
    rfl

/-- **What is refused changes nothing.** -/
theorem Inv.refused (h : s.Inv initial) {a : Act} (hs : s.step a = some s') : RefusedKept s s' a := by
  cases a with
  | look task env =>
    intro c e err hcall he herr
    have hl := refused_of_error (sectionOf_does (h.opened e he)) herr
    simp only [System.step, hcall, he, Option.some.injEq] at hs
    rw [hl] at hs
    subst hs
    refine ⟨rfl, rfl, List.append_nil _, fun e' he' => ?_, fun t ht => update_of_ne ht _ _⟩
    rw [he, Option.some.injEq] at he'
    subst he'
    show some (e.base task c) = _ ∨ some (e.base task c) = _ ∨ some (e.base task c) = _
    obtain ⟨-, -, hb⟩ | ⟨-, -, hb⟩ | ⟨-, hb⟩ := base_cases e task c
    · exact .inr (.inl (congrArg some hb))
    · exact .inl (congrArg some hb)
    · exact .inr (.inr (congrArg some hb))
  | tryWrite value =>
    intro e err he herr
    have hl := refused_of_error (tryWrite_does (h.opened e he) 0) herr
    simp only [System.step, he] at hs
    split at hs
    · cases hs
      rfl
    · rw [hl] at hs
      cases hs
      show (⟨some e, s.calls, s.waking ++ [], s.accepted, s.returned⟩ : System) = s
      rw [List.append_nil, ← he]
  | tryRead =>
    intro e err he herr
    have hl := refused_of_error (tryRead_does (h.opened e he) 0) herr
    simp only [System.step, he] at hs
    rw [hl] at hs
    cases hs
    show (⟨some e, s.calls, s.waking ++ [], s.accepted, s.returned⟩ : System) = s
    rw [List.append_nil, ← he]
  | call | wake | rouse | dup | close => exact trivial

/-! ## Runs -/

/-- **The eventfd conserves its value.** In every state that calls reach, what it was created with and what was
accepted is what is there and what was returned, and nobody is parked in vain; and what is refused changes
nothing. -/
theorem eventfd_kept (initial : Nat) (semaphore : Bool) (s : System) (h : Reach step (Start initial semaphore) s) :
    s.Sound initial ∧ ∀ a s', s.step a = some s' → RefusedKept s s' a := by
  have hinv : s.Inv initial := h.invariant (fun _ => Inv.start) fun _ _ _ hI _ hs => hI.step hs
  exact ⟨hinv.sound, fun a s' hs => hinv.refused hs⟩

/-- A new eventfd with a count of 3 in semaphore mode. -/
def fresh : System := ⟨some (.new 3 true), fun _ => none, [], 0, 0⟩

theorem fresh_start : Start 3 true fresh := ⟨rfl, fun _ => rfl, rfl, rfl, rfl⟩

/-- One unit is read from it, and the other two are there. -/
theorem eventfd_kept_read :
    ∃ s, fresh.step .tryRead = some s ∧ s.returned = 1 ∧ s.Sound 3 ∧ ∀ a s', s.step a = some s' → RefusedKept s s' a :=
  ⟨fresh.after (EventFd.new 3 true).tryRead, rfl, rfl,
    eventfd_kept 3 true _ (.next (s := fresh) (a := .tryRead) (.start fresh_start) trivial rfl)⟩

end System

end SlateOS.Ipc.EventFd
