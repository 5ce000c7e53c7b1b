/-
# SlateOS.Ipc.Semaphore.Runs -- no unit of a semaphore is lost or granted twice

`Balanced` is the account of an open semaphore: what it was created with and what signals brought is what
waits returned with, what is counted, what signals still hold, and one unit for each waiter that is off the
queue and has not resumed. Every section is one of a few moves of this account.
-/
import SlateOS.Foundation.FiniteTotal
import SlateOS.Foundation.Runs
import SlateOS.Ipc.Semaphore.Model

namespace SlateOS.Ipc

open Kernel Sched Foundation Foundation.Runs
  Foundation.MachineInt
open Function (update update_self update_of_ne)

namespace SemPlace

/-- The units a signal holds. -/
def owed : SemPlace → Nat
  | .grantNext _ left | .wakeBatch _ left _ => left
  | _ => 0

/-- The task has queued and not left its wait. -/
def queued : SemPlace → Bool
  | .park _ | .parked _ | .resumed | .timedPass _ true => true
  | _ => false

@[simp] theorem queued_afterPark (w : SemWait) : (afterPark w).queued = true := by cases w <;> rfl

@[simp] theorem owed_afterPark (w : SemWait) : (afterPark w).owed = 0 := by cases w <;> rfl

end SemPlace

/-! ## The account -/

/-- A unit for a waiter that is off the queue and has not resumed. -/
def unresumed (s : Semaphore) (queued : Sched.TaskId → Bool) (t : Sched.TaskId) : Nat :=
  if queued t = true ∧ t ∉ s.waiters then 1 else 0

/-- The account of `units` units in all, `acquired` of them taken; `queued` says who waits and `owed` what
each signal holds. -/
structure Balanced (units acquired : Nat) (s : Semaphore) (queued : Sched.TaskId → Bool)
    (owed : Sched.TaskId → Nat) : Prop where
  /-- A unit is counted only while no one waits. -/
  free : 0 < s.count → s.waiters = []
  room : s.count + s.granting ≤ s.maxCount
  max_le : s.maxCount ≤ maxVal 64
  nodup : s.waiters.Nodup
  waits : ∀ t ∈ s.waiters, queued t = true
  granting : Total owed s.granting
  conserved : ∃ granted, Total (unresumed s queued) granted ∧
    units = acquired + s.count + s.granting + granted

namespace Balanced

variable {units acquired left n : Nat} {s : Semaphore} {queued : Sched.TaskId → Bool} {owed : Sched.TaskId → Nat}
  {t u : Sched.TaskId}

theorem saturatingAdd_eq (h : Balanced units acquired s queued owed) :
    saturatingAdd 64 s.count s.granting = s.count + s.granting := by
  have hroom := h.room
  have hmax := h.max_le
  unfold saturatingAdd
  omega

/-- A counted unit is taken. -/
theorem takeUnit (h : Balanced units acquired s queued owed) (hc : 0 < s.count) :
    Balanced units (acquired + 1) s.takeUnit queued owed where
  free _ := h.free hc
  room := by
    have hroom := h.room
    change s.count - 1 + s.granting ≤ s.maxCount
    omega
  max_le := h.max_le
  nodup := h.nodup
  waits := h.waits
  granting := h.granting
  conserved := by
    obtain ⟨granted, htotal, hsum⟩ := h.conserved
    refine ⟨granted, htotal, ?_⟩
    change units = acquired + 1 + (s.count - 1) + s.granting + granted
    omega

/-- A task queues, nothing being counted. -/
theorem join (h : Balanced units acquired s queued owed) (hc : s.count = 0) (ht : queued t = false) :
    Balanced units acquired { s with waiters := s.waiters ++ [t] } (update queued t true)
      owed where
  free hpos := absurd hpos (by rw [hc]; exact Nat.lt_irrefl 0)
  room := h.room
  max_le := h.max_le
  nodup := by
    rw [List.nodup_append]
    refine ⟨h.nodup, List.nodup_singleton t, ?_⟩
    intro u hu v hv huv
    rw [List.mem_singleton] at hv
    have hw := h.waits u hu
    rw [huv, hv, ht] at hw
    cases hw
  waits u hu := by
    by_cases hut : u = t
    · rw [hut, update_self]
    · rw [update_of_ne hut]
      obtain hold | hnew := List.mem_append.mp hu
      · exact h.waits u hold
      · exact absurd (List.mem_singleton.mp hnew) hut
  granting := h.granting
  conserved := by
    obtain ⟨granted, htotal, hsum⟩ := h.conserved
    refine ⟨granted, htotal.congr ?_, hsum⟩
    intro u
    unfold unresumed
    by_cases hut : u = t
    · subst hut
      rw [if_neg, if_neg]
      · rintro ⟨hq, _⟩
        rw [ht] at hq
        cases hq
      · rintro ⟨_, hout⟩
        exact hout (List.mem_append_right _ (List.mem_singleton_self u))
    · rw [update_of_ne hut]
      simp only [List.mem_append, List.mem_singleton, hut, or_false]

/-- A waiter that holds no unit gives up. -/
theorem leave (h : Balanced units acquired s queued owed) (ht : unresumed s queued t = 0) :
    Balanced units acquired { s with waiters := s.waiters.erase t } (update queued t false)
      owed where
  free hpos := by rw [h.free hpos, List.erase_nil]
  room := h.room
  max_le := h.max_le
  nodup := h.nodup.erase t
  waits u hu := by
    obtain ⟨hut, hin⟩ := h.nodup.mem_erase_iff.mp hu
    rw [update_of_ne hut]
    exact h.waits u hin
  granting := h.granting
  conserved := by
    obtain ⟨granted, htotal, hsum⟩ := h.conserved
    refine ⟨granted, htotal.congr ?_, hsum⟩
    intro u
    by_cases hut : u = t
    · subst hut
      rw [ht]
      unfold unresumed
      rw [update_self]
      exact if_neg fun hand => Bool.false_ne_true hand.1
    · unfold unresumed
      rw [update_of_ne hut]
      simp only [h.nodup.mem_erase_iff, ne_eq, hut, not_false_eq_true, true_and]

/-- A waiter off the queue returns with its unit. -/
theorem claim (h : Balanced units acquired s queued owed) (ht : queued t = true) (hout : t ∉ s.waiters) :
    Balanced units (acquired + 1) s (update queued t false) owed where
  free := h.free
  room := h.room
  max_le := h.max_le
  nodup := h.nodup
  waits u hu := by
    have hut : u ≠ t := by
      rintro rfl
      exact hout hu
    rw [update_of_ne hut]
    exact h.waits u hu
  granting := h.granting
  conserved := by
    obtain ⟨granted, htotal, hsum⟩ := h.conserved
    have hone : unresumed s queued t = 1 := if_pos ⟨ht, hout⟩
    have hzero : unresumed s (update queued t false) t = 0 := by
      unfold unresumed
      rw [update_self]
      exact if_neg fun hand => Bool.false_ne_true hand.1
    have hle := htotal.le t
    refine ⟨_, htotal.change (g := unresumed s (update queued t false)) t ?_, ?_⟩
    · intro u hut
      unfold unresumed
      rw [update_of_ne hut]
    · rw [hone, hzero]
      rw [hone] at hle
      omega

/-- The first waiter is granted one of the units signal `u` holds. -/
theorem pop {ts : List Sched.TaskId} (h : Balanced units acquired s queued (update owed u left))
    (hw : s.waiters = t :: ts) (hleft : 0 < left) :
    Balanced units acquired { s with waiters := ts, granting := s.granting - 1 } queued
      (update owed u (left - 1)) where
  free hpos := by
    have hnil := h.free hpos
    rw [hw] at hnil
    cases hnil
  room := by
    have hroom := h.room
    change s.count + (s.granting - 1) ≤ s.maxCount
    omega
  max_le := h.max_le
  nodup := by
    have hnodup := h.nodup
    rw [hw] at hnodup
    exact hnodup.of_cons
  waits v hv := h.waits v (hw ▸ List.mem_cons_of_mem t hv)
  granting := by
    have htotal := h.granting.update u (left - 1)
    have hle := h.granting.le u
    rw [update_self] at htotal hle
    rw [Function.update_idem] at htotal
    have heq : s.granting - left + (left - 1) = s.granting - 1 := by omega
    rwa [heq] at htotal
  conserved := by
    obtain ⟨granted, htotal, hsum⟩ := h.conserved
    have hle := h.granting.le u
    rw [update_self] at hle
    have hnodup := h.nodup
    rw [hw, List.nodup_cons] at hnodup
    have hin : t ∈ s.waiters := hw ▸ List.mem_cons_self
    have hzero : unresumed s queued t = 0 := if_neg fun hand => hand.2 hin
    have hone : unresumed { s with waiters := ts, granting := s.granting - 1 } queued t = 1 :=
      if_pos ⟨h.waits t hin, hnodup.1⟩
    refine ⟨_, htotal.change t ?_, ?_⟩
    · intro v hvt
      unfold unresumed
      dsimp only
      rw [hw]
      simp only [List.mem_cons, hvt, false_or]
    · rw [hzero, hone]
      change units = acquired + s.count + (s.granting - 1) + (granted - 0 + 1)
      omega

/-- With nobody waiting, the units signal `u` still holds are counted. -/
theorem countLeft (h : Balanced units acquired s queued (update owed u left))
    (hw : s.waiters = []) :
    Balanced units acquired
      { s with granting := s.granting - left, count := saturatingAdd 64 s.count left } queued
      (update owed u 0) := by
  have hle := h.granting.le u
  rw [update_self] at hle
  have hroom := h.room
  have hmax := h.max_le
  have hadd : saturatingAdd 64 s.count left = s.count + left := by
    unfold saturatingAdd
    omega
  rw [hadd]
  refine ⟨fun _ => hw, ?_, hmax, h.nodup, h.waits, ?_, ?_⟩
  · change s.count + left + (s.granting - left) ≤ s.maxCount
    omega
  · have htotal := h.granting.update u 0
    rwa [update_self, Function.update_idem, Nat.add_zero] at htotal
  · obtain ⟨granted, htotal, hsum⟩ := h.conserved
    refine ⟨granted, htotal, ?_⟩
    change units = acquired + (s.count + left) + (s.granting - left) + granted
    omega

/-- A signal that fits is accepted. -/
theorem accept (h : Balanced units acquired s queued owed) (hu : owed u = 0)
    (hfits : n ≤ s.maxCount - (s.count + s.granting)) :
    Balanced (units + n) acquired { s with granting := saturatingAdd 64 s.granting n } queued
      (update owed u n) := by
  have hroom := h.room
  have hmax := h.max_le
  have hadd : saturatingAdd 64 s.granting n = s.granting + n := by
    unfold saturatingAdd
    omega
  rw [hadd]
  refine ⟨h.free, ?_, hmax, h.nodup, h.waits, ?_, ?_⟩
  · change s.count + (s.granting + n) ≤ s.maxCount
    omega
  · have htotal := h.granting.update u n
    rwa [hu, Nat.sub_zero] at htotal
  · obtain ⟨granted, htotal, hsum⟩ := h.conserved
    refine ⟨granted, htotal, ?_⟩
    change units + n = acquired + s.count + (s.granting + n) + granted
    omega

end Balanced

/-! ## A batch -/

namespace Semaphore

variable {units acquired : Nat} {queued : Sched.TaskId → Bool} {owed : Sched.TaskId → Nat} {u : Sched.TaskId}

/-- A batch grants to the front of the queue. -/
theorem grantSlots_waiters (n : Nat) (s : Semaphore) (left : Nat) :
    s.waiters = (grantSlots n s left).2.2 ++ (grantSlots n s left).1.waiters := by
  induction n generalizing s left with
  | zero => rfl
  | succ n ih =>
    unfold grantSlots
    split
    next => rfl
    next =>
    split
    next => rfl
    next t ts hw =>
    rw [hw, List.cons_append]
    congr 1
    exact ih { s with waiters := ts, granting := s.granting - 1 } (left - 1)

theorem grantSlots_balanced (n : Nat) (s : Semaphore) (left : Nat)
    (h : Balanced units acquired s queued (update owed u left)) :
    Balanced units acquired (grantSlots n s left).1 queued
      (update owed u (grantSlots n s left).2.1) := by
  induction n generalizing s left with
  | zero => exact h
  | succ n ih =>
    unfold grantSlots
    split
    next => exact h
    next hleft =>
    split
    next => exact h
    next t ts hw => exact ih _ _ (h.pop hw (Nat.pos_of_ne_zero hleft))

theorem countLeft_balanced {s : Semaphore} {left : Nat}
    (h : Balanced units acquired s queued (update owed u left)) :
    Balanced units acquired (s.countLeft left).1 queued
      (update owed u (s.countLeft left).2) := by
  unfold countLeft
  split
  next hw => exact h.countLeft hw
  next => exact h

theorem grantSlots_closed (n : Nat) (s : Semaphore) (left : Nat) :
    (grantSlots n s left).1.closed = s.closed := by
  induction n generalizing s left with
  | zero => rfl
  | succ n ih =>
    unfold grantSlots
    split
    next => rfl
    next =>
    split
    next => rfl
    next ts _ => exact ih _ _

theorem countLeft_waiters (s : Semaphore) (left : Nat) : (s.countLeft left).1.waiters = s.waiters := by
  unfold countLeft
  split <;> rfl

theorem grantBatch_balanced {s : Semaphore} {left : Nat}
    (h : Balanced units acquired s queued (update owed u left)) :
    Balanced units acquired (s.grantBatch left).1 queued
      (update owed u (s.grantBatch left).2.1) :=
  countLeft_balanced (grantSlots_balanced wakeBatch s left h)

theorem grantBatch_closed (s : Semaphore) (left : Nat) : (s.grantBatch left).1.closed = s.closed := by
  unfold grantBatch countLeft
  dsimp only
  split <;> exact grantSlots_closed wakeBatch s left

theorem grantBatch_waiters (s : Semaphore) (left : Nat) :
    s.waiters = (s.grantBatch left).2.2 ++ (s.grantBatch left).1.waiters := by
  unfold grantBatch
  rw [countLeft_waiters]
  exact grantSlots_waiters wakeBatch s left

end Semaphore

/-! ## The steps as moves of the account -/

namespace SemSystem

variable {m m' : SemSystem} {s : Semaphore} {t u : Sched.TaskId} {p : SemPlace}

/-- Who waits. -/
def queuedOf (m : SemSystem) : Sched.TaskId → Bool := SemPlace.queued ∘ m.tasks.place

/-- What each signal holds. -/
def owedOf (m : SemSystem) : Sched.TaskId → Nat := SemPlace.owed ∘ m.tasks.place

@[simp] theorem queuedOf_goto : (m.goto t p).queuedOf = update m.queuedOf t p.queued :=
  Function.comp_update ..

@[simp] theorem owedOf_goto : (m.goto t p).owedOf = update m.owedOf t p.owed :=
  Function.comp_update ..

/-- A semaphore in the table is not closed. -/
def Open (m : SemSystem) : Prop := ∀ s, m.sem = some s → s.closed = false

/-- A semaphore in the table is balanced. -/
def Inv (m : SemSystem) : Prop :=
  ∀ s, m.sem = some s → Balanced (m.initial + m.accepted) m.acquired s m.queuedOf m.owedOf

/-- One step of task `t`, as far as the account is concerned. -/
inductive Move (m : SemSystem) (t : Sched.TaskId) : SemSystem → Prop
  /-- Nothing happens to the account. -/
  | quiet {n : SemSystem} (hsem : n.sem = m.sem) (hinit : n.initial = m.initial)
      (hacc : n.accepted = m.accepted) (hacq : n.acquired = m.acquired)
      (hqueued : n.queuedOf = m.queuedOf) (howed : n.owedOf = m.owedOf) : Move m t n
  /-- The semaphore is gone. -/
  | gone {n : SemSystem} (hsem : n.sem = none) : Move m t n
  | take {s : Semaphore} {call : SemCall} (hsem : m.sem = some s) (hcount : 0 < s.count)
      (hqueued : m.queuedOf t = false) (howed : m.owedOf t = 0) :
      Move m t ({ m with sem := some s.takeUnit }.retUnit t call)
  | join {s : Semaphore} {w : SemWait} (hsem : m.sem = some s) (hcount : s.count = 0)
      (hqueued : m.queuedOf t = false) (howed : m.owedOf t = 0) :
      Move m t ({ m with sem := some { s with waiters := s.waiters ++ [t] } }.goto t (.park w))
  /-- A wait gives up, queued or not. -/
  | leave {s : Semaphore} {call : SemCall} {e : KernelError} (hsem : m.sem = some s)
      (hzero : m.queuedOf t = true → t ∈ s.waiters) (howed : m.owedOf t = 0) :
      Move m t ({ m with sem := some { s with waiters := s.waiters.erase t } }.ret t call (.error e))
  | claim {s : Semaphore} {call : SemCall} (hsem : m.sem = some s) (hqueued : m.queuedOf t = true)
      (hout : t ∉ s.waiters) (howed : m.owedOf t = 0) : Move m t (m.retUnit t call)
  | accept {s : Semaphore} {count : Nat} (hsem : m.sem = some s) (hqueued : m.queuedOf t = false)
      (howed : m.owedOf t = 0) (hfits : count ≤ s.maxCount - saturatingAdd 64 s.count s.granting) :
      Move m t ({ m with accepted := m.accepted + count }.grant t
        { s with granting := saturatingAdd 64 s.granting count } count count)
  | grant {s : Semaphore} {count left : Nat} (hsem : m.sem = some s) (hqueued : m.queuedOf t = false)
      (howed : m.owedOf t = left) : Move m t (m.grant t s count left)

theorem goto_quiet (hqueued : p.queued = m.queuedOf t) (howed : p.owed = m.owedOf t) :
    Move m t (m.goto t p) := by
  refine .quiet rfl rfl rfl rfl ?_ ?_
  · rw [queuedOf_goto, hqueued, Function.update_eq_self]
  · rw [owedOf_goto, howed, Function.update_eq_self]

/-- A wake does not touch the account. -/
theorem wake_views (m : SemSystem) (u : Sched.TaskId) :
    (m.wake u).queuedOf = m.queuedOf ∧ (m.wake u).owedOf = m.owedOf := by
  cases hr : (m.tasks.place u).ready with
  | none =>
    have hplace : (m.wake u).tasks.place = m.tasks.place := Tasks.wake_place_of_none hr
    unfold queuedOf owedOf
    rw [hplace]
    exact ⟨rfl, rfl⟩
  | some p =>
    have hplace : (m.wake u).tasks.place = update m.tasks.place u p :=
      Tasks.wake_place_of_some hr
    have hsame : p.queued = (m.tasks.place u).queued ∧ p.owed = (m.tasks.place u).owed := by
      unfold SemPlace.ready at hr
      split at hr
      next w hp =>
        cases hr
        rw [hp]
        exact ⟨SemPlace.queued_afterPark w, SemPlace.owed_afterPark w⟩
      next => cases hr
    unfold queuedOf owedOf
    rw [hplace, Function.comp_update, Function.comp_update, hsame.1, hsame.2]
    exact ⟨Function.update_eq_self .., Function.update_eq_self ..⟩

/-- A move and a wake after it that leave the account alone. -/
theorem wake_quiet (hqueued : p.queued = m.queuedOf t) (howed : p.owed = m.owedOf t) :
    Move m t ((m.goto t p).wake u) := by
  obtain ⟨hq, ho⟩ := wake_views (m.goto t p) u
  refine .quiet rfl rfl rfl rfl ?_ ?_
  · rw [hq, queuedOf_goto, hqueued, Function.update_eq_self]
  · rw [ho, owedOf_goto, howed, Function.update_eq_self]

theorem ret_quiet {call : SemCall} {r : KernelResult Unit} (hqueued : m.queuedOf t = false)
    (howed : m.owedOf t = 0) : Move m t (m.ret t call r) :=
  goto_quiet hqueued.symm howed.symm

/-! ## Every section is a move -/

theorem signal_move {count : Nat} (hqueued : m.queuedOf t = false) (howed : m.owedOf t = 0) :
    Move m t (m.signal t count) := by
  unfold SemSystem.signal
  split
  next => exact ret_quiet hqueued howed
  next =>
  split
  next => exact ret_quiet hqueued howed
  next s hsem =>
  split
  next => exact ret_quiet hqueued howed
  next =>
  split
  next => exact ret_quiet hqueued howed
  next hfits => exact .accept hsem hqueued howed (Nat.le_of_not_lt hfits)

theorem grantNext_move {count left : Nat} (ht : m.tasks.place t = .grantNext count left) :
    Move m t (m.grantNext t count left) := by
  unfold SemSystem.grantNext
  split
  next hsem => exact .gone hsem
  next s hsem => exact .grant hsem (congrArg SemPlace.queued ht) (congrArg SemPlace.owed ht)

theorem wait_move (hqueued : m.queuedOf t = false) (howed : m.owedOf t = 0) :
    Move m t (m.wait t) := by
  unfold SemSystem.wait
  split
  next => exact ret_quiet hqueued howed
  next s hsem =>
  split
  next hcount => exact .take hsem hcount hqueued howed
  next hcount =>
  split
  next => exact ret_quiet hqueued howed
  next =>
  split
  next => exact ret_quiet hqueued howed
  next => exact .join hsem (by omega) hqueued howed

theorem resumed_move (hopen : m.Open) (ht : m.tasks.place t = .resumed) : Move m t (m.resumed t) := by
  unfold SemSystem.resumed
  split
  next hsem => exact .gone hsem
  next s hsem =>
  split
  next hclosed => exact absurd hclosed (by rw [hopen s hsem]; exact Bool.false_ne_true)
  next =>
  split
  next => exact goto_quiet (congrArg SemPlace.queued ht).symm (congrArg SemPlace.owed ht).symm
  next hout => exact .claim hsem (congrArg SemPlace.queued ht) hout (congrArg SemPlace.owed ht)

theorem tryWait_move (hqueued : m.queuedOf t = false) (howed : m.owedOf t = 0) :
    Move m t (m.tryWait t) := by
  unfold SemSystem.tryWait
  split
  next => exact ret_quiet hqueued howed
  next s hsem =>
  split
  next hcount => exact .take hsem hcount hqueued howed
  next => split <;> exact ret_quiet hqueued howed

theorem waitTimeout_move {timeoutNs : Nat} (hqueued : m.queuedOf t = false) (howed : m.owedOf t = 0) :
    Move m t (m.waitTimeout t timeoutNs) := by
  unfold SemSystem.waitTimeout
  split
  next => exact ret_quiet hqueued howed
  next s hsem =>
  split
  next hcount => exact .take hsem hcount hqueued howed
  next =>
  split
  next => exact ret_quiet hqueued howed
  next =>
  split
  next => exact ret_quiet hqueued howed
  next => exact goto_quiet hqueued.symm howed.symm

theorem timedPass_move {timeoutNs : Nat} {queued expired : Bool} (hopen : m.Open)
    (ht : m.tasks.place t = .timedPass timeoutNs queued) :
    Move m t (m.timedPass t timeoutNs queued expired) := by
  have howed : m.owedOf t = 0 := congrArg SemPlace.owed ht
  have hqueued : m.queuedOf t = queued := by
    refine (congrArg SemPlace.queued ht).trans ?_
    cases queued <;> rfl
  unfold SemSystem.timedPass
  split
  next hsem => exact .gone hsem
  next s hsem =>
  split
  next hclosed => exact absurd hclosed (by rw [hopen s hsem]; exact Bool.false_ne_true)
  next =>
  split
  next hout =>
    rw [Bool.and_eq_true, decide_eq_true_eq] at hout
    exact .claim hsem (hqueued.trans hout.1) hout.2 howed
  next hin =>
  split
  next hcount =>
    rw [Bool.and_eq_true, decide_eq_true_eq, Bool.not_eq_true'] at hcount
    exact .take hsem hcount.2 (hqueued.trans hcount.1) howed
  next hcount =>
  split
  next =>
    refine .leave hsem ?_ howed
    intro hq
    by_contra hout
    refine hin ?_
    rw [Bool.and_eq_true, decide_eq_true_eq]
    exact ⟨hqueued.symm.trans hq, hout⟩
  next =>
  cases queued with
  | true => exact goto_quiet hqueued.symm howed.symm
  | false =>
    split
    next hfalse => cases hfalse
    next =>
    split
    next => exact ret_quiet hqueued howed
    next =>
      refine .join hsem ?_ hqueued howed
      simpa using hcount

theorem park_move {w : SemWait} (ht : m.tasks.place t = .park w) : Move m t (m.park t w) := by
  have howed : m.owedOf t = 0 := congrArg SemPlace.owed ht
  have hqueued : m.queuedOf t = true := congrArg SemPlace.queued ht
  unfold SemSystem.park
  split
  next =>
    refine .quiet rfl rfl rfl rfl ?_ ?_
    · change (m.goto t (SemPlace.afterPark w)).queuedOf = m.queuedOf
      rw [queuedOf_goto, SemPlace.queued_afterPark, ← hqueued, Function.update_eq_self]
    · change (m.goto t (SemPlace.afterPark w)).owedOf = m.owedOf
      rw [owedOf_goto, SemPlace.owed_afterPark, ← howed, Function.update_eq_self]
  next => exact goto_quiet hqueued.symm howed.symm

theorem close_move (hqueued : m.queuedOf t = false) (howed : m.owedOf t = 0) : Move m t (m.close t) := by
  unfold SemSystem.close
  split
  next => exact goto_quiet hqueued.symm howed.symm
  next => exact .gone rfl

/-- Whose step it is. -/
def actor : SemAction → Sched.TaskId
  | .call t _ | .advance t _ | .wake t => t

theorem advance_move {expired : Bool} (hopen : m.Open) (hs : m.advance t expired = some m') :
    Move m t m' := by
  unfold SemSystem.advance at hs
  split at hs
  case h_1 | h_2 => cases hs
  case h_3 count ht =>
    cases hs
    exact signal_move (congrArg SemPlace.queued ht) (congrArg SemPlace.owed ht)
  case h_4 ht =>
    cases hs
    exact wait_move (congrArg SemPlace.queued ht) (congrArg SemPlace.owed ht)
  case h_5 ht =>
    cases hs
    exact tryWait_move (congrArg SemPlace.queued ht) (congrArg SemPlace.owed ht)
  case h_6 timeoutNs ht =>
    cases hs
    exact waitTimeout_move (congrArg SemPlace.queued ht) (congrArg SemPlace.owed ht)
  case h_7 ht =>
    cases hs
    exact close_move (congrArg SemPlace.queued ht) (congrArg SemPlace.owed ht)
  case h_8 count left ht =>
    cases hs
    exact grantNext_move ht
  case h_9 count left ht =>
    cases hs
    have hqueued : m.queuedOf t = false := congrArg SemPlace.queued ht
    have howed : m.owedOf t = left := congrArg SemPlace.owed ht
    split
    next hleft => exact ret_quiet hqueued (howed.trans hleft)
    next => exact goto_quiet hqueued.symm howed.symm
  case h_10 count left u us ht =>
    cases hs
    exact wake_quiet (congrArg SemPlace.queued ht).symm (congrArg SemPlace.owed ht).symm
  case h_11 timeoutNs queued ht =>
    cases hs
    exact timedPass_move hopen ht
  case h_12 w ht =>
    cases hs
    exact park_move ht
  case h_13 ht =>
    cases hs
    exact resumed_move hopen ht
  case h_14 ht =>
    cases hs
    exact ret_quiet (congrArg SemPlace.queued ht) (congrArg SemPlace.owed ht)
  case h_15 u us ht =>
    cases hs
    exact wake_quiet (congrArg SemPlace.queued ht).symm (congrArg SemPlace.owed ht).symm

/-- Every step is a move. -/
theorem step_move {a : SemAction} (hopen : m.Open) (hs : m.step a = some m') : Move m (actor a) m' := by
  cases a with
  | call t call =>
    unfold step at hs
    dsimp only at hs
    split at hs
    next ht =>
      cases hs
      exact goto_quiet (congrArg SemPlace.queued ht).symm (congrArg SemPlace.owed ht).symm
    next => cases hs
  | advance t expired => exact advance_move hopen hs
  | wake t =>
    cases hs
    exact .quiet rfl rfl rfl rfl (wake_views m t).1 (wake_views m t).2

/-! ## The invariant -/

/-- The views after a step that ends at a place where `t` neither waits nor holds units. -/
theorem views_ret {call : SemCall} {r : KernelResult Unit} (hqueued : m.queuedOf t = false)
    (howed : m.owedOf t = 0) :
    (m.ret t call r).queuedOf = m.queuedOf ∧ (m.ret t call r).owedOf = m.owedOf := by
  constructor
  · exact queuedOf_goto.trans (Function.update_eq_self_iff.mpr hqueued.symm)
  · exact owedOf_goto.trans (Function.update_eq_self_iff.mpr howed.symm)

theorem Move.open (h : Move m t m') (hopen : m.Open) : m'.Open := by
  intro s' hs'
  cases h with
  | quiet hsem => exact hopen s' (hsem ▸ hs')
  | gone hsem =>
    rw [hsem] at hs'
    cases hs'
  | @take s _ hsem | @join s _ hsem | @leave s _ _ hsem =>
    cases hs'
    exact hopen s hsem
  | claim hsem =>
    exact hopen s' hs'
  | @accept s _ hsem | @grant s _ _ hsem =>
    cases hs'
    rw [Semaphore.grantBatch_closed]
    exact hopen s hsem

/-- The invariant through a batch. -/
theorem Inv.batch {count left : Nat} (hqueued : m.queuedOf t = false)
    (h : Balanced (m.initial + m.accepted) m.acquired s m.queuedOf (update m.owedOf t left)) :
    (m.grant t s count left).Inv := by
  intro s' hs'
  cases hs'
  have hq : (m.grant t s count left).queuedOf = m.queuedOf :=
    queuedOf_goto.trans (Function.update_eq_self_iff.mpr hqueued.symm)
  have ho : (m.grant t s count left).owedOf
      = update m.owedOf t (s.grantBatch left).2.1 := owedOf_goto
  rw [hq, ho]
  exact Semaphore.grantBatch_balanced h

/-- Every move keeps the account. -/
theorem Move.inv (h : Move m t m') (hinv : m.Inv) : m'.Inv := by
  cases h with
  | quiet hsem hinit hacc hacq hqueued howed =>
    intro s' hs'
    rw [hinit, hacc, hacq, hqueued, howed]
    exact hinv s' (hsem ▸ hs')
  | gone hsem =>
    intro s' hs'
    rw [hsem] at hs'
    cases hs'
  | @take s call hsem hcount hqueued howed =>
    intro s' hs'
    cases hs'
    obtain ⟨hq, ho⟩ := views_ret (m := m) (t := t) (r := .ok ()) hqueued howed
    have hb := (hinv s hsem).takeUnit hcount
    rw [← hq, ← ho] at hb
    exact hb
  | @join s w hsem hcount hqueued howed =>
    intro s' hs'
    cases hs'
    have hb := (hinv s hsem).join hcount hqueued
    rw [← Function.update_eq_self t m.owedOf, howed] at hb
    rw [queuedOf_goto, owedOf_goto]
    exact hb
  | @leave s call e hsem hzero howed =>
    intro s' hs'
    cases hs'
    have hnone : unresumed s m.queuedOf t = 0 := if_neg fun hand => hand.2 (hzero hand.1)
    have hb := (hinv s hsem).leave hnone
    rw [← Function.update_eq_self t m.owedOf, howed] at hb
    unfold SemSystem.ret
    rw [queuedOf_goto, owedOf_goto]
    exact hb
  | @claim s call hsem hqueued hout howed =>
    intro s' hs'
    obtain rfl : s = s' := Option.some.inj (hsem.symm.trans hs')
    have hb := (hinv s hsem).claim hqueued hout
    rw [← Function.update_eq_self t m.owedOf, howed] at hb
    unfold SemSystem.retUnit SemSystem.ret
    rw [queuedOf_goto, owedOf_goto]
    exact hb
  | @accept s count hsem hqueued howed hfits =>
    have hb := hinv s hsem
    rw [hb.saturatingAdd_eq] at hfits
    have hacc := hb.accept howed hfits
    rw [Nat.add_assoc] at hacc
    exact Inv.batch (m := { m with accepted := m.accepted + count }) hqueued hacc
  | @grant s count left hsem hqueued howed =>
    refine Inv.batch hqueued ?_
    rw [← howed, Function.update_eq_self]
    exact hinv s hsem

/-! ## What single steps do -/

/-- The step that ends a timed wait without a unit takes none. -/
def KeepsUnits (m m' : SemSystem) (t : Sched.TaskId) : Prop :=
  m'.acquired = m.acquired ∧ ∀ s, m.sem = some s → unresumed s m.queuedOf t = 0 ∧
    ∃ s', m'.sem = some s' ∧ s'.count = s.count ∧ s'.granting = s.granting

/-- The tasks a step grants a unit to are the first of the queue; the others keep their order, and who
queues goes to the end. -/
def GrantsFirst (m m' : SemSystem) : Prop :=
  ∀ s s', m.sem = some s → m'.sem = some s' → ∃ granted rest kept joined,
    s.waiters = granted ++ rest ∧ kept.Sublist rest ∧ s'.waiters = kept ++ joined ∧
      ∀ u, unresumed s m.queuedOf u = 0 ∧ unresumed s' m'.queuedOf u = 1 ↔ u ∈ granted

/-- What a step may do. -/
structure StepLaw (m : SemSystem) (a : SemAction) (m' : SemSystem) : Prop where
  /-- A refused signal changes nothing. -/
  refused : ∀ t expired n e, a = .advance t expired → m.tasks.place t = .enter (.signal n) →
    m'.tasks.place t = .user (some (.signal n, .error e)) →
    m' = m.goto t (.user (some (.signal n, .error e)))
  /-- A wait that reports a time-out consumed no unit. -/
  timedOut : ∀ t expired timeoutNs, a = .advance t expired →
    m'.tasks.place t = .user (some (.waitTimeout timeoutNs, .error .timedOut)) → KeepsUnits m m' t
  order : GrantsFirst m m'

theorem ret_place {call : SemCall} {r : KernelResult Unit} :
    (m.ret t call r).tasks.place t = .user (some (call, r)) :=
  Tasks.goto_place_self

theorem signal_refused {n : Nat} {e : KernelError}
    (h : (m.signal t n).tasks.place t = .user (some (.signal n, .error e))) :
    m.signal t n = m.goto t (.user (some (.signal n, .error e))) := by
  have hret : ∀ r : KernelResult Unit,
      (m.ret t (.signal n) r).tasks.place t = .user (some (.signal n, .error e)) →
      m.ret t (.signal n) r = m.goto t (.user (some (.signal n, .error e))) := by
    intro r hr
    rw [ret_place] at hr
    cases hr
    rfl
  unfold SemSystem.signal at h ⊢
  split
  next h0 =>
    rw [if_pos h0] at h
    exact hret _ h
  next h0 =>
  rw [if_neg h0] at h
  split
  next hsem =>
    rw [hsem] at h
    exact hret _ h
  next s hsem =>
  rw [hsem] at h
  dsimp only at h
  split
  next hclosed =>
    rw [if_pos hclosed] at h
    exact hret _ h
  next hclosed =>
  rw [if_neg hclosed] at h
  split
  next hfull =>
    rw [if_pos hfull] at h
    exact hret _ h
  next hfull =>
  rw [if_neg hfull] at h
  have hplace : ∀ (n : SemSystem) (s : Semaphore) (count left : Nat), (n.grant t s count left).tasks.place t
      = .wakeBatch count (s.grantBatch left).2.1 (s.grantBatch left).2.2 :=
    fun _ _ _ _ => Tasks.goto_place_self
  rw [hplace] at h
  cases h

theorem waitTimeout_keepsUnits {timeoutNs : Nat} (hqueued : m.queuedOf t = false)
    (h : (m.waitTimeout t timeoutNs).tasks.place t
      = .user (some (.waitTimeout timeoutNs, .error .timedOut))) :
    KeepsUnits m (m.waitTimeout t timeoutNs) t := by
  have hkeep : ∀ (p : SemPlace), KeepsUnits m (m.goto t p) t := by
    intro p
    refine ⟨rfl, ?_⟩
    intro s hsem
    refine ⟨if_neg ?_, s, hsem, rfl, rfl⟩
    rintro ⟨hq, _⟩
    rw [hqueued] at hq
    cases hq
  unfold SemSystem.waitTimeout at h ⊢
  split
  next => exact hkeep _
  next s hsem =>
  rw [hsem] at h
  dsimp only at h
  split
  next hcount =>
    rw [if_pos hcount] at h
    unfold SemSystem.retUnit at h
    rw [ret_place] at h
    cases h
  next => split_ifs <;> exact hkeep _

theorem timedPass_keepsUnits {timeoutNs : Nat} {queued expired : Bool} (hqueued : m.queuedOf t = queued)
    (h : (m.timedPass t timeoutNs queued expired).tasks.place t
      = .user (some (.waitTimeout timeoutNs, .error .timedOut))) :
    KeepsUnits m (m.timedPass t timeoutNs queued expired) t := by
  have hunit : ∀ (n : SemSystem) (call : SemCall), (n.retUnit t call).tasks.place t
      ≠ .user (some (.waitTimeout timeoutNs, .error .timedOut)) := by
    intro n call hn
    unfold SemSystem.retUnit at hn
    rw [ret_place] at hn
    cases hn
  unfold SemSystem.timedPass at h ⊢
  split
  next hsem =>
    refine ⟨rfl, ?_⟩
    intro s hs
    rw [hsem] at hs
    cases hs
  next s hsem =>
  rw [hsem] at h
  dsimp only at h
  split
  next hclosed =>
    rw [if_pos hclosed, ret_place] at h
    cases h
  next hclosed =>
  rw [if_neg hclosed] at h
  split
  next hout =>
    rw [if_pos hout] at h
    exact absurd h (hunit _ _)
  next hin =>
  rw [if_neg hin] at h
  split
  next hcount =>
    rw [if_pos hcount] at h
    exact absurd h (hunit _ _)
  next hcount =>
  rw [if_neg hcount] at h
  split
  next =>
    refine ⟨rfl, ?_⟩
    intro s' hs'
    obtain rfl : s = s' := Option.some.inj (hsem.symm.trans hs')
    refine ⟨if_neg ?_, _, rfl, rfl, rfl⟩
    rintro ⟨hq, hout⟩
    refine hin ?_
    rw [Bool.and_eq_true, decide_eq_true_eq]
    exact ⟨hqueued.symm.trans hq, hout⟩
  next hexp =>
  rw [if_neg hexp] at h
  split_ifs at h with hq hfull
  · cases Tasks.goto_place_self.symm.trans h
  · rw [ret_place] at h
    cases h
  · cases Tasks.goto_place_self.symm.trans h

/-- A timed wait reports its time-out in one of its two sections only. -/
theorem advance_keepsUnits {expired : Bool} {timeoutNs : Nat} (hs : m.advance t expired = some m')
    (h : m'.tasks.place t = .user (some (.waitTimeout timeoutNs, .error .timedOut))) :
    KeepsUnits m m' t := by
  have hat : ∀ (n : SemSystem) (p : SemPlace), (n.goto t p).tasks.place t = p :=
    fun _ _ => Tasks.goto_place_self
  have hwake : ∀ (n : SemSystem) (p : SemPlace) (u : Sched.TaskId), p.ready = none →
      ((n.goto t p).wake u).tasks.place t = p := by
    intro n p u hp
    have hready : SemPlace.ready ((n.goto t p).tasks.place t) = none := by
      rw [hat]
      exact hp
    have hstay : ((n.goto t p).wake u).tasks.place t = (n.goto t p).tasks.place t :=
      Tasks.wake_place_of_not_blocked hready
    exact hstay.trans (hat n p)
  unfold SemSystem.advance at hs
  split at hs
  case h_1 | h_2 => cases hs
  case h_6 ns ht =>
    cases hs
    have hns : ns = timeoutNs := by
      unfold SemSystem.waitTimeout SemSystem.retUnit SemSystem.ret at h
      repeat' split at h
      all_goals
        rw [hat] at h
        cases h
      rfl
    subst hns
    exact waitTimeout_keepsUnits (congrArg SemPlace.queued ht) h
  case h_11 ns queued ht =>
    cases hs
    have hns : ns = timeoutNs := by
      unfold SemSystem.timedPass SemSystem.retUnit SemSystem.ret at h
      repeat' split at h
      all_goals
        rw [hat] at h
        cases h
      rfl
    subst hns
    refine timedPass_keepsUnits ((congrArg SemPlace.queued ht).trans ?_) h
    cases queued <;> rfl
  case h_10 ht =>
    cases hs
    rw [hwake _ _ _ rfl] at h
    cases h
  case h_15 ht =>
    cases hs
    rw [hwake _ _ _ rfl] at h
    cases h
  case h_12 w ht =>
    cases hs
    unfold SemSystem.park at h
    split at h
    · change ((m.goto t (SemPlace.afterPark w)).tasks.place t) = _ at h
      rw [hat] at h
      cases w <;> cases h
    · rw [hat] at h
      cases h
  all_goals
    -- the sections of the other calls
    cases hs
    exfalso
    first
      | unfold SemSystem.signal SemSystem.grant SemSystem.ret at h
      | unfold SemSystem.wait SemSystem.retUnit SemSystem.ret at h
      | unfold SemSystem.tryWait SemSystem.retUnit SemSystem.ret at h
      | unfold SemSystem.close at h
      | unfold SemSystem.grantNext SemSystem.grant SemSystem.ret at h
      | unfold SemSystem.resumed SemSystem.retUnit SemSystem.ret at h
      | unfold SemSystem.ret at h
    repeat' split at h
    all_goals
      rw [hat] at h
      cases h

/-! ## The order of grants -/

/-- A step that takes nobody's unit away and pops nobody grants nothing. -/
theorem grantsFirst_none
    (h : ∀ s s', m.sem = some s → m'.sem = some s' → ∃ kept joined, kept.Sublist s.waiters ∧
      s'.waiters = kept ++ joined ∧
        ∀ u, unresumed s m.queuedOf u = 0 → unresumed s' m'.queuedOf u = 0) :
    GrantsFirst m m' := by
  intro s s' hs hs'
  obtain ⟨kept, joined, hsub, heq, hnone⟩ := h s s' hs hs'
  refine ⟨[], s.waiters, kept, joined, rfl, hsub, heq, ?_⟩
  intro u
  constructor
  · rintro ⟨h0, h1⟩
    rw [hnone u h0] at h1
    cases h1
  · intro hu
    cases hu

/-- A batch grants to the front of the queue. -/
theorem grantsFirst_batch (s₀ : Semaphore) {count left : Nat} (hsem : m.sem = some s)
    (hwaiters : s₀.waiters = s.waiters) (hqueued : m.queuedOf t = false) (hinv : m.Inv)
    (hm : m'.sem = some (s₀.grantBatch left).1)
    (hplace : m'.tasks.place = (m.goto t (.wakeBatch count (s₀.grantBatch left).2.1
      (s₀.grantBatch left).2.2)).tasks.place) : GrantsFirst m m' := by
  intro s₁ s' hs hs'
  obtain rfl : s = s₁ := Option.some.inj (hsem.symm.trans hs)
  obtain rfl : (s₀.grantBatch left).1 = s' := Option.some.inj (hm.symm.trans hs')
  have hsplit := s₀.grantBatch_waiters left
  rw [hwaiters] at hsplit
  have hq : m'.queuedOf = m.queuedOf := by
    unfold queuedOf
    rw [hplace]
    exact queuedOf_goto.trans (Function.update_eq_self_iff.mpr hqueued.symm)
  have hbal := hinv s hsem
  have hnodup := hbal.nodup
  rw [hsplit, List.nodup_append] at hnodup
  refine ⟨_, _, _, [], hsplit, List.Sublist.refl _, (List.append_nil _).symm, ?_⟩
  intro u
  rw [hq]
  unfold unresumed
  constructor
  · rintro ⟨h0, h1⟩
    by_contra hu
    have hafter : m.queuedOf u = true ∧ u ∉ (s₀.grantBatch left).1.waiters := by
      by_contra hnot
      rw [if_neg hnot] at h1
      cases h1
    refine absurd h0 ?_
    rw [if_pos]
    · exact Nat.one_ne_zero
    · refine ⟨hafter.1, ?_⟩
      rw [hsplit, List.mem_append]
      exact fun hin => hin.elim hu hafter.2
  · intro hu
    have hin : u ∈ s.waiters := hsplit ▸ List.mem_append_left _ hu
    refine ⟨if_neg fun hand => hand.2 hin, if_pos ⟨hbal.waits u hin, ?_⟩⟩
    intro hrest
    exact hnodup.2.2 u hu u hrest rfl

theorem Move.grantsFirst (h : Move m t m') (hinv : m.Inv) : GrantsFirst m m' := by
  cases h with
  | quiet hsem hinit hacc hacq hqueued howed =>
    refine grantsFirst_none ?_
    intro s s' hs hs'
    obtain rfl : s = s' := Option.some.inj (hs.symm.trans (hsem ▸ hs'))
    refine ⟨s.waiters, [], List.Sublist.refl _, (List.append_nil _).symm, ?_⟩
    intro u hu
    rwa [hqueued]
  | gone hsem =>
    intro s s' hs hs'
    rw [hsem] at hs'
    cases hs'
  | @take s call hsem hcount hqueued howed =>
    refine grantsFirst_none ?_
    intro s₁ s' hs hs'
    obtain rfl : s = s₁ := Option.some.inj (hsem.symm.trans hs)
    cases hs'
    refine ⟨s.waiters, [], List.Sublist.refl _, (List.append_nil _).symm, ?_⟩
    intro u hu
    obtain ⟨hq, _⟩ := views_ret (m := m) (t := t) (r := .ok ()) hqueued howed
    exact (congrArg (fun q => unresumed s q u) hq).trans hu
  | @join s w hsem hcount hqueued howed =>
    refine grantsFirst_none ?_
    intro s₁ s' hs hs'
    obtain rfl : s = s₁ := Option.some.inj (hsem.symm.trans hs)
    cases hs'
    refine ⟨s.waiters, [t], List.Sublist.refl _, rfl, ?_⟩
    intro u hu
    rw [queuedOf_goto]
    refine if_neg ?_
    rintro ⟨hq, hout⟩
    have hut : u ≠ t := by
      rintro rfl
      exact hout (List.mem_append_right _ (List.mem_singleton_self u))
    rw [update_of_ne hut] at hq
    refine absurd hu ?_
    unfold unresumed
    rw [if_pos]
    · exact Nat.one_ne_zero
    · exact ⟨hq, fun hin => hout (List.mem_append_left _ hin)⟩
  | @leave s call e hsem hzero howed =>
    refine grantsFirst_none ?_
    intro s₁ s' hs hs'
    obtain rfl : s = s₁ := Option.some.inj (hsem.symm.trans hs)
    cases hs'
    refine ⟨s.waiters.erase t, [], List.erase_sublist, (List.append_nil _).symm, ?_⟩
    intro u hu
    unfold SemSystem.ret
    rw [queuedOf_goto]
    refine if_neg ?_
    rintro ⟨hq, hout⟩
    by_cases hut : u = t
    · subst hut
      rw [update_self] at hq
      cases hq
    · rw [update_of_ne hut] at hq
      refine absurd hu ?_
      unfold unresumed
      rw [if_pos]
      · exact Nat.one_ne_zero
      · exact ⟨hq, fun hin => hout ((List.mem_erase_of_ne hut).mpr hin)⟩
  | @claim s call hsem hqueued hout howed =>
    refine grantsFirst_none ?_
    intro s₁ s' hs hs'
    obtain rfl : s = s₁ := Option.some.inj (hsem.symm.trans hs)
    obtain rfl : s = s' := Option.some.inj (hsem.symm.trans hs')
    refine ⟨s.waiters, [], List.Sublist.refl _, (List.append_nil _).symm, ?_⟩
    intro u hu
    unfold SemSystem.retUnit SemSystem.ret
    rw [queuedOf_goto]
    by_cases hut : u = t
    · subst hut
      exact if_neg fun hand => Bool.false_ne_true ((update_self ..).symm.trans hand.1)
    · unfold unresumed at hu ⊢
      rwa [update_of_ne hut]
  | @accept s count hsem hqueued howed hfits =>
    exact grantsFirst_batch { s with granting := saturatingAdd 64 s.granting count } hsem rfl hqueued
      hinv rfl rfl
  | @grant s count left hsem hqueued howed => exact grantsFirst_batch s hsem rfl hqueued hinv rfl rfl

/-! ## Every run -/

/-- The law of an open semaphore. -/
structure Conserving (m : SemSystem) (s : Semaphore) : Prop where
  /-- What was there and what signals brought is acquired, counted, being granted, or granted to a waiter
  that has not resumed. -/
  conserved : ∃ granted, Total (unresumed s m.queuedOf) granted ∧ Total m.owedOf s.granting ∧
    m.initial + m.accepted = m.acquired + s.count + s.granting + granted
  free : 0 < s.count → s.waiters = []
  room : s.count + s.granting ≤ s.maxCount

theorem init_good (h : m.Init) : m.Open ∧ m.Inv := by
  obtain ⟨initial, maxCount, pending, hmax, rfl⟩ := h
  constructor
  · intro s hs
    cases hs
    rfl
  · intro s hs
    cases hs
    have hle : (if maxCount = 0 then defaultMaxCount else maxCount) ≤ maxVal 64 := by
      split
      · exact Nat.div_le_self ..
      · exact hmax
    refine ⟨fun _ => rfl, ?_, hle, List.nodup_nil, nofun, Total.zero, 0, ?_, ?_⟩
    · exact Nat.min_le_right ..
    · exact Total.zero.congr fun t => if_neg fun hand => Bool.false_ne_true hand.1
    · exact (Nat.zero_add _).symm

/-- What every reachable state has. -/
theorem reach_good (h : Reach SemSystem.step SemSystem.Init m) : m.Open ∧ m.Inv :=
  h.invariant (I := fun m => m.Open ∧ m.Inv) (fun _ hinit => init_good hinit)
    fun _ _ _ hgood _ hs =>
      ⟨(step_move hgood.1 hs).open hgood.1, (step_move hgood.1 hs).inv hgood.2⟩

/-- **Conservation.** In every state of every run an open semaphore has lost no unit and granted none
twice, and every step keeps to the law. -/
theorem semaphore_conservation (h : Reach SemSystem.step SemSystem.Init m) :
    (∀ s, m.sem = some s → m.Conserving s) ∧ ∀ a m', m.step a = some m' → StepLaw m a m' := by
  obtain ⟨hopen, hinv⟩ := reach_good h
  constructor
  · intro s hs
    have hbal := hinv s hs
    obtain ⟨granted, htotal, hsum⟩ := hbal.conserved
    exact ⟨⟨granted, htotal, hbal.granting, hsum⟩, hbal.free, hbal.room⟩
  · intro a m' hs
    refine ⟨?_, ?_, (step_move hopen hs).grantsFirst hinv⟩
    · rintro t expired n e rfl ht hret
      change m.advance t expired = some m' at hs
      unfold SemSystem.advance at hs
      rw [ht] at hs
      cases hs
      exact signal_refused hret
    · rintro t expired timeoutNs rfl hret
      exact advance_keepsUnits hs hret

/-- A semaphore of two units at most: task 1 takes the one there is, task 2 waits, task 3 signals two. -/
def handOut : List SemAction :=
  [.call 1 .tryWait, .advance 1 false, .call 2 .wait, .advance 2 false, .advance 2 false,
    .call 3 (.signal 2), .advance 3 false, .advance 3 false, .advance 3 false, .advance 2 false]

theorem semaphore_conservation_handOut :
    (run SemSystem.step (create 1 2 fun _ => false) handOut).map
        (fun m => (m.sem.map (fun s => (s.count, s.granting, s.waiters)), m.acquired,
          m.tasks.place 2, m.tasks.place 3))
        = some (some (1, 0, []), 2, .user (some (.wait, .ok ())), .user (some (.signal 2, .ok ()))) ∧
      ∀ m, run SemSystem.step (create 1 2 fun _ => false) handOut = some m →
        (∀ s, m.sem = some s → m.Conserving s) ∧ ∀ a m', m.step a = some m' → StepLaw m a m' :=
  ⟨by decide, fun _ hm => semaphore_conservation
    (Reach.of_run (.start ⟨1, 2, fun _ => false, by decide, rfl⟩) hm)⟩

end SemSystem

end SlateOS.Ipc
