/-
# SlateOS.Sched.ThrottleRuns -- budgets, periods and what is charged to them

A ledger beside the deadline scheduler keeps the books of every task independently of the scheduler's own
records: a period begins when the task is activated with a full budget and no earlier period with a
charge is still open, each tick that runs the task as a deadline task is charged to its period, and a
period whose budget is spent is open until the next period that `tick` announces. The scheduler keeps to
the books as long as nobody enqueues a task before its next period; `enqueue` itself does not look.
-/
import SlateOS.Foundation.Runs
import SlateOS.Sched.DeadlineRuns

namespace SlateOS.Sched

open Foundation Foundation.MachineInt
open Function (update update_self update_of_ne)

/-- The books of one task. -/
structure Books where
  /-- The budget of the current period. -/
  budget : Nat
  /-- The ticks charged to the current period. -/
  charged : Nat
  /-- The tick at which the next period may begin. -/
  nextPeriod : Nat
  /-- The budget of the current period is exhausted. -/
  spent : Bool
  deriving DecidableEq

/-- The scheduler and the books of its tasks. -/
structure Ledger where
  sched : DeadlineScheduler
  account : TaskId → Books

namespace Ledger

instance (s : DeadlineScheduler) (id : TaskId) : Decidable (s.Running id) :=
  inferInstanceAs (Decidable (_ ∧ _))

/-- A new scheduler, nothing charged to anyone. -/
def start : Ledger := ⟨.new, fun _ => ⟨0, 0, 0, false⟩⟩

/-- A new period may begin: nothing was charged to the current one, or it is over. -/
def PeriodOver (l : Ledger) (id : TaskId) : Prop :=
  (l.account id).charged = 0 ∨ (l.account id).nextPeriod ≤ l.sched.currentTick

instance (l : Ledger) (id : TaskId) : Decidable (l.PeriodOver id) := inferInstanceAs (Decidable (_ ∨ _))

/-- The books of a task that `enqueue` activates; an activation inside an open period begins none. -/
def activate (l : Ledger) (id : TaskId) : TaskId → Books :=
  match l.sched.params[id]? with
  | none => l.account
  | some params =>
    if l.sched.Running id ∨ ¬l.PeriodOver id then l.account
    else
      update l.account id
        { budget := params.budgetTicks
          charged := 0
          nextPeriod := saturatingAdd 64 l.sched.currentTick params.periodTicks
          spent := false }

/-- `enqueue`. -/
def enqueue (l : Ledger) (id : TaskId) (priority : Nat) : Ledger :=
  ⟨l.sched.enqueue id priority, l.activate id⟩

/-- One round of the replenishment. -/
def replenishOne (l : Ledger) (id : TaskId) : Ledger :=
  enqueue { l with sched := { l.sched with throttled := l.sched.throttled.erase id } } id 0

/-- The throttled tasks that `replenish_throttled` enqueues. -/
def due (s : DeadlineScheduler) : List TaskId :=
  ((s.throttled.toList.filter fun t => decide (s.currentTick ≥ t.2.2)).take 32).map Prod.fst

/-- `replenish_throttled`. -/
def replenish (l : Ledger) : Ledger := (due l.sched).foldl replenishOne l

/-- `pick_next`. -/
def pickNext (l : Ledger) : Ledger := { l.replenish with sched := l.sched.pickNext.2 }

/-- The books after a tick that runs a deadline task: the tick is charged, and a registered task whose
budget it spends has to wait for its next period. -/
def charge (l : Ledger) : TaskId → Books :=
  let s := l.sched
  let a := { l.account s.currentId with charged := (l.account s.currentId).charged + 1 }
  update l.account s.currentId
    (match s.params[s.currentId]? with
    | none => a
    | some params =>
      if s.currentRemaining - 1 = 0 then
        { a with
          spent := true
          nextPeriod := saturatingAdd 64 (saturatingAdd 64 s.currentTick 1) params.periodTicks }
      else a)

/-- `tick`. -/
def tick (l : Ledger) : Ledger where
  sched := l.sched.tick.2
  account :=
    if l.sched.currentId ≠ 0 ∧ l.sched.currentIsDeadline = true then l.charge else l.account

/-- `unregister`: without parameters there is no budget to be spent. -/
def unregister (l : Ledger) (id : TaskId) : Ledger where
  sched := l.sched.unregister id
  account := update l.account id { l.account id with spent := false }

/-- The calls. -/
inductive Call
  | register (id : TaskId) (params : DeadlineParams)
  | unregister (id : TaskId)
  | enqueue (id : TaskId) (priority : Nat)
  | dequeue (id : TaskId) (priority : Nat)
  | pickNext
  | tick
  | replenish

/-- The ledger after a call. -/
def apply (l : Ledger) : Call → Ledger
  | .register id params => { l with sched := (l.sched.register id params).2 }
  | .unregister id => l.unregister id
  | .enqueue id priority => l.enqueue id priority
  | .dequeue id priority => { l with sched := (l.sched.dequeue id priority).2 }
  | .pickNext => l.pickNext
  | .tick => l.tick
  | .replenish => l.replenish

/-- Every call is always possible. -/
def step (l : Ledger) (c : Call) : Option Ledger := some (l.apply c)

/-- An enqueue of the task does not activate it inside an open period: it is the running deadline task,
or not registered, or its period is over. -/
def MayEnqueue (l : Ledger) (id : TaskId) : Prop :=
  l.sched.Running id ∨ l.sched.params[id]? = none ∨ l.PeriodOver id

/-- A call that activates no task inside an open period, and registers a new task before it is enqueued. -/
def Admissible (l : Ledger) : Call → Prop
  | .enqueue id _ => l.MayEnqueue id
  | .pickNext => ∀ id ∈ due l.sched, l.MayEnqueue id
  | .replenish => ∀ id ∈ due l.sched, l.MayEnqueue id
  | .register id _ => l.sched.params[id]? = none → l.sched.deadlines[id]? = none
  | .unregister _ | .dequeue _ _ | .tick => True

/-! ## The invariant -/

/-- What holds of one task: an open spent period keeps it off the queue and off the CPU under the record
that `tick` made, and what it may still use never exceeds what is left of the budget. -/
structure KeptFor (l : Ledger) (q : DeadlineScheduler.Queue) (i : TaskId) : Prop where
  registered : (l.account i).spent = true → l.sched.params[i]? ≠ none
  record : (l.account i).spent = true →
    ∃ deadline, l.sched.throttled[i]? = some (deadline, (l.account i).nextPeriod)
  absent : (l.account i).spent = true → q i = none
  stopped : (l.account i).spent = true → ¬l.sched.Running i
  waiting : ∀ e, q i = some e → l.sched.params[i]? ≠ none →
    (l.account i).charged + e.remainingBudget ≤ (l.account i).budget
  running : l.sched.Running i →
    (l.account i).charged + l.sched.currentRemaining ≤ (l.account i).budget
  bound : (l.account i).charged ≤ (l.account i).budget + 1

/-- The invariant of the ledger. -/
structure Kept (l : Ledger) (q : DeadlineScheduler.Queue) : Prop where
  coherent : l.sched.Coherent q
  task : ∀ i, l.KeptFor q i

variable {l m : Ledger} {q q' : DeadlineScheduler.Queue} {i id : TaskId}

/-- A task that a call does not concern. -/
theorem KeptFor.frame (h : l.KeptFor q i) (haccount : m.account i = l.account i)
    (hparams : m.sched.params[i]? = l.sched.params[i]?)
    (hthrottled : m.sched.throttled[i]? = l.sched.throttled[i]?) (hq : q' i = q i ∨ q' i = none)
    (hrun : m.sched.Running i →
      l.sched.Running i ∧ m.sched.currentRemaining = l.sched.currentRemaining) : m.KeptFor q' i where
  registered := by
    rw [haccount, hparams]
    exact h.registered
  record := by
    rw [haccount, hthrottled]
    exact h.record
  absent := by
    rw [haccount]
    intro hspent
    rcases hq with hq | hq
    · rw [hq]
      exact h.absent hspent
    · exact hq
  stopped := by
    rw [haccount]
    exact fun hspent hrunning => h.stopped hspent (hrun hrunning).1
  waiting := by
    rw [haccount, hparams]
    intro e he
    rcases hq with hq | hq
    · exact h.waiting e (hq ▸ he)
    · rw [hq] at he
      exact absurd he (by simp)
  running := by
    rw [haccount]
    intro hrunning
    obtain ⟨hrunning', hremaining⟩ := hrun hrunning
    rw [hremaining]
    exact h.running hrunning'
  bound := haccount ▸ h.bound

theorem kept_start : start.Kept fun _ => none where
  coherent := DeadlineScheduler.coherent_new
  task := fun i =>
    { registered := fun h => absurd h Bool.false_ne_true
      record := fun h => absurd h Bool.false_ne_true
      absent := fun _ => rfl
      stopped := fun h => absurd h Bool.false_ne_true
      waiting := fun e he => absurd he (by simp)
      running := fun h => absurd h (DeadlineScheduler.not_running_of_flag rfl i)
      bound := Nat.zero_le _ }

/-- A task whose budget is not spent. -/
theorem KeptFor.of_unspent (hspent : (m.account i).spent = false)
    (hwaiting : ∀ e, q' i = some e → m.sched.params[i]? ≠ none →
      (m.account i).charged + e.remainingBudget ≤ (m.account i).budget)
    (hrunning : m.sched.Running i →
      (m.account i).charged + m.sched.currentRemaining ≤ (m.account i).budget)
    (hbound : (m.account i).charged ≤ (m.account i).budget + 1) : m.KeptFor q' i := by
  have hno : ¬(m.account i).spent = true := by
    rw [hspent]
    exact Bool.false_ne_true
  exact ⟨fun h => absurd h hno, fun h => absurd h hno, fun h => absurd h hno, fun h => absurd h hno,
    hwaiting, hrunning, hbound⟩

/-! ## Enqueue and replenishment -/

theorem activate_of_ne (l : Ledger) (h : i ≠ id) : l.activate id i = l.account i := by
  unfold activate
  cases l.sched.params[id]? with
  | none => rfl
  | some params =>
    show (if _ then _ else _ : TaskId → Books) i = _
    split
    · rfl
    · exact update_of_ne h _ _

theorem activate_of_running (h : l.sched.Running id) : l.activate id = l.account := by
  unfold activate
  cases l.sched.params[id]? with
  | none => rfl
  | some params => exact if_pos (Or.inl h)

theorem activate_of_unregistered (h : l.sched.params[id]? = none) : l.activate id = l.account := by
  unfold activate
  rw [h]

theorem activate_of_over {params : DeadlineParams} (hparams : l.sched.params[id]? = some params)
    (hrun : ¬l.sched.Running id) (hover : l.PeriodOver id) :
    l.activate id id = ⟨params.budgetTicks, 0,
      saturatingAdd 64 l.sched.currentTick params.periodTicks, false⟩ := by
  unfold activate
  rw [hparams]
  simp only [hrun, hover, not_true_eq_false, or_false, if_false, update_self]

/-- An activation inside an open period begins none. -/
theorem activate_of_open (h : ¬l.PeriodOver id) : l.activate id = l.account := by
  unfold activate
  cases l.sched.params[id]? with
  | none => rfl
  | some params => exact if_pos (Or.inr h)

/-- The enqueued task itself: put back with what is left, activated in a period of its own, or left
without a budget. -/
theorem KeptFor.enqueued (h : l.KeptFor q id) (hmay : l.MayEnqueue id)
    {s t : DeadlineScheduler} (hspec : DeadlineScheduler.Enqueued s q id t q')
    (hid : s.currentId = l.sched.currentId) (hflag : s.currentIsDeadline = l.sched.currentIsDeadline)
    (hremaining : s.currentRemaining = l.sched.currentRemaining)
    (hparams : s.params = l.sched.params) : KeptFor ⟨t, l.activate id⟩ q' id := by
  have hrunning_iff : s.Running id ↔ l.sched.Running id := by
    unfold DeadlineScheduler.Running
    rw [hid, hflag]
  have hunspent : l.sched.Running id ∨ l.sched.params[id]? = none → (l.account id).spent = false := by
    rintro (hrun | hnone)
    · exact Bool.eq_false_iff.2 fun hspent => h.stopped hspent hrun
    · exact Bool.eq_false_iff.2 fun hspent => h.registered hspent hnone
  cases hspec with
  | putBack tree deadlines nrRunning e hrun _ hbudget =>
    have hrun' := hrunning_iff.1 hrun
    have hbooks : l.activate id = l.account := activate_of_running hrun'
    refine KeptFor.of_unspent ?_ ?_ ?_ ?_
    · show (l.activate id id).spent = false
      rw [hbooks]
      exact hunspent (Or.inl hrun')
    · intro e' he' _
      rw [update_self] at he'
      cases he'
      show (l.activate id id).charged + _ ≤ (l.activate id id).budget
      rw [hbooks, hbudget, hremaining]
      exact h.running hrun'
    · exact fun hr => absurd hr (DeadlineScheduler.not_running_of_flag rfl id)
    · show (l.activate id id).charged ≤ (l.activate id id).budget + 1
      rw [hbooks]
      exact h.bound
  | activated tree deadlines nrRunning e params hrun _ hp hbudget =>
    have hrun' : ¬l.sched.Running id := fun hr => hrun (hrunning_iff.2 hr)
    have hp' : l.sched.params[id]? = some params := hparams ▸ hp
    have hover : l.PeriodOver id := by
      rcases hmay with hr | hnone | hover
      · exact absurd hr hrun'
      · rw [hp'] at hnone
        exact absurd hnone (by simp)
      · exact hover
    have hbooks := activate_of_over hp' hrun' hover
    refine KeptFor.of_unspent ?_ ?_ ?_ ?_
    · exact congrArg Books.spent hbooks
    · intro e' he' _
      rw [update_self] at he'
      cases he'
      show (l.activate id id).charged + _ ≤ (l.activate id id).budget
      rw [hbooks, hbudget]
      exact Nat.le_of_eq (Nat.zero_add _)
    · exact fun hr => absurd hr hrun
    · show (l.activate id id).charged ≤ (l.activate id id).budget + 1
      rw [hbooks]
      exact Nat.zero_le _
  | bestEffort tree deadlines nrRunning e hrun _ hnone =>
    have hnone' : l.sched.params[id]? = none := hparams ▸ hnone
    have hbooks : l.activate id = l.account := activate_of_unregistered hnone'
    refine KeptFor.of_unspent ?_ ?_ ?_ ?_
    · show (l.activate id id).spent = false
      rw [hbooks]
      exact hunspent (Or.inr hnone')
    · exact fun _ _ hregistered => absurd hnone hregistered
    · exact fun hr => absurd hr hrun
    · show (l.activate id id).charged ≤ (l.activate id id).budget + 1
      rw [hbooks]
      exact h.bound

/-- An enqueue that opens no second period keeps the books, whatever throttle record of the task the caller
has dropped before. -/
theorem Kept.enqueue_with (h : l.Kept q) (hmay : l.MayEnqueue id)
    (throttled : Std.TreeMap TaskId (Nat × Nat))
    (hthrottled : ∀ i, i ≠ id → throttled[i]? = l.sched.throttled[i]?) (priority : Nat) :
    ∃ q', Kept (enqueue { l with sched := { l.sched with throttled } } id priority) q' := by
  have hcoherent : DeadlineScheduler.Coherent { l.sched with throttled } q :=
    h.coherent.congr rfl rfl rfl rfl
  obtain ⟨q', hq', hspec⟩ := hcoherent.enqueue id priority
  obtain ⟨hparams, hsame, -⟩ := hspec.timers
  refine ⟨q', hq', fun i => ?_⟩
  by_cases hi : i = id
  · subst hi
    exact (h.task i).enqueued hmay hspec rfl rfl rfl rfl
  · refine (h.task i).frame ?_ ?_ ?_ ?_ ?_
    · exact l.activate_of_ne hi
    · exact congrArg (fun p => p[i]?) hparams
    · exact (congrArg (fun p => p[i]?) hsame).trans (hthrottled i hi)
    · exact Or.inl (hspec.of_ne hi)
    · exact hspec.still_running

theorem Kept.enqueue (h : l.Kept q) (hmay : l.MayEnqueue id) (priority : Nat) :
    ∃ q', (l.enqueue id priority).Kept q' :=
  h.enqueue_with hmay l.sched.throttled (fun _ _ => rfl) priority

theorem MayEnqueue.replenishOne (h : l.MayEnqueue i) (hne : i ≠ id) (hq : l.Kept q) :
    (l.replenishOne id).MayEnqueue i := by
  have hcoherent : DeadlineScheduler.Coherent
      { l.sched with throttled := l.sched.throttled.erase id } q := hq.coherent.congr rfl rfl rfl rfl
  obtain ⟨q', -, hspec⟩ := hcoherent.enqueue id 0
  obtain ⟨hparams, -, htick⟩ := hspec.timers
  rcases h with hrun | hnone | hover
  · exact Or.inl (hspec.runs_on hne hrun)
  · exact Or.inr (Or.inl ((congrArg (fun p => p[i]?) hparams).trans hnone))
  · refine Or.inr (Or.inr ?_)
    have hbooks : (l.replenishOne id).account i = l.account i := l.activate_of_ne hne
    have hnow : (l.replenishOne id).sched.currentTick = l.sched.currentTick := htick
    unfold PeriodOver
    rw [hbooks, hnow]
    exact hover

theorem due_nodup (s : DeadlineScheduler) : (due s).Nodup := by
  have hsub : (due s).Sublist s.throttled.keys := by
    rw [← Std.TreeMap.map_fst_toList_eq_keys]
    exact ((List.take_sublist _ _).trans List.filter_sublist).map Prod.fst
  exact hsub.nodup Std.TreeMap.nodup_keys

/-- The rounds of the replenishment, each of which concerns one task. -/
theorem Kept.replenish (h : l.Kept q) (hmay : ∀ id ∈ due l.sched, l.MayEnqueue id) :
    ∃ q', l.replenish.Kept q' := by
  unfold Ledger.replenish
  have hnodup := due_nodup l.sched
  generalize due l.sched = ids at hmay hnodup
  induction ids generalizing l q with
  | nil => exact ⟨q, h⟩
  | cons id ids ih =>
    obtain ⟨hid, hids⟩ := List.nodup_cons.1 hnodup
    obtain ⟨q', hq'⟩ := h.enqueue_with (hmay id List.mem_cons_self) (l.sched.throttled.erase id)
      (fun i hi => (OrderedMap.getElem?_erase _ _ _).trans (if_neg hi)) 0
    refine ih hq' ?_ hids
    intro i hi
    have hne : i ≠ id := fun heq => hid (heq ▸ hi)
    exact (hmay i (List.mem_cons_of_mem _ hi)).replenishOne hne h

/-- The scheduler of the ledger does what the scheduler does. -/
theorem replenish_sched (l : Ledger) : l.replenish.sched = l.sched.replenishThrottled := by
  unfold Ledger.replenish due DeadlineScheduler.replenishThrottled
  generalize (l.sched.throttled.toList.filter fun t => decide (l.sched.currentTick ≥ t.2.2)).take 32 =
    ready
  induction ready generalizing l with
  | nil => rfl
  | cons r ready ih => exact ih (l.replenishOne r.1)

/-! ## Pick -/

theorem Kept.popFirst (h : l.Kept q) : ∃ q', Kept { l with sched := l.sched.popFirst.2 } q' := by
  obtain ⟨q', hq', hspec⟩ := h.coherent.popFirst
  refine ⟨q', hq', fun i => ?_⟩
  revert hspec
  generalize l.sched.popFirst.1 = picked
  generalize l.sched.popFirst.2 = t
  intro hspec
  cases hspec with
  | idle => exact (h.task i).frame rfl rfl rfl (Or.inl rfl) fun hrun => ⟨hrun, rfl⟩
  | task tree deadlines nrRunning currentRemaining e he hbudget =>
    by_cases hi : i = e.id
    · subst hi
      -- the picked task was waiting, so its budget is not spent
      have hunspent : (l.account e.id).spent = false := by
        apply Bool.eq_false_iff.2
        intro hspent
        rw [(h.task e.id).absent hspent] at he
        exact absurd he (by simp)
      refine KeptFor.of_unspent hunspent ?_ ?_ (h.task e.id).bound
      · intro e' he'
        rw [update_self] at he'
        exact absurd he' (by simp)
      · intro hrun
        have hregistered : l.sched.params.contains e.id = true := hrun.2
        show (l.account e.id).charged + currentRemaining ≤ (l.account e.id).budget
        rw [hbudget hregistered]
        apply (h.task e.id).waiting e he
        intro hnone
        rw [Std.TreeMap.contains_eq_isSome_getElem?, hnone] at hregistered
        exact Bool.false_ne_true hregistered
    · refine (h.task i).frame rfl rfl rfl (Or.inl ?_) fun hrun => absurd hrun.1.symm hi
      exact update_of_ne hi _ _

theorem Kept.pickNext (h : l.Kept q) (hmay : ∀ id ∈ due l.sched, l.MayEnqueue id) :
    ∃ q', l.pickNext.Kept q' := by
  obtain ⟨q₁, h₁⟩ := h.replenish hmay
  obtain ⟨q', h'⟩ := h₁.popFirst
  refine ⟨q', ?_⟩
  rw [replenish_sched] at h'
  exact h'

/-! ## Tick -/

theorem charge_of_ne (l : Ledger) (h : i ≠ l.sched.currentId) : l.charge i = l.account i :=
  update_of_ne h _ _

theorem charge_unregistered (h : l.sched.params[l.sched.currentId]? = none) :
    l.charge l.sched.currentId =
      { l.account l.sched.currentId with charged := (l.account l.sched.currentId).charged + 1 } := by
  unfold charge
  simp only [h, update_self]

theorem charge_left (h : l.sched.currentRemaining - 1 ≠ 0) :
    l.charge l.sched.currentId =
      { l.account l.sched.currentId with charged := (l.account l.sched.currentId).charged + 1 } := by
  unfold charge
  simp only [update_self, h, if_false]
  split <;> rfl

theorem charge_spent {params : DeadlineParams}
    (hparams : l.sched.params[l.sched.currentId]? = some params)
    (h : l.sched.currentRemaining - 1 = 0) :
    l.charge l.sched.currentId =
      { l.account l.sched.currentId with
        charged := (l.account l.sched.currentId).charged + 1
        spent := true
        nextPeriod := saturatingAdd 64 (saturatingAdd 64 l.sched.currentTick 1) params.periodTicks } := by
  unfold charge
  simp only [update_self, hparams, h, if_true]

/-- The books of the running deadline task after the tick that it is charged. -/
theorem KeptFor.charged (h : l.KeptFor q l.sched.currentId) (hcoherent : l.sched.Coherent q)
    (hdeadline : l.sched.currentIsDeadline = true) {t : DeadlineScheduler}
    (hspec : DeadlineScheduler.Ticked l.sched t) (hrun : l.sched.currentId ≠ 0) :
    KeptFor ⟨t, l.charge⟩ q l.sched.currentId := by
  have hrunning : l.sched.Running l.sched.currentId := ⟨rfl, hdeadline⟩
  have habsent : q l.sched.currentId = none := hcoherent.running _ hrunning
  have hwaiting : ∀ e, q l.sched.currentId = some e → False := by
    intro e he
    rw [habsent] at he
    exact absurd he (by simp)
  have hbudget := h.running hrunning
  have hunspent : (l.account l.sched.currentId).spent = false :=
    Bool.eq_false_iff.2 fun hspent => h.stopped hspent hrunning
  cases hspec with
  | idle hzero => exact absurd hzero hrun
  | charged _ hleft =>
    have hbooks := charge_left (hleft hdeadline)
    have hpositive := hleft hdeadline
    refine KeptFor.of_unspent ?_ (fun e he => (hwaiting e he).elim) ?_ ?_
    · exact (congrArg Books.spent hbooks).trans hunspent
    · intro _
      show (l.charge _).charged + (l.sched.currentRemaining - 1) ≤ (l.charge _).budget
      rw [hbooks]
      show (l.account l.sched.currentId).charged + 1 + (l.sched.currentRemaining - 1) ≤
        (l.account l.sched.currentId).budget
      omega
    · show (l.charge _).charged ≤ (l.charge _).budget + 1
      rw [hbooks]
      show (l.account l.sched.currentId).charged + 1 ≤ (l.account l.sched.currentId).budget + 1
      omega
  | throttled params deadline nextPeriod _ _ hspent hparams hnext =>
    have hbooks := charge_spent hparams hspent
    refine ⟨fun _ => ?_, fun _ => ⟨deadline, ?_⟩, fun _ => habsent,
      fun _ => DeadlineScheduler.not_running_of_flag rfl _, fun e he => (hwaiting e he).elim,
      fun hrun => absurd hrun (DeadlineScheduler.not_running_of_flag rfl _), ?_⟩
    · show l.sched.params[l.sched.currentId]? ≠ none
      rw [hparams]
      simp
    · show (l.sched.throttled.insert l.sched.currentId (deadline, nextPeriod))[l.sched.currentId]? =
        some (deadline, (l.charge _).nextPeriod)
      rw [OrderedMap.getElem?_insert, if_pos rfl, hbooks, hnext]
    · show (l.charge _).charged ≤ (l.charge _).budget + 1
      rw [hbooks]
      show (l.account l.sched.currentId).charged + 1 ≤ (l.account l.sched.currentId).budget + 1
      omega
  | ended _ _ hspent hparams =>
    have hbooks := charge_unregistered hparams
    refine KeptFor.of_unspent ?_ (fun e he => (hwaiting e he).elim)
      (fun hrun => absurd hrun (DeadlineScheduler.not_running_of_flag rfl _)) ?_
    · exact (congrArg Books.spent hbooks).trans hunspent
    · show (l.charge _).charged ≤ (l.charge _).budget + 1
      rw [hbooks]
      show (l.account l.sched.currentId).charged + 1 ≤ (l.account l.sched.currentId).budget + 1
      omega

/-- A tick leaves a task alone that does not run as a deadline task. -/
theorem KeptFor.unticked (h : l.KeptFor q i) (hnot : ¬l.sched.Running i) {t : DeadlineScheduler}
    (hspec : DeadlineScheduler.Ticked l.sched t) {books : TaskId → Books}
    (hbooks : books i = l.account i) : KeptFor ⟨t, books⟩ q i := by
  cases hspec with
  | idle => exact h.frame hbooks rfl rfl (Or.inl rfl) fun hrun => absurd hrun hnot
  | charged => exact h.frame hbooks rfl rfl (Or.inl rfl) fun hrun => absurd hrun hnot
  | throttled params deadline nextPeriod _ hdeadline =>
    have hne : i ≠ l.sched.currentId := fun heq => hnot ⟨heq.symm, hdeadline⟩
    refine h.frame hbooks rfl ?_ (Or.inl rfl)
      fun hrun => absurd hrun (DeadlineScheduler.not_running_of_flag rfl _)
    exact (OrderedMap.getElem?_insert _ _ _ _).trans (if_neg hne)
  | ended =>
    exact h.frame hbooks rfl rfl (Or.inl rfl)
      fun hrun => absurd hrun (DeadlineScheduler.not_running_of_flag rfl _)

theorem Kept.tick (h : l.Kept q) : l.tick.Kept q := by
  have hcoherent : l.tick.sched.Coherent q := h.coherent.tick
  have hspec := l.sched.tick_ticked
  refine ⟨hcoherent, fun i => ?_⟩
  by_cases hcharged : l.sched.currentId ≠ 0 ∧ l.sched.currentIsDeadline = true
  · have hbooks : l.tick = ⟨l.sched.tick.2, l.charge⟩ := by
      unfold Ledger.tick
      rw [if_pos hcharged]
    rw [hbooks]
    by_cases hi : i = l.sched.currentId
    · rw [hi]
      exact (h.task _).charged h.coherent hcharged.2 hspec hcharged.1
    · exact (h.task i).unticked (fun hrun => hi hrun.1.symm) hspec (l.charge_of_ne hi)
  · have hbooks : l.tick = ⟨l.sched.tick.2, l.account⟩ := by
      unfold Ledger.tick
      rw [if_neg hcharged]
    rw [hbooks]
    by_cases hrun : l.sched.Running i
    · -- task 0 stands for none: it is never charged
      have hzero : l.sched.currentId = 0 := by
        by_contra hne
        exact hcharged ⟨hne, hrun.2⟩
      revert hspec
      generalize l.sched.tick.2 = t
      intro hspec
      cases hspec with
      | idle => exact (h.task i).frame rfl rfl rfl (Or.inl rfl) fun hrun' => ⟨hrun', rfl⟩
      | charged hne => exact absurd hzero hne
      | throttled _ _ _ hne => exact absurd hzero hne
      | ended hne => exact absurd hzero hne
    · exact (h.task i).unticked hrun hspec rfl

/-! ## The other calls -/

theorem Kept.dequeue (h : l.Kept q) (id : TaskId) (priority : Nat) :
    ∃ q', Kept { l with sched := (l.sched.dequeue id priority).2 } q' := by
  obtain ⟨q', hq', hspec⟩ := h.coherent.dequeue id priority
  refine ⟨q', hq', fun i => ?_⟩
  revert hspec
  generalize (l.sched.dequeue id priority).2 = t
  intro hspec
  cases hspec with
  | queued =>
    refine (h.task i).frame rfl rfl rfl ?_ fun hrun => ⟨hrun, rfl⟩
    by_cases hi : i = id
    · exact Or.inr (hi ▸ update_self ..)
    · exact Or.inl (update_of_ne hi _ _)
  | stopped =>
    exact (h.task i).frame rfl rfl rfl (Or.inl rfl)
      fun hrun => absurd hrun (DeadlineScheduler.not_running_of_flag rfl _)
  | absent => exact (h.task i).frame rfl rfl rfl (Or.inl rfl) fun hrun => ⟨hrun, rfl⟩

/-- Registering a task that does not wait, or is registered already, changes no books. -/
theorem Kept.register (h : l.Kept q) (params : DeadlineParams)
    (hnew : l.sched.params[id]? = none → l.sched.deadlines[id]? = none) :
    Kept { l with sched := (l.sched.register id params).2 } q := by
  refine ⟨h.coherent.register id params, fun i => ?_⟩
  obtain ⟨params', total, hsame, hothers, hkept⟩ := l.sched.register_frame id params
  rw [hsame]
  by_cases hi : i = id
  · have hold := h.task i
    refine ⟨fun hspent => ?_, hold.record, hold.absent, hold.stopped, fun e he _ => ?_, hold.running,
      hold.bound⟩
    · exact hkept i (hold.registered hspent)
    · apply hold.waiting e he
      intro hnone
      have hempty := h.coherent.indexed.views.index_eq_none.1 (hnew (hi ▸ hnone))
      rw [hi, hempty] at he
      exact absurd he (by simp)
  · exact (h.task i).frame rfl (hothers i hi) rfl (Or.inl rfl) fun hrun => ⟨hrun, rfl⟩

theorem Kept.unregister (h : l.Kept q) (id : TaskId) : (l.unregister id).Kept q := by
  refine ⟨h.coherent.unregister id, fun i => ?_⟩
  obtain ⟨params', total, hsame, hgone, hothers⟩ := l.sched.unregister_frame id
  unfold Ledger.unregister
  rw [hsame]
  by_cases hi : i = id
  · subst hi
    have hold := h.task i
    refine KeptFor.of_unspent ?_ (fun _ _ hregistered => absurd hgone hregistered) ?_ ?_
    · show (update l.account i _ i).spent = false
      rw [update_self]
    · intro hrun
      show (update l.account i _ i).charged + _ ≤ (update l.account i _ i).budget
      rw [update_self]
      exact hold.running hrun
    · show (update l.account i _ i).charged ≤ (update l.account i _ i).budget + 1
      rw [update_self]
      exact hold.bound
  · refine (h.task i).frame (update_of_ne hi _ _) (hothers i hi) ?_ (Or.inl rfl)
      fun hrun => ⟨hrun, rfl⟩
    exact (OrderedMap.getElem?_erase _ _ _).trans (if_neg hi)

/-! ## Runs -/

/-- **One call.** An admissible call keeps the books in order. -/
theorem Kept.apply (h : l.Kept q) {c : Call} (hok : l.Admissible c) : ∃ q', (l.apply c).Kept q' := by
  cases c with
  | register id params => exact ⟨q, h.register params hok⟩
  | unregister id => exact ⟨q, h.unregister id⟩
  | enqueue id priority => exact h.enqueue hok priority
  | dequeue id priority => exact h.dequeue id priority
  | pickNext => exact h.pickNext hok
  | tick => exact ⟨q, h.tick⟩
  | replenish => exact h.replenish hok

theorem kept_of_reach (h : Runs.ReachBy step Admissible (· = start) l) : ∃ q, l.Kept q := by
  refine Runs.ReachBy.invariant (I := fun l => ∃ q, l.Kept q) ?_ ?_ h
  · rintro _ rfl
    exact ⟨_, kept_start⟩
  · rintro l c _ ⟨q, hq⟩ hok hstep
    exact Option.some.inj hstep ▸ hq.apply hok

/-- The next pick does not return a task that does not wait and whose throttle record lies ahead. -/
theorem not_picked {s : DeadlineScheduler} (h : s.Coherent q) (habsent : q id = none)
    {deadline nextPeriod : Nat} (hrecord : s.throttled[id]? = some (deadline, nextPeriod))
    (hahead : s.currentTick < nextPeriod) : s.pickNext.1 ≠ some id := by
  have hrest : ∃ q', s.replenishThrottled.Coherent q' ∧ q' id = none := by
    apply DeadlineScheduler.replenish_rule (P := fun t => ∃ q', t.Coherent q' ∧ q' id = none)
      ⟨q, h, habsent⟩
    rintro t i d next hi hdue ⟨q', hq', hgone⟩
    -- the task's own period has not begun, so another one is enqueued
    have hne : id ≠ i := by
      rintro rfl
      rw [hrecord] at hi
      obtain ⟨-, rfl⟩ := Prod.mk.inj (Option.some.inj hi)
      exact absurd hdue (Nat.not_le.2 hahead)
    have hrest : DeadlineScheduler.Coherent { t with throttled := t.throttled.erase i } q' :=
      hq'.congr rfl rfl rfl rfl
    obtain ⟨q'', hq'', hspec⟩ := hrest.enqueue i 0
    exact ⟨q'', hq'', (hspec.of_ne hne).trans hgone⟩
  obtain ⟨q', hq', hgone⟩ := hrest
  rw [DeadlineScheduler.pickNext_eq]
  obtain ⟨q'', -, hspec⟩ := hq'.popFirst
  exact fun hpick => (hspec.waits id).2 hpick hgone

/-- **Throttled until the next period.** In every run in which no call activates a task inside an open
period of it: a task whose budget is spent is neither queued nor returned by a pick before its next period
begins, and no task is ever charged more than its budget and one tick in a period. -/
theorem throttled_until_next_period (h : Runs.ReachBy step Admissible (· = start) l) :
    (∀ id, (l.account id).spent = true → l.sched.currentTick < (l.account id).nextPeriod →
      (∀ k ∈ l.sched.tree, (ofLex k).2 ≠ id) ∧ l.sched.deadlines[id]? = none ∧
        l.sched.pickNext.1 ≠ some id) ∧
    ∀ id, (l.account id).charged ≤ (l.account id).budget + 1 := by
  obtain ⟨q, hq⟩ := kept_of_reach h
  refine ⟨fun id hspent hahead => ?_, fun id => (hq.task id).bound⟩
  have habsent : q id = none := (hq.task id).absent hspent
  obtain ⟨deadline, hrecord⟩ := (hq.task id).record hspent
  refine ⟨?_, hq.coherent.indexed.views.index_eq_none.2 habsent,
    not_picked hq.coherent habsent hrecord hahead⟩
  rintro k hk rfl
  obtain ⟨e, he, -⟩ := (hq.coherent.indexed.views.mem_tree k).1 hk
  rw [habsent] at he
  exact absurd he (by simp)

/-- A registered task that waits, after a tick. -/
def waitingLedger : Ledger :=
  ((start.apply (.register 7 DeadlineScheduler.oneTick)).apply (.enqueue 7 0)).apply .tick

theorem throttled_until_next_period_waiting :
    (waitingLedger.account 7).charged ≤ (waitingLedger.account 7).budget + 1 := by
  refine (throttled_until_next_period (.next (a := .tick) (.next (a := .enqueue 7 0)
    (.next (a := .register 7 DeadlineScheduler.oneTick) (.start rfl) ?_ rfl) ?_ rfl) trivial rfl)).2 7
  · exact fun _ => by decide +kernel
  · exact Or.inr (Or.inr (Or.inl rfl))

/-- The scheduler puts a throttled task back on the CPU: it is enqueued at once, with a full budget. -/
theorem spent_task_runs_again : ∃ l, Runs.Reach step (· = start) l ∧
    (l.account 7).spent = true ∧ l.sched.currentTick < (l.account 7).nextPeriod ∧
      l.sched.pickNext.1 = some 7 := by
  have hrunning : Runs.Reach step (· = start)
      (((start.apply (.register 7 DeadlineScheduler.oneTick)).apply (.enqueue 7 0)).apply .pickNext) :=
    .next (a := .pickNext) (.next (a := .enqueue 7 0)
      (.next (a := .register 7 DeadlineScheduler.oneTick) (.start rfl) trivial rfl) trivial rfl) trivial rfl
  have hsched : (((start.apply (.register 7 DeadlineScheduler.oneTick)).apply (.enqueue 7 0)).apply
      .pickNext).sched = .oneTickRunning := congrArg Prod.snd DeadlineScheduler.oneTickQueued_pick
  have hbooks : (((start.apply (.register 7 DeadlineScheduler.oneTick)).apply (.enqueue 7 0)).apply
      .pickNext).account 7 = ⟨1, 0, 5, false⟩ := by decide +kernel
  generalize ((start.apply (.register 7 DeadlineScheduler.oneTick)).apply (.enqueue 7 0)).apply
    .pickNext = l at hrunning hsched hbooks
  obtain ⟨sched, account⟩ := l
  subst hsched
  -- the tick spends the budget of one, and the next period begins at tick 6
  have hregistered : DeadlineScheduler.oneTickRunning.params[
      DeadlineScheduler.oneTickRunning.currentId]? = some DeadlineScheduler.oneTick := by
    decide +kernel
  have hlast : DeadlineScheduler.oneTickRunning.currentRemaining - 1 = 0 := by decide +kernel
  have hspent : (tick ⟨.oneTickRunning, account⟩).account 7 = ⟨1, 1, 6, true⟩ := by
    have hcharge := charge_spent (l := ⟨.oneTickRunning, account⟩) hregistered hlast
    replace hbooks : account 7 = ⟨1, 0, 5, false⟩ := hbooks
    replace hcharge : charge ⟨.oneTickRunning, account⟩ 7 =
      { account 7 with charged := (account 7).charged + 1, spent := true, nextPeriod := 6 } := hcharge
    rw [hbooks] at hcharge
    exact hcharge
  have hnow : DeadlineScheduler.oneTickRunning.tick.2.currentTick = 1 := by decide +kernel
  have hopen : ¬(tick ⟨.oneTickRunning, account⟩).PeriodOver 7 := by
    rintro (hnothing | hover)
    · rw [hspent] at hnothing
      exact absurd hnothing (by decide)
    · rw [hspent] at hover
      replace hover : 6 ≤ DeadlineScheduler.oneTickRunning.tick.2.currentTick := hover
      rw [hnow] at hover
      exact absurd hover (by decide)
  have hkeeps : ((tick ⟨.oneTickRunning, account⟩).enqueue 7 0).account 7 = ⟨1, 1, 6, true⟩ :=
    (congrFun (activate_of_open hopen) 7).trans hspent
  have hlater : (DeadlineScheduler.oneTickRunning.tick.2.enqueue 7 0).currentTick < 6 := by
    decide +kernel
  have hhead : (DeadlineScheduler.oneTickRunning.tick.2.enqueue 7
      0).replenishThrottled.tree.toList.head? =
        some (toLex (6, 7), ⟨7, 0, DeadlineScheduler.oneTick, 6, 1, 1⟩) := by
    decide +kernel
  refine ⟨(tick ⟨.oneTickRunning, account⟩).enqueue 7 0,
    .next (a := .enqueue 7 0) (.next (a := .tick) hrunning trivial rfl) trivial rfl, ?_, ?_, ?_⟩
  · rw [hkeeps]
  · rw [hkeeps]
    exact hlater
  · exact congrArg Prod.fst (DeadlineScheduler.pickNext_of_head hhead)

end Ledger

end SlateOS.Sched
