/-
# SlateOS.Sched.PerCpuRuns -- tasks are neither lost nor duplicated between CPUs

Every call is described by what it does to the multiset each CPU holds; the total over the CPUs then
follows from the two rules for replacing one part of an array. A queue keyed by task replaces an entry
when the task is enqueued again, so the laws ask that a backend either is the round-robin one or is
given no task that is already queued.
-/
import SlateOS.Sched.Backend

/-! ## One run queue a CPU, and what moves between them

`PerCpuScheduler` of `kernel/src/sched/priority_rr.rs`. A call is atomic; which `try_lock` succeeds is
an argument of the call. The account beside the queues records what was enqueued, dequeued and picked.
-/

namespace SlateOS.Sched

open Foundation Foundation.Fifos
open SchedulerBackend (asked taken)

/-- `MAX_CPUS`. -/
abbrev maxCpus : Nat := 16

/-- `PerCpuScheduler`. -/
structure PerCpuScheduler where
  queues : Fin maxCpus → SchedulerBackend
  numCpus : Nat
  numCpus_le : numCpus ≤ maxCpus

/-- The locks one `try_push_balance` tries: its own queue to count and again to take from, the others
in the scan, and the target. -/
structure PushLocks where
  count : Bool
  scan : Fin maxCpus → Bool
  take : Bool
  target : Bool

namespace PerCpuScheduler

/-- `init` on a scheduler from `new_const`. -/
def init (numCpus backendId : Nat) : PerCpuScheduler where
  queues i := if i < max 1 (min numCpus maxCpus) then .fromId backendId else .newConst
  numCpus := max 1 (min numCpus maxCpus)
  numCpus_le := Nat.max_le.2 ⟨by decide, Nat.min_le_right _ _⟩

/-- The CPUs `0..n`. -/
def below (n : Nat) : List (Fin maxCpus) := (List.finRange maxCpus).filter (· < n)

/-- `cpu.min(n.saturating_sub(1))`. -/
def target (s : PerCpuScheduler) (cpu : Nat) : Fin maxCpus :=
  ⟨min cpu (s.numCpus - 1),
    Nat.lt_of_le_of_lt (Nat.min_le_right _ _)
      (Nat.lt_of_le_of_lt (Nat.sub_le_sub_right s.numCpus_le 1) (by decide))⟩

/-- The queue of one CPU replaced. -/
def setQueue (s : PerCpuScheduler) (i : Fin maxCpus) (b : SchedulerBackend) : PerCpuScheduler :=
  { s with queues := Function.update s.queues i b }

/-- `pick_next_local`; `rtThrottled` is what `rt_throttled(cpu)` says. -/
def pickNextLocal (s : PerCpuScheduler) (cpu : Nat) (rtThrottled : Bool) :
    Option TaskId × PerCpuScheduler :=
  if h : cpu < maxCpus then
    let picked := (s.queues ⟨cpu, h⟩).pickNextMasked rtThrottled
    (picked.1, s.setQueue ⟨cpu, h⟩ picked.2)
  else
    (none, s)

/-- `enqueue`. -/
def enqueue (s : PerCpuScheduler) (id : TaskId) (priority cpu : Nat) : PerCpuScheduler :=
  s.setQueue (s.target cpu) ((s.queues (s.target cpu)).enqueue id priority)

/-- The sweep of `dequeue` over the CPUs still pending. -/
def dequeueLoop (id : TaskId) (priority : Nat) :
    List (Fin maxCpus) → Bool → PerCpuScheduler → Bool × PerCpuScheduler
  | [], removed, s => (removed, s)
  | cpu :: pending, removed, s =>
    let r := (s.queues cpu).dequeue id priority
    dequeueLoop id priority pending (removed || r.1) (s.setQueue cpu r.2)

/-- `dequeue`: the named CPU first, then every other online one. -/
def dequeue (s : PerCpuScheduler) (id : TaskId) (priority cpu : Nat) : Bool × PerCpuScheduler :=
  dequeueLoop id priority
    (s.target cpu :: (below (max s.numCpus 1)).filter (· ≠ s.target cpu)) false s

/-- The scan of `try_steal`: the most loaded other CPU whose lock was free, and its load. -/
def mostLoaded (s : PerCpuScheduler) (cpu : Fin maxCpus) (free : Fin maxCpus → Bool) :
    List (Fin maxCpus) → Option (Fin maxCpus) → Nat → Option (Fin maxCpus) × Nat
  | [], victim, count => (victim, count)
  | i :: rest, victim, count =>
    if i ≠ cpu ∧ free i = true ∧ (s.queues i).totalTasks > count then
      mostLoaded s cpu free rest (some i) (s.queues i).totalTasks
    else
      mostLoaded s cpu free rest victim count

/-- The loop that enqueues a batch on one queue. -/
def enqueueAll (b : SchedulerBackend) (stolen : StolenTasks) : SchedulerBackend :=
  stolen.foldl (fun b entry => b.enqueue entry.1 entry.2) b

/-- Phase 3 of `try_steal`: every stolen task is recorded, the first one returned, the others queued. -/
def receive (s : PerCpuScheduler) (cpu : Fin maxCpus) (stolen : StolenTasks)
    (migratedOut : MigratedTasks) : Option TaskId × MigratedTasks × PerCpuScheduler :=
  ((stolen.map Prod.fst).head?,
    (stolen.map Prod.fst).foldl MigratedTasks.push migratedOut,
    s.setQueue cpu (enqueueAll (s.queues cpu) stolen.tail))

/-- `try_steal`; an index that is no CPU would panic. -/
def trySteal (s : PerCpuScheduler) (cpu : Fin maxCpus) (free : Fin maxCpus → Bool)
    (migratedOut : MigratedTasks) : Option TaskId × MigratedTasks × PerCpuScheduler :=
  if s.numCpus ≤ 1 then (none, migratedOut, s)
  else
    match s.mostLoaded cpu free (below s.numCpus) none 0 with
    | (none, _) => (none, migratedOut, s)
    | (some victim, count) =>
      if count = 0 then (none, migratedOut, s)
      else
        let r := (s.queues victim).steal (max (count / 2) 1)
        if r.1.isEmpty then (none, migratedOut, s.setQueue victim r.2)
        else (s.setQueue victim r.2).receive cpu r.1 migratedOut

/-- The scan of `try_push_balance`: the least loaded other CPU whose lock was free. -/
def lightest (s : PerCpuScheduler) (cpu : Fin maxCpus) (free : Fin maxCpus → Bool) :
    List (Fin maxCpus) → Option (Fin maxCpus × Nat) → Option (Fin maxCpus × Nat)
  | [], best => best
  | i :: rest, best =>
    if i ≠ cpu ∧ free i = true ∧ best.all (fun b => (s.queues i).totalTasks < b.2) = true then
      lightest s cpu free rest (some (i, (s.queues i).totalTasks))
    else
      lightest s cpu free rest best

/-- `local_count`. -/
def localCount (b : SchedulerBackend) : Nat := if b.hasRealWork then b.totalTasks else 0

/-- Phases 4 and 5 of `try_push_balance`: take from the own queue, give to the target or put back. -/
def pushTo (s : PerCpuScheduler) (cpu lightestCpu : Fin maxCpus) (toPush : Nat) (targetFree : Bool) :
    List (TaskId × Fin maxCpus) × PerCpuScheduler :=
  let r := (s.queues cpu).steal toPush
  let s' := s.setQueue cpu r.2
  if r.1.isEmpty then ([], s')
  else if targetFree then
    (r.1.map fun entry => (entry.1, lightestCpu),
      s'.setQueue lightestCpu (enqueueAll (s'.queues lightestCpu) r.1))
  else
    ([], s'.setQueue cpu (enqueueAll (s'.queues cpu) r.1))

/-- `try_push_balance`. -/
def tryPushBalance (s : PerCpuScheduler) (cpu : Nat) (locks : PushLocks) :
    List (TaskId × Fin maxCpus) × PerCpuScheduler :=
  if h : s.numCpus > 1 ∧ cpu < maxCpus ∧ locks.count = true then
    let own : Fin maxCpus := ⟨cpu, h.2.1⟩
    if localCount (s.queues own) ≤ 1 then ([], s)
    else
      match s.lightest own locks.scan (below s.numCpus) none with
      | none => ([], s)
      | some (lightestCpu, lightestCount) =>
        let imbalance := localCount (s.queues own) - lightestCount
        if imbalance < 2 ∨ locks.take = false then ([], s)
        else s.pushTo own lightestCpu (min (max (imbalance / 2) 1) 4) locks.target
  else
    ([], s)

end PerCpuScheduler

end SlateOS.Sched

/-! ## Tasks are neither lost nor duplicated between CPUs -/

namespace SlateOS.Sched.PerCpuScheduler

open Foundation Foundation.Fifos Foundation.Runs
open SchedulerBackend (asked taken)

variable {s : PerCpuScheduler}

/-- Every queued task, over all CPUs. -/
def queued (s : PerCpuScheduler) : Multiset TaskId := ∑ i, (s.queues i).queued

/-- Every queue is the round-robin one. -/
def RoundRobin (s : PerCpuScheduler) : Prop := ∀ i, (s.queues i).roundRobin = true

/-- Every queue keeps its own invariant. -/
def Sound (s : PerCpuScheduler) : Prop := ∀ i, (s.queues i).Sound

/-! ## One queue replaced -/

@[simp] theorem setQueue_self (i : Fin maxCpus) (b : SchedulerBackend) :
    (s.setQueue i b).queues i = b := by
  simp [setQueue]

theorem setQueue_of_ne {i j : Fin maxCpus} (h : j ≠ i) (b : SchedulerBackend) :
    (s.setQueue i b).queues j = s.queues j := by
  simp [setQueue, h]

theorem queued_setQueue (i : Fin maxCpus) (b : SchedulerBackend) :
    (s.setQueue i b).queued + (s.queues i).queued = s.queued + b.queued :=
  sum_update SchedulerBackend.queued s.queues i b

theorem queued_le (s : PerCpuScheduler) (i : Fin maxCpus) : (s.queues i).queued ≤ s.queued :=
  Finset.single_le_sum (f := fun j => (s.queues j).queued) (fun _ _ => Multiset.zero_le _)
    (Finset.mem_univ i)

variable {i : Fin maxCpus} {b : SchedulerBackend}

theorem Sound.setQueue (h : s.Sound) (hb : b.Sound) :
    (s.setQueue i b).Sound := by
  intro j
  by_cases hj : j = i
  · subst hj
    rwa [setQueue_self]
  · rw [setQueue_of_ne hj]
    exact h j

theorem RoundRobin.setQueue (h : s.RoundRobin)
    (hb : b.roundRobin = true) : (s.setQueue i b).RoundRobin := by
  intro j
  by_cases hj : j = i
  · subst hj
    rwa [setQueue_self]
  · rw [setQueue_of_ne hj]
    exact h j

/-! ## A batch enqueued on one queue -/

theorem roundRobin_enqueueAll (stolen : StolenTasks) (b : SchedulerBackend) :
    (enqueueAll b stolen).roundRobin = b.roundRobin := by
  induction stolen generalizing b with
  | nil => rfl
  | cons entry rest ih =>
    show (enqueueAll (b.enqueue entry.1 entry.2) rest).roundRobin = _
    rw [ih, SchedulerBackend.roundRobin_enqueue]

/-- The batch joins the queue, whole. -/
theorem enqueueAll_spec (stolen : StolenTasks) (h : b.Sound)
    (hnew : b.roundRobin = true ∨ (taken stolen + b.queued).Nodup) :
    (enqueueAll b stolen).Sound ∧ (enqueueAll b stolen).queued = taken stolen + b.queued := by
  induction stolen generalizing b with
  | nil => exact ⟨h, (zero_add _).symm⟩
  | cons entry rest ih =>
    have htaken : taken (entry :: rest) = entry.1 ::ₘ taken rest := rfl
    rw [htaken, Multiset.cons_add] at hnew ⊢
    have hfresh : b.roundRobin = true ∨ entry.1 ∉ b.queued :=
      hnew.imp_right fun hn hin => (Multiset.nodup_cons.1 hn).1 (Multiset.mem_add.2 (.inr hin))
    obtain ⟨hsound, hqueued⟩ := h.enqueue entry.2 hfresh
    have hrest : (b.enqueue entry.1 entry.2).roundRobin = true ∨
        (taken rest + (b.enqueue entry.1 entry.2).queued).Nodup := by
      rw [SchedulerBackend.roundRobin_enqueue, hqueued, Multiset.add_cons]
      exact hnew
    obtain ⟨hsound', hqueued'⟩ := ih hsound hrest
    refine ⟨hsound', ?_⟩
    show (enqueueAll (b.enqueue entry.1 entry.2) rest).queued = _
    rw [hqueued', hqueued, Multiset.add_cons]

/-! ## What a batch does to the CPUs -/

/-- `moved` left `src`; `kept` of it is in hand, the rest stands on `dst`; nothing else changed. -/
def Moves (s s' : PerCpuScheduler) (src dst : Fin maxCpus) (moved kept : Multiset TaskId) : Prop :=
  (s'.queues src).queued + moved = (s.queues src).queued ∧
  (s'.queues dst).queued + kept = (s.queues dst).queued + moved ∧
  ∀ i, i ≠ src → i ≠ dst → (s'.queues i).queued = (s.queues i).queued

/-- No CPU holds other tasks than before. -/
def Unmoved (s s' : PerCpuScheduler) : Prop :=
  ∀ i, (s'.queues i).queued = (s.queues i).queued

theorem Unmoved.queued {s' : PerCpuScheduler} (h : Unmoved s s') : s'.queued = s.queued :=
  Finset.sum_congr rfl fun i _ => h i

theorem Moves.queued {s' : PerCpuScheduler} {src dst : Fin maxCpus} {moved kept : Multiset TaskId}
    (h : Moves s s' src dst moved kept) (hne : src ≠ dst) : s'.queued + kept = s.queued := by
  obtain ⟨hsrc, hdst, hrest⟩ := h
  have hsplit : ∀ t : PerCpuScheduler, t.queued = (t.queues src).queued + ((t.queues dst).queued +
      ∑ i ∈ (Finset.univ.erase src).erase dst, (t.queues i).queued) := by
    intro t
    rw [Finset.add_sum_erase _ (fun i => (t.queues i).queued)
        (Finset.mem_erase.2 ⟨hne.symm, Finset.mem_univ dst⟩),
      Finset.add_sum_erase _ (fun i => (t.queues i).queued) (Finset.mem_univ src)]
    rfl
  have hsame : ∑ i ∈ (Finset.univ.erase src).erase dst, (s'.queues i).queued
      = ∑ i ∈ (Finset.univ.erase src).erase dst, (s.queues i).queued := by
    refine Finset.sum_congr rfl fun i hi => hrest i ?_ ?_
    · exact Finset.ne_of_mem_erase (Finset.mem_of_mem_erase hi)
    · exact Finset.ne_of_mem_erase hi
  rw [hsplit s', hsplit s, hsame, ← hsrc]
  calc _ = (s'.queues src).queued + ((s'.queues dst).queued + kept +
        ∑ i ∈ (Finset.univ.erase src).erase dst, (s.queues i).queued) := by ac_rfl
    _ = _ := by
        rw [hdst]
        ac_rfl

/-- The sweep filters each queue it visits. -/
theorem dequeueLoop_spec (id : TaskId) (priority : Nat) (cpus : List (Fin maxCpus)) (removed : Bool)
    (h : s.Sound) :
    (dequeueLoop id priority cpus removed s).2.Sound ∧
      (s.RoundRobin → (dequeueLoop id priority cpus removed s).2.RoundRobin) ∧
      ∀ i, ((dequeueLoop id priority cpus removed s).2.queues i).queued =
        if i ∈ cpus then (s.queues i).queued.filter (· ≠ id) else (s.queues i).queued := by
  induction cpus generalizing s removed with
  | nil => exact ⟨h, fun hr => hr, fun i => by rw [if_neg (List.not_mem_nil)]; rfl⟩
  | cons cpu pending ih =>
    obtain ⟨hsound, hqueued⟩ := (h cpu).dequeue id priority
    obtain ⟨h1, h2, h3⟩ := ih (removed || ((s.queues cpu).dequeue id priority).1)
      (h.setQueue hsound)
    refine ⟨h1, fun hr => h2 (hr.setQueue ?_), fun i => ?_⟩
    · rw [SchedulerBackend.roundRobin_dequeue]
      exact hr cpu
    · show ((dequeueLoop id priority pending _ _).2.queues i).queued = _
      rw [h3 i]
      by_cases hi : i = cpu
      · -- a queue visited again is already filtered
        subst hi
        rw [setQueue_self, hqueued, if_pos List.mem_cons_self, Multiset.filter_filter]
        simp
      · rw [setQueue_of_ne hi]
        simp [hi]

/-! ## Stealing -/

theorem roundRobin_steal_queue (i : Fin maxCpus) (count : Nat) (h : s.RoundRobin) :
    (s.setQueue i ((s.queues i).steal count).2).RoundRobin :=
  h.setQueue ((SchedulerBackend.roundRobin_steal count).trans (h i))

theorem mostLoaded_ne {cpu : Fin maxCpus} {free : Fin maxCpus → Bool} {victim : Fin maxCpus}
    {cpus : List (Fin maxCpus)} {best : Option (Fin maxCpus)} {count : Nat}
    (hbest : ∀ i, best = some i → i ≠ cpu)
    (h : (s.mostLoaded cpu free cpus best count).1 = some victim) : victim ≠ cpu := by
  induction cpus generalizing best count with
  | nil => exact hbest victim h
  | cons i rest ih =>
    unfold mostLoaded at h
    split at h
    · rename_i hi
      exact ih (fun j hj => Option.some.inj hj ▸ hi.1) h
    · exact ih hbest h

theorem lightest_ne {cpu : Fin maxCpus} {free : Fin maxCpus → Bool}
    {cpus : List (Fin maxCpus)} {best : Option (Fin maxCpus × Nat)} {found : Fin maxCpus × Nat}
    (hbest : ∀ b, best = some b → b.1 ≠ cpu) (h : s.lightest cpu free cpus best = some found) :
    found.1 ≠ cpu := by
  induction cpus generalizing best with
  | nil => exact hbest found h
  | cons i rest ih =>
    unfold lightest at h
    split at h
    · rename_i hi
      exact ih (fun b hb => Option.some.inj hb ▸ hi.1) h
    · exact ih hbest h

/-- Distinct tasks or round-robin queues: what makes a batch join a queue whole. -/
def Distinct (s : PerCpuScheduler) : Prop := s.RoundRobin ∨ s.queued.Nodup

/-- A theft leaves the batch and the queues together as they were. -/
theorem steal_queue (h : s.Sound) (i : Fin maxCpus) (count : Nat) :
    (s.setQueue i ((s.queues i).steal count).2).Sound ∧
      (s.setQueue i ((s.queues i).steal count).2).queued + taken ((s.queues i).steal count).1 =
        s.queued := by
  obtain ⟨hsound, hqueued, -⟩ := (h i).steal count
  refine ⟨h.setQueue hsound, ?_⟩
  have hset := queued_setQueue (s := s) i ((s.queues i).steal count).2
  rw [← hqueued, add_comm _ (taken _), ← add_assoc] at hset
  exact add_right_cancel hset

/-- After a theft the batch may join any queue. -/
theorem Distinct.batch (hd : s.Distinct) (h : s.Sound) (i j : Fin maxCpus) (count : Nat) :
    ((s.setQueue i ((s.queues i).steal count).2).queues j).roundRobin = true ∨
      (taken ((s.queues i).steal count).1 +
        ((s.setQueue i ((s.queues i).steal count).2).queues j).queued).Nodup := by
  refine hd.imp (fun hr => roundRobin_steal_queue i count hr j) fun hn => ?_
  rw [← (steal_queue h i count).2, add_comm] at hn
  exact Multiset.nodup_of_le (Multiset.add_le_add_left (queued_le _ j)) hn

/-- Part of a batch may join wherever the batch may. -/
theorem batch_tail {stolen : StolenTasks}
    (h : b.roundRobin = true ∨ (taken stolen + b.queued).Nodup) :
    b.roundRobin = true ∨ (taken stolen.tail + b.queued).Nodup := by
  refine h.imp_right fun hn => Multiset.nodup_of_le (Multiset.add_le_add_right ?_) hn
  exact Multiset.coe_le.2 ((List.tail_sublist stolen).map Prod.fst).subperm

theorem foldl_push (ids : List TaskId) {migrated : MigratedTasks}
    (h : migrated.length + ids.length ≤ maxSteal) :
    ids.foldl MigratedTasks.push migrated = migrated ++ ids := by
  induction ids generalizing migrated with
  | nil => rw [List.append_nil, List.foldl_nil]
  | cons id rest ih =>
    rw [List.length_cons] at h
    have hlen : (migrated ++ [id]).length + rest.length ≤ maxSteal := by
      rw [List.length_append, List.length_singleton]
      omega
    rw [List.foldl_cons, MigratedTasks.push_of_lt (by omega), ih hlen, List.append_assoc,
      List.singleton_append]

theorem taken_head_tail (stolen : StolenTasks) :
    asked (stolen.map Prod.fst).head? + taken stolen.tail = taken stolen := by
  cases stolen with
  | nil => rfl
  | cons entry rest => rfl

/-- What `try_steal` leaves: nothing moved, or a batch left one victim for this CPU, the first of it
returned, and is recorded. -/
def Stolen (s : PerCpuScheduler) (cpu : Fin maxCpus)
    (r : Option TaskId × MigratedTasks × PerCpuScheduler) : Prop :=
  (r.1 = none ∧ r.2.1 = [] ∧ Unmoved s r.2.2) ∨
    ∃ victim, victim ≠ cpu ∧ r.2.1 ≠ [] ∧ r.1 = r.2.1.head? ∧
      Moves s r.2.2 victim cpu (r.2.1 : List TaskId) (asked r.1)

theorem trySteal_spec (h : s.Sound) (hd : s.Distinct) (cpu : Fin maxCpus)
    (free : Fin maxCpus → Bool) :
    (s.trySteal cpu free []).2.2.Sound ∧
      (s.RoundRobin → (s.trySteal cpu free []).2.2.RoundRobin) ∧
      s.Stolen cpu (s.trySteal cpu free []) := by
  have hidle : s.Sound ∧ (s.RoundRobin → s.RoundRobin) ∧ Unmoved s s :=
    ⟨h, fun hr => hr, fun _ => rfl⟩
  unfold trySteal
  split
  · exact ⟨h, fun hr => hr, .inl ⟨rfl, rfl, hidle.2.2⟩⟩
  · split
    · exact ⟨h, fun hr => hr, .inl ⟨rfl, rfl, hidle.2.2⟩⟩
    · rename_i victim count hscan
      have hvictim : victim ≠ cpu := mostLoaded_ne (by simp) (congrArg Prod.fst hscan)
      split
      · exact ⟨h, fun hr => hr, .inl ⟨rfl, rfl, hidle.2.2⟩⟩
      · obtain ⟨hsound, hqueued, hlen⟩ := (h victim).steal (max (count / 2) 1)
        have hstolen := (steal_queue h victim (max (count / 2) 1)).1
        simp only
        split
        · -- the victim ran out of tasks since the scan
          rename_i hempty
          rw [List.isEmpty_iff] at hempty
          refine ⟨hstolen, roundRobin_steal_queue victim _, .inl ⟨rfl, rfl, fun i => ?_⟩⟩
          by_cases hi : i = victim
          · subst hi
            rw [setQueue_self, ← hqueued, hempty]
            exact (add_zero _).symm
          · rw [setQueue_of_ne hi]
        · rename_i hne
          rw [List.isEmpty_iff] at hne
          have hbatch := hd.batch h victim cpu (max (count / 2) 1)
          obtain ⟨hsound', hqueued'⟩ := enqueueAll_spec _ (hstolen cpu) (batch_tail hbatch)
          refine ⟨hstolen.setQueue hsound', fun hr => ?_, .inr ⟨victim, hvictim, ?_⟩⟩
          · refine (roundRobin_steal_queue victim _ hr).setQueue ?_
            rw [roundRobin_enqueueAll]
            exact roundRobin_steal_queue victim _ hr cpu
          · unfold receive
            simp only
            rw [foldl_push _ (by simpa using hlen)]
            refine ⟨by simpa using hne, rfl, ?_, ?_, ?_⟩
            · rw [setQueue_of_ne hvictim, setQueue_self]
              exact hqueued
            · rw [setQueue_self, hqueued', setQueue_of_ne hvictim.symm, add_comm, ← add_assoc,
                taken_head_tail, add_comm]
              rfl
            · intro i hi hi'
              rw [setQueue_of_ne hi', setQueue_of_ne hi]

/-! ## Pushing -/

/-- What `try_push_balance` leaves: nothing moved, or a batch left this CPU for one target and is
recorded. -/
def Pushed (s : PerCpuScheduler) (cpu : Fin maxCpus)
    (r : List (TaskId × Fin maxCpus) × PerCpuScheduler) : Prop :=
  (r.1 = [] ∧ Unmoved s r.2) ∨
    ∃ target, cpu ≠ target ∧ r.1 ≠ [] ∧ (∀ m ∈ r.1, m.2 = target) ∧
      Moves s r.2 cpu target (r.1.map Prod.fst : List TaskId) 0

theorem pushTo_spec (h : s.Sound) (hd : s.Distinct) {cpu target : Fin maxCpus} (hne : cpu ≠ target)
    (toPush : Nat) (free : Bool) :
    (s.pushTo cpu target toPush free).2.Sound ∧
      (s.RoundRobin → (s.pushTo cpu target toPush free).2.RoundRobin) ∧
      s.Pushed cpu (s.pushTo cpu target toPush free) := by
  obtain ⟨hsound, hqueued, -⟩ := (h cpu).steal toPush
  have hstolen := (steal_queue h cpu toPush).1
  have hrr := roundRobin_steal_queue (s := s) cpu toPush
  unfold pushTo
  simp only
  split
  · rename_i hempty
    rw [List.isEmpty_iff] at hempty
    refine ⟨hstolen, hrr, .inl ⟨rfl, fun i => ?_⟩⟩
    by_cases hi : i = cpu
    · subst hi
      rw [setQueue_self, ← hqueued, hempty]
      exact (add_zero _).symm
    · rw [setQueue_of_ne hi]
  · rename_i hstole
    rw [List.isEmpty_iff] at hstole
    split
    · obtain ⟨hsound', hqueued'⟩ := enqueueAll_spec _ (hstolen target) (hd.batch h cpu target toPush)
      refine ⟨hstolen.setQueue hsound', fun hr => (hrr hr).setQueue ?_, .inr ⟨target, hne, ?_⟩⟩
      · rw [roundRobin_enqueueAll]
        exact hrr hr target
      · have hids : ((((s.queues cpu).steal toPush).1.map fun entry => (entry.1, target)).map Prod.fst)
            = ((s.queues cpu).steal toPush).1.map Prod.fst := by
          simp
        simp only
        rw [hids]
        refine ⟨by simpa using hstole, fun m hm => ?_, ?_, ?_, ?_⟩
        · obtain ⟨entry, -, rfl⟩ := List.mem_map.1 hm
          rfl
        · rw [setQueue_of_ne hne, setQueue_self]
          exact hqueued
        · rw [setQueue_self, hqueued', setQueue_of_ne hne.symm, add_zero, add_comm]
          rfl
        · intro i hi hi'
          rw [setQueue_of_ne hi', setQueue_of_ne hi]
    · -- the target's lock is held: the batch goes back
      obtain ⟨hsound', hqueued'⟩ := enqueueAll_spec _ (hstolen cpu) (hd.batch h cpu cpu toPush)
      refine ⟨hstolen.setQueue hsound', fun hr => (hrr hr).setQueue ?_, .inl ⟨rfl, fun i => ?_⟩⟩
      · rw [roundRobin_enqueueAll]
        exact hrr hr cpu
      · by_cases hi : i = cpu
        · subst hi
          rw [setQueue_self, hqueued', setQueue_self, add_comm]
          exact hqueued
        · rw [setQueue_of_ne hi, setQueue_of_ne hi]

/-- What `try_push_balance` does, on an index that is a CPU; on any other it does nothing. -/
theorem tryPushBalance_spec (h : s.Sound) (hd : s.Distinct) (cpu : Nat) (locks : PushLocks) :
    (s.tryPushBalance cpu locks).2.Sound ∧
      (s.RoundRobin → (s.tryPushBalance cpu locks).2.RoundRobin) ∧
      ((∃ hcpu : cpu < maxCpus, s.Pushed ⟨cpu, hcpu⟩ (s.tryPushBalance cpu locks)) ∨
        s.tryPushBalance cpu locks = ([], s)) := by
  unfold tryPushBalance
  split
  · rename_i hpre
    simp only
    split
    · exact ⟨h, fun hr => hr, .inr rfl⟩
    · split
      · exact ⟨h, fun hr => hr, .inr rfl⟩
      · rename_i target count hscan
        split
        · exact ⟨h, fun hr => hr, .inr rfl⟩
        · have hne : target ≠ ⟨cpu, hpre.2.1⟩ := lightest_ne (by simp) hscan
          obtain ⟨h1, h2, h3⟩ := pushTo_spec h hd hne.symm
            (min (max ((localCount (s.queues ⟨cpu, hpre.2.1⟩) - count) / 2) 1) 4) locks.target
          exact ⟨h1, h2, .inl ⟨hpre.2.1, h3⟩⟩
  · exact ⟨h, fun hr => hr, .inr rfl⟩

/-! ## The account -/

/-- The scheduler and what went in and out of it. -/
structure Account where
  sched : PerCpuScheduler
  enqueued : Multiset TaskId
  dequeued : Multiset TaskId
  picked : Multiset TaskId

/-- A call, with what the environment decides. -/
inductive Call
  | enqueue (id : TaskId) (priority cpu : Nat)
  | dequeue (id : TaskId) (priority cpu : Nat)
  | pickNextLocal (cpu : Nat) (rtThrottled : Bool)
  | trySteal (cpu : Fin maxCpus) (free : Fin maxCpus → Bool)
  | tryPushBalance (cpu : Nat) (locks : PushLocks)

/-- The entries of a task on the online CPUs: what a `dequeue` takes away. -/
def entriesFor (s : PerCpuScheduler) (id : TaskId) : Multiset TaskId :=
  ∑ i : Fin maxCpus, if (i : Nat) < max s.numCpus 1 then (s.queues i).queued.filter (· = id) else 0

/-- One call. -/
def step (a : Account) : Call → Option Account
  | .enqueue id priority cpu =>
    some { a with sched := a.sched.enqueue id priority cpu, enqueued := id ::ₘ a.enqueued }
  | .dequeue id priority cpu =>
    some { a with
      sched := (a.sched.dequeue id priority cpu).2
      dequeued := a.dequeued + a.sched.entriesFor id }
  | .pickNextLocal cpu rtThrottled =>
    some { a with
      sched := (a.sched.pickNextLocal cpu rtThrottled).2
      picked := a.picked + asked (a.sched.pickNextLocal cpu rtThrottled).1 }
  | .trySteal cpu free =>
    some { a with
      sched := (a.sched.trySteal cpu free []).2.2
      picked := a.picked + asked (a.sched.trySteal cpu free []).1 }
  | .tryPushBalance cpu locks => some { a with sched := (a.sched.tryPushBalance cpu locks).2 }

/-- `init`, nothing accounted for yet. -/
def start (numCpus backendId : Nat) : Account := ⟨init numCpus backendId, 0, 0, 0⟩

/-- Whether an `enqueue` is for a task that no CPU holds. -/
def Fresh (a : Account) : Call → Prop
  | .enqueue id _ _ => id ∉ a.sched.queued
  | .dequeue .. | .pickNextLocal .. | .trySteal .. | .tryPushBalance .. => True

/-- Fresh, unless every queue may hold a task twice. -/
def Admissible (a : Account) (c : Call) : Prop := a.sched.RoundRobin ∨ Fresh a c

/-- Everything that was enqueued is queued, picked or dequeued. -/
def Balanced (a : Account) : Prop := a.sched.queued + a.picked + a.dequeued = a.enqueued

theorem init_spec (numCpus backendId : Nat) :
    (init numCpus backendId).Sound ∧ (init numCpus backendId).queued = 0 := by
  have hempty : ∀ b : SchedulerBackend, (b = .fromId backendId ∨ b = .newConst) →
      b.Sound ∧ b.queued = 0 := by
    rintro b (rfl | rfl)
    · unfold SchedulerBackend.fromId
      split
      · exact ⟨⟨_, EevdfScheduler.settled_new⟩, rfl⟩
      · exact ⟨⟨_, DeadlineScheduler.represents_new⟩, rfl⟩
      · exact ⟨PriorityRoundRobin.mirrors_new, items_eq_zero_iff.2 fun _ => rfl⟩
    · exact ⟨PriorityRoundRobin.mirrors_new, items_eq_zero_iff.2 fun _ => rfl⟩
  have hqueues : ∀ i, ((init numCpus backendId).queues i).Sound ∧
      ((init numCpus backendId).queues i).queued = 0 := by
    intro i
    refine hempty _ ?_
    unfold init
    simp only
    split
    · exact .inl rfl
    · exact .inr rfl
  exact ⟨fun i => (hqueues i).1, Finset.sum_eq_zero fun i _ => (hqueues i).2⟩

theorem enqueue_spec (h : s.Sound) {id : TaskId} (hnew : s.RoundRobin ∨ id ∉ s.queued)
    (priority cpu : Nat) :
    (s.enqueue id priority cpu).Sound ∧
      (s.RoundRobin → (s.enqueue id priority cpu).RoundRobin) ∧
      (s.enqueue id priority cpu).queued = id ::ₘ s.queued := by
  have hnew' : (s.queues (s.target cpu)).roundRobin = true ∨ id ∉ (s.queues (s.target cpu)).queued :=
    hnew.imp (fun hr => hr _) fun hn hin => hn (Multiset.mem_of_le (queued_le s _) hin)
  obtain ⟨hsound, hqueued⟩ := (h (s.target cpu)).enqueue priority hnew'
  refine ⟨h.setQueue hsound, fun hr => hr.setQueue ?_, ?_⟩
  · rw [SchedulerBackend.roundRobin_enqueue]
    exact hr _
  · have hset := queued_setQueue (s := s) (s.target cpu)
      ((s.queues (s.target cpu)).enqueue id priority)
    rw [hqueued, Multiset.add_cons, ← Multiset.cons_add] at hset
    exact add_right_cancel hset

theorem pickNextLocal_spec (h : s.Sound) (cpu : Nat) (rtThrottled : Bool) :
    (s.pickNextLocal cpu rtThrottled).2.Sound ∧
      (s.RoundRobin → (s.pickNextLocal cpu rtThrottled).2.RoundRobin) ∧
      (s.pickNextLocal cpu rtThrottled).2.queued + asked (s.pickNextLocal cpu rtThrottled).1 =
        s.queued := by
  unfold pickNextLocal
  split
  · rename_i hcpu
    obtain ⟨hsound, hqueued⟩ := (h ⟨cpu, hcpu⟩).pick rtThrottled
    refine ⟨h.setQueue hsound, fun hr => hr.setQueue ?_, ?_⟩
    · rw [SchedulerBackend.roundRobin_pick]
      exact hr _
    · have hset := queued_setQueue (s := s) ⟨cpu, hcpu⟩
        ((s.queues ⟨cpu, hcpu⟩).pickNextMasked rtThrottled).2
      rw [← hqueued, add_comm _ (asked _), ← add_assoc] at hset
      exact add_right_cancel hset
  · exact ⟨h, fun hr => hr, add_zero _⟩

theorem mem_sweep (s : PerCpuScheduler) (cpu : Nat) (i : Fin maxCpus) :
    i ∈ s.target cpu :: (below (max s.numCpus 1)).filter (· ≠ s.target cpu) ↔
      (i : Nat) < max s.numCpus 1 := by
  have htarget : ((s.target cpu : Fin maxCpus) : Nat) < max s.numCpus 1 := by
    show min cpu (s.numCpus - 1) < max s.numCpus 1
    omega
  rw [List.mem_cons, List.mem_filter, below, List.mem_filter]
  constructor
  · rintro (rfl | hi)
    · exact htarget
    · simpa using hi.1
  · intro hi
    by_cases hsame : i = s.target cpu
    · exact .inl hsame
    · exact .inr (by simpa [hsame] using hi)

theorem dequeue_spec (h : s.Sound) (id : TaskId) (priority cpu : Nat) :
    (s.dequeue id priority cpu).2.Sound ∧
      (s.RoundRobin → (s.dequeue id priority cpu).2.RoundRobin) ∧
      (s.dequeue id priority cpu).2.queued + s.entriesFor id = s.queued := by
  obtain ⟨h1, h2, h3⟩ := dequeueLoop_spec id priority
    (s.target cpu :: (below (max s.numCpus 1)).filter (· ≠ s.target cpu)) false h
  refine ⟨h1, h2, ?_⟩
  unfold queued entriesFor
  rw [← Finset.sum_add_distrib]
  refine Finset.sum_congr rfl fun i _ => ?_
  show ((dequeueLoop id priority _ false s).2.queues i).queued + _ = _
  rw [h3 i]
  by_cases hi : (i : Nat) < max s.numCpus 1
  · rw [if_pos ((mem_sweep s cpu i).2 hi), if_pos hi, add_comm]
    exact Multiset.filter_add_not (· = id) _
  · rw [if_neg fun hin => hi ((mem_sweep s cpu i).1 hin), if_neg hi, add_zero]

/-- What one call does to the queues and to the account. -/
theorem step_spec {a a' : Account} {c : Call} (h : a.sched.Sound) (hd : a.sched.Distinct)
    (hadm : Admissible a c) (hstep : step a c = some a') :
    a'.sched.Sound ∧ (a.sched.RoundRobin → a'.sched.RoundRobin) ∧
      (a.sched.queued.Nodup → Fresh a c → a'.sched.queued.Nodup) ∧ (Balanced a → Balanced a') := by
  have hshrink : ∀ {t t' : PerCpuScheduler} {gone : Multiset TaskId}, t'.queued + gone = t.queued →
      t.queued.Nodup → t'.queued.Nodup := by
    intro t t' gone heq hn
    rw [← heq] at hn
    exact Multiset.nodup_of_le (Multiset.le_add_right _ _) hn
  unfold Balanced
  cases c with
  | enqueue id priority cpu =>
    cases hstep
    obtain ⟨h1, h2, h3⟩ := enqueue_spec h hadm priority cpu
    refine ⟨h1, h2, fun hn hfresh => ?_, fun hb => ?_⟩
    · rw [h3]
      exact Multiset.nodup_cons.2 ⟨hfresh, hn⟩
    · simp only
      rw [h3, Multiset.cons_add, Multiset.cons_add, hb]
  | dequeue id priority cpu =>
    cases hstep
    obtain ⟨h1, h2, h3⟩ := dequeue_spec h id priority cpu
    refine ⟨h1, h2, fun hn _ => hshrink h3 hn, fun hb => ?_⟩
    simp only
    rw [← hb, ← h3]
    ac_rfl
  | pickNextLocal cpu rtThrottled =>
    cases hstep
    obtain ⟨h1, h2, h3⟩ := pickNextLocal_spec h cpu rtThrottled
    refine ⟨h1, h2, fun hn _ => hshrink h3 hn, fun hb => ?_⟩
    simp only
    rw [← hb, ← h3]
    ac_rfl
  | trySteal cpu free =>
    cases hstep
    obtain ⟨h1, h2, h3⟩ := trySteal_spec h hd cpu free
    have htotal : (a.sched.trySteal cpu free []).2.2.queued +
        asked (a.sched.trySteal cpu free []).1 = a.sched.queued := by
      rcases h3 with ⟨hnone, -, hunmoved⟩ | ⟨victim, hne, -, -, hmoves⟩
      · rw [hunmoved.queued, hnone]
        exact add_zero _
      · exact hmoves.queued hne
    refine ⟨h1, h2, fun hn _ => hshrink htotal hn, fun hb => ?_⟩
    simp only
    rw [← hb, ← htotal]
    ac_rfl
  | tryPushBalance cpu locks =>
    cases hstep
    obtain ⟨h1, h2, h3⟩ := tryPushBalance_spec h hd cpu locks
    have htotal : (a.sched.tryPushBalance cpu locks).2.queued = a.sched.queued := by
      rcases h3 with ⟨hcpu, ⟨-, hunmoved⟩ | ⟨target, hne, -, -, hmoves⟩⟩ | heq
      · exact hunmoved.queued
      · simpa using hmoves.queued hne
      · rw [heq]
    refine ⟨h1, h2, fun hn _ => ?_, fun hb => ?_⟩
    · simp only
      rwa [htotal]
    · simp only
      rw [htotal, hb]

/-- The run lemma: along admissible calls the queues are sound and the account balances. -/
theorem balanced_of_reach {numCpus backendId : Nat} {a : Account}
    (h : ReachBy step Admissible (· = start numCpus backendId) a) :
    a.sched.Sound ∧ a.sched.Distinct ∧ Balanced a := by
  refine h.invariant (I := fun a => a.sched.Sound ∧ a.sched.Distinct ∧ Balanced a) ?_ ?_
  · rintro a rfl
    obtain ⟨hsound, hempty⟩ := init_spec numCpus backendId
    refine ⟨hsound, .inr ?_, ?_⟩
    · rw [start, hempty]
      exact Multiset.nodup_zero
    · simp [Balanced, start, hempty]
  · rintro a c a' ⟨hsound, hd, hb⟩ hadm hstep
    obtain ⟨h1, h2, h3, h4⟩ := step_spec hsound hd hadm hstep
    refine ⟨h1, ?_, h4 hb⟩
    rcases hd with hr | hn
    · exact .inl (h2 hr)
    · exact hadm.imp h2 (h3 hn)

/-- Along calls that enqueue fresh tasks only, no task is queued twice. -/
theorem nodup_of_reach {numCpus backendId : Nat} {a : Account}
    (h : ReachBy step Fresh (· = start numCpus backendId) a) : a.sched.queued.Nodup := by
  have hboth : a.sched.Sound ∧ a.sched.queued.Nodup := by
    refine h.invariant (I := fun a => a.sched.Sound ∧ a.sched.queued.Nodup) ?_ ?_
    · rintro a rfl
      obtain ⟨hsound, hempty⟩ := init_spec numCpus backendId
      refine ⟨hsound, ?_⟩
      rw [start, hempty]
      exact Multiset.nodup_zero
    · rintro a c a' ⟨hsound, hn⟩ hfresh hstep
      obtain ⟨h1, -, h3, -⟩ := step_spec hsound (.inr hn) (.inr hfresh) hstep
      exact ⟨h1, h3 hn hfresh⟩
  exact hboth.2

/-- A task stands on one queue at most if no task is queued twice. -/
theorem one_queue (hn : s.queued.Nodup) {i j : Fin maxCpus} {id : TaskId}
    (hi : id ∈ (s.queues i).queued) (hj : id ∈ (s.queues j).queued) : i = j := by
  by_contra hne
  have hle : (s.queues i).queued + (s.queues j).queued ≤ s.queued := by
    unfold queued
    rw [← Finset.add_sum_erase Finset.univ _ (Finset.mem_univ i)]
    refine Multiset.add_le_add_left ?_
    exact Finset.single_le_sum (f := fun k => (s.queues k).queued) (fun _ _ => Multiset.zero_le _)
      (Finset.mem_erase.2 ⟨Ne.symm hne, Finset.mem_univ j⟩)
  have hdisjoint := (Multiset.nodup_add.1 (Multiset.nodup_of_le hle hn)).2.2
  exact Multiset.disjoint_left.1 hdisjoint hi hj

/-- **Conservation over the CPUs.** Whatever the calls and the locks, what was enqueued is queued,
picked or dequeued; a theft and a push record the tasks they move, and move nothing else; and as long
as tasks are enqueued fresh, no task stands on two queues, or twice on one. -/
theorem per_cpu_conservation {numCpus backendId : Nat} {a : Account}
    (h : ReachBy step Admissible (· = start numCpus backendId) a) :
    Balanced a ∧
      (ReachBy step Fresh (· = start numCpus backendId) a →
        a.sched.queued.Nodup ∧ ∀ (i j : Fin maxCpus) (id : TaskId),
          id ∈ (a.sched.queues i).queued → id ∈ (a.sched.queues j).queued → i = j) ∧
      (∀ cpu free, a.sched.Stolen cpu (a.sched.trySteal cpu free [])) ∧
      ∀ cpu locks, (∃ hcpu : cpu < maxCpus,
          a.sched.Pushed ⟨cpu, hcpu⟩ (a.sched.tryPushBalance cpu locks)) ∨
        a.sched.tryPushBalance cpu locks = ([], a.sched) := by
  obtain ⟨hsound, hd, hb⟩ := balanced_of_reach h
  refine ⟨hb, fun hfresh => ?_, fun cpu free => ?_, fun cpu locks => ?_⟩
  · have hn := nodup_of_reach hfresh
    exact ⟨hn, fun i j id hi hj => one_queue hn hi hj⟩
  · exact (trySteal_spec hsound hd cpu free).2.2
  · exact (tryPushBalance_spec hsound hd cpu locks).2.2

/-- Two tasks on two CPUs. -/
theorem per_cpu_conservation_twoTasks :
    Balanced ⟨((init 2 0).enqueue 7 16 0).enqueue 9 16 1, {9, 7}, 0, 0⟩ := by
  have hrr : (init 2 0).RoundRobin := by
    unfold RoundRobin
    decide
  have hreach : ReachBy step Admissible (· = start 2 0)
      ⟨((init 2 0).enqueue 7 16 0).enqueue 9 16 1, {9, 7}, 0, 0⟩ := by
    refine .next (a := .enqueue 9 16 1) (.next (a := .enqueue 7 16 0) (.start rfl) (.inl hrr) rfl)
      (.inl ?_) rfl
    exact (enqueue_spec (init_spec 2 0).1 (.inl hrr) 16 0).2.1 hrr
  exact (per_cpu_conservation hreach).1

/-- A task enqueued again: a keyed queue replaces its entry, so one enqueue is not answered for, and
two round-robin queues both hold it. -/
theorem enqueued_again_not_conserved :
    (∃ a, run step (start 1 1) [.enqueue 7 16 0, .enqueue 7 16 0] = some a ∧ ¬ Balanced a) ∧
      ∃ a, run step (start 2 0) [.enqueue 7 16 0, .enqueue 7 16 1] = some a ∧
        (7 ∈ (a.sched.queues 0).queued ∧ 7 ∈ (a.sched.queues 1).queued) := by
  constructor
  · refine ⟨_, rfl, fun hb => ?_⟩
    have hcard := congrArg Multiset.card hb
    revert hcard
    decide +kernel
  · refine ⟨_, rfl, ?_⟩
    decide +kernel

end SlateOS.Sched.PerCpuScheduler
