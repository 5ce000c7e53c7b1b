/-
# SlateOS.Sched.DrainAll -- what draining a CPU takes out of its run queue

`drain_all` of `kernel/src/sched/priority_rr.rs` steals one batch after another and stops at the first
empty one. A theft of the deadline queue passes over the tasks registered with it, so that a batch can be
empty while registered tasks still wait: these stay behind, and every other task is taken out once.
-/
import SlateOS.Sched.DequeueRuns
import SlateOS.Sched.PerCpuRuns

namespace SlateOS.Sched

open Foundation Foundation.Fifos

/-! ## A full theft that comes back empty -/

/-- Nothing waits at any level. -/
theorem PriorityRoundRobin.Mirrors.items_of_steal_nil {s : PriorityRoundRobin} (h : s.Mirrors)
    (hnil : (s.steal maxSteal).1 = []) : items s.queues = 0 := by
  have hlength :
      (takeBack (List.finRange numPriorities) (min maxSteal maxSteal) s.queues).1.length = 0 := by
    rw [(h.steal_spec maxSteal).1, recorded, List.map_eq_nil_iff] at hnil
    rw [hnil, List.length_nil]
  rw [length_takeBack (List.nodup_finRange _), Nat.min_self, Nat.min_eq_zero_iff] at hlength
  -- the buffer has room, so it is the levels that had nothing
  have hsum := hlength.resolve_left (by decide)
  rw [List.sum_eq_zero_iff] at hsum
  refine items_eq_zero_iff.2 fun i => List.eq_nil_of_length_eq_zero ?_
  exact hsum _ (List.mem_map.2 ⟨i, List.mem_finRange i, rfl⟩)

/-- Nothing waits in the tree. -/
theorem EevdfScheduler.Settled.absent_of_steal_nil {s : EevdfScheduler} {q : EevdfScheduler.Queue}
    (h : s.Settled q) (hnil : (s.steal maxSteal).1 = []) (i : TaskId) : q i = none := by
  by_contra hwaits
  obtain ⟨e, he⟩ := Option.ne_none_iff_exists'.1 hwaits
  have hkey : toLex (e.deadline, i) ∈ s.tree := (h.represents.mem_tree _).2 ⟨e, he, rfl⟩
  have hfull : ¬(maxSteal = 0 ∨ s.tree.isEmpty = true) := by
    rintro (hzero | hempty)
    · exact absurd hzero (by decide)
    · exact Std.TreeMap.not_mem_of_isEmpty hempty hkey
  rw [EevdfScheduler.steal, if_neg hfull] at hnil
  generalize hks : s.tree.keys.reverse.take (min maxSteal maxSteal) = keys at hnil
  obtain ⟨hnodup, hmem, hlen⟩ := backKeys_spec hks
  obtain ⟨taken, h1, h2, -⟩ := stealKeys_spec h.represents hnodup hmem [] (by simpa using hlen)
  have htaken : taken = [] := by
    simp only at hnil
    split at hnil
    · exact (h1.symm.trans hnil)
    · exact (h1.symm.trans hnil)
  rw [htaken, List.map_nil, eq_comm, List.map_eq_nil_iff] at h2
  rw [h2, List.take_eq_nil_iff, List.reverse_eq_nil_iff] at hks
  have hkeys : s.tree.keys = [] := hks.resolve_left (by decide)
  have hin := OrderedMap.mem_keys.2 hkey
  rw [hkeys] at hin
  exact absurd hin List.not_mem_nil

namespace DeadlineScheduler

variable {s : DeadlineScheduler} {q : Queue}

/-- A theft takes no registered task. -/
theorem Indexed.stolen_unregistered (h : s.Indexed q) (count : Nat) :
    ∀ i ∈ (s.steal count).1.map Prod.fst, s.params.contains i = false := by
  unfold DeadlineScheduler.steal
  split
  · simp
  · simp only
    generalize hks : ((s.tree.toList.reverse.filter
      fun p => !s.params.contains p.2.id).map Prod.fst).take (min count maxSteal) = keys
    obtain ⟨hnodup, hmem, hlen⟩ := freeKeys_spec hks
    obtain ⟨taken, h1, h2, -⟩ := h.stealKeys hnodup hmem [] (by simpa using hlen)
    rw [h1, List.nil_append, h2]
    intro i hi
    obtain ⟨k, hk, rfl⟩ := List.mem_map.1 hi
    rw [← hks] at hk
    obtain ⟨⟨key, e⟩, hp, rfl⟩ := List.mem_map.1 (List.mem_of_mem_take hk)
    obtain ⟨hp, hfree⟩ := List.mem_filter.1 hp
    have hget : s.tree[key]? = some e := OrderedMap.mem_toList.1 (List.mem_reverse.1 hp)
    have hid : e.id = (ofLex key).2 := h.ids _ e ((h.views.tree key e).1 hget).1
    rw [← hid]
    simpa using hfree

/-- Only registered tasks wait. -/
theorem Indexed.registered_of_steal_nil (h : s.Indexed q) (hnil : (s.steal maxSteal).1 = [])
    {i : TaskId} (hi : q i ≠ none) : s.params.contains i = true := by
  obtain ⟨e, he⟩ := Option.ne_none_iff_exists'.1 hi
  have hid : e.id = i := h.ids i e he
  have hkey : s.tree[(toLex (e.absDeadline, i) : TimeKey)]? = some e := (h.views.tree _ e).2 ⟨he, rfl⟩
  have hfull : ¬(maxSteal = 0 ∨ s.tree.isEmpty = true) := by
    rintro (hzero | hempty)
    · exact absurd hzero (by decide)
    · exact Std.TreeMap.not_mem_of_isEmpty hempty (OrderedMap.mem_iff.2 ⟨e, hkey⟩)
  rw [DeadlineScheduler.steal, if_neg hfull] at hnil
  simp only at hnil
  generalize hks : ((s.tree.toList.reverse.filter
    fun p => !s.params.contains p.2.id).map Prod.fst).take (min maxSteal maxSteal) = keys at hnil
  obtain ⟨hnodup, hmem, hlen⟩ := freeKeys_spec hks
  obtain ⟨taken, h1, h2, -⟩ := h.stealKeys hnodup hmem [] (by simpa using hlen)
  obtain rfl : taken = [] := h1.symm.trans hnil
  rw [List.map_nil, eq_comm, List.map_eq_nil_iff] at h2
  rw [h2, List.take_eq_nil_iff, List.map_eq_nil_iff] at hks
  -- the scan passed over every entry
  have hnone := List.filter_eq_nil_iff.1 (hks.resolve_left (by decide)) (toLex (e.absDeadline, i), e)
    (List.mem_reverse.2 (OrderedMap.mem_toList.2 hkey))
  simpa [hid] using hnone

end DeadlineScheduler

namespace SchedulerBackend

/-- The loop of `drain_all`; `none` when the fuel runs out before a batch comes back empty. -/
def drainLoop : Nat → StolenTasks → SchedulerBackend → Option (StolenTasks × SchedulerBackend)
  | 0, _, _ => none
  | fuel + 1, result, b =>
    let batch := b.steal maxSteal
    if batch.1.isEmpty then some (result, batch.2)
    else drainLoop fuel (result ++ batch.1) batch.2

/-- The task is registered as a deadline task; only the deadline queue keeps registrations. -/
def registered (b : SchedulerBackend) (id : TaskId) : Bool :=
  match b with
  | .deadline s => s.params.contains id
  | _ => false

/-- The batch `stolen` went from `b` to its taker and left `b'`. -/
structure Theft (b b' : SchedulerBackend) (stolen : StolenTasks) : Prop where
  coherent : b'.Coherent
  split : b'.queued + taken stolen = b.queued
  registered : b'.registered = b.registered
  unregistered : ∀ i ∈ taken stolen, b.registered i = false

variable {b b' b'' : SchedulerBackend}

/-- One theft after another. -/
theorem Theft.trans {stolen more : StolenTasks} (h : Theft b b' stolen) (h' : Theft b' b'' more) :
    Theft b b'' (stolen ++ more) where
  coherent := h'.coherent
  split := by
    have htaken : taken (stolen ++ more) = taken stolen + taken more := by
      simp [taken]
    rw [htaken, add_comm (taken stolen), ← add_assoc, h'.split, h.split]
  registered := h'.registered.trans h.registered
  unregistered := by
    intro i hi
    have hi : i ∈ (stolen ++ more).map Prod.fst := hi
    rw [List.map_append, List.mem_append] at hi
    rcases hi with hi | hi
    · exact h.unregistered i hi
    · rw [← h.registered]
      exact h'.unregistered i hi

theorem deadline_queued_of_indexed {s : DeadlineScheduler} {q : DeadlineScheduler.Queue}
    (h : s.Indexed q) :
    (queued (.deadline s)).Nodup ∧ ∀ i, i ∈ queued (.deadline s) ↔ q i ≠ none := by
  have hkeys : ∀ k : TimeKey, k ∈ s.tree ↔
      ((q (ofLex k).2).map DeadlineEntry.absDeadline) = some (ofLex k).1 := by
    intro k
    rw [h.views.mem_tree, Option.map_eq_some_iff]
  obtain ⟨hnodup, hmem⟩ := treeTasks_spec (q := fun i => (q i).map DeadlineEntry.absDeadline) hkeys
  exact ⟨hnodup, fun i => (hmem i).trans (by simp)⟩

/-- A theft takes what it records out of the queue, and never a registered task. -/
theorem Coherent.steal (h : b.Coherent) (count : Nat) : Theft b (b.steal count).2 (b.steal count).1 := by
  match b, h with
  | .priorityRR s, h =>
    have hsound : Sound (.priorityRR s) := h
    obtain ⟨hm, hsplit, -⟩ := hsound.steal count
    exact ⟨hm, hsplit, rfl, fun _ _ => rfl⟩
  | .eevdf s, h =>
    have hsound : Sound (.eevdf s) := h
    obtain ⟨hm, hsplit, -⟩ := hsound.steal count
    exact ⟨hm, hsplit, rfl, fun _ _ => rfl⟩
  | .deadline s, ⟨q, hq⟩ =>
    obtain ⟨⟨q', hq', hwaits⟩, ⟨_, _, _, hsame⟩, hnodup, -, hpresent⟩ := hq.indexed.steal count
    obtain ⟨q'', hcoherent, -⟩ := hq.steal count
    refine ⟨⟨q'', hcoherent⟩, ?_, ?_, fun i hi => hq.indexed.stolen_unregistered count i hi⟩
    · apply add_eq_of_nodup (deadline_queued_of_indexed hq.indexed).1
        (deadline_queued_of_indexed hq').1 (Multiset.coe_nodup.2 hnodup)
      · intro i
        show i ∈ queued (.deadline (s.steal count).2) ↔
          i ∈ queued (.deadline s) ∧ i ∉ (s.steal count).1.map Prod.fst
        rw [(deadline_queued_of_indexed hq').2, (deadline_queued_of_indexed hq.indexed).2]
        exact (hwaits i).1
      · intro i hi
        rw [(deadline_queued_of_indexed hq.indexed).2]
        exact hpresent i hi
    · funext i
      show (s.steal count).2.params.contains i = s.params.contains i
      rw [hsame]

/-- When a full theft comes back empty, registered tasks are all that waits. -/
theorem Coherent.registered_of_steal_nil (h : b.Coherent) (hnil : (b.steal maxSteal).1 = [])
    {i : TaskId} (hi : i ∈ b.queued) : b.registered i = true := by
  match b, h with
  | .priorityRR s, h =>
    have hnone : items s.queues = 0 := PriorityRoundRobin.Mirrors.items_of_steal_nil h hnil
    have hi : i ∈ items s.queues := hi
    rw [hnone] at hi
    exact absurd hi (Multiset.notMem_zero i)
  | .eevdf s, ⟨q, hq⟩ => exact absurd (hq.absent_of_steal_nil hnil i) (((eevdf_queued hq).2 i).1 hi)
  | .deadline s, ⟨q, hq⟩ =>
    apply hq.indexed.registered_of_steal_nil hnil
    exact ((deadline_queued_of_indexed hq.indexed).2 i).1 hi

/-- The loop ends, with every unregistered task in the result and the registered ones left behind. -/
theorem Coherent.drainLoop (h : b.Coherent) (result : StolenTasks) :
    ∃ stolen b', (∀ fuel, b.queued.card < fuel → drainLoop fuel result b = some (result ++ stolen, b')) ∧
      Theft b b' stolen ∧ ∀ i ∈ b'.queued, b.registered i = true := by
  -- each batch that is not empty makes the queue shorter
  induction hn : b.queued.card using Nat.strong_induction_on generalizing b result with
  | _ n ih =>
    subst hn
    have htheft := h.steal maxSteal
    by_cases hnil : (b.steal maxSteal).1 = []
    · refine ⟨[], (b.steal maxSteal).2, fun fuel hfuel => ?_, hnil ▸ htheft, fun i hi => ?_⟩
      · obtain ⟨fuel, rfl⟩ := Nat.exists_eq_add_one_of_ne_zero (Nat.ne_zero_of_lt hfuel)
        rw [SchedulerBackend.drainLoop, hnil, List.append_nil]
        rfl
      · apply h.registered_of_steal_nil hnil
        rw [← htheft.split]
        exact Multiset.mem_add.2 (.inl hi)
    · have hshorter : (b.steal maxSteal).2.queued.card < b.queued.card := by
        rw [← htheft.split, Multiset.card_add]
        have hpos : 0 < (taken (b.steal maxSteal).1).card := by
          show 0 < ((b.steal maxSteal).1.map Prod.fst).length
          rw [List.length_map]
          exact List.length_pos_iff.2 hnil
        omega
      obtain ⟨stolen, b', hloop, hrest, hleft⟩ :=
        ih _ hshorter htheft.coherent (result ++ (b.steal maxSteal).1) rfl
      refine ⟨(b.steal maxSteal).1 ++ stolen, b', fun fuel hfuel => ?_, htheft.trans hrest, fun i hi => ?_⟩
      · obtain ⟨fuel, rfl⟩ := Nat.exists_eq_add_one_of_ne_zero (Nat.ne_zero_of_lt hfuel)
        rw [SchedulerBackend.drainLoop]
        simp only [List.isEmpty_iff, hnil, if_false]
        rw [hloop fuel (by omega), List.append_assoc]
      · rw [← htheft.registered]
        exact hleft i hi

end SchedulerBackend

namespace PerCpuScheduler

open SchedulerBackend (taken)

/-- `drain_all`. -/
def drainAll (s : PerCpuScheduler) (fuel cpu : Nat) : Option (StolenTasks × PerCpuScheduler) :=
  if h : cpu < maxCpus then
    ((s.queues ⟨cpu, h⟩).drainLoop fuel []).map fun r => (r.1, s.setQueue ⟨cpu, h⟩ r.2)
  else
    some ([], s)

/-- Every task that was queued on the CPU came out, as often as it was queued, and none is left. -/
def Drained (s s' : PerCpuScheduler) (cpu : Fin maxCpus) (stolen : StolenTasks) : Prop :=
  taken stolen = (s.queues cpu).queued ∧ (s'.queues cpu).queued = 0

/-- In every reachable state of a CPU's run queue, of whichever algorithm, `drain_all` ends and touches no
other CPU, and it drains the queue if and only if no queued task is registered as a deadline task. -/
theorem drain_all_drains {s : PerCpuScheduler} {cpu : Fin maxCpus} (h : (s.queues cpu).Reachable) :
    ∃ stolen s', (∀ fuel, (s.queues cpu).queued.card < fuel → s.drainAll fuel cpu = some (stolen, s')) ∧
      (∀ i, i ≠ cpu → s'.queues i = s.queues i) ∧
      (Drained s s' cpu stolen ↔ ∀ id ∈ (s.queues cpu).queued, (s.queues cpu).registered id = false) := by
  obtain ⟨stolen, b', hloop, htheft, hleft⟩ := h.coherent.drainLoop []
  refine ⟨stolen, s.setQueue cpu b', fun fuel hfuel => ?_, fun i hi => setQueue_of_ne hi b', ?_⟩
  · rw [drainAll, dif_pos cpu.isLt, hloop fuel hfuel]
    rfl
  · rw [Drained, setQueue_self]
    constructor
    · rintro ⟨htaken, -⟩ id hid
      apply htheft.unregistered
      rw [htaken]
      exact hid
    · intro hfree
      have hempty : b'.queued = 0 := by
        apply Multiset.eq_zero_of_forall_notMem
        intro id hid
        -- what is left is registered, and was queued
        have hqueued : id ∈ (s.queues cpu).queued := by
          rw [← htheft.split]
          exact Multiset.mem_add.2 (.inl hid)
        have hboth := (hleft id hid).symm.trans (hfree id hqueued)
        exact Bool.noConfusion hboth
      refine ⟨?_, hempty⟩
      rw [← htheft.split, hempty, zero_add]

/-- One CPU with a task in its EEVDF queue. -/
def oneWaiting : PerCpuScheduler := (init 1 1).enqueue 7 0 0

theorem drain_all_drains_waiting : ∃ stolen s', (∃ fuel, oneWaiting.drainAll fuel 0 = some (stolen, s')) ∧
    Drained oneWaiting s' 0 stolen := by
  have hreach : (oneWaiting.queues 0).Reachable :=
    SchedulerBackend.reachable_of_run (.start (.inr ⟨1, rfl⟩)) [.enqueue 7 0] rfl
  obtain ⟨stolen, s', hloop, -, hdrained⟩ := drain_all_drains hreach
  exact ⟨stolen, s', ⟨_, hloop _ (Nat.lt_succ_self _)⟩, hdrained.2 fun _ _ => rfl⟩

/-- One CPU whose deadline queue holds a registered task. -/
def oneRegistered : PerCpuScheduler := (init 1 2).setQueue 0 (.deadline .oneTickQueued)

/-- Nothing comes out of it. -/
theorem registered_task_not_drained : (oneRegistered.queues 0).Reachable ∧
    ∃ stolen s', oneRegistered.drainAll 1 0 = some (stolen, s') ∧ ¬Drained oneRegistered s' 0 stolen := by
  refine ⟨SchedulerBackend.reachable_of_run (.start (.inr ⟨2, rfl⟩))
    [.registerDeadline 7 DeadlineScheduler.oneTick, .enqueue 7 0] rfl, ?_⟩
  have hstolen : (oneRegistered.drainAll 1 0).map Prod.fst = some [] := by decide +kernel
  obtain ⟨⟨stolen, s'⟩, hdrain, rfl⟩ := Option.map_eq_some_iff.1 hstolen
  refine ⟨[], s', hdrain, fun hdrained => ?_⟩
  have hqueued : (oneRegistered.queues 0).queued.card = 1 := by decide +kernel
  rw [← hdrained.1] at hqueued
  exact absurd hqueued (by decide)

end PerCpuScheduler

end SlateOS.Sched
