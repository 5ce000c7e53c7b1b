/-
# SlateOS.Sched.Backend -- one run queue, whichever algorithm it uses

`SchedulerBackend` of `kernel/src/sched/backend.rs`, and what its operations do to the multiset of queued
tasks. The round-robin queue may hold a task twice; the two others are keyed by task, and enqueueing a
task they hold replaces its entry.
-/
import SlateOS.Sched.DeadlineQueue
import SlateOS.Sched.EevdfRuns
import SlateOS.Sched.PriorityRrRuns

namespace SlateOS.Sched

open Foundation Foundation.Fifos

/-- `SchedulerBackend`. -/
inductive SchedulerBackend
  | priorityRR (s : PriorityRoundRobin)
  | eevdf (s : EevdfScheduler)
  | deadline (s : DeadlineScheduler)

namespace SchedulerBackend

/-- `new_const`: the round-robin queue, its slices not yet configured. -/
def newConst : SchedulerBackend := .priorityRR { PriorityRoundRobin.new with timeSlices := fun _ => 0 }

/-- `from_id`. -/
def fromId : Nat → SchedulerBackend
  | 1 => .eevdf .new
  | 2 => .deadline .new
  | _ => .priorityRR .new

/-- `pick_next_masked`. -/
def pickNextMasked (b : SchedulerBackend) (avoidBand : Bool) : Option TaskId × SchedulerBackend :=
  match b with
  | .priorityRR s => ((s.pickNextMasked avoidBand).1, .priorityRR (s.pickNextMasked avoidBand).2)
  | .eevdf s => (s.pickNext.1, .eevdf s.pickNext.2)
  | .deadline s => (s.pickNext.1, .deadline s.pickNext.2)

/-- `enqueue`. -/
def enqueue (b : SchedulerBackend) (id : TaskId) (priority : Nat) : SchedulerBackend :=
  match b with
  | .priorityRR s => .priorityRR (s.enqueue id priority)
  | .eevdf s => .eevdf (s.enqueue id priority)
  | .deadline s => .deadline (s.enqueue id priority)

/-- `dequeue`. -/
def dequeue (b : SchedulerBackend) (id : TaskId) (priority : Nat) : Bool × SchedulerBackend :=
  match b with
  | .priorityRR s => ((s.dequeue id priority).1, .priorityRR (s.dequeue id priority).2)
  | .eevdf s => ((s.dequeue id priority).1, .eevdf (s.dequeue id priority).2)
  | .deadline s => ((s.dequeue id priority).1, .deadline (s.dequeue id priority).2)

/-- `has_real_work`. -/
def hasRealWork : SchedulerBackend → Bool
  | .priorityRR s => s.hasRealWork
  | .eevdf s => s.hasRealWork
  | .deadline s => s.hasRealWork

/-- `total_tasks`. -/
def totalTasks : SchedulerBackend → Nat
  | .priorityRR s => s.totalTasks
  | .eevdf s => s.totalTasks
  | .deadline s => s.totalTasks

/-- `steal`. -/
def steal (b : SchedulerBackend) (count : Nat) : StolenTasks × SchedulerBackend :=
  match b with
  | .priorityRR s => ((s.steal count).1, .priorityRR (s.steal count).2)
  | .eevdf s => ((s.steal count).1, .eevdf (s.steal count).2)
  | .deadline s => ((s.steal count).1, .deadline (s.steal count).2)

/-! ## The queued tasks -/

/-- The tasks named by the keys of a tree. -/
def treeTasks {V : Type} (t : Std.TreeMap TimeKey V) : Multiset TaskId :=
  (t.keys : Multiset TimeKey).map fun k => (ofLex k).2

/-- The queued tasks, with multiplicity. -/
def queued : SchedulerBackend → Multiset TaskId
  | .priorityRR s => items s.queues
  | .eevdf s => treeTasks s.tree
  | .deadline s => treeTasks s.tree

/-- The round-robin backend. -/
def roundRobin : SchedulerBackend → Bool
  | .priorityRR _ => true
  | .eevdf _ | .deadline _ => false

/-- The backend's own invariant. -/
def Sound : SchedulerBackend → Prop
  | .priorityRR s => s.Mirrors
  | .eevdf s => ∃ q, s.Settled q
  | .deadline s => ∃ q, s.Represents q

/-- The tree holds one key for each task that has a deadline in `q`. -/
theorem treeTasks_spec {V : Type} {t : Std.TreeMap TimeKey V} {q : TaskId → Option Nat}
    (h : ∀ k : TimeKey, k ∈ t ↔ q (ofLex k).2 = some (ofLex k).1) :
    (treeTasks t).Nodup ∧ ∀ i, i ∈ treeTasks t ↔ q i ≠ none := by
  constructor
  · refine Multiset.Nodup.map_on ?_ (Multiset.coe_nodup.2 (OrderedMap.nodup_keys t))
    intro a ha b hb hab
    have hqa := (h a).1 (OrderedMap.mem_keys.1 ha)
    rw [hab, (h b).1 (OrderedMap.mem_keys.1 hb)] at hqa
    exact congrArg toLex (Prod.ext (Option.some.inj hqa).symm hab)
  · intro i
    constructor
    · intro hi
      obtain ⟨k, hk, rfl⟩ := Multiset.mem_map.1 hi
      rw [(h k).1 (OrderedMap.mem_keys.1 hk)]
      simp
    · intro hi
      obtain ⟨d, hd⟩ := Option.ne_none_iff_exists'.1 hi
      refine Multiset.mem_map.2 ⟨toLex (d, i), ?_, rfl⟩
      exact OrderedMap.mem_keys.2 ((h (toLex (d, i))).2 hd)

theorem eevdf_queued {s : EevdfScheduler} {q : EevdfScheduler.Queue} (h : s.Settled q) :
    (queued (.eevdf s)).Nodup ∧ ∀ i, i ∈ queued (.eevdf s) ↔ q i ≠ none := by
  have hkeys : ∀ k : TimeKey, k ∈ s.tree ↔
      ((q (ofLex k).2).map EevdfEntry.deadline) = some (ofLex k).1 := by
    intro k
    rw [h.represents.mem_tree, Option.map_eq_some_iff]
  obtain ⟨hnodup, hmem⟩ := treeTasks_spec (q := fun i => (q i).map EevdfEntry.deadline) hkeys
  exact ⟨hnodup, fun i => (hmem i).trans (by simp)⟩

theorem deadline_queued {s : DeadlineScheduler} {q : TaskId → Option Nat} (h : s.Represents q) :
    (queued (.deadline s)).Nodup ∧ ∀ i, i ∈ queued (.deadline s) ↔ q i ≠ none :=
  treeTasks_spec h.tree

variable {b : SchedulerBackend}

/-- What left a duplicate-free multiset and what stayed make it up. -/
theorem add_eq_of_nodup {before after gone : Multiset TaskId} (hbefore : before.Nodup)
    (hafter : after.Nodup) (hgone : gone.Nodup)
    (hmem : ∀ i, i ∈ after ↔ i ∈ before ∧ i ∉ gone) (hsub : ∀ i ∈ gone, i ∈ before) :
    after + gone = before := by
  have hdisjoint : Disjoint after gone :=
    Multiset.disjoint_left.2 fun hi hi' => ((hmem _).1 hi).2 hi'
  refine (Multiset.Nodup.ext (Multiset.nodup_add.2 ⟨hafter, hgone, hdisjoint⟩) hbefore).2 ?_
  intro i
  rw [Multiset.mem_add, hmem]
  constructor
  · rintro (hi | hi)
    · exact hi.1
    · exact hsub i hi
  · intro hi
    by_cases hg : i ∈ gone
    · exact .inr hg
    · exact .inl ⟨hi, hg⟩

/-- An enqueue adds one entry, if the backend may hold a task twice or does not hold this one. -/
theorem Sound.enqueue (h : b.Sound) {id : TaskId} (priority : Nat)
    (hnew : b.roundRobin = true ∨ id ∉ b.queued) :
    (b.enqueue id priority).Sound ∧ (b.enqueue id priority).queued = id ::ₘ b.queued := by
  match b, h, hnew with
  | .priorityRR s, h, _ =>
    exact ⟨PriorityRoundRobin.Mirrors.enqueue h id priority, items_push _ _ _⟩
  | .eevdf s, ⟨q, hq⟩, .inr hnew =>
    obtain ⟨⟨q', hq', hw⟩, -⟩ := hq.enqueue id priority
    refine ⟨⟨q', hq'⟩, ?_⟩
    refine (Multiset.Nodup.ext (eevdf_queued hq').1
      (Multiset.nodup_cons.2 ⟨hnew, (eevdf_queued hq).1⟩)).2 fun i => ?_
    rw [(eevdf_queued hq').2, Multiset.mem_cons, (eevdf_queued hq).2]
    exact hw i
  | .deadline s, ⟨q, hq⟩, .inr hnew =>
    obtain ⟨q', hq', hw⟩ := hq.enqueue id priority
    refine ⟨⟨q', hq'⟩, ?_⟩
    refine (Multiset.Nodup.ext (deadline_queued hq').1
      (Multiset.nodup_cons.2 ⟨hnew, (deadline_queued hq).1⟩)).2 fun i => ?_
    rw [(deadline_queued hq').2, Multiset.mem_cons, (deadline_queued hq).2]
    exact hw i

/-- A dequeue removes every entry of the task. -/
theorem Sound.dequeue (h : b.Sound) (id : TaskId) (priority : Nat) :
    (b.dequeue id priority).2.Sound ∧
      (b.dequeue id priority).2.queued = b.queued.filter (· ≠ id) := by
  match b, h with
  | .priorityRR s, h =>
    obtain ⟨hm, hq, -⟩ := PriorityRoundRobin.Mirrors.dequeue_spec h id priority
    refine ⟨hm, ?_⟩
    show items (s.dequeue id priority).2.queues = _
    rw [hq]
    exact items_withdraw _ _
  | .eevdf s, ⟨q, hq⟩ =>
    obtain ⟨⟨q', hq', hw⟩, -⟩ := hq.dequeue id priority
    refine ⟨⟨q', hq'⟩, ?_⟩
    refine (Multiset.Nodup.ext (eevdf_queued hq').1
      ((eevdf_queued hq).1.filter _)).2 fun i => ?_
    rw [(eevdf_queued hq').2, Multiset.mem_filter, (eevdf_queued hq).2, and_comm]
    exact hw i
  | .deadline s, ⟨q, hq⟩ =>
    obtain ⟨q', hq', hw⟩ := hq.dequeue id priority
    refine ⟨⟨q', hq'⟩, ?_⟩
    refine (Multiset.Nodup.ext (deadline_queued hq').1
      ((deadline_queued hq).1.filter _)).2 fun i => ?_
    rw [(deadline_queued hq').2, Multiset.mem_filter, (deadline_queued hq).2, and_comm]
    exact hw i

/-- The task an option holds, as a multiset. -/
def asked (id : Option TaskId) : Multiset TaskId := id.elim 0 ({·})

theorem mem_asked {id : Option TaskId} {i : TaskId} : i ∈ asked id ↔ id = some i := by
  cases id with
  | none => simp [asked]
  | some j => simp [asked, eq_comm]

theorem nodup_asked (id : Option TaskId) : (asked id).Nodup := by
  cases id with
  | none => exact Multiset.nodup_zero
  | some j => exact Multiset.nodup_singleton j

/-- A pick removes the entry it returns. -/
theorem Sound.pick (h : b.Sound) (avoidBand : Bool) :
    (b.pickNextMasked avoidBand).2.Sound ∧
      (b.pickNextMasked avoidBand).2.queued + asked (b.pickNextMasked avoidBand).1 = b.queued := by
  match b, h with
  | .priorityRR s, h =>
    refine ⟨PriorityRoundRobin.Mirrors.pickNextMasked h avoidBand, ?_⟩
    have heq := Prod.mk.inj (PriorityRoundRobin.Mirrors.pickNextMasked_eq h avoidBand)
    show items (s.pickNextMasked avoidBand).2.queues + asked (s.pickNextMasked avoidBand).1 = _
    rw [heq.1, heq.2]
    exact items_serve _ _
  | .eevdf s, ⟨q, hq⟩ =>
    obtain ⟨⟨q', hq', hw⟩, -⟩ := hq.pickNext
    refine ⟨⟨q', hq'⟩, add_eq_of_nodup (eevdf_queued hq).1 (eevdf_queued hq').1
      (nodup_asked _) (fun i => ?_) fun i hi => ?_⟩
    · show i ∈ queued (.eevdf s.pickNext.2) ↔ i ∈ queued (.eevdf s) ∧ i ∉ asked s.pickNext.1
      rw [(eevdf_queued hq').2, (eevdf_queued hq).2, mem_asked]
      exact hw i
    · rw [mem_asked] at hi
      rw [(eevdf_queued hq).2]
      exact hq.picked_waits hi
  | .deadline s, ⟨q, hq⟩ =>
    obtain ⟨q', hq', hw, hpicked⟩ := hq.pickNext
    refine ⟨⟨q', hq'⟩, add_eq_of_nodup (deadline_queued hq).1 (deadline_queued hq').1
      (nodup_asked _) (fun i => ?_) fun i hi => ?_⟩
    · show i ∈ queued (.deadline s.pickNext.2) ↔ i ∈ queued (.deadline s) ∧ i ∉ asked s.pickNext.1
      rw [(deadline_queued hq').2, (deadline_queued hq).2, mem_asked]
      exact hw i
    · rw [mem_asked] at hi
      rw [(deadline_queued hq).2]
      exact hpicked i hi

/-- The tasks a theft records. -/
def taken (stolen : StolenTasks) : Multiset TaskId := (stolen.map Prod.fst : List TaskId)

/-- A theft removes the entries it records. -/
theorem Sound.steal (h : b.Sound) (count : Nat) :
    (b.steal count).2.Sound ∧ (b.steal count).2.queued + taken (b.steal count).1 = b.queued ∧
      (b.steal count).1.length ≤ maxSteal := by
  match b, h with
  | .priorityRR s, h =>
    obtain ⟨h1, h2, h3⟩ := PriorityRoundRobin.Mirrors.steal_spec h count
    refine ⟨h3, ?_, ?_⟩
    · show items (s.steal count).2.queues + taken (s.steal count).1 = _
      rw [h1, h2]
      have hfst : ((PriorityRoundRobin.recorded (takeBack (List.finRange numPriorities)
          (min count maxSteal) s.queues).1).map Prod.fst)
          = (takeBack (List.finRange numPriorities) (min count maxSteal) s.queues).1.map
            Prod.fst := by
        simp [PriorityRoundRobin.recorded]
      rw [taken, hfst]
      exact items_takeBack _ _ _
    · show (s.steal count).1.length ≤ maxSteal
      rw [h1, PriorityRoundRobin.recorded, List.length_map,
        length_takeBack (List.nodup_finRange _)]
      omega
  | .eevdf s, ⟨q, hq⟩ =>
    obtain ⟨⟨⟨q', hq', hw⟩, -⟩, hnodup, hlen, hpresent⟩ := hq.steal count
    refine ⟨⟨q', hq'⟩, add_eq_of_nodup (eevdf_queued hq).1 (eevdf_queued hq').1
      (Multiset.coe_nodup.2 hnodup) (fun i => ?_) (fun i hi => ?_), hlen⟩
    · show i ∈ queued (.eevdf (s.steal count).2) ↔
        i ∈ queued (.eevdf s) ∧ i ∉ taken (s.steal count).1
      rw [(eevdf_queued hq').2, (eevdf_queued hq).2]
      exact hw i
    · rw [(eevdf_queued hq).2]
      exact hpresent i hi
  | .deadline s, ⟨q, hq⟩ =>
    obtain ⟨⟨q', hq', hw⟩, hnodup, hlen, hpresent⟩ := hq.steal count
    refine ⟨⟨q', hq'⟩, add_eq_of_nodup (deadline_queued hq).1 (deadline_queued hq').1
      (Multiset.coe_nodup.2 hnodup) (fun i => ?_) (fun i hi => ?_), hlen⟩
    · show i ∈ queued (.deadline (s.steal count).2) ↔
        i ∈ queued (.deadline s) ∧ i ∉ taken (s.steal count).1
      rw [(deadline_queued hq').2, (deadline_queued hq).2]
      exact hw i
    · rw [(deadline_queued hq).2]
      exact hpresent i hi

theorem roundRobin_enqueue (id : TaskId) (priority : Nat) :
    (b.enqueue id priority).roundRobin = b.roundRobin := by
  cases b <;> rfl

theorem roundRobin_dequeue (id : TaskId) (priority : Nat) :
    (b.dequeue id priority).2.roundRobin = b.roundRobin := by
  cases b <;> rfl

theorem roundRobin_pick (avoidBand : Bool) :
    (b.pickNextMasked avoidBand).2.roundRobin = b.roundRobin := by
  cases b <;> rfl

theorem roundRobin_steal (count : Nat) : (b.steal count).2.roundRobin = b.roundRobin := by
  cases b <;> rfl

end SchedulerBackend

end SlateOS.Sched
