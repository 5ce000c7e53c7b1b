/-
# SlateOS.Sched.DeadlineQueue -- the queue of deadline entries and what each call does to it

The tree and the deadline index are views of one queue `q` from task to entry. For each operation an
inductive relation lists what it can do to the scheduler and to `q`; every invariant of the scheduler is
proved from these, never from the code.
-/
import SlateOS.Foundation.OrderedMap
import SlateOS.Sched.Deadline

namespace SlateOS.Sched

open Foundation Foundation.MachineInt
open Function (update update_self update_of_ne)

namespace DeadlineScheduler

/-- The waiting tasks and their entries. -/
abbrev Queue := TaskId → Option DeadlineEntry

/-- The maps are views of the queue `q`, in which an entry names its task. -/
structure Indexed (s : DeadlineScheduler) (q : Queue) : Prop where
  views : IndexedQueue.Views DeadlineEntry.absDeadline s.tree s.deadlines q
  ids : ∀ i e, q i = some e → e.id = i

variable {s t : DeadlineScheduler} {q : Queue}

theorem indexed_new : new.Indexed fun _ => none where
  views := IndexedQueue.Views.empty _
  ids := by simp

theorem Indexed.congr (h : s.Indexed q) (htree : t.tree = s.tree)
    (hdeadlines : t.deadlines = s.deadlines) : t.Indexed q :=
  ⟨htree ▸ hdeadlines ▸ h.views, h.ids⟩

variable {i : TaskId}

/-- One entry leaves both maps. -/
theorem Indexed.erase (h : s.Indexed q) {e : DeadlineEntry} (he : q i = some e)
    (htree : t.tree = s.tree.erase (toLex (e.absDeadline, i)))
    (hdeadlines : t.deadlines = s.deadlines.erase i) : t.Indexed (update q i none) where
  views := htree ▸ hdeadlines ▸ h.views.erase he
  ids := by
    intro j e' he'
    by_cases hj : j = i
    · rw [hj, update_self] at he'
      exact absurd he' (by simp)
    · rw [update_of_ne hj] at he'
      exact h.ids j e' he'

/-- The entry of a task that does not wait joins both maps. -/
theorem Indexed.insert (h : s.Indexed q) {e : DeadlineEntry} (hnew : q e.id = none)
    (htree : t.tree = s.tree.insert (toLex (e.absDeadline, e.id)) e)
    (hdeadlines : t.deadlines = s.deadlines.insert e.id e.absDeadline) :
    t.Indexed (update q e.id (some e)) where
  views := htree ▸ hdeadlines ▸ h.views.insert hnew e
  ids := by
    intro j e' he'
    by_cases hj : j = e.id
    · rw [hj, update_self] at he'
      rw [hj, Option.some.inj he']
    · rw [update_of_ne hj] at he'
      exact h.ids j e' he'

/-! ## Enqueue -/

/-- The deadline task that the CPU runs. -/
def Running (s : DeadlineScheduler) (id : TaskId) : Prop :=
  s.currentId = id ∧ s.currentIsDeadline = true

/-- Only the queue and its counter differ: the timers and the running task are the same. -/
def SameTimers (s t : DeadlineScheduler) : Prop :=
  ∃ tree deadlines nrRunning, t = { s with tree, deadlines, nrRunning }

theorem SameTimers.trans {u : DeadlineScheduler} (hst : SameTimers s t) (htu : SameTimers t u) :
    SameTimers s u := by
  obtain ⟨tree, deadlines, nrRunning, rfl⟩ := hst
  obtain ⟨tree', deadlines', nrRunning', rfl⟩ := htu
  exact ⟨tree', deadlines', nrRunning', rfl⟩

theorem dropStale_spec (h : s.Indexed q) (id : TaskId) :
    (s.dropStale id).Indexed (update q id none) ∧ SameTimers s (s.dropStale id) := by
  have hindex := h.views.index id
  unfold dropStale
  cases hq : q id with
  | none =>
    have hsame : update q id none = q := by
      rw [← hq, Function.update_eq_self]
    rw [hindex, hq, hsame]
    exact ⟨h, s.tree, s.deadlines, s.nrRunning, rfl⟩
  | some e =>
    rw [hindex, hq]
    exact ⟨h.erase hq rfl rfl, _, _, _, rfl⟩

/-- What `enqueue` does: the running deadline task is put back with what is left of its budget, another
registered task starts with a full budget, an unregistered one with the slice of its level. -/
inductive Enqueued (s : DeadlineScheduler) (q : Queue) (id : TaskId) :
    DeadlineScheduler → Queue → Prop
  | putBack (tree deadlines nrRunning) (e : DeadlineEntry) (hrun : s.Running id) (hid : e.id = id)
      (hbudget : e.remainingBudget = s.currentRemaining) :
      Enqueued s q id
        { s with tree, deadlines, nrRunning, currentId := 0, currentIsDeadline := false }
        (update q id (some e))
  | activated (tree deadlines nrRunning) (e : DeadlineEntry) (params : DeadlineParams)
      (hrun : ¬s.Running id) (hid : e.id = id) (hparams : s.params[id]? = some params)
      (hbudget : e.remainingBudget = params.budgetTicks) :
      Enqueued s q id { s with tree, deadlines, nrRunning } (update q id (some e))
  | bestEffort (tree deadlines nrRunning) (e : DeadlineEntry) (hrun : ¬s.Running id) (hid : e.id = id)
      (hparams : s.params[id]? = none) :
      Enqueued s q id { s with tree, deadlines, nrRunning } (update q id (some e))

/-- The entry `enqueue` makes, once a stale one is gone and the deadline is chosen. -/
def freshEntry (placed : (Nat × Nat) × DeadlineScheduler) (id : TaskId) (priority : Nat) :
    DeadlineEntry where
  id := id
  priority := priority
  absDeadline := placed.1.1
  remainingBudget := placed.1.2
  params := placed.2.params[id]?.getD (placed.2.bestEffort placed.1.1 placed.1.2)
  periodStart := placed.2.currentTick

theorem enqueue_eq (s : DeadlineScheduler) (id : TaskId) (priority : Nat) :
    s.enqueue id priority =
      ((s.dropStale id).activation id priority).2.addEntry
        (freshEntry ((s.dropStale id).activation id priority) id priority) := rfl

theorem Indexed.enqueue (h : s.Indexed q) (id : TaskId) (priority : Nat) :
    ∃ q', (s.enqueue id priority).Indexed q' ∧ Enqueued s q id (s.enqueue id priority) q' := by
  obtain ⟨hdrop, tree, deadlines, nrRunning, hsame⟩ := dropStale_spec h id
  have hnew : update q id none id = none := update_self ..
  have hupdate : ∀ e, update (update q id none) id (some e) =
      update q id (some e) := fun e => Function.update_idem ..
  rw [enqueue_eq]
  unfold activation
  rw [hsame] at hdrop ⊢
  split
  next hrun =>
    refine ⟨_, hdrop.insert (e := freshEntry _ id priority) hnew rfl rfl, ?_⟩
    rw [show (freshEntry _ id priority).id = id from rfl, hupdate]
    exact .putBack _ _ _ _ hrun rfl rfl
  next hrun =>
  split
  next params hparams =>
    refine ⟨_, hdrop.insert (e := freshEntry _ id priority) hnew rfl rfl, ?_⟩
    rw [show (freshEntry _ id priority).id = id from rfl, hupdate]
    exact .activated _ _ _ _ params hrun rfl hparams rfl
  next hparams =>
  refine ⟨_, hdrop.insert (e := freshEntry _ id priority) hnew rfl rfl, ?_⟩
  rw [show (freshEntry _ id priority).id = id from rfl, hupdate]
  exact .bestEffort _ _ _ _ hrun rfl hparams

variable {id : TaskId} {q' : Queue}

theorem Enqueued.waits (h : Enqueued s q id t q') :
    q' i ≠ none ↔ i = id ∨ q i ≠ none := by
  by_cases hi : i = id
  · cases h <;> simp [hi]
  · cases h <;> simp [hi]

/-- The timers that `enqueue` leaves alone. -/
theorem Enqueued.timers (h : Enqueued s q id t q') :
    t.params = s.params ∧ t.throttled = s.throttled ∧ t.currentTick = s.currentTick := by
  cases h <;> exact ⟨rfl, rfl, rfl⟩

theorem Enqueued.of_ne (h : Enqueued s q id t q') (hi : i ≠ id) :
    q' i = q i := by
  cases h <;> exact update_of_ne hi _ _

/-- An enqueue makes no task the running one. -/
theorem Enqueued.still_running (h : Enqueued s q id t q')
    (hi : t.Running i) : s.Running i ∧ t.currentRemaining = s.currentRemaining := by
  cases h with
  | putBack => exact absurd hi.2 Bool.false_ne_true
  | activated => exact ⟨hi, rfl⟩
  | bestEffort => exact ⟨hi, rfl⟩

/-- The task that runs as a deadline task runs on when another one is enqueued. -/
theorem Enqueued.runs_on (h : Enqueued s q id t q') (hne : i ≠ id)
    (hi : s.Running i) : t.Running i := by
  cases h with
  | putBack _ _ _ _ hrun => exact absurd (hi.1.symm.trans hrun.1) hne
  | activated => exact hi
  | bestEffort => exact hi

/-! ## Pick -/

/-- The part of `pick_next` after the replenishment. -/
def popFirst (s : DeadlineScheduler) : Option TaskId × DeadlineScheduler :=
  if s.tree.isEmpty then (none, s)
  else
    match s.tree.minKey? with
    | none => (none, s)
    | some key =>
      match s.tree[key]? with
      | none => (none, s)
      | some entry =>
        let isDeadline := s.params.contains entry.id
        (some entry.id,
          { s with
            tree := s.tree.erase key
            deadlines := s.deadlines.erase entry.id
            nrRunning := s.nrRunning - 1
            currentId := entry.id
            currentPriority := entry.priority
            currentIsDeadline := isDeadline
            currentAbsDeadline := entry.absDeadline
            currentRemaining :=
              if isDeadline then entry.remainingBudget
              else s.timeSlices (levelOf entry.priority) })

theorem pickNext_eq (s : DeadlineScheduler) : s.pickNext = s.replenishThrottled.popFirst := rfl

/-- The scheduler after the first entry of its tree is picked. -/
def run (s : DeadlineScheduler) (key : TimeKey) (entry : DeadlineEntry) : DeadlineScheduler :=
  { s with
    tree := s.tree.erase key
    deadlines := s.deadlines.erase entry.id
    nrRunning := s.nrRunning - 1
    currentId := entry.id
    currentPriority := entry.priority
    currentIsDeadline := s.params.contains entry.id
    currentAbsDeadline := entry.absDeadline
    currentRemaining :=
      if s.params.contains entry.id then entry.remainingBudget
      else s.timeSlices (levelOf entry.priority) }

/-- The pick by the order of the tree, which evaluates. -/
theorem popFirst_of_head {key : TimeKey} {entry : DeadlineEntry}
    (h : s.tree.toList.head? = some (key, entry)) : s.popFirst = (some entry.id, s.run key entry) := by
  have hget : s.tree[key]? = some entry :=
    OrderedMap.mem_toList.1 (List.mem_of_mem_head? h)
  have hmin : s.tree.minKey? = some key := by
    rw [Std.TreeMap.minKey?_eq_head?_keys, ← Std.TreeMap.map_fst_toList_eq_keys, List.head?_map, h]
    rfl
  have hnonempty : ¬s.tree.isEmpty = true := by
    intro hempty
    exact Std.TreeMap.not_mem_of_isEmpty hempty (OrderedMap.mem_iff.2 ⟨entry, hget⟩)
  unfold popFirst
  rw [if_neg hnonempty, hmin]
  simp only [hget]
  rfl

theorem pickNext_of_head {key : TimeKey} {entry : DeadlineEntry}
    (h : s.replenishThrottled.tree.toList.head? = some (key, entry)) :
    s.pickNext = (some entry.id, s.replenishThrottled.run key entry) := by
  rw [pickNext_eq, popFirst_of_head h]

/-- What the pick does: nothing, or it makes a waiting task the running one. -/
inductive Picked (s : DeadlineScheduler) (q : Queue) : Option TaskId → DeadlineScheduler → Queue → Prop
  | idle : Picked s q none s q
  | task (tree deadlines nrRunning currentRemaining) (e : DeadlineEntry) (he : q e.id = some e)
      (hbudget : s.params.contains e.id = true → currentRemaining = e.remainingBudget) :
      Picked s q (some e.id)
        { s with
          tree, deadlines, nrRunning, currentRemaining
          currentId := e.id
          currentPriority := e.priority
          currentIsDeadline := s.params.contains e.id
          currentAbsDeadline := e.absDeadline }
        (update q e.id none)

theorem Indexed.popFirst (h : s.Indexed q) :
    ∃ q', s.popFirst.2.Indexed q' ∧ Picked s q s.popFirst.1 s.popFirst.2 q' := by
  unfold DeadlineScheduler.popFirst
  split
  · exact ⟨q, h, .idle⟩
  · split
    · exact ⟨q, h, .idle⟩
    next key _ =>
    split
    · exact ⟨q, h, .idle⟩
    next e he =>
    obtain ⟨hq, hkey⟩ := (h.views.tree key e).1 he
    have hid : e.id = (ofLex key).2 := h.ids _ e hq
    rw [← hid] at hq
    have hlex : key = toLex (e.absDeadline, e.id) :=
      IndexedQueue.eq_toLex_iff.2 ⟨hkey.symm, hid.symm⟩
    refine ⟨_, h.erase hq (by rw [← hlex]) rfl, .task _ _ _ _ e hq ?_⟩
    intro hdeadline
    exact if_pos hdeadline

theorem Picked.waits {picked : Option TaskId} (h : Picked s q picked t q') (i : TaskId) :
    (q' i ≠ none ↔ q i ≠ none ∧ picked ≠ some i) ∧ (picked = some i → q i ≠ none) := by
  cases h with
  | idle => simp
  | task _ _ _ _ e he =>
    by_cases hi : i = e.id
    · rw [hi, update_self, he]
      simp
    · rw [update_of_ne hi]
      simp [hi, eq_comm]

theorem Picked.throttled {picked : Option TaskId} (h : Picked s q picked t q') :
    t.throttled = s.throttled := by
  cases h <;> rfl

/-! ## Dequeue -/

/-- What `dequeue` does: the entry of the task goes; without one, the CPU stops running the task. -/
inductive Dequeued (s : DeadlineScheduler) (q : Queue) (id : TaskId) :
    DeadlineScheduler → Queue → Prop
  | queued (tree deadlines nrRunning) (hq : q id ≠ none) :
      Dequeued s q id { s with tree, deadlines, nrRunning } (update q id none)
  | stopped (hq : q id = none) (hrun : s.currentId = id) :
      Dequeued s q id { s with currentId := 0, currentRemaining := 0, currentIsDeadline := false } q
  | absent (hq : q id = none) (hrun : s.currentId ≠ id) : Dequeued s q id s q

theorem Indexed.dequeue (h : s.Indexed q) (id : TaskId) (priority : Nat) :
    ∃ q', (s.dequeue id priority).2.Indexed q' ∧ Dequeued s q id (s.dequeue id priority).2 q' := by
  have hindex := h.views.index id
  unfold DeadlineScheduler.dequeue
  cases hq : q id with
  | none =>
    rw [hindex, hq]
    refine ⟨q, ?_⟩
    show (s.dequeueCurrent id).2.Indexed q ∧ Dequeued s q id (s.dequeueCurrent id).2 q
    unfold dequeueCurrent
    split
    next hrun => exact ⟨h.congr rfl rfl, .stopped hq hrun⟩
    next hrun => exact ⟨h, .absent hq hrun⟩
  | some e =>
    rw [hindex, hq]
    simp only [Option.map_some, if_pos (h.views.key_mem hq)]
    refine ⟨_, h.erase hq rfl rfl, .queued _ _ _ ?_⟩
    rw [hq]
    simp

theorem Dequeued.waits (h : Dequeued s q id t q') :
    q' i ≠ none ↔ i ≠ id ∧ q i ≠ none := by
  by_cases hi : i = id
  · cases h with
    | queued => simp [hi]
    | stopped hq => simp [hi, hq]
    | absent hq => simp [hi, hq]
  · cases h <;> simp [hi]

theorem Dequeued.throttled (h : Dequeued s q id t q') :
    t.throttled = s.throttled := by
  cases h <;> rfl

/-! ## Tick -/

/-- What `tick` does: time passes; a running task is charged, and a deadline task whose budget is spent
stops running and, if it is registered, is throttled. -/
inductive Ticked (s : DeadlineScheduler) : DeadlineScheduler → Prop
  | idle (hrun : s.currentId = 0) :
      Ticked s { s with currentTick := saturatingAdd 64 s.currentTick 1 }
  | charged (hrun : s.currentId ≠ 0)
      (hleft : s.currentIsDeadline = true → s.currentRemaining - 1 ≠ 0) :
      Ticked s { s with
        currentTick := saturatingAdd 64 s.currentTick 1
        currentRemaining := s.currentRemaining - 1 }
  | throttled (params : DeadlineParams) (deadline nextPeriod : Nat) (hrun : s.currentId ≠ 0)
      (hdeadline : s.currentIsDeadline = true) (hspent : s.currentRemaining - 1 = 0)
      (hparams : s.params[s.currentId]? = some params)
      (hnext : nextPeriod = saturatingAdd 64 (saturatingAdd 64 s.currentTick 1) params.periodTicks) :
      Ticked s { s with
        currentTick := saturatingAdd 64 s.currentTick 1
        currentRemaining := s.currentRemaining - 1
        throttled := s.throttled.insert s.currentId (deadline, nextPeriod)
        currentId := 0
        currentIsDeadline := false }
  | ended (hrun : s.currentId ≠ 0) (hdeadline : s.currentIsDeadline = true)
      (hspent : s.currentRemaining - 1 = 0) (hparams : s.params[s.currentId]? = none) :
      Ticked s { s with
        currentTick := saturatingAdd 64 s.currentTick 1
        currentRemaining := s.currentRemaining - 1
        currentId := 0
        currentIsDeadline := false }

theorem tick_ticked (s : DeadlineScheduler) : Ticked s s.tick.2 := by
  unfold tick
  simp only
  split
  next hrun => exact .idle hrun
  next hrun =>
  split
  next hspent =>
    split
    next hdeadline =>
      unfold throttleCurrent
      split
      next hparams => exact .ended hrun hdeadline hspent hparams
      next params hparams => exact .throttled params _ _ hrun hdeadline hspent hparams rfl
    next hdeadline => exact .charged hrun fun hd => absurd hd hdeadline
  next hleft => exact .charged hrun fun _ => hleft

theorem Indexed.tick (h : s.Indexed q) : s.tick.2.Indexed q := by
  have ht := s.tick_ticked
  revert ht
  generalize s.tick.2 = t
  intro ht
  cases ht <;> exact h.congr rfl rfl

/-! ## Replenishment -/

/-- **The rule of the replenishment.** It enqueues tasks whose recorded period has begun, one by one, and
each is taken off the throttled tasks first. -/
theorem replenish_rule {P : DeadlineScheduler → Prop} (h : P s)
    (hstep : ∀ t id deadline nextPeriod, s.throttled[id]? = some (deadline, nextPeriod) →
      nextPeriod ≤ s.currentTick → P t →
      P ({ t with throttled := t.throttled.erase id }.enqueue id 0)) : P s.replenishThrottled := by
  unfold replenishThrottled
  have hready : ∀ r ∈ (s.throttled.toList.filter fun t => decide (s.currentTick ≥ t.2.2)).take 32,
      s.throttled[r.1]? = some r.2 ∧ r.2.2 ≤ s.currentTick := by
    intro r hr
    obtain ⟨hmem, hdue⟩ := List.mem_filter.1 (List.mem_of_mem_take hr)
    exact ⟨OrderedMap.mem_toList.1 hmem, of_decide_eq_true hdue⟩
  generalize (s.throttled.toList.filter fun t => decide (s.currentTick ≥ t.2.2)).take 32 = ready
    at hready
  show P (ready.foldl (fun s t => { s with throttled := s.throttled.erase t.1 }.enqueue t.1 0) s)
  -- the rounds start from any state that the earlier ones have led to
  suffices hrounds : ∀ t, P t →
      P (ready.foldl (fun s t => { s with throttled := s.throttled.erase t.1 }.enqueue t.1 0) t) from
    hrounds s h
  clear h
  induction ready with
  | nil => exact fun t ht => ht
  | cons r ready ih =>
    intro t ht
    obtain ⟨hr, hdue⟩ := hready r List.mem_cons_self
    exact ih (fun r' hr' => hready r' (List.mem_cons_of_mem _ hr')) _
      (hstep t r.1 r.2.1 r.2.2 hr hdue ht)

theorem replenish_of_isEmpty (h : s.throttled.isEmpty = true) : s.replenishThrottled = s := by
  apply replenish_rule (P := (· = s)) rfl
  intro t id deadline nextPeriod hid
  have hmem : id ∈ s.throttled := OrderedMap.mem_iff.2 ⟨_, hid⟩
  exact absurd hmem (Std.TreeMap.not_mem_of_isEmpty h)

/-! ## Steal -/

theorem Indexed.stealKeys {keys : List TimeKey} (h : s.Indexed q) (hnodup : keys.Nodup)
    (hkeys : ∀ k ∈ keys, k ∈ s.tree) (stolen : StolenTasks)
    (hroom : stolen.length + keys.length ≤ maxSteal) :
    ∃ taken : StolenTasks, (stealKeys keys stolen s).1 = stolen ++ taken ∧
      taken.map Prod.fst = keys.map (fun k => (ofLex k).2) ∧
      (stealKeys keys stolen s).2.Indexed
        (fun i => if i ∈ keys.map (fun k => (ofLex k).2) then none else q i) ∧
      SameTimers s (stealKeys keys stolen s).2 := by
  induction keys generalizing s q stolen with
  | nil => exact ⟨[], by simp [DeadlineScheduler.stealKeys], rfl,
      by simpa [DeadlineScheduler.stealKeys] using h, s.tree, s.deadlines, s.nrRunning, rfl⟩
  | cons key keys ih =>
    obtain ⟨hkey, hkeys'⟩ := List.nodup_cons.1 hnodup
    have hmem := hkeys key List.mem_cons_self
    obtain ⟨e, he⟩ := OrderedMap.mem_iff.1 hmem
    obtain ⟨hq, hrank⟩ := (h.views.tree key e).1 he
    have hid : e.id = (ofLex key).2 := h.ids _ e hq
    have hlex : key = toLex (e.absDeadline, (ofLex key).2) :=
      IndexedQueue.eq_toLex_iff.2 ⟨hrank.symm, rfl⟩
    have hrest : ({ s with
        tree := s.tree.erase key, deadlines := s.deadlines.erase e.id
        nrRunning := s.nrRunning - 1 } :
        DeadlineScheduler).Indexed (update q (ofLex key).2 none) :=
      h.erase hq (by rw [← hlex]) (by rw [hid])
    rw [DeadlineScheduler.stealKeys]
    simp only [he]
    rw [StolenTasks.push_of_lt (show stolen.length < maxSteal by simp at hroom; omega)]
    obtain ⟨taken, h1, h2, h3, h4⟩ := ih hrest hkeys' (fun k hk =>
      (OrderedMap.mem_erase _ _ _).2
        ⟨ne_of_mem_of_not_mem hk hkey, hkeys k (List.mem_cons_of_mem _ hk)⟩)
      (stolen ++ [(e.id, e.priority)]) (by simp at hroom ⊢; omega)
    refine ⟨(e.id, e.priority) :: taken, by rw [h1]; simp, by simp [h2, hid], ?_,
      SameTimers.trans ⟨_, _, _, rfl⟩ h4⟩
    have hq' : (fun i => if i ∈ (key :: keys).map (fun k => (ofLex k).2) then none else q i)
        = fun i => if i ∈ keys.map (fun k => (ofLex k).2) then none
            else update q (ofLex key).2 none i := by
      funext i
      by_cases hi : i = (ofLex key).2
      · simp [hi]
      · rw [update_of_ne hi]
        simp only [List.map_cons, List.mem_cons, hi, false_or]
    rw [hq']
    exact h3

/-- The keys a theft collects stand in the tree, and there are at most a full buffer of them. -/
theorem freeKeys_spec {count : Nat} {keys : List TimeKey}
    (hks : ((s.tree.toList.reverse.filter fun p => !s.params.contains p.2.id).map Prod.fst).take
      (min count maxSteal) = keys) :
    keys.Nodup ∧ (∀ k ∈ keys, k ∈ s.tree) ∧ keys.length ≤ maxSteal := by
  have hsub : keys.Sublist s.tree.keys.reverse := by
    rw [← hks, ← Std.TreeMap.map_fst_toList_eq_keys, ← List.map_reverse]
    exact (List.take_sublist _ _).trans (List.Sublist.map _ List.filter_sublist)
  refine ⟨hsub.nodup (List.nodup_reverse.2 Std.TreeMap.nodup_keys), fun k hk => ?_, ?_⟩
  · exact Std.TreeMap.mem_of_mem_keys (List.mem_reverse.1 (hsub.subset hk))
  · rw [← hks, List.length_take]
    omega

/-- A theft takes waiting tasks only, at most a full buffer of them, and no task twice. -/
theorem Indexed.steal (h : s.Indexed q) (count : Nat) :
    (∃ q', (s.steal count).2.Indexed q' ∧
      ∀ i, (q' i ≠ none ↔ q i ≠ none ∧ i ∉ (s.steal count).1.map Prod.fst) ∧
        (q i = none → q' i = none)) ∧
      SameTimers s (s.steal count).2 ∧
      ((s.steal count).1.map Prod.fst).Nodup ∧ (s.steal count).1.length ≤ maxSteal ∧
      ∀ i ∈ (s.steal count).1.map Prod.fst, q i ≠ none := by
  unfold DeadlineScheduler.steal
  split
  · exact ⟨⟨q, h, by simp⟩, ⟨s.tree, s.deadlines, s.nrRunning, rfl⟩, List.nodup_nil, Nat.zero_le _,
      by simp⟩
  · simp only
    generalize hks : ((s.tree.toList.reverse.filter
      fun p => !s.params.contains p.2.id).map Prod.fst).take (min count maxSteal) = keys
    obtain ⟨hnodup, hmem, hlen⟩ := freeKeys_spec hks
    obtain ⟨taken, h1, h2, h3, h4⟩ := h.stealKeys hnodup hmem [] (by simpa using hlen)
    have hids : (keys.map fun k => (ofLex k).2).Nodup := by
      refine List.Nodup.map_on ?_ hnodup
      intro a ha b hb hab
      obtain ⟨e, hqa, hra⟩ := (h.views.mem_tree a).1 (hmem a ha)
      obtain ⟨e', hqb, hrb⟩ := (h.views.mem_tree b).1 (hmem b hb)
      rw [hab, hqb] at hqa
      cases hqa
      exact congrArg toLex (Prod.ext (hra.symm.trans hrb) hab)
    rw [h1, List.nil_append, h2]
    refine ⟨⟨_, h3, fun i => ?_⟩, h4, hids, ?_, ?_⟩
    · split
      next hi => simp [hi]
      next hi => simp [hi]
    · rw [← List.length_map (f := Prod.fst), h2, List.length_map]
      exact hlen
    · intro i hi
      obtain ⟨k, hk, rfl⟩ := List.mem_map.1 hi
      obtain ⟨e, he, -⟩ := (h.views.mem_tree k).1 (hmem k hk)
      rw [he]
      simp

/-! ## The tasks that wait, while none is throttled -/

/-- The maps are views of one queue, in which a task waits under the deadline `q` gives it, and no task is
throttled. -/
structure Represents (s : DeadlineScheduler) (q : TaskId → Option Nat) : Prop where
  indexed : ∃ entries, s.Indexed entries ∧ ∀ i, q i = (entries i).map DeadlineEntry.absDeadline
  throttled : s.throttled.isEmpty = true

variable {d : TaskId → Option Nat}

theorem Indexed.represents (h : s.Indexed q) (hthrottled : s.throttled.isEmpty = true) :
    s.Represents fun i => (q i).map DeadlineEntry.absDeadline := ⟨⟨q, h, fun _ => rfl⟩, hthrottled⟩

theorem represents_new : new.Represents fun _ => none := ⟨⟨_, indexed_new, fun _ => rfl⟩, rfl⟩

theorem Represents.tree (h : s.Represents d) (k : TimeKey) :
    k ∈ s.tree ↔ d (ofLex k).2 = some (ofLex k).1 := by
  obtain ⟨⟨q, hq, hd⟩, -⟩ := h
  rw [hq.views.mem_tree, hd, Option.map_eq_some_iff]

/-- The tasks of a queue of deadlines are those of the queue of entries. -/
theorem waits_iff (hd : ∀ i, d i = (q i).map DeadlineEntry.absDeadline) (i : TaskId) :
    d i ≠ none ↔ q i ≠ none := by
  rw [hd, ne_eq, Option.map_eq_none_iff]

theorem Represents.enqueue (h : s.Represents d) (id : TaskId) (priority : Nat) :
    ∃ d', (s.enqueue id priority).Represents d' ∧ ∀ i, d' i ≠ none ↔ i = id ∨ d i ≠ none := by
  obtain ⟨⟨q, hq, hd⟩, hthrottled⟩ := h
  obtain ⟨q', hq', hspec⟩ := hq.enqueue id priority
  refine ⟨_, hq'.represents (hspec.timers.2.1 ▸ hthrottled), fun i => ?_⟩
  rw [waits_iff (fun _ => rfl), waits_iff hd]
  exact hspec.waits

theorem Represents.pickNext (h : s.Represents d) :
    ∃ d', s.pickNext.2.Represents d' ∧
      (∀ i, d' i ≠ none ↔ d i ≠ none ∧ s.pickNext.1 ≠ some i) ∧
      ∀ i, s.pickNext.1 = some i → d i ≠ none := by
  obtain ⟨⟨q, hq, hd⟩, hthrottled⟩ := h
  rw [pickNext_eq, replenish_of_isEmpty hthrottled]
  obtain ⟨q', hq', hspec⟩ := hq.popFirst
  have hsame : s.popFirst.2.throttled = s.throttled := hspec.throttled
  refine ⟨_, hq'.represents (hsame ▸ hthrottled), fun i => ?_, fun i hi => ?_⟩
  · rw [waits_iff (fun _ => rfl), waits_iff hd]
    exact (hspec.waits i).1
  · rw [waits_iff hd]
    exact (hspec.waits i).2 hi

theorem Represents.dequeue (h : s.Represents d) (id : TaskId) (priority : Nat) :
    ∃ d', (s.dequeue id priority).2.Represents d' ∧ ∀ i, d' i ≠ none ↔ i ≠ id ∧ d i ≠ none := by
  obtain ⟨⟨q, hq, hd⟩, hthrottled⟩ := h
  obtain ⟨q', hq', hspec⟩ := hq.dequeue id priority
  refine ⟨_, hq'.represents (hspec.throttled ▸ hthrottled), fun i => ?_⟩
  rw [waits_iff (fun _ => rfl), waits_iff hd]
  exact hspec.waits

theorem Represents.steal (h : s.Represents d) (count : Nat) :
    (∃ d', (s.steal count).2.Represents d' ∧
      ∀ i, d' i ≠ none ↔ d i ≠ none ∧ i ∉ (s.steal count).1.map Prod.fst) ∧
      ((s.steal count).1.map Prod.fst).Nodup ∧ (s.steal count).1.length ≤ maxSteal ∧
      ∀ i ∈ (s.steal count).1.map Prod.fst, d i ≠ none := by
  obtain ⟨⟨q, hq, hd⟩, hthrottled⟩ := h
  obtain ⟨⟨q', hq', hwaits⟩, ⟨_, _, _, hsame⟩, hnodup, hlen, htaken⟩ := hq.steal count
  have hthr : (s.steal count).2.throttled = s.throttled := by rw [hsame]
  refine ⟨⟨_, hq'.represents (hthr ▸ hthrottled), fun i => ?_⟩, hnodup, hlen, fun i hi => ?_⟩
  · rw [waits_iff (fun _ => rfl), waits_iff hd]
    exact (hwaits i).1
  · rw [waits_iff hd]
    exact htaken i hi

end DeadlineScheduler

end SlateOS.Sched
