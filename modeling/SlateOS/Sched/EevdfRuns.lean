/-
# SlateOS.Sched.EevdfRuns -- the run-queue invariant of EEVDF

Every call takes a settled run queue (the four maps are views of one queue, flagged by the floor) to a
settled one, and never lowers the floor. `Becomes` says this of one call, with the set of tasks that wait
afterwards.
-/
import SlateOS.Foundation.Runs
import SlateOS.Sched.EevdfQueue

namespace SlateOS.Sched

open Foundation Foundation.MachineInt Foundation.Runs
open Function (update update_self update_of_ne)

namespace EevdfScheduler

/-- The maps are views of `q`, and a task is flagged eligible exactly at or below the floor. -/
structure Settled (s : EevdfScheduler) (q : Queue) : Prop where
  represents : s.Represents q
  flags : ∀ i e, q i = some e → (e.isEligible = true ↔ e.vruntime ≤ s.minVruntime)

variable {s t : EevdfScheduler} {q : Queue}

theorem Settled.below (h : s.Settled q) : FlaggedBelow s.minVruntime q :=
  fun i e he hflag => (h.flags i e he).1 hflag

/-- A call leads from `s` to `t`, in which the tasks of `waiting` wait. -/
structure Becomes (s t : EevdfScheduler) (waiting : TaskId → Prop) : Prop where
  queue : ∃ q, t.Settled q ∧ ∀ i, q i ≠ none ↔ waiting i
  floor : s.minVruntime ≤ t.minVruntime
  /-- The counter counts, unless more tasks wait than it can. -/
  counted : s.nrRunning = s.tree.size → t.tree.size < 2 ^ 32 → t.nrRunning = t.tree.size

theorem Settled.becomes_self (h : s.Settled q) : s.Becomes s fun i => q i ≠ none :=
  ⟨⟨q, h, fun _ => Iff.rfl⟩, le_rfl, fun hcount _ => hcount⟩

/-- Operations end by settling maps whose flags are at worst behind the floor. -/
theorem Represents.settle (h : t.Represents q) (hbelow : FlaggedBelow t.minVruntime q)
    (hfloor : s.minVruntime ≤ t.minVruntime)
    (hcounted : s.nrRunning = s.tree.size → t.tree.size < 2 ^ 32 → t.nrRunning = t.tree.size) :
    s.Becomes t.settle fun i => q i ≠ none := by
  obtain ⟨h1, h2, h3, h4⟩ := settle_spec h hbelow
  refine ⟨⟨_, ⟨h1, ?_⟩, fun i => not_congr classify_eq_none⟩, le_trans hfloor h2, ?_⟩
  · intro i e he
    unfold classify at he
    obtain ⟨e', -, rfl⟩ := Option.map_eq_some_iff.1 he
    simp
  · rw [h3, h4]
    exact hcounted

theorem FlaggedBelow.update_none {floor : Nat} (h : FlaggedBelow floor q) (i : TaskId) :
    FlaggedBelow floor (update q i none) := by
  intro j e he hflag
  by_cases hj : j = i
  · rw [hj, update_self] at he
    simp at he
  · rw [update_of_ne hj] at he
    exact h j e he hflag

theorem update_none_ne_none (q : Queue) (i j : TaskId) :
    update q i none j ≠ none ↔ j ≠ i ∧ q j ≠ none := by
  by_cases hj : j = i
  · simp [hj]
  · simp [hj]

theorem without_frame (h : s.Represents q) {i : TaskId} {e : EevdfEntry} (he : q i = some e) :
    (s.without e).minVruntime = s.minVruntime ∧ (s.without e).nrRunning = s.nrRunning ∧
      (s.without e).tree.size + 1 = s.tree.size := by
  refine ⟨unindex_minVruntime _ _ _, unindex_nrRunning _ _ _, ?_⟩
  rw [without_tree]
  refine OrderedMap.size_erase_of_mem ((h.mem_tree _).2 ⟨e, ?_, rfl⟩)
  rw [← h.id i e he] at he
  exact he

/-! ## Enqueueing -/

theorem dropStale_spec (h : s.Represents q) (id : TaskId) :
    (s.dropStale id).Represents (update q id none) ∧
      (s.dropStale id).minVruntime = s.minVruntime ∧
      (s.nrRunning = s.tree.size → (s.dropStale id).nrRunning = (s.dropStale id).tree.size) := by
  cases hq : q id with
  | none =>
    have hsame : s.dropStale id = s := by
      unfold dropStale
      rw [h.deadline_eq_none.2 hq]
    rw [hsame, ← hq, Function.update_eq_self]
    exact ⟨h, rfl, fun hcount => hcount⟩
  | some e =>
    obtain ⟨hmin, hnr, hsize⟩ := without_frame h hq
    have hid := h.id id e hq
    have hdrop : s.dropStale id = { s.without e with nrRunning := (s.without e).nrRunning - 1 } := by
      unfold dropStale
      rw [h.deadline_eq_some.2 ⟨e, hq, rfl⟩]
      simp only [h.tree_eq hq]
      rw [← hid]
      rfl
    rw [hdrop]
    refine ⟨(h.without hq).congr rfl rfl rfl rfl, hmin, fun hcount => ?_⟩
    show (s.without e).nrRunning - 1 = (s.without e).tree.size
    omega

theorem placement_frame (s : EevdfScheduler) (id : TaskId) :
    (s.placement id).2.tree = s.tree ∧ (s.placement id).2.deadlines = s.deadlines ∧
      (s.placement id).2.eligible = s.eligible ∧
      (s.placement id).2.ineligibleByVrt = s.ineligibleByVrt ∧
      (s.placement id).2.minVruntime = s.minVruntime ∧
      (s.placement id).2.nrRunning = s.nrRunning := by
  unfold placement
  split <;> exact ⟨rfl, rfl, rfl, rfl, rfl, rfl⟩

/-- The entry `enqueue` makes, once a stale one is gone and the vruntime is chosen. -/
def freshEntry (placed : Nat × EevdfScheduler) (id : TaskId) (priority : Nat) : EevdfEntry where
  id := id
  priority := priority
  weight := weightFor priority
  vruntime := placed.1
  deadline := placed.2.computeDeadline placed.1 priority (weightFor priority)
  isEligible := decide (placed.1 ≤ placed.2.minVruntime)

theorem enqueue_eq (s : EevdfScheduler) (id : TaskId) (priority : Nat) :
    s.enqueue id priority =
      (((s.dropStale id).placement id).2.addEntry
        (freshEntry ((s.dropStale id).placement id) id priority)).settle := rfl

/-- The maps just before an `enqueue` settles them. -/
theorem Settled.enqueue_added (h : s.Settled q) (id : TaskId) (priority : Nat) :
    ∃ (u : EevdfScheduler) (e : EevdfEntry), s.enqueue id priority = u.settle ∧ e.id = id ∧
      u.Represents (update q id (some e)) ∧
      FlaggedBelow u.minVruntime (update q id (some e)) ∧
      u.minVruntime = s.minVruntime ∧ u.tree.size = (s.dropStale id).tree.size + 1 ∧
      u.nrRunning = saturatingAdd 32 (s.dropStale id).nrRunning 1 := by
  obtain ⟨hdrop, hmin, -⟩ := dropStale_spec h.represents id
  obtain ⟨htree, hdeadlines, heligible, hineligible, hfloor, hnr⟩ :=
    placement_frame (s.dropStale id) id
  have hplaced := hdrop.congr htree hdeadlines heligible hineligible
  have hnew : update q id none id = none := update_self ..
  refine ⟨_, freshEntry ((s.dropStale id).placement id) id priority, enqueue_eq s id priority, rfl,
    ?_⟩
  generalize (s.dropStale id).placement id = placed at *
  obtain ⟨vruntime, u⟩ := placed
  simp only at htree hdeadlines heligible hineligible hfloor hnr hplaced ⊢
  have hid : (freshEntry (vruntime, u) id priority).id = id := rfl
  have hflag : (freshEntry (vruntime, u) id priority).isEligible = true →
      (freshEntry (vruntime, u) id priority).vruntime ≤ u.minVruntime := of_decide_eq_true
  generalize freshEntry (vruntime, u) id priority = e at *
  have hadded := hplaced.addEntry (e := e) (by rw [hid]; exact hnew)
  rw [hid, Function.update_idem] at hadded
  have hnotin : (toLex (e.deadline, e.id) : TimeKey) ∉ u.tree := by
    rw [hplaced.mem_tree]
    rintro ⟨e', he', -⟩
    rw [show (ofLex (toLex (e.deadline, e.id))).2 = id from hid, hnew] at he'
    simp at he'
  refine ⟨hadded, ?_, ?_, ?_, ?_⟩
  · rw [addEntry_minVruntime]
    intro i e' he' hflag'
    by_cases hi : i = id
    · rw [hi, update_self] at he'
      cases he'
      exact hflag hflag'
    · rw [update_of_ne hi] at he'
      rw [hfloor, hmin]
      exact h.below i e' he' hflag'
  · rw [addEntry_minVruntime, hfloor, hmin]
  · rw [addEntry_tree, OrderedMap.size_insert_of_notMem hnotin, htree]
  · rw [addEntry_nrRunning, hnr]

theorem Settled.enqueue (h : s.Settled q) (id : TaskId) (priority : Nat) :
    s.Becomes (s.enqueue id priority) fun i => i = id ∨ q i ≠ none := by
  obtain ⟨-, -, hcount⟩ := dropStale_spec h.represents id
  obtain ⟨u, e, heq, hid, hrep, hbelow, hmin, hsize, hnr⟩ := h.enqueue_added id priority
  have hresult := hrep.settle (s := s) hbelow hmin.ge fun hcounted hroom => by
    rw [hnr, hsize, hcount hcounted]
    exact saturatingAdd_of_lt (by omega)
  rw [heq]
  refine ⟨?_, hresult.floor, hresult.counted⟩
  obtain ⟨q', hq', hw⟩ := hresult.queue
  refine ⟨q', hq', fun i => (hw i).trans ?_⟩
  by_cases hi : i = id
  · simp [hi]
  · simp [hi]

/-- A task that does not wait yet makes the tree grow; the counter stops at the largest `u32`. -/
theorem Settled.enqueue_new (h : s.Settled q) {id : TaskId} (hnew : q id = none) (priority : Nat) :
    (s.enqueue id priority).tree.size = s.tree.size + 1 ∧
      (s.enqueue id priority).nrRunning ≤ maxVal 32 := by
  obtain ⟨u, e, heq, -, hrep, hbelow, -, hsize, hnr⟩ := h.enqueue_added id priority
  obtain ⟨-, -, hnr', hsize'⟩ := settle_spec hrep hbelow
  have hsame : s.dropStale id = s := by
    unfold dropStale
    rw [h.represents.deadline_eq_none.2 hnew]
  rw [heq, hnr', hsize', hnr, hsize, hsame]
  exact ⟨rfl, saturatingAdd_le_maxVal _ _ _⟩

/-! ## Removal -/

/-- An entry leaves, the counter goes down, and the maps are settled. -/
theorem Settled.remove (h : s.Settled q) {id : TaskId} {e : EevdfEntry} (he : q id = some e)
    (htree : t.tree = (s.without e).tree) (hdeadlines : t.deadlines = (s.without e).deadlines)
    (heligible : t.eligible = (s.without e).eligible)
    (hineligible : t.ineligibleByVrt = (s.without e).ineligibleByVrt)
    (hmin : t.minVruntime = s.minVruntime) (hnr : t.nrRunning = s.nrRunning - 1) :
    s.Becomes t.settle fun i => i ≠ id ∧ q i ≠ none := by
  obtain ⟨-, -, hsize⟩ := without_frame h.represents he
  have hrep := (h.represents.without he).congr htree hdeadlines heligible hineligible
  have hresult := hrep.settle (s := s) (hmin ▸ h.below.update_none id) hmin.ge ?_
  · refine ⟨?_, hresult.floor, hresult.counted⟩
    obtain ⟨q', hq', hw⟩ := hresult.queue
    exact ⟨q', hq', fun i => (hw i).trans (update_none_ne_none q id i)⟩
  · intro hcount _
    rw [hnr, htree]
    omega

theorem Settled.dequeueCurrent (h : s.Settled q) (id : TaskId) :
    s.Becomes (s.dequeueCurrent id).2 fun i => q i ≠ none := by
  unfold EevdfScheduler.dequeueCurrent
  split
  · exact ⟨⟨q, ⟨h.represents.congr rfl rfl rfl rfl, h.flags⟩, fun _ => Iff.rfl⟩, le_rfl,
      fun hcount _ => hcount⟩
  · exact h.becomes_self

theorem Settled.dequeue (h : s.Settled q) (id : TaskId) (priority : Nat) :
    s.Becomes (s.dequeue id priority).2 fun i => i ≠ id ∧ q i ≠ none := by
  unfold EevdfScheduler.dequeue
  cases hq : q id with
  | none =>
    rw [h.represents.deadline_eq_none.2 hq]
    have hsame := h.dequeueCurrent id
    refine ⟨?_, hsame.floor, hsame.counted⟩
    obtain ⟨q', hq', hw⟩ := hsame.queue
    refine ⟨q', hq', fun i => (hw i).trans ?_⟩
    constructor
    · exact fun hi => ⟨fun heq => hi (heq ▸ hq), hi⟩
    · exact fun hi => hi.2
  | some e =>
    have hid := h.represents.id id e hq
    rw [h.represents.deadline_eq_some.2 ⟨e, hq, rfl⟩]
    simp only [h.represents.tree_eq hq]
    refine h.remove hq ?_ ?_ ?_ ?_ ?_ ?_
    · rw [← hid]; rfl
    · rw [← hid]; rfl
    · rw [← hid]; rfl
    · rw [← hid]; rfl
    · exact unindex_minVruntime _ _ _
    · rw [unindex_nrRunning]

/-! ## Picking -/

/-- `e` has the earliest deadline among the eligible entries, or, if there are none, among all. -/
def Earliest (s : EevdfScheduler) (e : EevdfEntry) : Prop :=
  (e.vruntime ≤ s.minVruntime ∧ ∀ (k' : TimeKey) (e' : EevdfEntry), s.tree[k']? = some e' →
      e'.vruntime ≤ s.minVruntime → e.deadline ≤ e'.deadline) ∨
    (∀ (k' : TimeKey) (e' : EevdfEntry), s.tree[k']? = some e' →
      s.minVruntime < e'.vruntime ∧ e.deadline ≤ e'.deadline)

/-- What `pick_next` returns: nothing from an empty queue, otherwise an earliest task. -/
def PicksEarliest (s : EevdfScheduler) : Prop :=
  match s.pickNext.1 with
  | none => s.tree.isEmpty = true
  | some id => ∃ (k : TimeKey) (e : EevdfEntry), s.tree[k]? = some e ∧ e.id = id ∧ s.Earliest e

/-- The key `pick_next` chooses. -/
def chosen (s : EevdfScheduler) : Option TimeKey := s.eligible.minKey?.or s.tree.minKey?

theorem chosen_eq_none_iff (h : s.Represents q) :
    s.chosen = none ↔ s.tree.isEmpty = true := by
  unfold chosen
  rw [Option.or_eq_none_iff, Std.TreeMap.minKey?_eq_none_iff, Std.TreeMap.minKey?_eq_none_iff]
  constructor
  · exact fun hboth => hboth.2
  · intro hempty
    refine ⟨?_, hempty⟩
    by_contra hne
    obtain ⟨k, hk⟩ := Std.TreeMap.isEmpty_eq_false_iff_exists_mem.1 (Bool.eq_false_iff.2 hne)
    obtain ⟨e, he, hd, -⟩ := (h.eligible k).1 hk
    exact Std.TreeMap.not_mem_of_isEmpty hempty ((h.mem_tree k).2 ⟨e, he, hd⟩)

/-- The chosen key is of an entry: the first eligible one, or the first of all if none is eligible. -/
theorem Settled.chosen_spec (h : s.Settled q) {k : TimeKey} (hk : s.chosen = some k) :
    ∃ e, s.tree[k]? = some e ∧ s.Earliest e := by
  unfold chosen at hk
  cases hmin : s.eligible.minKey? with
  | some a =>
    rw [hmin, Option.some_or] at hk
    obtain rfl := Option.some.inj hk
    obtain ⟨hmem, hleast⟩ := OrderedMap.minKey_eq_some_iff.1 hmin
    obtain ⟨e, he, hd, hflag⟩ := (h.represents.eligible a).1 hmem
    refine ⟨e, (h.represents.tree a e).2 ⟨he, hd⟩, .inl ⟨(h.flags _ e he).1 hflag, ?_⟩⟩
    intro k' e' he' hle
    obtain ⟨hq', hd'⟩ := (h.represents.tree k' e').1 he'
    have hle' := hleast k' ((h.represents.eligible k').2
      ⟨e', hq', hd', (h.flags _ e' hq').2 hle⟩)
    rw [hd, hd']
    exact Prod.Lex.monotone_fst _ _ hle'
  | none =>
    rw [hmin, Option.none_or] at hk
    obtain ⟨hmem, hleast⟩ := OrderedMap.minKey_eq_some_iff.1 hk
    obtain ⟨e, he⟩ := OrderedMap.mem_iff.1 hmem
    refine ⟨e, he, .inr fun k' e' he' => ?_⟩
    obtain ⟨hq', hd'⟩ := (h.represents.tree k' e').1 he'
    constructor
    · by_contra hle
      have hin := (h.represents.eligible k').2
        ⟨e', hq', hd', (h.flags _ e' hq').2 (Nat.le_of_not_lt hle)⟩
      rw [Std.TreeMap.minKey?_eq_none_iff] at hmin
      exact Std.TreeMap.not_mem_of_isEmpty hmin hin
    · rw [((h.represents.tree k e).1 he).2, hd']
      exact Prod.Lex.monotone_fst _ _ (hleast k' (OrderedMap.mem_iff.2 ⟨e', he'⟩))

theorem pickNext_none (hempty : s.tree.isEmpty = true) :
    s.pickNext = (none, s) := by
  unfold EevdfScheduler.pickNext
  rw [if_pos hempty]

/-- A pick from a nonempty queue takes the chosen entry out. -/
theorem Settled.pickNext_some (h : s.Settled q) (hne : ¬ s.tree.isEmpty = true) :
    ∃ (k : TimeKey) (e : EevdfEntry), s.chosen = some k ∧ s.tree[k]? = some e ∧
      s.pickNext.1 = some e.id ∧
      s.Becomes s.pickNext.2 fun i => i ≠ e.id ∧ q i ≠ none := by
  obtain ⟨k, hk⟩ := Option.ne_none_iff_exists'.1
    (mt (chosen_eq_none_iff h.represents).1 hne)
  obtain ⟨e, he, -⟩ := h.chosen_spec hk
  obtain ⟨hq, hd⟩ := (h.represents.tree k e).1 he
  have hid := h.represents.id _ e hq
  have hkey : k = toLex (e.deadline, e.id) := ofLex_eq_iff.2 ⟨hd.symm, hid.symm⟩
  have hpick : s.pickNext = (some e.id, settle { unindex { s with
      tree := s.tree.erase k, deadlines := s.deadlines.erase e.id } k e with
      nrRunning := s.nrRunning - 1
      currentRemaining := s.timeSlices (levelOf e.priority)
      currentWeight := e.weight
      currentVruntime := e.vruntime
      currentPriority := e.priority
      currentId := e.id }) := by
    unfold EevdfScheduler.pickNext
    rw [if_neg hne]
    unfold chosen at hk
    simp only [hk, he]
    unfold unindex settle
    split <;> rfl
  refine ⟨k, e, hk, he, by rw [hpick], ?_⟩
  rw [hpick]
  rw [← hid] at hq
  refine h.remove hq ?_ ?_ ?_ ?_ ?_ ?_
  · rw [hkey]; rfl
  · rw [hkey]; rfl
  · rw [hkey]; rfl
  · rw [hkey]; rfl
  · exact unindex_minVruntime _ _ _
  · rfl

theorem Settled.picksEarliest (h : s.Settled q) : s.PicksEarliest := by
  unfold PicksEarliest
  by_cases hempty : s.tree.isEmpty = true
  · rw [pickNext_none hempty]
    exact hempty
  · obtain ⟨k, e, hk, he, hpick, -⟩ := h.pickNext_some hempty
    obtain ⟨e', he', hfirst⟩ := h.chosen_spec hk
    rw [he] at he'
    cases he'
    rw [hpick]
    exact ⟨k, e, he, rfl, hfirst⟩

theorem Settled.pickNext (h : s.Settled q) :
    s.Becomes s.pickNext.2 fun i => q i ≠ none ∧ s.pickNext.1 ≠ some i := by
  by_cases hempty : s.tree.isEmpty = true
  · rw [pickNext_none hempty]
    simpa using h.becomes_self
  · obtain ⟨k, e, -, -, hpick, hstep⟩ := h.pickNext_some hempty
    refine ⟨?_, hstep.floor, hstep.counted⟩
    obtain ⟨q', hq', hw⟩ := hstep.queue
    refine ⟨q', hq', fun i => (hw i).trans ?_⟩
    rw [hpick, and_comm]
    simp [eq_comm]

theorem Settled.picked_waits (h : s.Settled q) {id : TaskId} (hpick : s.pickNext.1 = some id) :
    q id ≠ none := by
  by_cases hempty : s.tree.isEmpty = true
  · rw [pickNext_none hempty] at hpick
    simp at hpick
  · obtain ⟨k, e, -, he, hpick', -⟩ := h.pickNext_some hempty
    rw [hpick'] at hpick
    cases hpick
    obtain ⟨hq, -⟩ := (h.represents.tree k e).1 he
    rw [h.represents.id _ e hq, hq]
    simp

/-! ## Stealing -/

/-- The loop removes the entries under the collected keys and records their tasks. -/
theorem stealKeys_spec {keys : List TimeKey} (h : s.Represents q) (hnodup : keys.Nodup)
    (hkeys : ∀ k ∈ keys, k ∈ s.tree) (stolen : StolenTasks)
    (hroom : stolen.length + keys.length ≤ maxSteal) :
    ∃ taken : StolenTasks, (stealKeys keys stolen s).1 = stolen ++ taken ∧
      taken.map Prod.fst = keys.map (fun k => (ofLex k).2) ∧
      (stealKeys keys stolen s).2.Represents
        (fun i => if i ∈ keys.map (fun k => (ofLex k).2) then none else q i) ∧
      (stealKeys keys stolen s).2.minVruntime = s.minVruntime ∧
      (s.nrRunning = s.tree.size →
        (stealKeys keys stolen s).2.nrRunning = (stealKeys keys stolen s).2.tree.size) := by
  induction keys generalizing s q stolen with
  | nil => exact ⟨[], by simp [stealKeys], rfl, by simpa [stealKeys] using h, rfl, id⟩
  | cons key keys ih =>
    obtain ⟨hkey, hkeys'⟩ := List.nodup_cons.1 hnodup
    obtain ⟨e, he, hd⟩ := (h.mem_tree key).1 (hkeys key List.mem_cons_self)
    have hid := h.id _ e he
    have hlex : key = toLex (e.deadline, e.id) := ofLex_eq_iff.2 ⟨hd.symm, hid.symm⟩
    obtain ⟨hmin, hnr, hsize⟩ := without_frame h he
    have hstep : stealKeys (key :: keys) stolen s = stealKeys keys (stolen.push e.id e.priority)
        { s.without e with nrRunning := s.nrRunning - 1 } := by
      rw [stealKeys]
      simp only [(h.tree key e).2 ⟨he, hd⟩]
      rw [unindex_nrRunning, hlex]
      rfl
    have hrest : ∀ k ∈ keys, k ∈ (s.without e).tree := by
      intro k hk
      rw [without_tree, OrderedMap.mem_erase, ← hlex]
      exact ⟨ne_of_mem_of_not_mem hk hkey, hkeys k (List.mem_cons_of_mem _ hk)⟩
    have hrep : ({ s.without e with nrRunning := s.nrRunning - 1 } : EevdfScheduler).Represents
        (update q (ofLex key).2 none) := (h.without he).congr rfl rfl rfl rfl
    rw [hstep, StolenTasks.push_of_lt (show stolen.length < maxSteal by simp at hroom; omega)]
    obtain ⟨taken, h1, h2, h3, h4, h5⟩ := ih hrep hkeys' hrest (stolen ++ [(e.id, e.priority)])
      (by simp at hroom ⊢; omega)
    refine ⟨(e.id, e.priority) :: taken, by rw [h1]; simp, by simp [h2, hid], ?_, h4.trans hmin,
      fun hcount => h5 ?_⟩
    · have hq : (fun i => if i ∈ (key :: keys).map (fun k => (ofLex k).2) then none else q i)
          = fun i => if i ∈ keys.map (fun k => (ofLex k).2) then none
              else update q (ofLex key).2 none i := by
        funext i
        by_cases hi : i = (ofLex key).2
        · simp [hi]
        · rw [update_of_ne hi]
          simp only [List.map_cons, List.mem_cons, hi, false_or]
      rw [hq]
      exact h3
    · show s.nrRunning - 1 = (s.without e).tree.size
      omega

/-- The keys a theft collects stand in the tree, and there are at most a full buffer of them. -/
theorem backKeys_spec {count : Nat} {keys : List TimeKey}
    (hks : s.tree.keys.reverse.take (min count maxSteal) = keys) :
    keys.Nodup ∧ (∀ k ∈ keys, k ∈ s.tree) ∧ keys.length ≤ maxSteal := by
  have hsub : keys.Sublist s.tree.keys.reverse := hks ▸ List.take_sublist _ _
  refine ⟨hsub.nodup (List.nodup_reverse.2 Std.TreeMap.nodup_keys), fun k hk => ?_, ?_⟩
  · exact Std.TreeMap.mem_of_mem_keys (List.mem_reverse.1 (hsub.subset hk))
  · rw [← hks, List.length_take]
    omega

/-- A theft removes distinct waiting tasks, at most `count` of them, and records each. -/
theorem Settled.steal (h : s.Settled q) (count : Nat) :
    s.Becomes (s.steal count).2 (fun i => q i ≠ none ∧ i ∉ (s.steal count).1.map Prod.fst) ∧
      ((s.steal count).1.map Prod.fst).Nodup ∧ (s.steal count).1.length ≤ maxSteal ∧
      ∀ i ∈ (s.steal count).1.map Prod.fst, q i ≠ none := by
  unfold EevdfScheduler.steal
  split
  · refine ⟨?_, List.nodup_nil, Nat.zero_le _, by simp⟩
    simpa using h.becomes_self
  · generalize hks : s.tree.keys.reverse.take (min count maxSteal) = keys
    obtain ⟨hnodup, hmem, hlen⟩ := backKeys_spec hks
    obtain ⟨taken, h1, h2, h3, h4, h5⟩ :=
      stealKeys_spec h.represents hnodup hmem [] (by simpa using hlen)
    rw [List.nil_append] at h1
    have hbelow : FlaggedBelow (stealKeys keys [] s).2.minVruntime
        (fun i => if i ∈ keys.map (fun k => (ofLex k).2) then none else q i) := by
      intro i e he hflag
      rw [h4]
      dsimp only at he
      split at he
      · simp at he
      · exact h.below i e he hflag
    have hsettled := h3.settle (s := s) hbelow h4.ge fun hcount _ => h5 hcount
    -- two keys of one task would carry two deadlines
    have hids : (keys.map fun k => (ofLex k).2).Nodup := by
      refine List.Nodup.map_on ?_ hnodup
      intro a ha b hb hab
      obtain ⟨e, he, hd⟩ := (h.represents.mem_tree a).1 (hmem a ha)
      obtain ⟨e', he', hd'⟩ := (h.represents.mem_tree b).1 (hmem b hb)
      rw [hab, he'] at he
      cases he
      exact ofLex_eq_iff.2 ⟨hd.symm.trans hd', hab⟩
    have hwaiting : ∀ i, (if i ∈ keys.map (fun k => (ofLex k).2) then none else q i) ≠ none ↔
        q i ≠ none ∧ i ∉ taken.map Prod.fst := by
      intro i
      rw [h2]
      split
      · next hi => simp [hi]
      · next hi => simp [hi]
    have hpresent : ∀ i ∈ taken.map Prod.fst, q i ≠ none := by
      rw [h2]
      intro i hi
      obtain ⟨k, hk, rfl⟩ := List.mem_map.1 hi
      obtain ⟨e, he, -⟩ := (h.represents.mem_tree k).1 (hmem k hk)
      rw [he]
      simp
    have hlength : taken.length ≤ maxSteal := by
      rw [← List.length_map (f := Prod.fst), h2, List.length_map]
      exact hlen
    simp only
    split
    · rw [h1]
      refine ⟨⟨?_, hsettled.floor, hsettled.counted⟩, h2 ▸ hids, hlength, hpresent⟩
      obtain ⟨q', hq', hw⟩ := hsettled.queue
      exact ⟨q', hq', fun i => (hw i).trans (hwaiting i)⟩
    · next hempty =>
        obtain rfl : keys = [] := List.eq_nil_of_length_eq_zero (by omega)
        obtain rfl : taken = [] := by simpa using h2
        refine ⟨?_, List.nodup_nil, Nat.zero_le _, by simp [stealKeys]⟩
        simpa [stealKeys] using h.becomes_self

/-! ## Ticks -/

theorem Settled.tick (h : s.Settled q) : s.Becomes s.tick.2 fun i => q i ≠ none := by
  unfold EevdfScheduler.tick
  split
  · exact h.becomes_self
  · have hrep : ∀ v, ({ s with currentVruntime := v } : EevdfScheduler).Represents q :=
      fun v => h.represents.congr rfl rfl rfl rfl
    obtain ⟨⟨q', hq', hw⟩, hfloor, hcounted⟩ :=
      (hrep (saturatingAdd 64 s.currentVruntime (checkedDivOr vruntimeUnit s.currentWeight 1))).settle
        (s := s) h.below le_rfl fun hcount _ => hcount
    exact ⟨⟨q', ⟨hq'.represents.congr rfl rfl rfl rfl, hq'.flags⟩, hw⟩, hfloor, hcounted⟩

/-! ## Runs -/

/-- The calls on a run queue. -/
inductive Op
  | enqueue (id : TaskId) (priority : Nat)
  | dequeue (id : TaskId) (priority : Nat)
  | pickNext
  | tick
  | steal (count : Nat)
  | setTimeSlice (level ticks : Nat)
  | reconfigureSlices (base increment : Nat)
  | applyProfile (profile : WorkloadProfile)

/-- The state after a call. -/
def apply (s : EevdfScheduler) : Op → EevdfScheduler
  | .enqueue id priority => s.enqueue id priority
  | .dequeue id priority => (s.dequeue id priority).2
  | .pickNext => s.pickNext.2
  | .tick => s.tick.2
  | .steal count => (s.steal count).2
  | .setTimeSlice level ticks =>
    { s with timeSlices := (setTimeSlice s.timeSlices level ticks).2 }
  | .reconfigureSlices base increment =>
    { s with timeSlices := (reconfigureSlices s.timeSlices base increment).2 }
  | .applyProfile profile =>
    { s with timeSlices := (reconfigureSlices s.timeSlices profile.base profile.increment).2 }

/-- Every call is always possible. -/
def step (s : EevdfScheduler) (op : Op) : Option EevdfScheduler := some (s.apply op)

/-- New slices touch none of the maps. -/
theorem Settled.withSlices (h : s.Settled q) (slices : TimeSlices) :
    s.Becomes { s with timeSlices := slices } fun i => q i ≠ none :=
  ⟨⟨q, ⟨h.represents.congr rfl rfl rfl rfl, h.flags⟩, fun _ => Iff.rfl⟩, le_rfl,
    fun hcount _ => hcount⟩

theorem Settled.apply (h : s.Settled q) (op : Op) :
    ∃ waiting, s.Becomes (s.apply op) waiting := by
  cases op with
  | enqueue id priority => exact ⟨_, h.enqueue id priority⟩
  | dequeue id priority => exact ⟨_, h.dequeue id priority⟩
  | pickNext => exact ⟨_, h.pickNext⟩
  | tick => exact ⟨_, h.tick⟩
  | steal count => exact ⟨_, (h.steal count).1⟩
  | setTimeSlice level ticks => exact ⟨_, h.withSlices _⟩
  | reconfigureSlices base increment => exact ⟨_, h.withSlices _⟩
  | applyProfile profile => exact ⟨_, h.withSlices _⟩

theorem settled_new : new.Settled fun _ => none := ⟨represents_new, by simp⟩

theorem reach_settled (h : Reach step (· = new) s) : ∃ q, s.Settled q := by
  refine ReachBy.invariant (I := fun s => ∃ q, s.Settled q) ?_ ?_ h
  · rintro _ rfl
    exact ⟨_, settled_new⟩
  · rintro s op _ ⟨q, hq⟩ - hstep
    cases hstep
    obtain ⟨waiting, ⟨q', hq', -⟩, -⟩ := hq.apply op
    exact ⟨q', hq'⟩

/-- The invariant of the run queue, in terms of its maps. -/
structure Consistent (s : EevdfScheduler) : Prop where
  /-- Each entry stands under its own deadline and task. -/
  entry : ∀ (k : TimeKey) e, s.tree[k]? = some e → k = toLex (e.deadline, e.id)
  /-- The deadline index and the tree name each other. -/
  index : ∀ i d, s.deadlines[i]? = some d ↔ (toLex (d, i) : TimeKey) ∈ s.tree
  bijection : Set.BijOn (fun k : TimeKey => (ofLex k).2) {k | k ∈ s.tree} {i | i ∈ s.deadlines}
  /-- The eligible set holds the tasks at or below the floor, each once, by deadline. -/
  eligible : ∀ k : TimeKey, k ∈ s.eligible ↔
    ∃ e, s.tree[k]? = some e ∧ e.vruntime ≤ s.minVruntime
  /-- The ineligible set holds the others, each once, by vruntime. -/
  ineligible : ∀ k : TimeKey, k ∈ s.ineligibleByVrt ↔
    ∃ (a : TimeKey) (e : EevdfEntry), s.tree[a]? = some e ∧ k = toLex (e.vruntime, e.id) ∧
      s.minVruntime < e.vruntime
  flag : ∀ (k : TimeKey) e, s.tree[k]? = some e →
    (e.isEligible = true ↔ e.vruntime ≤ s.minVruntime)

theorem Settled.consistent (h : s.Settled q) : s.Consistent where
  entry := by
    intro k e he
    obtain ⟨hq, hd⟩ := (h.represents.tree k e).1 he
    exact ofLex_eq_iff.2 ⟨hd.symm, (h.represents.id _ e hq).symm⟩
  index := by
    intro i d
    rw [h.represents.deadline_eq_some, h.represents.mem_tree]
    rfl
  bijection := by
    refine ⟨fun k hk => ?_, fun a ha b hb hab => ?_, fun i hi => ?_⟩
    · obtain ⟨e, he, -⟩ := (h.represents.mem_tree k).1 hk
      exact OrderedMap.mem_iff.2 ⟨e.deadline, h.represents.deadline_eq_some.2 ⟨e, he, rfl⟩⟩
    · obtain ⟨e, he, hd⟩ := (h.represents.mem_tree a).1 ha
      obtain ⟨e', he', hd'⟩ := (h.represents.mem_tree b).1 hb
      have hsame : (ofLex a).2 = (ofLex b).2 := hab
      rw [hsame, he'] at he
      cases he
      exact ofLex_eq_iff.2 ⟨hd.symm.trans hd', hsame⟩
    · obtain ⟨d, hd⟩ := OrderedMap.mem_iff.1 hi
      obtain ⟨e, he, rfl⟩ := h.represents.deadline_eq_some.1 hd
      exact ⟨toLex (e.deadline, i), (h.represents.mem_tree _).2 ⟨e, he, rfl⟩, rfl⟩
  eligible := by
    intro k
    rw [h.represents.eligible]
    refine exists_congr fun e => ?_
    rw [h.represents.tree, and_assoc]
    exact and_congr_right fun he => and_congr_right fun _ => h.flags _ e he
  ineligible := by
    intro k
    rw [h.represents.ineligible]
    constructor
    · rintro ⟨e, he, hv, hflag⟩
      refine ⟨_, e, h.represents.tree_eq he,
        ofLex_eq_iff.2 ⟨hv.symm, (h.represents.id _ e he).symm⟩, ?_⟩
      have hnot := mt (h.flags _ e he).2 (by simp [hflag])
      omega
    · rintro ⟨a, e, he, rfl, hgt⟩
      obtain ⟨hq, -⟩ := (h.represents.tree a e).1 he
      rw [← h.represents.id _ e hq] at hq
      refine ⟨e, hq, rfl, Bool.eq_false_iff.2 fun hflag => ?_⟩
      have hle := (h.flags _ e hq).1 hflag
      omega
  flag := by
    intro k e he
    exact h.flags _ e ((h.represents.tree k e).1 he).1

/-- The call leaves no more tasks waiting than the counter can count. -/
def Countable (s : EevdfScheduler) (op : Op) : Prop := (s.apply op).tree.size < 2 ^ 32

theorem reach_counted (h : ReachBy step Countable (· = new) s) :
    (∃ q, s.Settled q) ∧ s.nrRunning = s.tree.size := by
  refine ReachBy.invariant (I := fun s => (∃ q, s.Settled q) ∧ s.nrRunning = s.tree.size) ?_ ?_ h
  · rintro _ rfl
    exact ⟨⟨_, settled_new⟩, rfl⟩
  · rintro s op _ ⟨⟨q, hq⟩, hcount⟩ hok hstep
    cases hstep
    obtain ⟨waiting, ⟨q', hq', -⟩, -, hcounted⟩ := hq.apply op
    exact ⟨⟨q', hq'⟩, hcounted hcount hok⟩

/-- **The run-queue invariant**, in every state the calls reach. The counter counts the waiting tasks as
long as there are never more of them than a `u32` can count. -/
theorem eevdf_invariant (h : Reach step (· = new) s) :
    s.Consistent ∧ s.PicksEarliest ∧ (∀ op, s.minVruntime ≤ (s.apply op).minVruntime) ∧
      (ReachBy step Countable (· = new) s → s.nrRunning = s.tree.size) := by
  obtain ⟨q, hq⟩ := reach_settled h
  refine ⟨hq.consistent, hq.picksEarliest, fun op => ?_, fun hcount => (reach_counted hcount).2⟩
  obtain ⟨waiting, hstep⟩ := hq.apply op
  exact hstep.floor

theorem eevdf_invariant_pickOfTwo :
    ((new.enqueue 1 0).enqueue 2 15).Consistent ∧ ((new.enqueue 1 0).enqueue 2 15).PicksEarliest ∧
      (∀ op, ((new.enqueue 1 0).enqueue 2 15).minVruntime ≤
        (((new.enqueue 1 0).enqueue 2 15).apply op).minVruntime) ∧
      (ReachBy step Countable (· = new) ((new.enqueue 1 0).enqueue 2 15) →
        ((new.enqueue 1 0).enqueue 2 15).nrRunning = ((new.enqueue 1 0).enqueue 2 15).tree.size) :=
  eevdf_invariant
    (.next (a := .enqueue 2 15) (.next (a := .enqueue 1 0) (.start rfl) trivial rfl) trivial rfl)

/-! ## More tasks than the counter counts -/

/-- Tasks `1` to `n` are enqueued in turn. -/
def crowd (n : Nat) : List Op := (List.range n).map fun i => .enqueue (i + 1) 15

theorem run_crowd (n : Nat) : ∃ s q, run step new (crowd n) = some s ∧ s.Settled q ∧
    (∀ i : Nat, q i ≠ none ↔ 1 ≤ i ∧ i ≤ n) ∧ s.tree.size = n ∧ s.nrRunning ≤ maxVal 32 := by
  induction n with
  | zero => exact ⟨new, _, rfl, settled_new, fun i => by simp; omega, rfl, Nat.zero_le _⟩
  | succ n ih =>
    obtain ⟨s, q, hrun, hq, hwait, hsize, -⟩ := ih
    have hnew : q (n + 1) = none := by
      by_contra hne
      have hle := ((hwait (n + 1)).1 hne).2
      omega
    obtain ⟨hsize', hnr'⟩ := hq.enqueue_new hnew 15
    obtain ⟨⟨q', hq', hw⟩, -, -⟩ := hq.enqueue (n + 1) 15
    refine ⟨s.enqueue (n + 1) 15, q', ?_, hq', fun i => ?_, by rw [hsize', hsize], hnr'⟩
    · have hsplit : crowd (n + 1) = crowd n ++ [.enqueue (n + 1) 15] := by
        simp [crowd, List.range_succ]
      rw [hsplit, run_append, hrun]
      rfl
    · rw [hw, hwait]
      show ((i : Nat) = n + 1 ∨ 1 ≤ i ∧ i ≤ n) ↔ 1 ≤ i ∧ i ≤ n + 1
      omega

/-- With `2^32` tasks waiting the counter is one short. -/
theorem crowd_not_counted :
    ∃ s, run step new (crowd (2 ^ 32)) = some s ∧ s.nrRunning ≠ s.tree.size := by
  obtain ⟨s, q, hrun, -, -, hsize, hnr⟩ := run_crowd (2 ^ 32)
  refine ⟨s, hrun, ?_⟩
  rw [hsize]
  have hmax : maxVal 32 < 2 ^ 32 := by decide
  omega

end EevdfScheduler

end SlateOS.Sched
