/-
# SlateOS.Sched.PriorityRrRuns -- the bitmap run queue refines 32 plain queues

The abstraction of a run queue is its array of queues. In every reachable state the bitmap names the
nonempty ones (`Mirrors`), and then each operation is the plain operation on the array: `push`,
`serve`, `withdraw`, `takeBack`.
-/
import SlateOS.Foundation.Runs
import SlateOS.Sched.PriorityRr

namespace SlateOS.Sched

open Foundation.BitScan Foundation.Fifos Foundation.Runs
open Function (update update_self update_of_ne)

namespace PriorityRoundRobin

/-! ## Runs -/

/-- The calls on a run queue. -/
inductive Op
  | enqueue (id : TaskId) (priority : Nat)
  | dequeue (id : TaskId) (priority : Nat)
  | pickNext
  | pickNextMasked (avoidBand : Bool)
  | steal (count : Nat)

/-- The state after a call. -/
def apply (s : PriorityRoundRobin) : Op → PriorityRoundRobin
  | .enqueue id priority => s.enqueue id priority
  | .dequeue id priority => (s.dequeue id priority).2
  | .pickNext => s.pickNext.2
  | .pickNextMasked avoidBand => (s.pickNextMasked avoidBand).2
  | .steal count => (s.steal count).2

/-- Every call is always possible. -/
def step (s : PriorityRoundRobin) (op : Op) : Option PriorityRoundRobin := some (s.apply op)

/-! ## What the bitmap says -/

/-- Bit `i` of the bitmap is set exactly when queue `i` is nonempty. -/
def Mirrors (s : PriorityRoundRobin) : Prop :=
  ∀ i : Fin numPriorities, s.bitmap.getLsbD i = true ↔ s.queues i ≠ []

variable {s : PriorityRoundRobin}

theorem Mirrors.bit (h : s.Mirrors) (i : Fin numPriorities) :
    s.bitmap.getLsbD i = !(s.queues i).isEmpty := by
  rw [Bool.eq_iff_iff, h i]
  simp

theorem Mirrors.eq_zero_iff (h : s.Mirrors) :
    s.bitmap = BitVec.ofNat numPriorities 0 ↔ ∀ i, s.queues i = [] := by
  constructor
  · intro hzero i
    have hbit := h.bit i
    rw [hzero] at hbit
    simpa using hbit.symm
  · intro hempty
    apply BitVec.eq_of_getLsbD_eq
    intro i hi
    have hbit := h.bit ⟨i, hi⟩
    rw [hempty] at hbit
    simpa using hbit

/-- A queue is replaced, and its bit follows. -/
theorem Mirrors.replace (h : s.Mirrors) {i : Fin numPriorities} (hi : s.bitmap.getLsbD i = true)
    (queue : List TaskId) (remaining : Nat) :
    Mirrors { s with
      queues := update s.queues i queue
      bitmap := if queue.isEmpty then clearBit s.bitmap i else s.bitmap
      currentRemaining := remaining } := by
  intro j
  show (if queue.isEmpty = true then clearBit s.bitmap i else s.bitmap).getLsbD (j : Nat) = true ↔
    update s.queues i queue j ≠ []
  by_cases hj : j = i
  · subst hj
    rw [update_self]
    split
    · next hempty =>
        rw [getLsbD_clearBit_self]
        simpa using hempty
    · next hempty => simpa [hi] using hempty
  · rw [update_of_ne hj, ← h j]
    split
    · rw [getLsbD_clearBit_of_ne _ hj]
    · rfl

/-! ## Picking -/

/-- Something is queued below the real-time band. -/
def ordinary (q : Queues numPriorities TaskId) : Bool :=
  (List.finRange numPriorities).any fun i => decide (rtLevels ≤ i) && !(q i).isEmpty

/-- The level may be picked from: the band is passed over while there is anything ordinary. -/
def allowed (q : Queues numPriorities TaskId) (avoidBand : Bool) (i : Fin numPriorities) : Bool :=
  !avoidBand || decide (rtLevels ≤ i) || !ordinary q

theorem getLsbD_not_band (i : Fin numPriorities) :
    (~~~band).getLsbD i = decide (rtLevels ≤ (i : Nat)) := by
  revert i
  decide +kernel

theorem Mirrors.ordinary_iff (h : s.Mirrors) :
    ordinary s.queues = true ↔ s.bitmap &&& ~~~band ≠ BitVec.ofNat numPriorities 0 := by
  have hbit : ∀ i : Fin numPriorities, (s.bitmap &&& ~~~band).getLsbD i
      = (decide (rtLevels ≤ i) && !(s.queues i).isEmpty) := by
    intro i
    rw [BitVec.getLsbD_and, getLsbD_not_band, h.bit i, Bool.and_comm]
  constructor
  · intro hord hzero
    obtain ⟨i, -, hi⟩ := List.any_eq_true.1 hord
    rw [← hbit i, hzero] at hi
    simp at hi
  · intro hne
    by_contra hord
    refine hne (BitVec.eq_of_getLsbD_eq fun i hi => ?_)
    have hnone := mt (List.any_eq_true.2 ⟨⟨i, hi⟩, List.mem_finRange _, ·⟩) hord
    rw [hbit ⟨i, hi⟩, BitVec.getLsbD_zero]
    exact Bool.eq_false_iff.2 hnone

theorem Mirrors.pickable_bit (h : s.Mirrors) (avoidBand : Bool) (i : Fin numPriorities) :
    (s.pickable avoidBand).getLsbD i = (allowed s.queues avoidBand i && !(s.queues i).isEmpty) := by
  unfold pickable allowed
  split
  · next hc =>
      rw [BitVec.getLsbD_and, getLsbD_not_band, h.bit i, hc.1, h.ordinary_iff.2 hc.2,
        Bool.and_comm]
      simp
  · next hc =>
      rw [h.bit i]
      cases avoidBand with
      | false => simp
      | true =>
        have hnone : ordinary s.queues = false :=
          Bool.eq_false_iff.2 fun hord => hc ⟨rfl, h.ordinary_iff.1 hord⟩
        simp [hnone]

theorem Mirrors.lowest_pickable (h : s.Mirrors) (avoidBand : Bool) :
    lowest (s.pickable avoidBand) = first s.queues (allowed s.queues avoidBand) := by
  rw [lowest_eq_find, first]
  congr 1
  funext i
  exact h.pickable_bit avoidBand i

/-- A pick is a service of the first level that may be picked from and has something. -/
theorem Mirrors.pickNextMasked_eq (h : s.Mirrors) (avoidBand : Bool) :
    ((s.pickNextMasked avoidBand).1, (s.pickNextMasked avoidBand).2.queues)
      = serve s.queues (allowed s.queues avoidBand) := by
  unfold pickNextMasked serve
  rw [h.lowest_pickable]
  by_cases hzero : s.bitmap = BitVec.ofNat numPriorities 0
  · have hnone : first s.queues (allowed s.queues avoidBand) = none :=
      first_eq_none_iff.2 fun i _ => h.eq_zero_iff.1 hzero i
    rw [if_pos hzero, hnone]
  · rw [if_neg hzero]
    rcases hfirst : first s.queues (allowed s.queues avoidBand) with _ | level
    · rfl
    · obtain ⟨id, queue, hqueue⟩ := List.exists_cons_of_ne_nil (first_spec hfirst).2.1
      simp only [hqueue]
      rfl

theorem Mirrors.pickNextMasked (h : s.Mirrors) (avoidBand : Bool) :
    (s.pickNextMasked avoidBand).2.Mirrors := by
  unfold PriorityRoundRobin.pickNextMasked
  split
  · exact h
  · split
    · exact h
    · next level _ =>
        split
        · exact h
        · next id queue hqueue =>
            exact h.replace ((h level).2 (by simp [hqueue])) queue _

/-! ## Enqueueing and dequeueing -/

theorem Mirrors.enqueue (h : s.Mirrors) (id : TaskId) (priority : Nat) :
    (s.enqueue id priority).Mirrors := by
  intro j
  show (setBit s.bitmap (levelOf priority)).getLsbD j = true ↔
    update s.queues (levelOf priority) (s.queues (levelOf priority) ++ [id]) j ≠ []
  by_cases hj : j = levelOf priority
  · rw [hj, getLsbD_setBit_self, update_self]
    simp
  · rw [getLsbD_setBit_of_ne _ hj, update_of_ne hj]
    exact h j

/-- Sweeping the pending levels filters each of them, and reports whether any gave up an entry. -/
theorem dequeueLoop_spec (id : TaskId) {pending : List (Fin numPriorities)}
    (hnodup : pending.Nodup) (removed : Bool) (h : s.Mirrors)
    (hset : ∀ i ∈ pending, s.bitmap.getLsbD i = true) :
    (dequeueLoop id pending removed s).2.Mirrors ∧
      (∀ i, (dequeueLoop id pending removed s).2.queues i =
        if i ∈ pending then (s.queues i).filter (· ≠ id) else s.queues i) ∧
      ((dequeueLoop id pending removed s).1 = true ↔
        removed = true ∨ ∃ i ∈ pending, id ∈ s.queues i) := by
  induction pending generalizing s removed with
  | nil => simpa [dequeueLoop] using h
  | cons level pending ih =>
    obtain ⟨hlevel, hpending⟩ := List.nodup_cons.1 hnodup
    have hbit := hset level List.mem_cons_self
    -- whichever way the bitmap is written, the swept level's bit says whether it is empty
    have key : ∀ (s' : PriorityRoundRobin) (removed' : Bool),
        s'.queues = update s.queues level ((s.queues level).filter (· ≠ id)) →
        s'.Mirrors → (∀ i ∈ pending, s'.bitmap.getLsbD i = true) →
        (removed' = true ↔ removed = true ∨ id ∈ s.queues level) →
        (dequeueLoop id pending removed' s').2.Mirrors ∧
          (∀ i, (dequeueLoop id pending removed' s').2.queues i =
            if i ∈ level :: pending then (s.queues i).filter (· ≠ id) else s.queues i) ∧
          ((dequeueLoop id pending removed' s').1 = true ↔
            removed = true ∨ ∃ i ∈ level :: pending, id ∈ s.queues i) := by
      intro s' removed' hq hm hb hr
      obtain ⟨h1, h2, h3⟩ := ih hpending removed' hm hb
      refine ⟨h1, fun i => ?_, ?_⟩
      · rw [h2 i, hq]
        by_cases hi : i = level
        · subst hi
          simp [hlevel]
        · simp [hi]
      · rw [h3, hr, hq]
        have hothers : (∃ i ∈ pending, id ∈ update s.queues level
            ((s.queues level).filter (· ≠ id)) i) ↔ ∃ i ∈ pending, id ∈ s.queues i := by
          refine exists_congr fun i => and_congr_right fun hi => ?_
          rw [update_of_ne (ne_of_mem_of_not_mem hi hlevel)]
        rw [hothers]
        simp [or_assoc]
    have hothers : ∀ i ∈ pending, (clearBit s.bitmap level).getLsbD i = true := by
      intro i hi
      rw [getLsbD_clearBit_of_ne _ (ne_of_mem_of_not_mem hi hlevel)]
      exact hset i (List.mem_cons_of_mem _ hi)
    have hsame : ∀ i ∈ pending, s.bitmap.getLsbD i = true :=
      fun i hi => hset i (List.mem_cons_of_mem _ hi)
    unfold dequeueLoop
    have hlen : ((s.queues level).filter (· ≠ id)).length ≠ (s.queues level).length ↔
        id ∈ s.queues level := by
      rw [ne_eq, List.length_filter_eq_length_iff]
      simp
    have hreplace := h.replace hbit ((s.queues level).filter (· ≠ id)) s.currentRemaining
    simp only
    split
    · next hne =>
        split
        · next hempty =>
            rw [if_pos hempty] at hreplace
            exact key _ true rfl hreplace hothers (by simp [hlen.1 hne])
        · next hempty =>
            rw [if_neg hempty] at hreplace
            exact key _ true rfl hreplace hsame (by simp [hlen.1 hne])
    · next heq =>
        -- nothing left this level, so it is as nonempty as before
        have hnot := mt hlen.2 heq
        have hfilter : (s.queues level).filter (· ≠ id) = s.queues level :=
          List.filter_eq_self.2 fun a ha => by
            simpa using ne_of_mem_of_not_mem ha hnot
        refine key _ removed rfl ?_ hsame (by simp [hnot])
        intro j
        show s.bitmap.getLsbD j = true ↔ update s.queues level
          ((s.queues level).filter (· ≠ id)) j ≠ []
        rw [hfilter, Function.update_eq_self]
        exact h j

theorem Mirrors.dequeue_spec (h : s.Mirrors) (id : TaskId) (priority : Nat) :
    (s.dequeue id priority).2.Mirrors ∧
      (s.dequeue id priority).2.queues = withdraw s.queues id ∧
      ((s.dequeue id priority).1 = true ↔ ∃ i, id ∈ s.queues i) := by
  obtain ⟨h1, h2, h3⟩ := dequeueLoop_spec id (nodup_setBits s.bitmap) false h
    fun i hi => mem_setBits.1 hi
  refine ⟨h1, funext fun i => ?_, ?_⟩
  · rw [dequeue, h2 i]
    split
    · rfl
    · next hi =>
        have hempty : s.queues i = [] := by
          by_contra hne
          exact hi (mem_setBits.2 ((h i).2 hne))
        simp [withdraw, hempty]
  · rw [dequeue, h3]
    constructor
    · rintro (hfalse | ⟨i, -, hi⟩)
      · simp at hfalse
      · exact ⟨i, hi⟩
    · rintro ⟨i, hi⟩
      exact .inr ⟨i, mem_setBits.2 ((h i).2 (List.ne_nil_of_mem hi)), hi⟩

/-! ## Stealing -/

/-- What is stolen, as the buffer records it. -/
def recorded (taken : List (TaskId × Fin numPriorities)) : StolenTasks :=
  taken.map fun p => (p.1, (p.2 : Nat))

/-- Popping from the back of one queue, while the buffer has room for all that remains. -/
theorem stealLevel_spec (level : Fin numPriorities) (remaining : Nat) (queue : List TaskId)
    (stolen : StolenTasks) (hroom : stolen.length + remaining ≤ maxSteal) :
    stealLevel level remaining queue stolen =
      (remaining - (queue.reverse.take remaining).length,
        queue.take (queue.length - (queue.reverse.take remaining).length),
        stolen ++ recorded ((queue.reverse.take remaining).map (·, level))) := by
  induction remaining generalizing queue stolen with
  | zero => simp [stealLevel, recorded]
  | succ remaining ih =>
    unfold stealLevel
    rcases List.eq_nil_or_concat' queue with rfl | ⟨front, id, rfl⟩
    · simp [recorded]
    · rw [List.getLast?_concat, List.dropLast_concat]
      simp only
      rw [StolenTasks.push_of_lt (show stolen.length < maxSteal by omega),
        ih front _ (by simp; omega)]
      simp only [List.reverse_append, List.reverse_cons, List.reverse_nil, List.nil_append,
        List.singleton_append, List.take_succ_cons, List.length_cons, List.length_append,
        List.length_take, List.length_reverse, List.map_cons, recorded, List.append_assoc,
        Prod.mk.injEq]
      refine ⟨by omega, ?_, trivial⟩
      rw [List.take_append_of_le_length (by simp)]
      congr 1
      simp only [List.length_nil]
      omega

/-- Emptying the visited levels from the back, while the buffer has room for all that remains. -/
theorem stealLoop_spec {bits : List (Fin numPriorities)} (hnodup : bits.Nodup) (remaining : Nat)
    (h : s.Mirrors) (hset : ∀ i ∈ bits, s.bitmap.getLsbD i = true) (stolen : StolenTasks)
    (hroom : stolen.length + remaining ≤ maxSteal) :
    (stealLoop bits remaining s stolen).1
        = stolen ++ recorded (takeBack bits remaining s.queues).1 ∧
      (stealLoop bits remaining s stolen).2.queues = (takeBack bits remaining s.queues).2 ∧
      (stealLoop bits remaining s stolen).2.Mirrors := by
  induction bits generalizing s remaining stolen with
  | nil => simpa [stealLoop, takeBack, recorded] using h
  | cons level bits ih =>
    obtain ⟨hlevel, hbits⟩ := List.nodup_cons.1 hnodup
    cases remaining with
    | zero => simpa [stealLoop, takeBack_zero, recorded] using h
    | succ remaining =>
      unfold stealLoop takeBack
      rw [stealLevel_spec level (remaining + 1) _ _ hroom]
      simp only
      have hset' : ∀ (b : Bool), ∀ i ∈ bits,
          (if b then clearBit s.bitmap level else s.bitmap).getLsbD i = true := by
        intro b i hi
        have hbit := hset i (List.mem_cons_of_mem _ hi)
        cases b with
        | false => exact hbit
        | true => exact (getLsbD_clearBit_of_ne _ (ne_of_mem_of_not_mem hi hlevel)).trans hbit
      obtain ⟨h1, h2, h3⟩ := ih hbits
        (remaining + 1 - ((s.queues level).reverse.take (remaining + 1)).length)
        (h.replace (hset level List.mem_cons_self) ((s.queues level).take
          ((s.queues level).length - ((s.queues level).reverse.take (remaining + 1)).length))
          s.currentRemaining)
        (hset' _) (stolen ++ recorded (((s.queues level).reverse.take (remaining + 1)).map
          (·, level))) (by simp [recorded]; omega)
      refine ⟨h1.trans ?_, h2, h3⟩
      rw [List.append_assoc]
      congr 1
      simp [recorded]

/-- A theft takes from the backs, from the highest priority on. -/
theorem Mirrors.steal_spec (h : s.Mirrors) (count : Nat) :
    (s.steal count).1
        = recorded (takeBack (List.finRange numPriorities) (min count maxSteal) s.queues).1 ∧
      (s.steal count).2.queues
        = (takeBack (List.finRange numPriorities) (min count maxSteal) s.queues).2 ∧
      (s.steal count).2.Mirrors := by
  have hlevels : takeBack (setBits s.bitmap) (min count maxSteal) s.queues
      = takeBack (List.finRange numPriorities) (min count maxSteal) s.queues := by
    rw [setBits_eq]
    refine takeBack_filter _ _ fun i _ hi => ?_
    rw [h.bit i] at hi
    simpa using hi
  unfold steal
  split
  · next hnone =>
      have htake : takeBack (List.finRange numPriorities) (min count maxSteal) s.queues
          = ([], s.queues) := by
        rcases hnone with hzero | hzero
        · rw [hzero, Nat.zero_min, takeBack_zero]
        · rw [← hlevels, hzero]
          have hnil : setBits (BitVec.ofNat numPriorities 0) = [] := by decide +kernel
          rw [hnil, takeBack]
      rw [htake]
      exact ⟨rfl, rfl, h⟩
  · rw [← hlevels]
    simpa using stealLoop_spec (nodup_setBits s.bitmap) (min count maxSteal) h
      (fun i hi => mem_setBits.1 hi) [] (by simp)

/-! ## Every run -/

theorem mirrors_new : new.Mirrors := by
  intro i
  simp [new]

theorem Mirrors.apply (h : s.Mirrors) (op : Op) : (s.apply op).Mirrors := by
  cases op with
  | enqueue id priority => exact h.enqueue id priority
  | dequeue id priority => exact (h.dequeue_spec id priority).1
  | pickNext => exact h.pickNextMasked false
  | pickNextMasked avoidBand => exact h.pickNextMasked avoidBand
  | steal count => exact (h.steal_spec count).2.2

theorem reach_mirrors (h : Reach step (· = new) s) : s.Mirrors := by
  refine ReachBy.invariant ?_ ?_ h
  · rintro _ rfl
    exact mirrors_new
  · rintro s op _ hs - hstep
    cases hstep
    exact hs.apply op

/-- The run queue behaves as 32 plain queues do. -/
structure RefinesFifos (s : PriorityRoundRobin) : Prop where
  /-- The bitmap names the nonempty queues. -/
  bitmap : ∀ i : Fin numPriorities, s.bitmap.getLsbD i = true ↔ s.queues i ≠ []
  enqueue : ∀ id priority, (s.enqueue id priority).queues = push s.queues (levelOf priority) id
  pick : ∀ avoidBand, ((s.pickNextMasked avoidBand).1, (s.pickNextMasked avoidBand).2.queues)
    = serve s.queues (allowed s.queues avoidBand)
  /-- A pick takes the front of a level, every higher level that may be picked from being empty. -/
  front : ∀ avoidBand id, (s.pickNextMasked avoidBand).1 = some id →
    ∃ level, allowed s.queues avoidBand level = true ∧
      (∀ j < level, allowed s.queues avoidBand j = true → s.queues j = []) ∧
      s.queues level = id :: (s.pickNextMasked avoidBand).2.queues level ∧
      ∀ j ≠ level, (s.pickNextMasked avoidBand).2.queues j = s.queues j
  /-- The band that is to be avoided is picked from only when nothing ordinary is queued. -/
  band : ∀ level : Fin numPriorities, (level : Nat) < rtLevels →
    (allowed s.queues true level = true ↔ ∀ j : Fin numPriorities, rtLevels ≤ j → s.queues j = [])
  idle : ∀ avoidBand, (s.pickNextMasked avoidBand).1 = none ↔ ∀ i, s.queues i = []
  pickNext : s.pickNext = s.pickNextMasked false
  /-- Every entry of the task leaves, and the others keep their order. -/
  dequeue : ∀ id priority, (∀ i, (s.dequeue id priority).2.queues i
      = (s.queues i).filter (· ≠ id)) ∧
    ((s.dequeue id priority).1 = true ↔ ∃ i, id ∈ s.queues i)
  steal : ∀ count, ∃ taken : List (TaskId × Fin numPriorities),
    (s.steal count).1 = recorded taken ∧
    (taken, (s.steal count).2.queues)
      = takeBack (List.finRange numPriorities) (min count maxSteal) s.queues ∧
    (∀ i, s.queues i = (s.steal count).2.queues i ++ (takenFrom taken i).reverse) ∧
    taken.length = min (min count maxSteal)
      ((List.finRange numPriorities).map fun i => (s.queues i).length).sum

theorem allowed_nonempty (avoidBand : Bool) (hne : ∃ i, s.queues i ≠ []) :
    ∃ i, allowed s.queues avoidBand i = true ∧ s.queues i ≠ [] := by
  by_cases hord : ordinary s.queues = true
  · obtain ⟨i, -, hi⟩ := List.any_eq_true.1 hord
    rw [Bool.and_eq_true] at hi
    exact ⟨i, by simp [allowed, hi.1], by simpa using hi.2⟩
  · obtain ⟨i, hi⟩ := hne
    exact ⟨i, by simp [allowed, hord], hi⟩

theorem Mirrors.refinesFifos (h : s.Mirrors) : s.RefinesFifos where
  bitmap := h
  enqueue := fun _ _ => rfl
  pick := h.pickNextMasked_eq
  front := by
    intro avoidBand id hid
    have heq := h.pickNextMasked_eq avoidBand
    unfold serve at heq
    split at heq
    · rw [(Prod.mk.inj heq).1] at hid
      simp at hid
    · next level hlevel =>
        obtain ⟨hallowed, hne, hbefore⟩ := first_spec hlevel
        obtain ⟨a, queue, hqueue⟩ := List.exists_cons_of_ne_nil hne
        obtain ⟨hhead, htail⟩ := Prod.mk.inj heq
        rw [hid, hqueue] at hhead
        cases hhead
        refine ⟨level, hallowed, hbefore, ?_, fun j hj => ?_⟩
        · rw [htail, update_self, hqueue]
          rfl
        · rw [htail, update_of_ne hj]
  band := by
    intro level hlevel
    have hlow : ¬ rtLevels ≤ (level : Nat) := Nat.not_le_of_lt hlevel
    simp [allowed, hlow, ordinary]
  idle := by
    intro avoidBand
    have heq := h.pickNextMasked_eq avoidBand
    unfold serve at heq
    rw [(Prod.mk.inj heq).1]
    constructor
    · intro hnone i
      by_contra hi
      obtain ⟨j, hj, hne⟩ := allowed_nonempty avoidBand ⟨i, hi⟩
      split at hnone
      · next hfirst => exact hne (first_eq_none_iff.1 hfirst j hj)
      · next level hfirst =>
          exact (first_spec hfirst).2.1 (List.head?_eq_none_iff.1 hnone)
    · intro hempty
      rw [first_eq_none_iff.2 fun i _ => hempty i]
  pickNext := rfl
  dequeue := by
    intro id priority
    obtain ⟨-, hq, hr⟩ := h.dequeue_spec id priority
    exact ⟨fun i => by rw [hq]; rfl, hr⟩
  steal := by
    intro count
    obtain ⟨h1, h2, -⟩ := h.steal_spec count
    refine ⟨_, h1, by rw [h2], fun i => ?_, ?_⟩
    · rw [h2]
      exact takeBack_spec (List.nodup_finRange _) _ _ i
    · exact length_takeBack (List.nodup_finRange _) _ _

/-- **The run queue refines 32 plain queues**, in every state its operations reach. -/
theorem run_queue_refines_fifos (h : Reach step (· = new) s) : s.RefinesFifos :=
  (reach_mirrors h).refinesFifos

theorem run_queue_refines_fifos_twoTasks : ((new.enqueue 7 3).enqueue 9 12).RefinesFifos :=
  run_queue_refines_fifos
    (.next (a := .enqueue 9 12) (.next (a := .enqueue 7 3) (.start rfl) trivial rfl) trivial rfl)

end PriorityRoundRobin

end SlateOS.Sched
