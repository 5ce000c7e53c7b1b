/-
# SlateOS.Sched.KMutexRuns -- mutual exclusion, and who can take a handed-off mutex

Two invariants over every interleaving. `Exclusive`: a guard exists only while the state is `LOCKED`, and
there is one. `Reserved`: while the state is `HANDOFF`, some task that has slept is about to make its
check, or the unlocking task is still in `unlock`. The first holds in every run. The second survives every
step but one: the wake of a handoff counts as delivered when the waiter it took from the queue has in the
meantime left the wait by its timeout, still without having slept, and is `Blocked` on something else.
-/
import SlateOS.Foundation.Runs
import SlateOS.Sched.KMutex

namespace SlateOS.Sched

open Foundation.Runs
open Function (update update_self update_of_ne)

namespace MutexPlace

/-- In `unlock`, the mutex not yet given up. -/
def releasing : MutexPlace → Bool
  | .swapStarving | .storeHandoff | .storeUnlocked => true
  | _ => false

/-- Has slept on the queue and is about to make its check, which may take a handoff. -/
def canTakeHandoff : MutexPlace → Bool
  | .waiting _ .awake | .waiting _ (.condition _ true) | .takeHandoff _ _ => true
  | _ => false

/-- In `unlock`, having handed the mutex over and not yet done. -/
def handingOver : MutexPlace → Bool
  | .handoffTake | .handoffWake _ | .freeHandoff => true
  | _ => false

/-- A handed-off mutex is not lost while a task is here. -/
def minds (p : MutexPlace) : Bool := p.canTakeHandoff || p.handingOver

@[simp] theorem releasing_ofNext (n : WaitNext) : (ofNext n).releasing = false := by cases n <;> rfl

@[simp] theorem releasing_slow (call : MutexCall) : (slow call).releasing = false := by
  cases call with
  | lock => rfl
  | tryLock => rfl
  | lockTimeoutNs ns =>
    show (if ns = 0 then running else _).releasing = false
    split <;> rfl

theorem not_releasing_of_ready {p p' : MutexPlace} (h : p.ready = some p') : p'.releasing = false := by
  unfold ready at h
  split at h <;> cases h <;> rfl

theorem not_minds_of_ready {p p' : MutexPlace} (h : p.ready = some p') : p.minds = false := by
  unfold ready at h
  split at h <;> cases h <;> rfl

/-- A wake out of the wait itself leads to the check. -/
theorem minds_of_ready {p p' : MutexPlace} (h : p.ready = some p') (hp : p ≠ .elsewhere) :
    p'.minds = true := by
  unfold ready at h
  split at h
  next => exact absurd rfl hp
  next =>
    cases h
    rfl
  next => cases h

end MutexPlace

namespace KMutex

open MutexPlace

/-- The start of a run. -/
def Init (m : KMutex) : Prop := ∃ pending, m = new pending

variable {t : TaskId}

theorem of_call {m m' : KMutex} {call : MutexCall}
    (h : m.step (.call t call) = some m') :
    m.tasks.place t = .running ∧ m' = m.goto t (.fast call) := by
  simp only [step] at h
  split at h
  next hp => exact ⟨hp, (Option.some.inj h).symm⟩
  next => cases h

theorem of_unlock {m m' : KMutex} (h : m.step (.unlock t) = some m') :
    m.tasks.place t = .running ∧ 0 < m.guards t ∧ m' = m.goto t .swapStarving := by
  simp only [step] at h
  split at h
  next hp =>
    split at h
    next => cases h
    next hguard => exact ⟨hp, Nat.pos_of_ne_zero hguard, (Option.some.inj h).symm⟩
  next => cases h

theorem of_park {m m' : KMutex} (h : m.step (.park t) = some m') :
    m.tasks.place t = .running ∧
      (m' = { m with tasks := m.tasks.setPending t false } ∨ m' = m.goto t .elsewhere) := by
  simp only [step] at h
  split at h
  next hp =>
    split at h
    next => exact ⟨hp, Or.inl (Option.some.inj h).symm⟩
    next => exact ⟨hp, Or.inr (Option.some.inj h).symm⟩
  next => cases h

variable {m : KMutex} {late : Bool}

/-- A step of the wait loop outside the calls of `try_acquire`. -/
theorem advance_waiting {kind : WaitKind} {point : WaitPoint}
    (h : ¬∃ site woken, point = .condition site woken) :
    m.advance t late (.waiting kind point) =
      (kind.step t late m.waiters (m.tasks.pendingWake t) point).map fun (next, waiters, pending) =>
        { m with
          waiters := waiters
          tasks := (m.tasks.goto t (ofNext next)).setPending t pending } := by
  cases point with
  | condition site woken => exact absurd ⟨site, woken, rfl⟩ h
  | _ => rfl

/-! ## Mutual exclusion -/

/-- At most one guard, only while the state is `LOCKED`, and a task that gives the mutex up has it. -/
structure Exclusive (m : KMutex) : Prop where
  locked : ∀ t, 0 < m.guards t → m.state = .locked
  one : ∀ t, m.guards t ≤ 1
  unique : ∀ t u, 0 < m.guards t → 0 < m.guards u → t = u
  releasing : ∀ t, (m.tasks.place t).releasing = true → 0 < m.guards t

variable {m m' : KMutex} {t u : TaskId} {p : MutexPlace}

/-- The invariant reads the state, the guards and who is giving the mutex up. -/
theorem Exclusive.of_eq (h : Exclusive m) (hs : m'.state = m.state) (hg : m'.guards = m.guards)
    (hr : ∀ u, (m'.tasks.place u).releasing = true →
      (m.tasks.place u).releasing = true ∨ 0 < m.guards u) : Exclusive m' where
  locked u hu := hs.trans (h.locked u (hg ▸ hu))
  one u := hg ▸ h.one u
  unique u v hu hv := h.unique u v (hg ▸ hu) (hg ▸ hv)
  releasing u hu := by
    rw [hg]
    exact (hr u hu).elim (h.releasing u) id

theorem Exclusive.goto (h : Exclusive m) (hp : p.releasing = true → 0 < m.guards t) :
    Exclusive (m.goto t p) := by
  refine h.of_eq rfl rfl fun u hu => ?_
  by_cases hut : u = t
  · subst hut
    have hself : ((m.goto u p).tasks.place u) = p := Tasks.goto_place_self
    exact Or.inr (hp (hself ▸ hu))
  · have hother : ((m.goto t p).tasks.place u) = m.tasks.place u := Tasks.goto_place_of_ne hut
    exact Or.inl (hother ▸ hu)

/-- While the state is not `LOCKED` nobody has a guard. -/
theorem Exclusive.guards_eq_zero (h : Exclusive m) (hfree : m.state ≠ .locked) (u : TaskId) :
    m.guards u = 0 :=
  Nat.eq_zero_of_not_pos fun hu => hfree (h.locked u hu)

theorem Exclusive.take (h : Exclusive m) (hfree : m.state ≠ .locked) (hp : p.releasing = false) :
    Exclusive (m.take t p) := by
  have hzero := h.guards_eq_zero hfree
  have hg : (m.take t p).guards = update (fun _ => 0) t 1 := by
    funext u
    show update m.guards t (m.guards t + 1) u = _
    by_cases hut : u = t
    · subst hut
      rw [update_self, update_self, hzero]
    · rw [update_of_ne hut, update_of_ne hut, hzero]
  have honly : ∀ u, 0 < (m.take t p).guards u → u = t := by
    intro u hu
    by_contra hut
    rw [hg, update_of_ne hut] at hu
    exact absurd hu (Nat.lt_irrefl 0)
  refine ⟨fun _ _ => rfl, fun u => ?_, fun u v hu hv => (honly u hu).trans (honly v hv).symm,
    fun u hu => ?_⟩
  · rw [hg]
    by_cases hut : u = t
    · subst hut
      rw [update_self]
    · rw [update_of_ne hut]
      exact Nat.zero_le 1
  · -- the taker is not giving the mutex up, and nobody else was
    by_cases hut : u = t
    · subst hut
      have hself : ((m.take u p).tasks.place u) = p := Tasks.goto_place_self
      rw [hself, hp] at hu
      cases hu
    · have hother : ((m.take t p).tasks.place u) = m.tasks.place u := Tasks.goto_place_of_ne hut
      have hpos := h.releasing u (hother ▸ hu)
      rw [hzero u] at hpos
      exact absurd hpos (Nat.lt_irrefl 0)

theorem Exclusive.giveUp (h : Exclusive m) (ht : 0 < m.guards t) (state : MutexState)
    (hp : p.releasing = false) : Exclusive (m.giveUp t state p) := by
  have hzero : ∀ u, (m.giveUp t state p).guards u = 0 := by
    intro u
    show update m.guards t (m.guards t - 1) u = 0
    by_cases hut : u = t
    · subst hut
      rw [update_self]
      have := h.one u
      omega
    · rw [update_of_ne hut]
      exact Nat.eq_zero_of_not_pos fun hu => hut (h.unique u t hu ht)
  refine ⟨fun u hu => ?_, fun u => ?_, fun u v hu => ?_, fun u hu => ?_⟩
  · exact absurd hu (by simp [hzero])
  · simp [hzero]
  · exact absurd hu (by simp [hzero])
  · -- another task giving the mutex up would have had a second guard
    by_cases hut : u = t
    · subst hut
      have hself : ((m.giveUp u state p).tasks.place u) = p := Tasks.goto_place_self
      rw [hself, hp] at hu
      cases hu
    · have hother : ((m.giveUp t state p).tasks.place u) = m.tasks.place u :=
        Tasks.goto_place_of_ne hut
      exact absurd (h.unique u t (h.releasing u (hother ▸ hu)) ht) hut

theorem Exclusive.tryTakeFree (h : Exclusive m) {won lost : MutexPlace}
    (hwon : won.releasing = false) (hlost : lost.releasing = false) :
    Exclusive (m.tryTakeFree t won lost) := by
  unfold KMutex.tryTakeFree
  split
  next hs => exact h.take (by rw [hs]; decide) hwon
  next => exact h.goto (by rw [hlost]; exact fun hc => Bool.noConfusion hc)

theorem Exclusive.tryTakeHandoff (h : Exclusive m) {won lost : MutexPlace}
    (hwon : won.releasing = false) (hlost : lost.releasing = false) :
    Exclusive (m.tryTakeHandoff t won lost) := by
  unfold KMutex.tryTakeHandoff
  split
  next hs => exact h.take (by rw [hs]; decide) hwon
  next => exact h.goto (by rw [hlost]; exact fun hc => Bool.noConfusion hc)

theorem Exclusive.tryFreeHandoff (h : Exclusive m) {freed taken : MutexPlace}
    (hfreed : freed.releasing = false) (htaken : taken.releasing = false) :
    Exclusive (m.tryFreeHandoff t freed taken) := by
  unfold KMutex.tryFreeHandoff
  split
  next hs =>
    -- no guard exists, so freeing the mutex takes it from nobody
    have hgoto : Exclusive (m.goto t freed) :=
      h.goto (by rw [hfreed]; exact fun hc => Bool.noConfusion hc)
    refine ⟨fun u hu => ?_, hgoto.one, hgoto.unique, hgoto.releasing⟩
    have hlocked := h.locked u hu
    rw [hs] at hlocked
    cases hlocked
  next => exact h.goto (by rw [htaken]; exact fun hc => Bool.noConfusion hc)

theorem Exclusive.takeOne (h : Exclusive m) {found : TaskId → MutexPlace} {empty : MutexPlace}
    (hfound : ∀ u, (found u).releasing = false) (hempty : empty.releasing = false) :
    Exclusive (m.takeOne t found empty) := by
  unfold KMutex.takeOne
  split
  next u q _ =>
    refine Exclusive.of_eq (h.goto (t := t) (p := found u) ?_) rfl rfl fun _ hu => Or.inl hu
    rw [hfound u]
    exact fun hc => Bool.noConfusion hc
  next => exact h.goto (by rw [hempty]; exact fun hc => Bool.noConfusion hc)

/-- A wake moves a task to a place that gives nothing up. -/
theorem Exclusive.wake (h : Exclusive m) (u : TaskId) :
    Exclusive { m with tasks := (m.tasks.wake ready u).2 } := by
  refine h.of_eq rfl rfl fun v hv => ?_
  by_cases hvu : v = u
  · subst hvu
    cases hr : ready (m.tasks.place v) with
    | none =>
      rw [Tasks.wake_place_of_none hr] at hv
      exact Or.inl hv
    | some p =>
      rw [Tasks.wake_place_of_some hr, update_self, not_releasing_of_ready hr] at hv
      cases hv
  · rw [Tasks.wake_place_of_ne hvu] at hv
    exact Or.inl hv

theorem exclusive_advance (h : Exclusive m)
    (hs : m.advance t late (m.tasks.place t) = some m') : Exclusive m' := by
  -- the places that give nothing up go on to places that give nothing up
  have hkeep : ∀ p : MutexPlace, p.releasing = false → (p.releasing = true → 0 < m.guards t) :=
    fun p hp hc => Bool.noConfusion (hp.symm.trans hc)
  cases hp : m.tasks.place t with
  | running => rw [hp] at hs; cases hs
  | elsewhere => rw [hp] at hs; cases hs
  | fast call =>
    rw [hp] at hs
    cases hs
    exact h.tryTakeFree rfl (releasing_slow call)
  | spin kind left =>
    rw [hp] at hs
    cases left with
    | zero =>
      cases hs
      exact h.goto (hkeep _ rfl)
    | succ left =>
      cases hs
      exact h.tryTakeFree rfl rfl
  | waiting kind point =>
    rw [hp] at hs
    by_cases hpoint : ∃ site woken, point = .condition site woken
    · obtain ⟨site, woken, rfl⟩ := hpoint
      cases hs
      refine h.tryTakeFree (releasing_ofNext _) ?_
      split
      · rfl
      · exact releasing_ofNext _
    · rw [advance_waiting hpoint, Option.map_eq_some_iff] at hs
      obtain ⟨⟨next, waiters, pending⟩, -, rfl⟩ := hs
      exact (h.goto (t := t) (hkeep _ (releasing_ofNext next))).of_eq rfl rfl fun _ hu => Or.inl hu
  | takeHandoff kind site =>
    rw [hp] at hs
    cases hs
    exact h.tryTakeHandoff (releasing_ofNext _) rfl
  | setStarving kind site =>
    rw [hp] at hs
    cases hs
    exact (h.goto (t := t) (hkeep _ (releasing_ofNext _))).of_eq rfl rfl fun _ hu => Or.inl hu
  | swapStarving =>
    rw [hp] at hs
    cases hs
    have hguard : 0 < m.guards t := h.releasing t (by rw [hp]; rfl)
    exact (h.goto (t := t) fun _ => hguard).of_eq rfl rfl fun _ hu => Or.inl hu
  | storeHandoff =>
    rw [hp] at hs
    cases hs
    exact h.giveUp (h.releasing t (by rw [hp]; rfl)) _ rfl
  | storeUnlocked =>
    rw [hp] at hs
    cases hs
    exact h.giveUp (h.releasing t (by rw [hp]; rfl)) _ rfl
  | handoffTake =>
    rw [hp] at hs
    cases hs
    exact h.takeOne (fun _ => rfl) rfl
  | handoffWake u =>
    rw [hp] at hs
    cases hs
    refine (h.wake u).goto (hkeep _ ?_)
    split <;> rfl
  | freeHandoff =>
    rw [hp] at hs
    cases hs
    exact h.tryFreeHandoff rfl rfl
  | freeTake =>
    rw [hp] at hs
    cases hs
    exact h.takeOne (fun _ => rfl) rfl
  | freeWake u =>
    rw [hp] at hs
    cases hs
    exact (h.wake u).goto (hkeep _ rfl)

theorem exclusive_step (h : Exclusive m) {a : Action} (hs : m.step a = some m') : Exclusive m' := by
  cases a with
  | call t call =>
    obtain ⟨-, rfl⟩ := of_call hs
    exact h.goto fun hc => Bool.noConfusion hc
  | unlock t =>
    obtain ⟨-, hguard, rfl⟩ := of_unlock hs
    exact h.goto fun _ => hguard
  | advance t late => exact exclusive_advance h hs
  | park t =>
    obtain ⟨-, rfl | rfl⟩ := of_park hs
    · exact h.of_eq rfl rfl fun _ hu => Or.inl hu
    · exact h.goto fun hc => Bool.noConfusion hc
  | wake t =>
    cases hs
    exact h.wake t

/-- **Mutual exclusion.** -/
theorem exclusive_of_reach (h : Reach step Init m) : Exclusive m := by
  refine h.invariant ?_ fun _ _ _ hm _ hs => exclusive_step hm hs
  rintro m ⟨pending, rfl⟩
  exact ⟨fun _ hu => absurd hu (Nat.lt_irrefl 0), fun _ => Nat.zero_le 1,
    fun _ _ hu => absurd hu (Nat.lt_irrefl 0), fun _ hu => Bool.noConfusion hu⟩

/-! ## A handed-off mutex -/

/-- While the state is `HANDOFF`, somebody is there to take the mutex or still in `unlock`. -/
def Reserved (m : KMutex) : Prop :=
  m.state = .handoff → ∃ t, (m.tasks.place t).minds = true

/-- Task `t` moves and minds the handoff afterwards if it did before; nobody else stops minding it. -/
theorem Reserved.of_moved (h : Reserved m) (hstate : m'.state = .handoff → m.state = .handoff)
    (hself : (m.tasks.place t).minds = true → (m'.tasks.place t).minds = true)
    (hother : ∀ u, u ≠ t → (m.tasks.place u).minds = true → (m'.tasks.place u).minds = true) :
    Reserved m' := by
  intro hs
  obtain ⟨u, hu⟩ := h (hstate hs)
  by_cases hut : u = t
  · subst hut
    exact ⟨u, hself hu⟩
  · exact ⟨u, hother u hut hu⟩

theorem Reserved.goto (h : Reserved m) (hp : (m.tasks.place t).minds = true → p.minds = true) :
    Reserved (m.goto t p) := by
  refine h.of_moved (t := t) id (fun ht => ?_) fun u hut hu => ?_
  · have hself : ((m.goto t p).tasks.place t) = p := Tasks.goto_place_self
    rw [hself]
    exact hp ht
  · have hother : ((m.goto t p).tasks.place u) = m.tasks.place u := Tasks.goto_place_of_ne hut
    exact hother ▸ hu

theorem Reserved.tryTakeFree (h : Reserved m) {won lost : MutexPlace}
    (hlost : (m.tasks.place t).minds = true → lost.minds = true) :
    Reserved (m.tryTakeFree t won lost) := by
  unfold KMutex.tryTakeFree
  split
  next => exact fun hs => MutexState.noConfusion hs
  next => exact h.goto hlost

theorem Reserved.takeOne (h : Reserved m) {found : TaskId → MutexPlace} {empty : MutexPlace}
    (hfound : ∀ u, (m.tasks.place t).minds = true → (found u).minds = true)
    (hempty : (m.tasks.place t).minds = true → empty.minds = true) :
    Reserved (m.takeOne t found empty) := by
  unfold KMutex.takeOne
  split
  next u q _ => exact h.goto (t := t) (hfound u)
  next => exact h.goto hempty

/-- A wake moves only a blocked task, and a blocked task minds no handoff. -/
theorem Reserved.wake (h : Reserved m) (u : TaskId) :
    Reserved { m with tasks := (m.tasks.wake ready u).2 } := by
  refine h.of_moved (t := u) id (fun hu => ?_) fun v hvu hv => ?_
  · cases hr : ready (m.tasks.place u) with
    | none => rwa [Tasks.wake_place_of_none hr]
    | some p => exact absurd hu (by rw [not_minds_of_ready hr]; exact Bool.false_ne_true)
  · rwa [Tasks.wake_place_of_ne hvu]

/-- A loop whose sleep is over goes straight to its check. -/
theorem minds_of_step {kind : WaitKind} {late pending pending' : Bool} {q q' : WaitQueue}
    {point : WaitPoint} {next : WaitNext} (hpoint : ¬∃ site woken, point = .condition site woken)
    (h : kind.step t late q pending point = some (next, q', pending'))
    (hminds : (MutexPlace.waiting kind point).minds = true) : (ofNext next).minds = true := by
  cases point with
  | condition site woken => exact absurd ⟨site, woken, rfl⟩ hpoint
  | awake =>
    cases h
    rfl
  | _ => cases hminds

/-- The wake of a handoff does not go to a task that is `Blocked` on something else. -/
def Attended (m : KMutex) : Action → Prop
  | .advance t _ => ∀ u, m.tasks.place t = .handoffWake u → m.state = .handoff →
      m.tasks.place u ≠ .elsewhere
  | _ => True

theorem reserved_advance (h : Reserved m) (hok : Attended m (.advance t late))
    (hs : m.advance t late (m.tasks.place t) = some m') : Reserved m' := by
  cases hp : m.tasks.place t with
  | running => rw [hp] at hs; cases hs
  | elsewhere => rw [hp] at hs; cases hs
  | fast call =>
    rw [hp] at hs
    cases hs
    exact h.tryTakeFree fun hc => Bool.noConfusion (hp ▸ hc)
  | spin kind left =>
    rw [hp] at hs
    cases left with
    | zero =>
      cases hs
      exact h.goto fun hc => Bool.noConfusion (hp ▸ hc)
    | succ left =>
      cases hs
      exact h.tryTakeFree fun hc => Bool.noConfusion (hp ▸ hc)
  | waiting kind point =>
    rw [hp] at hs
    by_cases hpoint : ∃ site woken, point = .condition site woken
    · -- a task that has slept and finds the mutex not free tries the handoff next
      obtain ⟨site, woken, rfl⟩ := hpoint
      cases hs
      refine h.tryTakeFree fun hc => ?_
      rw [hp] at hc
      cases woken with
      | true => rfl
      | false => cases hc
    · rw [advance_waiting hpoint, Option.map_eq_some_iff] at hs
      obtain ⟨⟨next, waiters, pending⟩, hstep, rfl⟩ := hs
      exact h.goto (t := t) fun hc => minds_of_step hpoint hstep (hp ▸ hc)
  | takeHandoff kind site =>
    rw [hp] at hs
    cases hs
    unfold tryTakeHandoff
    split
    next => exact fun hs => MutexState.noConfusion hs
    next hstate => exact fun hs => absurd hs (hstate ·)
  | setStarving kind site =>
    rw [hp] at hs
    cases hs
    exact h.goto (t := t) fun hc => Bool.noConfusion (hp ▸ hc)
  | swapStarving =>
    rw [hp] at hs
    cases hs
    exact h.goto (t := t) fun hc => Bool.noConfusion (hp ▸ hc)
  | storeHandoff =>
    -- the unlocking task is the first to mind the handoff
    rw [hp] at hs
    cases hs
    refine fun _ => ⟨t, ?_⟩
    have hself : (m.giveUp t .handoff .handoffTake).tasks.place t = .handoffTake :=
      Tasks.goto_place_self
    rw [hself]
    rfl
  | storeUnlocked =>
    rw [hp] at hs
    cases hs
    exact fun hs => MutexState.noConfusion hs
  | handoffTake =>
    rw [hp] at hs
    cases hs
    exact h.takeOne (fun _ _ => rfl) fun _ => rfl
  | handoffWake u =>
    rw [hp] at hs
    cases hs
    intro hstate
    cases hr : ready (m.tasks.place u) with
    | none =>
      -- nobody was woken: the unlocking task goes on to free the mutex
      refine ⟨t, ?_⟩
      have hfalse : (m.tasks.wake ready u).1 = false := Tasks.wake_false_of_none hr
      have hself := Tasks.goto_place_self (s := (m.tasks.wake ready u).2) (t := t)
        (p := if (m.tasks.wake ready u).1 then .running else .freeHandoff)
      rw [hself, hfalse]
      rfl
    | some p =>
      -- the woken task slept in its wait, and is about to make its check
      refine ⟨u, ?_⟩
      have hut : u ≠ t := by
        rintro rfl
        rw [hp] at hr
        cases hr
      have hother := Tasks.goto_place_of_ne (s := (m.tasks.wake ready u).2) (t := t) (u := u)
        (p := if (m.tasks.wake ready u).1 then .running else .freeHandoff) hut
      rw [hother, Tasks.wake_place_of_some hr, update_self]
      exact minds_of_ready hr (hok u hp hstate)
  | freeHandoff =>
    rw [hp] at hs
    cases hs
    unfold tryFreeHandoff
    split
    next => exact fun hs => MutexState.noConfusion hs
    next hstate => exact fun hs => absurd hs hstate
  | freeTake =>
    rw [hp] at hs
    cases hs
    exact h.takeOne (fun _ hc => Bool.noConfusion (hp ▸ hc)) fun hc => Bool.noConfusion (hp ▸ hc)
  | freeWake u =>
    rw [hp] at hs
    cases hs
    have hself : (m.tasks.wake ready u).2.place t = m.tasks.place t :=
      Tasks.wake_place_of_not_blocked (by rw [hp]; rfl)
    refine (h.wake u).goto fun hc => ?_
    have hminds : (MutexPlace.freeWake u).minds = true := by rw [← hp, ← hself]; exact hc
    cases hminds

theorem reserved_step (h : Reserved m) {a : Action} (hok : Attended m a) (hs : m.step a = some m') :
    Reserved m' := by
  cases a with
  | call t call =>
    obtain ⟨hp, rfl⟩ := of_call hs
    exact h.goto fun hc => Bool.noConfusion (hp ▸ hc)
  | unlock t =>
    obtain ⟨hp, -, rfl⟩ := of_unlock hs
    exact h.goto fun hc => Bool.noConfusion (hp ▸ hc)
  | advance t late => exact reserved_advance h hok hs
  | park t =>
    obtain ⟨hp, rfl | rfl⟩ := of_park hs
    · exact h
    · exact h.goto fun hc => Bool.noConfusion (hp ▸ hc)
  | wake t =>
    cases hs
    exact h.wake t

/-- **Safe in every run, never stranded in an attended one.** In every interleaving at most one task has
a guard, and it has one. In every interleaving whose handoffs are attended, a mutex in `HANDOFF` has a task
that has slept and is about to make its check, or one still in the `unlock` that handed it over. -/
theorem exclusive_and_never_stranded (m : KMutex) :
    (Reach step Init m → ∀ t u, 0 < m.guards t → 0 < m.guards u → t = u ∧ m.guards t = 1) ∧
      (ReachBy step Attended Init m → m.state = .handoff →
        ∃ t, (m.tasks.place t).canTakeHandoff = true ∨ (m.tasks.place t).handingOver = true) := by
  constructor
  · intro h t u ht hu
    have hex := exclusive_of_reach h
    exact ⟨hex.unique t u ht hu, Nat.le_antisymm (hex.one t) ht⟩
  · intro h hstate
    have hreserved : Reserved m := by
      refine h.invariant ?_ (fun _ _ _ hm hok hs => reserved_step hm hok hs)
      rintro m ⟨pending, rfl⟩ hs
      cases hs
    obtain ⟨t, ht⟩ := hreserved hstate
    exact ⟨t, by simpa [minds] using ht⟩

/-! ## Two runs -/

/-- Task `t` asks for the mutex and takes `n` steps. -/
def asks (t : TaskId) (call : MutexCall) (n : Nat) : List Action :=
  .call t call :: List.replicate n (.advance t false)

/-- Task `t` drops its guard and takes `n` steps. -/
def drops (t : TaskId) (n : Nat) : List Action := .unlock t :: List.replicate n (.advance t false)

/-- Task 0 takes the mutex, task 1 waits for it, is woken, and loses it to task 0 again; the next `unlock`
of task 0 is a handoff. -/
def overtaken : List Action :=
  asks 0 .lock 1 ++ asks 1 .lock 46 ++ drops 0 4 ++ asks 0 .lock 1 ++
    List.replicate 9 (.advance 1 false) ++ drops 0 4

/-- Task 1 waits with a timeout until it has been passed over once, and gives up. Task 2 registers, finds
its time over before it has slept, and parks on something else while task 0 is about to wake it. -/
def abandoned : List Action :=
  asks 0 .lock 1 ++ asks 1 (.lockTimeoutNs 1000000) 47 ++ [.wake 1] ++
    List.replicate 4 (.advance 1 false) ++ [.advance 1 true] ++
    asks 2 (.lockTimeoutNs 1000000) 45 ++ drops 0 3 ++ [.advance 2 true] ++
    List.replicate 2 (.advance 2 false) ++ [.park 2, .advance 0 false]

theorem init_new (pending : TaskId → Bool) : Init (new pending) := ⟨pending, rfl⟩

/-- `Attended`, read off the state. -/
def attended (m : KMutex) : Action → Bool
  | .advance t _ =>
    match m.tasks.place t with
    | .handoffWake u => m.state != .handoff || m.tasks.place u != .elsewhere
    | _ => true
  | _ => true

theorem attended_of_check (m : KMutex) (a : Action) (h : attended m a = true) : Attended m a := by
  cases a with
  | advance t late =>
    intro u hu hstate helse
    simp [attended, hu, hstate, helse] at h
  | _ => trivial

theorem exclusive_and_never_stranded_overtaken :
    ∃ m : KMutex, m.state = .handoff ∧
      (∀ t u, 0 < m.guards t → 0 < m.guards u → t = u ∧ m.guards t = 1) ∧
      ∃ t, (m.tasks.place t).canTakeHandoff = true ∨ (m.tasks.place t).handingOver = true := by
  have hsome : (run step (new fun _ => false) overtaken).isSome = true := by decide +kernel
  obtain ⟨m, hm⟩ := Option.isSome_iff_exists.1 hsome
  have hstate : (run step (new fun _ => false) overtaken).map KMutex.state = some .handoff := by
    decide +kernel
  have halong : Along step Attended (new fun _ => false) overtaken :=
    Along.of_check attended_of_check (by decide +kernel)
  have hreach : ReachBy step Attended Init m := (ReachBy.start (init_new _)).of_run hm halong
  rw [hm, Option.map_some, Option.some.injEq] at hstate
  exact ⟨m, hstate, (exclusive_and_never_stranded m).1 hreach.reach,
    (exclusive_and_never_stranded m).2 hreach hstate⟩

set_option maxRecDepth 8000 in
/-- After `abandoned` every task is outside the mutex's code. -/
theorem place_of_abandoned (hm : run step (new fun _ => false) abandoned = some m)
    (t : TaskId) : m.tasks.place t = .running := by
  have hplace : (run step (new fun _ => false) abandoned).map (fun m => m.tasks.place t) =
      some .running := by
    match t with
    | 0 => decide +kernel
    | 1 => decide +kernel
    | 2 => decide +kernel
    | t + 3 => rfl
  rw [hm, Option.map_some, Option.some.injEq] at hplace
  exact hplace

/-- A mutex is handed over and nobody is left to take it. -/
theorem abandoned_handoff_is_stranded :
    ¬∀ m : KMutex, Reach step Init m → m.state = .handoff →
      ∃ t, (m.tasks.place t).canTakeHandoff = true ∨ (m.tasks.place t).handingOver = true := by
  intro hclaim
  have hsome : (run step (new fun _ => false) abandoned).isSome = true := by decide +kernel
  obtain ⟨m, hm⟩ := Option.isSome_iff_exists.1 hsome
  have hstate : (run step (new fun _ => false) abandoned).map KMutex.state = some .handoff := by
    decide +kernel
  rw [hm, Option.map_some, Option.some.injEq] at hstate
  have hreach : Reach step Init m := Reach.of_run (ReachBy.start (init_new _)) hm
  obtain ⟨t, ht⟩ := hclaim m hreach hstate
  rw [place_of_abandoned hm t] at ht
  exact ht.elim Bool.noConfusion Bool.noConfusion

end KMutex

end SlateOS.Sched
