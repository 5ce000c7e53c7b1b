/-
# SlateOS.Ipc.CompletionPort.Runs -- what is posted comes out once, and who waits is named

Every event posted to a port is in its queue, has been taken by one call, or was discarded with its source
or the port, and leaves the queue in order; a call returns what it has taken. That holds in every run. That
whoever is parked is named by the port, or about to be woken, holds in the runs in which a wait finds the
port's one place for a waiter free, no call takes the last events from under a wait that was woken for them,
and `register` does not take the place of a wait that has the new set already. Without the condition two
waits, a wait and a `try_wait`, or a wait and a `register`, leave a task parked that nobody will wake.
-/
import SlateOS.Foundation.Runs
import SlateOS.Ipc.CompletionPort.Model

namespace SlateOS.Ipc

open Kernel Sched Foundation Foundation.MachineInt
open Function (update update_self update_of_ne)

/-! ## The account of events -/

/-- What has become of the events posted. -/
structure PortHistory where
  posted : List CompletionEvent
  taken : List CompletionEvent
  queued : List CompletionEvent
  dropped : List CompletionEvent

/-- **The account.** Events are numbered as they are posted; each is taken, queued or dropped, once; and what
is taken, followed by what is queued, is in the order of posting. -/
structure PortHistory.Accounted (h : PortHistory) : Prop where
  numbered : h.posted.map CompletionEvent.number = (List.range h.posted.length).map some
  once : h.posted.Perm (h.taken ++ h.queued ++ h.dropped)
  ordered : (h.taken ++ h.queued).Sublist h.posted

namespace PortHistory.Accounted

variable {h : PortHistory}

/-- No event is posted twice. -/
theorem nodup (ha : h.Accounted) : h.posted.Nodup := by
  refine List.Nodup.of_map CompletionEvent.number ?_
  rw [ha.numbered]
  exact (List.nodup_range).map (Option.some_injective _)

/-- One more event is posted. -/
theorem post (ha : h.Accounted) {e : CompletionEvent} (he : e.number = some h.posted.length) :
    ({ h with posted := h.posted ++ [e], queued := h.queued ++ [e] } : PortHistory).Accounted where
  numbered := by
    show (h.posted ++ [e]).map CompletionEvent.number = _
    rw [List.map_append, ha.numbered, List.length_append, List.length_singleton, List.range_succ,
      List.map_append, List.map_singleton, List.map_singleton, he]
  once := by
    show (h.posted ++ [e]).Perm (h.taken ++ (h.queued ++ [e]) ++ h.dropped)
    refine (ha.once.append_right [e]).trans ?_
    simp only [List.append_assoc]
    exact List.Perm.append_left _ (List.Perm.append_left _ List.perm_append_comm)
  ordered := by
    show (h.taken ++ (h.queued ++ [e])).Sublist (h.posted ++ [e])
    rw [← List.append_assoc]
    exact ha.ordered.append (List.Sublist.refl _)

/-- The front of the queue is taken. -/
theorem take (ha : h.Accounted) (n : Nat) :
    ({ h with taken := h.taken ++ h.queued.take n, queued := h.queued.drop n } :
      PortHistory).Accounted := by
  have hsplit : (h.taken ++ h.queued.take n) ++ h.queued.drop n = h.taken ++ h.queued := by
    rw [List.append_assoc, List.take_append_drop]
  refine ⟨ha.numbered, ?_, ?_⟩
  · show h.posted.Perm ((h.taken ++ h.queued.take n) ++ h.queued.drop n ++ h.dropped)
    rw [hsplit]
    exact ha.once
  · show ((h.taken ++ h.queued.take n) ++ h.queued.drop n).Sublist h.posted
    rw [hsplit]
    exact ha.ordered

/-- The queued events that meet a test are dropped. -/
theorem drop (ha : h.Accounted) (test : CompletionEvent → Bool) :
    ({ h with queued := h.queued.filter fun e => !test e, dropped := h.dropped ++ h.queued.filter test } :
      PortHistory).Accounted where
  numbered := ha.numbered
  once := by
    show h.posted.Perm
      (h.taken ++ h.queued.filter (fun e => !test e) ++ (h.dropped ++ h.queued.filter test))
    refine ha.once.trans ?_
    have hqueue : h.queued.Perm (h.queued.filter (fun e => !test e) ++ h.queued.filter test) :=
      ((List.filter_append_perm test h.queued).symm).trans List.perm_append_comm
    refine ((hqueue.append_left h.taken).append_right h.dropped).trans ?_
    simp only [List.append_assoc]
    exact List.Perm.append_left _ (List.Perm.append_left _ List.perm_append_comm)
  ordered := (List.Sublist.append_left List.filter_sublist h.taken).trans ha.ordered

end PortHistory.Accounted

/-- The port names a wait with this snapshot, or has something for it to see. -/
def CompletionPort.Shows (p : CompletionPort) (u : Sched.TaskId) (snap : Snapshot) : Prop :=
  p.waiter = some u ∨ p.eventQueue ≠ [] ∨ snap.generation ≠ p.generation

/-- Past its look at the port, a task relies on being woken. -/
def PortPlace.relies : PortPlace → Bool
  | .poll _ _ _ | .park _ | .parked _ => true
  | _ => false

namespace PortSystem

/-- The history of the port; a port that is gone has nothing queued. -/
def history (m : PortSystem) : PortHistory where
  posted := m.posted
  taken := m.taken
  queued := m.port.elim [] CompletionPort.eventQueue
  dropped := m.dropped

/-- The events a task has of its call: on their way out, or returned. -/
def Gets (m : PortSystem) (t : Sched.TaskId) (evs : List CompletionEvent) : Prop :=
  (∃ snap, m.tasks.place t = .leaveSets snap (.events evs)) ∨
    ∃ call, m.tasks.place t = .user (some (call, .events (.ok evs)))

/-- The port's place for a waiter names the task, or a call is about to wake it. -/
def Named (m : PortSystem) (u : Sched.TaskId) : Prop :=
  (∃ p ∈ m.port, p.waiter = some u) ∨ ∃ t call r, m.tasks.place t = .wake call r u

/-- The registrations that the wait of a task has seen; none for a task that is not in its loop. -/
def generationOf (m : PortSystem) (u : Sched.TaskId) : Option Nat :=
  (m.tasks.place u).waits.map Snapshot.generation

/-- Whatever `t` takes leaves something for every other wait to see. -/
def LeavesSome (m : PortSystem) (p : CompletionPort) (t : Sched.TaskId) : Prop :=
  p.eventQueue.length ≤ maxEventsPerWait →
    ∀ u ∈ m.waiting, u ≠ t → p.waiter = some u ∨ m.generationOf u ≠ some p.generation

/-- The counter of registrations does not come round to what a wait has seen. -/
def CountsOn (m : PortSystem) (p : CompletionPort) : Prop :=
  ∀ u ∈ m.waiting, m.generationOf u ≠ some (wrappingAdd 64 p.generation 1)

/-- The condition on the next section of `t`, the port being `p`. -/
def SectionOk (m : PortSystem) (t : Sched.TaskId) (p : CompletionPort) : PortPlace → Prop
  | .enter .wait =>
    m.LeavesSome p t ∧
      (p.eventQueue = [] → ∀ u ∈ p.waiter, u = t ∨ m.generationOf u = none)
  | .enter .tryWait | .scan _ => m.LeavesSome p t
  | .enter (.register _ _) | .enter (.unregister _) => m.CountsOn p
  | .wire _ _ => m.CountsOn p ∧ ∀ u ∈ p.waiter, m.generationOf u ≠ some p.generation
  | _ => True

instance (m : PortSystem) (p : CompletionPort) (t : Sched.TaskId) : Decidable (m.LeavesSome p t) :=
  inferInstanceAs (Decidable (_ → ∀ u ∈ m.waiting, _))

instance (m : PortSystem) (p : CompletionPort) : Decidable (m.CountsOn p) :=
  inferInstanceAs (Decidable (∀ u ∈ m.waiting, _))

instance (m : PortSystem) (t : Sched.TaskId) (p : CompletionPort) (q : PortPlace) :
    Decidable (m.SectionOk t p q) :=
  match q with
  | .enter .wait => inferInstanceAs (Decidable (_ ∧ (_ → ∀ u ∈ p.waiter, _)))
  | .enter .tryWait | .scan _ => inferInstanceAs (Decidable (m.LeavesSome p t))
  | .enter (.register _ _) | .enter (.unregister _) => inferInstanceAs (Decidable (m.CountsOn p))
  | .wire _ _ => inferInstanceAs (Decidable (_ ∧ ∀ u ∈ p.waiter, _))
  | .enter (.notify _) | .enter (.tryNotify _) | .enter .close | .user _ | .wake _ _ _ | .pollOnce _ _
  | .join _ | .poll _ _ _ | .park _ | .parked _ | .again _ | .leaveSets _ _ | .leave _ => isTrue trivial

/-- The condition on a step: a wait finds the place for a waiter free, whoever takes events leaves something
to see for the other waits, `register` does not take a waiter that has seen its registration, and the
counter of registrations does not come round. -/
def Undisturbed (m : PortSystem) : PortAction → Prop
  | .advance t _ => ∀ p ∈ m.port, m.SectionOk t p (m.tasks.place t)
  | _ => True

/-! ## The invariant -/

variable {m m' : PortSystem} {t u : Sched.TaskId}

/-- The invariant, but for tasks whose wake has been taken and not been done: whoever is in the loop of
`wait` is listed, has something to see or is named, and past its look at the port is named or has a wake
recorded. -/
structure InvExcept (ex : Sched.TaskId → Prop) (m : PortSystem) : Prop where
  listed : ∀ u snap, (m.tasks.place u).waits = some snap → u ∈ m.waiting
  shown : ∀ p ∈ m.port, ∀ u snap, (m.tasks.place u).waits = some snap → p.Shows u snap
  attended : ∀ u, ¬ ex u → (m.tasks.place u).relies = true →
    m.Named u ∨ m.tasks.pendingWake u = true ∧ PortPlace.ready (m.tasks.place u) = none

/-- The invariant. -/
abbrev Inv (m : PortSystem) : Prop := m.InvExcept fun _ => False

theorem Inv.create (pending : Sched.TaskId → Bool) (sourceReady : WaitSource → Bool) :
    (create pending sourceReady).Inv where
  listed _ _ h := by cases h
  shown _ _ _ _ h := by cases h
  attended _ _ h := by cases h

/-- A wake does what was still owed to its task. -/
theorem InvExcept.wake {ex : Sched.TaskId → Prop} (hinv : m.InvExcept ex) (u : Sched.TaskId) :
    (m.wake u).InvExcept fun v => ex v ∧ v ≠ u := by
  cases hr : PortPlace.ready (m.tasks.place u) with
  | none =>
    -- The wake is recorded.
    have hplace : (m.wake u).tasks.place = m.tasks.place := Tasks.wake_place_of_none hr
    have hpending : (m.wake u).tasks.pendingWake = update m.tasks.pendingWake u true := by
      show (m.tasks.wake PortPlace.ready u).2.pendingWake = _
      unfold Tasks.wake
      rw [hr]
      rfl
    refine ⟨?_, ?_, ?_⟩
    · rw [hplace]
      exact hinv.listed
    · rw [hplace]
      exact hinv.shown
    · intro v hex hv
      rw [hplace, hpending]
      by_cases hvu : v = u
      · subst hvu
        exact .inr ⟨update_self .., hr⟩
      · rw [update_of_ne hvu]
        rw [hplace] at hv
        rcases hinv.attended v (fun h => hex ⟨h, hvu⟩) hv with hnamed | hrecorded
        · refine .inl ?_
          unfold Named
          rw [hplace]
          exact hnamed
        · exact .inr hrecorded
  | some q =>
    -- The task was parked.
    obtain ⟨snap, hparked, rfl⟩ : ∃ snap, m.tasks.place u = .parked snap ∧ q = .again snap := by
      cases hp : m.tasks.place u with
      | parked snap =>
        rw [hp] at hr
        cases hr
        exact ⟨snap, rfl, rfl⟩
      | _ =>
        rw [hp] at hr
        cases hr
    have hplace : (m.wake u).tasks.place = update m.tasks.place u (.again snap) :=
      Tasks.wake_place_of_some hr
    have hwaits : ∀ v s, ((m.wake u).tasks.place v).waits = some s →
        (m.tasks.place v).waits = some s := by
      intro v s hv
      rw [hplace] at hv
      by_cases hvu : v = u
      · subst hvu
        rw [update_self] at hv
        rw [hparked]
        exact hv
      · rwa [update_of_ne hvu] at hv
    refine ⟨fun v s hv => hinv.listed v s (hwaits v s hv),
      fun p hp v s hv => hinv.shown p hp v s (hwaits v s hv), ?_⟩
    intro v hex hv
    by_cases hvu : v = u
    · subst hvu
      rw [hplace, update_self] at hv
      cases hv
    · have hstay : (m.wake u).tasks.place v = m.tasks.place v := by
        rw [hplace, update_of_ne hvu]
      rw [hstay] at hv ⊢
      rcases hinv.attended v (fun h => hex ⟨h, hvu⟩) hv with (hslot | ⟨w, call, r, hw⟩) | ⟨hp, hready⟩
      · exact .inl (.inl hslot)
      · refine .inl (.inr ⟨w, call, r, ?_⟩)
        have hwu : w ≠ u := by
          rintro rfl
          cases hw.symm.trans hparked
        rw [hplace, update_of_ne hwu]
        exact hw
      · refine .inr ⟨?_, hready⟩
        have hother : (m.wake u).tasks.pendingWake v = m.tasks.pendingWake v := by
          show (m.tasks.wake PortPlace.ready u).2.pendingWake v = _
          unfold Tasks.wake
          rw [hr]
          exact update_of_ne hvu ..
        rw [hother]
        exact hp

theorem Inv.wake (hinv : m.Inv) (u : Sched.TaskId) : (m.wake u).Inv := by
  have h := InvExcept.wake hinv u
  exact ⟨h.listed, h.shown, fun v _ => h.attended v (fun hv => hv.1)⟩

/-- With the wake owed to `u` done, none is owed. -/
theorem InvExcept.wakes_all (hinv : m.InvExcept (· = u)) : (m.wake u).Inv := by
  have h := hinv.wake u
  exact ⟨h.listed, h.shown, fun v _ => h.attended v (fun hv => hv.2 hv.1)⟩

variable {q : PortPlace}

/-- The section of a call of `t`, which goes on at `q`. -/
theorem Inv.section {ex : Sched.TaskId → Prop} (hinv : m.Inv)
    (htasks : m'.tasks = m.tasks.goto t q)
    (hlisted : ∀ u, u ≠ t → u ∈ m.waiting → u ∈ m'.waiting)
    (hshown : ∀ p' ∈ m'.port, ∃ p ∈ m.port, ∀ u, u ≠ t → ∀ snap,
      (m.tasks.place u).waits = some snap → p.Shows u snap → p'.Shows u snap)
    (hslot : ∀ u, u ≠ t → ¬ ex u → (m.tasks.place u).relies = true → ∀ p ∈ m.port, p.waiter = some u →
      (∃ p' ∈ m'.port, p'.waiter = some u) ∨ ∃ call r, q = .wake call r u)
    (howed : ∀ u, ¬ ex u → ∀ call r, m.tasks.place t ≠ .wake call r u)
    (hself : ∀ snap, q.waits = some snap → t ∈ m'.waiting ∧ ∀ p' ∈ m'.port, p'.Shows t snap)
    (hrelies : q.relies = true →
      m'.Named t ∨ m.tasks.pendingWake t = true ∧ PortPlace.ready q = none) : m'.InvExcept ex := by
  have hat : m'.tasks.place t = q := by
    rw [htasks]
    exact Tasks.goto_place_self
  have hother : ∀ u, u ≠ t → m'.tasks.place u = m.tasks.place u := by
    intro u hu
    rw [htasks]
    exact Tasks.goto_place_of_ne hu
  have hpending : m'.tasks.pendingWake = m.tasks.pendingWake := by
    rw [htasks]
    rfl
  refine ⟨?_, ?_, ?_⟩
  · intro u snap hu
    by_cases hut : u = t
    · subst hut
      rw [hat] at hu
      exact (hself snap hu).1
    · rw [hother u hut] at hu
      exact hlisted u hut (hinv.listed u snap hu)
  · intro p' hp' u snap hu
    by_cases hut : u = t
    · subst hut
      rw [hat] at hu
      exact (hself snap hu).2 p' hp'
    · rw [hother u hut] at hu
      obtain ⟨p, hp, hkeep⟩ := hshown p' hp'
      exact hkeep u hut snap hu (hinv.shown p hp u snap hu)
  · intro u hex hu
    by_cases hut : u = t
    · subst hut
      rw [hat] at hu ⊢
      rw [hpending]
      exact hrelies hu
    · rw [hother u hut] at hu ⊢
      rw [hpending]
      rcases hinv.attended u not_false hu with (⟨p, hp, hw⟩ | ⟨v, call, r, hv⟩) | hrecorded
      · rcases hslot u hut hex hu p hp hw with hslot | ⟨call, r, rfl⟩
        · exact .inl (.inl hslot)
        · exact .inl (.inr ⟨t, call, r, hat⟩)
      · have hvt : v ≠ t := by
          rintro rfl
          exact howed u hex call r hv
        exact .inl (.inr ⟨v, call, r, (hother v hvt).trans hv⟩)
      · exact .inr hrecorded

variable {snap : Snapshot}

theorem generationOf_of_waits (h : (m.tasks.place u).waits = some snap) :
    m.generationOf u = some snap.generation := by
  unfold generationOf
  rw [h]
  rfl

/-! ## Sections by what they do to the port -/

/-- The task is not about to do a wake. -/
def OwesNone (m : PortSystem) (t : Sched.TaskId) : Prop := ∀ call r u, m.tasks.place t ≠ .wake call r u

theorem OwesNone.of_place (hplace : m.tasks.place t = q)
    (hq : ∀ call r u, q ≠ .wake call r u) : m.OwesNone t :=
  fun call r u h => hq call r u (hplace.symm.trans h)

theorem Named.keep (howes : m.OwesNone t) (htasks : m'.tasks = m.tasks.goto t q)
    (hport : m'.port = m.port) (h : m.Named u) : m'.Named u := by
  rcases h with hslot | ⟨v, call, r, hv⟩
  · left
    rw [hport]
    exact hslot
  · right
    have hvt : v ≠ t := by
      rintro rfl
      exact howes call r u hv
    refine ⟨v, call, r, ?_⟩
    rw [htasks, Tasks.goto_place_of_ne hvt]
    exact hv

/-- The port is left alone. A task that stays in the loop of `wait` keeps its snapshot. -/
theorem Inv.quiet (hinv : m.Inv) (howes : m.OwesNone t)
    (htasks : m'.tasks = m.tasks.goto t q) (hport : m'.port = m.port)
    (hlisted : ∀ u, u ≠ t ∨ q.waits ≠ none → u ∈ m.waiting → u ∈ m'.waiting)
    (hwaits : ∀ snap, q.waits = some snap → (m.tasks.place t).waits = some snap)
    (hrelies : q.relies = true →
      m.Named t ∨ m.tasks.pendingWake t = true ∧ PortPlace.ready q = none) : m'.Inv := by
  refine hinv.section htasks (fun u hu => hlisted u (.inl hu)) ?_ ?_ ?_ ?_ ?_
  · intro p hp
    rw [hport] at hp
    exact ⟨p, hp, fun u _ snap _ h => h⟩
  · intro u _ _ _ p hp hw
    rw [hport]
    exact .inl ⟨p, hp, hw⟩
  · intro u _ call r
    exact howes call r u
  · intro snap hsnap
    have ht := hwaits snap hsnap
    refine ⟨hlisted t (.inr (by simp [hsnap])) (hinv.listed t snap ht), ?_⟩
    rw [hport]
    exact fun p hp => hinv.shown p hp t snap ht
  · intro hq
    rcases hrelies hq with hnamed | hrecorded
    · exact .inl (hnamed.keep howes htasks hport)
    · exact .inr hrecorded

/-- A task leaves the loop of `wait`, or is not in it, and does not touch the port. -/
theorem Inv.out (hinv : m.Inv) (howes : m.OwesNone t)
    (htasks : m'.tasks = m.tasks.goto t q) (hport : m'.port = m.port)
    (hlisted : ∀ u, u ≠ t → u ∈ m.waiting → u ∈ m'.waiting) (hq : q.waits = none)
    (hrelies : q.relies = false) : m'.Inv := by
  refine hinv.quiet howes htasks hport ?_ ?_ ?_
  · rintro u (hu | hne) hmem
    · exact hlisted u hu hmem
    · exact absurd hq hne
  · intro snap h
    exact absurd (hq.symm.trans h) (by simp)
  · intro h
    exact absurd (hrelies.symm.trans h) (by simp)

theorem Inv.ret (hinv : m.Inv) (howes : m.OwesNone t) (call : PortCall) (r : PortReturn) :
    (m.ret t call r).Inv :=
  hinv.out howes rfl rfl (fun _ _ h => h) rfl rfl

variable {p : CompletionPort}

/-- The port changes, and `t` goes on outside the loop of `wait`. What the port showed to the others it shows
them still, and who was named is, or is exempt, or will be woken by `t`. -/
theorem Inv.ported {ex : Sched.TaskId → Prop} (hinv : m.Inv)
    (howes : m.OwesNone t) (hport : m.port = some p) (htasks : m'.tasks = m.tasks.goto t q)
    (hlisted : ∀ u, u ≠ t → u ∈ m.waiting → u ∈ m'.waiting)
    (hkeep : ∀ p' ∈ m'.port, ∀ u, u ≠ t → ∀ snap,
      (m.tasks.place u).waits = some snap → p.Shows u snap → p'.Shows u snap)
    (hslot : ∀ u, u ≠ t → ¬ ex u → p.waiter = some u →
      (∃ p' ∈ m'.port, p'.waiter = some u) ∨ ∃ call r, q = .wake call r u)
    (hq : q.waits = none) (hrelies : q.relies = false) : m'.InvExcept ex := by
  refine hinv.section htasks hlisted ?_ ?_ (fun u _ call r => howes call r u) ?_ ?_
  · exact fun p' hp' => ⟨p, hport, hkeep p' hp'⟩
  · intro u hu hex _ p₁ hp₁ hw
    obtain rfl : p = p₁ := Option.some.inj (hport.symm.trans hp₁)
    exact hslot u hu hex hw
  · intro snap h
    exact absurd (hq.symm.trans h) (by simp)
  · intro h
    exact absurd (hrelies.symm.trans h) (by simp)

/-- The end of a call that has taken the port's waiter and left every wait something to see. -/
theorem Inv.finish {n : PortSystem} (hinv : m.Inv) (howes : m.OwesNone t)
    (hport : m.port = some p) (htasks : n.tasks = m.tasks) (hwaiting : n.waiting = m.waiting)
    (hkeep : ∀ p' ∈ n.port, ∀ u, u ≠ t → ∀ snap,
      (m.tasks.place u).waits = some snap → p.Shows u snap → p'.Shows u snap)
    (call : PortCall) (r : PortReturn) : (n.finish t call r p.waiter).Inv := by
  have hlisted : ∀ u, u ≠ t → u ∈ m.waiting → u ∈ n.waiting := by
    intro u _ hu
    rw [hwaiting]
    exact hu
  cases hw : p.waiter with
  | none =>
    refine hinv.ported (q := .user (some (call, r))) howes hport ?_ hlisted hkeep ?_ rfl rfl
    · show n.tasks.goto t _ = _
      rw [htasks]
    · intro u _ _ h
      exact absurd (hw.symm.trans h) (by simp)
  | some w =>
    refine hinv.ported (q := .wake call r w) howes hport ?_ hlisted hkeep ?_ rfl rfl
    · show n.tasks.goto t _ = _
      rw [htasks]
    · intro u _ _ h
      obtain rfl : w = u := Option.some.inj (hw.symm.trans h)
      exact .inr ⟨call, r, rfl⟩

/-! ## What a change of the port leaves to see -/

section Shows

variable {p p' : CompletionPort} {snap : Snapshot}

/-- The registrations have changed since the snapshot, for every wait. -/
theorem shows_of_bump (hgen : p'.generation = wrappingAdd 64 p.generation 1) (hcount : m.CountsOn p)
    (hu : u ∈ m.waiting) (hsnap : (m.tasks.place u).waits = some snap) : p'.Shows u snap := by
  refine .inr (.inr ?_)
  rw [hgen]
  intro h
  exact hcount u hu (by rw [generationOf_of_waits hsnap, h])

/-- What `t` takes leaves the others something to see. -/
theorem shows_of_drain (hleaves : m.LeavesSome p t) (hut : u ≠ t) (hu : u ∈ m.waiting)
    (hsnap : (m.tasks.place u).waits = some snap) : p.drain.Shows u snap := by
  by_cases hlen : p.eventQueue.length ≤ maxEventsPerWait
  · rcases hleaves hlen u hu hut with hw | hgen
    · exact .inl hw
    · rw [generationOf_of_waits hsnap] at hgen
      exact .inr (.inr fun h => hgen (congrArg some h))
  · refine .inr (.inl ?_)
    intro hnil
    have hzero := congrArg List.length hnil
    simp only [CompletionPort.drain, List.length_drop, List.length_nil] at hzero
    omega

end Shows

/-! ## Every section keeps the invariant -/

variable {source : WaitSource}

theorem Inv.register (hinv : m.Inv) (howes : m.OwesNone t) {userData : Nat}
    (hok : ∀ p ∈ m.port, m.CountsOn p) : (m.register t source userData).Inv := by
  unfold PortSystem.register
  dsimp only
  split
  · exact hinv.ret howes _ _
  · next p hport =>
    split
    · exact hinv.ret howes _ _
    · split
      · exact hinv.ret howes _ _
      · split
        · exact hinv.ret howes _ _
        · refine hinv.ported (q := .wire source userData) howes hport rfl (fun _ _ h => h) ?_ ?_ rfl rfl
          · intro p' hp' u _ snap hsnap _
            cases hp'
            exact shows_of_bump rfl (hok p hport) (hinv.listed u snap hsnap) hsnap
          · intro u _ _ hw
            exact .inl ⟨_, rfl, hw⟩

theorem Inv.registered (hinv : m.Inv) (howes : m.OwesNone t) {userData : Nat}
    {wired : KernelResult Unit} (hok : ∀ p ∈ m.port, m.SectionOk t p (.wire source userData)) :
    (m.registered t source userData wired).Inv := by
  unfold PortSystem.registered
  dsimp only
  split
  · next h e =>
    -- The ring could not be told: the registration is rolled back.
    cases hport : m.port with
    | none => exact hinv.out howes rfl hport.symm (fun _ _ h => h) rfl rfl
    | some p =>
      refine hinv.ported (q := .user _) howes hport rfl (fun _ _ h => h) ?_ ?_ rfl rfl
      · intro p' hp' u _ snap hsnap hshows
        obtain rfl : p.rollBack (.ioCompletion h) = p' := Option.some.inj hp'
        unfold CompletionPort.rollBack
        split
        · exact hshows
        · exact shows_of_bump rfl (hok p hport).1 (hinv.listed u snap hsnap) hsnap
      · intro u _ _ hw
        refine .inl ⟨p.rollBack (.ioCompletion h), rfl, ?_⟩
        unfold CompletionPort.rollBack
        split
        · exact hw
        · exact hw
  · split
    · exact hinv.ret howes _ _
    · next p hport =>
      refine hinv.finish (n := { m with port := some { p with waiter := none } }) howes hport rfl rfl ?_ _ _
      intro p' hp' u _ snap hsnap hshows
      cases hp'
      rcases hshows with hw | hqueue | hgen
      · have hne := (hok p hport).2 u hw
        rw [generationOf_of_waits hsnap] at hne
        exact .inr (.inr fun h => hne (congrArg some h))
      · exact .inr (.inl hqueue)
      · exact .inr (.inr hgen)

theorem Inv.unregister (hinv : m.Inv) (howes : m.OwesNone t)
    (hok : ∀ p ∈ m.port, m.CountsOn p) : (m.unregister t source).Inv := by
  unfold PortSystem.unregister
  dsimp only
  split
  · exact hinv.ret howes _ _
  · next p hport =>
    split
    · exact hinv.ret howes _ _
    · next i _ =>
      refine hinv.finish (n := { m with
        port := some (p.remove i source), dropped := m.dropped ++ p.eventsOf source }) howes hport rfl rfl
          ?_ _ _
      intro p' hp' u _ snap hsnap _
      cases hp'
      exact shows_of_bump rfl (hok p hport) (hinv.listed u snap hsnap) hsnap

/-- After a post there is something to see. -/
theorem post_shows {p p' : CompletionPort} {r : Registration}
    (h : p' ∈ (m.post p r).port) : p'.Shows u snap := by
  cases h
  refine .inr (.inl ?_)
  simp

theorem Inv.notify (hinv : m.Inv) (howes : m.OwesNone t) :
    (m.notify t source).Inv := by
  unfold PortSystem.notify
  split
  · exact hinv.ret howes _ _
  · next p hport =>
    split
    · exact hinv.ret howes _ _
    · next r _ =>
      exact hinv.finish (n := m.post p r) howes hport rfl rfl
        (fun p' hp' u _ snap _ _ => post_shows hp') _ _

theorem Inv.tryNotify (hinv : m.Inv) (howes : m.OwesNone t)
    {tableBusy schedBusy : Bool} : (m.tryNotify t source tableBusy schedBusy).Inv := by
  unfold PortSystem.tryNotify
  dsimp only
  split
  · exact hinv.ret howes _ _
  · split
    · exact hinv.ret howes _ _
    · next p hport =>
      split
      · exact hinv.ret howes _ _
      · next r _ =>
        have hkeep : ∀ p' ∈ ((m.post p r).ret t (.tryNotify source) (.delivered true)).port,
            ∀ u, u ≠ t → ∀ snap, (m.tasks.place u).waits = some snap → p.Shows u snap →
              p'.Shows u snap := fun p' hp' u _ snap _ _ => post_shows hp'
        split
        · next hw =>
          refine hinv.ported howes hport rfl (fun _ _ h => h) hkeep ?_ rfl rfl
          intro u _ _ h
          exact absurd (hw.symm.trans h) (by simp)
        · next w hw =>
          split
          · exact hinv.ret howes _ _
          · -- The task taken off the port is woken under the same lock.
            have hpost : ((m.post p r).ret t (.tryNotify source) (.delivered true)).InvExcept (· = w) := by
              refine hinv.ported howes hport rfl (fun _ _ h => h) hkeep ?_ rfl rfl
              intro u _ hex h
              exact absurd (Option.some.inj (h.symm.trans hw)) hex
            exact hpost.wakes_all

theorem Inv.close (hinv : m.Inv) (howes : m.OwesNone t) : (m.close t).Inv := by
  unfold PortSystem.close
  split
  · exact hinv.ret howes _ _
  · next p hport =>
    refine hinv.finish (n := { m with port := none, dropped := m.dropped ++ p.eventQueue }) howes hport
      rfl rfl ?_ _ _
    intro p' hp'
    cases hp'

/-- A call takes a batch. -/
theorem Inv.take (hinv : m.Inv) (howes : m.OwesNone t)
    (hport : m.port = some p) (hleaves : m.LeavesSome p t) (hport' : m'.port = some p.drain)
    (htasks : m'.tasks = m.tasks.goto t q) (hlisted : ∀ u, u ≠ t → u ∈ m.waiting → u ∈ m'.waiting)
    (hq : q.waits = none) (hrelies : q.relies = false) : m'.Inv := by
  refine hinv.ported howes hport htasks hlisted ?_ ?_ hq hrelies
  · intro p' hp' u hut snap hsnap _
    rw [hport'] at hp'
    cases hp'
    exact shows_of_drain hleaves hut (hinv.listed u snap hsnap) hsnap
  · intro u _ _ hw
    exact .inl ⟨p.drain, hport', hw⟩

theorem Inv.tryWait (hinv : m.Inv) (howes : m.OwesNone t) (hok : ∀ p ∈ m.port, m.LeavesSome p t) :
    (m.tryWait t).Inv := by
  unfold PortSystem.tryWait
  split
  · exact hinv.ret howes _ _
  · next p hport =>
    split
    · exact hinv.ret howes _ _
    · split
      · exact hinv.take howes hport (hok p hport) rfl rfl (fun _ _ h => h) rfl rfl
      · exact hinv.out howes rfl rfl (fun _ _ h => h) rfl rfl

theorem Inv.pollOnce (hinv : m.Inv) (howes : m.OwesNone t) {rest : List Registration}
    {found : List CompletionEvent} : (m.pollOnce t rest found).Inv := by
  unfold PortSystem.pollOnce
  split
  · exact hinv.out howes rfl rfl (fun _ _ h => h) rfl rfl
  · split
    · exact hinv.ret howes _ _
    · exact hinv.ret howes _ _

theorem Inv.enterWait (hinv : m.Inv) (howes : m.OwesNone t)
    (hok : ∀ p ∈ m.port, m.SectionOk t p (.enter .wait)) : (m.wait t).Inv := by
  unfold PortSystem.wait
  split
  · exact hinv.ret howes _ _
  · next p hport =>
    obtain ⟨hleaves, hfree⟩ := hok p hport
    split
    · exact hinv.ret howes _ _
    · split
      · exact hinv.take howes hport hleaves rfl rfl (fun _ _ h => h) rfl rfl
      · next hnil =>
        -- The place for a waiter is taken over; nobody else was relying on it.
        have hnone : ∀ u, u ≠ t → p.waiter = some u → (m.tasks.place u).waits = none := by
          intro u hut hw
          have hgen := (hfree (not_ne_iff.mp hnil) u hw).resolve_left hut
          unfold generationOf at hgen
          exact Option.map_eq_none_iff.mp hgen
        refine hinv.section (q := .join ⟨p.registrations, p.generation⟩) rfl
          (fun u _ hu => List.mem_append_left _ hu) ?_ ?_ (fun u _ call r => howes call r u) ?_ ?_
        · intro p' hp'
          cases hp'
          refine ⟨p, hport, fun u hut snap hsnap hshows => ?_⟩
          rcases hshows with hw | hrest
          · exact absurd ((hnone u hut hw).symm.trans hsnap) (by simp)
          · exact .inr hrest
        · intro u hut _ hrelies p₁ hp₁ hw
          obtain rfl : p = p₁ := Option.some.inj (hport.symm.trans hp₁)
          have hsnap := hnone u hut hw
          cases hplace : m.tasks.place u with
          | poll | park | parked =>
            rw [hplace] at hsnap
            cases hsnap
          | _ =>
            rw [hplace] at hrelies
            cases hrelies
        · intro snap _
          refine ⟨List.mem_append_right _ (List.mem_singleton_self t), ?_⟩
          intro p' hp'
          cases hp'
          exact .inl rfl
        · intro h
          cases h

/-- `wait_multiple` ends without a batch. -/
theorem Inv.found (hinv : m.Inv) (howes : m.OwesNone t) {outcome : ScanOutcome} :
    (m.found t snap outcome).Inv :=
  hinv.out howes rfl rfl (fun _ hu h => (List.mem_erase_of_ne hu).mpr h) rfl rfl

theorem Inv.scan (hinv : m.Inv) (hplace : m.tasks.place t = .scan snap)
    (hok : ∀ p ∈ m.port, m.LeavesSome p t) : (m.scan t snap).Inv := by
  have howes : m.OwesNone t := .of_place hplace (by simp)
  unfold PortSystem.scan
  split
  · exact hinv.found howes
  · next p hport =>
    split
    · exact hinv.found howes
    · split
      · exact hinv.take howes hport (hok p hport) rfl rfl
          (fun _ hu h => (List.mem_erase_of_ne hu).mpr h) rfl rfl
      · next hnil =>
        split
        · exact hinv.found howes
        · next hgen =>
          -- Nothing to see, so the port names the task.
          have hwaits : (m.tasks.place t).waits = some snap := by
            rw [hplace]
            rfl
          have hw : p.waiter = some t := by
            rcases hinv.shown p hport t snap hwaits with hw | hqueue | hne
            · exact hw
            · exact absurd hqueue hnil
            · exact absurd (not_ne_iff.mp hgen).symm hne
          refine hinv.quiet howes rfl rfl (fun _ _ h => h) ?_ fun _ => .inl (.inl ⟨p, hport, hw⟩)
          intro s hs
          cases hs
          exact hwaits

/-- A task past its look at the port stays there. -/
theorem Inv.relying (hinv : m.Inv) (hrelies : (m.tasks.place t).relies = true) :
    m.Named t ∨ m.tasks.pendingWake t = true := by
  rcases hinv.attended t not_false hrelies with hnamed | ⟨hpending, -⟩
  · exact .inl hnamed
  · exact .inr hpending

theorem Inv.poll (hinv : m.Inv) {rest : List Registration}
    {found : List CompletionEvent} (hplace : m.tasks.place t = .poll snap rest found) {signal : Bool} :
    (m.poll t snap rest found signal).Inv := by
  have howes : m.OwesNone t := .of_place hplace (by simp)
  have hwaits : (m.tasks.place t).waits = some snap := by
    rw [hplace]
    rfl
  have hrelies : m.Named t ∨ m.tasks.pendingWake t = true :=
    hinv.relying (by rw [hplace]; rfl)
  unfold PortSystem.poll
  split
  · refine hinv.quiet howes rfl rfl (fun _ _ h => h) ?_ fun _ => hrelies.imp_right fun h => ⟨h, rfl⟩
    intro s hs
    cases hs
    exact hwaits
  · split
    · exact hinv.found howes
    · split
      · exact hinv.found howes
      · refine hinv.quiet howes rfl rfl (fun _ _ h => h) ?_ fun _ => hrelies.imp_right fun h => ⟨h, rfl⟩
        intro s hs
        cases hs
        exact hwaits

theorem Inv.park (hinv : m.Inv) (hplace : m.tasks.place t = .park snap) :
    (m.park t snap).Inv := by
  have howes : m.OwesNone t := .of_place hplace (by simp)
  have hwaits : (m.tasks.place t).waits = some snap := by
    rw [hplace]
    rfl
  unfold PortSystem.park
  split
  · next hpending =>
    -- The recorded wake is used up: as if the task had parked and been woken.
    have hagain : (m.goto t (.again snap)).Inv := by
      refine hinv.quiet howes rfl rfl (fun _ _ h => h) ?_ fun h => by cases h
      intro s hs
      cases hs
      exact hwaits
    refine ⟨hagain.listed, hagain.shown, fun u _ hu => ?_⟩
    have hut : u ≠ t := by
      rintro rfl
      have hat : (m.goto u (.again snap)).tasks.place u = .again snap := Tasks.goto_place_self
      have hu' : ((m.goto u (.again snap)).tasks.place u).relies = true := hu
      rw [hat] at hu'
      cases hu'
    rcases hagain.attended u not_false hu with hnamed | ⟨hrecorded, hready⟩
    · exact .inl hnamed
    · refine .inr ⟨?_, hready⟩
      show update m.tasks.pendingWake t false u = true
      rw [update_of_ne hut]
      exact hrecorded
  · next hnone =>
    have hnamed : m.Named t := by
      rcases hinv.relying (by rw [hplace]; rfl) with hnamed | hpending
      · exact hnamed
      · exact absurd hpending hnone
    refine hinv.quiet howes rfl rfl (fun _ _ h => h) ?_ fun _ => .inl hnamed
    intro s hs
    cases hs
    exact hwaits

theorem Inv.leave (hinv : m.Inv) {outcome : ScanOutcome} (hplace : m.tasks.place t = .leave outcome) :
    (m.leave t outcome).Inv := by
  have howes : m.OwesNone t := .of_place hplace (by simp)
  have hclear : ∀ q : PortPlace, q.waits = none → q.relies = false → ∀ n : PortSystem,
      n.port = (m.clearWaiter t).port → n.tasks = m.tasks.goto t q → n.waiting = m.waiting → n.Inv := by
    intro q hq hrelies n hport' htasks hwaiting
    have hlisted : ∀ u, u ≠ t → u ∈ m.waiting → u ∈ n.waiting := by
      intro u _ hu
      rw [hwaiting]
      exact hu
    cases hport : m.port with
    | none =>
      refine hinv.out howes htasks ?_ hlisted hq hrelies
      rw [hport']
      simp [clearWaiter, hport]
    | some p =>
      have hother : ∀ u, u ≠ t → p.waiter = some u →
          (if p.waiter = some t then { p with waiter := none } else p).waiter = some u := by
        intro u hut hw
        rw [if_neg]
        · exact hw
        · intro ht
          exact hut (Option.some.inj (hw.symm.trans ht))
      have hn : n.port = some (if p.waiter = some t then { p with waiter := none } else p) := by
        rw [hport']
        simp [clearWaiter, hport]
      refine hinv.ported howes hport htasks hlisted ?_ ?_ hq hrelies
      · intro p' hp' u hut snap _ hshows
        obtain rfl := Option.some.inj (hn.symm.trans hp')
        rcases hshows with hw | hqueue | hgen
        · exact .inl (hother u hut hw)
        · refine .inr (.inl ?_)
          split
          · exact hqueue
          · exact hqueue
        · refine .inr (.inr ?_)
          split
          · exact hgen
          · exact hgen
      · intro u hut _ hw
        exact .inl ⟨_, hn, hother u hut hw⟩
  unfold PortSystem.leave
  dsimp only
  split
  all_goals exact hclear _ rfl rfl _ rfl rfl rfl

/-- The wake taken off the port is done, and the call returns. -/
theorem Inv.wakes (hinv : m.Inv) {call : PortCall} {r : PortReturn} {u : Sched.TaskId}
    (hplace : m.tasks.place t = .wake call r u) : ((m.ret t call r).wake u).Inv := by
  have hret : (m.ret t call r).InvExcept (· = u) := by
    refine hinv.section (q := .user (some (call, r))) rfl (fun _ _ h => h) ?_ ?_ ?_ ?_ ?_
    · exact fun p hp => ⟨p, hp, fun u _ snap _ h => h⟩
    · exact fun u _ _ _ p hp hw => .inl ⟨p, hp, hw⟩
    · intro v hv call' r' h
      cases hplace.symm.trans h
      exact hv rfl
    · intro snap h
      cases h
    · intro h
      cases h
  exact hret.wakes_all

variable {chance : Chance}

/-- The first section of a call. -/
theorem Inv.enter (hinv : m.Inv) {call : PortCall}
    (hplace : m.tasks.place t = .enter call) (hok : ∀ p ∈ m.port, m.SectionOk t p (.enter call))
    (hs : m.enter t chance call = some m') : m'.Inv := by
  have howes : m.OwesNone t := .of_place hplace (by simp)
  have hheld : ({ m with wiring := some t } : PortSystem).Inv :=
    ⟨hinv.listed, hinv.shown, hinv.attended⟩
  cases call with
  | register source userData =>
    obtain ⟨-, hs⟩ := Option.ite_none_right_eq_some.mp hs
    cases hs
    exact hheld.register howes hok
  | unregister source =>
    obtain ⟨-, hs⟩ := Option.ite_none_right_eq_some.mp hs
    cases hs
    exact hheld.unregister howes hok
  | notify source =>
    cases hs
    exact hinv.notify howes
  | tryNotify source =>
    cases hs
    exact hinv.tryNotify howes
  | wait =>
    cases hs
    exact hinv.enterWait howes hok
  | tryWait =>
    cases hs
    exact hinv.tryWait howes hok
  | close =>
    cases hs
    exact hinv.close howes

/-- Joining and leaving the waiter sets of the sources. -/
theorem Inv.sets (hinv : m.Inv) (howes : m.OwesNone t)
    (hwaits : (m.tasks.place t).waits = some snap) (htasks : m'.tasks = m.tasks.goto t q)
    (hport : m'.port = m.port) (hwaiting : m'.waiting = m.waiting) (hq : q.waits = some snap)
    (hrelies : q.relies = false) : m'.Inv := by
  refine hinv.quiet howes htasks hport ?_ ?_ ?_
  · intro u _ hu
    rw [hwaiting]
    exact hu
  · intro s hs
    exact hwaits.trans (hq.symm.trans hs)
  · intro h
    exact absurd (hrelies.symm.trans h) (by simp)

/-- **Every section keeps the invariant.** -/
theorem Inv.advance (hinv : m.Inv)
    (hok : ∀ p ∈ m.port, m.SectionOk t p (m.tasks.place t)) (hs : m.advance t chance = some m') :
    m'.Inv := by
  unfold PortSystem.advance at hs
  cases hplace : m.tasks.place t with
  | user | parked =>
    rw [hplace] at hs
    cases hs
  | wake call r u =>
    rw [hplace] at hs
    cases hs
    exact hinv.wakes hplace
  | enter call =>
    rw [hplace] at hs hok
    exact hinv.enter hplace hok hs
  | scan snap =>
    rw [hplace] at hs hok
    cases hs
    exact hinv.scan hplace hok
  | poll snap rest found =>
    rw [hplace] at hs
    cases hs
    exact hinv.poll hplace
  | park snap =>
    rw [hplace] at hs
    cases hs
    exact hinv.park hplace
  | leave outcome =>
    rw [hplace] at hs
    cases hs
    exact hinv.leave hplace
  | wire source userData =>
    rw [hplace] at hs hok
    cases hs
    exact hinv.registered (.of_place hplace (by simp)) hok
  | pollOnce rest found =>
    rw [hplace] at hs
    cases hs
    exact hinv.pollOnce (.of_place hplace (by simp))
  | join snap =>
    rw [hplace] at hs
    cases hs
    exact hinv.sets (q := .scan snap) (.of_place hplace (by simp)) (congrArg PortPlace.waits hplace) rfl rfl
      rfl rfl rfl
  | again snap =>
    rw [hplace] at hs
    cases hs
    exact hinv.sets (q := .join snap) (.of_place hplace (by simp)) (congrArg PortPlace.waits hplace) rfl rfl
      rfl rfl rfl
  | leaveSets snap outcome =>
    rw [hplace] at hs
    cases hs
    have howes : m.OwesNone t := .of_place hplace (by simp)
    exact hinv.out (q := .leave outcome) howes rfl rfl (fun _ _ h => h) rfl rfl

/-- A source changes, and wakes its waiter set. -/
theorem Inv.change (hinv : m.Inv) (source : WaitSource) (ready : Bool) : (m.change source ready).Inv := by
  have hwakes : ∀ (set : WaiterSet) (n : PortSystem), n.Inv → (set.foldl PortSystem.wake n).Inv := by
    intro set
    induction set with
    | nil => exact fun n hn => hn
    | cons u set ih => exact fun n hn => ih (n.wake u) (hn.wake u)
  exact hwakes _ _ ⟨hinv.listed, hinv.shown, hinv.attended⟩

/-- **Every step that meets the condition keeps the invariant.** -/
theorem Inv.step {a : PortAction} (hinv : m.Inv) (hok : m.Undisturbed a) (hs : m.step a = some m') :
    m'.Inv := by
  cases a with
  | call t call =>
    simp only [PortSystem.step] at hs
    split at hs
    · next ret hplace =>
      cases hs
      exact hinv.out (.of_place hplace (by simp)) rfl rfl (fun _ _ h => h) rfl rfl
    · cases hs
  | advance t chance => exact hinv.advance hok hs
  | wake t =>
    cases hs
    exact hinv.wake t
  | source source ready =>
    cases hs
    exact hinv.change source ready

/-! ## Every section delivers -/

/-- A section of `t` keeps the account, and the events it takes off the queue are those that `t` gets. -/
structure Delivers (m : PortSystem) (t : Sched.TaskId) (m' : PortSystem) : Prop where
  account : m.history.Accounted → m'.history.Accounted
  taken : m'.taken = m.taken ∨
    ∃ evs, evs.length ≤ maxEventsPerWait ∧ m'.taken = m.taken ++ evs ∧ m'.Gets t evs
  others : ∀ u, u ≠ t → (m'.tasks.place u).holds = (m.tasks.place u).holds

/-- A wake gives and takes no events. -/
theorem holds_wake (m : PortSystem) (u v : Sched.TaskId) :
    ((m.wake u).tasks.place v).holds = (m.tasks.place v).holds := by
  by_cases hv : PortPlace.ready (m.tasks.place v) = none
  · exact congrArg PortPlace.holds (Tasks.wake_place_of_not_blocked hv)
  · by_cases hvu : v = u
    · subst hvu
      cases hplace : m.tasks.place v with
      | parked snap =>
        have hwoken : (m.wake v).tasks.place v = .again snap := by
          have hr : PortPlace.ready (m.tasks.place v) = some (.again snap) := by rw [hplace]; rfl
          exact (congrFun (Tasks.wake_place_of_some hr) v).trans (update_self ..)
        rw [hwoken]
        rfl
      | _ =>
        rw [hplace] at hv
        exact absurd rfl hv
    · exact congrArg PortPlace.holds (Tasks.wake_place_of_ne hvu)

theorem Gets.wake {evs : List CompletionEvent} (h : m.Gets t evs) (u : Sched.TaskId) : (m.wake u).Gets t evs := by
  have hstay : PortPlace.ready (m.tasks.place t) = none := by
    rcases h with ⟨snap, hplace⟩ | ⟨call, hplace⟩
    · rw [hplace]
      rfl
    · rw [hplace]
      rfl
  have hplace : (m.wake u).tasks.place t = m.tasks.place t := Tasks.wake_place_of_not_blocked hstay
  unfold Gets
  rw [hplace]
  exact h

theorem Delivers.wake (h : m.Delivers t m') (u : Sched.TaskId) : m.Delivers t (m'.wake u) where
  account := h.account
  taken := h.taken.imp_right fun ⟨evs, hlen, htaken, hgets⟩ => ⟨evs, hlen, htaken, hgets.wake u⟩
  others v hv := (holds_wake m' u v).trans (h.others v hv)

/-- Nothing leaves the queue. -/
theorem Delivers.of_account (htasks : m'.tasks = m.tasks.goto t q)
    (htaken : m'.taken = m.taken) (haccount : m.history.Accounted → m'.history.Accounted) :
    m.Delivers t m' where
  account := haccount
  taken := .inl htaken
  others u hu := by
    rw [htasks, Tasks.goto_place_of_ne hu]

/-- The history stays as it is. -/
theorem Delivers.quiet (htasks : m'.tasks = m.tasks.goto t q)
    (hhistory : m'.history = m.history) : m.Delivers t m' :=
  .of_account htasks (congrArg PortHistory.taken hhistory) fun h => hhistory ▸ h

theorem Delivers.ret (m : PortSystem) (t : Sched.TaskId) (call : PortCall) (r : PortReturn) :
    m.Delivers t (m.ret t call r) := .quiet (q := .user (some (call, r))) rfl rfl

/-- The end of a call that takes nothing. -/
theorem Delivers.finish {n : PortSystem} (htasks : n.tasks = m.tasks) (htaken : n.taken = m.taken)
    (haccount : m.history.Accounted → n.history.Accounted) (call : PortCall) (r : PortReturn)
    (w : Option Sched.TaskId) : m.Delivers t (n.finish t call r w) := by
  cases w with
  | none =>
    refine .of_account (q := .user (some (call, r))) ?_ htaken haccount
    show n.tasks.goto t _ = _
    rw [htasks]
  | some u =>
    refine .of_account (q := .wake call r u) ?_ htaken haccount
    show n.tasks.goto t _ = _
    rw [htasks]

end PortSystem

/-! ## Every run -/

open PortSystem

/-- Nothing is in the way. -/
def plainChance : Chance := ⟨false, false, false, .ok ()⟩

/-- A task goes on for `n` steps. -/
def goOn (t : Sched.TaskId) (n : Nat) : List PortAction := List.replicate n (.advance t plainChance)

instance (m : PortSystem) (a : PortAction) : Decidable (m.Undisturbed a) :=
  match a with
  | .advance t _ => inferInstanceAs (Decidable (∀ p ∈ m.port, m.SectionOk t p (m.tasks.place t)))
  | .call _ _ | .wake _ | .source _ _ => inferInstanceAs (Decidable True)

end SlateOS.Ipc
