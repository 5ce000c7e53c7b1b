/-
# SlateOS.Ipc.Futex.WaitLaw -- what a wait may return, and what holds of a task in it

`Accounted` is the law: entries are queued for waiting tasks only, a counted wait returns as woken, and a
parked task that was counted has a wake coming. `TaskOk` is what each task's place says about its entries,
the counts against it, and its index in `MULTI_WOKEN`; `Follows` is what a step of another task may do to
it.
-/
import Mathlib.Data.List.Perm.Basic
import SlateOS.Foundation.Runs
import SlateOS.Ipc.Futex.Wait

namespace SlateOS.Ipc.FutexWait

open Foundation.Runs

/-! ## The queue -/

variable {p : Waiter → Bool} {n : Nat} {q : List Waiter}

/-- A wake takes the first of the waiters it may take. -/
theorem takeWaiters_fst : (takeWaiters p n q).1 = (q.filter p).take n := by
  induction q generalizing n with
  | nil => simp [takeWaiters]
  | cons w ws ih =>
    cases n with
    | zero => simp [takeWaiters]
    | succ n =>
      unfold takeWaiters
      by_cases hw : p w = true
      · simp [hw, ih]
      · simp [hw, ih]

/-- And leaves the others in their order. -/
theorem takeWaiters_snd : (takeWaiters p n q).2.Sublist q := by
  induction q generalizing n with
  | nil => simp [takeWaiters]
  | cons w ws ih =>
    cases n with
    | zero => simp [takeWaiters]
    | succ n =>
      unfold takeWaiters
      by_cases hw : p w = true
      · simp only [hw, if_true]
        exact ih.cons w
      · simp only [hw, Bool.false_eq_true, if_false]
        exact ih.cons_cons w

theorem takeWaiters_perm : ((takeWaiters p n q).1 ++ (takeWaiters p n q).2).Perm q := by
  induction q generalizing n with
  | nil => simp [takeWaiters]
  | cons w ws ih =>
    cases n with
    | zero => simp [takeWaiters]
    | succ n =>
      unfold takeWaiters
      by_cases hw : p w = true
      · simp only [hw, if_true, List.cons_append]
        exact ih.cons w
      · simp only [hw, Bool.false_eq_true, if_false]
        exact List.perm_middle.trans (ih.cons w)

/-- The first waiter that is found, and the queue without it. -/
theorem find?_perm {w : Waiter} (h : q.find? p = some w) : (w :: q.eraseP p).Perm q := by
  induction q with
  | nil => cases h
  | cons v vs ih =>
    by_cases hv : p v = true
    · rw [List.find?_cons_of_pos hv] at h
      cases h
      rw [List.eraseP_cons_of_pos hv]
    · rw [List.find?_cons_of_neg hv] at h
      rw [List.eraseP_cons_of_neg hv]
      exact (List.Perm.swap v w _).trans ((ih h).cons v)

/-- What a requeue leaves of an entry. -/
def Waiter.who (w : Waiter) : TaskId × Option Nat := (w.taskId, w.multiIndex)

/-- A requeue changes keys only. -/
theorem requeueLoop_perm {key1 key2 : Nat} :
    ((requeueLoop key1 key2 n q).map Waiter.who).Perm (q.map Waiter.who) := by
  induction n generalizing q with
  | zero => exact List.Perm.refl _
  | succ n ih =>
    unfold requeueLoop
    split
    next => exact List.Perm.refl _
    next w hw =>
    refine ih.trans ?_
    rw [List.map_append]
    refine List.perm_append_comm.trans ?_
    exact (find?_perm hw).map Waiter.who

/-- What it moves goes to the end; the rest keeps its order. -/
theorem requeueLoop_order (key1 key2 n : Nat) (q : List Waiter) :
    ∃ kept moved, requeueLoop key1 key2 n q = kept ++ moved ∧ kept.Sublist q := by
  induction n generalizing q with
  | zero => exact ⟨q, [], (List.append_nil q).symm, List.Sublist.refl q⟩
  | succ n ih =>
    unfold requeueLoop
    split
    next => exact ⟨q, [], (List.append_nil q).symm, List.Sublist.refl q⟩
    next w _ =>
    obtain ⟨kept, moved, heq, hsub⟩ :=
      ih ((q.eraseP fun w => w.key = key1) ++ [{ w with key := key2 }])
    obtain ⟨front, back, rfl, hfront, _⟩ := List.sublist_append_iff.mp hsub
    exact ⟨front, back ++ moved, by rw [heq, List.append_assoc],
      hfront.trans List.eraseP_sublist⟩

/-! ## The law -/

namespace WaitOutcome

def isWoken : WaitOutcome → Bool
  | .woken _ => true
  | _ => false

end WaitOutcome

namespace WaitPlace

/-- The wait whose entries are queued. -/
def queuedFor : WaitPlace → Option WaitCall
  | .arm c | .park c | .parked c | .resumed c | .evict c _ _ => some c
  | _ => none

/-- The indices a wake has still to record. -/
def pending : WaitPlace → List (TaskId × Option Nat)
  | .record rest _ => rest
  | _ => []

/-- The tasks a wake has still to wake. -/
def toWake : WaitPlace → List TaskId
  | .record _ toWake | .wake toWake => toWake
  | _ => []

def isParked : WaitPlace → Bool
  | .parked _ => true
  | _ => false

/-- Neither wake nor requeue. -/
def Quiet (p : WaitPlace) : Prop := p.pending = [] ∧ p.toWake = []

end WaitPlace

/-- A counted wait returns as woken, for more than one key by an index that was counted. -/
def Returned (taken : List (Option Nat)) : WaitCall → WaitOutcome → Prop
  | .single .., .woken _ => True
  | .multi .., .woken i => i.isSome ∧ i ∈ taken
  | _, _ => taken = []

namespace FutexTable

/-- The entries of `t` in the queue. -/
def entriesOf (m : FutexTable) (t : TaskId) : Nat := m.queue.countP fun w => w.taskId = t

/-- `t` finds the index `i` now, or a wake is about to record it. -/
def Told (m : FutexTable) (t : TaskId) (i : Nat) : Prop :=
  m.multiWoken t = some i ∨ ∃ u, (t, some i) ∈ (m.place u).pending

/-- A wake of `t` is on its way, or waits for its park. -/
def Due (m : FutexTable) (t : TaskId) : Prop :=
  (∃ u, t ∈ (m.place u).toWake) ∨ m.pendingWake t = true ∧ (m.place t).isParked = false

/-- The wake accounting. -/
structure Accounted (m : FutexTable) : Prop where
  returned : ∀ t c o, m.place t = .user (some (c, o)) → Returned (m.taken t) c o
  /-- Entries belong to waiting tasks, so none outlives its wait. -/
  waiting : ∀ w ∈ m.queue, ((m.place w.taskId).queuedFor).isSome = true
  /-- A parked task that was counted is about to be woken. -/
  awake : ∀ t c, m.place t = .parked c → m.taken t ≠ [] → ∃ u, t ∈ (m.place u).toWake

/-- The indices `t` is told are of entries that were counted. -/
def Heard (m : FutexTable) (t : TaskId) : Prop := ∀ i, m.Told t i → some i ∈ m.taken t

/-- What the place of a task says about it. -/
def TaskOk (m : FutexTable) (t : TaskId) : Prop :=
  match m.place t with
  | .user none | .record .. | .wake _ => m.entriesOf t = 0
  | .user (some (c, o)) => m.entriesOf t = 0 ∧ Returned (m.taken t) c o
  | .setup _ => m.entriesOf t = 0 ∧ m.taken t = []
  | .arm c | .park c | .parked c =>
    m.entriesOf t + (m.taken t).length = c.size ∧ (c.isMulti = true → m.Heard t) ∧
      (m.taken t ≠ [] → m.Due t)
  | .resumed c =>
    m.entriesOf t + (m.taken t).length = c.size ∧ (c.isMulti = true → m.Heard t)
  | .evict c woken forced =>
    m.entriesOf t + (m.taken t).length = c.size ∧ (∀ i, woken = some i → some i ∈ m.taken t) ∧
      ∀ o, forced = some o → o.isWoken = false
  | .clear _ o => m.entriesOf t = 0 ∧ m.taken t = [] ∧ o.isWoken = false

/-- Every task is as its place says. -/
def Inv (m : FutexTable) : Prop := ∀ t, m.TaskOk t

variable {m m' : FutexTable} {t u : TaskId}

/-- A task with entries in the queue waits. -/
theorem TaskOk.waits (h : m.TaskOk t) (hn : m.entriesOf t ≠ 0) : (m.place t).queuedFor.isSome = true := by
  unfold TaskOk at h
  split at h
  case h_6 | h_7 | h_8 | h_9 | h_10 => simp [*, WaitPlace.queuedFor]
  case h_1 | h_2 | h_3 => exact absurd h hn
  all_goals exact absurd h.1 hn

theorem entriesOf_ne_zero {w : Waiter} (hw : w ∈ m.queue) : m.entriesOf w.taskId ≠ 0 := by
  refine Nat.pos_iff_ne_zero.mp (List.countP_pos_iff.mpr ⟨w, hw, ?_⟩)
  exact decide_eq_true rfl

theorem Inv.accounted (h : m.Inv) : m.Accounted where
  returned t c o ht := by
    have hok := h t
    unfold TaskOk at hok
    rw [ht] at hok
    exact hok.2
  waiting w hw := (h w.taskId).waits (entriesOf_ne_zero hw)
  awake t c ht htaken := by
    have hok := h t
    unfold TaskOk at hok
    rw [ht] at hok
    obtain hdue | ⟨_, hpark⟩ := hok.2.2 htaken
    · exact hdue
    · rw [ht] at hpark
      cases hpark

/-! ## Steps of other tasks -/

/-- What a step of another task may do to `t`: take entries off the queue and count them, as long as a
wake is on its way then; tell it their indices. -/
structure Follows (m m' : FutexTable) (t : TaskId) : Prop where
  place : m'.place t = m.place t
  counted : ∃ ws, m'.taken t = m.taken t ++ ws ∧ m'.entriesOf t + ws.length = m.entriesOf t ∧
    (ws ≠ [] → m'.Due t)
  told : ∀ i, m'.Told t i → m.Told t i ∨ some i ∈ m'.taken t
  due : m.Due t → m'.Due t

theorem Follows.sum (h : Follows m m' t) :
    m'.entriesOf t + (m'.taken t).length = m.entriesOf t + (m.taken t).length := by
  obtain ⟨ws, htaken, hcount, _⟩ := h.counted
  rw [htaken, List.length_append]
  omega

theorem Follows.mem (h : Follows m m' t) {x : Option Nat} (hx : x ∈ m.taken t) : x ∈ m'.taken t := by
  obtain ⟨ws, htaken, _⟩ := h.counted
  rw [htaken]
  exact List.mem_append_left ws hx

/-- Nothing is counted against a task that has no entry. -/
theorem Follows.idle (h : Follows m m' t) (hn : m.entriesOf t = 0) :
    m'.entriesOf t = 0 ∧ m'.taken t = m.taken t := by
  obtain ⟨ws, htaken, hcount, _⟩ := h.counted
  have hws : ws = [] := List.eq_nil_of_length_eq_zero (by omega)
  subst hws
  rw [List.append_nil] at htaken
  exact ⟨by omega, htaken⟩

theorem Follows.heard (h : Follows m m' t) (hm : m.Heard t) : m'.Heard t := by
  intro i hi
  obtain hold | hnew := h.told i hi
  · exact h.mem (hm i hold)
  · exact hnew

theorem Follows.awaited (h : Follows m m' t) (hm : m.taken t ≠ [] → m.Due t) :
    m'.taken t ≠ [] → m'.Due t := by
  intro htaken'
  obtain ⟨ws, htaken, _, hdue⟩ := h.counted
  by_cases hws : ws = []
  · subst hws
    rw [List.append_nil] at htaken
    exact h.due (hm (htaken ▸ htaken'))
  · exact hdue hws

/-- A task is as its place says after the steps of others. -/
theorem TaskOk.follows (hok : m.TaskOk t) (h : Follows m m' t) : m'.TaskOk t := by
  unfold TaskOk at hok ⊢
  rw [h.place]
  split
  case h_1 hp | h_2 hp | h_3 hp =>
    rw [hp] at hok
    exact (h.idle hok).1
  case h_4 hp =>
    rw [hp] at hok
    obtain ⟨hn, htaken⟩ := h.idle hok.1
    exact ⟨hn, htaken ▸ hok.2⟩
  case h_5 hp =>
    rw [hp] at hok
    obtain ⟨hn, htaken⟩ := h.idle hok.1
    exact ⟨hn, htaken.trans hok.2⟩
  case h_6 hp | h_7 hp | h_8 hp =>
    rw [hp] at hok
    obtain ⟨hsum, hheard, hdue⟩ := hok
    exact ⟨h.sum.trans hsum, fun hc => h.heard (hheard hc), h.awaited hdue⟩
  case h_9 hp =>
    rw [hp] at hok
    obtain ⟨hsum, hheard⟩ := hok
    exact ⟨h.sum.trans hsum, fun hc => h.heard (hheard hc)⟩
  case h_10 hp =>
    rw [hp] at hok
    obtain ⟨hsum, hwoken, hforced⟩ := hok
    exact ⟨h.sum.trans hsum, fun i hi => h.mem (hwoken i hi), hforced⟩
  case h_11 hp =>
    rw [hp] at hok
    obtain ⟨hn, htaken⟩ := h.idle hok.1
    exact ⟨hn, htaken.trans hok.2.1, hok.2.2⟩

end FutexTable

end SlateOS.Ipc.FutexWait
