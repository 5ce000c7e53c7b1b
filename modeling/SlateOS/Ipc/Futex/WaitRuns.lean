/-
# SlateOS.Ipc.Futex.WaitRuns -- the wake accounting over whole runs

A multi-key wait learns that it was woken from its index in `MULTI_WOKEN` alone. A wake puts the index
there after it has let go of the table, and a requeue puts none there at all: a wait whose time-out or
signal comes in between takes its other entries out and reports it, and the index, when it comes, is
found by the next multi-key wait. The law holds in every run whose steps are `Heeded`.
-/
import SlateOS.Ipc.Futex.WaitLaw

namespace SlateOS.Ipc.FutexWait

open Foundation.Runs
open Function (update update_self update_of_ne)

namespace FutexTable

variable {m m' : FutexTable} {t u : TaskId} {p : WaitPlace}

/-! ## Moves of one task -/

/-- Only `t` moves, and it takes no index and no wake along. -/
structure Moves (m m' : FutexTable) (t : TaskId) : Prop where
  other : ∀ u, u ≠ t → m'.place u = m.place u
  pending : ∀ x ∈ (m'.place t).pending, x ∈ (m.place t).pending
  toWake : ∀ x ∈ (m.place t).toWake, x ∈ (m'.place t).toWake

/-- The places of waits are quiet. -/
theorem Moves.of_quiet (hplace : m'.place = (m.goto t p).place) (hold : (m.place t).Quiet)
    (hnew : p.Quiet) : Moves m m' t where
  other u hu := by rw [hplace, goto_place_of_ne hu]
  pending x hx := by
    rw [hplace, goto_place_self, hnew.1] at hx
    cases hx
  toWake x hx := by
    rw [hold.2] at hx
    cases hx

theorem Moves.told (h : Moves m m' t) (hidx : m'.multiWoken u = m.multiWoken u) {i : Nat}
    (hi : m'.Told u i) : m.Told u i := by
  obtain hnow | ⟨v, hv⟩ := hi
  · exact .inl (hidx ▸ hnow)
  · by_cases hvt : v = t
    · subst hvt
      exact .inr ⟨v, h.pending _ hv⟩
    · rw [h.other v hvt] at hv
      exact .inr ⟨v, hv⟩

theorem Moves.woken (h : Moves m m' t) (hu : ∃ v, u ∈ (m.place v).toWake) :
    ∃ v, u ∈ (m'.place v).toWake := by
  obtain ⟨v, hv⟩ := hu
  by_cases hvt : v = t
  · subst hvt
    exact ⟨v, h.toWake u hv⟩
  · exact ⟨v, by rwa [h.other v hvt]⟩

/-- Nothing happens to the others. -/
theorem Moves.follows (h : Moves m m' t) (hu : u ≠ t) (hn : m'.entriesOf u = m.entriesOf u)
    (htaken : m'.taken u = m.taken u) (hidx : m'.multiWoken u = m.multiWoken u)
    (hwake : m'.pendingWake u = m.pendingWake u) : Follows m m' u where
  place := h.other u hu
  counted := ⟨[], by rw [htaken, List.append_nil], by rw [hn, List.length_nil, Nat.add_zero],
    fun hne => absurd rfl hne⟩
  told _ hi := .inl (h.told hidx hi)
  due hdue := by
    obtain hon | ⟨hpend, hpark⟩ := hdue
    · exact .inl (h.woken hon)
    · exact .inr ⟨hwake.trans hpend, by rwa [h.other u hu]⟩

/-- A step of `t` that leaves the others alone keeps the invariant when it keeps it for `t`. -/
theorem Inv.moves (hinv : m.Inv) (h : Moves m m' t) (ht : m'.TaskOk t)
    (hn : ∀ u, u ≠ t → m'.entriesOf u = m.entriesOf u)
    (htaken : ∀ u, u ≠ t → m'.taken u = m.taken u)
    (hidx : ∀ u, u ≠ t → m'.multiWoken u = m.multiWoken u)
    (hwake : ∀ u, u ≠ t → m'.pendingWake u = m.pendingWake u) : m'.Inv := by
  intro u
  by_cases hu : u = t
  · subst hu
    exact ht
  · exact (hinv u).follows (h.follows hu (hn u hu) (htaken u hu) (hidx u hu) (hwake u hu))

/-- The same of a step that moves `t` and nothing else. -/
theorem Inv.goto (hinv : m.Inv) (hold : (m.place t).Quiet) (hnew : p.Quiet)
    (ht : (m.goto t p).TaskOk t) : (m.goto t p).Inv :=
  hinv.moves (.of_quiet rfl hold hnew) ht (fun _ _ => rfl) (fun _ _ => rfl) (fun _ _ => rfl)
    (fun _ _ => rfl)

/-- What `t` is told does not depend on where it is among quiet places. -/
theorem Heard.moves (h : Moves m m' t) (hheard : m.Heard t)
    (hidx : m'.multiWoken t = m.multiWoken t) (htaken : m'.taken t = m.taken t) : m'.Heard t := by
  intro i hi
  rw [htaken]
  exact hheard i (h.told hidx hi)

/-! ## The steps of a wait -/

theorem quiet_of_place (ht : m.place t = p) (hp : p.Quiet) : (m.place t).Quiet := by
  rw [ht]
  exact hp

section Waits

variable {c : WaitCall} {env : WaitEnv}

theorem Inv.wait (hinv : m.Inv) {r : Option (WaitCall × WaitOutcome)} (ht : m.place t = .user r) :
    (m.wait t c).Inv := by
  have hquiet := quiet_of_place ht ⟨rfl, rfl⟩
  have hn : m.entriesOf t = 0 := by
    by_contra hne
    have hwaits := (hinv t).waits hne
    rw [ht] at hwaits
    cases hwaits
  refine hinv.moves (.of_quiet rfl hquiet ⟨rfl, rfl⟩) ?_ (fun _ _ => rfl) ?_ (fun _ _ => rfl)
    (fun _ _ => rfl)
  · unfold TaskOk
    rw [show (m.wait t c).place t = .setup c from goto_place_self]
    exact ⟨hn, update_self ..⟩
  · intro u hu
    exact update_of_ne hu ..

theorem countP_eraseP_self {q : List Waiter} :
    (removeSelfWaiter q t).countP (fun w => w.taskId = t) = q.countP (fun w => w.taskId = t) - 1 := by
  unfold removeSelfWaiter
  induction q with
  | nil => rfl
  | cons w ws ih =>
    by_cases hw : w.taskId = t
    · simp [hw]
    · simp [hw, ih]

theorem countP_eraseP_of_ne {q : List Waiter} (hu : u ≠ t) :
    (removeSelfWaiter q t).countP (fun w => w.taskId = u) = q.countP (fun w => w.taskId = u) := by
  unfold removeSelfWaiter
  induction q with
  | nil => rfl
  | cons w ws ih =>
    by_cases hw : w.taskId = t
    · simp [hw, Ne.symm hu]
    · simp [hw, List.countP_cons, ih]

theorem countP_filter_self {q : List Waiter} :
    (removeAllSelfWaiters q t).countP (fun w => w.taskId = t) = 0 := by
  unfold removeAllSelfWaiters
  rw [List.countP_eq_zero]
  intro w hw
  simpa using (List.mem_filter.mp hw).2

theorem countP_filter_of_ne {q : List Waiter} (hu : u ≠ t) :
    (removeAllSelfWaiters q t).countP (fun w => w.taskId = u) = q.countP (fun w => w.taskId = u) := by
  unfold removeAllSelfWaiters
  rw [List.countP_filter]
  refine List.countP_congr ?_
  intro w _
  simp only [Bool.and_eq_true, decide_eq_true_eq, and_iff_left_iff_imp]
  intro hw
  exact hw ▸ hu

/-- A wait that returns has no entry left. -/
theorem taskOk_ret {o : WaitOutcome} (hplace : m.place t = .user (some (c, o)))
    (hn : m.entriesOf t = 0) (hret : Returned (m.taken t) c o) : m.TaskOk t := by
  unfold TaskOk
  rw [hplace]
  exact ⟨hn, hret⟩

theorem returned_of_taken {taken : List (Option Nat)} {o : WaitOutcome} (htaken : taken = [])
    (ho : o.isWoken = false) : Returned taken c o := by
  cases o with
  | woken i => cases ho
  | mismatch | timedOut | interrupted => cases c <;> exact htaken

theorem entriesOf_entries (q : List Waiter) (keyIn : Nat → Nat) :
    (q ++ c.entries keyIn t).countP (fun w => w.taskId = u)
      = q.countP (fun w => w.taskId = u) + if u = t then c.size else 0 := by
  rw [List.countP_append]
  congr 1
  cases c with
  | single key bitset timeoutNs userProc =>
    by_cases hu : u = t
    · subst hu
      simp [WaitCall.entries, WaitCall.size]
    · simp [WaitCall.entries, hu, Ne.symm hu]
  | multi uaddrs timeoutNs userProc =>
    by_cases hu : u = t
    · subst hu
      simp [WaitCall.entries, WaitCall.size, List.countP_map, Function.comp_def]
    · simp [WaitCall.entries, List.countP_map, Function.comp_def, hu, Ne.symm hu]

theorem Inv.setup (hinv : m.Inv) (ht : m.place t = .setup c)
    (hfresh : c.isMulti = true → ∀ i, ¬m.Told t i) : (m.setup t c env).Inv := by
  have hquiet := quiet_of_place ht ⟨rfl, rfl⟩
  obtain ⟨hn, htaken⟩ : m.entriesOf t = 0 ∧ m.taken t = [] := by
    have hok := hinv t
    unfold TaskOk at hok
    rwa [ht] at hok
  have hret : ∀ o : WaitOutcome, o.isWoken = false → (m.ret t c o).Inv := by
    intro o ho
    exact hinv.goto hquiet ⟨rfl, rfl⟩
      (taskOk_ret goto_place_self hn (returned_of_taken htaken ho))
  have hqueue : ({ m with queue := m.queue ++ c.entries env.keyIn t }.goto t (.arm c)).Inv := by
    have hmoves : Moves m ({ m with queue := m.queue ++ c.entries env.keyIn t }.goto t (.arm c)) t :=
      .of_quiet rfl hquiet ⟨rfl, rfl⟩
    refine hinv.moves hmoves ?_ ?_ (fun _ _ => rfl) (fun _ _ => rfl) (fun _ _ => rfl)
    · unfold TaskOk
      rw [goto_place_self]
      refine ⟨?_, ?_, ?_⟩
      · refine (congrArg₂ (· + ·) (entriesOf_entries m.queue env.keyIn) (congrArg _ htaken)).trans ?_
        rw [if_pos rfl]
        change m.entriesOf t + c.size + 0 = c.size
        omega
      · intro hmulti i hi
        exact absurd (hmoves.told rfl hi) (hfresh hmulti i)
      · intro hne
        exact absurd htaken hne
    · intro u hu
      refine (entriesOf_entries m.queue env.keyIn).trans ?_
      rw [if_neg hu]
      rfl
  unfold FutexTable.setup
  split
  next => exact hret .mismatch rfl
  next =>
  split
  next => exact hret .timedOut rfl
  next => exact hqueue

theorem Inv.arm (hinv : m.Inv) (ht : m.place t = .arm c) : (m.arm t c env).Inv := by
  have hquiet := quiet_of_place ht ⟨rfl, rfl⟩
  have hok := hinv t
  unfold TaskOk at hok
  rw [ht] at hok
  obtain ⟨hsum, hheard, hdue⟩ := hok
  have hevict : ∀ o : WaitOutcome, o.isWoken = false →
      (m.goto t (.evict c none (some o))).Inv := by
    intro o ho
    refine hinv.goto hquiet ⟨rfl, rfl⟩ ?_
    unfold TaskOk
    rw [goto_place_self]
    refine ⟨hsum, nofun, ?_⟩
    intro o' ho'
    cases ho'
    exact ho
  have hpark : (m.goto t (.park c)).Inv := by
    have hmoves : Moves m (m.goto t (.park c)) t := .of_quiet rfl hquiet ⟨rfl, rfl⟩
    refine hinv.goto hquiet ⟨rfl, rfl⟩ ?_
    unfold TaskOk
    rw [goto_place_self]
    refine ⟨hsum, fun hmulti => (hheard hmulti).moves hmoves rfl rfl, ?_⟩
    intro htaken
    obtain hon | ⟨hpend, _⟩ := hdue htaken
    · exact .inl (hmoves.woken hon)
    · exact .inr ⟨hpend, by rw [goto_place_self]; rfl⟩
  unfold FutexTable.arm
  split
  next => exact hevict .timedOut rfl
  next =>
  split
  next => exact hevict .interrupted rfl
  next => exact hpark

theorem Inv.park (hinv : m.Inv) (ht : m.place t = .park c) : (m.park t c).Inv := by
  have hquiet := quiet_of_place ht ⟨rfl, rfl⟩
  have hok := hinv t
  unfold TaskOk at hok
  rw [ht] at hok
  obtain ⟨hsum, hheard, hdue⟩ := hok
  unfold FutexTable.park
  split
  next hpend =>
    have hmoves : Moves m ({ m with pendingWake := update m.pendingWake t false }.goto t
        (.resumed c)) t := .of_quiet rfl hquiet ⟨rfl, rfl⟩
    refine hinv.moves hmoves ?_ (fun _ _ => rfl) (fun _ _ => rfl) (fun _ _ => rfl) ?_
    · unfold TaskOk
      rw [goto_place_self]
      exact ⟨hsum, fun hmulti => (hheard hmulti).moves hmoves rfl rfl⟩
    · intro u hu
      exact update_of_ne hu ..
  next hpend =>
  have hmoves : Moves m (m.goto t (.parked c)) t := .of_quiet rfl hquiet ⟨rfl, rfl⟩
  refine hinv.goto hquiet ⟨rfl, rfl⟩ ?_
  unfold TaskOk
  rw [goto_place_self]
  refine ⟨hsum, fun hmulti => (hheard hmulti).moves hmoves rfl rfl, ?_⟩
  intro htaken
  obtain hon | ⟨hp, _⟩ := hdue htaken
  · exact .inl (hmoves.woken hon)
  · exact absurd hp hpend

theorem stillQueued_iff : m.stillQueued t = true ↔ m.entriesOf t ≠ 0 := by
  unfold stillQueued entriesOf
  rw [List.any_eq_true, ← Nat.pos_iff_ne_zero, List.countP_pos_iff]

theorem Inv.resumed (hinv : m.Inv) (ht : m.place t = .resumed c) : (m.resumed t c).Inv := by
  have hquiet := quiet_of_place ht ⟨rfl, rfl⟩
  have hok := hinv t
  unfold TaskOk at hok
  rw [ht] at hok
  obtain ⟨hsum, hheard⟩ := hok
  unfold FutexTable.resumed
  split
  next uaddrs timeoutNs userProc =>
    refine hinv.moves (.of_quiet rfl hquiet ⟨rfl, rfl⟩) ?_ (fun _ _ => rfl) (fun _ _ => rfl) ?_
      (fun _ _ => rfl)
    · unfold TaskOk
      rw [goto_place_self]
      exact ⟨hsum, fun i hi => hheard rfl i (.inl hi), nofun⟩
    · intro u hu
      exact update_of_ne hu ..
  next key bitset =>
    split
    next hq =>
      refine hinv.goto hquiet ⟨rfl, rfl⟩ ?_
      unfold TaskOk
      rw [goto_place_self]
      refine ⟨hsum, fun hmulti => (Bool.false_ne_true hmulti).elim, ?_⟩
      -- its one entry is queued, so it was not counted
      intro htaken
      have hpos := List.length_pos_iff.mpr htaken
      have hne := stillQueued_iff.mp hq
      change m.entriesOf t + (m.taken t).length = 1 at hsum
      change 0 < (m.taken t).length at hpos
      omega
    next hq =>
    have hn : m.entriesOf t = 0 := by
      by_contra hne
      exact hq (stillQueued_iff.mpr hne)
    exact hinv.goto hquiet ⟨rfl, rfl⟩ (taskOk_ret goto_place_self hn trivial)
  next =>
  refine hinv.goto hquiet ⟨rfl, rfl⟩ ?_
  unfold TaskOk
  rw [goto_place_self]
  exact ⟨hsum, nofun, nofun⟩

/-- The single entry goes: it was counted, or no wake has counted it. -/
theorem Inv.evictSingle {key : Nat} {bitset : BitVec 32} {timeoutNs : Option Nat} {userProc : Bool}
    {woken : Option Nat} {forced : Option WaitOutcome} (hinv : m.Inv)
    (ht : m.place t = .evict (.single key bitset timeoutNs userProc) woken forced) :
    (m.evict t (.single key bitset timeoutNs userProc) woken forced env).Inv := by
  have hquiet := quiet_of_place ht ⟨rfl, rfl⟩
  have hok := hinv t
  unfold TaskOk at hok
  rw [ht] at hok
  obtain ⟨hsum, _, hforced⟩ := hok
  change m.entriesOf t + (m.taken t).length = 1 at hsum
  have hret : ∀ o : WaitOutcome,
      Returned (m.taken t) (.single key bitset timeoutNs userProc) o →
      ({ m with queue := removeSelfWaiter m.queue t }.ret t
        (.single key bitset timeoutNs userProc) o).Inv := by
    intro o ho
    refine hinv.moves (.of_quiet rfl hquiet ⟨rfl, rfl⟩) ?_ ?_ (fun _ _ => rfl) (fun _ _ => rfl)
      (fun _ _ => rfl)
    · refine taskOk_ret goto_place_self ?_ ho
      have hcount : (removeSelfWaiter m.queue t).countP (fun w => w.taskId = t)
          = m.entriesOf t - 1 := countP_eraseP_self
      change (removeSelfWaiter m.queue t).countP (fun w => w.taskId = t) = 0
      omega
    · intro u hu
      exact countP_eraseP_of_ne hu
  unfold FutexTable.evict
  dsimp only
  split
  next => exact hret _ trivial
  next hq =>
  have hne : m.entriesOf t ≠ 0 := by
    refine stillQueued_iff.mp ?_
    simpa only [Bool.not_eq_true', Bool.not_eq_false] using hq
  have htaken : m.taken t = [] := List.eq_nil_of_length_eq_zero (by omega)
  split
  next o => exact hret o (returned_of_taken htaken (hforced o rfl))
  next =>
  split
  next => exact hret _ htaken
  next =>
  split
  next => exact hret _ htaken
  next => exact hret _ trivial

/-- All entries of a multi-key wait go; without an index they must all be there still. -/
theorem Inv.evictMulti {uaddrs : List Nat} {timeoutNs : Option Nat} {userProc : Bool}
    {woken : Option Nat} {forced : Option WaitOutcome} (hinv : m.Inv)
    (ht : m.place t = .evict (.multi uaddrs timeoutNs userProc) woken forced)
    (hall : forced.isSome = true ∨ woken = none → m.entriesOf t = uaddrs.length) :
    (m.evict t (.multi uaddrs timeoutNs userProc) woken forced env).Inv := by
  have hquiet := quiet_of_place ht ⟨rfl, rfl⟩
  have hok := hinv t
  unfold TaskOk at hok
  rw [ht] at hok
  obtain ⟨hsum, hwoken, hforced⟩ := hok
  change m.entriesOf t + (m.taken t).length = uaddrs.length at hsum
  have hnone : forced.isSome = true ∨ woken = none → m.taken t = [] := by
    intro h
    have hn := hall h
    exact List.eq_nil_of_length_eq_zero (by omega)
  have hgone : (removeAllSelfWaiters m.queue t).countP (fun w => w.taskId = t) = 0 :=
    countP_filter_self
  have hgo : ∀ p : WaitPlace, p.Quiet →
      ({ m with queue := removeAllSelfWaiters m.queue t }.goto t p).TaskOk t →
      ({ m with queue := removeAllSelfWaiters m.queue t }.goto t p).Inv := by
    intro p hp hok'
    refine hinv.moves (.of_quiet rfl hquiet hp) hok' ?_ (fun _ _ => rfl) (fun _ _ => rfl)
      (fun _ _ => rfl)
    intro u hu
    exact countP_filter_of_ne hu
  have hret : ∀ o : WaitOutcome, Returned (m.taken t) (.multi uaddrs timeoutNs userProc) o →
      ({ m with queue := removeAllSelfWaiters m.queue t }.ret t
        (.multi uaddrs timeoutNs userProc) o).Inv := by
    intro o ho
    exact hgo _ ⟨rfl, rfl⟩ (taskOk_ret goto_place_self hgone ho)
  unfold FutexTable.evict
  dsimp only
  split
  next o =>
    refine hgo _ ⟨rfl, rfl⟩ ?_
    unfold TaskOk
    rw [goto_place_self]
    exact ⟨hgone, hnone (.inl rfl), hforced o rfl⟩
  next =>
  split
  next i => exact hret _ ⟨rfl, hwoken i rfl⟩
  next =>
  have htaken := hnone (.inr rfl)
  split
  next => exact hret _ htaken
  next =>
  split
  next => exact hret _ htaken
  next =>
  refine hgo _ ⟨rfl, rfl⟩ ?_
  unfold TaskOk
  rw [goto_place_self]
  exact ⟨hgone, htaken⟩

theorem Inv.clear {o : WaitOutcome} (hinv : m.Inv) (ht : m.place t = .clear c o) :
    ({ m with multiWoken := update m.multiWoken t none }.ret t c o).Inv := by
  have hquiet := quiet_of_place ht ⟨rfl, rfl⟩
  have hok := hinv t
  unfold TaskOk at hok
  rw [ht] at hok
  obtain ⟨hn, htaken, ho⟩ := hok
  refine hinv.moves (.of_quiet rfl hquiet ⟨rfl, rfl⟩) ?_ (fun _ _ => rfl) (fun _ _ => rfl) ?_
    (fun _ _ => rfl)
  · exact taskOk_ret goto_place_self hn (returned_of_taken htaken ho)
  · intro u hu
    exact update_of_ne hu ..

end Waits

/-! ## The steps of a wake -/

/-- A waker has no entry. -/
theorem taskOk_waking (hn : m.entriesOf t = 0)
    (hplace : (∃ rest toWake, m.place t = .record rest toWake) ∨ (∃ toWake, m.place t = .wake toWake) ∨
      m.place t = .user none) : m.TaskOk t := by
  unfold TaskOk
  obtain ⟨rest, toWake, hp⟩ | ⟨toWake, hp⟩ | hp := hplace <;> rw [hp] <;> exact hn

/-- A task in no wait has no entry. -/
theorem Inv.none_queued (hinv : m.Inv) (ht : (m.place t).queuedFor = none) : m.entriesOf t = 0 := by
  by_contra hne
  have hwaits := (hinv t).waits hne
  rw [ht] at hwaits
  cases hwaits

/-- An index that was to be recorded is recorded, unless there was one. -/
theorem Inv.recordIndex {x : TaskId} {i : Nat} {rest : List (TaskId × Option Nat)}
    {toWake : List TaskId} (hinv : m.Inv) (ht : m.place t = .record ((x, some i) :: rest) toWake) :
    ((m.recordIndex x i).goto t (.record rest toWake)).Inv := by
  have hmoves : Moves m ((m.recordIndex x i).goto t (.record rest toWake)) t := by
    refine ⟨fun u hu => goto_place_of_ne hu, ?_, ?_⟩
    · intro y hy
      rw [goto_place_self] at hy
      rw [ht]
      exact List.mem_cons_of_mem _ hy
    · intro y hy
      rw [ht] at hy
      rw [goto_place_self]
      exact hy
  have htold : ∀ u j, ((m.recordIndex x i).goto t (.record rest toWake)).Told u j → m.Told u j := by
    intro u j hj
    by_cases hux : u = x
    · subst hux
      obtain hnow | ⟨v, hv⟩ := hj
      · have hidx : (m.multiWoken u).or (some i) = some j := by
          refine Eq.trans ?_ hnow
          exact (update_self u _ m.multiWoken).symm
        cases hm : m.multiWoken u with
        | none =>
          rw [hm, Option.none_or] at hidx
          cases hidx
          refine .inr ⟨t, ?_⟩
          rw [ht]
          exact List.mem_cons_self
        | some k =>
          rw [hm, Option.some_or] at hidx
          exact .inl (hm.trans hidx)
      · by_cases hvt : v = t
        · subst hvt
          exact .inr ⟨v, hmoves.pending _ hv⟩
        · rw [hmoves.other v hvt] at hv
          exact .inr ⟨v, hv⟩
    · exact hmoves.told (update_of_ne hux ..) hj
  intro u
  by_cases hu : u = t
  · subst hu
    refine taskOk_waking ?_ (.inl ⟨rest, toWake, goto_place_self⟩)
    exact hinv.none_queued (by rw [ht]; rfl)
  · refine (hinv u).follows ⟨hmoves.other u hu, ⟨[], ?_, rfl, fun hne => absurd rfl hne⟩, ?_, ?_⟩
    · exact (List.append_nil _).symm
    · intro j hj
      exact .inl (htold u j hj)
    · intro hdue
      obtain hon | ⟨hpend, hpark⟩ := hdue
      · exact .inl (hmoves.woken hon)
      · exact .inr ⟨hpend, by rwa [hmoves.other u hu]⟩

/-- A wake goes on to the next of its tasks, or to waking them. -/
theorem Inv.waking (hinv : m.Inv) (ht : (m.place t).queuedFor = none)
    (hpending : ∀ x ∈ p.pending, x ∈ (m.place t).pending)
    (htoWake : ∀ x ∈ (m.place t).toWake, x ∈ p.toWake)
    (hp : (∃ rest toWake, p = .record rest toWake) ∨ (∃ toWake, p = .wake toWake) ∨ p = .user none) :
    (m.goto t p).Inv := by
  refine hinv.moves ⟨fun u hu => goto_place_of_ne hu, ?_, ?_⟩ ?_ (fun _ _ => rfl) (fun _ _ => rfl)
    (fun _ _ => rfl) (fun _ _ => rfl)
  · rwa [goto_place_self]
  · rwa [goto_place_self]
  · refine taskOk_waking (hinv.none_queued ht) ?_
    rwa [goto_place_self]

/-- What waking `x` does to the table. -/
theorem wakeTask_cases (m : FutexTable) (x : TaskId) :
    (∃ c, m.place x = .parked c ∧ m.wakeTask x = m.goto x (.resumed c)) ∨
    ((m.place x).isParked = false ∧
      m.wakeTask x = { m with pendingWake := update m.pendingWake x true }) := by
  unfold wakeTask
  split
  next c hp => exact .inl ⟨c, hp, rfl⟩
  next hp =>
  refine .inr ⟨?_, rfl⟩
  cases hpx : m.place x with
  | parked c => exact absurd hpx (hp c)
  | _ => rfl

/-- A wake that comes is due no more to the others; the task itself does not park. -/
theorem Inv.wakeTask (hinv : m.Inv) (x : TaskId) : (m.wakeTask x).Inv := by
  obtain ⟨c, hp, heq⟩ | ⟨hp, heq⟩ := wakeTask_cases m x
  · rw [heq]
    have hquiet := quiet_of_place hp ⟨rfl, rfl⟩
    have hmoves : Moves m (m.goto x (.resumed c)) x := .of_quiet rfl hquiet ⟨rfl, rfl⟩
    have hok := hinv x
    unfold TaskOk at hok
    rw [hp] at hok
    refine hinv.goto hquiet ⟨rfl, rfl⟩ ?_
    unfold TaskOk
    rw [goto_place_self]
    exact ⟨hok.1, fun hmulti => (hok.2.1 hmulti).moves hmoves rfl rfl⟩
  · rw [heq]
    intro u
    refine (hinv u).follows ⟨rfl, ⟨[], (List.append_nil _).symm, rfl, fun hne => absurd rfl hne⟩,
      fun _ hi => .inl hi, ?_⟩
    intro hdue
    obtain hon | ⟨hpend, hpark⟩ := hdue
    · exact .inl hon
    · refine .inr ⟨?_, hpark⟩
      by_cases hux : u = x
      · subst hux
        exact update_self ..
      · rw [← hpend]
        exact update_of_ne hux ..

/-- The next task of a wake is woken. -/
theorem Inv.wake {x : TaskId} {rest : List TaskId} (hinv : m.Inv)
    (ht : m.place t = .wake (x :: rest)) : ((m.goto t (.wake rest)).wakeTask x).Inv := by
  have hmt : m.entriesOf t = 0 := hinv.none_queued (by rw [ht]; rfl)
  have hpending : ∀ v, ((m.goto t (.wake rest)).place v).pending = (m.place v).pending := by
    intro v
    by_cases hvt : v = t
    · subst hvt
      rw [goto_place_self, ht]
      rfl
    · rw [goto_place_of_ne hvt]
  have htoWake : ∀ u, u ≠ x → (∃ v, u ∈ (m.place v).toWake) →
      ∃ v, u ∈ ((m.goto t (.wake rest)).place v).toWake := by
    rintro u hux ⟨v, hv⟩
    refine ⟨v, ?_⟩
    by_cases hvt : v = t
    · subst hvt
      rw [ht] at hv
      rw [goto_place_self]
      exact List.mem_of_ne_of_mem hux hv
    · rwa [goto_place_of_ne hvt]
  have htold : ∀ u i, (m.goto t (.wake rest)).Told u i → m.Told u i := by
    rintro u i (hi | ⟨v, hv⟩)
    · exact .inl hi
    · rw [hpending v] at hv
      exact .inr ⟨v, hv⟩
  obtain ⟨c, hp, heq⟩ | ⟨hp, heq⟩ := wakeTask_cases (m.goto t (.wake rest)) x
  · -- `x` is parked, so it is another task; it alone is awaited no more
    have hxt : x ≠ t := by
      rintro rfl
      rw [goto_place_self] at hp
      cases hp
    rw [heq]
    have hmoves : Moves (m.goto t (.wake rest)) ((m.goto t (.wake rest)).goto x (.resumed c)) x :=
      .of_quiet rfl (by rw [hp]; exact ⟨rfl, rfl⟩) ⟨rfl, rfl⟩
    rw [goto_place_of_ne hxt] at hp
    intro u
    by_cases hut : u = t
    · subst hut
      exact taskOk_waking hmt (.inr (.inl ⟨rest, (hmoves.other u hxt.symm).trans goto_place_self⟩))
    · by_cases hux : u = x
      · subst hux
        have hok := hinv u
        unfold TaskOk at hok
        rw [hp] at hok
        unfold TaskOk
        rw [goto_place_self]
        refine ⟨hok.1, fun hmulti i hi => hok.2.1 hmulti i (htold u i (hmoves.told rfl hi))⟩
      · refine (hinv u).follows ⟨?_, ⟨[], (List.append_nil _).symm, rfl, fun hne => absurd rfl hne⟩,
          fun i hi => .inl (htold u i (hmoves.told rfl hi)), ?_⟩
        · rw [hmoves.other u hux, goto_place_of_ne hut]
        · rintro (hon | ⟨hpend, hpark⟩)
          · exact .inl (hmoves.woken (htoWake u hux hon))
          · exact .inr ⟨hpend, by rwa [hmoves.other u hux, goto_place_of_ne hut]⟩
  · rw [heq]
    intro u
    by_cases hut : u = t
    · subst hut
      exact taskOk_waking hmt (.inr (.inl ⟨rest, goto_place_self⟩))
    · refine (hinv u).follows ⟨goto_place_of_ne hut,
        ⟨[], (List.append_nil _).symm, rfl, fun hne => absurd rfl hne⟩,
        fun i hi => .inl (htold u i hi), ?_⟩
      intro hdue
      by_cases hux : u = x
      · subst hux
        exact .inr ⟨update_self .., hp⟩
      · obtain hon | ⟨hpend, hpark⟩ := hdue
        · exact .inl (htoWake u hux hon)
        · refine .inr ⟨?_, (congrArg WaitPlace.isParked (goto_place_of_ne hut)).trans hpark⟩
          rw [← hpend]
          exact update_of_ne hux ..

/-- Entries are taken off the queue, and counted, and their tasks are to be woken. -/
theorem Inv.counting {queue ws : List Waiter} (hinv : m.Inv) (ht : (m.place t).queuedFor = none)
    (hold : (m.place t).Quiet)
    (hcount : ∀ u, queue.countP (fun w => w.taskId = u) + ws.countP (fun w => w.taskId = u)
      = m.entriesOf u)
    (hp : (∃ rest toWake, p = .record rest toWake) ∨ (∃ toWake, p = .wake toWake) ∨ p = .user none)
    (hpending : ∀ x ∈ p.pending, x ∈ ws.map Waiter.who) (htoWake : p.toWake = ws.map Waiter.taskId) :
    (({ m with queue := queue }.count ws).goto t p).Inv := by
  have hplace : ∀ u, u ≠ t → (({ m with queue := queue }.count ws).goto t p).place u = m.place u :=
    fun u hu => goto_place_of_ne hu
  intro u
  by_cases hu : u = t
  · subst hu
    refine taskOk_waking ?_ ?_
    · have hn := hinv.none_queued ht
      have hsum := hcount u
      change queue.countP (fun w => w.taskId = u) = 0
      omega
    · rwa [goto_place_self]
  · refine (hinv u).follows ⟨hplace u hu, ⟨_, rfl, ?_, ?_⟩, ?_, ?_⟩
    · rw [List.length_map, ← List.countP_eq_length_filter]
      exact hcount u
    · -- a counted task is among those to wake
      intro hne
      obtain ⟨i, hi⟩ := List.exists_mem_of_ne_nil _ hne
      obtain ⟨w, hw, _⟩ := List.mem_map.mp hi
      obtain ⟨hin, hwu⟩ := List.mem_filter.mp hw
      have hwu : w.taskId = u := of_decide_eq_true hwu
      refine .inl ⟨t, ?_⟩
      rw [goto_place_self, htoWake, ← hwu]
      exact List.mem_map_of_mem hin
    · rintro i (hi | ⟨v, hv⟩)
      · exact .inl (.inl hi)
      · by_cases hvt : v = t
        · subst hvt
          rw [goto_place_self] at hv
          obtain ⟨w, hw, hwho⟩ := List.mem_map.mp (hpending _ hv)
          rw [Waiter.who, Prod.mk.injEq] at hwho
          refine .inr (List.mem_append_right _ ?_)
          rw [← hwho.2]
          exact List.mem_map_of_mem (List.mem_filter.mpr ⟨hw, decide_eq_true hwho.1⟩)
        · rw [hplace v hvt] at hv
          exact .inl (.inr ⟨v, hv⟩)
    · rintro (⟨v, hv⟩ | ⟨hpend, hpark⟩)
      · refine .inl ⟨v, ?_⟩
        by_cases hvt : v = t
        · subst hvt
          rw [hold.2] at hv
          cases hv
        · rwa [hplace v hvt]
      · exact .inr ⟨hpend, by rwa [hplace u hu]⟩

/-- A removal loop moves entries from the queue to the count. -/
theorem countP_takeWaiters {pred : Waiter → Bool} {n : Nat} (m : FutexTable) (u : TaskId) :
    (takeWaiters pred n m.queue).2.countP (fun w => w.taskId = u)
        + (takeWaiters pred n m.queue).1.countP (fun w => w.taskId = u) = m.entriesOf u := by
  rw [Nat.add_comm, ← List.countP_append]
  exact takeWaiters_perm.countP_eq _

/-- A requeue moves no entry from one task to another. -/
theorem countP_requeueLoop {key1 key2 n : Nat} {q : List Waiter} (u : TaskId) :
    (requeueLoop key1 key2 n q).countP (fun w => w.taskId = u) = q.countP (fun w => w.taskId = u) := by
  have hcount : ∀ l : List Waiter, l.countP (fun w => w.taskId = u)
      = (l.map Waiter.who).countP (fun x => x.1 = u) := by
    intro l
    rw [List.countP_map]
    rfl
  rw [hcount, hcount]
  exact requeueLoop_perm.countP_eq _

section Wakes

variable {key key1 maxWake maxRequeue room : Nat} {key2 : Option Nat} {bitset : BitVec 32}
  {equal : Bool} {r : Option (WaitCall × WaitOutcome)}

theorem Inv.wakeBitset (hinv : m.Inv) (ht : m.place t = .user r) :
    (m.wakeBitset t key maxWake bitset room).Inv := by
  have hqueued : (m.place t).queuedFor = none := by rw [ht]; rfl
  have hquiet := quiet_of_place ht ⟨rfl, rfl⟩
  unfold FutexTable.wakeBitset
  split
  next =>
    refine hinv.waking hqueued (fun _ hx => nomatch hx) ?_ (.inr (.inr rfl))
    rw [hquiet.2]
    exact fun _ hx => nomatch hx
  next =>
    exact hinv.counting hqueued hquiet (countP_takeWaiters m) (.inl ⟨_, _, rfl⟩) (fun _ hx => hx) rfl

theorem Inv.requeue (hinv : m.Inv) (ht : m.place t = .user r) :
    (m.requeue t key1 key2 maxWake maxRequeue room equal).Inv := by
  have hqueued : (m.place t).queuedFor = none := by rw [ht]; rfl
  have hquiet := quiet_of_place ht ⟨rfl, rfl⟩
  unfold FutexTable.requeue
  split
  next =>
    refine hinv.waking hqueued (fun _ hx => nomatch hx) ?_ (.inr (.inr rfl))
    rw [hquiet.2]
    exact fun _ hx => nomatch hx
  next =>
  refine hinv.counting hqueued hquiet ?_ (.inr (.inl ⟨_, rfl⟩)) (fun _ hx => nomatch hx) rfl
  intro u
  cases key2 with
  | none => exact countP_takeWaiters m u
  | some key2 =>
    dsimp only
    rw [countP_requeueLoop]
    exact countP_takeWaiters m u

end Wakes

/-! ## Every step, every run -/

/-- The steps that lose no index. A multi-key wait queues only when no index is left from an earlier wait
or about to be recorded for it, and it takes its entries out without an index only while a wake has taken
none of them. -/
def Heeded (m : FutexTable) : FutexAction → Prop
  | .advance t _ =>
    match m.place t with
    | .setup (.multi ..) => ∀ i, ¬m.Told t i
    | .evict (.multi uaddrs _ _) woken forced =>
      forced.isSome = true ∨ woken = none → m.entriesOf t = uaddrs.length
    | _ => True
  | _ => True

theorem of_fromUser {s : FutexTable} (h : m.fromUser t s = some m') :
    (∃ r, m.place t = .user r) ∧ s = m' := by
  unfold fromUser at h
  split at h
  next r hr => exact ⟨⟨r, hr⟩, Option.some.inj h⟩
  next => cases h

theorem Inv.advance {env : WaitEnv} (hinv : m.Inv) (hok : m.Heeded (.advance t env))
    (hs : m.advance t env = some m') : m'.Inv := by
  unfold FutexTable.advance at hs
  unfold Heeded at hok
  dsimp only at hok
  split at hs
  case h_1 | h_2 => cases hs
  case h_3 c ht =>
    cases hs
    refine hinv.setup ht ?_
    intro hmulti
    rw [ht] at hok
    cases c with
    | single => cases hmulti
    | multi => exact hok
  case h_4 c ht =>
    cases hs
    exact hinv.arm ht
  case h_5 c ht =>
    cases hs
    exact hinv.park ht
  case h_6 c ht =>
    cases hs
    exact hinv.resumed ht
  case h_7 c woken forced ht =>
    cases hs
    rw [ht] at hok
    cases c with
    | single => exact hinv.evictSingle ht
    | multi => exact hinv.evictMulti ht hok
  case h_8 c o ht =>
    cases hs
    exact hinv.clear ht
  case h_9 toWake ht =>
    cases hs
    refine hinv.waking (by rw [ht]; rfl) (fun _ hx => nomatch hx) ?_ (.inr (.inl ⟨_, rfl⟩))
    rw [ht]
    exact fun _ hx => hx
  case h_10 x rest toWake ht =>
    cases hs
    refine hinv.waking (by rw [ht]; rfl) ?_ ?_ (.inl ⟨_, _, rfl⟩)
    · rw [ht]
      exact fun _ hy => List.mem_cons_of_mem _ hy
    · rw [ht]
      exact fun _ hy => hy
  case h_11 x i rest toWake ht =>
    cases hs
    exact hinv.recordIndex ht
  case h_12 ht =>
    cases hs
    refine hinv.waking (by rw [ht]; rfl) (fun _ hx => nomatch hx) ?_ (.inr (.inr rfl))
    rw [ht]
    exact fun _ hx => nomatch hx
  case h_13 x rest ht =>
    cases hs
    exact hinv.wake ht

/-- A heeded step keeps the invariant. -/
theorem Inv.step {a : FutexAction} (hinv : m.Inv) (hok : m.Heeded a) (hs : m.step a = some m') :
    m'.Inv := by
  cases a with
  | wait t c =>
    obtain ⟨⟨r, hr⟩, rfl⟩ := of_fromUser hs
    exact hinv.wait hr
  | wakeBitset u key maxWake bitset room =>
    obtain ⟨⟨r, hr⟩, rfl⟩ := of_fromUser hs
    exact hinv.wakeBitset hr
  | requeue u key1 key2 maxWake maxRequeue room equal =>
    obtain ⟨⟨r, hr⟩, rfl⟩ := of_fromUser hs
    exact hinv.requeue hr
  | unpark t =>
    cases hs
    exact hinv.wakeTask t
  | advance t env => exact hinv.advance hok hs

theorem Init.inv (h : m.Init) : m.Inv := by
  intro t
  unfold TaskOk
  rw [h.user t]
  change m.queue.countP _ = 0
  rw [h.queue]
  rfl

/-- Of the waiters `pred` lets it take, a step counts the first ones, in the order they queued, and loses
or doubles no other. -/
def CountsFirst (m m' : FutexTable) (pred : Waiter → Bool) (maxWake : Nat) : Prop :=
  ∃ n, n ≤ maxWake ∧ m'.taken = (m.count ((m.queue.filter pred).take n)).taken ∧
    (((m.queue.filter pred).take n ++ m'.queue).map Waiter.who).Perm (m.queue.map Waiter.who)

/-- Queued entries keep their order, and what is queued or moved goes to the end; a wake counts the first
of its key. -/
def FirstOut (m : FutexTable) (a : FutexAction) (m' : FutexTable) : Prop :=
  (∃ kept added, m'.queue = kept ++ added ∧ kept.Sublist m.queue) ∧
    match a with
    | .wakeBitset _ key maxWake bitset _ => CountsFirst m m' (matchesWake key bitset) maxWake
    | .requeue _ key1 _ maxWake _ _ _ => CountsFirst m m' (fun w => decide (w.key = key1)) maxWake
    | _ => True

/-- A step that leaves the queue as it is keeps its order. -/
theorem kept_of_eq (h : m'.queue = m.queue) :
    ∃ kept added, m'.queue = kept ++ added ∧ kept.Sublist m.queue :=
  ⟨m.queue, [], by rw [h, List.append_nil], List.Sublist.refl _⟩

theorem kept_of_sublist (h : m'.queue.Sublist m.queue) :
    ∃ kept added, m'.queue = kept ++ added ∧ kept.Sublist m.queue :=
  ⟨m'.queue, [], (List.append_nil _).symm, h⟩

theorem wakeTask_queue {x : TaskId} : (m.wakeTask x).queue = m.queue := by
  obtain ⟨c, _, heq⟩ | ⟨_, heq⟩ := wakeTask_cases m x
  · rw [heq]
    rfl
  · rw [heq]

theorem advance_order {env : WaitEnv} (hs : m.advance t env = some m') :
    ∃ kept added, m'.queue = kept ++ added ∧ kept.Sublist m.queue := by
  unfold FutexTable.advance at hs
  split at hs
  case h_1 | h_2 => cases hs
  case h_3 c _ =>
    cases hs
    unfold FutexTable.setup
    split
    next => exact kept_of_eq rfl
    next =>
    split
    next => exact kept_of_eq rfl
    next => exact ⟨m.queue, _, rfl, List.Sublist.refl _⟩
  case h_4 =>
    cases hs
    unfold FutexTable.arm
    split_ifs <;> exact kept_of_eq rfl
  case h_5 =>
    cases hs
    unfold FutexTable.park
    split_ifs <;> exact kept_of_eq rfl
  case h_6 =>
    cases hs
    unfold FutexTable.resumed
    split
    next => exact kept_of_eq rfl
    next => split_ifs <;> exact kept_of_eq rfl
    next => exact kept_of_eq rfl
  case h_7 c woken forced _ =>
    cases hs
    refine kept_of_sublist ?_
    cases c with
    | single key bitset timeoutNs userProc =>
      have hsub : (removeSelfWaiter m.queue t).Sublist m.queue := List.eraseP_sublist
      unfold FutexTable.evict
      dsimp only
      split
      next => exact hsub
      next =>
      split
      next => exact hsub
      next => split_ifs <;> exact hsub
    | multi uaddrs timeoutNs userProc =>
      have hsub : (removeAllSelfWaiters m.queue t).Sublist m.queue := List.filter_sublist
      unfold FutexTable.evict
      dsimp only
      split
      next => exact hsub
      next =>
      split
      next => exact hsub
      next => split_ifs <;> exact hsub
  case h_13 x rest _ =>
    cases hs
    exact kept_of_eq wakeTask_queue
  all_goals
    cases hs
    exact kept_of_eq rfl

/-- Who the counted waiters and the others are does not change. -/
theorem takeWaiters_who {p : Waiter → Bool} {n : Nat} :
    (((m.queue.filter p).take n ++ (takeWaiters p n m.queue).2).map Waiter.who).Perm
      (m.queue.map Waiter.who) := by
  rw [← takeWaiters_fst]
  exact takeWaiters_perm.map Waiter.who

/-- A wake counts the first of its key. -/
theorem wakeBitset_countsFirst {key maxWake room : Nat} {bitset : BitVec 32} :
    (∃ kept added, (m.wakeBitset u key maxWake bitset room).queue = kept ++ added ∧
      kept.Sublist m.queue) ∧
    CountsFirst m (m.wakeBitset u key maxWake bitset room) (matchesWake key bitset) maxWake := by
  unfold FutexTable.wakeBitset
  split
  next =>
    refine ⟨kept_of_eq rfl, 0, Nat.zero_le _, ?_, List.Perm.refl _⟩
    funext t
    exact (List.append_nil _).symm
  next =>
  refine ⟨kept_of_sublist takeWaiters_snd, min maxWake room, Nat.min_le_left .., ?_, ?_⟩
  · dsimp only
    rw [takeWaiters_fst]
    rfl
  · exact takeWaiters_who

/-- The wake phase of a requeue counts the first of its key. -/
theorem requeue_countsFirst {key1 maxWake maxRequeue room : Nat} {key2 : Option Nat} {equal : Bool} :
    (∃ kept added, (m.requeue u key1 key2 maxWake maxRequeue room equal).queue = kept ++ added ∧
      kept.Sublist m.queue) ∧
    CountsFirst m (m.requeue u key1 key2 maxWake maxRequeue room equal)
      (fun w => decide (w.key = key1)) maxWake := by
  unfold FutexTable.requeue
  split
  next =>
    refine ⟨kept_of_eq rfl, 0, Nat.zero_le _, ?_, List.Perm.refl _⟩
    funext t
    exact (List.append_nil _).symm
  next =>
  refine ⟨?_, min maxWake room, Nat.min_le_left .., ?_, ?_⟩
  · cases key2 with
    | none => exact kept_of_sublist takeWaiters_snd
    | some key2 =>
      obtain ⟨kept, moved, heq, hsub⟩ := requeueLoop_order key1 key2 maxRequeue
        (takeWaiters (fun w => decide (w.key = key1)) (min maxWake room) m.queue).2
      exact ⟨kept, moved, heq, hsub.trans takeWaiters_snd⟩
  · dsimp only
    rw [takeWaiters_fst]
    rfl
  · cases key2 with
    | none => exact takeWaiters_who
    | some key2 =>
      refine List.Perm.trans ?_ (takeWaiters_who (n := min maxWake room)
        (p := fun w => decide (w.key = key1)))
      rw [List.map_append, List.map_append]
      exact requeueLoop_perm.append_left _

/-- What a step takes off a queue is what queued first. -/
theorem step_firstOut {a : FutexAction} (hs : m.step a = some m') : m.FirstOut a m' := by
  cases a with
  | wait t c =>
    obtain ⟨_, rfl⟩ := of_fromUser hs
    exact ⟨kept_of_eq rfl, trivial⟩
  | wakeBitset u key maxWake bitset room =>
    obtain ⟨_, rfl⟩ := of_fromUser hs
    exact wakeBitset_countsFirst
  | requeue u key1 key2 maxWake maxRequeue room equal =>
    obtain ⟨_, rfl⟩ := of_fromUser hs
    exact requeue_countsFirst
  | unpark t =>
    cases hs
    exact ⟨kept_of_eq wakeTask_queue, trivial⟩
  | advance t env => exact ⟨advance_order hs, trivial⟩

/-- **Wake accounting.** In every run whose steps are heeded, a counted wait returns as woken, by an index
that was counted, no entry outlives its wait, a parked task that was counted is woken, and waiters are
taken in the order they queued. -/
theorem wake_accounting (h : ReachBy FutexTable.step Heeded Init m) :
    m.Accounted ∧ ∀ a m', m.step a = some m' → m.FirstOut a m' :=
  ⟨(h.invariant (I := Inv) (fun _ hinit => hinit.inv)
    fun _ _ _ hinv hok hs => hinv.step hok hs).accounted, fun _ _ hs => step_firstOut hs⟩

/-! ## A heeded run, and two that are not -/

/-- Nobody waits. -/
def idle : FutexTable := ⟨[], fun _ => none, fun _ => .user none, fun _ => false, fun _ => []⟩

theorem init_idle : idle.Init := ⟨rfl, fun _ => rfl⟩

/-- The next step of `t`, the words as expected, nothing late and no signal. -/
def next (t : TaskId) : FutexAction := .advance t ⟨id, true, false, false⟩

/-- The next step of `t` after its deadline. -/
def nextLate (t : TaskId) : FutexAction := .advance t ⟨id, true, true, false⟩

/-- `t` waits for the words, and parks. -/
def waitMultiple (t : TaskId) (uaddrs : List Nat) : List FutexAction :=
  [.wait t (.multi uaddrs (some 1000) true), next t, next t, next t]

/-- Task 2 wakes key 20; task 1 waits for it as its second word. -/
def wokenRun : List FutexAction :=
  waitMultiple 1 [10, 20] ++ [.wakeBitset 2 20 1 bitsetMatchAny 1, next 2, next 2, next 2, next 1, next 1]

/-- The side condition of the steps after the queueing. -/
def heededCheck (m : FutexTable) : FutexAction → Bool
  | .advance t _ =>
    match m.place t with
    | .setup (.multi ..) => false
    | .evict (.multi uaddrs _ _) woken forced =>
      decide (forced.isSome = true ∨ woken = none → m.entriesOf t = uaddrs.length)
    | _ => true
  | _ => true

theorem heeded_of_check {a : FutexAction} (h : m.heededCheck a = true) : m.Heeded a := by
  cases a with
  | advance t env =>
    unfold heededCheck at h
    unfold Heeded
    dsimp only at h ⊢
    split at h
    next => cases h
    next => exact of_decide_eq_true h
    next hsetup hevict =>
    cases hp : m.place t with
    | setup c =>
      cases c with
      | single => trivial
      | multi uaddrs timeoutNs userProc => exact absurd hp (hsetup uaddrs timeoutNs userProc)
    | evict c woken forced =>
      cases c with
      | single => trivial
      | multi uaddrs timeoutNs userProc =>
        exact absurd hp (hevict uaddrs timeoutNs userProc woken forced)
    | _ => trivial
  | _ => trivial

/-- Nobody is told an index when its first wait begins. -/
theorem not_told_idle {c : WaitCall} {i : Nat} : ¬(idle.wait t c).Told u i := by
  rintro (hi | ⟨v, hv⟩)
  · cases hi
  · by_cases hvt : v = t
    · subst hvt
      rw [show (idle.wait v c).place v = .setup c from goto_place_self] at hv
      cases hv
    · rw [show (idle.wait t c).place v = .user none from goto_place_of_ne hvt] at hv
      cases hv

theorem along_wokenRun : Along FutexTable.step Heeded idle wokenRun := by
  refine ⟨trivial, ?_⟩
  intro s hs
  cases hs
  refine ⟨fun _ => not_told_idle, ?_⟩
  intro s hs
  cases hs
  exact Along.of_check (fun _ _ => heeded_of_check) (by decide)

theorem wake_accounting_second_word :
    (run FutexTable.step idle wokenRun).map (fun m => (m.place 1, m.taken 1, m.queue))
        = some (.user (some (.multi [10, 20] (some 1000) true, .woken (some 1))), [some 1], []) ∧
      ∀ m, run FutexTable.step idle wokenRun = some m →
        m.Accounted ∧ ∀ a m', m.step a = some m' → m.FirstOut a m' :=
  ⟨by decide, fun _ hm => wake_accounting (ReachBy.of_run (.start init_idle) hm along_wokenRun)⟩

/-- Task 2 requeues task 1 away: it counts the entry, records no index and wakes the task, which has run
out of time by then. -/
def swallowedRun : List FutexAction :=
  waitMultiple 1 [10] ++ [.requeue 2 10 none 1 0 1 true, next 2, nextLate 1, nextLate 1]

/-- Task 3 records the index of the second word after the wait has returned with the first. The next wait
of task 1 returns with it as task 2 counts its first word. -/
def staleIndexRun : List FutexAction :=
  waitMultiple 1 [10, 20] ++ [.wakeBitset 2 10 1 bitsetMatchAny 1, .wakeBitset 3 20 1 bitsetMatchAny 1,
    next 2, next 2, next 2, next 2, next 1, next 1, next 3, next 3, next 3, next 3] ++
  waitMultiple 1 [30, 40] ++ [.wakeBitset 2 30 1 bitsetMatchAny 1, next 1, next 1]

/-- **A swallowed wake, and a stale index.** The first run ends with a wait that was counted and reports a
time-out, the second with a wait that reports a word it was not taken from. -/
theorem wake_swallowed_and_misreported :
    (∃ m, run FutexTable.step idle swallowedRun = some m ∧
      m.place 1 = .user (some (.multi [10] (some 1000) true, .timedOut)) ∧ m.taken 1 = [some 0] ∧
      ¬m.Accounted) ∧
    ∃ m, run FutexTable.step idle staleIndexRun = some m ∧
      m.place 1 = .user (some (.multi [30, 40] (some 1000) true, .woken (some 1))) ∧
      m.taken 1 = [some 0] ∧ ¬m.Accounted := by
  constructor
  · obtain ⟨m, hm⟩ : ∃ m, run FutexTable.step idle swallowedRun = some m :=
      Option.isSome_iff_exists.mp (by decide)
    have hend : (run FutexTable.step idle swallowedRun).map (fun m => (m.place 1, m.taken 1))
        = some (.user (some (.multi [10] (some 1000) true, .timedOut)), [some 0]) := by decide
    rw [hm, Option.map_some, Option.some.injEq, Prod.mk.injEq] at hend
    obtain ⟨hplace, htaken⟩ := hend
    refine ⟨m, hm, hplace, htaken, ?_⟩
    intro hacc
    have hret := hacc.returned 1 _ _ hplace
    rw [htaken] at hret
    exact List.cons_ne_nil _ _ hret
  · obtain ⟨m, hm⟩ : ∃ m, run FutexTable.step idle staleIndexRun = some m :=
      Option.isSome_iff_exists.mp (by decide)
    have hend : (run FutexTable.step idle staleIndexRun).map (fun m => (m.place 1, m.taken 1))
        = some (.user (some (.multi [30, 40] (some 1000) true, .woken (some 1))), [some 0]) := by decide
    rw [hm, Option.map_some, Option.some.injEq, Prod.mk.injEq] at hend
    obtain ⟨hplace, htaken⟩ := hend
    refine ⟨m, hm, hplace, htaken, ?_⟩
    intro hacc
    have hret := hacc.returned 1 _ _ hplace
    rw [htaken] at hret
    exact absurd hret.2 (by decide)

end FutexTable

end SlateOS.Ipc.FutexWait
