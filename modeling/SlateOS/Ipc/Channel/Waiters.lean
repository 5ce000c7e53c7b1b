/-
# SlateOS.Ipc.Channel.Waiters -- who wakes a waiting task

The channel records one waiting receiver and one waiting sender for each side. A task that waits is
recorded, or a wake is on its way to it, as long as two things do not happen: a task records itself over
another one that waits in the same place, and an end closes while a task waits on that end. Both kinds
of channel behave alike here.
-/
import SlateOS.Ipc.Channel.Calls
import SlateOS.Ipc.Channel.Recorded

namespace SlateOS.Ipc.System

open Kernel Ipc Foundation.Runs
open Function (update update_self update_of_ne)

variable {M μ : Type}

/-! ## Waiting and being woken -/

/-- Where a task waits: it is parked, or about to block. -/
def Pc.post : Pc μ → Option Post
  | .parked _ pt => pt.post
  | .waking _ _ next => next.bind fun n => n.2.post
  | _ => none

/-- The tasks this one is about to wake. -/
def Pc.wakes : Pc μ → List TaskId
  | .waking tasks _ _ => tasks
  | _ => []

def Pc.isParked : Pc μ → Bool
  | .parked _ _ => true
  | _ => false

/-- A wake is on its way: some task is about to wake it, or its next block ends at once. -/
def Woken (s : State μ) (w : TaskId) : Prop :=
  (∃ t, w ∈ (s.pc t).wakes) ∨ (s.pendingWake w = true ∧ (s.pc w).isParked = false)

/-- The channel has the task recorded in the place where it waits. -/
def Recorded (s : State μ) (q : Post) (w : TaskId) : Prop :=
  ∃ ch, s.channel = some ch ∧ ch.holder q = some w

/-- Nobody who waits is forgotten. -/
structure Kept (s : State μ) : Prop where
  recorded : ∀ {w : TaskId} {q : Post}, (s.pc w).post = some q → Woken s w ∨ Recorded s q w
  /-- Where no send can succeed any more, no task goes on waiting to send. -/
  shut : ∀ {ch : Channel (Parcel μ)} {p : Side} {w : TaskId}, s.channel = some ch →
    ch.shut p = true → (s.pc w).post = some (.sender p) → Woken s w

theorem Kept.start (ch : Channel (Parcel μ)) : Kept (State.start ch) where
  recorded h := nomatch h
  shut _ _ h := nomatch h

/-! ## Steps outside the sections -/

/-- The tasks' positions change without any waiting task coming in, and without a wake getting lost. -/
structure Wakes (s s' : State μ) : Prop where
  post : ∀ {w : TaskId} {q : Post}, (s'.pc w).post = some q → (s.pc w).post = some q
  woken : ∀ {w : TaskId} {q : Post}, (s'.pc w).post = some q → Woken s w → Woken s' w

variable {s s' : State μ}

theorem Kept.wakes (h : Kept s) (hw : Wakes s s')
    (hch : ∃ f : Channel (Parcel μ) → Side → List TaskId,
      s'.channel = s.channel.map fun ch => { ch with readyWaiters := f ch }) : Kept s' := by
  rcases hch with ⟨f, hch⟩
  refine ⟨?_, ?_⟩
  · intro w q hq
    rcases h.recorded (hw.post hq) with hwoken | ⟨ch, hlive, hholder⟩
    · exact .inl (hw.woken hq hwoken)
    · refine .inr ⟨{ ch with readyWaiters := f ch }, by rw [hch, hlive]; rfl, ?_⟩
      rw [← hholder]
      cases q <;> rfl
  · intro ch p w hlive hshut hq
    rw [hch, Option.map_eq_some_iff] at hlive
    rcases hlive with ⟨ch₀, hlive₀, rfl⟩
    exact hw.woken hq (h.shut hlive₀ hshut (hw.post hq))

variable {task : TaskId}

/-- One task goes on, and keeps the wakes it still owes. -/
theorem Wakes.setPc {x : Pc μ}
    (hpost : ∀ q, x.post = some q → (s.pc task).post = some q)
    (hwakes : ∀ w, w ∈ (s.pc task).wakes → w ∈ x.wakes)
    (hparked : s.pendingWake task = true → x.isParked = false) : Wakes s (s.setPc task x) where
  post := by
    intro w q hq
    change (update s.pc task x w).post = some q at hq
    by_cases heq : w = task
    · subst heq
      rw [update_self] at hq
      exact hpost q hq
    · rwa [update_of_ne heq] at hq
  woken := by
    rintro w q - (⟨t, ht⟩ | ⟨hpending, hpark⟩)
    · refine .inl ⟨t, ?_⟩
      show w ∈ (update s.pc task x t).wakes
      by_cases heq : t = task
      · subst heq
        rw [update_self]
        exact hwakes w ht
      · rwa [update_of_ne heq]
    · refine .inr ⟨hpending, ?_⟩
      show (update s.pc task x w).isParked = false
      by_cases heq : w = task
      · subst heq
        rw [update_self]
        exact hparked hpending
      · rwa [update_of_ne heq]

/-- A wake reaches its task: it runs, or will not block. -/
theorem wakeTask_woken {u : TaskId} {q : Post}
    (hq : ((s.wakeTask u).pc u).post = some q) : Woken (s.wakeTask u) u := by
  unfold State.wakeTask at hq ⊢
  split
  · next c pt hpc =>
      rw [hpc] at hq
      change (update s.pc u (Pc.running c pt) u).post = some q at hq
      rw [update_self] at hq
      cases hq
  · next hne =>
      refine .inr ⟨update_self .., ?_⟩
      rcases hpc : s.pc u with _ | ⟨c, pt⟩ | ⟨ts, r, next⟩ | ⟨c, pt⟩
      · rfl
      · rfl
      · rfl
      · exact absurd hpc (hne c pt)

theorem Wakes.wakeTask (s : State μ) (u : TaskId) : Wakes s (s.wakeTask u) := by
  unfold State.wakeTask
  split
  · next c pt hpc =>
      refine .setPc (fun q hq => (nomatch hq)) (fun w hw => ?_) (fun _ => rfl)
      rw [hpc] at hw
      cases hw
  · refine ⟨id, ?_⟩
    rintro w q - (hcoming | ⟨hpending, hpark⟩)
    · exact .inl hcoming
    · refine .inr ⟨?_, hpark⟩
      by_cases heq : w = u
      · subst heq
        exact update_self ..
      · exact (update_of_ne heq ..).trans hpending

theorem Wakes.trans {s s' s'' : State μ} (h : Wakes s s') (h' : Wakes s' s'') : Wakes s s'' where
  post hq := h.post (h'.post hq)
  woken hq hw := h'.woken hq (h.woken (h'.post hq) hw)

/-- A task wakes the next one on its list. -/
theorem Wakes.wakeNext {task u : TaskId} {us : List TaskId} {ready : Option Side}
    {next : Option (Call μ × Point (Parcel μ))} (hpc : s.pc task = .waking (u :: us) ready next) :
    Wakes s ((s.setPc task (.waking us ready next)).wakeTask u) where
  post := by
    intro w q hq
    have hq' := (Wakes.wakeTask _ u).post hq
    change (update s.pc task _ w).post = some q at hq'
    by_cases heq : w = task
    · subst heq
      rw [update_self] at hq'
      rw [hpc]
      exact hq'
    · rwa [update_of_ne heq] at hq'
  woken := by
    intro w q hq hw
    by_cases hwu : w = u
    · subst hwu
      exact wakeTask_woken hq
    · refine (Wakes.wakeTask _ u).woken hq ?_
      rcases hw with ⟨t, ht⟩ | ⟨hpending, hpark⟩
      · refine .inl ⟨t, ?_⟩
        show w ∈ (update s.pc task _ t).wakes
        by_cases heq : t = task
        · subst heq
          rw [update_self]
          rw [hpc] at ht
          exact (List.mem_cons.mp ht).resolve_left hwu
        · rwa [update_of_ne heq]
      · refine .inr ⟨hpending, ?_⟩
        show (update s.pc task _ w).isParked = false
        by_cases heq : w = task
        · subst heq
          rw [update_self]
          rfl
        · rwa [update_of_ne heq]

variable {c : Call μ} {pt : Point (Parcel μ)}

/-- The block itself: it ends at once when a wake was remembered. -/
theorem Wakes.blockCurrent
    (hpc : s.pc task = .waking [] none (some (c, pt))) : Wakes s (s.blockCurrent task c pt) := by
  unfold State.blockCurrent
  split
  · refine ⟨?_, ?_⟩
    · intro w q hq
      change (update s.pc task _ w).post = some q at hq
      by_cases heq : w = task
      · subst heq
        rw [update_self] at hq
        cases hq
      · rwa [update_of_ne heq] at hq
    · intro w q hq hw
      have hne : w ≠ task := by
        rintro rfl
        change (update s.pc w _ w).post = some q at hq
        rw [update_self] at hq
        cases hq
      rcases hw with ⟨t, ht⟩ | ⟨hpending, hpark⟩
      · refine .inl ⟨t, ?_⟩
        have htask : t ≠ task := by
          rintro rfl
          rw [hpc] at ht
          cases ht
        exact (congrArg (fun x : Pc μ => w ∈ x.wakes) (update_of_ne htask ..)).mpr ht
      · refine .inr ⟨(update_of_ne hne ..).trans hpending, ?_⟩
        exact (congrArg Pc.isParked (update_of_ne hne ..)).trans hpark
  · next hnot =>
      refine .setPc (fun q hq => ?_) (fun w hw => ?_) (fun hpending => absurd hpending hnot)
      · rw [hpc]
        exact hq
      · rw [hpc] at hw
        cases hw

/-! ## Sections -/

section

variable {s : State μ} {task : TaskId} {c : Call μ} {pt : Point (Parcel μ)}
  {channel : Option (Channel (Parcel μ))} {v : Verdict (Parcel μ)}

theorem goOn_wakes_self : ((s.goOn task c channel v).pc task).wakes = v.wakes := by
  cases v <;> simp [State.goOn, State.setPc, Pc.wakes, Verdict.wakes]

theorem goOn_post_self {q : Post} (h : ((s.goOn task c channel v).pc task).post = some q) :
    ∃ ready next, v = .wait ready next ∧ next.post = some q := by
  cases v with
  | wait ready next =>
    change (update s.pc task _ task).post = some q at h
    rw [update_self] at h
    exact ⟨ready, next, rfl, h⟩
  | ret outcome wakes ready =>
    change (update s.pc task _ task).post = some q at h
    rw [update_self] at h
    cases h
  | goto next =>
    change (update s.pc task _ task).post = some q at h
    rw [update_self] at h
    cases h

/-- A section loses no wake of another task. -/
theorem Woken.goOn (hpc : s.pc task = .running c pt) {w : TaskId} (hne : w ≠ task)
    (h : Woken s w) : Woken (s.goOn task c channel v) w := by
  rcases h with ⟨t, ht⟩ | ⟨hpending, hpark⟩
  · refine .inl ⟨t, ?_⟩
    have htask : t ≠ task := by
      rintro rfl
      rw [hpc] at ht
      cases ht
    rwa [goOn_pc_of_ne _ _ _ _ _ htask]
  · refine .inr ⟨?_, ?_⟩
    · rwa [goOn_pendingWake]
    · rwa [goOn_pc_of_ne _ _ _ _ _ hne]

/-- The tasks a section wakes have their wakes coming. -/
theorem woken_of_mem_wakes {w : TaskId} (h : w ∈ v.wakes) : Woken (s.goOn task c channel v) w :=
  .inl ⟨task, goOn_wakes_self ▸ h⟩

theorem ne_of_post (hpc : s.pc task = .running c pt) {w : TaskId} {q : Post}
    (hq : (s.pc w).post = some q) : w ≠ task := by
  rintro rfl
  rw [hpc] at hq
  cases hq

end

/-- **The condition.** The section this step runs does not record its task over another that waits
there with no wake on its way, and does not close an end on which such a task waits. -/
def Spares (s : State μ) : Action μ → Prop
  | .move task expired => ∀ c pt ch, s.pc task = .running c pt → s.channel = some ch →
      (∀ q u, pt.registers ch expired = some q → ch.holder q = some u → (s.pc u).post = some q →
        Woken s u) ∧
      ∀ q u, Closes ch pt q.side → (s.pc u).post = some q → Woken s u
  | _ => True

theorem Kept.goOn (h : Kept s) {expired : Bool} (hpc : s.pc task = .running c pt) {ch : Channel (Parcel μ)}
    (hch : s.channel = some ch) (hspares : Spares s (.move task expired))
    {v : Verdict (Parcel μ)} {channel : Option (Channel (Parcel μ))}
    (hstep : Handles ch task expired pt v channel) : Kept (s.goOn task c channel v) := by
  rcases hspares c pt ch hpc hch with ⟨hover, hclose⟩
  refine ⟨?_, ?_⟩
  · intro w q hq
    by_cases hne : w = task
    · subst hne
      rcases goOn_post_self hq with ⟨ready, next, rfl, hnext⟩
      rcases (hstep.records rfl hnext).1 with ⟨ch', hch', hholder⟩
      exact .inr ⟨ch', (goOn_channel ..).trans hch', hholder⟩
    · rw [goOn_pc_of_ne _ _ _ _ _ hne] at hq
      rcases h.recorded hq with hwoken | ⟨ch₀, hch₀, hholder⟩
      · exact .inl (hwoken.goOn hpc hne)
      · obtain rfl := Option.some.inj (hch.symm.trans hch₀)
        rcases hstep.keeps hholder with ⟨ch', hch', hkeep⟩ | hwakes | hreg | hcloses
        · exact .inr ⟨ch', (goOn_channel ..).trans hch', hkeep⟩
        · exact .inl (woken_of_mem_wakes hwakes)
        · exact .inl ((hover q w hreg hholder hq).goOn hpc hne)
        · exact .inl ((hclose q w hcloses hq).goOn hpc hne)
  · intro ch' p w hch' hshut hq
    rw [goOn_channel] at hch'
    by_cases hne : w = task
    · subst hne
      rcases goOn_post_self hq with ⟨ready, next, rfl, hnext⟩
      rcases (hstep.records rfl hnext).2 with ⟨hopen, hcloses⟩
      rcases hstep.shut hch' hshut with hold | hclosed | hclosed
      · rw [hopen p rfl] at hold
        cases hold
      · exact absurd hclosed (hcloses p)
      · exact absurd hclosed (hcloses p.peer)
    · rw [goOn_pc_of_ne _ _ _ _ _ hne] at hq
      rcases hstep.shut hch' hshut with hold | hcloses | hcloses
      · exact (h.shut hch hold hq).goOn hpc hne
      · exact (hclose (.sender p) w hcloses hq).goOn hpc hne
      · rcases h.recorded hq with hwoken | ⟨ch₀, hch₀, hholder⟩
        · exact hwoken.goOn hpc hne
        · obtain rfl := Option.some.inj (hch.symm.trans hch₀)
          exact woken_of_mem_wakes (hstep.closing (q := .sender p) hcloses p.peer_peer.symm hholder)

/-- Where the channel is gone, every waiting task has its wake coming. -/
theorem Kept.missing (h : Kept s) (hch : s.channel = none) (hpc : s.pc task = .running c pt) (o : Outcome (Parcel μ)) :
    Kept (s.goOn task c none (.ret o [] none)) := by
  refine ⟨?_, fun hlive => (nomatch hlive)⟩
  intro w q hq
  by_cases hne : w = task
  · subst hne
    rcases goOn_post_self hq with ⟨ready, next, hv, -⟩
    cases hv
  · rw [goOn_pc_of_ne _ _ _ _ _ hne] at hq
    rcases h.recorded hq with hwoken | ⟨ch, hlive, -⟩
    · exact .inl (hwoken.goOn hpc hne)
    · rw [hch] at hlive
      cases hlive

/-! ## Runs -/

theorem Wakes.of_same (hpc : s'.pc = s.pc) (hpending : s'.pendingWake = s.pendingWake) :
    Wakes s s' where
  post := by
    intro w q hq
    rwa [hpc] at hq
  woken := by
    intro w q _ hw
    unfold Woken
    rwa [hpc, hpending]

variable {a : Action μ}

/-- A step that runs no section loses no wake. -/
theorem wakes_of_step (hs : s.step a = some s')
    (hrun : ¬ ∃ task expired c pt, a = .move task expired ∧ s.pc task = .running c pt) :
    Wakes s s' := by
  cases a with
  | call task op =>
    simp only [State.step] at hs
    split at hs
    · next hpc =>
        cases hs
        refine (Wakes.setPc (x := .running ⟨s.calls, op⟩ (Call.start ⟨s.calls, op⟩)) ?_ ?_ ?_).trans
          (.of_same rfl rfl)
        · exact fun q h => (by cases h)
        · intro w hw
          rw [hpc] at hw
          cases hw
        · exact fun _ => rfl
    · cases hs
  | move task expired =>
    simp only [State.step, State.move] at hs
    split at hs
    · cases hs
    · cases hs
    · next c pt hpc => exact absurd ⟨task, expired, c, pt, rfl, hpc⟩ hrun
    · next u us ready next hpc =>
        cases hs
        exact .wakeNext hpc
    · next d next hpc =>
        cases hs
        rcases takeReady_fields s d with ⟨hp, hpending, -⟩
        refine (Wakes.of_same hp hpending).trans (.setPc ?_ ?_ fun _ => rfl)
        · rw [hp, hpc]
          exact fun q h => h
        · intro w hw
          rw [hp, hpc] at hw
          cases hw
    · next c pt hpc =>
        cases hs
        exact .blockCurrent hpc
    · next hpc =>
        cases hs
        refine .setPc (fun q h => (by cases h)) (fun w h => ?_) (fun _ => rfl)
        rw [hpc] at h
        cases h
  | wake task =>
    cases hs
    exact .wakeTask s task
  | forget task =>
    simp only [State.step] at hs
    split at hs
    · next hpc =>
        cases hs
        refine ⟨id, ?_⟩
        rintro w q hq (hcoming | ⟨hpending, hpark⟩)
        · exact .inl hcoming
        · have hne : w ≠ task := by
            rintro rfl
            rw [hpc] at hq
            cases hq
          exact .inr ⟨(update_of_ne hne ..).trans hpending, hpark⟩
    · cases hs
  | registerWaiter d task =>
    cases hs
    exact .of_same rfl rfl
  | deregisterWaiter d task =>
    cases hs
    exact .of_same rfl rfl

/-- Such a step changes nothing but readiness waiters in the channel. -/
theorem channel_of_step (hs : s.step a = some s')
    (hrun : ¬ ∃ task expired c pt, a = .move task expired ∧ s.pc task = .running c pt) :
    ∃ f : Channel (Parcel μ) → Side → List TaskId,
      s'.channel = s.channel.map fun ch => { ch with readyWaiters := f ch } := by
  rcases step_cases hs with hq | ⟨task, op, -, -, rfl⟩ | ⟨task, expired, c, pt, rfl, hpc, -⟩
  · exact hq.channel
  · refine ⟨fun ch => ch.readyWaiters, ?_⟩
    show s.channel = _
    cases s.channel <;> rfl
  · exact absurd ⟨task, expired, c, pt, rfl, hpc⟩ hrun

theorem enter_some {ch : Channel (Parcel μ)} (hch : s.channel = some ch) (task : TaskId)
    (expired : Bool) (c : Call μ) (pt : Point (Parcel μ)) : s.enter task expired c pt =
      s.goOn task c (pt.onChannel ch task expired).2 (pt.onChannel ch task expired).1 := by
  unfold State.enter
  rw [hch]
  rfl

theorem enter_none (hch : s.channel = none) (task : TaskId)
    (expired : Bool) (c : Call μ) (pt : Point (Parcel μ)) :
    s.enter task expired c pt = s.goOn task c none (.ret pt.missing [] none) := by
  unfold State.enter
  rw [hch]
  rfl

/-- A step that spares the waiting tasks forgets none of them. -/
theorem Kept.step (h : Kept s) (hspares : Spares s a)
    (hs : s.step a = some s') : Kept s' := by
  by_cases hrun : ∃ task expired c pt, a = .move task expired ∧ s.pc task = .running c pt
  · rcases hrun with ⟨task, expired, c, pt, rfl, hpc⟩
    obtain rfl : s.enter task expired c pt = s' := by
      simpa [State.step, State.move, hpc] using hs
    rcases hch : s.channel with _ | ch
    · rw [enter_none hch]
      exact h.missing hch hpc _
    · rw [enter_some hch]
      exact h.goOn hpc hch hspares (handles ch task expired pt)
  · exact h.wakes (wakes_of_step hs hrun) (channel_of_step hs hrun)

/-! ## What wakes a waiting task -/

/-- The messages side `d` can take. -/
def State.available (s : State μ) (d : Side) : Nat :=
  match s.channel with
  | some ch => ch.available d
  | none => 0

/-- The end `p` is open before the step, and closed, or gone with the channel, after it. -/
def EndCloses (s s' : State μ) (p : Side) : Prop :=
  ∃ ch, s.channel = some ch ∧ ch.closed p = false ∧ ∀ ch', s'.channel = some ch' → ch'.closed p = true

/-- A message that comes, room that is made, and an end that closes wake whoever waits for it. -/
structure Alerts (s s' : State μ) : Prop where
  message : ∀ d w, (s.pc w).post = some (.receiver d) → s.available d < s'.available d → Woken s' w
  room : ∀ p w, (s.pc w).post = some (.sender p) → s'.available p.peer < s.available p.peer →
    Woken s' w
  closing : ∀ p q w, (s.pc w).post = some q → EndCloses s s' p → Woken s' w

theorem Alerts.goOn (h : Kept s) {expired : Bool} (hpc : s.pc task = .running c pt) {ch : Channel (Parcel μ)}
    (hch : s.channel = some ch) (hspares : Spares s (.move task expired))
    {v : Verdict (Parcel μ)} {channel : Option (Channel (Parcel μ))}
    (hstep : Handles ch task expired pt v channel) : Alerts s (s.goOn task c channel v) := by
  rcases hspares c pt ch hpc hch with ⟨hover, hclose⟩
  -- A waiting task has its wake coming, or the channel has it recorded.
  have hcases : ∀ {w : TaskId} {q : Post}, (s.pc w).post = some q →
      Woken (s.goOn task c channel v) w ∨ ch.holder q = some w := by
    intro w q hq
    rcases h.recorded hq with hwoken | ⟨ch₀, hch₀, hholder⟩
    · exact .inl (hwoken.goOn hpc (ne_of_post hpc hq))
    · obtain rfl := Option.some.inj (hch.symm.trans hch₀)
      exact .inr hholder
  have hends : ∀ {w : TaskId} {p : Side} {q : Post}, (s.pc w).post = some q → Closes ch pt p →
      Woken (s.goOn task c channel v) w := by
    intro w p q hq hcloses
    rcases post_side_cases p q with hside | hside
    · exact (hclose q w (hside ▸ hcloses) hq).goOn hpc (ne_of_post hpc hq)
    · rcases hcases hq with hwoken | hholder
      · exact hwoken
      · exact woken_of_mem_wakes (hstep.closing hcloses hside hholder)
  have hbefore : ∀ d, s.available d = ch.available d := by
    intro d
    rw [State.available, hch]
  refine ⟨?_, ?_, ?_⟩
  · intro d w hq hlt
    rw [hbefore, State.available, goOn_channel] at hlt
    rcases hcases hq with hwoken | hholder
    · exact hwoken
    · split at hlt
      · exact woken_of_mem_wakes (hstep.arrival rfl hlt hholder)
      · exact absurd hlt (Nat.not_lt_zero _)
  · intro p w hq hlt
    rw [hbefore, State.available, goOn_channel] at hlt
    rcases hcases hq with hwoken | hholder
    · exact hwoken
    · split at hlt
      · rcases hstep.room rfl hlt hholder with hwakes | hreg | hshut | hcloses
        · exact woken_of_mem_wakes hwakes
        · exact (hover _ w hreg hholder hq).goOn hpc (ne_of_post hpc hq)
        · exact (h.shut hch hshut hq).goOn hpc (ne_of_post hpc hq)
        · exact hends hq hcloses
      · -- The channel is gone: the end that was still open has closed.
        rcases hstep.keeps hholder with ⟨ch', hch', -⟩ | hwakes | hreg | hcloses
        · cases hch'
        · exact woken_of_mem_wakes hwakes
        · exact (hover _ w hreg hholder hq).goOn hpc (ne_of_post hpc hq)
        · exact hends hq hcloses
  · rintro p q w hq ⟨ch₀, hch₀, hopen, hall⟩
    obtain rfl := Option.some.inj (hch.symm.trans hch₀)
    rw [goOn_channel] at hall
    exact hends hq (hstep.closes hopen hall)

/-- A step that leaves messages and ends alone has nobody to wake. -/
theorem Alerts.of_channel (h : ∃ f : Channel (Parcel μ) → Side → List TaskId,
    s'.channel = s.channel.map fun ch => { ch with readyWaiters := f ch }) : Alerts s s' := by
  rcases h with ⟨f, h⟩
  have hsame : ∀ d, s'.available d = s.available d := by
    intro d
    rw [State.available, State.available, h]
    cases s.channel <;> rfl
  refine ⟨?_, ?_, ?_⟩
  · intro d w _ hlt
    exact absurd hlt (hsame d ▸ Nat.lt_irrefl _)
  · intro p w _ hlt
    exact absurd hlt (hsame p.peer ▸ Nat.lt_irrefl _)
  · rintro p q w _ ⟨ch, hch, hopen, hall⟩
    have hclosed := hall { ch with readyWaiters := f ch } (by rw [h, hch]; rfl)
    change ch.closed p = true at hclosed
    rw [hopen] at hclosed
    cases hclosed

theorem Kept.alerts (h : Kept s) (hspares : Spares s a)
    (hs : s.step a = some s') : Alerts s s' := by
  by_cases hrun : ∃ task expired c pt, a = .move task expired ∧ s.pc task = .running c pt
  · rcases hrun with ⟨task, expired, c, pt, rfl, hpc⟩
    obtain rfl : s.enter task expired c pt = s' := by
      simpa [State.step, State.move, hpc] using hs
    rcases hch : s.channel with _ | ch
    · rw [enter_none hch]
      refine .of_channel ⟨fun ch => ch.readyWaiters, ?_⟩
      rw [hch]
      rfl
    · rw [enter_some hch]
      exact .goOn h hpc hch hspares (handles ch task expired pt)
  · exact .of_channel (channel_of_step hs hrun)

/-- A channel of either kind, just made. -/
def IsStart (s : State μ) : Prop := s = .start .new ∨ s = .start .newSync

/-- Every waiting task is recorded where it waits or has its wake coming. -/
def NoWaiterLost (s : State μ) : Prop :=
  ∀ w q, (s.pc w).post = some q → Woken s w ∨ Recorded s q w

/-- What a channel promises its waiting tasks: none is forgotten, and each step that brings what they
wait for, or closes an end, wakes them. -/
structure WaitersSafe (s : State μ) : Prop where
  recorded : NoWaiterLost s
  alerts : ∀ a s', Spares s a → s.step a = some s' → Alerts s s'

/-- **No lost waiter**, in every run whose steps write over no waiting task and close no end under
one. -/
theorem no_waiter_lost {s : State μ} (h : ReachBy State.step Spares IsStart s) : WaitersSafe s := by
  have hkept : Kept s := by
    refine h.invariant ?_ ?_
    · rintro s (rfl | rfl) <;> exact .start _
    · exact fun s a s' hkept hspares hs => hkept.step hspares hs
  exact ⟨fun _ _ hq => hkept.recorded hq, fun a s' hspares hs => hkept.alerts hspares hs⟩

/-- A check of the condition that is enough: nobody is recorded where the section records its task, and
no end closes. -/
def sparesCheck (s : State μ) : Action μ → Bool
  | .move task expired =>
    match s.pc task, s.channel with
    | .running _ (.close _), _ => false
    | .running _ pt, some ch => ((pt.registers ch expired).bind ch.holder).isNone
    | _, _ => true
  | _ => true

theorem spares_of_check (s : State μ) (a : Action μ) (h : sparesCheck s a = true) : Spares s a := by
  cases a with
  | move task expired =>
    intro c pt ch hpc hch
    have hnot : ∀ p, pt ≠ .close p := by
      rintro p rfl
      rw [sparesCheck, hpc] at h
      cases h
    refine ⟨?_, fun q u hcloses => absurd hcloses.1 (hnot _)⟩
    intro q u hreg hholder
    have hnone : ((pt.registers ch expired).bind ch.holder).isNone = true := by
      rw [sparesCheck, hpc, hch] at h
      cases pt with
      | close p => exact absurd rfl (hnot p)
      | send | sendBlocking | sendBlockingWoken | sendTimeoutFast | sendTimeout | tryRecv | recv
      | recvTimeoutFast | recvTimeout | dup => exact h
    rw [hreg, Option.bind_some, hholder] at hnone
    cases hnone
  | call | wake | forget | registerWaiter | deregisterWaiter => exact trivial

/-- A receiver waits, and a send wakes it. -/
def handOver : List (Action Nat) :=
  [.call 1 (.recv .one), .move 1 false, .move 1 false, .call 2 (.send .zero 7), .move 2 false]

theorem no_waiter_lost_handOver : ∃ s : State Nat, run State.step (.start .new) handOver = some s ∧
    (s.pc 1).post = some (.receiver .one) ∧ WaitersSafe s := by
  have hrun : (run State.step (.start .new) handOver).map (fun s => (s.pc 1).post) =
      some (some (.receiver .one)) := by decide +kernel
  have hcheck : checkAlong State.step sparesCheck (State.start .new) handOver = true := by
    decide +kernel
  rw [Option.map_eq_some_iff] at hrun
  rcases hrun with ⟨s, hs, hpost⟩
  refine ⟨s, hs, hpost, no_waiter_lost (.of_run (.start (.inl rfl)) hs ?_)⟩
  exact Along.of_check spares_of_check hcheck

/-! ## Waiters that are lost -/

theorem wakeTask_idle {t : TaskId} (h : s.pc t = .idle) (u : TaskId) :
    (s.wakeTask u).pc t = .idle := by
  unfold State.wakeTask
  split
  · next c pt hpc =>
      have hne : t ≠ u := by
        rintro rfl
        rw [h] at hpc
        cases hpc
      exact (update_of_ne hne ..).trans h
  · exact h

/-- A task that calls nothing stays idle. -/
theorem step_idle (hs : s.step a = some s') {t : TaskId}
    (h : s.pc t = .idle) (ha : ∀ op, a ≠ .call t op) : s'.pc t = .idle := by
  cases a with
  | call task op =>
    simp only [State.step] at hs
    split at hs
    · cases hs
      have hne : t ≠ task := by
        rintro rfl
        exact ha op rfl
      exact (update_of_ne hne ..).trans h
    · cases hs
  | move task expired =>
    have hne : t ≠ task := by
      rintro rfl
      simp [State.step, State.move, h] at hs
    simp only [State.step, State.move] at hs
    split at hs
    · cases hs
    · cases hs
    · cases hs
      exact (goOn_pc_of_ne _ _ _ _ _ hne).trans h
    · cases hs
      exact wakeTask_idle ((update_of_ne hne ..).trans h) _
    · next d next hpc =>
        cases hs
        refine (update_of_ne hne ..).trans ?_
        rw [(takeReady_fields s d).1]
        exact h
    · cases hs
      unfold State.blockCurrent
      split <;> exact (update_of_ne hne ..).trans h
    · cases hs
      exact (update_of_ne hne ..).trans h
  | wake task =>
    cases hs
    exact wakeTask_idle h task
  | forget task =>
    simp only [State.step] at hs
    split at hs
    · cases hs
      exact h
    · cases hs
  | registerWaiter d task =>
    cases hs
    exact h
  | deregisterWaiter d task =>
    cases hs
    exact h

theorem run_idle {as : List (Action μ)} (hs : run State.step s as = some s')
    {t : TaskId} (h : s.pc t = .idle) (ha : ∀ op, .call t op ∉ as) : s'.pc t = .idle := by
  induction as generalizing s with
  | nil =>
    cases hs
    exact h
  | cons a as ih =>
    rw [run_cons, Option.bind_eq_some_iff] at hs
    rcases hs with ⟨s₁, hs₁, hrest⟩
    refine ih hrest (step_idle hs₁ h ?_) ?_
    · rintro op rfl
      exact ha op List.mem_cons_self
    · exact fun op hmem => ha op (List.mem_cons_of_mem _ hmem)

/-- A parked task that no task in a call is about to wake has no wake coming. -/
theorem not_woken {w : TaskId} (hpark : (s.pc w).isParked = true) {ts : List TaskId}
    (hidle : ∀ t, t ∉ ts → s.pc t = .idle) (hts : ∀ t ∈ ts, w ∉ (s.pc t).wakes) : ¬ Woken s w := by
  rintro (⟨t, ht⟩ | ⟨-, hnot⟩)
  · by_cases hmem : t ∈ ts
    · exact hts t hmem ht
    · rw [hidle t hmem] at ht
      cases ht
  · rw [hpark] at hnot
    cases hnot

/-- Two receivers wait on one end; the second is recorded over the first. -/
def twoReceivers : List (Action Nat) :=
  [.call 1 (.recv .one), .move 1 false, .move 1 false, .call 2 (.recv .one), .move 2 false]

theorem twoReceivers_loses_waiter :
    ¬ ∀ s : State Nat, Reach State.step IsStart s → NoWaiterLost s := by
  intro hall
  have hrun : (run State.step (.start .new) twoReceivers).map (fun s =>
      ((s.pc 1).post, (s.pc 1).isParked, (s.pc 1).wakes, (s.pc 2).wakes,
        s.channel.bind fun ch => ch.waiters .one)) =
      some (some (.receiver .one), true, [], [], some 2) := by decide +kernel
  rw [Option.map_eq_some_iff] at hrun
  rcases hrun with ⟨s, hs, hfields⟩
  simp only [Prod.mk.injEq] at hfields
  rcases hfields with ⟨hpost, hpark, hwakes₁, hwakes₂, hwaiter⟩
  have hidle : ∀ t, t ∉ [1, 2] → s.pc t = .idle := by
    intro t ht
    refine run_idle hs rfl fun op hmem => ht ?_
    simp only [twoReceivers, List.mem_cons, Action.call.injEq, reduceCtorEq, List.not_mem_nil,
      or_false, false_or] at hmem
    rcases hmem with ⟨rfl, -⟩ | ⟨rfl, -⟩ <;> decide
  have hnot : ¬ Woken s 1 := by
    refine not_woken hpark hidle ?_
    intro t ht
    rcases List.mem_cons.mp ht with rfl | ht
    · rw [hwakes₁]
      exact List.not_mem_nil
    · obtain rfl := List.mem_singleton.mp ht
      rw [hwakes₂]
      exact List.not_mem_nil
  rcases hall s (Reach.of_run (.start (.inl rfl)) hs) 1 _ hpost with hwoken | ⟨ch, hch, hholder⟩
  · exact hnot hwoken
  · rw [hch] at hwaiter
    exact absurd (hwaiter.symm.trans hholder) (by decide)

end SlateOS.Ipc.System
