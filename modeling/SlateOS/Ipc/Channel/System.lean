/-
# SlateOS.Ipc.Channel.System -- tasks calling on one channel

Any number of tasks call on the two ends of one channel, in any interleaving. A step of a task is one
lock section, one wake, or the block itself. The scheduler is what the channel uses of it: a wake of a
blocked task makes it run, a wake of any other task is remembered and ends its next block at once.

The log records what every call returns, in the order in which the sections decide it; what is left of
a call after that only wakes tasks. The numbers of the calls, and the messages' marks, are read by no
step.
-/
import SlateOS.Ipc.Channel.Model
import SlateOS.Foundation.Runs

namespace SlateOS.Ipc.System

open Kernel Ipc
open Function (update update_self update_of_ne)

/-! ## Calls -/

variable {μ : Type}

/-- A message, marked with the call that sends it and the side it is sent from. -/
structure Parcel (μ : Type) where
  call : Nat
  side : Side
  msg : μ
  deriving DecidableEq

/-- The operations of the channel. -/
inductive Op (μ : Type)
  | send (p : Side) (msg : μ)
  | sendBlocking (p : Side) (msg : μ)
  | sendTimeout (p : Side) (msg : μ) (timeoutNs : Nat)
  | tryRecv (d : Side)
  | recv (d : Side)
  | recvTimeout (d : Side) (timeoutNs : Nat)
  | dup (p : Side)
  | close (p : Side)

/-- The `id`-th call made on the channel. -/
structure Call (μ : Type) where
  id : Nat
  op : Op μ

/-- What the call sends. -/
def Call.parcel (c : Call μ) : Option (Parcel μ) :=
  match c.op with
  | .send p msg | .sendBlocking p msg | .sendTimeout p msg _ => some ⟨c.id, p, msg⟩
  | _ => none

/-- The side the operation receives on. -/
def Op.receives : Op μ → Option Side
  | .tryRecv d | .recv d | .recvTimeout d _ => some d
  | _ => none

/-- The first section of the call. -/
def Call.start (c : Call μ) : Point (Parcel μ) :=
  match c.op with
  | .send p msg => .send p ⟨c.id, p, msg⟩
  | .sendBlocking p msg => .sendBlocking p (some ⟨c.id, p, msg⟩)
  | .sendTimeout p msg timeoutNs => .sendTimeoutFast p ⟨c.id, p, msg⟩ timeoutNs
  | .tryRecv d => .tryRecv d
  | .recv d => .recv d
  | .recvTimeout d timeoutNs => .recvTimeoutFast d timeoutNs
  | .dup p => .dup p
  | .close p => .close p

/-! ## States -/

/-- What a task is doing. `waking` still has tasks to wake, and perhaps readiness waiters to take;
`next` is where it blocks after that, if it does not return. -/
inductive Pc (μ : Type)
  | idle
  | running (c : Call μ) (pt : Point (Parcel μ))
  | waking (tasks : List TaskId) (ready : Option Side) (next : Option (Call μ × Point (Parcel μ)))
  | parked (c : Call μ) (pt : Point (Parcel μ))

/-- A call and what it returns. -/
structure Done (μ : Type) where
  call : Call μ
  outcome : Outcome (Parcel μ)

structure State (μ : Type) where
  /-- The entry of `CHANNELS`. -/
  channel : Option (Channel (Parcel μ))
  pc : TaskId → Pc μ
  /-- `pending_wake` of each task. -/
  pendingWake : TaskId → Bool
  calls : Nat
  log : List (Done μ)

/-- Every choice that is not the code's. -/
inductive Action (μ : Type)
  | call (task : TaskId) (op : Op μ)
  /-- The task goes on; `expired` is what the timer and the clock say. -/
  | move (task : TaskId) (expired : Bool)
  /-- A timer, or other code of the kernel, wakes the task. -/
  | wake (task : TaskId)
  /-- A task that is not in a call blocks elsewhere and uses up its remembered wake. -/
  | forget (task : TaskId)
  | registerWaiter (d : Side) (task : TaskId)
  | deregisterWaiter (d : Side) (task : TaskId)

namespace State

/-- A channel just made. -/
def start (ch : Channel (Parcel μ)) : State μ := ⟨some ch, fun _ => .idle, fun _ => false, 0, []⟩

/-! ## Steps -/

def setPc (s : State μ) (task : TaskId) (pc : Pc μ) : State μ :=
  { s with pc := update s.pc task pc }

/-- `sched::wake`. -/
def wakeTask (s : State μ) (task : TaskId) : State μ :=
  match s.pc task with
  | .parked c pt => s.setPc task (.running c pt)
  | _ => { s with pendingWake := update s.pendingWake task true }

/-- `sched::block_current`. -/
def blockCurrent (s : State μ) (task : TaskId) (c : Call μ) (pt : Point (Parcel μ)) : State μ :=
  if s.pendingWake task then
    { s.setPc task (.running c pt) with pendingWake := update s.pendingWake task false }
  else s.setPc task (.parked c pt)

def begin (s : State μ) (task : TaskId) (op : Op μ) : State μ :=
  let c : Call μ := ⟨s.calls, op⟩
  { s.setPc task (.running c c.start) with calls := s.calls + 1 }

/-- Go on as the verdict says, with the channel as the section left it. -/
def goOn (s : State μ) (task : TaskId) (c : Call μ) (channel : Option (Channel (Parcel μ))) :
    Verdict (Parcel μ) → State μ
  | .ret outcome wakes ready =>
    { s.setPc task (.waking wakes ready none) with channel, log := s.log ++ [⟨c, outcome⟩] }
  | .wait ready next => { s.setPc task (.waking [] ready (some (c, next))) with channel }
  | .goto next => { s.setPc task (.running c next) with channel }

/-- Run the section at `pt`. -/
def enter (s : State μ) (task : TaskId) (expired : Bool) (c : Call μ) (pt : Point (Parcel μ)) :
    State μ :=
  let r := pt.enter s.channel task expired
  s.goOn task c r.2 r.1

/-- `wake_ready`'s section. -/
def takeReady (s : State μ) (d : Side) : List TaskId × State μ :=
  match s.channel with
  | none => ([], s)
  | some ch => ((ch.takeReady d).1, { s with channel := some (ch.takeReady d).2 })

def move (s : State μ) (task : TaskId) (expired : Bool) : Option (State μ) :=
  match s.pc task with
  | .idle => none
  | .parked _ _ => none
  | .running c pt => some (s.enter task expired c pt)
  | .waking (u :: us) ready next => some ((s.setPc task (.waking us ready next)).wakeTask u)
  | .waking [] (some d) next =>
    some ((s.takeReady d).2.setPc task (.waking (s.takeReady d).1 none next))
  | .waking [] none (some (c, pt)) => some (s.blockCurrent task c pt)
  | .waking [] none none => some (s.setPc task .idle)

def step (s : State μ) : Action μ → Option (State μ)
  | .call task op =>
    match s.pc task with
    | .idle => some (s.begin task op)
    | _ => none
  | .move task expired => s.move task expired
  | .wake task => some (s.wakeTask task)
  | .forget task =>
    match s.pc task with
    | .idle => some { s with pendingWake := update s.pendingWake task false }
    | _ => none
  | .registerWaiter d task =>
    some { s with channel := s.channel.map fun ch => ch.registerWaiter d task }
  | .deregisterWaiter d task =>
    some { s with channel := s.channel.map fun ch => ch.deregisterWaiter d task }

end State

/-! ## What the log says -/

/-- The message of a send that returned `Ok`. -/
def Done.accepted (e : Done μ) : Option (Parcel μ) :=
  match e.outcome with
  | .sent (.ok ()) => e.call.parcel
  | _ => none

/-- The message a receive returned. -/
def Done.taken (e : Done μ) : Option (Parcel μ) :=
  match e.outcome with
  | .received (.ok x) => x
  | _ => none

/-- The messages side `d` was sent by sends that returned `Ok`, in order. -/
def State.accepted (s : State μ) (d : Side) : List (Parcel μ) :=
  (s.log.filterMap Done.accepted).filter fun x => x.side.peer = d

/-- The messages received on side `d`, in order. -/
def State.received (s : State μ) (d : Side) : List (Parcel μ) :=
  (s.log.filter fun e => e.call.op.receives = some d).filterMap Done.taken

/-! ## Steps, by what they do to the calls -/

/-- The call a task is in, and the section it comes to next. -/
def Pc.resume : Pc μ → Option (Call μ × Point (Parcel μ))
  | .idle => none
  | .running c pt => some (c, pt)
  | .waking _ _ next => next
  | .parked c pt => some (c, pt)

attribute [simp] Pc.resume

theorem State.setPc_pc (s : State μ) (task : TaskId) (pc : Pc μ) :
    (s.setPc task pc).pc = update s.pc task pc := rfl

/-- A step that runs no section of a call: at most readiness waiters change in the channel, and every
call stays where it is. -/
structure Quiet (s s' : State μ) : Prop where
  channel : ∃ f : Channel (Parcel μ) → Side → List TaskId,
    s'.channel = s.channel.map fun ch => { ch with readyWaiters := f ch }
  resume : ∀ t, (s'.pc t).resume = (s.pc t).resume
  calls : s'.calls = s.calls
  log : s'.log = s.log

/-- Exchanging what one task does next for something with the same call changes no call. -/
theorem resume_update {pc : TaskId → Pc μ} {task : TaskId} {x : Pc μ}
    (h : x.resume = (pc task).resume) (t : TaskId) :
    (update pc task x t).resume = (pc t).resume := by
  by_cases heq : t = task
  · subst heq
    rw [update_self, h]
  · rw [update_of_ne heq]

theorem wakeTask_resume (s : State μ) (u t : TaskId) :
    ((s.wakeTask u).pc t).resume = (s.pc t).resume := by
  unfold State.wakeTask
  split
  · next c pt h => exact resume_update (by rw [h]; rfl) t
  · rfl

theorem wakeTask_channel (s : State μ) (u : TaskId) : (s.wakeTask u).channel = s.channel := by
  unfold State.wakeTask
  split <;> rfl

theorem wakeTask_calls (s : State μ) (u : TaskId) : (s.wakeTask u).calls = s.calls := by
  unfold State.wakeTask
  split <;> rfl

theorem wakeTask_log (s : State μ) (u : TaskId) : (s.wakeTask u).log = s.log := by
  unfold State.wakeTask
  split <;> rfl

theorem Quiet.of_same {s s' : State μ} (hch : s'.channel = s.channel)
    (hres : ∀ t, (s'.pc t).resume = (s.pc t).resume) (hcalls : s'.calls = s.calls)
    (hlog : s'.log = s.log) : Quiet s s' where
  channel := by
    refine ⟨fun ch => ch.readyWaiters, ?_⟩
    rw [hch]
    cases s.channel <;> rfl
  resume := hres
  calls := hcalls
  log := hlog

theorem takeReady_channel (s : State μ) (d : Side) :
    (s.takeReady d).2.channel = s.channel.map fun ch =>
      { ch with readyWaiters := update ch.readyWaiters d [] } := by
  unfold State.takeReady
  cases hch : s.channel with
  | none => exact hch
  | some ch => rfl

theorem takeReady_fields (s : State μ) (d : Side) : (s.takeReady d).2.pc = s.pc ∧
    (s.takeReady d).2.pendingWake = s.pendingWake ∧ (s.takeReady d).2.calls = s.calls ∧
    (s.takeReady d).2.log = s.log := by
  unfold State.takeReady
  split <;> exact ⟨rfl, rfl, rfl, rfl⟩

/-- A step begins a call, runs a section, or is quiet. -/
theorem step_cases {s s' : State μ} {a : Action μ} (h : s.step a = some s') :
    Quiet s s' ∨
    (∃ task op, a = .call task op ∧ s.pc task = .idle ∧ s' = s.begin task op) ∨
    (∃ task expired c pt, a = .move task expired ∧ s.pc task = .running c pt ∧
      s' = s.enter task expired c pt) := by
  cases a with
  | call task op =>
    simp only [State.step] at h
    split at h
    · next hpc => exact .inr (.inl ⟨task, op, rfl, hpc, (Option.some.inj h).symm⟩)
    · cases h
  | move task expired =>
    simp only [State.step, State.move] at h
    split at h
    · cases h
    · cases h
    · next c pt hpc =>
        exact .inr (.inr ⟨task, expired, c, pt, rfl, hpc, (Option.some.inj h).symm⟩)
    · next u us ready next hpc =>
        cases h
        refine .inl (.of_same (wakeTask_channel _ _) (fun t => ?_) (wakeTask_calls _ _)
          (wakeTask_log _ _))
        rw [wakeTask_resume]
        exact resume_update (by rw [hpc]; rfl) t
    · next d next hpc =>
        cases h
        rcases takeReady_fields s d with ⟨hp, -, hcalls, hlog⟩
        refine .inl ⟨⟨_, takeReady_channel s d⟩, fun t => ?_, hcalls, hlog⟩
        rw [State.setPc_pc, hp]
        exact resume_update (by rw [hpc]; rfl) t
    · next c pt hpc =>
        cases h
        unfold State.blockCurrent
        split
        · exact .inl (.of_same rfl (resume_update (by rw [hpc]; rfl)) rfl rfl)
        · exact .inl (.of_same rfl (resume_update (by rw [hpc]; rfl)) rfl rfl)
    · next hpc =>
        cases h
        exact .inl (.of_same rfl (resume_update (by rw [hpc]; rfl)) rfl rfl)
  | wake task =>
    cases h
    exact .inl (.of_same (wakeTask_channel s task) (wakeTask_resume s task)
      (wakeTask_calls s task) (wakeTask_log s task))
  | forget task =>
    simp only [State.step] at h
    split at h
    · cases h
      exact .inl (.of_same rfl (fun _ => rfl) rfl rfl)
    · cases h
  | registerWaiter d task =>
    cases h
    refine .inl ⟨⟨fun ch => (ch.registerWaiter d task).readyWaiters, ?_⟩, fun _ => rfl, rfl, rfl⟩
    show s.channel.map _ = s.channel.map _
    congr 1
    funext ch
    by_cases hmem : task ∈ ch.readyWaiters d <;> simp [Channel.registerWaiter, hmem]
  | deregisterWaiter d task =>
    cases h
    exact .inl ⟨⟨fun ch => (ch.deregisterWaiter d task).readyWaiters, rfl⟩, fun _ => rfl, rfl, rfl⟩

end SlateOS.Ipc.System
