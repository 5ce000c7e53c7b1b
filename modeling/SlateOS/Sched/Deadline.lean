/-
# SlateOS.Sched.Deadline -- the deadline run queue of one CPU

`DeadlineScheduler` of `kernel/src/sched/deadline.rs`, as the per-CPU scheduler uses it: enqueue, dequeue,
pick, tick and steal, and the registration of deadline tasks with its admission control.
-/
import SlateOS.Foundation.OrderedMap
import SlateOS.Sched.Eevdf

namespace SlateOS.Sched

open Foundation Foundation.MachineInt

/-- `DeadlineParams`. -/
structure DeadlineParams where
  budgetTicks : Nat
  deadlineTicks : Nat
  periodTicks : Nat
  deriving DecidableEq

/-- `DeadlineEntry`. -/
structure DeadlineEntry where
  id : TaskId
  priority : Nat
  params : DeadlineParams
  absDeadline : Nat
  remainingBudget : Nat
  periodStart : Nat
  deriving DecidableEq

/-- `DeadlineParams::utilization_x10000`. -/
def DeadlineParams.utilizationX10000 (params : DeadlineParams) : Nat :=
  if params.periodTicks = 0 then 10000
  else saturatingMul 64 params.budgetTicks 10000 / params.periodTicks

/-- `MAX_UTILIZATION_X10000`. -/
def maxUtilizationX10000 : Nat := 9500

/-- `DeadlineScheduler`. -/
structure DeadlineScheduler where
  tree : Std.TreeMap TimeKey DeadlineEntry
  deadlines : Std.TreeMap TaskId Nat
  params : Std.TreeMap TaskId DeadlineParams
  /-- Throttled tasks: deadline and start of the next period. -/
  throttled : Std.TreeMap TaskId (Nat × Nat)
  currentTick : Nat
  totalUtilization : Nat
  nrRunning : Nat
  timeSlices : TimeSlices
  currentRemaining : Nat
  currentPriority : Nat
  currentId : TaskId
  currentIsDeadline : Bool
  currentAbsDeadline : Nat

namespace DeadlineScheduler

/-- `new`. -/
def new : DeadlineScheduler where
  tree := ∅
  deadlines := ∅
  params := ∅
  throttled := ∅
  currentTick := 0
  totalUtilization := 0
  nrRunning := 0
  timeSlices := defaultSlices
  currentRemaining := 0
  currentPriority := 0
  currentId := 0
  currentIsDeadline := false
  currentAbsDeadline := 0

/-- The removal of a task's parameters, which `register` and `unregister` share. -/
def dropParams (s : DeadlineScheduler) (id : TaskId) : DeadlineScheduler :=
  match s.params[id]? with
  | none => s
  | some old =>
    { s with
      params := s.params.erase id
      totalUtilization := s.totalUtilization - old.utilizationX10000 }

/-- `register`. -/
def register (s : DeadlineScheduler) (id : TaskId) (params : DeadlineParams) :
    Bool × DeadlineScheduler :=
  if saturatingAdd 64 s.totalUtilization params.utilizationX10000 > maxUtilizationX10000 then
    (false, s)
  else
    let s := s.dropParams id
    (true, { s with
      params := s.params.insert id params
      totalUtilization := saturatingAdd 64 s.totalUtilization params.utilizationX10000 })

/-- `unregister`. -/
def unregister (s : DeadlineScheduler) (id : TaskId) : DeadlineScheduler :=
  let s := s.dropParams id
  { s with throttled := s.throttled.erase id }

/-- The deadline and budget `enqueue` gives a task; the running deadline task keeps its own. -/
def activation (s : DeadlineScheduler) (id : TaskId) (priority : Nat) :
    (Nat × Nat) × DeadlineScheduler :=
  if s.currentId = id ∧ s.currentIsDeadline = true then
    ((s.currentAbsDeadline, s.currentRemaining),
      { s with currentId := 0, currentIsDeadline := false })
  else
    match s.params[id]? with
    | some params =>
      ((saturatingAdd 64 s.currentTick params.deadlineTicks, params.budgetTicks), s)
    | none =>
      let slice := s.timeSlices (levelOf priority)
      ((saturatingAdd 64 s.currentTick slice, slice), s)

/-- The first part of `enqueue`: drop a stale entry of the task. -/
def dropStale (s : DeadlineScheduler) (id : TaskId) : DeadlineScheduler :=
  match s.deadlines[id]? with
  | none => s
  | some oldDeadline =>
    { s with
      deadlines := s.deadlines.erase id
      tree := s.tree.erase (toLex (oldDeadline, id))
      nrRunning := s.nrRunning - 1 }

/-- The parameters of an unregistered task: the distance to its deadline, as a `u32`. -/
def bestEffort (s : DeadlineScheduler) (absDeadline remainingBudget : Nat) : DeadlineParams where
  budgetTicks := remainingBudget
  deadlineTicks := (absDeadline - s.currentTick) % 2 ^ 32
  periodTicks := (absDeadline - s.currentTick) % 2 ^ 32

/-- The insertion into the maps in `enqueue`. -/
def addEntry (s : DeadlineScheduler) (entry : DeadlineEntry) : DeadlineScheduler :=
  { s with
    tree := s.tree.insert (toLex (entry.absDeadline, entry.id)) entry
    deadlines := s.deadlines.insert entry.id entry.absDeadline
    nrRunning := saturatingAdd 32 s.nrRunning 1 }

/-- `enqueue`. -/
def enqueue (s : DeadlineScheduler) (id : TaskId) (priority : Nat) : DeadlineScheduler :=
  let s := s.dropStale id
  let ((absDeadline, remainingBudget), s) := s.activation id priority
  s.addEntry
    { id, priority, absDeadline, remainingBudget
      params := s.params[id]?.getD (s.bestEffort absDeadline remainingBudget)
      periodStart := s.currentTick }

/-- `replenish_throttled`: at most 32 tasks whose period has begun are enqueued again. -/
def replenishThrottled (s : DeadlineScheduler) : DeadlineScheduler :=
  let ready := (s.throttled.toList.filter fun t => decide (s.currentTick ≥ t.2.2)).take 32
  ready.foldl (fun s t => { s with throttled := s.throttled.erase t.1 }.enqueue t.1 0) s

/-- `pick_next`. -/
def pickNext (s : DeadlineScheduler) : Option TaskId × DeadlineScheduler :=
  let s := s.replenishThrottled
  if s.tree.isEmpty then (none, s)
  else
    match s.tree.minKey? with
    | none => (none, s)
    | some key =>
      match s.tree[key]? with
      | none => (none, s)
      | some entry =>
        let isDeadline := s.params.contains entry.id
        (some entry.id,
          { s with
            tree := s.tree.erase key
            deadlines := s.deadlines.erase entry.id
            nrRunning := s.nrRunning - 1
            currentId := entry.id
            currentPriority := entry.priority
            currentIsDeadline := isDeadline
            currentAbsDeadline := entry.absDeadline
            currentRemaining :=
              if isDeadline then entry.remainingBudget
              else s.timeSlices (levelOf entry.priority) })

/-- The end of `dequeue`: the task may be the running one. -/
def dequeueCurrent (s : DeadlineScheduler) (id : TaskId) : Bool × DeadlineScheduler :=
  if s.currentId = id then
    (true, { s with currentId := 0, currentRemaining := 0, currentIsDeadline := false })
  else (false, s)

/-- `dequeue`; the priority is not used. -/
def dequeue (s : DeadlineScheduler) (id : TaskId) (_priority : Nat) : Bool × DeadlineScheduler :=
  match s.deadlines[id]? with
  | none => s.dequeueCurrent id
  | some deadline =>
    let s := { s with deadlines := s.deadlines.erase id }
    if (toLex (deadline, id) : TimeKey) ∈ s.tree then
      (true, { s with
        tree := s.tree.erase (toLex (deadline, id))
        nrRunning := s.nrRunning - 1 })
    else s.dequeueCurrent id

/-- The record `tick` makes of a running task whose budget is spent. -/
def throttleCurrent (s : DeadlineScheduler) : DeadlineScheduler :=
  match s.params[s.currentId]? with
  | none => s
  | some params =>
    let nextPeriod := saturatingAdd 64 s.currentTick params.periodTicks
    { s with
      throttled := s.throttled.insert s.currentId
        (saturatingAdd 64 nextPeriod params.deadlineTicks, nextPeriod) }

/-- `tick`. -/
def tick (s : DeadlineScheduler) : Bool × DeadlineScheduler :=
  let s := { s with currentTick := saturatingAdd 64 s.currentTick 1 }
  if s.currentId = 0 then (false, s)
  else
    let s := { s with currentRemaining := s.currentRemaining - 1 }
    if s.currentRemaining = 0 then
      if s.currentIsDeadline then
        (true, { s.throttleCurrent with currentId := 0, currentIsDeadline := false })
      else (true, s)
    -- a missed deadline only asks for a reschedule
    else (s.currentIsDeadline && decide (s.currentTick > s.currentAbsDeadline), s)

/-- `total_tasks`. -/
def totalTasks (s : DeadlineScheduler) : Nat := s.nrRunning

/-- `has_real_work`. -/
def hasRealWork (s : DeadlineScheduler) : Bool :=
  s.tree.values.any fun e => e.priority != idlePriority

/-- The removal loop of `steal`. -/
def stealKeys : List TimeKey → StolenTasks → DeadlineScheduler → StolenTasks × DeadlineScheduler
  | [], stolen, s => (stolen, s)
  | key :: keys, stolen, s =>
    match s.tree[key]? with
    | none => stealKeys keys stolen s
    | some entry =>
      stealKeys keys (stolen.push entry.id entry.priority)
        { s with
          tree := s.tree.erase key
          deadlines := s.deadlines.erase entry.id
          nrRunning := s.nrRunning - 1 }

/-- `steal`: from the back, and never a registered task. -/
def steal (s : DeadlineScheduler) (count : Nat) : StolenTasks × DeadlineScheduler :=
  if count = 0 ∨ s.tree.isEmpty then ([], s)
  else
    let free := s.tree.toList.reverse.filter fun p => !s.params.contains p.2.id
    stealKeys ((free.map Prod.fst).take (min count maxSteal)) [] s

end DeadlineScheduler

end SlateOS.Sched
