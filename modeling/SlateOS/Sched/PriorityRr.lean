/-
# SlateOS.Sched.PriorityRr -- the bitmap run queue of one CPU

`PriorityRoundRobin` of `kernel/src/sched/priority_rr.rs`: 32 queues and a word that names the
nonempty ones. Task ids and tick counts are the `u64` and `u32` the source has, as natural numbers;
ids are only compared.
-/
import SlateOS.Foundation.BitScan
import SlateOS.Foundation.Fifos
import SlateOS.Foundation.MachineInt

namespace SlateOS.Sched

open Foundation.BitScan Foundation.Fifos Foundation.MachineInt

/-- `TaskId`; 0 stands for no task where the source uses it so. -/
abbrev TaskId := Nat

/-- `NUM_PRIORITIES`. -/
abbrev numPriorities : Nat := 32

/-- `RT_LEVELS`: the levels below this one are the real-time band. -/
def rtLevels : Nat := 8

/-- `IDLE_PRIORITY`. -/
def idlePriority : Nat := numPriorities - 1

/-- `MAX_STEAL`. -/
def maxSteal : Nat := 16

/-- `BASE_TIME_SLICE`. -/
def baseTimeSlice : Nat := 2

/-- `SLICE_INCREMENT`. -/
def sliceIncrement : Nat := 1

/-- `(priority as usize).min(NUM_PRIORITIES - 1)`. -/
def levelOf (priority : Nat) : Fin numPriorities :=
  ⟨min priority (numPriorities - 1), Nat.lt_of_le_of_lt (Nat.min_le_right _ _) (by decide)⟩

/-! ## Stack buffers -/

/-- `StolenTasks`: the filled part of the buffer, task and priority. -/
abbrev StolenTasks := List (TaskId × Nat)

/-- `StolenTasks::push`: drops the entry when the buffer is full. -/
def StolenTasks.push (stolen : StolenTasks) (id : TaskId) (priority : Nat) : StolenTasks :=
  if stolen.length < maxSteal then stolen ++ [(id, priority)] else stolen

/-- `MigratedTasks`. -/
abbrev MigratedTasks := List TaskId

/-- `MigratedTasks::push`. -/
def MigratedTasks.push (migrated : MigratedTasks) (id : TaskId) : MigratedTasks :=
  if migrated.length < maxSteal then migrated ++ [id] else migrated

theorem StolenTasks.push_of_lt {stolen : StolenTasks} (h : stolen.length < maxSteal) (id : TaskId)
    (priority : Nat) : stolen.push id priority = stolen ++ [(id, priority)] := if_pos h

theorem MigratedTasks.push_of_lt {migrated : MigratedTasks} (h : migrated.length < maxSteal)
    (id : TaskId) : migrated.push id = migrated ++ [id] := if_pos h

/-! ## Time slices -/

/-- Ticks per priority level. -/
abbrev TimeSlices := Fin numPriorities → Nat

/-- `WorkloadProfile`. -/
inductive WorkloadProfile
  | desktop | server | development | gaming
  deriving DecidableEq

/-- `WorkloadProfile::base`. -/
def WorkloadProfile.base : WorkloadProfile → Nat
  | .desktop => 2
  | .server => 4
  | .development => 1
  | .gaming => 1

/-- `WorkloadProfile::increment`. -/
def WorkloadProfile.increment : WorkloadProfile → Nat
  | .desktop => 1
  | .server => 2
  | .development => 1
  | .gaming => 2

/-- The slices `base + level * increment`. -/
def slicesFor (base increment : Nat) : TimeSlices :=
  fun level => saturatingAdd 32 base (saturatingMul 32 level increment)

/-- The loop of `new`. -/
def defaultSlices : TimeSlices := slicesFor baseTimeSlice sliceIncrement

/-- `set_time_slice`, shared by the backends. -/
def setTimeSlice (slices : TimeSlices) (level ticks : Nat) : Bool × TimeSlices :=
  if h : level < numPriorities ∧ ticks ≠ 0 then
    (true, Function.update slices ⟨level, h.1⟩ ticks)
  else
    (false, slices)

/-- `reconfigure_slices`, shared by the backends. -/
def reconfigureSlices (slices : TimeSlices) (base increment : Nat) : Bool × TimeSlices :=
  if base = 0 then (false, slices) else (true, slicesFor base increment)

/-! ## The run queue -/

/-- `PriorityRoundRobin`. -/
structure PriorityRoundRobin where
  queues : Queues numPriorities TaskId
  bitmap : BitVec numPriorities
  timeSlices : TimeSlices
  currentRemaining : Nat

namespace PriorityRoundRobin

/-- `new`. -/
def new : PriorityRoundRobin := ⟨fun _ => [], BitVec.ofNat numPriorities 0, defaultSlices, 0⟩

/-- `(1 << RT_LEVELS) - 1`. -/
def band : BitVec numPriorities := (BitVec.ofNat numPriorities 1 <<< rtLevels) - BitVec.ofNat numPriorities 1

/-- `1 << IDLE_PRIORITY`. -/
def idleBit : BitVec numPriorities := BitVec.ofNat numPriorities 1 <<< idlePriority

/-- The levels `pick_next_masked` chooses from. -/
def pickable (s : PriorityRoundRobin) (avoidBand : Bool) : BitVec numPriorities :=
  if avoidBand = true ∧ s.bitmap &&& ~~~band ≠ BitVec.ofNat numPriorities 0 then s.bitmap &&& ~~~band
  else s.bitmap

/-- `pick_next_masked`. -/
def pickNextMasked (s : PriorityRoundRobin) (avoidBand : Bool) :
    Option TaskId × PriorityRoundRobin :=
  if s.bitmap = BitVec.ofNat numPriorities 0 then (none, s)
  else
    match lowest (s.pickable avoidBand) with
    | none => (none, s)
    | some level =>
      match s.queues level with
      | [] => (none, s)
      | id :: queue =>
        (some id,
          { s with
            queues := Function.update s.queues level queue
            bitmap := if queue.isEmpty then clearBit s.bitmap level else s.bitmap
            currentRemaining := s.timeSlices level })

/-- `pick_next`. -/
def pickNext (s : PriorityRoundRobin) : Option TaskId × PriorityRoundRobin :=
  s.pickNextMasked false

/-- `enqueue`. -/
def enqueue (s : PriorityRoundRobin) (id : TaskId) (priority : Nat) : PriorityRoundRobin :=
  let level := levelOf priority
  { s with
    queues := Function.update s.queues level (s.queues level ++ [id])
    bitmap := setBit s.bitmap level }

/-- The loop of `dequeue` over the levels still pending. -/
def dequeueLoop (id : TaskId) :
    List (Fin numPriorities) → Bool → PriorityRoundRobin → Bool × PriorityRoundRobin
  | [], removed, s => (removed, s)
  | level :: pending, removed, s =>
    let queue := (s.queues level).filter (· ≠ id)
    let swept := { s with queues := Function.update s.queues level queue }
    if queue.length ≠ (s.queues level).length then
      dequeueLoop id pending true
        (if queue.isEmpty then { swept with bitmap := clearBit s.bitmap level } else swept)
    else
      dequeueLoop id pending removed swept

/-- `dequeue`; the priority is not used. -/
def dequeue (s : PriorityRoundRobin) (id : TaskId) (_priority : Nat) : Bool × PriorityRoundRobin :=
  dequeueLoop id (setBits s.bitmap) false s

/-- The inner loop of `steal`: pop from the back of one queue while `remaining` lasts. -/
def stealLevel (level : Fin numPriorities) :
    Nat → List TaskId → StolenTasks → Nat × List TaskId × StolenTasks
  | 0, queue, stolen => (0, queue, stolen)
  | remaining + 1, queue, stolen =>
    match queue.getLast? with
    | none => (remaining + 1, queue, stolen)
    | some id => stealLevel level remaining queue.dropLast (stolen.push id level)

/-- The outer loop of `steal`, which ends when nothing remains to be stolen. -/
def stealLoop :
    List (Fin numPriorities) → Nat → PriorityRoundRobin → StolenTasks →
      StolenTasks × PriorityRoundRobin
  | [], _, s, stolen => (stolen, s)
  | _ :: _, 0, s, stolen => (stolen, s)
  | level :: bits, remaining + 1, s, stolen =>
    let r := stealLevel level (remaining + 1) (s.queues level) stolen
    stealLoop bits r.1
      { s with
        queues := Function.update s.queues level r.2.1
        bitmap := if r.2.1.isEmpty then clearBit s.bitmap level else s.bitmap }
      r.2.2

/-- `steal`. -/
def steal (s : PriorityRoundRobin) (count : Nat) : StolenTasks × PriorityRoundRobin :=
  if count = 0 ∨ s.bitmap = BitVec.ofNat numPriorities 0 then ([], s)
  else stealLoop (setBits s.bitmap) (min count maxSteal) s []

/-- `tick`; a remaining slice of `u32::MAX` is no slice at all. -/
def tick (s : PriorityRoundRobin) : Bool × PriorityRoundRobin :=
  if s.currentRemaining = maxVal 32 then (false, s)
  else
    (decide (s.currentRemaining - 1 = 0), { s with currentRemaining := s.currentRemaining - 1 })

/-- `total_tasks`. -/
def totalTasks (s : PriorityRoundRobin) : Nat :=
  if s.bitmap = BitVec.ofNat numPriorities 0 then 0
  else (setBits s.bitmap).foldl (fun total level => total + (s.queues level).length) 0

/-- `has_real_work`. -/
def hasRealWork (s : PriorityRoundRobin) : Bool := s.bitmap &&& ~~~idleBit != BitVec.ofNat numPriorities 0

end PriorityRoundRobin

end SlateOS.Sched
