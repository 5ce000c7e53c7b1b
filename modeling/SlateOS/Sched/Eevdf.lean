/-
# SlateOS.Sched.Eevdf -- the EEVDF run queue of one CPU

`EevdfScheduler` of `kernel/src/sched/eevdf.rs`. The ordered maps are Lean's own, over the
lexicographic order of `(u64, TaskId)`. Virtual times are `u64` values as natural numbers, with the
saturating operations of the source.
-/
import SlateOS.Sched.PriorityRr
import Mathlib.Data.Prod.Lex

namespace SlateOS.Sched

open Foundation.MachineInt

/-- The key of an ordered index: a virtual time, then the task. -/
abbrev TimeKey := Nat ×ₗ TaskId

/-- `WEIGHT_TABLE`. -/
def weightTable : Vector Nat numPriorities :=
  #v[88761, 71755, 56483, 46273, 36291, 29154, 23254, 18705,
    14949, 11916, 9548, 7620, 6100, 4904, 3906, 3121,
    2501, 1991, 1586, 1277, 1024, 820, 655, 526,
    423, 335, 272, 215, 172, 137, 110, 15]

/-- `VRUNTIME_UNIT`. -/
def vruntimeUnit : Nat := 1000000

/-- `MIN_GRANULARITY`. -/
def minGranularity : Nat := 1000

/-- `a.checked_div(b).unwrap_or(d)`. -/
def checkedDivOr (a b d : Nat) : Nat := if b = 0 then d else a / b

/-- `EevdfEntry`. -/
structure EevdfEntry where
  id : TaskId
  priority : Nat
  weight : Nat
  vruntime : Nat
  deadline : Nat
  isEligible : Bool
  deriving DecidableEq

/-- `EevdfScheduler`. -/
structure EevdfScheduler where
  /-- All waiting tasks, by deadline. -/
  tree : Std.TreeMap TimeKey EevdfEntry
  /-- The deadline each waiting task stands under. -/
  deadlines : Std.TreeMap TaskId Nat
  /-- The eligible tasks, by deadline. -/
  eligible : Std.TreeMap TimeKey Unit
  /-- The other tasks, by vruntime. -/
  ineligibleByVrt : Std.TreeMap TimeKey Unit
  minVruntime : Nat
  nrRunning : Nat
  timeSlices : TimeSlices
  currentRemaining : Nat
  currentWeight : Nat
  currentVruntime : Nat
  currentPriority : Nat
  /-- The running task, 0 for none. -/
  currentId : TaskId

namespace EevdfScheduler

/-- `new`. -/
def new : EevdfScheduler where
  tree := ∅
  deadlines := ∅
  eligible := ∅
  ineligibleByVrt := ∅
  minVruntime := 0
  nrRunning := 0
  timeSlices := defaultSlices
  currentRemaining := 0
  currentWeight := 0
  currentVruntime := 0
  currentPriority := 0
  currentId := 0

/-- `weight_for`. -/
def weightFor (priority : Nat) : Nat := weightTable[levelOf priority]

/-- `compute_deadline`. -/
def computeDeadline (s : EevdfScheduler) (vruntime priority weight : Nat) : Nat :=
  let sliceTicks := s.timeSlices (levelOf priority)
  let sliceVruntime := checkedDivOr (saturatingMul 64 sliceTicks vruntimeUnit) weight vruntimeUnit
  saturatingAdd 64 vruntime sliceVruntime

/-- The candidate of `update_min_vruntime`: the least vruntime above the floor, the running task's
included. -/
def minAbove (s : EevdfScheduler) : Option Nat :=
  let least := s.ineligibleByVrt.minKey?.map fun k => (ofLex k).1
  if s.currentId = 0 then least
  else
    match least with
    | some m => some (min m s.currentVruntime)
    | none => some s.currentVruntime

/-- `update_min_vruntime`. -/
def updateMinVruntime (s : EevdfScheduler) : EevdfScheduler :=
  if s.eligible.isEmpty then
    match s.minAbove with
    | some m => if m > s.minVruntime then { s with minVruntime := m } else s
    | none => s
  else s

/-- One turn of the loop of `rebalance`: the task at the front of the ineligible index moves to the
eligible one. -/
def promote (s : EevdfScheduler) (k : TimeKey) : EevdfScheduler :=
  let id := (ofLex k).2
  let s := { s with ineligibleByVrt := s.ineligibleByVrt.erase k }
  match s.deadlines[id]? with
  | none => s
  | some deadline =>
    let s := { s with eligible := s.eligible.insert (toLex (deadline, id)) () }
    match s.tree[(toLex (deadline, id) : TimeKey)]? with
    | none => s
    | some entry =>
      { s with tree := s.tree.insert (toLex (deadline, id)) { entry with isEligible := true } }

/-- At most `fuel` turns of the loop of `rebalance`. -/
def rebalanceLoop : Nat → EevdfScheduler → EevdfScheduler
  | 0, s => s
  | fuel + 1, s =>
    match s.ineligibleByVrt.minKey? with
    | none => s
    | some k => if (ofLex k).1 > s.minVruntime then s else rebalanceLoop fuel (s.promote k)

/-- `rebalance`; each turn removes one ineligible task. -/
def rebalance (s : EevdfScheduler) : EevdfScheduler := rebalanceLoop s.ineligibleByVrt.size s

/-- The removal of an entry from the index it is in, as `pick_next`, `enqueue`, `dequeue` and `steal`
do it. -/
def unindex (s : EevdfScheduler) (key : TimeKey) (entry : EevdfEntry) : EevdfScheduler :=
  if entry.isEligible then { s with eligible := s.eligible.erase key }
  else { s with ineligibleByVrt := s.ineligibleByVrt.erase (toLex (entry.vruntime, entry.id)) }

/-- `pick_next`. -/
def pickNext (s : EevdfScheduler) : Option TaskId × EevdfScheduler :=
  if s.tree.isEmpty then (none, s)
  else
    match s.eligible.minKey?.or s.tree.minKey? with
    | none => (none, s)
    | some key =>
      match s.tree[key]? with
      | none => (none, s)
      | some entry =>
        let s := { s with
          tree := s.tree.erase key
          deadlines := s.deadlines.erase entry.id }
        let s := s.unindex key entry
        let s := { s with
          nrRunning := s.nrRunning - 1
          currentRemaining := s.timeSlices (levelOf entry.priority)
          currentWeight := entry.weight
          currentVruntime := entry.vruntime
          currentPriority := entry.priority
          currentId := entry.id }
        (some entry.id, s.updateMinVruntime.rebalance)

/-- The first part of `enqueue`: drop a stale entry of the task. -/
def dropStale (s : EevdfScheduler) (id : TaskId) : EevdfScheduler :=
  match s.deadlines[id]? with
  | none => s
  | some oldDeadline =>
    let s := { s with deadlines := s.deadlines.erase id }
    let s := match s.tree[(toLex (oldDeadline, id) : TimeKey)]? with
      | none => s
      | some old =>
        { s with tree := s.tree.erase (toLex (oldDeadline, id)) }.unindex
          (toLex (oldDeadline, id)) old
    { s with nrRunning := s.nrRunning - 1 }

/-- The vruntime `enqueue` places a task at: the running task keeps its own. -/
def placement (s : EevdfScheduler) (id : TaskId) : Nat × EevdfScheduler :=
  if s.currentId = id then (s.currentVruntime, { s with currentId := 0, currentWeight := 0 })
  else (s.minVruntime, s)

/-- The insertion into the maps in `enqueue`. -/
def addEntry (s : EevdfScheduler) (entry : EevdfEntry) : EevdfScheduler :=
  let s := { s with
    tree := s.tree.insert (toLex (entry.deadline, entry.id)) entry
    deadlines := s.deadlines.insert entry.id entry.deadline }
  let s := if entry.isEligible then
      { s with eligible := s.eligible.insert (toLex (entry.deadline, entry.id)) () }
    else
      { s with ineligibleByVrt := s.ineligibleByVrt.insert (toLex (entry.vruntime, entry.id)) () }
  { s with nrRunning := saturatingAdd 32 s.nrRunning 1 }

/-- `enqueue`. -/
def enqueue (s : EevdfScheduler) (id : TaskId) (priority : Nat) : EevdfScheduler :=
  let s := s.dropStale id
  let weight := weightFor priority
  let (vruntime, s) := s.placement id
  let deadline := s.computeDeadline vruntime priority weight
  let s := s.addEntry
    { id, priority, weight, vruntime, deadline, isEligible := decide (vruntime ≤ s.minVruntime) }
  s.updateMinVruntime.rebalance

/-- The end of `dequeue`: the task may be the running one. -/
def dequeueCurrent (s : EevdfScheduler) (id : TaskId) : Bool × EevdfScheduler :=
  if s.currentId = id then
    (true, { s with currentId := 0, currentWeight := 0, currentRemaining := 0 })
  else (false, s)

/-- `dequeue`; the priority is not used. -/
def dequeue (s : EevdfScheduler) (id : TaskId) (_priority : Nat) : Bool × EevdfScheduler :=
  match s.deadlines[id]? with
  | none => s.dequeueCurrent id
  | some deadline =>
    let s := { s with deadlines := s.deadlines.erase id }
    match s.tree[(toLex (deadline, id) : TimeKey)]? with
    | none => s.dequeueCurrent id
    | some entry =>
      let s := { s with tree := s.tree.erase (toLex (deadline, id)) }
      let s := s.unindex (toLex (deadline, id)) entry
      let s := { s with nrRunning := s.nrRunning - 1 }
      (true, s.updateMinVruntime.rebalance)

/-- `should_preempt`. -/
def shouldPreempt (s : EevdfScheduler) : Bool :=
  if s.currentWeight = 0 then false
  else
    match s.tree.minKey?.bind (s.tree[·]?) with
    | none => false
    | some front =>
      if front.vruntime > s.minVruntime then false
      else decide (saturatingAdd 64 front.deadline minGranularity <
        s.computeDeadline s.currentVruntime s.currentPriority s.currentWeight)

/-- `tick`. -/
def tick (s : EevdfScheduler) : Bool × EevdfScheduler :=
  if s.currentWeight = 0 then (false, s)
  else
    let delta := checkedDivOr vruntimeUnit s.currentWeight 1
    let s := { s with currentVruntime := saturatingAdd 64 s.currentVruntime delta }
    let s := s.updateMinVruntime.rebalance
    let s := { s with currentRemaining := s.currentRemaining - 1 }
    (decide (s.currentRemaining = 0) || s.shouldPreempt, s)

/-- `total_tasks`. -/
def totalTasks (s : EevdfScheduler) : Nat := s.nrRunning

/-- `has_real_work`. -/
def hasRealWork (s : EevdfScheduler) : Bool :=
  s.tree.values.any fun e => e.priority != idlePriority

/-- The removal loop of `steal`. -/
def stealKeys : List TimeKey → StolenTasks → EevdfScheduler → StolenTasks × EevdfScheduler
  | [], stolen, s => (stolen, s)
  | key :: keys, stolen, s =>
    match s.tree[key]? with
    | none => stealKeys keys stolen s
    | some entry =>
      let s := { s with
        tree := s.tree.erase key
        deadlines := s.deadlines.erase entry.id }
      let s := s.unindex key entry
      stealKeys keys (stolen.push entry.id entry.priority)
        { s with nrRunning := s.nrRunning - 1 }

/-- `steal`: the keys are collected from the back of the tree first. -/
def steal (s : EevdfScheduler) (count : Nat) : StolenTasks × EevdfScheduler :=
  if count = 0 ∨ s.tree.isEmpty then ([], s)
  else
    let keys := s.tree.keys.reverse.take (min count maxSteal)
    let r := stealKeys keys [] s
    if keys.length > 0 then (r.1, r.2.updateMinVruntime.rebalance) else r

end EevdfScheduler

end SlateOS.Sched
