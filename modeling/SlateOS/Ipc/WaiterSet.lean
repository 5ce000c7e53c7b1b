/-
# SlateOS.Ipc.WaiterSet -- the tasks parked on an object, and how long a call waits

`WaiterSet`, `Patience` and `Deadline` of `kernel/src/ipc/waiters.rs`.
-/
import SlateOS.Kernel.Error

namespace SlateOS.Ipc

open Kernel

/-- `WaiterSet`: the parked tasks, in registration order. -/
abbrev WaiterSet := List Nat

namespace WaiterSet

/-- `insert`. -/
def insert (w : WaiterSet) (task : Nat) : WaiterSet := if task ∈ w then w else w ++ [task]

/-- `remove`. -/
def remove (w : WaiterSet) (task : Nat) : WaiterSet := w.filter (· ≠ task)

end WaiterSet

/-- `Patience`. -/
inductive Patience
  | never
  | forever
  | upto (ns : Nat)
  deriving DecidableEq

/-- `Deadline::ends_now`; `armed` is whether the timer was set by an earlier look, `expired` whether the
clock has reached it. -/
def Patience.endsNow (patience : Patience) (armed expired : Bool) : Option KernelError :=
  match patience with
  | .never => some .wouldBlock
  | .forever => none
  | .upto ns => if ns = 0 then some .timedOut else if armed && expired then some .timedOut else none

end SlateOS.Ipc
