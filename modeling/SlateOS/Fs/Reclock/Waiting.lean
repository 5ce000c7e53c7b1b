/-
# SlateOS.Fs.Reclock.Waiting -- any number of tasks waiting for record locks

A call of `set_wait` passes through its section under the table's lock, again and again until it returns. One
section is one step, and so is the delivery of one wake: a task counts as parked from its registration on, and a
wake that comes before it blocks is remembered. A signal may rouse a parked task at any time. The tasks of a
process that `release_process` is called for are gone.
-/
import Mathlib.Logic.Function.Basic
import Mathlib.Logic.Relation
import SlateOS.Foundation.Runs
import SlateOS.Fs.Reclock.Files

namespace SlateOS.Fs.Reclock

open Foundation.MachineInt Foundation.Runs Kernel RecordLock LockKey

/-! ## The system -/

/-- The table, the calls of `set_wait` under way and whether they are parked, and the wakes on their way. -/
structure Waits where
  table : Table
  calls : Nat → Option (Request × Bool)
  waking : List Nat

/-- A step. -/
inductive Act
  | set (key : LockKey) (want : RecordLock)
  | call (task : Nat) (req : Request)
  | look (task : Nat) (signal : Bool)
  | wake (task : Nat)
  | rouse (task : Nat)
  | unlock (key : LockKey) (owner start len : Nat)
  | releaseOn (key : LockKey) (owner : Nat)
  | releaseAll (owner : Nat)
  | releaseOfd (handle : Nat)
  | releaseProcess (pid : Nat)

namespace Waits

/-- The table after a call, and the wakes that it sends. -/
def after (s : Waits) (r : List Nat × Table) : Waits := { s with table := r.2, waking := s.waking ++ r.1 }

/-- A parked call passes again. -/
def roused (s : Waits) (task : Nat) : Nat → Option (Request × Bool) :=
  Function.update s.calls task ((s.calls task).map fun c => (c.1, false))

/-- One step. A lock asked for starts below the end, as the offsets of a file do. -/
def step (s : Waits) : Act → Option Waits
  | .set key want => if want.start < maxVal 64 then some (s.after (s.table.set key want).2) else none
  | .call task req =>
    if (s.calls task).isNone ∧ req.want.start < maxVal 64 then
      some { s with calls := Function.update s.calls task (some (req, false)) }
    else none
  | .look task signal =>
    match s.calls task with
    | some (req, false) =>
      let pass := s.table.setWaitPass task req signal
      some
        { table := pass.2.2
          calls := Function.update s.calls task (if pass.1.isNone then some (req, true) else none)
          waking := s.waking ++ pass.2.1 }
    | _ => none
  | .wake task =>
    if task ∈ s.waking then some { s with calls := s.roused task, waking := s.waking.erase task } else none
  | .rouse task => some { s with calls := s.roused task }
  | .unlock key owner start len => some (s.after (s.table.unlock key owner start len))
  | .releaseOn key owner => some (s.after (s.table.releaseOn key owner))
  | .releaseAll owner => some (s.after (s.table.releaseAll owner))
  | .releaseOfd handle => some (s.after (s.table.releaseOfd handle))
  | .releaseProcess pid =>
    some
      { s.after (s.table.releaseProcess pid) with
        calls := fun task => (s.calls task).filter fun c => decide (pid = 0 ∨ c.1.pid ≠ pid) }

/-- Nothing is locked and nobody waits. -/
def Start (s : Waits) : Prop :=
  s.table.files = [] ∧ s.table.waiters = [] ∧ (∀ task, s.calls task = none) ∧ s.waking = []

/-! ## What waiting promises -/

/-- The task is parked, and no wake for it is pending. -/
def Asleep (s : Waits) (task : Nat) (req : Request) : Prop := s.calls task = some (req, true) ∧ task ∉ s.waking

/-- A parked task has a waiter entry, and another owner's lock is in its way. -/
def NoLostWake (s : Waits) : Prop :=
  ∀ task req, s.Asleep task req → (∃ w ∈ s.table.waiters, w.task = task) ∧
    ∃ l ∈ s.table.locksOn req.key, l.owner ≠ req.want.owner ∧ l.conflictsWith req.want = true

/-- Process owner `o` has a task asleep whose request a lock of process owner `o'` is in the way of now. -/
def WaitsFor (s : Waits) (o o' : Nat) : Prop :=
  ownerIsOfd o = false ∧ ownerIsOfd o' = false ∧ ∃ task req, s.Asleep task req ∧ req.want.owner = o ∧
    ∃ l ∈ s.table.locksOn req.key, l.owner = o' ∧ l.conflictsWith req.want = true

/-- No process owner waits for itself, directly or through others. -/
def NoDeadlock (s : Waits) : Prop := ∀ o, ¬Relation.TransGen s.WaitsFor o o

/-! ## The condition -/

/-- The lock is granted, and it replaces nothing that its owner held: nobody is woken. -/
def Grants (t : Table) (key : LockKey) (want : RecordLock) : Prop :=
  (∀ l ∈ t.locksOn key, l.conflictsWith want = false) ∧
    (∀ l ∈ t.locksOn key, l.owner = want.owner → l.overlaps want = false) ∧ t.Room key want

/-- The lock is granted to a process owner over a request that sleeps, and that no lock of this owner was in the
way of. -/
def Overtakes (s : Waits) (key : LockKey) (want : RecordLock) : Prop :=
  Grants s.table key want ∧ ownerIsOfd want.owner = false ∧
    ∃ task req, s.Asleep task req ∧ ownerIsOfd req.want.owner = false ∧ key.sameFile req.key = true ∧
      want.conflictsWith req.want = true ∧
        ∀ l ∈ s.table.locksOn req.key, l.owner = want.owner → l.conflictsWith req.want = false

/-- A path of a key comes always with an identity or never, and no lock overtakes. -/
def Fair (hasId : List UInt8 → Bool) (s : Waits) : Act → Prop
  | .set key want => key.Named hasId ∧ ¬s.Overtakes key want
  | .call _ req => req.key.Named hasId
  | .look task _ => ∀ req, s.calls task = some (req, false) → ¬s.Overtakes req.key req.want
  | .unlock key _ _ _ | .releaseOn key _ => key.Named hasId
  | .wake _ | .rouse _ | .releaseAll _ | .releaseOfd _ | .releaseProcess _ => True

end Waits

/-! ## The search -/

section Search

variable {ws : List Waiter} {me : Nat} {seen stack : List Nat}

/-- A vertex set closed under the edges, off `me`, cannot be left by a search for `me`. -/
structure Escapes (ws : List Waiter) (me : Nat) (S : Nat → Prop) : Prop where
  off : ¬S me
  closed : ∀ o, S o → ∀ o' ∈ Table.edgesOf ws o, ownerIsOfd o' = true ∨ S o'

/-- A search that answers no has seen such a set around its stack. -/
theorem escapes_of_search (hme : me ∉ seen)
    (hseen : ∀ o ∈ seen, ∀ o' ∈ Table.edgesOf ws o, ownerIsOfd o' = true ∨ o' ∈ seen ∨ o' ∈ stack)
    (h : Table.search ws me seen stack = false) :
    ∃ S, Escapes ws me S ∧ (∀ o ∈ seen, S o) ∧ ∀ o ∈ stack, ownerIsOfd o = true ∨ S o := by
  induction seen, stack using Table.search.induct ws me with
  | case1 seen =>
    refine ⟨(· ∈ seen), ⟨hme, fun o ho o' ho' => ?_⟩, fun o ho => ho, fun o ho => nomatch ho⟩
    obtain hofd | hin | hin := hseen o ho o' ho'
    · exact .inl hofd
    · exact .inr hin
    · cases hin
  | case2 seen stack =>
    rw [Table.search, if_pos rfl] at h
    cases h
  | case3 seen owner stack hne hskip ih =>
    rw [Table.search, if_neg hne, if_pos hskip] at h
    have hseen' : ∀ o ∈ seen, ∀ o' ∈ Table.edgesOf ws o, ownerIsOfd o' = true ∨ o' ∈ seen ∨ o' ∈ stack := by
      intro o ho o' ho'
      obtain hofd | hin | hin := hseen o ho o' ho'
      · exact .inl hofd
      · exact .inr (.inl hin)
      · obtain rfl | hin := List.mem_cons.mp hin
        · exact hskip.imp id .inl
        · exact .inr (.inr hin)
    obtain ⟨S, hS, hin, hstack⟩ := ih hme hseen' h
    refine ⟨S, hS, hin, fun o ho => ?_⟩
    obtain rfl | ho := List.mem_cons.mp ho
    · exact hskip.imp id (hin o)
    · exact hstack o ho
  | case4 seen owner stack hne hskip ih =>
    rw [Table.search, if_neg hne, if_neg hskip] at h
    have hme' : me ∉ seen ++ [owner] := by
      simp only [List.mem_append, List.mem_singleton, not_or]
      exact ⟨hme, fun heq => hne heq.symm⟩
    have hseen' : ∀ o ∈ seen ++ [owner], ∀ o' ∈ Table.edgesOf ws o,
        ownerIsOfd o' = true ∨ o' ∈ seen ++ [owner] ∨ o' ∈ (Table.edgesOf ws owner).reverse ++ stack := by
      intro o ho o' ho'
      simp only [List.mem_append, List.mem_singleton, List.mem_reverse] at ho ⊢
      obtain ho | rfl := ho
      · obtain hofd | hin | hin := hseen o ho o' ho'
        · exact .inl hofd
        · exact .inr (.inl (.inl hin))
        · obtain rfl | hin := List.mem_cons.mp hin
          · exact .inr (.inl (.inr rfl))
          · exact .inr (.inr (.inr hin))
      · exact .inr (.inr (.inl ho'))
    obtain ⟨S, hS, hin, hstack⟩ := ih hme' hseen' h
    refine ⟨S, hS, fun o ho => hin o (List.mem_append_left _ ho), fun o ho => ?_⟩
    obtain rfl | ho := List.mem_cons.mp ho
    · exact .inr (hin o (by simp))
    · exact hstack o (List.mem_append_right _ ho)

/-- An owner that is let wait is not reached from the owners in its way. -/
theorem escapes_of_wouldDeadlock {t : Table} {blockers : List Nat} (hproc : ownerIsOfd me = false)
    (h : t.wouldDeadlock me blockers = false) :
    ∃ S, Escapes t.waiters me S ∧ ∀ o ∈ blockers, ownerIsOfd o = true ∨ S o := by
  rw [Table.wouldDeadlock, hproc, if_neg Bool.false_ne_true] at h
  obtain ⟨S, hS, -, hstack⟩ := escapes_of_search List.not_mem_nil (fun o ho => nomatch ho) h
  exact ⟨S, hS, fun o ho => hstack o (List.mem_reverse.mpr ho)⟩

end Search

/-- New edges out of `me` into a closed set off `me` close no cycle. -/
theorem acyclic_extend {α : Type*} {r r' : α → α → Prop} {S : α → Prop} {me : α}
    (hacyclic : ∀ x, ¬Relation.TransGen r x x) (hclosed : ∀ x y, S x → r x y → S y) (hme : ¬S me)
    (hnew : ∀ x y, r' x y → r x y ∨ (x = me ∧ S y)) (x : α) : ¬Relation.TransGen r' x x := by
  have hpath : ∀ y, Relation.TransGen r' x y → Relation.TransGen r x y ∨ (S y ∧ Relation.ReflTransGen r x me) := by
    intro y h
    induction h with
    | single h =>
      obtain h | ⟨rfl, h⟩ := hnew _ _ h
      · exact .inl (.single h)
      · exact .inr ⟨h, .refl⟩
    | tail _ h ih =>
      obtain h | ⟨rfl, h⟩ := hnew _ _ h
      · exact ih.imp (fun hp => hp.tail h) (fun hs => ⟨hclosed _ _ hs.1 h, hs.2⟩)
      · obtain hp | hs := ih
        · exact .inr ⟨h, hp.to_reflTransGen⟩
        · exact absurd hs.1 hme
  intro h
  obtain h | ⟨hx, hpath⟩ := hpath x h
  · exact hacyclic x h
  · have hreach : ∀ y, Relation.ReflTransGen r x y → S y := by
      intro y hp
      induction hp with
      | refl => exact hx
      | tail _ h ih => exact hclosed _ _ ih h
    exact hme (hreach me hpath)

end SlateOS.Fs.Reclock
