/-
# SlateOS.Fs.Reclock.Refinement -- the table as a map from bytes to locks

What the table is for: a map that says of each file, owner and byte whether the owner holds the byte, and how.
A lock sets exactly its range for its owner where no other owner is in the way, an unlock clears exactly its
range, and every other outcome leaves the map as it was.
-/
import SlateOS.Foundation.Runs
import SlateOS.Fs.Reclock.Files

namespace SlateOS.Fs.Reclock

open Foundation.MachineInt Foundation.Runs Kernel RecordLock
open Table (rangeStop)

/-! ## The map -/

/-- Which bytes of which files each owner holds. -/
abbrev LockMap := FileId → Nat → Nat → Option RecordLockType

namespace LockMap

/-- Nothing is locked. -/
def empty : LockMap := fun _ _ _ => none

/-- The lock's range is its owner's, with its type. -/
def set (m : LockMap) (file : FileId) (want : RecordLock) : LockMap := fun f o b =>
  if f = file ∧ o = want.owner ∧ want.start ≤ b ∧ b < want.stop then some want.lockType else m f o b

/-- The owner holds nothing in the range. -/
def clear (m : LockMap) (file : FileId) (owner start stop : Nat) : LockMap := fun f o b =>
  if f = file ∧ o = owner ∧ start ≤ b ∧ b < stop then none else m f o b

/-- The owner holds nothing anywhere. -/
def clearOwner (m : LockMap) (owner : Nat) : LockMap := fun f o b => if o = owner then none else m f o b

/-- Another owner holds a byte of the range incompatibly. -/
def Refuses (m : LockMap) (file : FileId) (want : RecordLock) : Prop :=
  ∃ o b ty, o ≠ want.owner ∧ want.Covers b ∧ m file o b = some ty ∧ (ty = .write ∨ want.lockType = .write)

end LockMap

/-- How owner `o` holds byte `b` in a list of locks. -/
def heldType (locks : List RecordLock) (o b : Nat) : Option RecordLockType :=
  (locks.find? fun l => decide (l.owner = o ∧ l.start ≤ b ∧ b < l.stop)).map RecordLock.lockType

/-- A key that names a file by identity. -/
def keyOf (file : FileId) : LockKey := ⟨[], some file⟩

/-- The map that the table stands for. -/
def Table.map (t : Table) : LockMap := fun file o b => heldType (t.locksOn (keyOf file)) o b

/-! ## The calls -/

/-- A call on the table; `set_wait` is one pass of its loop. -/
inductive Op where
  | set (key : LockKey) (want : RecordLock)
  | setWait (task : Nat) (req : Request) (signal : Bool)
  | unlock (key : LockKey) (owner start len : Nat)
  | releaseOn (key : LockKey) (owner : Nat)
  | releaseAll (owner : Nat)
  | releaseOfd (handle : Nat)

namespace Op

/-- The file of the call is named by `file`, and a lock asked for starts below the end. -/
def On (file : FileId) : Op → Prop
  | .set key want => key.id = some file ∧ want.start < maxVal 64
  | .setWait _ req _ => req.key.id = some file ∧ req.want.start < maxVal 64
  | .unlock key _ _ _ => key.id = some file
  | .releaseOn key _ => key.id = some file
  | .releaseAll _ | .releaseOfd _ => True

/-- The result of a call, if it has one, the tasks it wakes and the table after it. -/
def perform (t : Table) : Op → Option (KernelResult Unit) × List Nat × Table
  | .set key want => (some (t.set key want).1, (t.set key want).2)
  | .setWait task req signal => t.setWaitPass task req signal
  | .unlock key owner start len => (none, t.unlock key owner start len)
  | .releaseOn key owner => (none, t.releaseOn key owner)
  | .releaseAll owner => (none, t.releaseAll owner)
  | .releaseOfd handle => (none, t.releaseOfd handle)

/-- What a call on `file` with result `r` makes of the map. -/
def Spec (file : FileId) (m : LockMap) (r : Option (KernelResult Unit)) (m' : LockMap) : Op → Prop
  | .set _ want =>
    (r = some (.ok ()) → ¬m.Refuses file want ∧ m' = m.set file want) ∧ (r ≠ some (.ok ()) → m' = m) ∧
      (r = some (.error .wouldBlock) ↔ m.Refuses file want)
  | .setWait _ req _ =>
    (r = some (.ok ()) → ¬m.Refuses file req.want ∧ m' = m.set file req.want) ∧
      (r ≠ some (.ok ()) → m' = m)
  | .unlock _ owner start len => m' = m.clear file owner start (rangeStop start len)
  | .releaseOn _ owner => m' = m.clear file owner 0 (maxVal 64)
  | .releaseAll owner => m' = m.clearOwner owner
  | .releaseOfd handle => m' = m.clearOwner (ofdOwner handle)

end Op

/-- What holds of the table in a state. -/
structure Table.Kept (t : Table) : Prop where
  /-- `query` reports a lock in the way exactly when `set` is refused with `WouldBlock`. -/
  query : ∀ key want, key.id.isSome = true → want.start < maxVal 64 →
    ((t.query key want).isSome = true ↔ (t.set key want).1 = .error .wouldBlock) ∧
      ∀ l, t.query key want = some l → l ∈ t.locksOn key ∧ l.conflictsWith want = true
  exclusive : ∀ file b o o' ty ty', o ≠ o' → t.map file o b = some ty → t.map file o' b = some ty' →
    ty = .read ∧ ty' = .read
  disjoint : ∀ f ∈ t.files, f.locks.Pairwise fun l l' =>
    l.owner = l'.owner → ∀ b, l.Covers b → ¬l'.Covers b
  merged : ∀ f ∈ t.files, f.locks.Pairwise fun l l' =>
    l.owner = l'.owner → l.lockType = l'.lockType → l.stop ≠ l'.start ∧ l'.stop ≠ l.start
  nonempty : ∀ f ∈ t.files, f.locks ≠ []

/-! ## Reading the map off the locks -/

section Reading

variable {t t' : Table} {key : LockKey} {file : FileId} {want : RecordLock} {locks : List RecordLock}
  {o b : Nat} {ty : RecordLockType}

/-- Every key comes with an identity. -/
abbrev byId : List UInt8 → Bool := fun _ => true

theorem named_of_id (h : key.id = some file) : key.Named byId := by
  rw [LockKey.Named, h]
  rfl

theorem named_keyOf : (keyOf file).Named byId := rfl

theorem sameFile_keyOf (h : key.id = some file) (f : FileId) : key.sameFile (keyOf f) = decide (f = file) := by
  rw [LockKey.sameFile, h]
  simp [keyOf, eq_comm]

theorem heldType_eq_some (hs : Sound locks) : heldType locks o b = some ty ↔ Holds locks o b ty := by
  unfold heldType
  constructor
  · intro h
    rw [Option.map_eq_some_iff] at h
    obtain ⟨l, hl, ht⟩ := h
    have hp : l.owner = o ∧ l.start ≤ b ∧ b < l.stop := by simpa using List.find?_some hl
    exact ⟨l, List.mem_of_find?_eq_some hl, hp.1, ht, hp.2⟩
  · intro h
    obtain ⟨l, hl, hlo, hlt, hlb⟩ := id h
    cases hfind : locks.find? fun l => decide (l.owner = o ∧ l.start ≤ b ∧ b < l.stop) with
    | none =>
      have hnot := List.find?_eq_none.mp hfind l hl
      exact absurd (decide_eq_true (⟨hlo, hlb⟩ : l.owner = o ∧ l.start ≤ b ∧ b < l.stop)) hnot
    | some x =>
      have hp : x.owner = o ∧ x.start ≤ b ∧ b < x.stop := by simpa using List.find?_some hfind
      have hx : Holds locks o b x.lockType := ⟨x, List.mem_of_find?_eq_some hfind, hp.1, rfl, hp.2⟩
      rw [Option.map_some, hx.unique hs h]

theorem locksOn_keyOf (hwf : t.WellFormed byId) (h : key.id = some file) :
    t.locksOn (keyOf file) = t.locksOn key := by
  refine hwf.locksOn_congr (named_of_id h) named_keyOf ?_
  rw [sameFile_keyOf h, decide_eq_true rfl]

theorem map_eq_some (hwf : t.WellFormed byId) :
    t.map file o b = some ty ↔ Holds (t.locksOn (keyOf file)) o b ty :=
  heldType_eq_some (Table.mem_locksOn_sound hwf _)

theorem refuses_iff (hwf : t.WellFormed byId) (hkey : key.id = some file) (hwant : want.start < maxVal 64) :
    t.map.Refuses file want ↔ ∃ l ∈ t.locksOn key, l.conflictsWith want = true := by
  rw [conflict_iff (Table.mem_locksOn_sound hwf key).ne (start_lt_stop hwant), ← locksOn_keyOf hwf hkey]
  simp only [LockMap.Refuses, map_eq_some hwf]

theorem not_refuses (hwf : t.WellFormed byId) (hkey : key.id = some file) (hwant : want.start < maxVal 64)
    (hfree : ∀ l ∈ t.locksOn key, l.conflictsWith want = false) : ¬t.map.Refuses file want := by
  rw [refuses_iff hwf hkey hwant]
  rintro ⟨l, hl, hc⟩
  rw [hfree l hl] at hc
  cases hc

theorem map_of_files (h : t'.files = t.files) : t'.map = t.map := by
  funext file o b
  rw [Table.map, Table.map, Table.locksOn_of_files h]

/-- A granted lock sets its range. -/
theorem map_installed (hwf : t.WellFormed byId) (hkey : key.id = some file)
    (hwant : want.start < maxVal 64) (hfree : ∀ l ∈ t.locksOn key, l.conflictsWith want = false)
    (hlocks : ∀ k, k.Named byId → t'.locksOn k =
      if key.sameFile k = true then (install (t.locksOn key) want).1 else t.locksOn k) :
    t'.map = t.map.set file want := by
  obtain ⟨hs, hholds⟩ := install_spec (Table.mem_locksOn_sound hwf key) (start_lt_stop hwant) hfree
  funext f o b
  rw [Table.map, hlocks _ named_keyOf, sameFile_keyOf hkey, LockMap.set]
  by_cases hf : f = file
  · subst hf
    rw [if_pos (decide_eq_true rfl)]
    ext ty
    rw [heldType_eq_some hs, hholds, ← locksOn_keyOf hwf hkey]
    unfold Covers
    split
    case isTrue hin =>
      simp only [hin.2, and_self, true_and, not_true_eq_false, false_and, or_false, Option.some.injEq]
      exact eq_comm
    case isFalse hout =>
      have hout' : ¬(o = want.owner ∧ want.start ≤ b ∧ b < want.stop) := fun h => hout ⟨rfl, h⟩
      rw [map_eq_some hwf]
      constructor
      · rintro (⟨ho, hb, -⟩ | ⟨-, h⟩)
        · exact absurd ⟨ho, hb⟩ hout'
        · exact h
      · exact fun h => .inr ⟨hout', h⟩
  · rw [if_neg (by simpa using hf), if_neg (fun h => hf h.1)]
    rfl

/-- A range taken out is cleared. -/
theorem map_cleared {owner a c : Nat} (hwf : t.WellFormed byId) (hkey : key.id = some file)
    (hac : RangeOk a c)
    (hlocks : ∀ k, k.Named byId → t'.locksOn k =
      if key.sameFile k = true then clearOwn (t.locksOn key) owner a c else t.locksOn k) :
    t'.map = t.map.clear file owner a c := by
  have hs := Table.mem_locksOn_sound hwf key
  funext f o b
  rw [Table.map, hlocks _ named_keyOf, sameFile_keyOf hkey, LockMap.clear]
  by_cases hf : f = file
  · subst hf
    rw [if_pos (decide_eq_true rfl)]
    ext ty
    rw [heldType_eq_some (hs.clearOwn hac), holds_clearOwn hs.ne hac, ← locksOn_keyOf hwf hkey]
    split
    case isTrue hin => simp [hin.2]
    case isFalse hout =>
      rw [map_eq_some hwf]
      exact and_iff_left fun h => hout ⟨rfl, h⟩
  · rw [if_neg (by simpa using hf), if_neg (fun h => hf h.1)]
    rfl

theorem rangeOk_rangeStop (start len : Nat) : RangeOk start (rangeStop start len) := by
  unfold RangeOk rangeStop saturatingAdd
  split <;> omega

end Reading

/-! ## The calls refine their specifications -/

section Calls

variable {t : Table} {key : LockKey} {file : FileId} {want : RecordLock}

theorem set_refines (hwf : t.WellFormed byId) (hkey : key.id = some file) (hwant : want.start < maxVal 64) :
    (t.set key want).2.2.WellFormed byId ∧
      Op.Spec file t.map (some (t.set key want).1) (t.set key want).2.2.map (.set key want) := by
  have htry := Table.trySet_spec hwf (named_of_id hkey) hwant
  unfold Table.set
  dsimp only
  generalize t.trySet key want = tried at htry
  obtain ⟨r, t'⟩ := tried
  dsimp only at htry ⊢
  cases htry with
  | granted hfree hwf' hwaiters hlocks =>
    have hmap := map_installed hwf hkey hwant hfree hlocks
    have hnot := not_refuses hwf hkey hwant hfree
    cases (install (t.locksOn key) want).2 with
    | true =>
      refine ⟨hwf'.of_files rfl, ?_, fun hne => absurd rfl hne, ?_⟩
      · intro _
        exact ⟨hnot, (map_of_files rfl).trans hmap⟩
      · exact ⟨fun h => (nomatch h), fun h => absurd h hnot⟩
    | false =>
      refine ⟨hwf', fun _ => ⟨hnot, hmap⟩, fun hne => absurd rfl hne, ?_⟩
      exact ⟨fun h => (nomatch h), fun h => absurd h hnot⟩
  | blocked hblock =>
    refine ⟨hwf, fun h => (nomatch h), fun _ => rfl, fun _ => ?_, fun _ => rfl⟩
    exact (refuses_iff hwf hkey hwant).mpr hblock
  | full hfree =>
    refine ⟨hwf, fun h => (nomatch h), fun _ => rfl, fun h => (nomatch h), fun h => ?_⟩
    exact absurd h (not_refuses hwf hkey hwant hfree)

theorem setWait_refines (hwf : t.WellFormed byId) {task : Nat} {req : Request} {signal : Bool}
    (hkey : req.key.id = some file) (hwant : req.want.start < maxVal 64) :
    (t.setWaitPass task req signal).2.2.WellFormed byId ∧
      Op.Spec file t.map (t.setWaitPass task req signal).1 (t.setWaitPass task req signal).2.2.map
        (.setWait task req signal) := by
  have hwf' : (t.removeWaiter task).WellFormed byId := hwf.of_files rfl
  have hmap' : (t.removeWaiter task).map = t.map := map_of_files rfl
  have htry := Table.trySet_spec hwf' (named_of_id hkey) hwant
  unfold Table.setWaitPass
  dsimp only
  generalize (t.removeWaiter task).trySet req.key req.want = tried at htry
  obtain ⟨r, t'⟩ := tried
  dsimp only at htry ⊢
  cases htry with
  | granted hfree hwf'' hwaiters hlocks =>
    have hmap := (map_installed hwf' hkey hwant hfree hlocks)
    have hnot := not_refuses hwf' hkey hwant hfree
    rw [hmap'] at hmap hnot
    cases (install ((t.removeWaiter task).locksOn req.key) req.want).2 with
    | true => exact ⟨hwf''.of_files rfl, fun _ => ⟨hnot, (map_of_files rfl).trans hmap⟩, fun hne => absurd rfl hne⟩
    | false => exact ⟨hwf'', fun _ => ⟨hnot, hmap⟩, fun hne => absurd rfl hne⟩
  | blocked hblock =>
    dsimp only
    split
    · exact ⟨hwf', fun h => (nomatch h), fun _ => hmap'⟩
    · split
      · exact ⟨hwf', fun h => (nomatch h), fun _ => hmap'⟩
      · split
        · exact ⟨hwf', fun h => (nomatch h), fun _ => hmap'⟩
        · exact ⟨hwf'.of_files rfl, fun h => (nomatch h), fun _ => (map_of_files rfl).trans hmap'⟩
  | full hfree => exact ⟨hwf', fun h => (nomatch h), fun _ => hmap'⟩

theorem unlock_refines (hwf : t.WellFormed byId) (hkey : key.id = some file) (owner start len : Nat) :
    (t.unlock key owner start len).2.WellFormed byId ∧
      (t.unlock key owner start len).2.map = t.map.clear file owner start (rangeStop start len) := by
  have hac := rangeOk_rangeStop start len
  obtain ⟨hwf', -, hlocks, -⟩ := Table.unlockRange_spec (o := owner) hwf (named_of_id hkey) hac
  have hmap := map_cleared hwf hkey hac hlocks
  unfold Table.unlock
  dsimp only
  split
  · exact ⟨hwf'.of_files rfl, (map_of_files rfl).trans hmap⟩
  · exact ⟨hwf', hmap⟩

theorem releaseEverywhere_refines (hwf : t.WellFormed byId) (owner : Nat) :
    (t.releaseEverywhere owner).2.WellFormed byId ∧
      (t.releaseEverywhere owner).2.map = t.map.clearOwner owner := by
  obtain ⟨hwf', hlocks⟩ := Table.releaseEverywhere_spec hwf owner
  refine ⟨hwf', ?_⟩
  funext f o b
  ext ty
  rw [map_eq_some hwf', hlocks _ named_keyOf, LockMap.clearOwner]
  constructor
  · rintro ⟨l, hl, hlo, hlt, hlb⟩
    obtain ⟨hmem, hne⟩ := List.mem_filter.mp hl
    rw [if_neg (fun ho => of_decide_eq_true hne (hlo.trans ho)), map_eq_some hwf]
    exact ⟨l, hmem, hlo, hlt, hlb⟩
  · intro h
    split at h
    case isTrue => cases h
    case isFalse hne =>
      obtain ⟨l, hl, hlo, hlt, hlb⟩ := (map_eq_some hwf).mp h
      exact ⟨l, List.mem_filter.mpr ⟨hl, decide_eq_true (fun ho => hne (hlo.symm.trans ho))⟩, hlo, hlt, hlb⟩

/-- **Every call does to the map what it is for.** -/
theorem perform_refines (hwf : t.WellFormed byId) {op : Op} (hop : op.On file) :
    (op.perform t).2.2.WellFormed byId ∧ op.Spec file t.map (op.perform t).1 (op.perform t).2.2.map := by
  cases op with
  | set key want => exact set_refines hwf hop.1 hop.2
  | setWait task req signal => exact setWait_refines hwf hop.1 hop.2
  | unlock key owner start len => exact unlock_refines hwf hop owner start len
  | releaseOn key owner => exact unlock_refines hwf hop owner 0 0
  | releaseAll owner => exact releaseEverywhere_refines hwf owner
  | releaseOfd handle => exact releaseEverywhere_refines hwf (ofdOwner handle)

/-- What a well-formed table keeps. -/
theorem Table.WellFormed.kept (hwf : t.WellFormed byId) : t.Kept where
  query key want hkey hwant := by
    obtain ⟨file, hfile⟩ := Option.isSome_iff_exists.mp hkey
    have hspec := (set_refines hwf hfile hwant).2.2.2
    rw [Option.some.injEq] at hspec
    refine ⟨?_, ?_⟩
    · rw [hspec, refuses_iff hwf hfile hwant, Table.query, List.find?_isSome]
    · intro l hl
      have hc := List.find?_some (p := fun h : RecordLock => h.conflictsWith want) hl
      exact ⟨List.mem_of_find?_eq_some hl, hc⟩
  exclusive file b o o' ty ty' ho h h' := by
    rw [map_eq_some hwf] at h h'
    exact h.compatible (Table.mem_locksOn_sound hwf _) h' ho
  disjoint f hf := by
    refine (hwf.sound f hf).separate.imp ?_
    intro l l' hsep ho b hb hb'
    have hd := hsep.disjoint ho
    unfold Covers at hb hb'
    omega
  merged f hf := (hwf.sound f hf).separate.imp fun hsep => hsep.untouched
  nonempty := hwf.nonempty

end Calls

/-! ## Runs -/

/-- The table as the kernel starts with it. -/
def Table.Start (t : Table) : Prop := t.files = [] ∧ t.waiters = []

/-- One call of a run; calls that do not name their file by identity are no step. -/
def callStep (t : Table) : Op → Option Table
  | .set key want =>
    if key.id.isSome ∧ want.start < maxVal 64 then some ((Op.set key want).perform t).2.2 else none
  | .setWait task req signal =>
    if req.key.id.isSome ∧ req.want.start < maxVal 64 then some ((Op.setWait task req signal).perform t).2.2
    else none
  | .unlock key owner start len =>
    if key.id.isSome then some ((Op.unlock key owner start len).perform t).2.2 else none
  | .releaseOn key owner => if key.id.isSome then some ((Op.releaseOn key owner).perform t).2.2 else none
  | .releaseAll owner => some ((Op.releaseAll owner).perform t).2.2
  | .releaseOfd handle => some ((Op.releaseOfd handle).perform t).2.2

theorem callStep_on {t t' : Table} {op : Op} (h : callStep t op = some t') :
    (∃ file, op.On file) ∧ t' = (op.perform t).2.2 := by
  cases op with
  | set key want | setWait task req signal =>
    simp only [callStep, Option.ite_none_right_eq_some, Option.some.injEq] at h
    obtain ⟨⟨hid, hwant⟩, rfl⟩ := h
    obtain ⟨file, hfile⟩ := Option.isSome_iff_exists.mp hid
    exact ⟨⟨file, hfile, hwant⟩, rfl⟩
  | unlock key owner start len | releaseOn key owner =>
    simp only [callStep, Option.ite_none_right_eq_some, Option.some.injEq] at h
    obtain ⟨hid, rfl⟩ := h
    obtain ⟨file, hfile⟩ := Option.isSome_iff_exists.mp hid
    exact ⟨⟨file, hfile⟩, rfl⟩
  | releaseAll owner | releaseOfd handle =>
    cases h
    exact ⟨⟨⟨0, 0⟩, trivial⟩, rfl⟩

theorem wellFormed_of_reach {t : Table} (h : Reach callStep Table.Start t) : t.WellFormed byId := by
  induction h with
  | start h =>
    obtain ⟨hfiles, -⟩ := h
    refine ⟨?_, ?_, ?_, ?_⟩ <;> rw [hfiles]
    · exact fun f hf => nomatch hf
    · exact .nil
    · exact fun f hf => nomatch hf
    · exact fun f hf => nomatch hf
  | next _ _ hs ih =>
    obtain ⟨⟨file, hop⟩, rfl⟩ := callStep_on hs
    exact (perform_refines ih hop).1

/-- **The table refines the map.** It starts with nothing locked, in every state that calls reach it keeps its
promises, and from there every call does to the map what it is for. -/
theorem table_refines :
    (∀ t : Table, t.Start → t.map = .empty) ∧
      ∀ t, Reach callStep Table.Start t → t.Kept ∧
        ∀ file (op : Op), op.On file → op.Spec file t.map (op.perform t).1 (op.perform t).2.2.map := by
  refine ⟨?_, ?_⟩
  · intro t ht
    funext f o b
    rw [Table.map, Table.locksOn, ht.1]
    rfl
  · intro t ht
    have hwf := wellFormed_of_reach ht
    exact ⟨hwf.kept, fun file op hop => (perform_refines hwf hop).2⟩

end SlateOS.Fs.Reclock
