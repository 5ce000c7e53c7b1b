/-
# SlateOS.Fs.Reclock.Bounds -- how large the table of record locks grows

The limits on files, on the locks of a file and on waiters are checked where an entry is made: `try_set` counts
the list after the merge, `set_wait` the waiters. `unlock` counts nothing, and a cut inside a lock leaves two where
there was one. One owner's locks are disjoint, so a cut divides one lock at most: the table outgrows its limit
exactly when a full list is cut inside a lock.
-/
import SlateOS.Fs.Reclock.Refinement

namespace SlateOS.Fs.Reclock.Bounds

open Foundation.MachineInt Foundation.Runs Kernel RecordLock
open Table (rangeStop)

variable {l h merged want : RecordLock} {held out : List RecordLock} {o a c start len owner : Nat} {t t' : Table}
  {key : LockKey}

/-! ## Calls -/

/-- A call on the table, the exit of a process among them. -/
inductive Call where
  | op (op : Op)
  | releaseProcess (pid : Nat)

namespace Call

/-- Offsets are words of 64 bits. -/
def Offsets : Call → Prop
  | .op (.set _ want) => want.start ≤ maxVal 64
  | .op (.setWait _ req _) => req.want.start ≤ maxVal 64
  | .op (.unlock _ _ start _) => start ≤ maxVal 64
  | .op (.releaseOn _ _) | .op (.releaseAll _) | .op (.releaseOfd _) | .releaseProcess _ => True

instance : DecidablePred Offsets := fun call =>
  match call with
  | .op (.set _ want) => inferInstanceAs (Decidable (want.start ≤ maxVal 64))
  | .op (.setWait _ req _) => inferInstanceAs (Decidable (req.want.start ≤ maxVal 64))
  | .op (.unlock _ _ start _) => inferInstanceAs (Decidable (start ≤ maxVal 64))
  | .op (.releaseOn ..) | .op (.releaseAll ..) | .op (.releaseOfd ..) | .releaseProcess _ =>
    inferInstanceAs (Decidable True)

/-- The table after the call; of `set_wait`, after one pass of its loop. -/
def after (t : Table) : Call → Table
  | .op asked => (asked.perform t).2.2
  | .releaseProcess pid => (t.releaseProcess pid).2

end Call

/-- One call of a run. -/
def step (t : Table) (call : Call) : Option Table := if call.Offsets then some (call.after t) else none

theorem step_eq_some {call : Call} : step t call = some t' ↔ call.Offsets ∧ call.after t = t' := by
  simp [step]

/-! ## What is bounded -/

/-- The limits on the table. -/
structure WithinLimits (t : Table) : Prop where
  locks : ∀ f ∈ t.files, f.locks.length ≤ maxLocksPerFile
  files : t.files.length ≤ maxLockedFiles
  waiters : t.waiters.length ≤ maxWaiters

/-- The range lies inside the lock, with bytes of it on either side. -/
def Divides (start stop : Nat) (l : RecordLock) : Prop := l.start < start ∧ stop < l.stop

/-- The call cuts a lock of a full list in two. -/
def DividesFull (t : Table) : Call → Prop
  | .op (.unlock key owner start len) =>
    maxLocksPerFile ≤ (t.locksOn key).length ∧
      ∃ l ∈ t.locksOn key, l.owner = owner ∧ Divides start (rangeStop start len) l
  | _ => False

/-! ## Lists whose owners' locks are disjoint -/

/-- Locks start in the range of offsets, and no owner's overlap. -/
structure Tidy (locks : List RecordLock) : Prop where
  offsets : ∀ l ∈ locks, l.start ≤ maxVal 64
  disjoint : locks.Pairwise fun l l' => l.owner = l'.owner → l.stop ≤ l'.start ∨ l'.stop ≤ l.start

theorem Tidy.nil : Tidy [] := ⟨(fun _ hl => nomatch hl), .nil⟩

theorem Tidy.sublist (ht : Tidy held) (hsub : out.Sublist held) : Tidy out :=
  ⟨fun l hl => ht.offsets l (hsub.subset hl), ht.disjoint.sublist hsub⟩

/-- A lock that is empty is so at the very end. -/
theorem start_le_stop (hl : l.start ≤ maxVal 64) : l.start ≤ l.stop ∧ (l.stop ≤ l.start → l.stop = maxVal 64) := by
  unfold stop saturatingAdd
  split <;> omega

theorem rangeStop_ge (hs : start ≤ maxVal 64) : start ≤ rangeStop start len ∧ rangeStop start len ≤ maxVal 64 := by
  unfold rangeStop saturatingAdd
  split <;> omega

/-- The pieces that a cut leaves, in their order. -/
theorem subtract_cut (hover : h.start < c ∧ a < h.stop) :
    subtract h a c =
      (if h.start < a then [.spanning h.owner h.start a h.lockType] else [])
        ++ (if c < h.stop then [.spanning h.owner c h.stop h.lockType] else []) := by
  rw [subtract, if_neg (by omega)]

/-- A piece lies inside the lock and off the range. -/
theorem mem_subtract_cut (hover : h.start < c ∧ a < h.stop) (hmem : l ∈ subtract h a c) :
    l.owner = h.owner ∧ h.start ≤ l.start ∧ l.start ≤ h.stop ∧ l.stop ≤ h.stop ∧ (l.stop ≤ a ∨ c ≤ l.start) := by
  have hle := stop_le h
  rw [subtract_cut hover, List.mem_append] at hmem
  rcases hmem with hmem | hmem
  · split at hmem
    case isFalse => cases hmem
    case isTrue hlt =>
      rw [List.mem_singleton] at hmem
      have hstop : (spanning h.owner h.start a h.lockType).stop = a := stop_spanning hlt (by omega)
      subst hmem
      refine ⟨rfl, Nat.le_refl _, ?_, ?_, .inl (Nat.le_of_eq hstop)⟩
      · show h.start ≤ h.stop
        omega
      · rw [hstop]
        omega
  · split at hmem
    case isFalse => cases hmem
    case isTrue hlt =>
      rw [List.mem_singleton] at hmem
      have hstop : (spanning h.owner c h.stop h.lockType).stop = h.stop := stop_spanning hlt hle
      subst hmem
      exact ⟨rfl, Nat.le_of_lt hover.1, Nat.le_of_lt hlt, Nat.le_of_eq hstop, .inr (Nat.le_refl _)⟩

/-- The two pieces of one lock are disjoint. -/
theorem pairwise_subtract_cut (hac : a ≤ c) (hover : h.start < c ∧ a < h.stop) :
    (subtract h a c).Pairwise fun l l' => l.owner = l'.owner → l.stop ≤ l'.start ∨ l'.stop ≤ l.start := by
  have hle := stop_le h
  rw [subtract_cut hover, List.pairwise_append]
  refine ⟨by split <;> simp, by split <;> simp, ?_⟩
  intro x hx y hy _
  split at hx
  case isFalse => cases hx
  case isTrue hlt =>
    split at hy
    case isFalse => cases hy
    case isTrue =>
      rw [List.mem_singleton] at hx hy
      subst hx hy
      left
      rw [stop_spanning hlt (by omega)]
      exact hac

/-- What a cut of the whole list leaves of one lock. -/
theorem mem_cleared {h : RecordLock} (hh : h.start ≤ maxVal 64)
    (hmem : l ∈ if h.owner = o ∧ h.start < c ∧ a < h.stop then subtract h a c else [h]) :
    l.owner = h.owner ∧ h.start ≤ l.start ∧ l.start ≤ h.stop ∧ l.stop ≤ h.stop ∧
      (l.owner = o → l.stop ≤ a ∨ c ≤ l.start) := by
  have hproper := start_le_stop hh
  split at hmem
  case isTrue hcut =>
    have hpiece := mem_subtract_cut hcut.2 hmem
    exact ⟨hpiece.1, hpiece.2.1, hpiece.2.2.1, hpiece.2.2.2.1, fun _ => hpiece.2.2.2.2⟩
  case isFalse hcut =>
    rw [List.mem_singleton] at hmem
    subst hmem
    refine ⟨rfl, Nat.le_refl _, hproper.1, Nat.le_refl _, fun ho => ?_⟩
    omega

theorem Tidy.clearOwn (ht : Tidy held) (hac : a ≤ c) : Tidy (clearOwn held o a c) := by
  unfold Reclock.clearOwn
  refine ⟨fun l hl => ?_, ?_⟩
  · obtain ⟨h, hh, hl⟩ := List.mem_flatMap.mp hl
    have hpiece := mem_cleared (ht.offsets h hh) hl
    have := stop_le h
    omega
  · rw [List.pairwise_flatMap]
    refine ⟨fun h hh => ?_, ?_⟩
    · split
      · next hcut => exact pairwise_subtract_cut hac hcut.2
      · exact List.pairwise_singleton _ _
    · refine ht.disjoint.imp_of_mem ?_
      intro x y hx hy hxy l hl l' hl' ho
      have hpx := mem_cleared (ht.offsets x hx) hl
      have hpy := mem_cleared (ht.offsets y hy) hl'
      have := hxy (by rw [← hpx.1, ho, hpy.1])
      omega

/-- Merging two touching locks covers what they covered. -/
theorem merge_stop (hh : h.start ≤ maxVal 64) (hm : merged.start ≤ maxVal 64) :
    (merge merged h).stop = max h.stop merged.stop := by
  have hproper := start_le_stop hh
  have hproper' := start_le_stop hm
  have := stop_le h
  have := stop_le merged
  by_cases hlt : min h.start merged.start < max h.stop merged.stop
  · exact stop_spanning hlt (by omega)
  · have hend : max h.stop merged.stop = maxVal 64 := by omega
    rw [merge, hend]
    simp [spanning, stop]

theorem Tidy.absorb (out : List RecordLock) (merged : RecordLock) (ht : Tidy out) (hm : merged.start ≤ maxVal 64)
    (hapart : ∀ l ∈ out, l.owner = merged.owner → l.stop ≤ merged.start ∨ merged.stop ≤ l.start) :
    Tidy (absorb out merged) := by
  induction out, merged using absorb.induct with
  | case1 out merged hnone =>
    have heq : Reclock.absorb out merged = out ++ [merged] := by
      rw [Reclock.absorb]
      split
      · rfl
      · next hsome => simp [hnone] at hsome
    rw [heq]
    refine ⟨fun l hl => ?_, ?_⟩
    · rcases List.mem_append.mp hl with hl | hl
      · exact ht.offsets l hl
      · rw [List.mem_singleton] at hl
        exact hl ▸ hm
    · rw [List.pairwise_append]
      refine ⟨ht.disjoint, List.pairwise_singleton _ _, fun l hl m hmem => ?_⟩
      rw [List.mem_singleton] at hmem
      exact hmem ▸ hapart l hl
  | case2 out merged h hsome ih =>
    have hmem := List.mem_of_find?_eq_some hsome
    obtain ⟨howner, -, htouch⟩ := touches_iff.mp (List.find?_some hsome)
    have hh := ht.offsets h hmem
    have heq : Reclock.absorb out merged = Reclock.absorb (out.erase h) (merge merged h) := by
      rw [Reclock.absorb]
      split
      · next hnone => simp [hsome] at hnone
      · next h' hsome' =>
        rw [hsome] at hsome'
        cases hsome'
        rfl
    have hpair := (List.perm_cons_erase hmem).pairwise ht.disjoint
      (fun {x y} hxy ho => (hxy ho.symm).symm)
    have hmerge := merge_stop hh hm
    have hstart : (merge merged h).start = min h.start merged.start := rfl
    rw [heq]
    apply ih (ht.sublist List.erase_sublist)
    · rw [hstart]
      omega
    · intro l hl ho
      -- what is apart from two touching locks is apart from their union
      have hlm := hapart l (List.mem_of_mem_erase hl) ho
      have hlh := (List.pairwise_cons.mp hpair).1 l hl (howner.trans ho.symm)
      have hlp := start_le_stop (ht.offsets l (List.mem_of_mem_erase hl))
      have hhp := start_le_stop hh
      have hmp := start_le_stop hm
      have := stop_le l
      have := stop_le h
      have := stop_le merged
      rw [hmerge, hstart]
      omega

theorem Tidy.install (ht : Tidy held) (hwant : want.start ≤ maxVal 64) : Tidy (install held want).1 := by
  have hac := (start_le_stop hwant).1
  refine Tidy.absorb _ _ (ht.clearOwn hac) hwant ?_
  intro l hl ho
  obtain ⟨h, hh, hl⟩ := List.mem_flatMap.mp hl
  exact (mem_cleared (ht.offsets h hh) hl).2.2.2.2 ho

/-! ## How long a cut leaves a list -/

/-- A cut that divides no lock leaves at most as many. -/
theorem length_clearOwn_le (hnot : ∀ l ∈ held, l.owner = o → ¬Divides a c l) :
    (clearOwn held o a c).length ≤ held.length := by
  induction held with
  | nil => exact Nat.le_refl _
  | cons h held ih =>
    have hrest := ih fun l hl => hnot l (List.mem_cons_of_mem h hl)
    have hone : (if h.owner = o ∧ h.start < c ∧ a < h.stop then subtract h a c else [h]).length ≤ 1 := by
      split
      · next hcut =>
        have hh := hnot h List.mem_cons_self hcut.1
        rw [subtract_cut hcut.2]
        unfold Divides at hh
        split <;> split <;> (simp; try omega)
      · exact Nat.le_refl _
    simp only [clearOwn, List.flatMap_cons, List.length_append, List.length_cons] at hrest ⊢
    omega

/-- A cut inside a lock meets no other of its owner, and leaves one lock more. -/
theorem length_clearOwn_divided (ht : Tidy held) (hac : a ≤ c) (hl : l ∈ held) (ho : l.owner = o)
    (hdiv : Divides a c l) : (clearOwn held o a c).length = held.length + 1 := by
  obtain ⟨pre, post, rfl⟩ := List.append_of_mem hl
  obtain ⟨-, hpost, hcross⟩ := List.pairwise_append.mp ht.disjoint
  have hle := stop_le l
  unfold Divides at hdiv
  have huncut : ∀ h ∈ pre ++ post, ¬(h.owner = o ∧ h.start < c ∧ a < h.stop) := by
    rintro h hh ⟨hho, hover⟩
    rcases List.mem_append.mp hh with hh | hh
    · have := hcross h hh l List.mem_cons_self (hho.trans ho.symm)
      omega
    · have := (List.pairwise_cons.mp hpost).1 h hh (ho.trans hho.symm)
      omega
  have hkeep : ∀ hs : List RecordLock, (∀ h ∈ hs, h ∈ pre ++ post) → clearOwn hs o a c = hs := by
    intro hs hsub
    induction hs with
    | nil => rfl
    | cons h hs ih =>
      rw [clearOwn, List.flatMap_cons, if_neg (huncut h (hsub h List.mem_cons_self))]
      exact congrArg (h :: ·) (ih fun x hx => hsub x (List.mem_cons_of_mem h hx))
  have hsplit : clearOwn (pre ++ l :: post) o a c = clearOwn pre o a c ++ (subtract l a c ++ clearOwn post o a c) := by
    unfold clearOwn
    rw [List.flatMap_append, List.flatMap_cons, if_pos (⟨ho, by omega⟩ : l.owner = o ∧ l.start < c ∧ a < l.stop)]
  rw [hsplit, hkeep pre (fun h hh => List.mem_append_left _ hh), hkeep post (fun h hh => List.mem_append_right _ hh),
    subtract_cut (by omega), if_pos hdiv.1, if_pos hdiv.2]
  simp only [List.length_append, List.length_cons, List.length_nil]
  omega

/-! ## What a section does to the lists -/

/-- A property of every file's list. -/
def EachList (P : List RecordLock → Prop) (t : Table) : Prop := ∀ f ∈ t.files, P f.locks

section Sections

variable {P : List RecordLock → Prop}

theorem eachList_trySetAt {idx : Nat} (hP : EachList P t)
    (hinstall : ∀ locks, P locks → (install locks want).1.length ≤ maxLocksPerFile → P (install locks want).1) :
    EachList P (t.trySetAt idx want).2 := by
  unfold Table.trySetAt
  split
  · exact hP
  · next file hfile =>
    split
    · exact hP
    · split
      · exact hP
      · next hroom =>
        intro f hf
        rcases List.mem_or_eq_of_mem_set hf with hf | rfl
        · exact hP f hf
        · exact hinstall _ (hP file (List.mem_of_getElem? hfile)) (Nat.le_of_not_lt hroom)

theorem eachList_trySet (key : LockKey) (hP : EachList P t) (hnil : P [])
    (hinstall : ∀ locks, P locks → (install locks want).1.length ≤ maxLocksPerFile → P (install locks want).1) :
    EachList P (t.trySet key want).2 := by
  unfold Table.trySet
  split
  · exact eachList_trySetAt hP hinstall
  · split
    · exact hP
    · apply eachList_trySetAt _ hinstall
      intro f hf
      rcases List.mem_append.mp hf with hf | hf
      · exact hP f hf
      · rw [List.mem_singleton] at hf
        exact hf ▸ hnil

theorem trySetAt_frame (t : Table) (idx : Nat) (want : RecordLock) :
    (t.trySetAt idx want).2.files.length = t.files.length ∧ (t.trySetAt idx want).2.waiters = t.waiters := by
  unfold Table.trySetAt
  split
  · exact ⟨rfl, rfl⟩
  · split
    · exact ⟨rfl, rfl⟩
    · split
      · exact ⟨rfl, rfl⟩
      · exact ⟨List.length_set, rfl⟩

theorem trySet_frame (t : Table) (key : LockKey) (want : RecordLock) (hfiles : t.files.length ≤ maxLockedFiles) :
    (t.trySet key want).2.files.length ≤ maxLockedFiles ∧ (t.trySet key want).2.waiters = t.waiters := by
  unfold Table.trySet
  split
  · next idx _ =>
    obtain ⟨hlen, hwaiters⟩ := trySetAt_frame t idx want
    exact ⟨hlen ▸ hfiles, hwaiters⟩
  · split
    · exact ⟨hfiles, rfl⟩
    · next hroom =>
      have hframe := trySetAt_frame { t with files := t.files ++ [⟨key, []⟩] } t.files.length want
      refine ⟨?_, hframe.2⟩
      rw [hframe.1, List.length_append, List.length_singleton]
      omega

theorem takeWaitersOnAll_frame (t : Table) (keys : List LockKey) :
    (t.takeWaitersOnAll keys).2.files = t.files ∧ (t.takeWaitersOnAll keys).2.waiters.length ≤ t.waiters.length := by
  induction keys generalizing t with
  | nil => exact ⟨rfl, Nat.le_refl _⟩
  | cons key keys ih =>
    obtain ⟨hfiles, hwaiters⟩ := ih (t.takeWaitersOn key).2
    exact ⟨hfiles, hwaiters.trans (List.length_filter_le _ _)⟩

/-- The table with the locks of one owner gone, before any waiter is taken. -/
theorem mem_released {f : FileLocks} (hf : f ∈ (t.releaseEverywhere owner).2.files) :
    ∃ g ∈ t.files, f.locks.Sublist g.locks := by
  unfold Table.releaseEverywhere at hf
  dsimp only at hf
  rw [(takeWaitersOnAll_frame _ _).1] at hf
  obtain ⟨g, hg, rfl⟩ := List.mem_map.mp (List.mem_filter.mp hf).1
  exact ⟨g, hg, List.filter_sublist⟩

theorem released_length (t : Table) (owner : Nat) :
    (t.releaseEverywhere owner).2.files.length ≤ t.files.length ∧
      (t.releaseEverywhere owner).2.waiters.length ≤ t.waiters.length := by
  unfold Table.releaseEverywhere
  dsimp only
  obtain ⟨hfiles, hwaiters⟩ := takeWaitersOnAll_frame
    { t with
      files := (t.files.map fun f => { f with locks := f.locks.filter fun h => decide (h.owner ≠ owner) }).filter
        fun f => !f.locks.isEmpty } (t.heldBy owner)
  refine ⟨?_, hwaiters⟩
  rw [hfiles]
  exact (List.length_filter_le _ _).trans (List.length_map _).le

/-- What `unlock` finds, and the list it leaves. -/
theorem mem_unlocked {f : FileLocks} (hf : f ∈ (t.unlock key owner start len).2.files) :
    f ∈ t.files ∨ f.locks = clearOwn (t.locksOn key) owner start (rangeStop start len) := by
  have hmem : f ∈ (t.unlockRange key owner start (rangeStop start len)).2.files := by
    unfold Table.unlock at hf
    dsimp only at hf
    split at hf
    · exact hf
    · exact hf
  unfold Table.unlockRange at hmem
  split at hmem
  · exact .inl hmem
  · next idx hidx =>
    obtain ⟨pre, g, post, hfiles, rfl, -, hlocks⟩ := Table.position_some hidx
    have hget : t.files[pre.length]? = some g := by simp [hfiles]
    rw [hget] at hmem
    dsimp only at hmem
    split at hmem
    · exact .inl (List.mem_of_mem_eraseIdx hmem)
    · rcases List.mem_or_eq_of_mem_set hmem with hmem | rfl
      · exact .inl hmem
      · exact .inr (by rw [hlocks])

theorem unlocked_frame (t : Table) (key : LockKey) (owner start len : Nat) :
    (t.unlock key owner start len).2.files.length ≤ t.files.length ∧
      (t.unlock key owner start len).2.waiters.length ≤ t.waiters.length := by
  have hrange : (t.unlockRange key owner start (rangeStop start len)).2.files.length ≤ t.files.length ∧
      (t.unlockRange key owner start (rangeStop start len)).2.waiters = t.waiters := by
    unfold Table.unlockRange
    split
    · exact ⟨Nat.le_refl _, rfl⟩
    · split
      · exact ⟨Nat.le_refl _, rfl⟩
      · refine ⟨?_, rfl⟩
        dsimp only
        split
        · exact List.length_eraseIdx_le _ _
        · exact List.length_set.le
  unfold Table.unlock
  dsimp only
  split
  · exact ⟨hrange.1, (List.length_filter_le _ _).trans (congrArg List.length hrange.2).le⟩
  · exact ⟨hrange.1, hrange.2 ▸ Nat.le_refl _⟩

/-- What `unlock` leaves of a list that it does not empty is in the table. -/
theorem unlocked_mem (hne : clearOwn (t.locksOn key) owner start (rangeStop start len) ≠ []) :
    ∃ f ∈ (t.unlock key owner start len).2.files,
      f.locks = clearOwn (t.locksOn key) owner start (rangeStop start len) := by
  have hrange : ∃ f ∈ (t.unlockRange key owner start (rangeStop start len)).2.files,
      f.locks = clearOwn (t.locksOn key) owner start (rangeStop start len) := by
    cases hidx : t.position key with
    | none =>
      rw [(Table.position_none hidx).2] at hne
      exact absurd rfl hne
    | some idx =>
      obtain ⟨pre, g, post, hfiles, rfl, -, hlocks⟩ := Table.position_some hidx
      have hget : t.files[pre.length]? = some g := by simp [hfiles]
      rw [hlocks] at hne ⊢
      refine ⟨{ g with locks := clearOwn g.locks owner start (rangeStop start len) }, ?_, rfl⟩
      simp only [Table.unlockRange, hidx, hget]
      rw [if_neg (by simpa using hne), hfiles]
      simp
  obtain ⟨f, hf, hlocks⟩ := hrange
  refine ⟨f, ?_, hlocks⟩
  unfold Table.unlock
  dsimp only
  split
  · exact hf
  · exact hf

/-! ## One call -/

/-- A call other than `unlock` keeps what installing a lock and dropping locks keep of every list. -/
theorem eachList_after {call : Call} (hP : EachList P t) (hnil : P [])
    (hoffsets : call.Offsets)
    (hinstall : ∀ want locks, want.start ≤ maxVal 64 → P locks →
      (install locks want).1.length ≤ maxLocksPerFile → P (install locks want).1)
    (hsub : ∀ locks locks', P locks → locks'.Sublist locks → P locks')
    (hclear : ∀ key owner start len, call = .op (.unlock key owner start len) ∨
      call = .op (.releaseOn key owner) ∧ start = 0 ∧ len = 0 → P (t.locksOn key) →
        P (clearOwn (t.locksOn key) owner start (rangeStop start len))) :
    EachList P (call.after t) := by
  have hlocksOn : ∀ key, P (t.locksOn key) := by
    intro key
    unfold Table.locksOn
    cases hfind : t.files.find? fun f => f.key.sameFile key with
    | none => exact hnil
    | some f => exact hP f (List.mem_of_find?_eq_some hfind)
  have hrelease : ∀ u owner, EachList P u → EachList P (u.releaseEverywhere owner).2 := by
    intro u owner hu f hf
    obtain ⟨g, hg, hfg⟩ := mem_released hf
    exact hsub _ _ (hu g hg) hfg
  have hunlock : ∀ key owner start len,
      P (clearOwn (t.locksOn key) owner start (rangeStop start len)) →
        EachList P (t.unlock key owner start len).2 := by
    intro key owner start len hcut f hf
    rcases mem_unlocked hf with hf | hf
    · exact hP f hf
    · exact hf ▸ hcut
  cases call with
  | releaseProcess pid =>
    apply hrelease
    split
    · exact hP
    · exact hP
  | op asked =>
    cases asked with
    | set key want =>
      have htried := eachList_trySet key hP hnil fun locks hl => hinstall want locks hoffsets hl
      show EachList P (t.set key want).2.2
      unfold Table.set
      dsimp only
      split <;> exact htried
    | setWait task req signal =>
      have hP' : EachList P (t.removeWaiter task) := hP
      have htried := eachList_trySet req.key hP' hnil fun locks hl => hinstall req.want locks hoffsets hl
      show EachList P (t.setWaitPass task req signal).2.2
      unfold Table.setWaitPass
      dsimp only
      split
      · exact htried
      · exact htried
      · split
        · exact htried
        · split
          · exact htried
          · split <;> exact htried
      · exact htried
    | unlock key owner start len => exact hunlock _ _ _ _ (hclear key owner start len (.inl rfl) (hlocksOn key))
    | releaseOn key owner => exact hunlock _ _ _ _ (hclear key owner 0 0 (.inr ⟨rfl, rfl, rfl⟩) (hlocksOn key))
    | releaseAll owner => exact hrelease _ _ hP
    | releaseOfd handle => exact hrelease _ _ hP

end Sections

/-- Every call keeps the owners' locks disjoint. -/
theorem tidy_step {call : Call} (ht : EachList Tidy t) (hs : step t call = some t') : EachList Tidy t' := by
  obtain ⟨hoffsets, rfl⟩ := step_eq_some.mp hs
  refine eachList_after ht Tidy.nil hoffsets (fun want locks hwant hl _ => hl.install hwant)
    (fun locks locks' hl hsub => hl.sublist hsub) ?_
  rintro key owner start len (rfl | ⟨rfl, rfl, rfl⟩) hl
  · exact hl.clearOwn (rangeStop_ge hoffsets).1
  · exact hl.clearOwn (Nat.zero_le _)

/-- The table's other two limits are kept by every call. -/
theorem frame_after (hw : WithinLimits t) (call : Call) :
    (call.after t).files.length ≤ maxLockedFiles ∧ (call.after t).waiters.length ≤ maxWaiters := by
  have hfiles := hw.files
  have hwaiters := hw.waiters
  have hrelease : ∀ (u : Table) (owner : Nat), u.files = t.files → u.waiters.length ≤ t.waiters.length →
      (u.releaseEverywhere owner).2.files.length ≤ maxLockedFiles ∧
        (u.releaseEverywhere owner).2.waiters.length ≤ maxWaiters := by
    intro u owner hu huw
    have hlen := released_length u owner
    rw [hu] at hlen
    omega
  have hunlock : ∀ key owner start len, (t.unlock key owner start len).2.files.length ≤ maxLockedFiles ∧
      (t.unlock key owner start len).2.waiters.length ≤ maxWaiters := by
    intro key owner start len
    have hlen := unlocked_frame t key owner start len
    omega
  cases call with
  | releaseProcess pid =>
    apply hrelease
    · split <;> rfl
    · split
      · exact List.length_filter_le _ _
      · exact Nat.le_refl _
  | op asked =>
    cases asked with
    | set key want =>
      obtain ⟨htried, htriedWaiters⟩ := trySet_frame t key want hfiles
      rw [← htriedWaiters] at hwaiters
      show (t.set key want).2.2.files.length ≤ _ ∧ (t.set key want).2.2.waiters.length ≤ _
      unfold Table.set
      dsimp only
      split
      · exact ⟨htried, (List.length_filter_le _ _).trans hwaiters⟩
      · exact ⟨htried, hwaiters⟩
      · exact ⟨htried, hwaiters⟩
    | setWait task req signal =>
      have hfiles' : (t.removeWaiter task).files.length ≤ maxLockedFiles := hfiles
      have hwaiters' : (t.removeWaiter task).waiters.length ≤ maxWaiters :=
        (List.length_filter_le _ _).trans hwaiters
      obtain ⟨htried, htriedWaiters⟩ := trySet_frame (t.removeWaiter task) req.key req.want hfiles'
      rw [← htriedWaiters] at hwaiters'
      show (t.setWaitPass task req signal).2.2.files.length ≤ _ ∧ (t.setWaitPass task req signal).2.2.waiters.length ≤ _
      unfold Table.setWaitPass
      dsimp only
      split
      · exact ⟨htried, (List.length_filter_le _ _).trans hwaiters'⟩
      · exact ⟨htried, hwaiters'⟩
      · split
        · exact ⟨htried, hwaiters'⟩
        · split
          · exact ⟨htried, hwaiters'⟩
          · split
            · exact ⟨htried, hwaiters'⟩
            · -- the waiter is queued below the limit
              next hroom =>
              refine ⟨htried, ?_⟩
              rw [List.length_append, List.length_singleton]
              omega
      · exact ⟨htried, hwaiters'⟩
    | unlock key owner start len => exact hunlock _ _ _ _
    | releaseOn key owner => exact hunlock _ _ _ _
    | releaseAll owner => exact hrelease t owner rfl (Nat.le_refl _)
    | releaseOfd handle => exact hrelease t _ rfl (Nat.le_refl _)

theorem tidy_locksOn (ht : EachList Tidy t) (key : LockKey) : Tidy (t.locksOn key) := by
  unfold Table.locksOn
  cases hfind : t.files.find? fun f => f.key.sameFile key with
  | none => exact Tidy.nil
  | some f => exact ht f (List.mem_of_find?_eq_some hfind)

/-- **A call keeps the limits exactly when it does not cut a lock of a full list in two.** -/
theorem step_exact {call : Call} (ht : EachList Tidy t) (hw : WithinLimits t) (hs : step t call = some t') :
    ¬DividesFull t call ↔ WithinLimits t' := by
  obtain ⟨hoffsets, rfl⟩ := step_eq_some.mp hs
  obtain ⟨hfiles, hwaiters⟩ := frame_after hw call
  constructor
  · intro hnot
    refine ⟨?_, hfiles, hwaiters⟩
    refine eachList_after (P := fun locks => locks.length ≤ maxLocksPerFile) hw.locks (Nat.zero_le _) hoffsets
      (fun _ _ _ _ hroom => hroom) (fun _ _ hl hsub => hsub.length_le.trans hl) ?_
    intro key owner start len hcall hl
    by_cases hdiv : ∃ l ∈ t.locksOn key, l.owner = owner ∧ Divides start (rangeStop start len) l
    · obtain ⟨l, hmem, ho, hlt⟩ := hdiv
      rcases hcall with rfl | ⟨rfl, rfl, rfl⟩
      · have hlen := length_clearOwn_divided (tidy_locksOn ht key) (rangeStop_ge hoffsets).1 hmem ho hlt
        have hroom : ¬maxLocksPerFile ≤ (t.locksOn key).length := fun hfull => hnot ⟨hfull, l, hmem, ho, hlt⟩
        rw [hlen]
        omega
      · exact absurd hlt.1 (Nat.not_lt_zero _)
    · exact (length_clearOwn_le fun l hmem ho hlt => hdiv ⟨l, hmem, ho, hlt⟩).trans hl
  · rintro hw' hdiv
    rcases call with (_ | _ | ⟨key, owner, start, len⟩ | _ | _ | _) | _
    case op.unlock =>
      obtain ⟨hfull, l, hmem, ho, hlt⟩ := hdiv
      have hlen := length_clearOwn_divided (tidy_locksOn ht key) (rangeStop_ge hoffsets).1 hmem ho hlt
      have hne : clearOwn (t.locksOn key) owner start (rangeStop start len) ≠ [] := by
        intro hnil
        rw [hnil] at hlen
        simp at hlen
      obtain ⟨f, hf, hlocks⟩ := unlocked_mem hne
      have := hw'.locks f hf
      rw [hlocks, hlen] at this
      omega
    all_goals exact hdiv

/-! ## A lock that is combed byte by byte -/

/-- A file. -/
def someFile : LockKey := ⟨[], some ⟨0, 0⟩⟩

/-- The locks that stand between the bytes cut out so far, and the last, to the end of the file. -/
def combed : Nat → List RecordLock
  | 0 => []
  | n + 1 => combed n ++ [⟨1, 2 * n, 1, .write⟩]

/-- The table after `n` cuts. -/
def combedTable (n : Nat) : Table := ⟨[⟨someFile, combed n ++ [⟨1, 2 * n, 0, .write⟩]⟩], []⟩

theorem length_combed (n : Nat) : (combed n).length = n := by
  induction n with
  | zero => rfl
  | succ n ih => rw [combed, List.length_append, ih, List.length_singleton]

theorem stop_combed {n : Nat} (hn : 2 * n < maxVal 64) (hl : l ∈ combed n) : l.stop ≤ 2 * n := by
  induction n with
  | zero => cases hl
  | succ n ih =>
    rcases List.mem_append.mp hl with hl | hl
    · exact (ih (by omega) hl).trans (by omega)
    · rw [List.mem_singleton] at hl
      subst hl
      show saturatingAdd 64 (2 * n) 1 ≤ _
      have := saturatingAdd_le_add 64 (2 * n) 1
      omega

/-- Each cut makes one lock more. -/
theorem step_combed {n : Nat} (hn : 2 * n + 2 < maxVal 64) :
    step (combedTable n) (.op (.unlock someFile 1 (2 * n + 1) 1)) = some (combedTable (n + 1)) := by
  have hend : rangeStop (2 * n + 1) 1 = 2 * n + 2 := by
    rw [rangeStop, if_neg (by decide), saturatingAdd]
    omega
  have hkeep : ∀ ls : List RecordLock, (∀ l ∈ ls, l.stop ≤ 2 * n) → clearOwn ls 1 (2 * n + 1) (2 * n + 2) = ls := by
    intro ls hls
    induction ls with
    | nil => rfl
    | cons l ls ih =>
      have := hls l List.mem_cons_self
      rw [clearOwn, List.flatMap_cons, if_neg (by omega)]
      exact congrArg (l :: ·) (ih fun x hx => hls x (List.mem_cons_of_mem l hx))
  have hcut : clearOwn (combed n ++ [⟨1, 2 * n, 0, .write⟩]) 1 (2 * n + 1) (2 * n + 2)
      = combed (n + 1) ++ [⟨1, 2 * (n + 1), 0, .write⟩] := by
    have hlast : (⟨1, 2 * n, 0, .write⟩ : RecordLock).stop = maxVal 64 := rfl
    rw [clearOwn, List.flatMap_append, ← clearOwn, hkeep _ fun l hl => stop_combed (by omega) hl, combed,
      List.append_assoc, List.flatMap_singleton, if_pos ⟨rfl, by simp, by omega⟩, subtract_cut (by simp; omega),
      if_pos (by simp), if_pos (by omega), hlast]
    have h1 : 2 * n + 1 ≠ maxVal 64 := by omega
    simp [spanning, h1, Nat.mul_add]
  refine step_eq_some.mpr ⟨?_, ?_⟩
  · show 2 * n + 1 ≤ maxVal 64
    omega
  · have hpos : (combedTable n).position someFile = some 0 := rfl
    have hrange : ((combedTable n).unlockRange someFile 1 (2 * n + 1) (2 * n + 2)).2 = combedTable (n + 1) := by
      unfold Table.unlockRange
      rw [hpos]
      simp only [combedTable, List.getElem?_cons_zero, hcut]
      rw [if_neg (by simp)]
      rfl
    show ((combedTable n).unlock someFile 1 (2 * n + 1) 1).2 = _
    unfold Table.unlock
    simp only [hend, hrange]
    split <;> rfl

/-- A file is locked as a whole. -/
theorem step_lock : step ⟨[], []⟩ (.op (.set someFile ⟨1, 0, 0, .write⟩)) = some (combedTable 0) := by
  refine step_eq_some.mpr ⟨Nat.zero_le _, ?_⟩
  show (Table.set ⟨[], []⟩ someFile ⟨1, 0, 0, .write⟩).2.2 = _
  have htry : Table.trySet ⟨[], []⟩ someFile ⟨1, 0, 0, .write⟩ = (.ok false, combedTable 0) := by
    have hpos : Table.position ⟨[], []⟩ someFile = none := rfl
    simp only [Table.trySet, hpos, Table.trySetAt, List.nil_append, List.length_nil, List.getElem?_cons_zero,
      install_nil]
    rfl
  rw [Table.set, htry]

/-! ## Runs -/

theorem tidy_start (h : t.Start) : EachList Tidy t := by
  intro f hf
  rw [h.1] at hf
  cases hf

theorem withinLimits_start (h : t.Start) : WithinLimits t := by
  refine ⟨fun f hf => ?_, ?_, ?_⟩
  · rw [h.1] at hf
    cases hf
  · rw [h.1]
    exact Nat.zero_le _
  · rw [h.2]
    exact Nat.zero_le _

/-- **The table stays within its limits for as long as no full list is cut.** In a run of calls every state is
within the limits exactly when no `unlock` of the run divides a lock of a file that has as many as it may. -/
theorem table_bounded_iff {calls : List Call} (h : t.Start) (hrun : run step t calls = some t') :
    Along step (fun u call => ¬DividesFull u call) t calls ↔
      ∀ before, before <+: calls → ∀ u, run step t before = some u → WithinLimits u := by
  apply Along.iff_prefixes (I := EachList Tidy)
  · intro u call u' hu hs
    exact tidy_step hu hs
  · intro u call u' hu hw hs
    exact step_exact hu hw hs
  · exact tidy_start h
  · exact withinLimits_start h
  · exact hrun

/-- One lock, and one cut in the middle of it. -/
theorem table_bounded_iff_cut_once : WithinLimits (combedTable 1) := by
  have hrun : run step ⟨[], []⟩ [Call.op (.set someFile ⟨1, 0, 0, .write⟩), Call.op (.unlock someFile 1 1 1)]
      = some (combedTable 1) := by
    rw [run_cons, step_lock, Option.bind_some, run_cons, step_combed (n := 0) (by decide)]
    rfl
  refine (table_bounded_iff ⟨rfl, rfl⟩ hrun).mp ⟨fun hdiv => hdiv, fun u hu => ⟨?_, fun _ _ => trivial⟩⟩ _
    (List.prefix_refl _) _ hrun
  rw [step_lock, Option.some.injEq] at hu
  subst hu
  rintro ⟨hfull, -⟩
  revert hfull
  decide

/-- A process that locks a file and then cuts single bytes out of the lock gets as many entries as it wants. -/
theorem reach_combed {n : Nat} (hn : 2 * n < maxVal 64) : Reach step Table.Start (combedTable n) := by
  induction n with
  | zero =>
    have hstart : Table.Start ⟨[], []⟩ := ⟨rfl, rfl⟩
    exact .next (.start hstart) trivial step_lock
  | succ n ih => exact .next (ih (by omega)) trivial (step_combed (by omega))

theorem combed_within {n : Nat} (hw : WithinLimits (combedTable n)) : n + 1 ≤ maxLocksPerFile := by
  have hlen := hw.locks ⟨someFile, combed n ++ [⟨1, 2 * n, 0, .write⟩]⟩ List.mem_cons_self
  rwa [List.length_append, length_combed, List.length_singleton] at hlen

/-- After 256 cuts a file has 257 locks. -/
theorem table_outgrows_its_limit : ¬∀ t, Reach step Table.Start t → WithinLimits t := by
  intro h
  have hreach : Reach step Table.Start (combedTable 256) := reach_combed (by rw [maxVal]; omega)
  exact absurd (combed_within (h _ hreach)) (by decide)

end SlateOS.Fs.Reclock.Bounds
