/-
# SlateOS.Fs.Reclock.Files -- the files of the table, and what each section does to their locks

A file's entry is found by its key. Keys name files consistently when a path either always comes with an
identity or never does: then `same_file` is an equivalence, every file has one entry, and a section changes the
locks of its own file only.
-/
import Mathlib.Data.List.Find
import SlateOS.Fs.Reclock.Coverage

namespace SlateOS.Fs.Reclock

open Foundation.MachineInt Kernel

variable {hasId : List UInt8 → Bool} {k k' k'' key : LockKey} {t t' : Table} {want : RecordLock}
  {o a c : Nat} {f : FileLocks}

/-! ## Keys -/

namespace LockKey

/-- The key carries an identity exactly when the keys of its path do. -/
def Named (hasId : List UInt8 → Bool) (k : LockKey) : Prop := k.id.isSome = hasId k.path

theorem sameFile_comm (k k' : LockKey) : k.sameFile k' = k'.sameFile k := by
  unfold sameFile
  cases k.id <;> cases k'.id <;> simp [eq_comm]

theorem sameFile_trans (h : k.Named hasId) (h' : k'.Named hasId) (h'' : k''.Named hasId)
    (hkk' : k.sameFile k' = true) (hlast : k'.sameFile k'' = true) : k.sameFile k'' = true := by
  obtain ⟨p, i⟩ := k
  obtain ⟨p', i'⟩ := k'
  obtain ⟨p'', i''⟩ := k''
  unfold Named at h h' h''
  unfold sameFile at hkk' hlast ⊢
  cases i <;> cases i' <;> cases i'' <;> simp_all

/-- Keys of one file agree on every other key. -/
theorem sameFile_congr (h : k.Named hasId) (h' : k'.Named hasId) (h'' : k''.Named hasId)
    (hkk' : k.sameFile k' = true) : k.sameFile k'' = k'.sameFile k'' := by
  cases hc : k'.sameFile k'' with
  | true => exact sameFile_trans h h' h'' hkk' hc
  | false =>
    by_contra hne
    rw [Bool.not_eq_false] at hne
    rw [sameFile_comm] at hkk'
    rw [sameFile_trans h' h h'' hkk' hne] at hc
    cases hc

end LockKey

open LockKey RecordLock

/-! ## Entries -/

namespace Table

theorem find?_same {fs : List FileLocks} (h : f.key.sameFile k = true) :
    (f :: fs).find? (fun g => g.key.sameFile k) = some f :=
  List.find?_cons_of_pos (p := fun g : FileLocks => g.key.sameFile k) h

theorem find?_other {fs : List FileLocks} (h : f.key.sameFile k = false) :
    (f :: fs).find? (fun g => g.key.sameFile k) = fs.find? fun g => g.key.sameFile k :=
  List.find?_cons_of_neg (p := fun g : FileLocks => g.key.sameFile k) (by
    rw [h]
    exact Bool.false_ne_true)

/-- Every entry has a consistent key of its own, and locks, and they are sound. -/
structure WellFormed (hasId : List UInt8 → Bool) (t : Table) : Prop where
  named : ∀ f ∈ t.files, f.key.Named hasId
  distinct : t.files.Pairwise fun f g => f.key.sameFile g.key = false
  nonempty : ∀ f ∈ t.files, f.locks ≠ []
  sound : ∀ f ∈ t.files, Sound f.locks

theorem locksOn_of_files {t' : Table} (h : t'.files = t.files) (k : LockKey) : t'.locksOn k = t.locksOn k := by
  rw [locksOn, locksOn, h]

theorem WellFormed.of_files (h : t.WellFormed hasId) (hfiles : t'.files = t.files) : t'.WellFormed hasId :=
  ⟨hfiles ▸ h.named, hfiles ▸ h.distinct, hfiles ▸ h.nonempty, hfiles ▸ h.sound⟩

/-- A file without locks has no entry. -/
theorem mem_locksOn_sound (h : t.WellFormed hasId) (k : LockKey) : Sound (t.locksOn k) := by
  unfold locksOn
  cases hfind : t.files.find? fun f => f.key.sameFile k with
  | none => exact Sound.nil
  | some f => exact h.sound f (List.mem_of_find?_eq_some hfind)

/-- Keys of one file find the same locks. -/
theorem WellFormed.locksOn_congr (h : t.WellFormed hasId) (hkey : key.Named hasId) (hk : k.Named hasId)
    (hsame : key.sameFile k = true) : t.locksOn k = t.locksOn key := by
  have hcongr : ∀ f ∈ t.files, f.key.sameFile k = f.key.sameFile key := by
    intro f hf
    rw [sameFile_comm, sameFile_comm f.key key]
    exact (sameFile_congr hkey hk (h.named f hf) hsame).symm
  rw [locksOn, List.find?_congr hcongr, locksOn]

theorem position_some {idx : Nat} (h : t.position key = some idx) :
    ∃ pre f post, t.files = pre ++ f :: post ∧ idx = pre.length ∧ f.key.sameFile key = true ∧
      t.locksOn key = f.locks := by
  obtain ⟨hlt, hmatch, hbefore⟩ := List.findIdx?_eq_some_iff_getElem.mp h
  refine ⟨t.files.take idx, t.files[idx], t.files.drop (idx + 1), ?_, ?_, hmatch, ?_⟩
  · rw [List.getElem_cons_drop, List.take_append_drop]
  · rw [List.length_take]
    omega
  · have hfind : t.files.find? (fun f => f.key.sameFile key) = some t.files[idx] := by
      rw [List.find?_eq_some_iff_getElem]
      refine ⟨hmatch, idx, hlt, rfl, fun j hj => ?_⟩
      have := hbefore j hj
      simpa using this
    rw [locksOn, hfind]
    rfl

theorem position_none (h : t.position key = none) :
    (∀ f ∈ t.files, f.key.sameFile key = false) ∧ t.locksOn key = [] := by
  have hall : ∀ f ∈ t.files, f.key.sameFile key = false := List.findIdx?_eq_none_iff.mp h
  refine ⟨hall, ?_⟩
  have hfind : t.files.find? (fun f => f.key.sameFile key) = none := by
    rw [List.find?_eq_none]
    intro f hf
    rw [hall f hf]
    exact Bool.false_ne_true
  rw [locksOn, hfind]
  rfl

/-- The locks on a file in a table with an entry singled out. -/
theorem locksOn_split {pre post : List FileLocks} (hwf : t.WellFormed hasId)
    (hfiles : t.files = pre ++ f :: post) (hk : k.Named hasId) :
    (f.key.sameFile k = true → t.locksOn k = f.locks ∧ ∀ g ∈ pre ++ post, g.key.sameFile k = false) ∧
    (f.key.sameFile k = false →
      t.locksOn k = (((pre ++ post).find? fun g => g.key.sameFile k).map FileLocks.locks).getD []) := by
  have hf := hwf.named f (hfiles ▸ by simp)
  have hdist := hwf.distinct
  rw [hfiles, List.pairwise_append] at hdist
  obtain ⟨-, hpost, hcross⟩ := hdist
  refine ⟨fun hsame => ?_, fun hother => ?_⟩
  · have hnone : ∀ g ∈ pre ++ post, g.key.sameFile k = false := by
      intro g hg
      have hgn : g.key.Named hasId := by
        apply hwf.named g
        rw [hfiles]
        obtain hg | hg := List.mem_append.mp hg
        · exact List.mem_append_left _ hg
        · exact List.mem_append_right _ (List.mem_cons_of_mem _ hg)
      have hfg : f.key.sameFile g.key = false := by
        obtain hg | hg := List.mem_append.mp hg
        · rw [sameFile_comm]
          exact hcross g hg f List.mem_cons_self
        · exact (List.pairwise_cons.mp hpost).1 g hg
      rw [sameFile_comm, ← sameFile_congr hf hk hgn hsame]
      exact hfg
    refine ⟨?_, hnone⟩
    have hpre : pre.find? (fun g => g.key.sameFile k) = none := by
      rw [List.find?_eq_none]
      intro g hg
      rw [hnone g (List.mem_append_left _ hg)]
      exact Bool.false_ne_true
    rw [locksOn, hfiles, List.find?_append, hpre, Option.none_or, find?_same hsame]
    rfl
  · rw [locksOn, hfiles, List.find?_append, List.find?_append,
      find?_other hother]

/-- Replacing an entry's locks. -/
theorem WellFormed.replace {u : Table} {pre post : List FileLocks} {locks : List RecordLock} (hwf : t.WellFormed hasId)
    (hfiles : t.files = pre ++ f :: post) (hne : locks ≠ []) (hs : Sound locks)
    (hfiles' : u.files = pre ++ { f with locks := locks } :: post) :
    u.WellFormed hasId ∧ ∀ k, k.Named hasId →
      u.locksOn k = if f.key.sameFile k = true then locks else t.locksOn k := by
  have hmem : ∀ g ∈ u.files, g = { f with locks := locks } ∨ g ∈ t.files := by
    intro g hg
    rw [hfiles'] at hg
    rw [hfiles]
    simp only [List.mem_append, List.mem_cons] at hg ⊢
    obtain hg | rfl | hg := hg
    · exact .inr (.inl hg)
    · exact .inl rfl
    · exact .inr (.inr (.inr hg))
  have hf : f ∈ t.files := by
    rw [hfiles]
    simp
  have hwf' : u.WellFormed hasId := by
    refine ⟨?_, ?_, ?_, ?_⟩
    · intro g hg
      obtain rfl | hg := hmem g hg
      · exact hwf.named f hf
      · exact hwf.named g hg
    · have hdist := hwf.distinct
      rw [hfiles, List.pairwise_append, List.pairwise_cons] at hdist
      rw [hfiles', List.pairwise_append, List.pairwise_cons]
      obtain ⟨hpre, ⟨hfp, hpost⟩, hcross⟩ := hdist
      refine ⟨hpre, ⟨hfp, hpost⟩, fun x hx y hy => ?_⟩
      obtain rfl | hy := List.mem_cons.mp hy
      · exact hcross x hx f List.mem_cons_self
      · exact hcross x hx y (List.mem_cons_of_mem _ hy)
    · intro g hg
      obtain rfl | hg := hmem g hg
      · exact hne
      · exact hwf.nonempty g hg
    · intro g hg
      obtain rfl | hg := hmem g hg
      · exact hs
      · exact hwf.sound g hg
  refine ⟨hwf', fun k hk => ?_⟩
  split
  case isTrue hsame => exact ((locksOn_split hwf' hfiles' hk).1 hsame).1
  case isFalse hother =>
    rw [Bool.not_eq_true] at hother
    rw [(locksOn_split hwf' hfiles' hk).2 hother, (locksOn_split hwf hfiles hk).2 hother]

/-- Dropping an entry. -/
theorem WellFormed.erase {u : Table} {pre post : List FileLocks} (hwf : t.WellFormed hasId)
    (hfiles : t.files = pre ++ f :: post) (hfiles' : u.files = pre ++ post) :
    u.WellFormed hasId ∧ ∀ k, k.Named hasId →
      u.locksOn k = if f.key.sameFile k = true then [] else t.locksOn k := by
  have hsub : (pre ++ post).Sublist t.files := by
    rw [hfiles]
    exact List.Sublist.append (List.Sublist.refl _) (List.sublist_cons_self _ _)
  have hmem : ∀ g ∈ u.files, g ∈ t.files := fun g hg => hsub.subset (hfiles' ▸ hg)
  refine ⟨⟨fun g hg => hwf.named g (hmem g hg), ?_, fun g hg => hwf.nonempty g (hmem g hg),
    fun g hg => hwf.sound g (hmem g hg)⟩, fun k hk => ?_⟩
  · rw [hfiles']
    exact hwf.distinct.sublist hsub
  · split
    case isTrue hsame =>
      have hnone := ((locksOn_split hwf hfiles hk).1 hsame).2
      have hfind : u.files.find? (fun g => g.key.sameFile k) = none := by
        rw [hfiles', List.find?_eq_none]
        intro g hg
        rw [hnone g hg]
        exact Bool.false_ne_true
      rw [locksOn, hfind]
      rfl
    case isFalse hother =>
      rw [Bool.not_eq_true] at hother
      rw [(locksOn_split hwf hfiles hk).2 hother, locksOn, hfiles']

/-- An entry for a file that has none. -/
theorem WellFormed.push {u : Table} {locks : List RecordLock} (hwf : t.WellFormed hasId) (hkey : key.Named hasId)
    (hnew : ∀ f ∈ t.files, f.key.sameFile key = false) (hne : locks ≠ []) (hs : Sound locks)
    (hfiles' : u.files = t.files ++ [⟨key, locks⟩]) :
    u.WellFormed hasId ∧ ∀ k, k.Named hasId →
      u.locksOn k = if key.sameFile k = true then locks else t.locksOn k := by
  have hmem : ∀ g ∈ u.files, g ∈ t.files ∨ g = ⟨key, locks⟩ := by
    intro g hg
    rw [hfiles'] at hg
    simpa using hg
  refine ⟨⟨?_, ?_, ?_, ?_⟩, fun k hk => ?_⟩
  · intro g hg
    obtain hg | rfl := hmem g hg
    · exact hwf.named g hg
    · exact hkey
  · rw [hfiles', List.pairwise_append]
    refine ⟨hwf.distinct, List.pairwise_singleton _ _, fun x hx y hy => ?_⟩
    rw [List.mem_singleton] at hy
    subst hy
    exact hnew x hx
  · intro g hg
    obtain hg | rfl := hmem g hg
    · exact hwf.nonempty g hg
    · exact hne
  · intro g hg
    obtain hg | rfl := hmem g hg
    · exact hwf.sound g hg
    · exact hs
  · split
    case isTrue hsame =>
      have hnone : t.files.find? (fun g => g.key.sameFile k) = none := by
        rw [List.find?_eq_none]
        intro g hg hgk
        have hgkey := sameFile_trans (hwf.named g hg) hk hkey hgk (by rw [sameFile_comm]; exact hsame)
        rw [hnew g hg] at hgkey
        cases hgkey
      rw [locksOn, hfiles', List.find?_append, hnone, Option.none_or, find?_same hsame]
      rfl
    case isFalse hother =>
      rw [Bool.not_eq_true] at hother
      rw [locksOn, hfiles', List.find?_append, find?_other hother, List.find?_nil, Option.or_none, locksOn]

/-! ## `try_set` -/

/-- There is room for the lock: in the list of files, and among the locks of its file. -/
def Room (t : Table) (key : LockKey) (want : RecordLock) : Prop :=
  (t.position key = none → t.files.length < maxLockedFiles) ∧
    (install (t.locksOn key) want).1.length ≤ maxLocksPerFile

/-- What `try_set` does: it installs the lock where no other owner's is in the way, and otherwise nothing. -/
inductive TrySet (hasId : List UInt8 → Bool) (t : Table) (key : LockKey) (want : RecordLock) :
    KernelResult Bool → Table → Prop
  | granted {t' : Table} (hfree : ∀ l ∈ t.locksOn key, l.conflictsWith want = false) (hwf : t'.WellFormed hasId)
      (hwaiters : t'.waiters = t.waiters)
      (hlocks : ∀ k, k.Named hasId → t'.locksOn k =
        if key.sameFile k = true then (install (t.locksOn key) want).1 else t.locksOn k)
      (hroom : t.Room key want) :
      TrySet hasId t key want (.ok (install (t.locksOn key) want).2) t'
  | blocked (hblock : ∃ l ∈ t.locksOn key, l.conflictsWith want = true) : TrySet hasId t key want (.error .wouldBlock) t
  | full (hfree : ∀ l ∈ t.locksOn key, l.conflictsWith want = false) :
      TrySet hasId t key want (.error .resourceExhausted) t

theorem trySet_spec (hwf : t.WellFormed hasId) (hkey : key.Named hasId) (hwant : want.start < maxVal 64) :
    TrySet hasId t key want (t.trySet key want).1 (t.trySet key want).2 := by
  have hlt := start_lt_stop hwant
  unfold trySet
  split
  case h_1 idx hpos =>
    obtain ⟨pre, f, post, hfiles, rfl, hsame, hlocks⟩ := position_some hpos
    have hget : t.files[pre.length]? = some f := by
      rw [hfiles]
      simp
    have hf : f ∈ t.files := hfiles ▸ by simp
    unfold trySetAt
    rw [hget]
    dsimp only
    by_cases hany : f.locks.any (fun h => h.conflictsWith want) = true
    · rw [if_pos hany]
      rw [List.any_eq_true] at hany
      exact .blocked (hlocks ▸ hany)
    · rw [if_neg hany]
      have hfree : ∀ l ∈ f.locks, l.conflictsWith want = false := by
        intro l hl
        rw [Bool.not_eq_true, List.any_eq_false] at hany
        simpa using hany l hl
      by_cases hfull : maxLocksPerFile < (install f.locks want).1.length
      · rw [if_pos hfull]
        exact .full (hlocks ▸ hfree)
      · rw [if_neg hfull]
        obtain ⟨hs, -⟩ := install_spec (hwf.sound f hf) hlt hfree
        have hne : (install f.locks want).1 ≠ [] := absorb_ne_nil _ _
        obtain ⟨hwf', hlocks'⟩ := hwf.replace
          (u := { t with files := t.files.set pre.length { f with locks := (install f.locks want).1 } })
          hfiles hne hs (by simp [hfiles])
        rw [← hlocks]
        refine .granted (hlocks ▸ hfree) ?_ rfl ?_ ⟨?_, ?_⟩
        · rw [hlocks]
          exact hwf'
        · intro k hk
          rw [hlocks, hlocks' k hk, sameFile_congr (hwf.named f hf) hkey hk hsame]
        · intro hnone
          rw [hpos] at hnone
          cases hnone
        · rw [hlocks]
          exact Nat.le_of_not_lt hfull
  case h_2 hpos =>
    obtain ⟨hnew, hlocks⟩ := position_none hpos
    by_cases hfull : maxLockedFiles ≤ t.files.length
    · rw [if_pos hfull]
      refine .full ?_
      rw [hlocks]
      exact fun l hl => nomatch hl
    · rw [if_neg hfull]
      have hget : (t.files ++ [(⟨key, []⟩ : FileLocks)])[t.files.length]? = some ⟨key, []⟩ := by simp
      unfold trySetAt
      dsimp only
      rw [hget]
      have hroom : ¬ maxLocksPerFile < (install [] want).1.length := by
        rw [install_nil]
        exact Nat.not_lt.mpr (show 1 ≤ 256 by omega)
      dsimp only
      rw [List.any_nil, if_neg Bool.false_ne_true, if_neg hroom]
      have hs : Sound (install [] want).1 := by
        rw [install_nil]
        refine ⟨fun l hl => ?_, List.pairwise_singleton _ _⟩
        rw [List.mem_singleton] at hl
        rwa [hl]
      obtain ⟨hwf', hlocks'⟩ := hwf.push (u := { t with files := t.files ++ [⟨key, (install [] want).1⟩] })
        hkey hnew (absorb_ne_nil _ _) hs rfl
      have hset : (t.files ++ [(⟨key, []⟩ : FileLocks)]).set t.files.length ⟨key, (install [] want).1⟩
          = t.files ++ [⟨key, (install [] want).1⟩] := by simp
      rw [hset]
      have hgranted : TrySet hasId t key want (.ok (install (t.locksOn key) want).2)
          { t with files := t.files ++ [⟨key, (install [] want).1⟩] } := by
        refine .granted ?_ hwf' rfl ?_ ⟨fun _ => Nat.lt_of_not_le hfull, ?_⟩
        · rw [hlocks]
          exact fun l hl => nomatch hl
        · intro k hk
          rw [hlocks, hlocks' k hk]
          rfl
        · rw [hlocks]
          exact Nat.le_of_not_lt hroom
      rw [hlocks] at hgranted
      exact hgranted

/-! ## Unlocking -/

/-- What `unlock` does under the lock. -/
theorem unlockRange_spec (hwf : t.WellFormed hasId) (hkey : key.Named hasId) (hac : RangeOk a c) :
    (t.unlockRange key o a c).2.WellFormed hasId ∧ (t.unlockRange key o a c).2.waiters = t.waiters ∧
      (∀ k, k.Named hasId → (t.unlockRange key o a c).2.locksOn k =
        if key.sameFile k = true then clearOwn (t.locksOn key) o a c else t.locksOn k) ∧
      (t.unlockRange key o a c).1
        = (t.locksOn key).any fun h => decide (h.owner = o ∧ h.start < c ∧ a < h.stop) := by
  unfold unlockRange
  split
  case h_1 hpos =>
    obtain ⟨hnew, hlocks⟩ := position_none hpos
    refine ⟨hwf, rfl, fun k hk => ?_, by rw [hlocks]; rfl⟩
    split
    case isTrue hsame =>
      rw [hlocks, clearOwn, List.flatMap_nil]
      have hfind : t.files.find? (fun g => g.key.sameFile k) = none := by
        rw [List.find?_eq_none]
        intro g hg hgk
        have hgkey := sameFile_trans (hwf.named g hg) hk hkey hgk (by rw [sameFile_comm]; exact hsame)
        rw [hnew g hg] at hgkey
        cases hgkey
      rw [locksOn, hfind]
      rfl
    case isFalse => rfl
  case h_2 idx hpos =>
    obtain ⟨pre, f, post, hfiles, rfl, hsame, hlocks⟩ := position_some hpos
    have hget : t.files[pre.length]? = some f := by
      rw [hfiles]
      simp
    have hf : f ∈ t.files := hfiles ▸ by simp
    rw [hget]
    dsimp only
    rw [hlocks]
    have hcongr : ∀ k, k.Named hasId → f.key.sameFile k = key.sameFile k :=
      fun k hk => sameFile_congr (hwf.named f hf) hkey hk hsame
    by_cases hempty : (clearOwn f.locks o a c).isEmpty = true
    · obtain ⟨hwf', hlocks'⟩ := hwf.erase (u := { t with files := t.files.eraseIdx pre.length }) hfiles
        (by simp [hfiles, List.eraseIdx_append_of_length_le])
      rw [if_pos hempty]
      refine ⟨hwf', rfl, fun k hk => ?_, rfl⟩
      rw [hlocks' k hk, hcongr k hk, List.isEmpty_iff.mp hempty]
    · obtain ⟨hwf', hlocks'⟩ := hwf.replace
        (u := { t with files := t.files.set pre.length { f with locks := clearOwn f.locks o a c } }) hfiles
        (fun hnil => hempty (List.isEmpty_iff.mpr hnil)) ((hwf.sound f hf).clearOwn hac) (by simp [hfiles])
      rw [if_neg hempty]
      refine ⟨hwf', rfl, fun k hk => ?_, rfl⟩
      rw [hlocks' k hk, hcongr k hk]

/-- An unlock that reports nothing held changes no lock. -/
theorem clearOwn_of_none {locks : List RecordLock}
    (h : locks.any (fun h => decide (h.owner = o ∧ h.start < c ∧ a < h.stop)) = false) :
    clearOwn locks o a c = locks := by
  rw [List.any_eq_false] at h
  induction locks with
  | nil => rfl
  | cons x xs ih =>
    have hx : ¬(x.owner = o ∧ x.start < c ∧ a < x.stop) := by simpa using h x List.mem_cons_self
    rw [clearOwn, List.flatMap_cons, if_neg hx]
    exact congrArg (x :: ·) (ih fun y hy => h y (List.mem_cons_of_mem x hy))

/-! ## Waiters -/

theorem takeWaitersOnAll_files (t : Table) (keys : List LockKey) :
    (t.takeWaitersOnAll keys).2.files = t.files := by
  induction keys generalizing t with
  | nil => rfl
  | cons key keys ih => exact (ih _).trans rfl

/-! ## Releasing everywhere -/

theorem find?_released (owner : Nat) (files : List FileLocks)
    (hdist : files.Pairwise fun f g => f.key.sameFile g.key = false) (hnamed : ∀ f ∈ files, f.key.Named hasId)
    (hk : k.Named hasId) :
    ((((files.map fun f => { f with locks := f.locks.filter fun h => decide (h.owner ≠ owner) }).filter
        fun f => !f.locks.isEmpty).find? fun f => f.key.sameFile k).map FileLocks.locks).getD []
      = ((((files.find? fun f => f.key.sameFile k).map FileLocks.locks).getD []).filter
        fun h => decide (h.owner ≠ owner)) := by
  induction files with
  | nil => rfl
  | cons f fs ih =>
    rw [List.pairwise_cons] at hdist
    have ih := ih hdist.2 fun g hg => hnamed g (List.mem_cons_of_mem f hg)
    cases hsame : f.key.sameFile k with
    | true =>
      rw [find?_same hsame, List.map_cons]
      by_cases hempty : (f.locks.filter fun h => decide (h.owner ≠ owner)).isEmpty = true
      · rw [List.filter_cons_of_neg (by simp only [hempty, Bool.not_true, Bool.false_eq_true, not_false_eq_true])]
        have hnone : fs.find? (fun g => g.key.sameFile k) = none := by
          rw [List.find?_eq_none]
          intro g hg hgk
          have hfg := sameFile_trans (hnamed f List.mem_cons_self) hk (hnamed g (List.mem_cons_of_mem f hg))
            hsame (by rw [sameFile_comm]; exact hgk)
          rw [hdist.1 g hg] at hfg
          cases hfg
        rw [ih, hnone, Option.map_some, Option.getD_some, List.isEmpty_iff.mp hempty]
        rfl
      · rw [List.filter_cons_of_pos (by simpa using hempty), find?_same (by exact hsame)]
        rfl
    | false =>
      rw [find?_other hsame, List.map_cons, ← ih]
      by_cases hempty : (f.locks.filter fun h => decide (h.owner ≠ owner)).isEmpty = true
      · rw [List.filter_cons_of_neg (by simp only [hempty, Bool.not_true, Bool.false_eq_true, not_false_eq_true])]
      · rw [List.filter_cons_of_pos (by simpa using hempty), find?_other (by exact hsame)]

/-- What `release_everywhere` does to the locks. -/
theorem releaseEverywhere_spec (hwf : t.WellFormed hasId) (owner : Nat) :
    (t.releaseEverywhere owner).2.WellFormed hasId ∧
      ∀ k, k.Named hasId → (t.releaseEverywhere owner).2.locksOn k
        = (t.locksOn k).filter fun h => decide (h.owner ≠ owner) := by
  have hsound : ∀ f ∈ t.files, Sound (f.locks.filter fun h => decide (h.owner ≠ owner)) := by
    intro f hf
    have hs := hwf.sound f hf
    exact ⟨fun l hl => hs.ne l (List.mem_of_mem_filter hl), hs.separate.sublist List.filter_sublist⟩
  have hfiles : (t.releaseEverywhere owner).2.files
      = (t.files.map fun f => { f with locks := f.locks.filter fun h => decide (h.owner ≠ owner) }).filter
        fun f => !f.locks.isEmpty := takeWaitersOnAll_files _ _
  have hmem : ∀ g ∈ (t.releaseEverywhere owner).2.files, g.locks ≠ [] ∧
      ∃ f ∈ t.files, g = { f with locks := f.locks.filter fun h => decide (h.owner ≠ owner) } := by
    intro g hg
    rw [hfiles, List.mem_filter, List.mem_map] at hg
    obtain ⟨⟨f, hf, rfl⟩, hne⟩ := hg
    refine ⟨?_, f, hf, rfl⟩
    intro hnil
    rw [hnil] at hne
    cases hne
  refine ⟨⟨?_, ?_, fun g hg => (hmem g hg).1, ?_⟩, ?_⟩
  · intro g hg
    obtain ⟨-, f, hf, rfl⟩ := hmem g hg
    exact hwf.named f hf
  · rw [hfiles]
    refine List.Pairwise.sublist List.filter_sublist ?_
    rw [List.pairwise_map]
    exact hwf.distinct
  · intro g hg
    obtain ⟨-, f, hf, rfl⟩ := hmem g hg
    exact hsound f hf
  · intro k hk
    rw [locksOn, hfiles, locksOn]
    exact find?_released owner t.files hwf.distinct hwf.named hk

end Table

end SlateOS.Fs.Reclock
