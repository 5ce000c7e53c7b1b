/-
# SlateOS.Fs.Reclock.WaitingRuns -- no wake is lost, and a run in which no lock overtakes has no deadlock

Every section that can free a range takes the waiters of its file, so an entry that stays keeps the lock that is
in its way. The edges of an entry are the owners in its way when it parked: where no lock is granted over a
sleeping request, they are those in its way now, and the search of the stored edges is a search of the true ones.
-/
import SlateOS.Fs.Reclock.Waiting

namespace SlateOS.Fs.Reclock

open Foundation.MachineInt Foundation.Runs Kernel RecordLock LockKey
open Function (update update_self update_of_ne)

variable {hasId : List UInt8 → Bool} {t t' : Table} {key : LockKey} {want : RecordLock} {o b : Nat}
  {ty : RecordLockType} {locks : List RecordLock}

/-- An owner is in the way exactly when it holds a byte of the request incompatibly. -/
theorem blocks_iff (hne : ∀ l ∈ locks, l.start < l.stop) (hwant : want.start < want.stop) :
    (∃ l ∈ locks, l.owner = o ∧ l.conflictsWith want = true) ↔
      o ≠ want.owner ∧ ∃ b ty, want.Covers b ∧ Holds locks o b ty ∧ (ty = .write ∨ want.lockType = .write) := by
  constructor
  · rintro ⟨l, hl, rfl, hc⟩
    obtain ⟨howner, hov, hty⟩ := conflictsWith_iff.mp hc
    have hlne := hne l hl
    refine ⟨howner, max l.start want.start, l.lockType, ?_, ⟨l, hl, rfl, rfl, ?_⟩, hty⟩
    · unfold Covers
      omega
    · unfold Covers
      omega
  · rintro ⟨howner, b, ty, hb, ⟨l, hl, rfl, rfl, hlb⟩, hty⟩
    refine ⟨l, hl, rfl, conflictsWith_iff.mpr ⟨howner, ?_, hty⟩⟩
    unfold Covers at hb hlb
    omega

/-! ## What a section leaves -/

/-- A section under the table's lock that grants `grant`: the entries that stay keep what is in their way, apart
from what is granted, and the others are woken. -/
structure Settles (hasId : List UInt8 → Bool) (t : Table) (grant : Option (LockKey × RecordLock))
    (r : List Nat × Table) : Prop where
  wf : r.2.WellFormed hasId
  waiters : ∀ w ∈ r.2.waiters, w ∈ t.waiters
  woken : ∀ w ∈ t.waiters, w ∈ r.2.waiters ∨ w.task ∈ r.1
  held : ∀ w ∈ r.2.waiters, w.key.Named hasId → ∀ o b ty, Holds (t.locksOn w.key) o b ty →
    Holds (r.2.locksOn w.key) o b ty
  fresh : ∀ w ∈ r.2.waiters, w.key.Named hasId → ∀ o b ty, Holds (r.2.locksOn w.key) o b ty →
    Holds (t.locksOn w.key) o b ty ∨ ∃ key want, grant = some (key, want) ∧ key.sameFile w.key = true ∧
      o = want.owner ∧ want.Covers b ∧ ty = want.lockType
  grants : ∀ key want, grant = some (key, want) → Waits.Grants t key want ∧ key.Named hasId ∧ want.start < maxVal 64

namespace Settles

/-- The table is left alone. -/
theorem refl (hwf : t.WellFormed hasId) : Settles hasId t none ([], t) where
  wf := hwf
  waiters _ hw := hw
  woken _ hw := .inl hw
  held _ _ _ _ _ _ h := h
  fresh _ _ _ _ _ _ h := .inl h
  grants _ _ h := nomatch h

/-- A change to the locks of one file that wakes its waiters. -/
theorem onFile (hwf : t'.WellFormed hasId) (hwaiters : t'.waiters = t.waiters)
    (hlocks : ∀ k, k.Named hasId → key.sameFile k = false → t'.locksOn k = t.locksOn k) :
    Settles hasId t none (t'.takeWaitersOn key) where
  wf := hwf.of_files rfl
  waiters w hw := hwaiters ▸ List.mem_of_mem_filter hw
  woken w hw := by
    rw [← hwaiters] at hw
    cases hsame : w.key.sameFile key with
    | true => exact .inr (List.mem_map.mpr ⟨w, List.mem_filter.mpr ⟨hw, hsame⟩, rfl⟩)
    | false => exact .inl (List.mem_filter.mpr ⟨hw, by rw [hsame]; rfl⟩)
  held w hw hk o b ty h := by
    have hother := (List.mem_filter.mp hw).2
    rw [Bool.not_eq_true', sameFile_comm] at hother
    exact hlocks w.key hk hother ▸ h
  fresh w hw hk o b ty h := by
    have hother := (List.mem_filter.mp hw).2
    rw [Bool.not_eq_true', sameFile_comm] at hother
    exact .inl (hlocks w.key hk hother ▸ h)
  grants _ _ h := nomatch h

end Settles

/-- A granted lock that replaces nothing keeps what everybody holds. -/
theorem settles_granted (hwf : t.WellFormed hasId) (hkey : key.Named hasId) (hwant : want.start < maxVal 64)
    (hfree : ∀ l ∈ t.locksOn key, l.conflictsWith want = false) (hwf' : t'.WellFormed hasId)
    (hwaiters : t'.waiters = t.waiters)
    (hlocks : ∀ k, k.Named hasId → t'.locksOn k =
      if key.sameFile k = true then (install (t.locksOn key) want).1 else t.locksOn k)
    (hroom : t.Room key want) (hnone : (install (t.locksOn key) want).2 = false) :
    Settles hasId t (some (key, want)) ([], t') := by
  have hapart : ∀ l ∈ t.locksOn key, l.owner = want.owner → l.overlaps want = false := by
    intro l hl ho
    have hl := List.any_eq_false.mp hnone l hl
    simpa [ho] using hl
  obtain ⟨-, hholds⟩ := install_spec (Table.mem_locksOn_sound hwf key) (start_lt_stop hwant) hfree
  refine ⟨hwf', fun w hw => hwaiters ▸ hw, fun w hw => .inl (hwaiters ▸ hw), ?_, ?_, ?_⟩
  · intro w _ hk o b ty h
    rw [hlocks w.key hk]
    split
    case isTrue hs =>
      rw [hwf.locksOn_congr hkey hk hs] at h
      refine (hholds o b ty).mpr (.inr ⟨?_, h⟩)
      rintro ⟨rfl, hb⟩
      obtain ⟨l, hl, hlo, -, hlb⟩ := h
      have hov := hapart l hl hlo
      rw [Bool.eq_false_iff, ne_eq, overlaps_iff] at hov
      unfold Covers at hb hlb
      omega
    case isFalse => exact h
  · intro w _ hk o b ty h
    rw [hlocks w.key hk] at h
    split at h
    case isTrue hs =>
      obtain ⟨ho, hb, ht⟩ | ⟨-, h⟩ := (hholds o b ty).mp h
      · exact .inr ⟨key, want, rfl, hs, ho, hb, ht⟩
      · rw [hwf.locksOn_congr hkey hk hs]
        exact .inl h
    case isFalse => exact .inl h
  · rintro _ _ ⟨⟩
    exact ⟨⟨hfree, hapart, hroom⟩, hkey, hwant⟩

/-- `set` grants its lock or leaves the table alone. -/
theorem settles_set (hwf : t.WellFormed hasId) (hkey : key.Named hasId) (hwant : want.start < maxVal 64) :
    ∃ grant, (grant = none ∨ grant = some (key, want)) ∧ Settles hasId t grant (t.set key want).2 := by
  have htry := Table.trySet_spec hwf hkey hwant
  unfold Table.set
  dsimp only
  generalize t.trySet key want = tried at htry
  obtain ⟨r, t'⟩ := tried
  dsimp only at htry ⊢
  cases htry with
  | granted hfree hwf' hwaiters hlocks hroom =>
    cases hreplaced : (install (t.locksOn key) want).2 with
    | true =>
      refine ⟨none, .inl rfl, .onFile hwf' hwaiters fun k hk hother => ?_⟩
      rw [hlocks k hk, if_neg (by rw [hother]; exact Bool.false_ne_true)]
    | false => exact ⟨some (key, want), .inr rfl, settles_granted hwf hkey hwant hfree hwf' hwaiters hlocks hroom hreplaced⟩
  | blocked | full => exact ⟨none, .inl rfl, .refl hwf⟩

/-- `unlock` takes locks of one file. -/
theorem settles_unlock (hwf : t.WellFormed hasId) (hkey : key.Named hasId) (owner start len : Nat) :
    Settles hasId t none (t.unlock key owner start len) := by
  have hac : RangeOk start (Table.rangeStop start len) := by
    unfold RangeOk Table.rangeStop saturatingAdd
    split <;> omega
  obtain ⟨hwf', hwaiters, hlocks, hany⟩ := Table.unlockRange_spec (o := owner) hwf hkey hac
  have hother : ∀ k, k.Named hasId → key.sameFile k = false →
      (t.unlockRange key owner start (Table.rangeStop start len)).2.locksOn k = t.locksOn k := by
    intro k hk hs
    rw [hlocks k hk, if_neg (by rw [hs]; exact Bool.false_ne_true)]
  unfold Table.unlock
  dsimp only
  split
  case isTrue => exact .onFile hwf' hwaiters hother
  case isFalse hnone =>
    rw [Bool.not_eq_true, hany] at hnone
    have hsame : ∀ k, k.Named hasId →
        (t.unlockRange key owner start (Table.rangeStop start len)).2.locksOn k = t.locksOn k := by
      intro k hk
      rw [hlocks k hk, Table.clearOwn_of_none hnone]
      split
      case isTrue hs => exact (hwf.locksOn_congr hkey hk hs).symm
      case isFalse => rfl
    refine ⟨hwf', fun w hw => hwaiters ▸ hw, fun w hw => .inl (hwaiters ▸ hw), ?_, ?_, fun _ _ h => nomatch h⟩
    · intro w _ hk o b ty h
      rwa [hsame w.key hk]
    · intro w _ hk o b ty h
      rw [hsame w.key hk] at h
      exact .inl h

/-- Taking the waiters of several files. -/
theorem takeWaitersOnAll_spec (t : Table) (keys : List LockKey) :
    (∀ w, w ∈ (t.takeWaitersOnAll keys).2.waiters ↔ w ∈ t.waiters ∧ ∀ k ∈ keys, w.key.sameFile k = false) ∧
      ∀ w ∈ t.waiters, w ∈ (t.takeWaitersOnAll keys).2.waiters ∨ w.task ∈ (t.takeWaitersOnAll keys).1 := by
  induction keys generalizing t with
  | nil => exact ⟨fun w => ⟨fun hw => ⟨hw, fun k hk => nomatch hk⟩, And.left⟩, fun w hw => .inl hw⟩
  | cons key keys ih =>
    obtain ⟨hstay, hwoken⟩ := ih (t.takeWaitersOn key).2
    rw [Table.takeWaitersOnAll]
    refine ⟨fun w => ?_, fun w hw => ?_⟩
    · rw [hstay w, Table.takeWaitersOn, List.mem_filter, Bool.not_eq_true', List.forall_mem_cons, and_assoc]
    · cases hsame : w.key.sameFile key with
      | true =>
        have htaken : w.task ∈ (t.takeWaitersOn key).1 :=
          List.mem_map.mpr ⟨w, List.mem_filter.mpr ⟨hw, hsame⟩, rfl⟩
        exact .inr (List.mem_append_left _ htaken)
      | false =>
        have hleft : w ∈ (t.takeWaitersOn key).2.waiters := List.mem_filter.mpr ⟨hw, by rw [hsame]; rfl⟩
        exact (hwoken w hleft).imp id (List.mem_append_right _)

/-- Releasing an owner's locks takes locks of the files it held some on. -/
theorem settles_releaseEverywhere (hwf : t.WellFormed hasId) (owner : Nat) :
    Settles hasId t none (t.releaseEverywhere owner) := by
  obtain ⟨hwf', hlocks⟩ := Table.releaseEverywhere_spec hwf owner
  obtain ⟨hstay, hwoken⟩ := takeWaitersOnAll_spec
    { t with
      files := (t.files.map fun f => { f with locks := f.locks.filter fun h => decide (h.owner ≠ owner) }).filter
        (fun f => !f.locks.isEmpty) } (t.heldBy owner)
  -- an entry that stays waits on a file that the owner held nothing on
  have hkept : ∀ w ∈ (t.releaseEverywhere owner).2.waiters, w.key.Named hasId →
      (t.releaseEverywhere owner).2.locksOn w.key = t.locksOn w.key := by
    intro w hw hk
    rw [hlocks _ hk, List.filter_eq_self]
    intro l hl
    refine decide_eq_true fun ho => ?_
    rw [Table.locksOn] at hl
    cases hfind : t.files.find? fun f => f.key.sameFile w.key with
    | none =>
      rw [hfind] at hl
      cases hl
    | some f =>
      rw [hfind] at hl
      have hheld : f.key ∈ t.heldBy owner := by
        refine List.mem_map.mpr ⟨f, List.mem_filter.mpr ⟨List.mem_of_find?_eq_some hfind, ?_⟩, rfl⟩
        exact List.any_eq_true.mpr ⟨l, hl, decide_eq_true ho⟩
      have hother := ((hstay w).mp hw).2 f.key hheld
      have hsame : f.key.sameFile w.key = true :=
        List.find?_some (p := fun f : FileLocks => f.key.sameFile w.key) hfind
      rw [sameFile_comm, hsame] at hother
      cases hother
  refine ⟨hwf', fun w hw => ((hstay w).mp hw).1, hwoken, ?_, ?_, fun _ _ h => by cases h⟩
  · intro w hw hk o b ty h
    rwa [hkept w hw hk]
  · intro w hw hk o b ty h
    rw [hkept w hw hk] at h
    exact .inl h

/-! ## The invariant -/

namespace Waits

variable {s s' : Waits} {task : Nat} {req : Request}

/-- The stored edges between process owners. -/
def Edge (ws : List Waiter) (o o' : Nat) : Prop :=
  ownerIsOfd o = false ∧ ownerIsOfd o' = false ∧ ∃ w ∈ ws, w.owner = o ∧ o' ∈ w.blockedOn

/-- What every fair run keeps. -/
structure Inv (hasId : List UInt8 → Bool) (s : Waits) : Prop where
  wf : s.table.WellFormed hasId
  called : ∀ task c, s.calls task = some c → c.1.key.Named hasId ∧ c.1.want.start < maxVal 64
  /-- An entry is that of a call under way. -/
  entry : ∀ w ∈ s.table.waiters, ∃ c, s.calls w.task = some c ∧ w.pid = c.1.pid ∧ w.owner = c.1.want.owner ∧
    w.key = c.1.key
  /-- An entry has a lock in its way. -/
  blocked : ∀ w ∈ s.table.waiters, ∀ c, s.calls w.task = some c →
    ∃ l ∈ s.table.locksOn c.1.key, l.conflictsWith c.1.want = true
  /-- A sleeping task has an entry. -/
  asleep : ∀ task req, s.Asleep task req → ∃ w ∈ s.table.waiters, w.task = task
  /-- The entry of a sleeping task names every process owner in its way. -/
  current : ∀ w ∈ s.table.waiters, ∀ req, s.Asleep w.task req → ownerIsOfd w.owner = false →
    ∀ l ∈ s.table.locksOn req.key, l.conflictsWith req.want = true → ownerIsOfd l.owner = false →
      l.owner ∈ w.blockedOn
  acyclic : ∀ o, ¬Relation.TransGen (Edge s.table.waiters) o o

theorem Inv.start (h : s.Start) : s.Inv hasId := by
  obtain ⟨hfiles, hwaiters, hcalls, -⟩ := h
  have hnone : ∀ w, w ∉ s.table.waiters := by
    rw [hwaiters]
    exact fun w hw => nomatch hw
  refine ⟨⟨?_, ?_, ?_, ?_⟩, ?_, ?_, ?_, ?_, ?_, ?_⟩
  · exact hfiles ▸ fun f hf => nomatch hf
  · exact hfiles ▸ .nil
  · exact hfiles ▸ fun f hf => nomatch hf
  · exact hfiles ▸ fun f hf => nomatch hf
  · intro task c hc
    rw [hcalls] at hc
    cases hc
  · exact fun w hw => absurd hw (hnone w)
  · exact fun w hw => absurd hw (hnone w)
  · intro task req h
    rw [Asleep, hcalls] at h
    cases h.1
  · exact fun w hw => absurd hw (hnone w)
  · intro o h
    obtain ⟨_, -, -, -, w, hw, -⟩ := Relation.TransGen.tail'_iff.mp h
    exact hnone w hw

/-- **What the invariant promises.** -/
theorem Inv.promises (h : s.Inv hasId) : s.NoLostWake ∧ s.NoDeadlock := by
  refine ⟨fun task req hasleep => ?_, fun o hcycle => h.acyclic o (Relation.TransGen.mono ?_ o o hcycle)⟩
  · obtain ⟨w, hw, rfl⟩ := h.asleep task req hasleep
    obtain ⟨l, hl, hc⟩ := h.blocked w hw _ hasleep.1
    exact ⟨⟨w, hw, rfl⟩, l, hl, (conflictsWith_iff.mp hc).1, hc⟩
  · rintro o o' ⟨ho, ho', task, req, hasleep, rfl, l, hl, rfl, hc⟩
    obtain ⟨w, hw, rfl⟩ := h.asleep task req hasleep
    obtain ⟨c, hcall, -, howner, -⟩ := h.entry w hw
    rw [hasleep.1, Option.some.injEq] at hcall
    subst hcall
    exact ⟨ho, ho', w, hw, howner, h.current w hw req hasleep (howner ▸ ho) l hl hc ho'⟩

/-! ## Steps -/

/-- A section settles: its wakes and its table are taken over. -/
theorem Inv.settle (h : s.Inv hasId) {grant : Option (LockKey × RecordLock)} {r : List Nat × Table}
    (hr : Settles hasId s.table grant r)
    (hfair : ∀ key want, grant = some (key, want) → ¬s.Overtakes key want) : (s.after r).Inv hasId := by
  have hnamed : ∀ w ∈ r.2.waiters, ∀ c, s.calls w.task = some c →
      w.key = c.1.key ∧ c.1.key.Named hasId ∧ c.1.want.start < c.1.want.stop := by
    intro w hw c hc
    obtain ⟨c', hc', -, -, hkey⟩ := h.entry w (hr.waiters w hw)
    rw [hc, Option.some.injEq] at hc'
    subst hc'
    exact ⟨hkey, (h.called _ _ hc).1, start_lt_stop (h.called _ _ hc).2⟩
  refine ⟨hr.wf, h.called, fun w hw => h.entry w (hr.waiters w hw), ?_, ?_, ?_, ?_⟩
  · intro w hw c hc
    obtain ⟨hkey, hk, hwant⟩ := hnamed w hw c hc
    have hb := h.blocked w (hr.waiters w hw) c hc
    rw [conflict_iff (Table.mem_locksOn_sound h.wf _).ne hwant] at hb
    obtain ⟨o, b, ty, ho, hcov, hheld, hty⟩ := hb
    refine (conflict_iff (Table.mem_locksOn_sound hr.wf _).ne hwant).mpr ?_
    exact ⟨o, b, ty, ho, hcov, hkey ▸ hr.held w hw (hkey ▸ hk) o b ty (hkey ▸ hheld), hty⟩
  · rintro task req ⟨hcall, hwake⟩
    rw [after, List.mem_append, not_or] at hwake
    obtain ⟨w, hw, rfl⟩ := h.asleep task req ⟨hcall, hwake.1⟩
    exact ⟨w, (hr.woken w hw).resolve_right hwake.2, rfl⟩
  · rintro w hw req ⟨hcall, hwake⟩ howner l hl hc hproc
    rw [after, List.mem_append, not_or] at hwake
    obtain ⟨hkey, hk, hwant⟩ := hnamed w hw _ hcall
    have hcurrent := h.current w (hr.waiters w hw) req ⟨hcall, hwake.1⟩ howner
    have hblocks := (blocks_iff (Table.mem_locksOn_sound hr.wf _).ne hwant).mp ⟨l, hl, rfl, hc⟩
    obtain ⟨hne, b, ty, hcov, hheld, hty⟩ := hblocks
    have hold : Holds (s.table.locksOn req.key) l.owner b ty → l.owner ∈ w.blockedOn := by
      intro hb
      obtain ⟨l', hl', hlo, hc'⟩ :=
        (blocks_iff (Table.mem_locksOn_sound h.wf _).ne hwant).mpr ⟨hne, b, ty, hcov, hb, hty⟩
      exact hlo ▸ hcurrent l' hl' hc' (hlo ▸ hproc)
    obtain hb | ⟨key, want, hgrant, hs, ho, hb, rfl⟩ := hr.fresh w hw (hkey ▸ hk) _ b ty (hkey ▸ hheld)
    · exact hold (hkey ▸ hb)
    · by_contra hnot
      refine hfair key want hgrant ⟨(hr.grants key want hgrant).1, ho ▸ hproc, w.task, req, ⟨hcall, hwake.1⟩, ?_,
        hkey ▸ hs, ?_, ?_⟩
      · obtain ⟨c', hc', -, howner', -⟩ := h.entry w (hr.waiters w hw)
        obtain rfl := Option.some.inj (hcall.symm.trans hc')
        exact howner' ▸ howner
      · refine conflictsWith_iff.mpr ⟨ho ▸ hne, ?_, hty⟩
        dsimp only [Covers] at hcov hb
        omega
      · intro l' hl' hlo
        by_contra hc'
        rw [Bool.not_eq_false] at hc'
        have hin := hcurrent l' hl' hc' (by rw [hlo, ← ho]; exact hproc)
        rw [hlo, ← ho] at hin
        exact hnot hin
  · intro o hcycle
    refine h.acyclic o (Relation.TransGen.mono ?_ o o hcycle)
    rintro o o' ⟨ho, ho', w, hw, hw'⟩
    exact ⟨ho, ho', w, hr.waiters w hw, hw'⟩

/-- Calls end, and their entries go. -/
theorem Inv.drop (h : s.Inv hasId) (hfiles : s'.table.files = s.table.files)
    (hwaiters : ∀ w, w ∈ s'.table.waiters ↔ w ∈ s.table.waiters ∧ s'.calls w.task = s.calls w.task)
    (hcalls : ∀ task c, s'.calls task = some c → s.calls task = some c) (hwaking : s'.waking = s.waking) :
    s'.Inv hasId := by
  have hlocks := Table.locksOn_of_files hfiles
  have hasleep : ∀ task req, s'.Asleep task req → s.Asleep task req :=
    fun task req ha => ⟨hcalls _ _ ha.1, hwaking ▸ ha.2⟩
  refine ⟨h.wf.of_files hfiles, fun task c hc => h.called task c (hcalls task c hc), ?_, ?_, ?_, ?_, ?_⟩
  · intro w hw
    obtain ⟨hw, hsame⟩ := (hwaiters w).mp hw
    rw [hsame]
    exact h.entry w hw
  · intro w hw c hc
    rw [hlocks]
    exact h.blocked w ((hwaiters w).mp hw).1 c (hcalls _ _ hc)
  · intro task req ha
    obtain ⟨w, hw, rfl⟩ := h.asleep task req (hasleep _ _ ha)
    exact ⟨w, (hwaiters w).mpr ⟨hw, ha.1.trans (hasleep _ _ ha).1.symm⟩, rfl⟩
  · intro w hw req ha
    rw [hlocks]
    exact h.current w ((hwaiters w).mp hw).1 req (hasleep _ _ ha)
  · intro o hcycle
    refine h.acyclic o (Relation.TransGen.mono ?_ o o hcycle)
    rintro o o' ⟨ho, ho', w, hw, hw'⟩
    exact ⟨ho, ho', w, ((hwaiters w).mp hw).1, hw'⟩

/-- A parked call passes again. -/
theorem Inv.rouse (h : s.Inv hasId) {waking : List Nat} (hwaking : ∀ t, t ≠ task → t ∈ s.waking → t ∈ waking) :
    Inv hasId { s with calls := s.roused task, waking := waking } := by
  have hcalls : ∀ t c, s.roused task t = some c → ∃ b, s.calls t = some (c.1, b) ∧ (t = task → c.2 = false) ∧
      (t ≠ task → b = c.2) := by
    intro t c hc
    by_cases ht : t = task
    · subst ht
      rw [roused, update_self, Option.map_eq_some_iff] at hc
      obtain ⟨c', hc', rfl⟩ := hc
      exact ⟨c'.2, hc', fun _ => rfl, fun hne => absurd rfl hne⟩
    · rw [roused, update_of_ne ht] at hc
      exact ⟨c.2, hc, fun heq => absurd heq ht, fun _ => rfl⟩
  have hasleep : ∀ t req, Asleep { s with calls := s.roused task, waking := waking } t req → s.Asleep t req := by
    rintro t req ⟨hc, hwake⟩
    obtain ⟨b, hb, hself, hother⟩ := hcalls t _ hc
    have ht : t ≠ task := fun heq => nomatch hself heq
    rw [hother ht] at hb
    exact ⟨hb, fun hin => hwake (hwaking t ht hin)⟩
  refine ⟨h.wf, ?_, ?_, ?_, fun t req ha => h.asleep t req (hasleep t req ha),
    fun w hw req ha => h.current w hw req (hasleep _ req ha), h.acyclic⟩
  · intro t c hc
    obtain ⟨b, hb, -⟩ := hcalls t c hc
    exact h.called t (c.1, b) hb
  · intro w hw
    obtain ⟨c, hc, hentry⟩ := h.entry w hw
    by_cases ht : w.task = task
    · refine ⟨(c.1, false), ?_, hentry⟩
      show s.roused task w.task = _
      rw [roused, ht, update_self, ← ht, hc]
      rfl
    · exact ⟨c, (update_of_ne ht _ _).trans hc, hentry⟩
  · intro w hw c hc
    obtain ⟨b, hb, -⟩ := hcalls _ c hc
    exact h.blocked w hw (c.1, b) hb

/-- A call begins. -/
theorem Inv.call (h : s.Inv hasId) (hnone : s.calls task = none) (hkey : req.key.Named hasId)
    (hwant : req.want.start < maxVal 64) :
    Inv hasId { s with calls := update s.calls task (some (req, false)) } := by
  have hother : ∀ w ∈ s.table.waiters, update s.calls task (some (req, false)) w.task = s.calls w.task := by
    intro w hw
    refine update_of_ne ?_ _ _
    rintro rfl
    obtain ⟨c, hc, -⟩ := h.entry w hw
    rw [hnone] at hc
    cases hc
  have hasleep : ∀ t r, Asleep { s with calls := update s.calls task (some (req, false)) } t r →
      s.Asleep t r := by
    rintro t r ⟨hc, hwake⟩
    refine ⟨?_, hwake⟩
    by_cases ht : t = task
    · subst ht
      dsimp only at hc
      rw [update_self] at hc
      cases hc
    · exact (update_of_ne ht _ _).symm.trans hc
  refine ⟨h.wf, ?_, ?_, ?_, fun t r ha => h.asleep t r (hasleep t r ha),
    fun w hw r ha => h.current w hw r (hasleep _ r ha), h.acyclic⟩
  · intro t c hc
    by_cases ht : t = task
    · subst ht
      dsimp only at hc
      rw [update_self, Option.some.injEq] at hc
      subst hc
      exact ⟨hkey, hwant⟩
    · exact h.called t c ((update_of_ne ht _ _).symm.trans hc)
  · intro w hw
    dsimp only
    rw [hother w hw]
    exact h.entry w hw
  · intro w hw c hc
    exact h.blocked w hw c ((hother w hw).symm.trans hc)

/-- A call that is not under way registers. -/
def parked (s : Waits) (task : Nat) (req : Request) : Waits where
  table := { s.table with
    waiters := s.table.waiters
      ++ [⟨task, req.pid, req.want.owner, req.key, s.table.blockers req.key req.want⟩] }
  calls := update s.calls task (some (req, true))
  waking := s.waking

/-- An owner is in the way exactly when it is among the blockers. -/
theorem mem_blockers {t : Table} {o : Nat} :
    o ∈ t.blockers key want ↔ ∃ l ∈ t.locksOn key, l.owner = o ∧ l.conflictsWith want = true := by
  have hfold : ∀ (ls : List RecordLock) (out : List Nat),
      o ∈ ls.foldl (fun out h => if h.owner ∈ out then out else out ++ [h.owner]) out ↔
        o ∈ out ∨ ∃ l ∈ ls, l.owner = o := by
    intro ls
    induction ls with
    | nil => exact fun out => ⟨.inl, fun h => h.resolve_right fun ⟨l, hl, _⟩ => nomatch hl⟩
    | cons l ls ih =>
      intro out
      rw [List.foldl_cons, ih, List.exists_mem_cons_iff]
      split
      case isTrue hin =>
        refine or_congr_right' fun hnot => ⟨.inr, fun h => h.resolve_left ?_⟩
        rintro rfl
        exact hnot hin
      case isFalse =>
        rw [List.mem_append, List.mem_singleton, or_assoc, eq_comm (a := o)]
  rw [Table.blockers, hfold]
  constructor
  · rintro (hnil | ⟨l, hl, ho⟩)
    · cases hnil
    · obtain ⟨hl, hc⟩ := List.mem_filter.mp hl
      exact ⟨l, hl, ho, hc⟩
  · rintro ⟨l, hl, ho, hc⟩
    exact .inr ⟨l, List.mem_filter.mpr ⟨hl, hc⟩, ho⟩

/-- A call parks behind a lock in its way where the search finds no deadlock. -/
theorem Inv.park (h : s.Inv hasId) (hnone : s.calls task = none) (hkey : req.key.Named hasId)
    (hwant : req.want.start < maxVal 64) (hblock : ∃ l ∈ s.table.locksOn req.key, l.conflictsWith req.want = true)
    (hsearch : s.table.wouldDeadlock req.want.owner (s.table.blockers req.key req.want) = false) :
    (s.parked task req).Inv hasId := by
  have hfiles : (s.parked task req).table.files = s.table.files := rfl
  have hlocks := Table.locksOn_of_files hfiles
  have hother : ∀ w ∈ s.table.waiters, w.task ≠ task := by
    rintro w hw rfl
    obtain ⟨c, hc, -⟩ := h.entry w hw
    rw [hnone] at hc
    cases hc
  have hself : (s.parked task req).calls task = some (req, true) := update_self _ _ _
  have hcalls : ∀ t, t ≠ task → (s.parked task req).calls t = s.calls t :=
    fun t ht => update_of_ne ht _ _
  have hmem : ∀ w, w ∈ (s.parked task req).table.waiters ↔ w ∈ s.table.waiters ∨
      w = ⟨task, req.pid, req.want.owner, req.key, s.table.blockers req.key req.want⟩ := by
    intro w
    rw [parked, List.mem_append, List.mem_singleton]
  refine ⟨h.wf.of_files hfiles, ?_, ?_, ?_, ?_, ?_, ?_⟩
  · intro t c hc
    by_cases ht : t = task
    · subst ht
      obtain rfl := Option.some.inj (hself.symm.trans hc)
      exact ⟨hkey, hwant⟩
    · exact h.called t c ((hcalls t ht).symm.trans hc)
  · intro w hw
    obtain hw | rfl := (hmem w).mp hw
    · rw [hcalls _ (hother w hw)]
      exact h.entry w hw
    · exact ⟨_, hself, rfl, rfl, rfl⟩
  · intro w hw c hc
    rw [hlocks]
    obtain hw | rfl := (hmem w).mp hw
    · exact h.blocked w hw c ((hcalls _ (hother w hw)).symm.trans hc)
    · obtain rfl := Option.some.inj (hself.symm.trans hc)
      exact hblock
  · rintro t r ⟨hc, hwake⟩
    by_cases ht : t = task
    · exact ⟨_, (hmem _).mpr (.inr rfl), ht.symm⟩
    · obtain ⟨w, hw, hwt⟩ := h.asleep t r ⟨(hcalls t ht).symm.trans hc, hwake⟩
      exact ⟨w, (hmem w).mpr (.inl hw), hwt⟩
  · rintro w hw r ⟨hc, hwake⟩ howner l hl hconf hproc
    rw [hlocks] at hl
    obtain hw | rfl := (hmem w).mp hw
    · exact h.current w hw r ⟨(hcalls _ (hother w hw)).symm.trans hc, hwake⟩ howner l hl hconf hproc
    · have heq := Option.some.inj (hself.symm.trans hc)
      rw [Prod.mk.injEq] at heq
      obtain ⟨rfl, -⟩ := heq
      exact mem_blockers.mpr ⟨l, hl, rfl, hconf⟩
  · by_cases hofd : ownerIsOfd req.want.owner = true
    · -- an open file description takes no part
      intro o hcycle
      refine h.acyclic o (Relation.TransGen.mono ?_ o o hcycle)
      rintro o o' ⟨ho, ho', w, hw, rfl, hw'⟩
      obtain hw | rfl := (hmem w).mp hw
      · exact ⟨ho, ho', w, hw, rfl, hw'⟩
      · rw [hofd] at ho
        cases ho
    · rw [Bool.not_eq_true] at hofd
      obtain ⟨S, hS, hin⟩ := escapes_of_wouldDeadlock hofd hsearch
      refine acyclic_extend (S := fun o => S o) h.acyclic ?_ hS.off ?_
      · rintro o o' ho ⟨-, ho', w, hw, rfl, hw'⟩
        have hedge : o' ∈ Table.edgesOf s.table.waiters w.owner :=
          List.mem_flatMap.mpr ⟨w, List.mem_filter.mpr ⟨hw, decide_eq_true rfl⟩, hw'⟩
        refine (hS.closed _ ho o' hedge).resolve_left ?_
        rw [ho']
        exact Bool.false_ne_true
      · rintro o o' ⟨ho, ho', w, hw, rfl, hw'⟩
        obtain hw | rfl := (hmem w).mp hw
        · exact .inl ⟨ho, ho', w, hw, rfl, hw'⟩
        · refine .inr ⟨rfl, (hin o' hw').resolve_left ?_⟩
          rw [ho']
          exact Bool.false_ne_true

/-- The call of a task is over. -/
def left (s : Waits) (task : Nat) : Waits where
  table := s.table.removeWaiter task
  calls := update s.calls task none
  waking := s.waking

theorem left_self : (s.left task).calls task = none := update_self _ _ _

theorem left_calls {t : Nat} {c : Request × Bool} (hc : (s.left task).calls t = some c) : s.calls t = some c := by
  by_cases ht : t = task
  · rw [ht, left_self] at hc
    cases hc
  · exact (update_of_ne ht _ _).symm.trans hc

theorem Inv.leave (h : s.Inv hasId) (task : Nat) : (s.left task).Inv hasId := by
  refine h.drop rfl (fun w => ?_) (fun t c hc => left_calls hc) rfl
  rw [left, Table.removeWaiter, List.mem_filter, decide_eq_true_eq]
  refine and_congr_right fun hw => ⟨fun hne => update_of_ne hne _ _, fun heq hwt => ?_⟩
  obtain ⟨c, hc, -⟩ := h.entry w hw
  dsimp only at heq
  rw [hwt, update_self, ← hwt, hc] at heq
  cases heq

/-- A pass of `set_wait` does what `set` does where that is not refused, and else it gives up or registers. -/
theorem setWaitPass_cases (hwf : t.WellFormed hasId) {task : Nat} {req : Request} (signal : Bool)
    (hkey : req.key.Named hasId) (hwant : req.want.start < maxVal 64) :
    (∃ r, t.setWaitPass task req signal = (some r, ((t.removeWaiter task).set req.key req.want).2)) ∨
      (∃ r, t.setWaitPass task req signal = (some r, [], t.removeWaiter task)) ∨
        (t.setWaitPass task req signal = (none, [], { t.removeWaiter task with
            waiters := (t.removeWaiter task).waiters
              ++ [⟨task, req.pid, req.want.owner, req.key, (t.removeWaiter task).blockers req.key req.want⟩] }) ∧
          (∃ l ∈ (t.removeWaiter task).locksOn req.key, l.conflictsWith req.want = true) ∧
          (t.removeWaiter task).wouldDeadlock req.want.owner ((t.removeWaiter task).blockers req.key req.want)
            = false) := by
  have hwf' : (t.removeWaiter task).WellFormed hasId := hwf.of_files rfl
  have htry := Table.trySet_spec hwf' hkey hwant
  unfold Table.setWaitPass Table.set
  dsimp only
  generalize (t.removeWaiter task).trySet req.key req.want = tried at htry
  obtain ⟨r, t'⟩ := tried
  dsimp only at htry ⊢
  cases htry with
  | granted =>
    refine .inl ⟨.ok (), ?_⟩
    cases (install ((t.removeWaiter task).locksOn req.key) req.want).2 <;> rfl
  | full => exact .inl ⟨.error .resourceExhausted, rfl⟩
  | blocked hblock =>
    right
    dsimp only
    by_cases hsignal : signal = true
    · exact .inl ⟨_, if_pos hsignal⟩
    · rw [if_neg hsignal]
      by_cases hdead : (t.removeWaiter task).wouldDeadlock req.want.owner
          ((t.removeWaiter task).blockers req.key req.want) = true
      · exact .inl ⟨_, if_pos hdead⟩
      · rw [if_neg hdead]
        by_cases hfull : maxWaiters ≤ (t.removeWaiter task).waiters.length
        · exact .inl ⟨_, if_pos hfull⟩
        · rw [if_neg hfull]
          exact .inr ⟨rfl, hblock, Bool.eq_false_iff.mpr hdead⟩

/-- One pass of a call: it is over, with a lock granted or without, or it parks. -/
theorem Inv.look (h : s.Inv hasId) (signal : Bool) (hcall : s.calls task = some (req, false))
    (hfair : ¬s.Overtakes req.key req.want) :
    Inv hasId
      { table := (s.table.setWaitPass task req signal).2.2
        calls := update s.calls task
          (if (s.table.setWaitPass task req signal).1.isNone then some (req, true) else none)
        waking := s.waking ++ (s.table.setWaitPass task req signal).2.1 } := by
  obtain ⟨hkey, hwant⟩ := h.called task _ hcall
  have hleft := h.leave task
  have hfair' : ¬(s.left task).Overtakes req.key req.want := by
    rintro ⟨hgrants, hproc, t, r, ⟨hc, hwake⟩, hrest⟩
    exact hfair ⟨hgrants, hproc, t, r, ⟨left_calls hc, hwake⟩, hrest⟩
  obtain ⟨r, hpass⟩ | ⟨r, hpass⟩ | ⟨hpass, hblock, hsearch⟩ := setWaitPass_cases h.wf signal hkey hwant
  · rw [hpass]
    obtain ⟨grant, hgrant, hset⟩ := settles_set hleft.wf hkey hwant
    refine hleft.settle hset fun key want heq => ?_
    obtain rfl | rfl := hgrant
    · cases heq
    · cases heq
      exact hfair'
  · rw [hpass]
    exact hleft.settle (.refl hleft.wf) fun _ _ hg => nomatch hg
  · rw [hpass]
    have hpark := hleft.park left_self hkey hwant hblock hsearch
    have hcalls : (((s.left task).parked task req)).calls = update s.calls task (some (req, true)) :=
      Function.update_idem _ _ _
    have hstate : (s.left task).parked task req =
        { table := { s.table.removeWaiter task with
            waiters := (s.table.removeWaiter task).waiters ++ [⟨task, req.pid, req.want.owner, req.key,
              (s.table.removeWaiter task).blockers req.key req.want⟩] }
          calls := update s.calls task (some (req, true))
          waking := s.waking } := by
      rw [← hcalls]
      rfl
    rw [hstate] at hpark
    simpa only [Option.isNone_none, if_true, List.append_nil] using hpark

/-- The calls of an exited process are gone, and their entries with them. -/
theorem Inv.exit (h : s.Inv hasId) (pid : Nat) :
    Inv hasId
      { table :=
          if pid ≠ 0 then { s.table with waiters := s.table.waiters.filter fun w => decide (w.pid ≠ pid) } else s.table
        calls := fun task => (s.calls task).filter fun c => decide (pid = 0 ∨ c.1.pid ≠ pid)
        waking := s.waking } := by
  refine h.drop ?_ (fun w => ?_) (fun t c hc => (Option.filter_eq_some_iff.mp hc).1) rfl
  · split <;> rfl
  · have hstay : ∀ w ∈ s.table.waiters,
        ((s.calls w.task).filter fun c => decide (pid = 0 ∨ c.1.pid ≠ pid)) = s.calls w.task ↔
          pid = 0 ∨ w.pid ≠ pid := by
      intro w hw
      obtain ⟨c, hc, hpid, -⟩ := h.entry w hw
      rw [hc, hpid, Option.filter_eq_some_iff, decide_eq_true_eq, and_iff_right rfl]
    by_cases hzero : pid = 0
    · rw [if_neg (not_not_intro hzero)]
      exact ⟨fun hw => ⟨hw, (hstay w hw).mpr (.inl hzero)⟩, And.left⟩
    · rw [if_pos hzero, List.mem_filter, decide_eq_true_eq]
      exact and_congr_right fun hw => ((hstay w hw).trans (or_iff_right hzero)).symm

/-- **A fair step keeps the invariant.** -/
theorem Inv.step (h : s.Inv hasId) {a : Act} (hfair : Fair hasId s a) (hs : s.step a = some s') : s'.Inv hasId := by
  cases a with
  | set key want =>
    simp only [Waits.step, Option.ite_none_right_eq_some, Option.some.injEq] at hs
    obtain ⟨hwant, rfl⟩ := hs
    obtain ⟨grant, hgrant, hset⟩ := settles_set h.wf hfair.1 hwant
    refine h.settle hset fun key want heq => ?_
    obtain rfl | rfl := hgrant
    · cases heq
    · cases heq
      exact hfair.2
  | call task req =>
    simp only [Waits.step, Option.ite_none_right_eq_some, Option.some.injEq] at hs
    obtain ⟨⟨hnone, hwant⟩, rfl⟩ := hs
    exact h.call (Option.isNone_iff_eq_none.mp hnone) hfair hwant
  | look task signal =>
    simp only [Waits.step] at hs
    split at hs
    · next req hcall =>
        cases hs
        exact h.look signal hcall (hfair req hcall)
    · cases hs
  | wake task =>
    simp only [Waits.step, Option.ite_none_right_eq_some, Option.some.injEq] at hs
    obtain ⟨-, rfl⟩ := hs
    exact h.rouse fun t ht hin => (List.mem_erase_of_ne ht).mpr hin
  | rouse task =>
    cases hs
    exact h.rouse fun t ht hin => hin
  | unlock key owner start len =>
    cases hs
    exact h.settle (settles_unlock h.wf hfair owner start len) fun _ _ hg => nomatch hg
  | releaseOn key owner =>
    cases hs
    exact h.settle (settles_unlock h.wf hfair owner 0 0) fun _ _ hg => nomatch hg
  | releaseAll owner =>
    cases hs
    exact h.settle (settles_releaseEverywhere h.wf owner) fun _ _ hg => nomatch hg
  | releaseOfd handle =>
    cases hs
    exact h.settle (settles_releaseEverywhere h.wf (ofdOwner handle)) fun _ _ hg => nomatch hg
  | releaseProcess pid =>
    cases hs
    exact (h.exit pid).settle (settles_releaseEverywhere (h.exit pid).wf (posixOwner pid)) fun _ _ hg => nomatch hg

theorem Inv.of_reach (h : ReachBy Waits.step (Fair hasId) Start s) : s.Inv hasId :=
  h.invariant (I := Inv hasId) (fun _ => Inv.start) fun _ _ _ hI hok hs => hI.step hok hs

/-- **In a run in which no lock overtakes, a parked task has a lock in its way and no process waits for itself.** -/
theorem waiting_kept (hasId : List UInt8 → Bool) (s : Waits) (h : ReachBy step (Fair hasId) Start s) :
    s.NoLostWake ∧ s.NoDeadlock := (Inv.of_reach h).promises

/-! ## A lock granted over a sleeping request

Process 1 holds [20, 30) and waits to write [0, 10) behind process 2's read lock. Process 3 is granted a read lock
there as well, and then waits for [20, 30): the search follows the edge from 1 to 2 and finds nothing, though
process 1 is by now waiting for process 3. -/

section Undetected

/-- The file of the runs. -/
def db : LockKey := ⟨[], some ⟨0, 0⟩⟩

/-- Process 1 asks for [0, 10), with [20, 30) held. -/
def writer : Request := ⟨1, db, ⟨1, 0, 10, .write⟩⟩

/-- Process 3 asks for [20, 30). -/
def late : Request := ⟨3, db, ⟨3, 20, 10, .write⟩⟩

/-- A table with locks on one file. -/
def dbTable (locks : List RecordLock) (waiters : List Waiter) : Table := ⟨[⟨db, locks⟩], waiters⟩

theorem set_first (want : RecordLock) : Table.set ⟨[], []⟩ db want = (.ok (), [], dbTable [want] []) := by
  simp [Table.set, Table.trySet, Table.trySetAt, Table.position, install_nil, maxLockedFiles, maxLocksPerFile,
    dbTable]

/-- A lock that touches nothing of its owner's and is in nobody's way is added at the end. -/
theorem set_apart {locks : List RecordLock} {waiters : List Waiter} {want : RecordLock}
    (hfree : locks.all (fun l => !l.conflictsWith want && decide (l.owner ≠ want.owner)) = true)
    (hlen : locks.length < maxLocksPerFile) :
    (dbTable locks waiters).set db want = (.ok (), [], dbTable (locks ++ [want]) waiters) := by
  have hall : ∀ l ∈ locks, l.conflictsWith want = false ∧ l.owner ≠ want.owner := by
    intro l hl
    simpa using List.all_eq_true.mp hfree l hl
  have hany : (locks.any fun h => h.conflictsWith want) = false := by
    rw [List.any_eq_false]
    intro l hl
    rw [(hall l hl).1]
    exact Bool.false_ne_true
  have hinstall : install locks want = (locks ++ [want], false) := by
    have hkept : clearOwn locks want.owner want.start want.stop = locks := by
      refine Table.clearOwn_of_none (List.any_eq_false.mpr fun l hl => ?_)
      rw [decide_eq_true_eq]
      exact fun h => (hall l hl).2 h.1
    have htouch : locks.find? (touches want) = none := by
      rw [List.find?_eq_none]
      intro l hl ht
      exact (hall l hl).2 (touches_iff.mp ht).1
    have habsorb : absorb locks want = locks ++ [want] := by
      rw [absorb]
      split
      · rfl
      · next h hfound =>
          rw [htouch] at hfound
          cases hfound
    have hown : (locks.any fun h => decide (h.owner = want.owner) && h.overlaps want) = false := by
      rw [List.any_eq_false]
      intro l hl
      rw [decide_eq_false (hall l hl).2]
      exact Bool.false_ne_true
    rw [install, hkept, habsorb, hown]
  have hpos : (dbTable locks waiters).position db = some 0 := rfl
  have hroom : ¬maxLocksPerFile < (locks ++ [want]).length := by
    rw [List.length_append, List.length_singleton]
    omega
  rw [Table.set, Table.trySet, hpos]
  dsimp only [dbTable, Table.trySetAt, List.getElem?_cons_zero]
  rw [hany, hinstall, if_neg Bool.false_ne_true, if_neg hroom]
  rfl

/-- The locks of the run, in the order in which they are granted. -/
def granted : List RecordLock := [⟨1, 20, 10, .write⟩, ⟨2, 0, 10, .read⟩, ⟨3, 0, 10, .read⟩]

theorem writer_parks :
    (dbTable (granted.take 2) []).setWaitPass 1 writer false
      = (none, [], dbTable (granted.take 2) [⟨1, 1, 1, db, [2]⟩]) := by
  have htry : (dbTable (granted.take 2) []).trySet db writer.want = (.error .wouldBlock, dbTable (granted.take 2) []) := rfl
  have hremove : (dbTable (granted.take 2) []).removeWaiter 1 = dbTable (granted.take 2) [] := rfl
  have hblockers : (dbTable (granted.take 2) []).blockers db writer.want = [2] := rfl
  have hsearch : (dbTable (granted.take 2) []).wouldDeadlock 1 [2] = false := by
    simp [Table.wouldDeadlock, Table.search, Table.edgesOf, dbTable, ownerIsOfd]
  have hkey : writer.key = db := rfl
  have howner : writer.want.owner = 1 := rfl
  rw [Table.setWaitPass, hremove, hkey, htry]
  dsimp only
  rw [if_neg Bool.false_ne_true, hblockers, howner, hsearch, if_neg Bool.false_ne_true]
  rfl

theorem late_parks :
    (dbTable granted [⟨1, 1, 1, db, [2]⟩]).setWaitPass 3 late false
      = (none, [], dbTable granted [⟨1, 1, 1, db, [2]⟩, ⟨3, 3, 3, db, [1]⟩]) := by
  have htry : (dbTable granted [⟨1, 1, 1, db, [2]⟩]).trySet db late.want
      = (.error .wouldBlock, dbTable granted [⟨1, 1, 1, db, [2]⟩]) := rfl
  have hremove : (dbTable granted [⟨1, 1, 1, db, [2]⟩]).removeWaiter 3 = dbTable granted [⟨1, 1, 1, db, [2]⟩] := rfl
  have hblockers : (dbTable granted [⟨1, 1, 1, db, [2]⟩]).blockers db late.want = [1] := rfl
  have hsearch : (dbTable granted [⟨1, 1, 1, db, [2]⟩]).wouldDeadlock 3 [1] = false := by
    simp [Table.wouldDeadlock, Table.search, Table.edgesOf, dbTable, ownerIsOfd]
  have hkey : late.key = db := rfl
  have howner : late.want.owner = 3 := rfl
  rw [Table.setWaitPass, hremove, hkey, htry]
  dsimp only
  rw [if_neg Bool.false_ne_true, hblockers, howner, hsearch, if_neg Bool.false_ne_true]
  rfl

/-- The state before anything is locked. -/
def idle : Waits := ⟨⟨[], []⟩, fun _ => none, []⟩

theorem idle_start : idle.Start := ⟨rfl, rfl, fun _ => rfl, rfl⟩

/-- Process 1 is asleep behind process 2. -/
def waiting : Waits where
  table := dbTable (granted.take 2) [⟨1, 1, 1, db, [2]⟩]
  calls := update idle.calls 1 (some (writer, true))
  waking := []

/-- And process 3 behind process 1. -/
def crossed : Waits where
  table := dbTable granted [⟨1, 1, 1, db, [2]⟩, ⟨3, 3, 3, db, [1]⟩]
  calls := update waiting.calls 3 (some (late, true))
  waking := []

theorem step_set {s : Waits} {key : LockKey} {want : RecordLock} {r : KernelResult Unit} {t : Table}
    (hwant : want.start < maxVal 64) (hset : s.table.set key want = (r, [], t)) :
    s.step (.set key want) = some { s with table := t } := by
  rw [step, if_pos hwant, hset, after, List.append_nil]

theorem step_call {s : Waits} {task : Nat} {req : Request} (hnone : s.calls task = none)
    (hwant : req.want.start < maxVal 64) :
    s.step (.call task req) = some { s with calls := update s.calls task (some (req, false)) } :=
  if_pos ⟨by rw [hnone]; rfl, hwant⟩

theorem step_park {s : Waits} {task : Nat} {req : Request} {t : Table} (hcall : s.calls task = some (req, false))
    (hpass : s.table.setWaitPass task req false = (none, [], t)) :
    s.step (.look task false)
      = some { s with table := t, calls := update s.calls task (some (req, true)) } := by
  simp only [step, hcall, hpass, Option.isNone_none, if_true, List.append_nil]

theorem not_overtakes {s : Waits} (h : ∀ task req, s.calls task ≠ some (req, true)) (key : LockKey)
    (want : RecordLock) : ¬s.Overtakes key want := fun hover =>
  let ⟨_, _, task, req, hasleep, _⟩ := hover
  h task req hasleep.1

theorem waiting_reached : ReachBy step (Fair fun _ => true) Start waiting := by
  have hawake : ∀ (t : Table) key want, ¬Overtakes ⟨t, idle.calls, []⟩ key want :=
    fun t => not_overtakes fun _ _ h => nomatch h
  have hcalled : ∀ (t : Table) key want,
      ¬Overtakes ⟨t, update idle.calls 1 (some (writer, false)), []⟩ key want := by
    intro t
    refine not_overtakes fun task req h => ?_
    dsimp only at h
    by_cases ht : task = 1
    · rw [ht, update_self] at h
      cases h
    · rw [update_of_ne ht] at h
      cases h
  have hfirst : ReachBy step (Fair fun _ => true) Start ⟨dbTable (granted.take 1) [], idle.calls, []⟩ :=
    .next (.start idle_start) (a := .set db ⟨1, 20, 10, .write⟩) ⟨rfl, hawake _ _ _⟩
      (step_set (by decide) (set_first _))
  have hsecond : ReachBy step (Fair fun _ => true) Start ⟨dbTable (granted.take 2) [], idle.calls, []⟩ :=
    .next hfirst (a := .set db ⟨2, 0, 10, .read⟩) ⟨rfl, hawake _ _ _⟩
      (step_set (by decide) (set_apart (by decide) (by decide)))
  have hcall : ReachBy step (Fair fun _ => true) Start
      ⟨dbTable (granted.take 2) [], update idle.calls 1 (some (writer, false)), []⟩ :=
    .next hsecond (a := .call 1 writer) rfl (step_call rfl (by decide))
  have hfair : Fair (fun _ => true)
      ⟨dbTable (granted.take 2) [], update idle.calls 1 (some (writer, false)), []⟩ (.look 1 false) :=
    fun _ _ => hcalled _ _ _
  have hpark := ReachBy.next hcall hfair (step_park rfl writer_parks)
  rw [Function.update_idem] at hpark
  exact hpark

/-- The promises hold while process 1 sleeps. -/
theorem waiting_kept_once : waiting.Asleep 1 writer ∧ waiting.NoLostWake ∧ waiting.NoDeadlock :=
  ⟨⟨rfl, List.not_mem_nil⟩, waiting_kept (fun _ => true) waiting waiting_reached⟩

theorem crossed_reached : Reach step Start crossed := by
  have hgrant : Reach step Start ⟨dbTable granted [⟨1, 1, 1, db, [2]⟩], waiting.calls, []⟩ :=
    .next waiting_reached.reach (a := .set db ⟨3, 0, 10, .read⟩) trivial
      (step_set (by decide) (set_apart (by decide) (by decide)))
  have hcall : Reach step Start ⟨dbTable granted [⟨1, 1, 1, db, [2]⟩],
      update waiting.calls 3 (some (late, false)), []⟩ :=
    .next hgrant (a := .call 3 late) trivial (step_call rfl (by decide))
  have hpark := ReachBy.next hcall (a := .look 3 false) trivial (step_park rfl late_parks)
  rw [Function.update_idem] at hpark
  exact hpark

/-- Two processes wait for each other and nobody is told. -/
theorem deadlock_undetected : ¬∀ s, Reach step Start s → s.NoLostWake ∧ s.NoDeadlock := by
  intro h
  have hfirst : crossed.WaitsFor 1 3 :=
    ⟨by decide, by decide, 1, writer, ⟨rfl, List.not_mem_nil⟩, rfl, ⟨3, 0, 10, .read⟩, by decide, rfl, by decide⟩
  have hsecond : crossed.WaitsFor 3 1 :=
    ⟨by decide, by decide, 3, late, ⟨rfl, List.not_mem_nil⟩, rfl, ⟨1, 20, 10, .write⟩, by decide, rfl, by decide⟩
  exact (h crossed crossed_reached).2 1 (.tail (.single hfirst) hsecond)

end Undetected

end Waits

end SlateOS.Fs.Reclock
