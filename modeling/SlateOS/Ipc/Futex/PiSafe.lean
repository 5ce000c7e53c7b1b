/-
# SlateOS.Ipc.Futex.PiSafe -- what the word, the table and the threads of a PI futex agree on

`Safe` is the property of the states of a run: one owner, and no parked waiter that nobody must wake.
`Orderly` is the condition on the steps under which it holds, and `Inv` the invariant of such runs. Here
are the invariant's consequences and the steps of threads that neither wait nor store.
-/
import Mathlib.Data.List.Nodup
import SlateOS.Foundation.Runs
import SlateOS.Ipc.Futex.Pi

namespace SlateOS.Ipc.Futex

open Kernel Foundation.Runs

namespace PiPlace

/-- Parked in `lock_pi_inner`. -/
def isParked : PiPlace → Bool
  | .parked _ => true
  | _ => false

/-- In `lock_pi_inner`, from the queueing to the end. -/
def waiting : PiPlace → Bool
  | .publish .. | .withdraw .. | .parked _ => true
  | _ => false

/-- In `futex_unlock_pi`, between its table section and its store. -/
def storing : PiPlace → Bool
  | .unlockStore .. => true
  | _ => false

/-- Neither waiting nor storing. -/
def quiet (p : PiPlace) : Bool := !p.waiting && !p.storing

/-- What a thread knows of the word, and of the word it read. -/
def Ok (word : PiWord) (t : TaskId) : PiPlace → Prop
  | .standing _ w o | .queue _ w o _ | .publish _ w o _ => w.tid = some o ∧ o ≠ t
  | .unlockTable => word.tid = some t
  | .unlockStore next _ => word.tid = some t ∧ next ≠ some t
  | _ => True

variable {p : PiPlace} {word word' : PiWord} {t : TaskId}

theorem waiting_of_isParked (h : p.isParked = true) : p.waiting = true := by
  cases p <;> first | rfl | cases h

theorem quiet_iff : p.quiet = true ↔ p.waiting = false ∧ p.storing = false := by
  simp [quiet]

theorem not_isParked_of_quiet (h : p.quiet = true) : p.isParked = false := by
  cases p <;> first | rfl | cases h

/-- Of one kind, and not storing. -/
structure Like (p q : PiPlace) : Prop where
  parked : p.isParked = q.isParked
  waits : p.waiting = q.waiting
  left : p.storing = false
  right : q.storing = false

theorem Like.of_quiet {q : PiPlace} (hp : p.quiet = true) (hq : q.quiet = true) : p.Like q where
  parked := (not_isParked_of_quiet hp).trans (not_isParked_of_quiet hq).symm
  waits := (quiet_iff.mp hp).1.trans (quiet_iff.mp hq).1.symm
  left := (quiet_iff.mp hp).2
  right := (quiet_iff.mp hq).2

theorem storing_iff : p.storing = true ↔ ∃ next more, p = .unlockStore next more := by
  cases p <;> simp [storing]

theorem Ok.named (h : p.Ok word t) (hs : p.storing = true) : word.tid = some t := by
  obtain ⟨next, more, rfl⟩ := storing_iff.mp hs
  exact h.1

/-- Only the id in the word matters. -/
theorem Ok.congr (h : p.Ok word t) (hw : word'.tid = word.tid) : p.Ok word' t := by
  cases p <;> simp only [Ok, hw] at h ⊢ <;> exact h

/-- A thread that neither unlocks nor stores does not read the word. -/
theorem Ok.of_ne (h : p.Ok word t) (hw : word.tid ≠ some t) : p.Ok word' t := by
  cases p with
  | unlockTable => exact absurd h hw
  | unlockStore => exact absurd h.1 hw
  | _ => exact h

end PiPlace

/-! ## The scan for the best waiter -/

theorem scanWaiters_lt (ws : List PiWaiter) (i : Nat) (best : Option Nat × Nat)
    (hbest : ∀ k, best.1 = some k → k < i) :
    ∀ k, (scanWaiters ws i best).1 = some k → k < i + ws.length := by
  induction ws generalizing i best with
  | nil => exact hbest
  | cons w ws ih =>
    intro k hk
    unfold scanWaiters at hk
    have hlt := ih (i + 1) _ ?_ k hk
    · rw [List.length_cons]
      omega
    · intro k hk
      split at hk
      · cases hk
        exact Nat.lt_succ_self i
      · exact Nat.lt_succ_of_lt (hbest k hk)

/-- Once a waiter is found, one stays found. -/
theorem scanWaiters_isSome (ws : List PiWaiter) (i : Nat) (best : Option Nat × Nat)
    (hbest : best.1.isSome = true) : (scanWaiters ws i best).1.isSome = true := by
  induction ws generalizing i best with
  | nil => exact hbest
  | cons w ws ih =>
    unfold scanWaiters
    apply ih
    split
    · rfl
    · exact hbest

variable {ws : List PiWaiter}

theorem bestIdx_lt {i : Nat} (h : bestIdx ws = some i) : i < ws.length := by
  have hlt := scanWaiters_lt ws 0 (none, 255) (fun _ hk => by cases hk) i h
  omega

/-- Every priority is below the 255 the scan starts from. -/
theorem bestIdx_isSome (h : ws ≠ []) : ∃ i, bestIdx ws = some i := by
  cases ws with
  | nil => exact absurd rfl h
  | cons w ws =>
    apply Option.isSome_iff_exists.mp
    unfold bestIdx scanWaiters
    apply scanWaiters_isSome
    have hlt : w.priority.val < 255 := Nat.lt_of_lt_of_le w.priority.isLt (by decide)
    rw [if_pos hlt]
    rfl

/-- The scan takes one waiter out and leaves the others in order. -/
theorem chosenWaiter_split {w : PiWaiter} (h : chosenWaiter ws = some w) :
    ∃ before after, ws = before ++ w :: after ∧ remainingWaiters ws = before ++ after := by
  unfold chosenWaiter at h
  obtain ⟨i, hi, hget⟩ := Option.bind_eq_some_iff.mp h
  have hlt := bestIdx_lt hi
  rw [List.getElem?_eq_getElem hlt, Option.some.injEq] at hget
  refine ⟨ws.take i, ws.drop (i + 1), ?_, ?_⟩
  · rw [← hget, List.getElem_cons_drop, List.take_append_drop]
  · unfold remainingWaiters
    rw [hi]
    exact List.eraseIdx_eq_take_drop_succ ws i

/-- Nobody is chosen from an empty queue only. -/
theorem chosenWaiter_eq_none : chosenWaiter ws = none ↔ ws = [] := by
  constructor
  · intro h
    by_contra hne
    obtain ⟨i, hi⟩ := bestIdx_isSome hne
    rw [chosenWaiter, hi, Option.bind_some, List.getElem?_eq_getElem (bestIdx_lt hi)] at h
    cases h
  · rintro rfl
    rfl

namespace PiFutex

/-- The tasks queued as PI waiters. -/
def queued (m : PiFutex) : List TaskId := m.waiters.map PiWaiter.taskId

/-- `t` has the lock, or has been handed it and finds its record at its next wake. -/
def HasLock (m : PiFutex) (t : TaskId) : Prop :=
  m.owns t = true ∨ ((m.place t).isParked = true ∧ t ∈ m.owners)

/-- No unlock is between its table section and its store. -/
def Settled (m : PiFutex) : Prop := ∀ u, (m.place u).storing = false

/-- At most one thread owns the lock; and with no unlock at work, a parked waiter waits for another
thread that has the lock and must enter the kernel to release it. -/
structure Safe (m : PiFutex) : Prop where
  one_owner : ∀ t u, m.owns t = true → m.owns u = true → t = u
  not_stranded : m.Settled → ∀ t ∈ m.queued, (m.place t).isParked = true →
    ∃ o, m.word.tid = some o ∧ o ≠ t ∧ m.HasLock o ∧ m.word.waiters = true

/-- The word names `t`, or an unlock is about to store its id. -/
def Gets (m : PiFutex) (t : TaskId) : Prop :=
  (m.word.tid = some t ∧ (m.place t).storing = false) ∨
    ∃ u more, m.place u = .unlockStore (some t) more

/-- The step does not race with another call in one of the ways the code does not handle: a thread queues
while no unlock is about to store, not itself recorded as owner, and without recording a queued task; an
unlock hands the word to a parked thread; and a withdrawn record is not the one a handed-over word left
for its new owner. -/
def Orderly (m : PiFutex) : PiAction → Prop
  | .advance t _ =>
    match m.place t with
    | .queue _ _ owner recordable =>
      m.Settled ∧ m.owns t = false ∧ t ∉ m.owners ∧
        (m.records recordable = true → owner ∉ m.queued)
    | .unlockTable => ∀ w, chosenWaiter m.waiters = some w → (m.place w.taskId).isParked = true
    | .withdraw _ owner true => ¬((m.place owner).isParked = true ∧ owner ∈ m.owners)
    | _ => True
  | _ => True

/-- What an orderly run keeps. -/
structure Inv (m : PiFutex) : Prop where
  ok : ∀ t, (m.place t).Ok m.word t
  lock : ∀ t, m.HasLock t ↔ m.Gets t
  nodup : m.queued.Nodup
  queued_waits : ∀ t ∈ m.queued, (m.place t).waiting = true ∧ t ∉ m.owners ∧ m.owns t = false
  waits : ∀ t, (m.place t).waiting = true →
    t ∈ m.queued ∨ ((m.place t).isParked = true ∧ t ∈ m.owners)
  more : ∀ u next more, m.place u = .unlockStore next more → m.waiters ≠ [] →
    next ≠ none ∧ more = true
  bit : m.Settled → ∀ t ∈ m.queued, (m.place t).isParked = true →
    m.word.tid ≠ none ∧ m.word.waiters = true

variable {m : PiFutex} {t u : TaskId} {p : PiPlace}

theorem Inv.named (h : Inv m) (hs : (m.place u).storing = true) : m.word.tid = some u :=
  (h.ok u).named hs

theorem Inv.named_next (h : Inv m) {next : Option TaskId} {more : Bool}
    (hu : m.place u = .unlockStore next more) : m.word.tid = some u :=
  h.named (by rw [hu]; rfl)

/-- Whoever is named, or about to be, is unique. -/
theorem Inv.gets_unique (h : Inv m) (ht : m.Gets t) (hu : m.Gets u) : t = u := by
  obtain ⟨hwt, hst⟩ | ⟨x, mx, hx⟩ := ht
  · obtain ⟨hwu, _⟩ | ⟨y, my, hy⟩ := hu
    · exact Option.some.inj (hwt.symm.trans hwu)
    · have hyt : y = t := Option.some.inj ((h.named_next hy).symm.trans hwt)
      rw [← hyt, hy] at hst
      cases hst
  · obtain ⟨hwu, hsu⟩ | ⟨y, my, hy⟩ := hu
    · have hxu : x = u := Option.some.inj ((h.named_next hx).symm.trans hwu)
      rw [← hxu, hx] at hsu
      cases hsu
    · have hxy : x = y := Option.some.inj ((h.named_next hx).symm.trans (h.named_next hy))
      subst hxy
      rw [hx] at hy
      cases hy
      rfl

/-- The invariant gives the property. -/
theorem Inv.safe (h : Inv m) : m.Safe where
  one_owner t u ht hu := h.gets_unique ((h.lock t).mp (Or.inl ht)) ((h.lock u).mp (Or.inl hu))
  not_stranded hset t ht hpark := by
    obtain ⟨htid, hbit⟩ := h.bit hset t ht hpark
    obtain ⟨o, ho⟩ := Option.ne_none_iff_exists'.mp htid
    have hlock : m.HasLock o := (h.lock o).mpr (Or.inl ⟨ho, hset o⟩)
    refine ⟨o, ho, ?_, hlock, hbit⟩
    rintro rfl
    -- a queued task neither owns the lock nor has a record
    obtain ⟨_, hrec, howns⟩ := h.queued_waits o ht
    obtain hown | ⟨_, hmem⟩ := hlock
    · rw [howns] at hown
      cases hown
    · exact hrec hmem

/-- Only the thread the word names can be about to store. -/
theorem Inv.settled (h : Inv m) (hw : ∀ u, m.word.tid = some u → (m.place u).storing = false) :
    m.Settled := by
  intro u
  by_contra hs
  exact hs (hw u (h.named (Bool.not_eq_false _ ▸ hs)))

/-- While the word is ownerless nobody has the lock and nobody is parked in the queue. -/
theorem Inv.free (h : Inv m) (hw : m.word.tid = none) :
    m.Settled ∧ (∀ t, ¬m.HasLock t) ∧ ∀ t ∈ m.queued, (m.place t).isParked = false := by
  have hset : m.Settled := h.settled fun u hu => by
    rw [hw] at hu
    cases hu
  refine ⟨hset, ?_, ?_⟩
  · intro t ht
    obtain ⟨hwt, _⟩ | ⟨u, more, hu⟩ := (h.lock t).mp ht
    · rw [hw] at hwt
      cases hwt
    · have hsu := hset u
      rw [hu] at hsu
      cases hsu
  · intro t ht
    by_contra hp
    exact (h.bit hset t ht (Bool.not_eq_false _ ▸ hp)).1 hw

/-! ## Steps of threads that neither wait nor store -/

/-- Threads have moved only between places of one kind, and none that stores. -/
def Alike (m m' : PiFutex) : Prop :=
  ∀ u, m'.place u = m.place u ∨ (m.place u).Like (m'.place u)

variable {m' : PiFutex}

theorem alike_goto (ht : (m.place t).Like p) : Alike m (m.goto t p) := by
  intro u
  by_cases hut : u = t
  · subst hut
    rw [goto_place_self]
    exact Or.inr ht
  · exact Or.inl (goto_place_of_ne hut)

theorem Alike.isParked (h : Alike m m') (u : TaskId) :
    (m'.place u).isParked = (m.place u).isParked := by
  obtain heq | hlike := h u
  · rw [heq]
  · exact hlike.parked.symm

theorem Alike.waiting (h : Alike m m') (u : TaskId) :
    (m'.place u).waiting = (m.place u).waiting := by
  obtain heq | hlike := h u
  · rw [heq]
  · exact hlike.waits.symm

theorem Alike.storing (h : Alike m m') (u : TaskId) :
    (m'.place u).storing = (m.place u).storing := by
  obtain heq | hlike := h u
  · rw [heq]
  · rw [hlike.left, hlike.right]

theorem Alike.unlockStore (h : Alike m m') {next : Option TaskId} {more : Bool} :
    m'.place u = .unlockStore next more ↔ m.place u = .unlockStore next more := by
  obtain heq | hlike := h u
  · rw [heq]
  · constructor
    · intro hu
      have hs := hlike.right
      rw [hu] at hs
      cases hs
    · intro hu
      have hs := hlike.left
      rw [hu] at hs
      cases hs

theorem Alike.settled (h : Alike m m') : m'.Settled ↔ m.Settled :=
  forall_congr' fun u => by rw [h.storing u]

theorem Alike.gets (h : Alike m m') (hw : m'.word.tid = m.word.tid) (u : TaskId) :
    m'.Gets u ↔ m.Gets u := by
  unfold Gets
  rw [hw, h.storing u]
  exact or_congr_right (exists_congr fun _ => exists_congr fun _ => h.unlockStore)

theorem Alike.hasLock (h : Alike m m') (hown : m'.owners = m.owners) (howns : m'.owns = m.owns)
    (u : TaskId) : m'.HasLock u ↔ m.HasLock u := by
  unfold HasLock
  rw [howns, hown, h.isParked u]

/-- A move between places of one kind keeps the invariant. -/
theorem Inv.move (h : Inv m) (ht : (m.place t).Like p) (hok : p.Ok m.word t) :
    Inv (m.goto t p) := by
  have ha : Alike m (m.goto t p) := alike_goto ht
  exact {
    ok := by
      intro u
      by_cases hut : u = t
      · subst hut
        rw [goto_place_self]
        exact hok
      · rw [goto_place_of_ne hut]
        exact h.ok u
    lock := fun u => (ha.hasLock rfl rfl u).trans ((h.lock u).trans (ha.gets rfl u).symm)
    nodup := h.nodup
    queued_waits := fun u hu => by
      rw [ha.waiting u]
      exact h.queued_waits u hu
    waits := fun u hu => by
      rw [ha.isParked u]
      exact h.waits u (ha.waiting u ▸ hu)
    more := fun u next more hu => h.more u next more (ha.unlockStore.mp hu)
    bit := fun hset u hu hpark =>
      h.bit (ha.settled.mp hset) u hu (ha.isParked u ▸ hpark) }

/-- A move between quiet places keeps the invariant. -/
theorem Inv.goto (h : Inv m) (ht : (m.place t).quiet = true) (hp : p.quiet = true)
    (hok : p.Ok m.word t) : Inv (m.goto t p) :=
  h.move (PiPlace.Like.of_quiet ht hp) hok

variable {w : PiWord}

/-- An ownerless word is taken by a thread that neither waits nor stores. -/
theorem Inv.take (h : Inv m) (hfree : m.word.tid = none) (hw : w.tid = some t)
    (ht : (m.place t).quiet = true) : Inv ({ m with word := w }.own t) := by
  obtain ⟨hset, hnone, hpark⟩ := h.free hfree
  have htw : (m.place t).waiting = false := (PiPlace.quiet_iff.mp ht).1
  have howns : ∀ u, u ≠ t → ({ m with word := w }.own t).owns u = m.owns u := fun u hut =>
    Function.update_of_ne hut ..
  have hself : ({ m with word := w }.own t).owns t = true := Function.update_self ..
  exact {
    ok := fun u => (h.ok u).of_ne (by rw [hfree]; exact fun h => by cases h)
    lock := by
      intro u
      constructor
      · rintro (hown | hpk)
        · by_cases hut : u = t
          · subst hut
            exact Or.inl ⟨hw, hset u⟩
          · rw [howns u hut] at hown
            exact absurd (Or.inl hown) (hnone u)
        · exact absurd (Or.inr hpk) (hnone u)
      · rintro (⟨hwu, _⟩ | ⟨x, more, hx⟩)
        · have hut : t = u := Option.some.inj (hw.symm.trans hwu)
          exact Or.inl (hut ▸ hself)
        · have hsx := hset x
          have hx' : m.place x = .unlockStore (some u) more := hx
          rw [hx'] at hsx
          cases hsx
    nodup := h.nodup
    queued_waits := by
      intro u hu
      have hold := h.queued_waits u hu
      have hut : u ≠ t := by
        rintro rfl
        rw [htw] at hold
        cases hold.1
      exact ⟨hold.1, hold.2.1, (howns u hut).trans hold.2.2⟩
    waits := h.waits
    more := h.more
    bit := fun _ u hu hp => absurd ((hpark u hu).symm.trans hp) Bool.false_ne_true }

/-- The fast unlock: the word has no `FUTEX_WAITERS`, so nobody is parked in the queue. -/
theorem Inv.release (h : Inv m) {r : KernelResult Unit} (hw : m.word = .held t)
    (ht : m.place t = .user r) : Inv ({ m with word := .zero }.disown t) := by
  have htid : m.word.tid = some t := by rw [hw]; rfl
  have hts : (m.place t).storing = false := by rw [ht]; rfl
  have htp : (m.place t).isParked = false := by rw [ht]; rfl
  have hset : m.Settled := h.settled fun u hu => Option.some.inj (htid.symm.trans hu) ▸ hts
  have hgets : m.Gets t := Or.inl ⟨htid, hts⟩
  have howns : ∀ u, u ≠ t → ({ m with word := .zero }.disown t).owns u = m.owns u := fun u hut =>
    Function.update_of_ne hut ..
  have hself : ({ m with word := .zero }.disown t).owns t = false := Function.update_self ..
  exact {
    ok := by
      intro u
      by_cases hut : u = t
      · subst hut
        change (m.place u).Ok _ u
        rw [ht]
        exact trivial
      · apply (h.ok u).of_ne
        rw [htid]
        exact fun heq => hut (Option.some.inj heq).symm
    lock := by
      intro u
      constructor
      · intro hlock
        exfalso
        by_cases hut : u = t
        · subst hut
          obtain hown | ⟨hpk, _⟩ := hlock
          · exact Bool.false_ne_true (hself.symm.trans hown)
          · exact Bool.false_ne_true (htp.symm.trans hpk)
        · have hold : m.HasLock u := by
            obtain hown | hpk := hlock
            · exact Or.inl ((howns u hut).symm.trans hown)
            · exact Or.inr hpk
          exact hut (h.gets_unique ((h.lock u).mp hold) hgets)
      · rintro (⟨hwu, _⟩ | ⟨x, more, hx⟩)
        · cases hwu
        · have hsx := hset x
          have hx' : m.place x = .unlockStore (some u) more := hx
          rw [hx'] at hsx
          cases hsx
    nodup := h.nodup
    queued_waits := by
      intro u hu
      obtain ⟨hwait, hrec, hown⟩ := h.queued_waits u hu
      refine ⟨hwait, hrec, ?_⟩
      by_cases hut : u = t
      · exact hut ▸ hself
      · exact (howns u hut).trans hown
    waits := h.waits
    more := h.more
    bit := by
      intro _ u hu hpk
      have hbit := (h.bit hset u hu hpk).2
      rw [hw] at hbit
      cases hbit }

/-- A thread that is not parked registers itself. -/
theorem Inv.recordSelf (h : Inv m) (ht : (m.place t).quiet = true) :
    Inv { m with owners := m.owners ++ [t] } := by
  obtain ⟨htw, _⟩ := PiPlace.quiet_iff.mp ht
  have hmem : ∀ u, (m.place u).waiting = true → (u ∈ m.owners ++ [t] ↔ u ∈ m.owners) := by
    intro u hu
    have hut : u ≠ t := by
      rintro rfl
      exact Bool.false_ne_true (htw.symm.trans hu)
    simp [hut]
  have hlock : ∀ u, ({ m with owners := m.owners ++ [t] } : PiFutex).HasLock u ↔ m.HasLock u := by
    intro u
    refine or_congr_right (and_congr_right fun hp => ?_)
    exact hmem u (PiPlace.waiting_of_isParked hp)
  exact {
    ok := h.ok
    lock := fun u => (hlock u).trans (h.lock u)
    nodup := h.nodup
    queued_waits := by
      intro u hu
      obtain ⟨hwait, hrec, hown⟩ := h.queued_waits u hu
      exact ⟨hwait, fun hin => hrec ((hmem u hwait).mp hin), hown⟩
    waits := by
      intro u hu
      refine (h.waits u hu).imp_right fun ⟨hp, hrec⟩ => ⟨hp, (hmem u hu).mpr hrec⟩
    more := h.more
    bit := h.bit }

/-! ## One lemma for each step -/

theorem Inv.fastLock (h : Inv m) {r : KernelResult Unit} (ht : m.place t = .user r) :
    Inv (m.fastLock t) := by
  unfold PiFutex.fastLock
  split
  next hw => exact h.take (by rw [hw]; rfl) rfl (by rw [ht]; rfl)
  next => exact h

theorem Inv.fastUnlock (h : Inv m) {r : KernelResult Unit} (ht : m.place t = .user r) :
    Inv (m.fastUnlock t) := by
  unfold PiFutex.fastUnlock
  split
  next hw => exact h.release hw ht
  next => exact h

theorem Inv.claim (h : Inv m) {call : PiCall} (ht : m.place t = .claim call) :
    Inv (m.claim t call) := by
  unfold PiFutex.claim
  split <;> exact h.goto (by rw [ht]; rfl) rfl trivial

theorem Inv.claimCas (h : Inv m) {call : PiCall} (ht : m.place t = .claimCas call w) :
    Inv (m.claimCas t call w) := by
  have hq : (m.place t).quiet = true := by rw [ht]; rfl
  unfold PiFutex.claimCas
  split
  next => exact h.goto hq rfl trivial
  next new hnew =>
  unfold ownerlessClaimValue at hnew
  split at hnew
  next => cases hnew
  next hfree =>
  cases hnew
  split
  next hw =>
    have htaken := h.take (w := ⟨some t, w.ownerDied, w.waiters⟩) (hw ▸ hfree) rfl hq
    exact htaken.goto hq rfl trivial
  next => exact h.goto hq rfl trivial

theorem Inv.register (h : Inv m) (ht : m.place t = .register) : Inv (m.register t) := by
  have hq : (m.place t).quiet = true := by rw [ht]; rfl
  exact (h.recordSelf hq).goto hq rfl trivial

theorem Inv.read (h : Inv m) {call : PiCall} (ht : m.place t = .read call) :
    Inv (m.read t call) := by
  have hq : (m.place t).quiet = true := by rw [ht]; rfl
  cases call with
  | lock args =>
    unfold PiFutex.read
    dsimp only
    split
    next => exact h.goto hq rfl trivial
    next o ho =>
    split
    next => exact h.goto hq rfl trivial
    next hne => exact h.goto hq rfl ⟨ho, hne⟩
  | tryLock =>
    unfold PiFutex.read
    dsimp only
    split <;> exact h.goto hq rfl trivial

theorem Inv.standing (h : Inv m) {args : LockArgs} {o : TaskId} {s : PiHolder}
    (ht : m.place t = .standing args w o) : Inv (m.standing t args w o s) := by
  have hq : (m.place t).quiet = true := by rw [ht]; rfl
  have hok : w.tid = some o ∧ o ≠ t := by
    have hok := h.ok t
    rw [ht] at hok
    exact hok
  unfold PiFutex.standing
  split
  · exact h.goto hq rfl trivial
  · exact h.goto hq rfl trivial
  all_goals
    split
    · exact h.goto hq rfl trivial
    · exact h.goto hq rfl hok

theorem Inv.goneReload (h : Inv m) {args : LockArgs}
    (ht : m.place t = .goneReload args w) : Inv (m.goneReload t args w) := by
  unfold PiFutex.goneReload
  split <;> exact h.goto (by rw [ht]; rfl) rfl trivial

theorem Inv.unlockRead (h : Inv m) (ht : m.place t = .unlockRead) : Inv (m.unlockRead t) := by
  unfold PiFutex.unlockRead
  split
  next hw => exact h.goto (by rw [ht]; rfl) rfl hw
  next => exact h.goto (by rw [ht]; rfl) rfl trivial

end PiFutex

end SlateOS.Ipc.Futex
