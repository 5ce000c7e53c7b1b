/-
# SlateOS.Ipc.Futex.PiRuns -- no two owners and no stranded waiter of a PI futex

`Safe` fails in runs of the code as it is, in two ways: a waiter that queues between the table section of
an unlock and its store is left behind, and an ownership record that outlives the ownership lets a woken
waiter return as owner. It holds in every run whose steps are `Orderly`.
-/
import SlateOS.Ipc.Futex.PiSafe

namespace SlateOS.Ipc.Futex

open Kernel Foundation.Runs

namespace PiFutex

variable {m : PiFutex} {t u : TaskId} {p : PiPlace}

/-! ## The steps of the waiter queue -/

/-- A reading of the place that the move does not change. -/
theorem goto_congr {α : Type} (f : PiPlace → α) (hf : f p = f (m.place t)) (u : TaskId) :
    f ((m.goto t p).place u) = f (m.place u) := by
  by_cases hut : u = t
  · subst hut
    rw [goto_place_self]
    exact hf
  · rw [goto_place_of_ne hut]

/-- Nobody starts or ends a store by a move between other places. -/
theorem goto_unlockStore (ht : (m.place t).storing = false) (hp : p.storing = false)
    {next : Option TaskId} {more : Bool} :
    (m.goto t p).place u = .unlockStore next more ↔ m.place u = .unlockStore next more := by
  by_cases hut : u = t
  · subst hut
    rw [goto_place_self]
    constructor
    · rintro rfl
      cases hp
    · intro hu
      rw [hu] at ht
      cases ht
  · rw [goto_place_of_ne hut]

theorem Inv.not_queued (h : Inv m) (ht : (m.place t).waiting = false) : t ∉ m.queued := by
  intro hin
  exact Bool.false_ne_true (ht.symm.trans (h.queued_waits t hin).1)

variable {args : LockArgs} {w : PiWord} {o : TaskId}

theorem Inv.queue (h : Inv m) {recordable : Bool}
    (ht : m.place t = .queue args w o recordable) (hset : m.Settled) (howns : m.owns t = false)
    (hrec : t ∉ m.owners) (hq : m.records recordable = true → o ∉ m.queued) :
    Inv (m.queue t args w o recordable) := by
  have hts : (m.place t).storing = false := by rw [ht]; rfl
  have hnew : t ∉ m.queued := h.not_queued (by rw [ht]; rfl)
  have hok : w.tid = some o ∧ o ≠ t := by
    have hok := h.ok t
    rw [ht] at hok
    exact hok
  have hplace : (m.queue t args w o recordable).place
      = (m.goto t (.publish args w o (m.records recordable))).place := rfl
  have hqueued : (m.queue t args w o recordable).queued = m.queued ++ [t] := List.map_append
  have hpark := goto_congr (m := m) (t := t) (p := .publish args w o (m.records recordable))
    PiPlace.isParked (by rw [ht]; rfl)
  have hstor := goto_congr (m := m) (t := t) (p := .publish args w o (m.records recordable))
    PiPlace.storing (by rw [ht]; rfl)
  -- the only new record is of a task that is not queued
  have howners : ∀ u, u ∈ (m.queue t args w o recordable).owners ↔
      u ∈ m.owners ∨ (m.records recordable = true ∧ u = o) := by
    intro u
    change u ∈ (if m.records recordable then m.owners ++ [o] else m.owners) ↔ _
    split
    next hr => simp [hr]
    next hr => simp [hr]
  have hlock : ∀ u, (m.queue t args w o recordable).HasLock u ↔ m.HasLock u := by
    intro u
    unfold HasLock
    rw [hplace, hpark u, howners u]
    refine or_congr_right (and_congr_right fun hp => ?_)
    constructor
    · rintro (hin | ⟨hr, rfl⟩)
      · exact hin
      · exact ((h.waits u (PiPlace.waiting_of_isParked hp)).resolve_left (hq hr)).2
    · exact Or.inl
  exact {
    ok := by
      intro u
      rw [hplace]
      by_cases hut : u = t
      · subst hut
        rw [goto_place_self]
        exact hok
      · rw [goto_place_of_ne hut]
        exact h.ok u
    lock := by
      intro u
      refine (hlock u).trans ((h.lock u).trans ?_)
      unfold Gets
      rw [hplace, hstor u]
      exact or_congr_right (exists_congr fun x => exists_congr fun k =>
        (goto_unlockStore hts rfl).symm)
    nodup := by
      rw [hqueued]
      exact List.nodup_append.mpr ⟨h.nodup, List.nodup_singleton t, by
        intro a ha b hb
        rw [List.mem_singleton.mp hb]
        rintro rfl
        exact hnew ha⟩
    queued_waits := by
      intro u hu
      rw [hqueued, List.mem_append, List.mem_singleton] at hu
      rw [hplace, howners u]
      by_cases hut : u = t
      · subst hut
        rw [goto_place_self]
        exact ⟨rfl, fun hin => hin.elim hrec fun hro => hok.2 hro.2.symm, howns⟩
      · rw [goto_place_of_ne hut]
        have hin := hu.resolve_right hut
        obtain ⟨hwait, hnrec, hnown⟩ := h.queued_waits u hin
        exact ⟨hwait, fun hin' => hin'.elim hnrec fun hro => hq hro.1 (hro.2 ▸ hin), hnown⟩
    waits := by
      intro u hu
      rw [hqueued, List.mem_append, List.mem_singleton, howners u]
      by_cases hut : u = t
      · exact Or.inl (Or.inr hut)
      · rw [hplace, goto_place_of_ne hut] at hu ⊢
        exact (h.waits u hu).imp Or.inl fun ⟨hp, hin⟩ => ⟨hp, Or.inl hin⟩
    more := by
      intro u next more hu
      have hsu := hset u
      rw [(goto_unlockStore hts rfl).mp hu] at hsu
      cases hsu
    bit := by
      intro _ u hu hp
      rw [hplace, hpark u] at hp
      rw [hqueued, List.mem_append, List.mem_singleton] at hu
      by_cases hut : u = t
      · subst hut
        rw [ht] at hp
        cases hp
      · exact h.bit hset u (hu.resolve_right hut) hp }

/-- A queued thread parks, `FUTEX_WAITERS` being set on a word that names somebody. -/
theorem Inv.park (h : Inv m) (ht : (m.place t).waiting = true)
    (hp : (m.place t).isParked = false) (htid : w.tid = m.word.tid) (hne : w.tid ≠ none)
    (hbit : w.waiters = true) : Inv ({ m with word := w }.goto t (.parked args)) := by
  have hts : (m.place t).storing = false := by
    cases hpl : m.place t <;> first | rfl | (rw [hpl] at ht; cases ht)
  have hin : t ∈ m.queued := (h.waits t ht).resolve_right fun hr =>
    Bool.false_ne_true (hp.symm.trans hr.1)
  obtain ⟨_, hnrec, hnown⟩ := h.queued_waits t hin
  have hstor := goto_congr (m := m) (t := t) (p := .parked args) PiPlace.storing hts.symm
  have hwait := goto_congr (m := m) (t := t) (p := .parked args) PiPlace.waiting ht.symm
  have hplace : ({ m with word := w }.goto t (.parked args)).place
      = (m.goto t (.parked args)).place := rfl
  have hlock : ∀ u, ({ m with word := w }.goto t (.parked args)).HasLock u ↔ m.HasLock u := by
    intro u
    refine or_congr_right ?_
    rw [hplace]
    by_cases hut : u = t
    · subst hut
      exact ⟨fun hr => absurd hr.2 hnrec, fun hr => absurd hr.2 hnrec⟩
    · rw [goto_place_of_ne hut]
      exact Iff.rfl
  exact {
    ok := by
      intro u
      rw [hplace]
      by_cases hut : u = t
      · subst hut
        rw [goto_place_self]
        exact trivial
      · rw [goto_place_of_ne hut]
        exact (h.ok u).congr htid
    lock := by
      intro u
      refine (hlock u).trans ((h.lock u).trans ?_)
      unfold Gets
      rw [hplace, hstor u]
      exact or_congr (and_congr_left' (by rw [← htid]; exact Iff.rfl))
        (exists_congr fun x => exists_congr fun k => (goto_unlockStore hts rfl).symm)
    nodup := h.nodup
    queued_waits := by
      intro u hu
      rw [hplace, hwait u]
      exact h.queued_waits u hu
    waits := by
      intro u hu
      rw [hplace] at hu ⊢
      rw [hwait u] at hu
      refine (h.waits u hu).imp_right fun ⟨hpu, hru⟩ => ⟨?_, hru⟩
      by_cases hut : u = t
      · subst hut
        rw [goto_place_self]
        rfl
      · rw [goto_place_of_ne hut]
        exact hpu
    more := fun u next more hu => h.more u next more ((goto_unlockStore hts rfl).mp hu)
    bit := fun _ _ _ _ => ⟨hne, hbit⟩ }

theorem Inv.publish (h : Inv m) {recorded : Bool}
    (ht : m.place t = .publish args w o recorded) : Inv (m.publish t args w o recorded) := by
  have htw : (m.place t).waiting = true := by rw [ht]; rfl
  have htp : (m.place t).isParked = false := by rw [ht]; rfl
  have hne : w.tid ≠ none := by
    have hok := h.ok t
    rw [ht] at hok
    rw [hok.1]
    exact Option.some_ne_none o
  unfold PiFutex.publish
  split
  next hw => exact h.park htw htp (by rw [hw]; rfl) hne rfl
  next =>
  split
  next hw => exact h.park (w := m.word) htw htp rfl (by rw [hw]; exact hne) (by rw [hw]; rfl)
  next =>
  refine h.move ?_ trivial
  rw [ht]
  exact ⟨rfl, rfl, rfl, rfl⟩

/-- The queue without the entry of `t`. -/
theorem map_removeWaiter (ws : List PiWaiter) (t : TaskId) :
    (removeWaiter ws t).map PiWaiter.taskId = (ws.map PiWaiter.taskId).erase t := by
  unfold removeWaiter
  induction ws with
  | nil => rfl
  | cons w ws ih =>
    by_cases hw : w.taskId = t
    · simp [hw]
    · have hbeq : ¬(w.taskId == t) = true := by rwa [beq_iff_eq]
      rw [List.eraseP_cons_of_neg (by rwa [decide_eq_true_eq]), List.map_cons, List.map_cons, ih,
        List.erase_cons_tail hbeq]

/-- A thread leaves the queue: it has no record, and the bit stays for the others. -/
theorem Inv.leave (h : Inv m) {owners : List TaskId} (hin : t ∈ m.queued)
    (hp : p.quiet = true) (hok : p.Ok w t) (htid : w.tid = m.word.tid)
    (hrec : ∀ u, (m.place u).isParked = true → u ≠ t → (u ∈ owners ↔ u ∈ m.owners))
    (hsub : ∀ u, u ∈ owners → u ∈ m.owners)
    (hbit : m.queued.erase t ≠ [] → w.waiters = m.word.waiters) :
    Inv ({ m with word := w, owners := owners, waiters := removeWaiter m.waiters t }.goto t p) := by
  obtain ⟨htw, hnrec, hnown⟩ := h.queued_waits t hin
  obtain ⟨hpw, hps⟩ := PiPlace.quiet_iff.mp hp
  have hts : (m.place t).storing = false := by
    cases hpl : m.place t <;> first | rfl | (rw [hpl] at htw; cases htw)
  have hstor := goto_congr (m := m) (t := t) (p := p) PiPlace.storing (hps.trans hts.symm)
  have hqueued : ∀ u, u ∈ (m.queued.erase t) ↔ u ≠ t ∧ u ∈ m.queued := fun u =>
    h.nodup.mem_erase_iff
  have hlock : ∀ u, ({ m with
      word := w, owners := owners, waiters := removeWaiter m.waiters t }.goto t p).HasLock u ↔
        m.HasLock u := by
    intro u
    refine or_congr_right ?_
    change ((m.goto t p).place u).isParked = true ∧ u ∈ owners ↔ _
    by_cases hut : u = t
    · subst hut
      exact ⟨fun hr => absurd (hsub u hr.2) hnrec, fun hr => absurd hr.2 hnrec⟩
    · rw [goto_place_of_ne hut]
      exact and_congr_right fun hpu => hrec u hpu hut
  have hmap := map_removeWaiter m.waiters t
  exact {
    ok := by
      intro u
      change ((m.goto t p).place u).Ok w u
      by_cases hut : u = t
      · subst hut
        rw [goto_place_self]
        exact hok
      · rw [goto_place_of_ne hut]
        exact (h.ok u).congr htid
    lock := by
      intro u
      refine (hlock u).trans ((h.lock u).trans ?_)
      refine or_congr ?_ (exists_congr fun x => exists_congr fun k =>
        (goto_unlockStore hts hps).symm)
      change _ ↔ w.tid = some u ∧ ((m.goto t p).place u).storing = false
      rw [hstor u, htid]
    nodup := by
      change (List.map PiWaiter.taskId (removeWaiter m.waiters t)).Nodup
      rw [hmap]
      exact h.nodup.erase t
    queued_waits := by
      intro u hu
      change u ∈ List.map PiWaiter.taskId (removeWaiter m.waiters t) at hu
      rw [hmap] at hu
      obtain ⟨hut, huq⟩ := (hqueued u).mp hu
      obtain ⟨hwait, hnr, hno⟩ := h.queued_waits u huq
      refine ⟨?_, fun hr => hnr (hsub u hr), hno⟩
      change ((m.goto t p).place u).waiting = true
      rw [goto_place_of_ne hut]
      exact hwait
    waits := by
      intro u hu
      change ((m.goto t p).place u).waiting = true at hu
      change u ∈ List.map PiWaiter.taskId (removeWaiter m.waiters t) ∨
        ((m.goto t p).place u).isParked = true ∧ u ∈ owners
      by_cases hut : u = t
      · subst hut
        rw [goto_place_self, hpw] at hu
        cases hu
      · rw [goto_place_of_ne hut] at hu ⊢
        rw [hmap]
        exact (h.waits u hu).imp (fun huq => (hqueued u).mpr ⟨hut, huq⟩) fun hr =>
          ⟨hr.1, (hrec u hr.1 hut).mpr hr.2⟩
    more := by
      intro u next more hu hne
      refine h.more u next more ((goto_unlockStore hts hps).mp hu) ?_
      intro hnil
      apply hne
      change removeWaiter m.waiters t = []
      rw [hnil]
      rfl
    bit := by
      intro hset u hu hpu
      change u ∈ List.map PiWaiter.taskId (removeWaiter m.waiters t) at hu
      rw [hmap] at hu
      obtain ⟨hut, huq⟩ := (hqueued u).mp hu
      change ((m.goto t p).place u).isParked = true at hpu
      rw [goto_place_of_ne hut] at hpu
      have hset' : m.Settled := fun x => (hstor x).symm.trans (hset x)
      obtain ⟨hne, hw⟩ := h.bit hset' u huq hpu
      refine ⟨fun hnone => hne (htid.symm.trans hnone), ?_⟩
      exact (hbit (List.ne_nil_of_mem hu)).trans hw }

theorem Inv.withdraw (h : Inv m) {recorded : Bool}
    (ht : m.place t = .withdraw args o recorded)
    (hkeep : recorded = true → ¬((m.place o).isParked = true ∧ o ∈ m.owners)) :
    Inv (m.withdraw t args o recorded) := by
  have hin : t ∈ m.queued := by
    refine (h.waits t (by rw [ht]; rfl)).resolve_right ?_
    rw [ht]
    exact fun hr => Bool.false_ne_true hr.1
  refine h.leave (w := m.word) hin rfl trivial rfl ?_ ?_ (fun _ => rfl)
  · intro u hp _
    split
    next hr =>
      simp only [unregisterPiOwner, List.mem_filter, decide_eq_true_eq, and_iff_left_iff_imp]
      rintro hu rfl
      exact hkeep hr ⟨hp, hu⟩
    next => exact Iff.rfl
  · intro u hu
    split at hu
    · exact (List.mem_filter.mp hu).1
    · exact hu

/-- A parked thread that finds its record has the lock. -/
theorem Inv.handed (h : Inv m) {r : KernelResult Unit} (htp : (m.place t).isParked = true)
    (hrec : t ∈ m.owners) : Inv ((m.own t).ret t r) := by
  have hnew : t ∉ m.queued := fun hin => (h.queued_waits t hin).2.1 hrec
  have hts : (m.place t).storing = false := by
    cases hpl : m.place t <;> first | rfl | (rw [hpl] at htp; cases htp)
  have hstor := goto_congr (m := m) (t := t) (p := .user r) PiPlace.storing hts.symm
  have hlock : ∀ u, ((m.own t).ret t r).HasLock u ↔ m.HasLock u := by
    intro u
    by_cases hut : u = t
    · subst hut
      have hself : ((m.own u).ret u r).owns u = true := Function.update_self ..
      exact ⟨fun _ => Or.inr ⟨htp, hrec⟩, fun _ => Or.inl hself⟩
    · have howns : ((m.own t).ret t r).owns u = m.owns u := Function.update_of_ne hut ..
      have hplace : ((m.own t).ret t r).place u = m.place u := goto_place_of_ne hut
      unfold HasLock
      rw [howns, hplace]
      exact Iff.rfl
  exact {
    ok := by
      intro u
      change ((m.goto t (.user r)).place u).Ok m.word u
      by_cases hut : u = t
      · subst hut
        rw [goto_place_self]
        exact trivial
      · rw [goto_place_of_ne hut]
        exact h.ok u
    lock := by
      intro u
      refine (hlock u).trans ((h.lock u).trans ?_)
      refine or_congr ?_ (exists_congr fun x => exists_congr fun k =>
        (goto_unlockStore hts rfl).symm)
      change _ ↔ m.word.tid = some u ∧ ((m.goto t (.user r)).place u).storing = false
      rw [hstor u]
    nodup := h.nodup
    queued_waits := by
      intro u hu
      have hut : u ≠ t := fun heq => hnew (heq ▸ hu)
      have howns : ((m.own t).ret t r).owns u = m.owns u := Function.update_of_ne hut ..
      have hplace : ((m.own t).ret t r).place u = m.place u := goto_place_of_ne hut
      rw [howns, hplace]
      exact h.queued_waits u hu
    waits := by
      intro u hu
      change ((m.goto t (.user r)).place u).waiting = true at hu
      change u ∈ m.queued ∨ ((m.goto t (.user r)).place u).isParked = true ∧ u ∈ m.owners
      by_cases hut : u = t
      · subst hut
        rw [goto_place_self] at hu
        cases hu
      · rw [goto_place_of_ne hut] at hu ⊢
        exact h.waits u hu
    more := fun u next more hu => h.more u next more ((goto_unlockStore hts rfl).mp hu)
    bit := by
      intro hset u hu hpu
      have hut : u ≠ t := fun heq => hnew (heq ▸ hu)
      change ((m.goto t (.user r)).place u).isParked = true at hpu
      rw [goto_place_of_ne hut] at hpu
      exact h.bit (fun x => (hstor x).symm.trans (hset x)) u hu hpu }

theorem Inv.wake (h : Inv m) {late signal : Bool}
    (ht : m.place t = .parked args) : Inv (m.wake t args late signal) := by
  have htp : (m.place t).isParked = true := by rw [ht]; rfl
  have htw : (m.place t).waiting = true := by rw [ht]; rfl
  unfold PiFutex.wake
  split
  next hrec => exact h.handed htp hrec
  next hnrec =>
  have hin : t ∈ m.queued := (h.waits t htw).resolve_right fun hr => hnrec hr.2
  dsimp only
  split
  next => exact h
  next =>
  refine h.leave hin rfl trivial ?_ (fun _ _ _ => Iff.rfl) (fun _ hu => hu) ?_
  · split <;> rfl
  · intro hne
    split
    next hempty =>
      exfalso
      apply hne
      rw [Bool.and_eq_true, List.isEmpty_iff] at hempty
      have hmap := map_removeWaiter m.waiters t
      rw [hempty.1] at hmap
      exact hmap.symm
    next => rfl

/-- The thread that unlocks is the only one that has the lock, so all parked threads are queued. -/
theorem Inv.unlocker (h : Inv m) (ht : m.place t = .unlockTable) :
    m.Settled ∧ (∀ u, m.HasLock u → u = t) ∧
      ∀ u, (m.place u).waiting = true → u ∈ m.queued := by
  have htid : m.word.tid = some t := by
    have hok := h.ok t
    rw [ht] at hok
    exact hok
  have hts : (m.place t).storing = false := by rw [ht]; rfl
  have hset : m.Settled := h.settled fun u hu => Option.some.inj (htid.symm.trans hu) ▸ hts
  have honly : ∀ u, m.HasLock u → u = t := fun u hu =>
    h.gets_unique ((h.lock u).mp hu) (Or.inl ⟨htid, hts⟩)
  refine ⟨hset, honly, ?_⟩
  intro u hu
  refine (h.waits u hu).resolve_right ?_
  rintro ⟨hp, hrec⟩
  have hut := honly u (Or.inr ⟨hp, hrec⟩)
  rw [hut, ht] at hp
  cases hp

/-- The tasks queued before an unlock are the chosen one and those queued after it. -/
theorem queued_unlockTable (m : PiFutex) (t : TaskId) :
    m.queued.Perm (((chosenWaiter m.waiters).map PiWaiter.taskId).toList
      ++ (m.unlockTable t).queued) := by
  change (m.waiters.map PiWaiter.taskId).Perm (_ ++ (remainingWaiters m.waiters).map _)
  cases hc : chosenWaiter m.waiters with
  | none =>
    rw [chosenWaiter_eq_none.mp hc]
    exact List.Perm.refl _
  | some w =>
    obtain ⟨before, after, hws, hrest⟩ := chosenWaiter_split hc
    rw [hrest, hws, List.map_append, List.map_cons, List.map_append]
    exact List.perm_middle

theorem Inv.unlockTable (h : Inv m) (ht : m.place t = .unlockTable)
    (hnext : ∀ w, chosenWaiter m.waiters = some w → (m.place w.taskId).isParked = true) :
    Inv (m.unlockTable t) := by
  obtain ⟨hset, honly, hqueued⟩ := h.unlocker ht
  obtain ⟨next, hn⟩ : ∃ next, (chosenWaiter m.waiters).map PiWaiter.taskId = next := ⟨_, rfl⟩
  have htid : m.word.tid = some t := by
    have hok := h.ok t
    rw [ht] at hok
    exact hok
  have hperm := queued_unlockTable m t
  rw [hn] at hperm
  have hnodup := hperm.nodup_iff.mp h.nodup
  have hmem : ∀ u, u ∈ m.queued ↔ next = some u ∨ u ∈ (m.unlockTable t).queued := by
    intro u
    rw [hperm.mem_iff, List.mem_append, Option.mem_toList]
  have hapart : ∀ u, u ∈ (m.unlockTable t).queued → next ≠ some u := by
    intro u hu hnu
    rw [hnu] at hnodup
    exact (List.nodup_cons.mp hnodup).1 hu
  have hnpark : ∀ u, next = some u → (m.place u).isParked = true := by
    intro u hu
    rw [hu] at hn
    obtain ⟨w, hw, rfl⟩ := Option.map_eq_some_iff.mp hn
    exact hnext w hw
  have hself : (m.unlockTable t).place t
      = .unlockStore next !(remainingWaiters m.waiters).isEmpty := by
    rw [← hn]
    exact goto_place_self
  have hother : ∀ u, u ≠ t → (m.unlockTable t).place u = m.place u := fun u hut =>
    goto_place_of_ne hut
  have howners : ∀ u, u ∈ (m.unlockTable t).owners ↔ (u ∈ m.owners ∧ u ≠ t) ∨ next = some u := by
    intro u
    change u ∈ unregisterPiOwner m.owners t ++ ((chosenWaiter m.waiters).map _).toList ↔ _
    rw [hn, List.mem_append, Option.mem_toList]
    simp [unregisterPiOwner]
  -- nobody has the lock any more but the thread it is handed to
  have howns : ∀ u, (m.unlockTable t).owns u = false := by
    intro u
    by_cases hut : u = t
    · subst hut
      exact Function.update_self ..
    · have hsame : (m.unlockTable t).owns u = m.owns u := Function.update_of_ne hut ..
      rw [hsame]
      by_contra hown
      exact hut (honly u (Or.inl (Bool.not_eq_false _ ▸ hown)))
  have hnt : next ≠ some t := by
    intro hnt
    have hp := hnpark t hnt
    rw [ht] at hp
    cases hp
  have hstores : ∀ x n k, (m.unlockTable t).place x = .unlockStore n k → x = t := by
    intro x n k hx
    by_contra hxt
    rw [hother x hxt] at hx
    have hsx := hset x
    rw [hx] at hsx
    cases hsx
  have hlock : ∀ u, (m.unlockTable t).HasLock u ↔ next = some u := by
    intro u
    constructor
    · rintro (hown | ⟨hp, hrec⟩)
      · exact absurd ((howns u).symm.trans hown) Bool.false_ne_true
      · by_cases hut : u = t
        · rw [hut, hself] at hp
          cases hp
        · rw [hother u hut] at hp
          have hin := hqueued u (PiPlace.waiting_of_isParked hp)
          exact ((howners u).mp hrec).resolve_left fun hr => (h.queued_waits u hin).2.1 hr.1
    · intro hu
      have hut : u ≠ t := fun heq => hnt (heq ▸ hu)
      exact Or.inr ⟨by rw [hother u hut]; exact hnpark u hu, (howners u).mpr (Or.inr hu)⟩
  exact {
    ok := by
      intro u
      change ((m.unlockTable t).place u).Ok m.word u
      by_cases hut : u = t
      · subst hut
        rw [hself]
        exact ⟨htid, hnt⟩
      · rw [hother u hut]
        exact h.ok u
    lock := by
      intro u
      refine (hlock u).trans ⟨fun hu => Or.inr ⟨t, _, hu ▸ hself⟩, ?_⟩
      rintro (⟨hwu, hsu⟩ | ⟨x, k, hx⟩)
      · have hut : t = u := Option.some.inj (htid.symm.trans hwu)
        rw [← hut, hself] at hsu
        cases hsu
      · have hxt := hstores x _ _ hx
        rw [hxt, hself] at hx
        cases hx
        rfl
    nodup := (List.nodup_append.mp hnodup).2.1
    queued_waits := by
      intro u hu
      have hin := (hmem u).mpr (Or.inr hu)
      obtain ⟨hwait, hnrec, _⟩ := h.queued_waits u hin
      have hut : u ≠ t := by
        rintro rfl
        rw [ht] at hwait
        cases hwait
      refine ⟨by rw [hother u hut]; exact hwait, ?_, howns u⟩
      intro hrec
      exact ((howners u).mp hrec).elim (fun hr => hnrec hr.1) (hapart u hu)
    waits := by
      intro u hu
      have hut : u ≠ t := by
        rintro rfl
        rw [hself] at hu
        cases hu
      rw [hother u hut] at hu ⊢
      refine ((hmem u).mp (hqueued u hu)).symm.imp id fun hn => ?_
      exact ⟨hnpark u hn, (howners u).mpr (Or.inr hn)⟩
    more := by
      intro u n k hu hne
      have hut := hstores u n k hu
      rw [hut, hself] at hu
      cases hu
      have hrest : remainingWaiters m.waiters ≠ [] := hne
      constructor
      · intro hnone
        rw [hnone, Option.map_eq_none_iff, chosenWaiter_eq_none] at hn
        apply hrest
        rw [hn]
        rfl
      · rw [Bool.not_eq_true', Bool.eq_false_iff, ne_eq, List.isEmpty_iff]
        exact hrest
    bit := by
      intro hset' 
      have hst := hset' t
      rw [hself] at hst
      cases hst }

theorem Inv.unlockStore (h : Inv m) {next : Option TaskId} {more : Bool}
    (ht : m.place t = .unlockStore next more) : Inv (m.unlockStore t next more) := by
  have hts : (m.place t).storing = true := by rw [ht]; rfl
  have htid : m.word.tid = some t := h.named hts
  have hword : (m.unlockStore t next more).word.tid = next := by
    unfold PiFutex.unlockStore
    cases next <;> rfl
  have hplace : (m.unlockStore t next more).place = (m.goto t (.user (.ok ()))).place := rfl
  have hset : (m.unlockStore t next more).Settled := by
    intro u
    rw [hplace]
    by_cases hut : u = t
    · subst hut
      rw [goto_place_self]
      rfl
    · rw [goto_place_of_ne hut]
      by_contra hs
      have hu := htid.symm.trans (h.named (Bool.not_eq_false _ ▸ hs))
      exact hut (Option.some.inj hu).symm
  have hpark := goto_congr (m := m) (t := t) (p := .user (.ok ())) PiPlace.isParked
    (by rw [ht]; rfl)
  have hwait := goto_congr (m := m) (t := t) (p := .user (.ok ())) PiPlace.waiting
    (by rw [ht]; rfl)
  have hlock : ∀ u, (m.unlockStore t next more).HasLock u ↔ m.HasLock u := by
    intro u
    unfold HasLock
    rw [hplace, hpark u]
    exact Iff.rfl
  have hgets : ∀ u, m.Gets u ↔ next = some u := by
    intro u
    constructor
    · rintro (⟨hwu, hsu⟩ | ⟨x, k, hx⟩)
      · have hut : t = u := Option.some.inj (htid.symm.trans hwu)
        rw [← hut, hts] at hsu
        cases hsu
      · have hxt : t = x := Option.some.inj (htid.symm.trans (h.named_next hx))
        rw [← hxt, ht] at hx
        cases hx
        rfl
    · intro hu
      exact Or.inr ⟨t, more, hu ▸ ht⟩
  exact {
    ok := by
      intro u
      rw [hplace]
      by_cases hut : u = t
      · subst hut
        rw [goto_place_self]
        exact trivial
      · rw [goto_place_of_ne hut]
        apply (h.ok u).of_ne
        rw [htid]
        exact fun heq => hut (Option.some.inj heq).symm
    lock := by
      intro u
      refine (hlock u).trans ((h.lock u).trans ((hgets u).trans ?_))
      constructor
      · intro hu
        exact Or.inl ⟨hword.trans hu, hset u⟩
      · rintro (⟨hwu, _⟩ | ⟨x, k, hx⟩)
        · exact hword.symm.trans hwu
        · have hsx := hset x
          rw [hx] at hsx
          cases hsx
    nodup := h.nodup
    queued_waits := by
      intro u hu
      rw [hplace, hwait u]
      exact h.queued_waits u hu
    waits := by
      intro u hu
      rw [hplace] at hu ⊢
      rw [hwait u] at hu
      rw [hpark u]
      exact h.waits u hu
    more := by
      intro u n k hu
      have hsu := hset u
      rw [hu] at hsu
      cases hsu
    bit := by
      intro _ u hu _
      have hne : m.waiters ≠ [] := by
        intro hnil
        have hu' : u ∈ m.waiters.map PiWaiter.taskId := hu
        rw [hnil] at hu'
        cases hu'
      obtain ⟨hnext, hmore⟩ := h.more t next more ht hne
      refine ⟨fun hnone => hnext (hword.symm.trans hnone), ?_⟩
      obtain ⟨new, rfl⟩ := Option.ne_none_iff_exists'.mp hnext
      exact hmore }

/-! ## Every step -/

variable {m' : PiFutex}

theorem Inv.advance {env : PiEnv} (h : Inv m) (hok : m.Orderly (.advance t env))
    (hs : m.advance t env = some m') : Inv m' := by
  unfold PiFutex.advance at hs
  unfold Orderly at hok
  dsimp only at hok
  cases hp : m.place t <;> rw [hp] at hs hok <;> dsimp only at hs hok <;> cases hs
  case claim => exact h.claim hp
  case claimCas => exact h.claimCas hp
  case register => exact h.register hp
  case read => exact h.read hp
  case standing => exact h.standing hp
  case goneReload => exact h.goneReload hp
  case queue => exact h.queue hp hok.1 hok.2.1 hok.2.2.1 hok.2.2.2
  case publish => exact h.publish hp
  case withdraw args o recorded =>
    refine h.withdraw hp ?_
    rintro rfl
    exact hok
  case parked => exact h.wake hp
  case unlockRead => exact h.unlockRead hp
  case unlockTable => exact h.unlockTable hp hok
  case unlockStore => exact h.unlockStore hp

theorem of_fromUser {m' m'' : PiFutex} (h : m.fromUser t m'' = some m') :
    (∃ r, m.place t = .user r) ∧ m' = m'' := by
  unfold fromUser at h
  split at h
  next r hr => exact ⟨⟨r, hr⟩, (Option.some.inj h).symm⟩
  next => cases h

/-- **The step lemma.** -/
theorem Inv.step {a : PiAction} (h : Inv m) (hok : m.Orderly a)
    (hs : m.step a = some m') : Inv m' := by
  cases a with
  | fastLock t =>
    obtain ⟨⟨r, hr⟩, rfl⟩ := of_fromUser hs
    exact h.fastLock hr
  | fastUnlock t =>
    obtain ⟨⟨r, hr⟩, rfl⟩ := of_fromUser hs
    exact h.fastUnlock hr
  | call t call =>
    obtain ⟨⟨r, hr⟩, rfl⟩ := of_fromUser hs
    exact h.goto (by rw [hr]; rfl) rfl trivial
  | unlock t =>
    obtain ⟨⟨r, hr⟩, rfl⟩ := of_fromUser hs
    exact h.goto (by rw [hr]; rfl) rfl trivial
  | advance t env => exact h.advance hok hs

theorem Init.inv (h : Init m) : Inv m where
  ok t := by
    obtain ⟨r, hr⟩ := h.user t
    rw [hr]
    exact trivial
  lock t := by
    obtain ⟨r, hr⟩ := h.user t
    constructor
    · rintro (hown | ⟨_, hrec⟩)
      · exact absurd ((h.owns t).symm.trans hown) Bool.false_ne_true
      · rw [h.owners] at hrec
        cases hrec
    · rintro (⟨hw, _⟩ | ⟨u, more, hu⟩)
      · rw [h.ownerless] at hw
        cases hw
      · obtain ⟨r', hr'⟩ := h.user u
        rw [hr'] at hu
        cases hu
  nodup := by
    unfold queued
    rw [h.waiters]
    exact List.nodup_nil
  queued_waits t ht := by
    unfold queued at ht
    rw [h.waiters] at ht
    cases ht
  waits t ht := by
    obtain ⟨r, hr⟩ := h.user t
    rw [hr] at ht
    cases ht
  more u next more hu := by
    obtain ⟨r, hr⟩ := h.user u
    rw [hr] at hu
    cases hu
  bit _ t ht := by
    unfold queued at ht
    rw [h.waiters] at ht
    cases ht

/-- `Orderly`, executable: only the thread the word names can be about to store. -/
def checkOrderly (m : PiFutex) : PiAction → Bool
  | .advance t _ =>
    match m.place t with
    | .queue _ _ owner recordable =>
      m.word.tid.all (fun x => !(m.place x).storing) && !m.owns t && decide (t ∉ m.owners) &&
        (!m.records recordable || decide (owner ∉ m.queued))
    | .unlockTable => (chosenWaiter m.waiters).all fun w => (m.place w.taskId).isParked
    | .withdraw _ owner true => !((m.place owner).isParked && decide (owner ∈ m.owners))
    | _ => true
  | _ => true

theorem Inv.orderly_of_check {a : PiAction} (h : Inv m) (hc : m.checkOrderly a = true) :
    m.Orderly a := by
  cases a with
  | advance t env =>
    unfold checkOrderly at hc
    unfold Orderly
    dsimp only at hc ⊢
    cases hp : m.place t <;> rw [hp] at hc <;> try dsimp only at hc ⊢
    case queue args w o recordable =>
      simp only [Bool.and_eq_true, Bool.or_eq_true, Bool.not_eq_true', decide_eq_true_eq,
        Option.all_eq_true] at hc
      obtain ⟨⟨⟨hstor, hown⟩, hrec⟩, hq⟩ := hc
      refine ⟨h.settled fun u hu => hstor u hu, hown, hrec, ?_⟩
      intro hr
      exact hq.resolve_left fun hf => Bool.false_ne_true (hf.symm.trans hr)
    case unlockTable =>
      rw [Option.all_eq_true] at hc
      exact hc
    case withdraw args o recorded =>
      cases recorded with
      | false => exact trivial
      | true =>
        rintro ⟨hp, hrec⟩
        dsimp only at hc
        rw [hp, decide_eq_true hrec] at hc
        cases hc
  | _ => exact trivial

/-- A run that passes the check is orderly. -/
theorem Inv.along {as : List PiAction} (h : Inv m)
    (hc : checkAlong PiFutex.step checkOrderly m as = true) :
    Along PiFutex.step Orderly m as := by
  induction as generalizing m with
  | nil => exact trivial
  | cons a as ih =>
    unfold checkAlong at hc
    rw [Bool.and_eq_true] at hc
    have hok := h.orderly_of_check hc.1
    refine ⟨hok, ?_⟩
    intro s hs
    have hrest := hc.2
    rw [hs, Option.all_some] at hrest
    exact ih (h.step hok hs) hrest

/-! ## What other threads see of a run -/

/-- The thread that moves. -/
def actor : PiAction → TaskId
  | .fastLock t | .fastUnlock t | .call t _ | .unlock t | .advance t _ => t

theorem standing_place_of_ne {s : PiHolder} (h : u ≠ t) :
    (m.standing t args w o s).place u = m.place u := by
  unfold PiFutex.standing
  split
  · exact goto_place_of_ne h
  · exact goto_place_of_ne h
  all_goals split <;> exact goto_place_of_ne h

theorem advance_place_of_ne {env : PiEnv} (hs : m.advance t env = some m')
    (h : u ≠ t) : m'.place u = m.place u := by
  unfold PiFutex.advance at hs
  cases hp : m.place t <;> rw [hp] at hs <;> dsimp only at hs <;> cases hs
  case claim =>
    unfold PiFutex.claim
    split <;> exact goto_place_of_ne h
  case claimCas =>
    unfold PiFutex.claimCas
    split
    next => exact goto_place_of_ne h
    next => split <;> exact goto_place_of_ne h
  case read call =>
    unfold PiFutex.read
    cases call with
    | lock args =>
      dsimp only
      split
      next => exact goto_place_of_ne h
      next => split <;> exact goto_place_of_ne h
    | tryLock =>
      dsimp only
      split <;> exact goto_place_of_ne h
  case standing => exact standing_place_of_ne h
  case goneReload =>
    unfold PiFutex.goneReload
    split <;> exact goto_place_of_ne h
  case publish =>
    unfold PiFutex.publish
    split
    next => exact goto_place_of_ne h
    next => split <;> exact goto_place_of_ne h
  case parked =>
    unfold PiFutex.wake
    split
    next => exact goto_place_of_ne h
    next =>
    dsimp only
    split
    next => rfl
    next => exact goto_place_of_ne h
  case unlockRead =>
    unfold PiFutex.unlockRead
    split <;> exact goto_place_of_ne h
  all_goals exact goto_place_of_ne h

/-- A step moves its own thread only. -/
theorem step_place_of_ne {a : PiAction} (hs : m.step a = some m')
    (h : u ≠ actor a) : m'.place u = m.place u := by
  cases a with
  | fastLock t =>
    obtain ⟨_, rfl⟩ := of_fromUser hs
    unfold PiFutex.fastLock
    split <;> rfl
  | fastUnlock t =>
    obtain ⟨_, rfl⟩ := of_fromUser hs
    unfold PiFutex.fastUnlock
    split <;> rfl
  | call t call =>
    obtain ⟨_, rfl⟩ := of_fromUser hs
    exact goto_place_of_ne h
  | unlock t =>
    obtain ⟨_, rfl⟩ := of_fromUser hs
    exact goto_place_of_ne h
  | advance t env => exact advance_place_of_ne hs h

/-- A run moves the threads it names only. -/
theorem run_place_of_not_mem {as : List PiAction}
    (hrun : run PiFutex.step m as = some m') (h : u ∉ as.map actor) : m'.place u = m.place u := by
  induction as generalizing m with
  | nil =>
    cases hrun
    rfl
  | cons a as ih =>
    obtain ⟨s, hs, hrest⟩ := Option.bind_eq_some_iff.mp hrun
    rw [List.map_cons, List.mem_cons, not_or] at h
    exact (ih hrest h.2).trans (step_place_of_ne hs h.1)

/-- A run is settled when its own threads are. -/
theorem settled_of_run {as : List PiAction} (hm : m.Settled)
    (hrun : run PiFutex.step m as = some m')
    (has : ∀ t ∈ as.map actor, (m'.place t).storing = false) : m'.Settled := by
  intro u
  by_cases hu : u ∈ as.map actor
  · exact has u hu
  · rw [run_place_of_not_mem hrun hu]
    exact hm u

/-! ## Every orderly run, and two that are not -/

/-- **No stranded waiter.** In every run whose steps are orderly, at most one thread owns the lock in
every state, and a parked waiter waits for another thread that has it and must hand it over. -/
theorem lock_pi_safe (h : ReachBy PiFutex.step Orderly Init m) : m.Safe :=
  (h.invariant (I := Inv) (fun _ hinit => hinit.inv) fun _ _ _ hinv hok hs => hinv.step hok hs).safe

/-- A free word nobody has used. -/
def start : PiFutex := ⟨.zero, [], [], fun _ => .user (.ok ()), fun _ => false⟩

theorem init_start : Init start where
  ownerless := rfl
  owners := rfl
  waiters := rfl
  user _ := ⟨_, rfl⟩
  owns _ := rfl

def first : TaskId := ⟨1, by decide⟩
def second : TaskId := ⟨2, by decide⟩
def third : TaskId := ⟨3, by decide⟩

/-- A lock without a timeout, at priority 10. -/
def plainLock : PiCall := .lock ⟨none, ⟨10, by decide⟩⟩

/-- The next step of `t`, its environment unremarkable: the owner is recordable, no timer, no signal. -/
def next (t : TaskId) : PiAction := .advance t ⟨.recordable, false, false⟩

/-- `second` finds the word held by `first` and is about to queue. -/
def contendedRun : List PiAction :=
  [.fastLock first, .call second plainLock, next second, next second, next second]

/-- `second` queues for `first` in order, parks, and is handed the word. -/
def handoverRun : List PiAction :=
  contendedRun ++ [next second, next second, .unlock first, next first, next first, next first,
    next second]

theorem lock_pi_safe_handover :
    (run PiFutex.step start handoverRun).map (fun m => (m.word, m.owns second))
        = some (.held second, true) ∧
      ∀ m, run PiFutex.step start handoverRun = some m → m.Safe :=
  ⟨by decide, fun _ hm => lock_pi_safe
    (ReachBy.of_run (.start init_start) hm (init_start.inv.along (by decide)))⟩

/-- `first` unlocks; `second` queues after the table section and parks before the store. -/
def overtakenRun : List PiAction :=
  contendedRun ++ [.unlock first, next first, next first, next second, next second, next first]

/-- `first` locks through the kernel and unlocks by its fast path, which leaves its record; it waits for
`third`, and a wake that hands nothing over finds the record. -/
def staleRecordRun : List PiAction :=
  [.call first plainLock, next first, next first, next first, .fastUnlock first, .fastLock third,
    .call first plainLock, next first, next first, next first, next first, next first, next first]

/-- **A stranded waiter, and two owners.** In the first run `second` is parked in the queue, every call
has ended or waits, and the word is 0; in the second `first` and `third` own the lock together. -/
theorem lock_pi_strands_and_doubles :
    (∃ m, run PiFutex.step start overtakenRun = some m ∧ m.Settled ∧ second ∈ m.queued ∧
      (m.place second).isParked = true ∧ m.word = .zero ∧ ¬m.Safe) ∧
    ∃ m, run PiFutex.step start staleRecordRun = some m ∧
      m.owns first = true ∧ m.owns third = true ∧ ¬m.Safe := by
  constructor
  · obtain ⟨m, hm⟩ : ∃ m, run PiFutex.step start overtakenRun = some m :=
      Option.isSome_iff_exists.mp (by decide)
    have hend : (run PiFutex.step start overtakenRun).map (fun m => (m.word, m.queued,
        (m.place first).storing, (m.place second).storing, (m.place second).isParked))
          = some (.zero, [second], false, false, true) := by decide
    rw [hm, Option.map_some, Option.some.injEq, Prod.mk.injEq, Prod.mk.injEq, Prod.mk.injEq,
      Prod.mk.injEq] at hend
    obtain ⟨hword, hqueued, hfirst, hsecond, hpark⟩ := hend
    have hset : m.Settled := by
      refine settled_of_run (fun _ => rfl) hm ?_
      intro t ht
      have hts : t = first ∨ t = second := by
        simp only [overtakenRun, contendedRun, next, List.map_append, List.map_cons, List.map_nil,
          actor, List.mem_append, List.mem_cons, List.not_mem_nil] at ht
        tauto
      obtain rfl | rfl := hts
      · exact hfirst
      · exact hsecond
    have hin : second ∈ m.queued := by
      rw [hqueued]
      exact List.mem_singleton_self second
    refine ⟨m, hm, hset, hin, hpark, hword, ?_⟩
    intro hsafe
    obtain ⟨o, ho, _⟩ := hsafe.not_stranded hset second hin hpark
    rw [hword] at ho
    cases ho
  · obtain ⟨m, hm⟩ : ∃ m, run PiFutex.step start staleRecordRun = some m :=
      Option.isSome_iff_exists.mp (by decide)
    have hend : (run PiFutex.step start staleRecordRun).map (fun m => (m.owns first, m.owns third))
        = some (true, true) := by decide
    rw [hm, Option.map_some, Option.some.injEq, Prod.mk.injEq] at hend
    obtain ⟨hfirst, hthird⟩ := hend
    refine ⟨m, hm, hfirst, hthird, ?_⟩
    intro hsafe
    exact absurd (hsafe.one_owner first third hfirst hthird) (by decide)

end PiFutex

end SlateOS.Ipc.Futex
