/-
# SlateOS.Mm.Frame.Conservation -- no frame is lost or handed out twice

The invariant of the layered allocator. Callers, calls in progress, cache slots and pool slots all
hold tokens of one `Ledger`; a section of a call moves tokens between them, or makes one of the
allocator calls of `Mm.Frame.Tokens`. Two facts about interrupts complete it: no two calls have them
off on one CPU, and a call about to refill a cache finds it empty, so that no frame of the batch is
refused.
-/
import SlateOS.Mm.Frame.Layers

namespace SlateOS.Mm.Frame.Conservation

open Foundation.Runs Foundation.IntrusiveList Foundation.MachineInt Foundation.Dyadic Foundation.BuddySpace
open Foundation.Stores Kernel Mm.Frame.Buddy Mm.Frame.Lists Mm.Frame.Operations Mm.Frame.Tokens
open Mm.Frame.Layers

/-! ## The tokens of a state -/

/-- The frames in cache and pool slots. -/
def slots (s : State) : List Nat := s.caches.flatMap BoundedStack.items ++ s.pool.items

/-- The token of a slot. -/
def slotToken (x : Nat) : Token := blockToken x 0

/-- Every token there is. -/
def tokens (s : State) : List Token := s.held ++ (slots s).map slotToken

variable {usable : Nat → Prop} {s s' : State} {L L' : Nat → List Nat} {a : BuddyAllocator}
  {c c' : PerCpuFrameCache} {T R : List Token} {pc : Pc} {next : Option Pc} {x i cpu n : Nat} {b : Bool}

/-- Calls in progress hold their own tokens. -/
theorem tokens_calls (ps : List Pc) :
    (tokens { s with calls := ps ++ s.calls }).Perm (ps.flatMap Pc.token ++ tokens s) := by
  simp only [tokens, State.held, slots, List.flatMap_append, List.append_assoc]
  exact List.perm_append_comm_assoc _ _ _

theorem tokens_call (p : Pc) :
    (tokens { s with calls := p :: s.calls }).Perm (p.token ++ tokens s) := by
  simpa using tokens_calls (s := s) [p]

theorem tokens_calls_perm {ps : List Pc} (h : s.calls.Perm ps) :
    (tokens s).Perm (tokens { s with calls := ps }) := by
  simp only [tokens, State.held, slots]
  exact ((List.Perm.refl _).append (h.flatMap_right _)).append_right _

theorem tokens_owner_erase {o : Nat × Nat} (h : o ∈ s.owners) :
    (tokens s).Perm (ownerToken o :: tokens { s with owners := s.owners.erase o }) := by
  simp only [tokens, State.held, slots]
  exact (((List.perm_cons_erase h).map ownerToken).append_right _).append_right _

/-- The slots of one cache, and everything else. -/
theorem tokens_cache (h : s.caches[cpu]? = some c) :
    ∃ R, (tokens s).Perm (c.items.map slotToken ++ R) ∧ ∀ c' a,
      (tokens { s with alloc := a, caches := s.caches.set cpu c' }).Perm
        (c'.items.map slotToken ++ R) := by
  obtain ⟨Q, hQ, hset⟩ := flatMap_set_perm h BoundedStack.items
  refine ⟨s.held ++ (Q ++ s.pool.items).map slotToken, ?_, fun c' a => ?_⟩
  · calc tokens s
        |>.Perm (s.held ++ (c.items ++ (Q ++ s.pool.items)).map slotToken) := by
          refine List.Perm.append_left _ (List.Perm.map _ ?_)
          rw [← List.append_assoc]
          exact hQ.append_right _
      _ |>.Perm (c.items.map slotToken ++ (s.held ++ (Q ++ s.pool.items).map slotToken)) := by
          rw [List.map_append]
          exact List.perm_append_comm_assoc _ _ _
  · calc tokens { s with alloc := a, caches := s.caches.set cpu c' }
        |>.Perm (s.held ++ (c'.items ++ (Q ++ s.pool.items)).map slotToken) := by
          refine List.Perm.append_left _ (List.Perm.map _ ?_)
          rw [← List.append_assoc]
          exact (hset c').append_right _
      _ |>.Perm (c'.items.map slotToken ++ (s.held ++ (Q ++ s.pool.items).map slotToken)) := by
          rw [List.map_append]
          exact List.perm_append_comm_assoc _ _ _

/-- A pop moves a token from the cache to the call. -/
theorem tokens_cache_pop (h : s.caches[cpu]? = some c) (hp : c.pop = some (x, c')) :
    (tokens s).Perm (blockToken x 0 :: tokens { s with caches := s.caches.set cpu c' }) := by
  obtain ⟨R, hs, hset⟩ := tokens_cache h
  refine hs.trans (List.Perm.trans ?_ ((hset c' s.alloc).symm.cons _))
  exact ((BoundedStack.pop_perm hp).map slotToken).append_right _

/-- A push that succeeds moves a token from the call to the cache. -/
theorem tokens_cache_push (h : s.caches[cpu]? = some c) (hp : (c.push x).1 = true) :
    (tokens { s with caches := s.caches.set cpu (c.push x).2 }).Perm (blockToken x 0 :: tokens s) := by
  obtain ⟨R, hs, hset⟩ := tokens_cache h
  refine (hset _ s.alloc).trans (List.Perm.trans ?_ (hs.symm.cons _))
  exact ((BoundedStack.push_perm hp).map slotToken).append_right _

theorem tokens_pool_pop {p : ZeroPool} (h : s.pool.pop = some (x, p)) :
    (tokens s).Perm (blockToken x 0 :: tokens { s with pool := p }) := by
  simp only [tokens, State.held, slots, List.map_append]
  have hp := (BoundedStack.pop_perm h).map slotToken
  refine List.Perm.trans (List.Perm.append_left _ (hp.append_left _)) ?_
  exact (List.Perm.append_left _ List.perm_middle).trans List.perm_middle

theorem tokens_pool_push (h : (s.pool.push x).1 = true) :
    (tokens { s with pool := (s.pool.push x).2 }).Perm (blockToken x 0 :: tokens s) := by
  simp only [tokens, State.held, slots, List.map_append]
  have hp := (BoundedStack.push_perm h).map slotToken
  refine List.Perm.trans (List.Perm.append_left _ (hp.append_left _)) ?_
  exact (List.Perm.append_left _ List.perm_middle).trans List.perm_middle

/-- The only reference to a block, passed on to where it may come to be shared. -/
theorem ledger_owner {o : Nat} (h : Ledger usable a L (blockToken x o :: T)) :
    Ledger usable a L (ownerToken (x, o) :: T) := by
  cases o with
  | zero => exact Ledger.relax h
  | succ o => exact h

/-! ## Batches between a cache and the buddy lists -/

/-- **The refill loop** moves free frames into the cache, and into the cache only: there is room for
every one of them. -/
theorem pcpuRefill_spec (h : Ledger usable a L (c.items.map slotToken ++ R))
    (hroom : c.items.length + n ≤ pcpuCacheSize) :
    ∃ L', Ledger usable (pcpuRefill n a c).2.1 L'
        ((pcpuRefill n a c).2.2.items.map slotToken ++ R) ∧
      ∀ i, ¬ Cover frameLevel L (i * frameSize) →
        refs ((pcpuRefill n a c).2.2.items.map slotToken ++ R) i ≤
          refs (c.items.map slotToken ++ R) i := by
  induction n generalizing a L c with
  | zero => exact ⟨L, h, fun _ _ => le_refl _⟩
  | succ n ih =>
    simp only [pcpuRefill]
    cases heq : a.allocInner 0 with
    | error e => exact ⟨L, h, fun _ _ => le_refl _⟩
    | ok xa =>
      obtain ⟨x, a₁⟩ := xa
      obtain ⟨L₁, ht⟩ := allocInner_spec h.represents heq
      obtain ⟨-, hpush⟩ := BoundedStack.push_of_lt x (s := c) (by omega)
      have hperm : (blockToken x 0 :: (c.items.map slotToken ++ R)).Perm
          ((c.push x).2.items.map slotToken ++ R) := by
        rw [hpush, List.map_append, List.append_assoc]
        exact List.perm_middle.symm
      obtain ⟨L₂, h₂, hmono⟩ := ih ((h.take ht fun ho => absurd ho (lt_irrefl 0)).perm hperm)
        (by rw [hpush, List.length_append, List.length_singleton]; omega)
      refine ⟨L₂, h₂, fun i hi => ?_⟩
      have hi₁ : ¬ Cover frameLevel L₁ (i * frameSize) :=
        fun hc => hi ((ht.cover _).mpr (Or.inl hc))
      refine (hmono i hi₁).trans ?_
      rw [← refs_perm hperm]
      exact (Ledger.take_refs ht hi).le

/-- **The drain loop** moves frames from the cache to the buddy lists; no free is refused. -/
theorem pcpuDrain_spec (h : Ledger usable a L (c.items.map slotToken ++ R)) :
    ∃ L', Ledger usable (pcpuDrain n a c).1 L' ((pcpuDrain n a c).2.items.map slotToken ++ R) ∧
      ∀ i, refs ((pcpuDrain n a c).2.items.map slotToken ++ R) i ≤
        refs (c.items.map slotToken ++ R) i := by
  induction n generalizing a L c with
  | zero => exact ⟨L, h, fun _ => le_refl _⟩
  | succ n ih =>
    simp only [pcpuDrain]
    cases hp : c.pop with
    | none => exact ⟨L, h, fun _ => le_refl _⟩
    | some xc =>
      obtain ⟨x, c₁⟩ := xc
      have hperm : (c.items.map slotToken ++ R).Perm
          (blockToken x 0 :: (c₁.items.map slotToken ++ R)) :=
        ((BoundedStack.pop_perm hp).map slotToken).append_right _
      obtain ⟨a₁, L₁, heq, h₁⟩ := (h.perm hperm).free
      obtain ⟨L₂, h₂, hmono⟩ := ih h₁
      have heq' : a.freeInner x 0 = .ok a₁ := heq
      simp only [heq']
      refine ⟨L₂, h₂, fun i => (hmono i).trans ?_⟩
      rw [refs_perm hperm, refs_cons]
      omega

/-! ## One section of a call -/

/-- What a section of the call `pc` does, `s.calls` being the other calls. -/
structure Advances (usable : Nat → Prop) (s : State) (L : Nat → List Nat) (pc : Pc) (s' : State)
    (next : Option Pc) (L' : Nat → List Nat) : Prop where
  calls : s'.calls = s.calls
  ledger : Ledger usable s'.alloc L' (next.toList.flatMap Pc.token ++ tokens s')
  -- only free frames can gain references
  refs_le : ∀ i, ¬ Cover frameLevel L (i * frameSize) →
    refs (next.toList.flatMap Pc.token ++ tokens s') i ≤ refs (pc.token ++ tokens s) i
  -- the cache of a CPU on which another call has interrupts off is left alone
  caches : ∀ cpu, s.irqsOff cpu = true → s'.caches[cpu]? = s.caches[cpu]?
  irqs : ∀ p ∈ next, ∀ cpu, p.cpu = some cpu → s.irqsOff cpu = false
  refill : ∀ u cpu, next = some (.refill u cpu) → ∀ c, s'.caches[cpu]? = some c → c.items = []

/-- A section that only moves tokens; a cache it changes belongs to no other call. -/
theorem Advances.moved (h : Ledger usable s.alloc L (pc.token ++ tokens s))
    (hperm : (pc.token ++ tokens s).Perm (next.toList.flatMap Pc.token ++ tokens s'))
    (hcalls : s'.calls = s.calls) (halloc : s'.alloc = s.alloc)
    (hcaches : ∀ cpu, s.irqsOff cpu = true → s'.caches[cpu]? = s.caches[cpu]?)
    (hcpu : ∀ p ∈ next, p.cpu = none) : Advances usable s L pc s' next L where
  calls := hcalls
  ledger := halloc ▸ h.perm hperm
  refs_le i _ := (refs_perm hperm).symm.le
  caches := hcaches
  irqs p hp cpu hc := by
    rw [hcpu p hp] at hc
    cases hc
  refill u cpu hn := by
    have := hcpu _ (Option.mem_def.mpr hn)
    cases this

/-- A section that passes the only reference to a block on to where it may come to be shared. -/
theorem Advances.passed {o : Nat} (h : Ledger usable s.alloc L (pc.token ++ tokens s))
    (hpc : pc.token = [blockToken x o])
    (hperm : (ownerToken (x, o) :: tokens s).Perm (next.toList.flatMap Pc.token ++ tokens s'))
    (hcalls : s'.calls = s.calls) (halloc : s'.alloc = s.alloc)
    (hcaches : ∀ cpu, s.irqsOff cpu = true → s'.caches[cpu]? = s.caches[cpu]?)
    (hcpu : ∀ p ∈ next, p.cpu = none) : Advances usable s L pc s' next L where
  calls := hcalls
  ledger := by
    rw [hpc] at h
    exact halloc ▸ (ledger_owner h).perm hperm
  refs_le i _ := by
    rw [hpc, ← refs_perm hperm]
    exact le_refl (refs (ownerToken (x, o) :: tokens s) i)
  caches := hcaches
  irqs p hp cpu hc := by
    rw [hcpu p hp] at hc
    cases hc
  refill u cpu hn := by
    have := hcpu _ (Option.mem_def.mpr hn)
    cases this

/-- The address of a token is the start of a frame. -/
theorem fromAddr_eq (h : Ledger usable a L T) {t : Token} (ht : t ∈ T) (s : State) (p : Pc) :
    s.fromAddr t.addr p = (s, some p) :=
  if_pos (Nat.mod_eq_zero_of_dvd (h.hand ht).dvd)

/-- Charging succeeds and delivers, or fails and frees: either way the block moves on. -/
theorem charged_spec {order : Nat} {u : Use order} {q : Pc}
    (h : Ledger usable s.alloc L (pc.token ++ tokens s))
    (hpc : pc.token = [blockToken x order]) (hq : q.token = [ownerToken (x, order)])
    (hcpu : q.cpu = none)
    (hs : (if b then s.deliver x u else (s, some q)) = (s', next)) :
    Advances usable s L pc s' next L := by
  cases b with
  | true =>
    simp only [if_true] at hs
    cases u with
    | caller =>
      cases hs
      exact .passed h hpc (List.Perm.refl _) rfl rfl (fun _ _ => rfl) fun p hp => by cases hp
    | zeroed =>
      cases hs
      refine .moved h (by rw [hpc]; exact List.Perm.refl _) rfl rfl (fun _ _ => rfl) ?_
      rintro p ⟨⟩
      rfl
    | pool left =>
      cases hs
      refine .moved h (by rw [hpc]; exact List.Perm.refl _) rfl rfl (fun _ _ => rfl) ?_
      rintro p ⟨⟩
      rfl
  | false =>
    simp only [Bool.false_eq_true, if_false, Prod.mk.injEq] at hs
    obtain ⟨rfl, rfl⟩ := hs
    refine .passed h hpc (by simp [hq]) rfl rfl (fun _ _ => rfl) ?_
    rintro p ⟨⟩
    exact hcpu

/-- Replacing the cache of a CPU no other call has interrupts off on leaves the others alone. -/
theorem set_cache_other (hirq : s.irqsOff cpu = false) (c' : PerCpuFrameCache) (k : Nat)
    (hk : s.irqsOff k = true) : (s.caches.set cpu c')[k]? = s.caches[k]? := by
  have hne : cpu ≠ k := by
    rintro rfl
    rw [hirq] at hk
    cases hk
  exact List.getElem?_set_ne hne

/-- Popping a cache on a CPU no other call has interrupts off on. -/
theorem popped_spec {u : Use 0} (h : Ledger usable s.alloc L (pc.token ++ tokens s))
    (hpc : pc.token = []) (hirq : s.irqsOff cpu = false) (hc : s.caches[cpu]? = some c)
    (hp : c.pop = some (x, c'))
    (hs : { s with caches := s.caches.set cpu c' }.fromAddr x (.chargeCached u x) = (s', next)) :
    Advances usable s L pc s' next L := by
  have hperm : (pc.token ++ tokens s).Perm
      (blockToken x 0 :: tokens { s with caches := s.caches.set cpu c' }) := by
    rw [hpc]
    exact tokens_cache_pop hc hp
  have hmem : blockToken x 0 ∈ pc.token ++ tokens s := hperm.mem_iff.mpr List.mem_cons_self
  have heq := fromAddr_eq h hmem { s with caches := s.caches.set cpu c' } (.chargeCached u x)
  obtain ⟨rfl, rfl⟩ := Prod.mk.inj (heq.symm.trans hs)
  refine .moved h hperm rfl rfl (set_cache_other hirq _) ?_
  rintro p ⟨⟩
  rfl

/-- Pushing to a cache on a CPU no other call has interrupts off on; a refused frame goes on to the
buddy lists. -/
theorem pushed_spec (h : Ledger usable s.alloc L (pc.token ++ tokens s))
    (hpc : pc.token = [blockToken x 0]) (hirq : s.irqsOff cpu = false)
    (hc : s.caches[cpu]? = some c) (hs : s.pushCached cpu c x = (s', next)) :
    Advances usable s L pc s' next L := by
  unfold State.pushCached at hs
  cases hb : (c.push x).1 with
  | true =>
    simp only [hb, if_true, Prod.mk.injEq] at hs
    obtain ⟨rfl, rfl⟩ := hs
    refine .moved h ?_ rfl rfl (set_cache_other hirq _) fun p hp => by cases hp
    rw [hpc]
    exact (tokens_cache_push hc hb).symm
  | false =>
    simp only [hb, Bool.false_eq_true, if_false, Prod.mk.injEq] at hs
    obtain ⟨rfl, rfl⟩ := hs
    have hself : s.caches.set cpu c = s.caches := by
      obtain ⟨hlt, rfl⟩ := List.getElem?_eq_some_iff.mp hc
      exact List.set_getElem_self hlt
    refine .passed h hpc ?_ rfl rfl (set_cache_other hirq _) ?_
    · rw [BoundedStack.push_of_full hb, hself]
      exact List.Perm.refl _
    · rintro p ⟨⟩
      rfl

/-- A section that only moves the program counter. -/
theorem stays_spec {p : Pc} (h : Ledger usable s.alloc L (pc.token ++ tokens s))
    (hs : some (s, some p) = some (s', next)) (hp : p.token = pc.token) (hcpu : p.cpu = none) :
    ∃ L', Advances usable s L pc s' next L' := by
  cases hs
  refine ⟨L, .moved h (by simp [hp]) rfl rfl (fun _ _ => rfl) ?_⟩
  rintro q ⟨⟩
  exact hcpu

/-- A section that ends the call, which holds nothing any more. -/
theorem ends_spec (h : Ledger usable s.alloc L (pc.token ++ tokens s))
    (hs : some (s, none) = some (s', next)) (hp : pc.token = []) :
    ∃ L', Advances usable s L pc s' next L' := by
  cases hs
  exact ⟨L, .moved h (by simp [hp]) rfl rfl (fun _ _ => rfl) fun p hp => by cases hp⟩

/-- A frame comes from the pool of zeroed ones, or the call goes on to the caches. -/
theorem frameZeroed_spec
    (h : Ledger usable s.alloc L (Pc.frameZeroed.token ++ tokens s))
    (hs : advance s cpu b .frameZeroed = some (s', next)) :
    ∃ L', Advances usable s L .frameZeroed s' next L' := by
  simp only [advance] at hs
  split at hs
  · split at hs
    · next x p hpop =>
        have hperm := tokens_pool_pop hpop
        have hmem : blockToken x 0 ∈ tokens s := hperm.mem_iff.mpr List.mem_cons_self
        have heq := fromAddr_eq h hmem { s with pool := p } (.chargePooled x)
        obtain ⟨rfl, rfl⟩ := Prod.mk.inj (heq.symm.trans (Option.some.inj hs))
        refine ⟨L, .moved h hperm rfl rfl (fun _ _ => rfl) ?_⟩
        rintro q ⟨⟩
        rfl
    · exact stays_spec h hs rfl rfl
  · exact stays_spec h hs rfl rfl

/-- A frame comes from the CPU's cache, or the cache is to be refilled. -/
theorem frame_spec {u : Use 0}
    (h : Ledger usable s.alloc L ((Pc.frame u).token ++ tokens s))
    (hs : advance s cpu b (.frame u) = some (s', next)) :
    ∃ L', Advances usable s L (.frame u) s' next L' := by
  simp only [advance] at hs
  split at hs
  · split at hs
    · cases hs
    next hoff =>
    have hoff' := Bool.eq_false_iff.mpr hoff
    split at hs
    · cases hs
    next c hc =>
    split at hs
    · next x c' hpop => exact ⟨L, popped_spec h rfl hoff' hc hpop (Option.some.inj hs)⟩
    · next hpop =>
        cases hs
        refine ⟨L, rfl, h, fun _ _ => le_refl _, fun _ _ => rfl, fun p hp k hk => ?_,
          fun v k hn c₁ hc₁ => ?_⟩
        · cases hp
          cases hk
          exact hoff'
        · obtain ⟨-, rfl⟩ := Pc.refill.inj (Option.some.inj hn)
          obtain rfl := Option.some.inj (hc.symm.trans hc₁)
          exact BoundedStack.pop_eq_none_iff.mp hpop
  · exact stays_spec h hs rfl rfl

/-- The cache is refilled from the buddy lists. -/
theorem refill_spec {u : Use 0} {k : Nat}
    (h : Ledger usable s.alloc L ((Pc.refill u k).token ++ tokens s))
    (hirq : s.irqsOff k = false)
    (hrefill : ∀ c, s.caches[k]? = some c → c.items = [])
    (hs : advance s cpu b (.refill u k) = some (s', next)) :
    ∃ L', Advances usable s L (.refill u k) s' next L' := by
  simp only [advance] at hs
  split at hs
  · cases hs
  next c hc =>
  cases hs
  obtain ⟨R, hR, hset⟩ := tokens_cache hc
  have hempty : c.items = [] := hrefill c hc
  obtain ⟨L', hled, hmono⟩ := pcpuRefill_spec (n := pcpuBatch) (h.perm hR)
    (by rw [hempty]; decide)
  have hnext : ∀ p : Pc, (if (pcpuRefill pcpuBatch s.alloc c).1 > 0 then Pc.popAgain u k
      else .order 0 u none) = p → p.token = [] ∧ ∀ j, p.cpu = some j → j = k := by
    rintro p rfl
    split
    · exact ⟨rfl, fun j hj => (Option.some.inj hj).symm⟩
    · exact ⟨rfl, fun j hj => by cases hj⟩
  obtain ⟨htok, hcpu⟩ := hnext _ rfl
  have hnew := hset (pcpuRefill pcpuBatch s.alloc c).2.2 (pcpuRefill pcpuBatch s.alloc c).2.1
  refine ⟨L', rfl, ?_, fun i hi => ?_, fun j hj => ?_, fun p hp j hj => ?_, fun v j hn => ?_⟩
  · simp only [Option.toList_some, List.flatMap_cons, List.flatMap_nil, htok, List.append_nil]
    exact hled.perm hnew.symm
  · simp only [Option.toList_some, List.flatMap_cons, List.flatMap_nil, htok, List.append_nil]
    rw [List.nil_append, refs_perm hnew]
    exact (hmono i hi).trans (refs_perm hR).symm.le
  · exact set_cache_other hirq _ j hj
  · cases hp
    obtain rfl := hcpu j hj
    exact hirq
  · have hv := Option.some.inj hn
    split at hv <;> cases hv

/-- A block comes from the buddy lists, or there is none. -/
theorem order_spec {o : Nat} {u : Use o} {m : Option Nat}
    (h : Ledger usable s.alloc L ((Pc.order o u m).token ++ tokens s))
    (hs : advance s cpu b (.order o u m) = some (s', next)) :
    ∃ L', Advances usable s L (.order o u m) s' next L' := by
  simp only [advance] at hs
  have htakes : ∀ x a, s.attempt o m = .ok (x, a) → ∃ L', Takes s.alloc L x o a L' := by
    intro x a heq
    cases m with
    | none => exact allocInner_spec h.represents heq
    | some m => exact allocInnerConstrained_spec h.represents heq
  split at hs
  · next x a heq =>
      obtain ⟨L', ht⟩ := htakes x a heq
      have hled : Ledger usable a L' (blockToken x o :: tokens s) := h.take ht fun _ => rfl
      have hfrom := fromAddr_eq hled List.mem_cons_self { s with alloc := a }
        (.chargeOrder o u x)
      obtain ⟨rfl, rfl⟩ := Prod.mk.inj (hfrom.symm.trans (Option.some.inj hs))
      refine ⟨L', rfl, hled, fun i hi => (Ledger.take_refs ht hi).le, fun _ _ => rfl, ?_, ?_⟩
      · rintro p ⟨⟩ k ⟨⟩
      · rintro v k ⟨⟩
  · cases b with
    | true => exact stays_spec h hs rfl rfl
    | false => exact ends_spec h hs rfl
  · exact ends_spec h hs rfl

/-- The zeroed frame goes into the pool, or back to the allocator. -/
theorem poolPush_spec {left x : Nat}
    (h : Ledger usable s.alloc L ((Pc.poolPush left x).token ++ tokens s))
    (hs : advance s cpu b (.poolPush left x) = some (s', next)) :
    ∃ L', Advances usable s L (.poolPush left x) s' next L' := by
  simp only [advance] at hs
  split at hs
  · next hpush =>
      cases hs
      refine ⟨L, .moved h (tokens_pool_push hpush).symm rfl rfl (fun _ _ => rfl) ?_⟩
      rintro q ⟨⟩
      rfl
  · cases hs
    refine ⟨L, .passed h rfl (List.Perm.refl _) rfl rfl (fun _ _ => rfl) ?_⟩
    rintro q ⟨⟩
    rfl

/-- A frame is given back; where its counter is read as one, the call takes its reference. -/
theorem freeFrame_spec {x : Nat}
    (h : Ledger usable s.alloc L ((Pc.freeFrame x).token ++ tokens s))
    (hs : advance s cpu b (.freeFrame x) = some (s', next)) :
    ∃ L', Advances usable s L (.freeFrame x) s' next L' := by
  simp only [advance] at hs
  split at hs
  · exact stays_spec h hs rfl rfl
  split at hs
  · exact stays_spec h hs rfl rfl
  next hrc =>
  split at hs
  · exact stays_spec h hs rfl rfl
  -- the counter was read as at most one: the call's reference is the only one
  cases hs
  have hlt : frameIndex x < s.alloc.totalFrames := by
    have hle := (h.hand List.mem_cons_self).index_add_le
    have := Nat.two_pow_pos (ownerToken (x, 0)).order
    have hx : (ownerToken (x, 0)).addr = x := rfl
    rw [hx] at hle
    omega
  have hone : s.alloc.refcount (frameIndex x) ≤ 1 := by
    by_contra hgt
    exact hrc ⟨hlt, by omega⟩
  refine ⟨L, rfl, Ledger.claim h hone, fun i _ => le_refl _, fun _ _ => rfl, ?_, ?_⟩
  · rintro p ⟨⟩ k ⟨⟩
  · rintro v k ⟨⟩

/-- The frame goes into the CPU's cache, or the cache is to be drained. -/
theorem freeCached_spec {x : Nat}
    (h : Ledger usable s.alloc L ((Pc.freeCached x).token ++ tokens s))
    (hs : advance s cpu b (.freeCached x) = some (s', next)) :
    ∃ L', Advances usable s L (.freeCached x) s' next L' := by
  simp only [advance] at hs
  split at hs
  · cases hs
  next hoff =>
  have hoff' := Bool.eq_false_iff.mpr hoff
  split at hs
  · cases hs
  next c hc =>
  split at hs
  · cases hs
    refine ⟨L, rfl, h, fun _ _ => le_refl _, fun _ _ => rfl, ?_, ?_⟩
    · rintro p ⟨⟩ k ⟨⟩
      exact hoff'
    · rintro v k ⟨⟩
  · exact ⟨L, pushed_spec h rfl hoff' hc (Option.some.inj hs)⟩

/-- The cache is drained to the buddy lists. -/
theorem drain_spec {x k : Nat}
    (h : Ledger usable s.alloc L ((Pc.drain x k).token ++ tokens s))
    (hirq : s.irqsOff k = false)
    (hs : advance s cpu b (.drain x k) = some (s', next)) :
    ∃ L', Advances usable s L (.drain x k) s' next L' := by
  simp only [advance] at hs
  split at hs
  · cases hs
  next c hc =>
  cases hs
  obtain ⟨R, hR, hset⟩ := tokens_cache hc
  have hfront : ((Pc.drain x k).token ++ tokens s).Perm
      (c.items.map slotToken ++ (blockToken x 0 :: R)) :=
    (hR.cons _).trans List.perm_middle.symm
  obtain ⟨L', hled, hmono⟩ := pcpuDrain_spec (n := pcpuBatch) (h.perm hfront)
  have hnew : ((Pc.pushAgain x k).token ++
      tokens { s with
        alloc := (pcpuDrain pcpuBatch s.alloc c).1
        caches := s.caches.set k (pcpuDrain pcpuBatch s.alloc c).2 }).Perm
      ((pcpuDrain pcpuBatch s.alloc c).2.items.map slotToken ++ (blockToken x 0 :: R)) :=
    ((hset _ _).cons _).trans List.perm_middle.symm
  refine ⟨L', rfl, hled.perm hnew.symm, fun i _ => ?_, fun j hj => ?_, ?_, ?_⟩
  · calc refs ((Pc.pushAgain x k).token ++ _) i = _ := refs_perm hnew
      _ ≤ _ := hmono i
      _ = _ := (refs_perm hfront).symm
  · exact set_cache_other hirq _ j hj
  · rintro p ⟨⟩ j ⟨⟩
    exact hirq
  · rintro v j ⟨⟩

/-- A block goes back to the buddy lists. -/
theorem freeOrder_spec {x o : Nat}
    (h : Ledger usable s.alloc L ((Pc.freeOrder x o).token ++ tokens s))
    (hs : advance s cpu b (.freeOrder x o) = some (s', next)) :
    ∃ L', Advances usable s L (.freeOrder x o) s' next L' := by
  simp only [advance] at hs
  obtain ⟨a', L', heq, hled⟩ := Ledger.free (t := ownerToken (x, o)) h
  have heq' : s.alloc.freeInner x o = .ok a' := heq
  rw [heq'] at hs
  cases hs
  refine ⟨L', rfl, hled, fun i _ => ?_, fun _ _ => rfl, (by rintro p ⟨⟩), (by rintro v k ⟨⟩)⟩
  change refs (tokens s) i ≤ refs (ownerToken (x, o) :: tokens s) i
  rw [refs_cons]
  omega

/-- **One section of a call** keeps the ledger, leaves the caches of other calls alone, and lets
only free frames gain references. -/
theorem advance_spec (h : Ledger usable s.alloc L (pc.token ++ tokens s))
    (hirq : ∀ k, pc.cpu = some k → s.irqsOff k = false)
    (hrefill : ∀ u k, pc = .refill u k → ∀ c, s.caches[k]? = some c → c.items = [])
    (hs : advance s cpu b pc = some (s', next)) : ∃ L', Advances usable s L pc s' next L' := by
  cases pc with
  | frameZeroed => exact frameZeroed_spec h hs
  | chargePooled x => exact ⟨L, charged_spec h rfl rfl rfl (Option.some.inj hs)⟩
  | frame u => exact frame_spec h hs
  | refill u k => exact refill_spec h (hirq k rfl) (hrefill u k rfl) hs
  | popAgain u k =>
    simp only [advance] at hs
    split at hs
    · cases hs
    next c hc =>
    split at hs
    · next x c' hpop => exact ⟨L, popped_spec h rfl (hirq k rfl) hc hpop (Option.some.inj hs)⟩
    · exact stays_spec h hs rfl rfl
  | chargeCached u x => exact ⟨L, charged_spec h rfl rfl rfl (Option.some.inj hs)⟩
  | order o u m => exact order_spec h hs
  | chargeOrder o u x => exact ⟨L, charged_spec h rfl rfl rfl (Option.some.inj hs)⟩
  | zero x => exact ⟨L, charged_spec h rfl rfl rfl (Option.some.inj hs)⟩
  | poolFill =>
    simp only [advance] at hs
    split at hs
    · split at hs
      · exact ends_spec h hs rfl
      · exact stays_spec h hs rfl rfl
    · exact ends_spec h hs rfl
  | poolNext left =>
    cases left with
    | zero => exact ends_spec h hs rfl
    | succ left => exact stays_spec h hs rfl rfl
  | poolPush left x => exact poolPush_spec h hs
  | freeFrame x => exact freeFrame_spec h hs
  | freeCached x => exact freeCached_spec h hs
  | drain x k => exact drain_spec h (hirq k rfl) hs
  | pushAgain x k =>
    simp only [advance] at hs
    split at hs
    · cases hs
    next c hc => exact ⟨L, pushed_spec h rfl (hirq k rfl) hc (Option.some.inj hs)⟩
  | freeOrder x o => exact freeOrder_spec h hs

/-! ## The invariant -/

/-- **The invariant of the layered allocator.** -/
structure Inv (usable : Nat → Prop) (s : State) (L : Nat → List Nat) : Prop where
  ledger : Ledger usable s.alloc L (tokens s)
  irqs : s.calls.Pairwise fun p q => p.cpu = none ∨ p.cpu ≠ q.cpu
  refill : ∀ p ∈ s.calls, ∀ u cpu, p = .refill u cpu → ∀ c, s.caches[cpu]? = some c → c.items = []

theorem irqsOff_of_mem {p : Pc} (hp : p ∈ s.calls) {k : Nat} (hk : p.cpu = some k) :
    s.irqsOff k = true :=
  List.any_eq_true.mpr ⟨p, hp, decide_eq_true hk⟩

theorem not_irqsOff_iff {k : Nat} : s.irqsOff k = false ↔ ∀ p ∈ s.calls, p.cpu ≠ some k := by
  simp [State.irqsOff]

/-- The order of the calls in progress is immaterial. -/
theorem Inv.perm (h : Inv usable s L) {ps : List Pc} (hp : s.calls.Perm ps) :
    Inv usable { s with calls := ps } L where
  ledger := h.ledger.perm (tokens_calls_perm hp)
  irqs := by
    refine (hp.pairwise_iff ?_).mp h.irqs
    rintro p q (h1 | h1)
    · by_cases hq : q.cpu = none
      · exact Or.inl hq
      · exact Or.inr fun he => hq (he.trans h1)
    · exact Or.inr fun he => h1 he.symm
  refill p hm := h.refill p (hp.mem_iff.mpr hm)

/-- A new call at a program counter with interrupts on that brings its tokens along. -/
theorem Inv.start (h : Inv usable s L) (t : State) {p : Pc} (hcpu : p.cpu = none)
    (hled : Ledger usable t.alloc L' (p.token ++ tokens t)) (hcalls : t.calls = s.calls)
    (hcaches : t.caches = s.caches) : Inv usable { t with calls := p :: s.calls } L' where
  ledger := by
    rw [← hcalls]
    exact hled.perm (tokens_call (s := t) p).symm
  irqs := List.pairwise_cons.mpr ⟨fun _ _ => Or.inl hcpu, h.irqs⟩
  refill q hq u k hqk c hc := by
    rcases List.mem_cons.mp hq with rfl | hq
    · rw [hqk] at hcpu
      cases hcpu
    · exact h.refill q hq u k hqk c (by rw [← hcaches]; exact hc)

/-- A section of a call keeps the invariant. -/
theorem Inv.advanced (h : Inv usable { s with calls := pc :: s.calls } L)
    (ha : Advances usable s L pc s' next L') :
    Inv usable { s' with calls := next.toList ++ s'.calls } L' where
  ledger := ha.ledger.perm (tokens_calls _).symm
  irqs := by
    have hrest := (List.pairwise_cons.mp h.irqs).2
    rw [ha.calls]
    cases next with
    | none => exact hrest
    | some p =>
      refine List.pairwise_cons.mpr ⟨fun q hq => ?_, hrest⟩
      cases hp : p.cpu with
      | none => exact Or.inl rfl
      | some k =>
        refine Or.inr fun he => ?_
        exact not_irqsOff_iff.mp (ha.irqs p rfl k hp) q hq he.symm
  refill q hq u k hqk c hc := by
    rw [ha.calls] at hq
    rcases List.mem_append.mp hq with hq | hq
    · obtain rfl : next = some q := by
        cases next with
        | none => cases hq
        | some p => rw [List.mem_singleton.mp hq]
      exact ha.refill u k (by rw [hqk]) c hc
    · have hoff : s.irqsOff k = true := irqsOff_of_mem hq (by rw [hqk]; rfl)
      have hc' : s'.caches[k]? = some c := hc
      rw [ha.caches k hoff] at hc'
      exact h.refill q (List.mem_cons_of_mem _ hq) u k hqk c hc'

/-- The invariant gives a section what it needs: its tokens, its CPU to itself, an empty cache. -/
theorem Inv.advances (h : Inv usable { s with calls := pc :: s.calls } L)
    (hs : advance s cpu b pc = some (s', next)) : ∃ L', Advances usable s L pc s' next L' := by
  refine advance_spec (h.ledger.perm (tokens_call pc)) (fun k hk => ?_)
    (fun u k hp c hc => h.refill pc List.mem_cons_self u k hp c hc) hs
  refine not_irqsOff_iff.mpr fun q hq he => ?_
  rcases (List.pairwise_cons.mp h.irqs).1 q hq with h1 | h1
  · rw [hk] at h1
    cases h1
  · exact h1 (hk.trans he.symm)

/-- **One step** keeps the invariant, and except for `ref_inc` only free frames gain references. -/
theorem Inv.step (h : Inv usable s L) {act : Action} (hs : step s act = some s') :
    ∃ L', Inv usable s' L' ∧ ((∀ x, act ≠ .refInc x) →
      ∀ i, ¬ Cover frameLevel L (i * frameSize) → refs (tokens s') i ≤ refs (tokens s) i) := by
  -- a call that starts without a token
  have hfresh : ∀ {p : Pc}, some { s with calls := p :: s.calls } = some s' → p.cpu = none →
      p.token = [] → ∃ L', Inv usable s' L' ∧ ((∀ x, act ≠ .refInc x) →
        ∀ i, ¬ Cover frameLevel L (i * frameSize) → refs (tokens s') i ≤ refs (tokens s) i) := by
    intro p heq hcpu htok
    cases heq
    refine ⟨L, h.start s hcpu (by rw [htok]; exact h.ledger) rfl rfl, fun _ i _ => ?_⟩
    have hperm := tokens_call (s := s) p
    rw [htok] at hperm
    exact (refs_perm hperm).le
  -- a call that starts with a reference its caller held
  have hgiven : ∀ {p : Pc} {o : Nat × Nat}, o ∈ s.owners →
      some { s with owners := s.owners.erase o, calls := p :: s.calls } = some s' →
      p.cpu = none → p.token = [ownerToken o] → ∃ L', Inv usable s' L' ∧
        ((∀ x, act ≠ .refInc x) → ∀ i, ¬ Cover frameLevel L (i * frameSize) →
          refs (tokens s') i ≤ refs (tokens s) i) := by
    intro p o ho heq hcpu htok
    cases heq
    have hperm := tokens_owner_erase ho
    have hled : Ledger usable s.alloc L
        (p.token ++ tokens { s with owners := s.owners.erase o }) := by
      rw [htok]
      exact h.ledger.perm hperm
    refine ⟨L, h.start { s with owners := s.owners.erase o } hcpu hled rfl rfl,
      fun _ i _ => ?_⟩
    have hcall := tokens_call (s := { s with owners := s.owners.erase o }) p
    rw [htok] at hcall
    exact (refs_perm (hcall.trans hperm.symm)).le
  cases act with
  | allocFrame => exact hfresh hs rfl rfl
  | allocFrameZeroed => exact hfresh hs rfl rfl
  | allocOrder o => exact hfresh hs rfl rfl
  | allocOrderConstrained o m => exact hfresh hs rfl rfl
  | refillZeroPool => exact hfresh hs rfl rfl
  | freeFrame x =>
    simp only [Layers.step] at hs
    split at hs
    · next hx => exact hgiven hx hs rfl rfl
    · cases hs
  | freeOrder x o =>
    simp only [Layers.step] at hs
    split at hs
    · next hx => exact hgiven hx hs rfl rfl
    · cases hs
  | refInc x =>
    simp only [Layers.step] at hs
    split at hs
    · next hx =>
        have hperm := tokens_owner_erase hx.1
        obtain ⟨a', heq, hled⟩ := Ledger.inc (h.ledger.perm hperm) hx.2
        rw [heq] at hs
        cases hs
        refine ⟨L, ⟨hled.perm (hperm.symm.cons _), h.irqs, h.refill⟩, fun hne => ?_⟩
        exact absurd rfl (hne x)
    · cases hs
  | write x n =>
    simp only [Layers.step] at hs
    split at hs
    · next hx =>
        obtain ⟨t, ht, hw⟩ := hx
        cases hs
        exact ⟨L, ⟨h.ledger.write (List.mem_append_left _ ht) hw n, h.irqs, h.refill⟩,
          fun _ _ _ => le_refl _⟩
    · cases hs
  | setPcpu on =>
    cases hs
    exact ⟨L, ⟨h.ledger, h.irqs, h.refill⟩, fun _ _ _ => le_refl _⟩
  | setZeroPool on =>
    cases hs
    exact ⟨L, ⟨h.ledger, h.irqs, h.refill⟩, fun _ _ _ => le_refl _⟩
  | advance k cpu b =>
    simp only [Layers.step] at hs
    split at hs
    · cases hs
    next pc hpc =>
    obtain ⟨⟨t, next⟩, hadv, rfl⟩ := Option.map_eq_some_iff.mp hs
    have hfront := perm_cons_eraseIdx hpc
    have hinv : Inv usable { ({ s with calls := s.calls.eraseIdx k } : State) with
        calls := pc :: s.calls.eraseIdx k } L := h.perm hfront
    obtain ⟨L', ha⟩ := hinv.advances hadv
    refine ⟨L', hinv.advanced ha, fun _ i hi => ?_⟩
    calc refs (tokens { t with calls := next.toList ++ t.calls }) i
        = refs (next.toList.flatMap Pc.token ++ tokens t) i := refs_perm (tokens_calls _)
      _ ≤ refs (pc.token ++ tokens { s with calls := s.calls.eraseIdx k }) i := ha.refs_le i hi
      _ = refs (tokens { s with calls := pc :: s.calls.eraseIdx k }) i :=
          (refs_perm (tokens_call (s := { s with calls := s.calls.eraseIdx k }) pc)).symm
      _ = refs (tokens s) i := (refs_perm (tokens_calls_perm hfront)).symm

/-- The invariant holds initially: the usable frames are the ranges' frames, all of them free. -/
theorem inv_initial {totalFrames : Nat} {ranges : List (Nat × Nat)} {cpus : Nat}
    (hok : Invariant.RangesOk totalFrames ranges) :
    ∃ L, Inv (fun i => Usable ranges (i * frameSize)) (initial totalFrames ranges cpus) L := by
  have hempty : tokens (initial totalFrames ranges cpus) = [] := by
    have hc : (List.replicate cpus (BoundedStack.empty : PerCpuFrameCache)).flatMap
        BoundedStack.items = [] := by
      simp
    simp only [tokens, State.held, slots, initial, hc]
    rfl
  obtain ⟨L, hrep, _, hcov⟩ := Invariant.initial_spec hok
  refine ⟨L, ⟨hrep, ?_, ?_, ?_, ?_, fun i => ?_⟩, List.Pairwise.nil, fun p hp => by cases hp⟩
  all_goals rw [hempty]
  · exact fun t ht => by cases ht
  · exact fun i hi => absurd hi (lt_irrefl 0)
  · exact fun t ht => by cases ht
  · exact fun t ht => by cases ht
  · rw [hcov]
    simp [Usable]

theorem reach_inv {totalFrames : Nat} {ranges : List (Nat × Nat)} {cpus : Nat}
    (hok : Invariant.RangesOk totalFrames ranges)
    (hs : Reach step (fun s => s = initial totalFrames ranges cpus) s) :
    ∃ L, Inv (fun i => Usable ranges (i * frameSize)) s L := by
  induction hs with
  | start h =>
    subst h
    exact inv_initial hok
  | next _ _ hstep ih =>
    obtain ⟨L, hinv⟩ := ih
    obtain ⟨L', hinv', _⟩ := hinv.step hstep
    exact ⟨L', hinv'⟩

/-! ## Every usable frame is in exactly one place -/

/-- A slot's frame has no other reference. -/
theorem slot_refs (h : Ledger usable s.alloc L (tokens s)) (hx : x ∈ slots s) :
    refs (tokens s) (frameIndex x) = 1 := by
  have hmem : slotToken x ∈ tokens s := List.mem_append_right _ (List.mem_map_of_mem hx)
  exact h.sole _ hmem rfl _ (h.covers_base hmem)

/-- No frame is in two slots. -/
theorem slots_nodup (h : Ledger usable s.alloc L (tokens s)) : (slots s).Nodup := by
  refine List.nodup_iff_count_le_one.mpr fun x => ?_
  by_cases hx : x ∈ slots s
  · have hone := slot_refs h hx
    have hle : (slots s).count x ≤ refs ((slots s).map slotToken) (frameIndex x) := by
      rw [refs, List.countP_map]
      refine List.countP_mono_left fun y hy hyx => ?_
      have hmem : slotToken y ∈ tokens s := List.mem_append_right _ (List.mem_map_of_mem hy)
      obtain rfl : y = x := by simpa using hyx
      exact h.covers_base hmem
    rw [tokens, refs_append] at hone
    omega
  · rw [List.count_eq_zero.mpr hx]
    omega

/-- A frame in a slot is held by nobody. -/
theorem held_refs_of_slot (h : Ledger usable s.alloc L (tokens s)) (hx : x ∈ slots s) :
    refs s.held (frameIndex x) = 0 := by
  have hone := slot_refs h hx
  have hmem : slotToken x ∈ (slots s).map slotToken := List.mem_map_of_mem hx
  have hpos : 0 < refs ((slots s).map slotToken) (frameIndex x) :=
    refs_pos_of_mem hmem (h.covers_base (List.mem_append_right _ hmem))
  rw [tokens, refs_append] at hone
  omega

theorem mem_slots_of_cache {k j : Nat} (h : At s x (.cache k j)) : x ∈ slots s := by
  obtain ⟨c, hc, hx⟩ := h
  exact List.mem_append_left _
    (List.mem_flatMap.mpr ⟨c, List.mem_of_getElem? hc, List.mem_of_getElem? hx⟩)

theorem mem_slots_of_pool {j : Nat} (h : At s x (.pool j)) : x ∈ slots s :=
  List.mem_append_right _ (List.mem_of_getElem? h)

/-- An item at two positions of a list without duplicates is at one. -/
theorem position_unique {l : List Nat} {i j : Nat} (hl : l.Nodup) (hi : l[i]? = some x)
    (hj : l[j]? = some x) : i = j := by
  obtain ⟨hlt, _⟩ := List.getElem?_eq_some_iff.mp hi
  exact (List.getElem?_inj hlt hl).mp (hi.trans hj.symm)

/-- A frame is in at most one slot. -/
theorem slot_unique (h : Ledger usable s.alloc L (tokens s)) {p q : Place}
    (hp : At s x p) (hq : At s x q) (hps : ∀ a o, p ≠ .free a o) (hqs : ∀ a o, q ≠ .free a o)
    (hph : p ≠ .held) (hqh : q ≠ .held) : p = q := by
  obtain ⟨hcaches, hpool, hdisj⟩ := List.nodup_append.mp (slots_nodup h)
  obtain ⟨heach, hapart⟩ := List.nodup_flatMap.mp hcaches
  have hcross : ∀ {k j l : Nat}, At s x (.cache k j) → At s x (.pool l) → False := by
    rintro k j l ⟨c, hc, hx⟩ hl
    exact hdisj x (List.mem_flatMap.mpr ⟨c, List.mem_of_getElem? hc, List.mem_of_getElem? hx⟩) x
      (List.mem_of_getElem? hl) rfl
  cases p with
  | free a o => exact absurd rfl (hps a o)
  | held => exact absurd rfl hph
  | pool j =>
    cases q with
    | free a o => exact absurd rfl (hqs a o)
    | held => exact absurd rfl hqh
    | pool l => rw [position_unique hpool hp hq]
    | cache k l => exact absurd hp (fun hp => hcross hq hp)
  | cache k j =>
    cases q with
    | free a o => exact absurd rfl (hqs a o)
    | held => exact absurd rfl hqh
    | pool l => exact absurd hq (fun hq => hcross hp hq)
    | cache k' j' =>
      obtain ⟨c, hc, hx⟩ := hp
      obtain ⟨c', hc', hx'⟩ := hq
      -- two different caches have no frame in common
      have hkk : k = k' := by
        obtain ⟨hlt, rfl⟩ := List.getElem?_eq_some_iff.mp hc
        obtain ⟨hlt', rfl⟩ := List.getElem?_eq_some_iff.mp hc'
        have hpair := List.pairwise_iff_getElem.mp hapart
        rcases Nat.lt_trichotomy k k' with hkk | hkk | hkk
        · exact absurd (List.mem_of_getElem? hx')
            (hpair k k' hlt hlt' hkk (List.mem_of_getElem? hx))
        · exact hkk
        · exact absurd (List.mem_of_getElem? hx)
            (hpair k' k hlt' hlt hkk (List.mem_of_getElem? hx'))
      subst hkk
      obtain rfl := Option.some.inj (hc.symm.trans hc')
      rw [position_unique (heach c (List.mem_of_getElem? hc)) hx hx']

/-- **Exactly one place.** -/
theorem Inv.at_unique {f : Nat} (h : Inv usable s L) (hd : frameSize ∣ f)
    (hu : usable (frameIndex f)) : ∃! p, At s f p := by
  have hled := h.ledger
  have hfe : frameIndex f * frameSize = f := frameIndex_mul hd
  have hL := hled.represents.freeBlocks_eq
  have hcovers : ∀ t ∈ s.held, (Within (frameLevel + t.order) t.addr f ↔
      t.covers (frameIndex f) = true) := by
    intro t _
    rw [covers_iff, hfe]
  have hheld : At s f .held ↔ 0 < refs s.held (frameIndex f) := by
    rw [refs, List.countP_pos_iff]
    constructor
    · rintro ⟨t, ht, hw⟩
      exact ⟨t, ht, (hcovers t ht).mp hw⟩
    · rintro ⟨t, ht, hc⟩
      exact ⟨t, ht, (hcovers t ht).mpr hc⟩
  have hfree : ∀ {a o : Nat}, At s f (.free a o) → Cover frameLevel L (frameIndex f * frameSize) := by
    rintro a o ⟨hm, hw⟩
    rw [hL] at hm
    rw [hfe]
    exact ⟨o, a, hm, hw⟩
  have hslot : ∀ {p : Place}, At s f p → (∀ a o, p ≠ .free a o) → p ≠ .held → f ∈ slots s := by
    intro p hp h1 h2
    cases p with
    | free a o => exact absurd rfl (h1 a o)
    | held => exact absurd rfl h2
    | cache k j => exact mem_slots_of_cache hp
    | pool j => exact mem_slots_of_pool hp
  -- a free frame has no token, and a token's frame is in one kind of place only
  have htoken : ∀ {p : Place}, At s f p → (∀ a o, p ≠ .free a o) →
      0 < refs (tokens s) (frameIndex f) := by
    intro p hp h1
    by_cases h2 : p = .held
    · subst h2
      rw [tokens, refs_append]
      have := hheld.mp hp
      omega
    · have := slot_refs hled (hslot hp h1 h2)
      omega
  obtain ⟨p, hp⟩ : ∃ p, At s f p := by
    rcases (hled.usable _).mp hu with hc | hpos
    · rw [hfe] at hc
      obtain ⟨o, a, hm, hw⟩ := hc
      exact ⟨.free a o, by rw [hL]; exact hm, hw⟩
    · rw [tokens, refs_append] at hpos
      by_cases hh : 0 < refs s.held (frameIndex f)
      · exact ⟨.held, hheld.mpr hh⟩
      · obtain ⟨t, ht, hc⟩ := List.countP_pos_iff.mp
          (show 0 < refs ((slots s).map slotToken) (frameIndex f) by omega)
        obtain ⟨y, hy, rfl⟩ := List.mem_map.mp ht
        have hmem : slotToken y ∈ tokens s := List.mem_append_right _ ht
        obtain rfl : f = y := by
          have hi := hled.covers_small hmem rfl hc
          exact frameIndex_inj hd (hled.hand hmem).dvd hi
        rcases List.mem_append.mp hy with hy | hy
        · obtain ⟨c, hc, hy⟩ := List.mem_flatMap.mp hy
          obtain ⟨k, hk⟩ := List.mem_iff_getElem?.mp hc
          obtain ⟨j, hj⟩ := List.mem_iff_getElem?.mp hy
          exact ⟨.cache k j, c, hk, hj⟩
        · obtain ⟨j, hj⟩ := List.mem_iff_getElem?.mp hy
          exact ⟨.pool j, hj⟩
  refine ⟨p, hp, fun q hq => ?_⟩
  by_cases hpf : ∃ a o, p = .free a o
  · obtain ⟨a, o, rfl⟩ := hpf
    by_cases hqf : ∃ a' o', q = .free a' o'
    · obtain ⟨a', o', rfl⟩ := hqf
      obtain ⟨hm, hw⟩ := hp
      obtain ⟨hm', hw'⟩ := hq
      rw [hL] at hm hm'
      obtain ⟨rfl, rfl⟩ := hled.represents.space.disjoint hm hm' hw hw'
      rfl
    · have h1 := htoken hq fun a o he => hqf ⟨a, o, he⟩
      exact absurd (hfree hp) (hled.not_cover h1)
  · have h1 := htoken hp fun a o he => hpf ⟨a, o, he⟩
    have hqf : ∀ a o, q ≠ .free a o := by
      rintro a o rfl
      exact hled.not_cover h1 (hfree hq)
    have hpf' : ∀ a o, p ≠ .free a o := fun a o he => hpf ⟨a, o, he⟩
    have hmixed : ∀ {u v : Place}, At s f u → At s f v → (∀ a o, v ≠ .free a o) → u = .held →
        v ≠ .held → False := by
      rintro u v hu hv hvf rfl hvh
      have h0 := held_refs_of_slot hled (hslot hv hvf hvh)
      have := hheld.mp hu
      omega
    by_cases hph : p = .held <;> by_cases hqh : q = .held
    · rw [hph, hqh]
    · exact absurd (hmixed hp hq hqf hph hqh) id
    · exact absurd (hmixed hq hp hpf' hqh hph) id
    · exact slot_unique hled hq hp hqf hpf' hqh hph

/-- **No frame is lost or handed out twice.** In every reachable state every usable frame is in
exactly one of: a free block, a slot of a per-CPU cache, a slot of the zero pool, or the held set;
and a step other than `ref_inc` by which more references to it are held finds it in one of the first
three. -/
theorem frame_conserved {totalFrames : Nat} {ranges : List (Nat × Nat)} {cpus : Nat}
    (hok : Invariant.RangesOk totalFrames ranges)
    (hs : Reach step (fun s => s = initial totalFrames ranges cpus) s) {f : Nat}
    (hf : Usable ranges f) :
    (∃! p, At s f p) ∧
    ∀ act s', step s act = some s' → (∀ x, act ≠ .refInc x) → heldRefs s f < heldRefs s' f →
      ∃ p, At s f p ∧ p ≠ .held := by
  obtain ⟨L, hinv⟩ := reach_inv hok hs
  have hfe : frameIndex f * frameSize = f := frameIndex_mul hf.1
  have huniq := hinv.at_unique hf.1 (by rw [hfe]; exact hf)
  refine ⟨huniq, fun act s' hstep hne hlt => ?_⟩
  obtain ⟨p, hp, _⟩ := huniq
  by_cases hph : p = .held
  · -- a held frame has no other token, and its tokens do not become more
    subst hph
    obtain ⟨L', hinv', hle⟩ := hinv.step hstep
    obtain ⟨t, ht, hw⟩ := hp
    have hcov : t.covers (frameIndex f) = true := by
      rw [covers_iff, hfe]
      exact hw
    have hpos := refs_pos_of_mem ht hcov
    have hslots : refs ((slots s).map slotToken) (frameIndex f) = 0 := by
      by_contra hne
      obtain ⟨u, hu, hc⟩ := List.countP_pos_iff.mp (Nat.pos_of_ne_zero hne)
      obtain ⟨y, hy, rfl⟩ := List.mem_map.mp hu
      have hmem : slotToken y ∈ tokens s := List.mem_append_right _ hu
      have hi := hinv.ledger.covers_small hmem rfl hc
      have h0 := held_refs_of_slot hinv.ledger hy
      have hy' : (slotToken y).addr = y := rfl
      rw [hy'] at hi
      rw [hi] at hpos
      omega
    have hnc : ¬ Cover frameLevel L (frameIndex f * frameSize) :=
      hinv.ledger.not_cover (refs_pos_of_mem (List.mem_append_left _ ht) hcov)
    have hall := hle hne _ hnc
    simp only [tokens, refs_append, hslots] at hall
    unfold heldRefs at hlt
    omega
  · exact ⟨p, hp, hph⟩

/-- Two frames and one CPU: a refill has moved both to the cache, and each is in its slot only. -/
theorem frame_conserved_two_frames :
    ∃ s, run step (initial 3 [(16384, 49152)] 1)
        [.setPcpu true, .allocFrame, .advance 0 0 true, .advance 0 0 true] = some s ∧
      s.caches.map BoundedStack.items = [[16384, 32768]] ∧ ∃! p, At s 16384 p := by
  have hok : Invariant.RangesOk 3 [(16384, 49152)] := by
    refine ⟨by decide, ?_, ?_, ?_, List.pairwise_singleton _ _⟩ <;> decide
  have hrun : (run step (initial 3 [(16384, 49152)] 1)
      [.setPcpu true, .allocFrame, .advance 0 0 true, .advance 0 0 true]).map
        (fun s => s.caches.map BoundedStack.items) = some [[16384, 32768]] := by
    decide
  obtain ⟨s, hs, hc⟩ := Option.map_eq_some_iff.mp hrun
  refine ⟨s, hs, hc, ?_⟩
  exact (frame_conserved hok (Reach.of_run (.start rfl) hs)
    ⟨by decide, _, List.mem_singleton_self _, by decide, by decide⟩).1

end SlateOS.Mm.Frame.Conservation
