/-
# SlateOS.Mm.Swap.Reclaim -- the list of the pages that may be swapped out

`kernel/src/mm/swap.rs`: pages are registered into the first inactive entry of a list that only grows, and a
reclaim pass remembers its victims by index while it swaps each of them out with the lock released. A refusal
looks at the entry again; a success takes whatever entry the index holds now off the list. So the list stays
true exactly as long as no success finds another page there, or an entry off the list already.
-/
import SlateOS.Foundation.MachineInt
import SlateOS.Foundation.Runs
import SlateOS.Foundation.Slots
import SlateOS.Kernel.Error
import SlateOS.Mm.Swap.Entry

namespace SlateOS.Mm.Swap.Reclaim

open Foundation Foundation.MachineInt Foundation.Runs Kernel

/-- A swap entry, as the kernel holds it. -/
abbrev SwapEntry := BitVec 32

/-! ## The list -/

structure ReclaimablePage where
  pml4Phys : Nat
  vaddr : Nat
  flags : Raw
  active : Bool
  deriving DecidableEq

/-- One page: the same address space, the same address. -/
def ReclaimablePage.SamePage (e e' : ReclaimablePage) : Prop := e.pml4Phys = e'.pml4Phys ∧ e.vaddr = e'.vaddr

instance (e e' : ReclaimablePage) : Decidable (e.SamePage e') :=
  inferInstanceAs (Decidable (e.pml4Phys = e'.pml4Phys ∧ e.vaddr = e'.vaddr))

structure ReclaimState where
  pages : List ReclaimablePage
  clockHand : Nat
  activeCount : Nat

/-- `size_of::<ReclaimablePage>()`. -/
def pageSize : Nat := 32

/-- `try_reserve(1)`: no vector is longer than the largest signed word, in bytes. -/
def tryReserve (granted : Bool) (len : Nat) : Bool := granted && decide ((len + 1) * pageSize ≤ maxVal 63)

namespace ReclaimState

def new : ReclaimState := ⟨[], 0, 0⟩

variable (state : ReclaimState)

/-- `register_reclaimable`; whether there is memory for a longer list is `granted`. -/
def registerReclaimable (pml4Phys vaddr : Nat) (flags : Raw) (granted : Bool) : ReclaimState :=
  match state.pages.findIdx? fun e => !e.active with
  | some i =>
    { state with
      pages := state.pages.set i ⟨pml4Phys, vaddr, flags, true⟩
      activeCount := saturatingAdd 64 state.activeCount 1 }
  | none =>
    if tryReserve granted state.pages.length then
      { state with
        pages := state.pages ++ [⟨pml4Phys, vaddr, flags, true⟩]
        activeCount := saturatingAdd 64 state.activeCount 1 }
    else state

/-- The clock's hand moves on by one of the `len` entries. -/
def advance (len : Nat) : ReclaimState := { state with clockHand := (state.clockHand + 1) % len }

/-- `e.active = false` and the count one less, where the index has an entry. -/
def deactivate (idx : Nat) : ReclaimState :=
  match state.pages[idx]? with
  | some e =>
    { state with
      pages := state.pages.set idx { e with active := false }
      activeCount := state.activeCount - 1 }
  | none => state

/-- The same where the entry is still active. -/
def deactivateActive (idx : Nat) : ReclaimState :=
  match state.pages[idx]? with
  | some e => if e.active then state.deactivate idx else state
  | none => state

/-- `unregister_reclaimable`. -/
def unregisterReclaimable (pml4Phys vaddr : Nat) : ReclaimState :=
  match state.pages.findIdx? fun e => e.active && e.pml4Phys == pml4Phys && e.vaddr == vaddr with
  | some i => state.deactivate i
  | none => state

end ReclaimState

/-! ## A pass -/

/-- What the pass reads of a page: `frame_is_locked`, and `frame_test_and_clear_accessed`. -/
structure Probe where
  frameIsLocked : Bool
  testAndClearAccessed : Option Bool

/-- A victim: its index, and its entry as it was. -/
abbrev Victim := Nat × ReclaimablePage

/-- The scan of `try_reclaim`, with `left` of its looks to go; what the `scanned`-th look finds is `probe`. -/
def scan (len want : Nat) (probe : Nat → ReclaimablePage → Probe) :
    Nat → Nat → ReclaimState → List Victim → ReclaimState × List Victim
  | 0, _, state, victims => (state, victims)
  | left + 1, scanned, state, victims =>
    if victims.length < want then
      let idx := state.clockHand % len
      let state := state.advance len
      match state.pages[idx]? with
      | none => scan len want probe left (scanned + 1) state victims
      | some entry =>
        if entry.active = false then scan len want probe left (scanned + 1) state victims
        else if (probe scanned entry).frameIsLocked then scan len want probe left (scanned + 1) state victims
        else
          match (probe scanned entry).testAndClearAccessed with
          | some true => scan len want probe left (scanned + 1) state victims
          | some false => scan len want probe left (scanned + 1) state (victims ++ [(idx, entry)])
          | none => scan len want probe left (scanned + 1) (state.deactivate idx) victims
    else (state, victims)

/-- The first locked section of `try_reclaim`; whether there is memory for the victims is `granted`. -/
def selectVictims (state : ReclaimState) (target : Nat) (granted : Bool) (probe : Nat → ReclaimablePage → Probe) :
    ReclaimState × List Victim :=
  if state.pages.length = 0 ∨ state.activeCount = 0 ∨ granted = false then (state, [])
  else
    scan state.pages.length (min target state.pages.length) probe (saturatingMul 64 state.pages.length 2) 0 state []

def shortSinceKeptLimit : Nat := 8

/-- A pass between two of its locked sections. -/
structure Pass where
  victims : List Victim
  reclaimed : Nat
  shortSinceKept : Nat

/-- What follows on the outcome of `swap_out_page` for the first victim left. -/
def afterSwapOut (state : ReclaimState) (pass : Pass) (idx : Nat) (rest : List Victim) :
    KernelResult SwapEntry → ReclaimState × Pass
  | .ok _ => (state.deactivate idx, ⟨rest, pass.reclaimed + 1, 0⟩)
  | .error .outOfMemory =>
    let short := saturatingAdd 32 pass.shortSinceKept 1
    (state, ⟨if shortSinceKeptLimit ≤ short then [] else rest, pass.reclaimed, short⟩)
  | .error .notSupported =>
    (state.deactivateActive idx, { pass with victims := rest })
  | .error _ => (state, { pass with victims := rest })

/-! ## The system -/

/-- The list, and the pass of each task. -/
structure System where
  reclaim : ReclaimState
  passes : Nat → Pass

/-- One locked section of some task, with the outcomes of what it calls. -/
inductive Act where
  | register (pml4Phys vaddr : Nat) (flags : Raw) (granted : Bool)
  | unregister (pml4Phys vaddr : Nat)
  | select (task target : Nat) (granted : Bool) (probe : Nat → ReclaimablePage → Probe)
  | update (task : Nat) (outcome : KernelResult SwapEntry)

/-- One step. A task that reclaims does not begin another pass (`NoReclaim`). -/
def step (s : System) : Act → Option System
  | .register pml4Phys vaddr flags granted =>
    some { s with reclaim := s.reclaim.registerReclaimable pml4Phys vaddr flags granted }
  | .unregister pml4Phys vaddr => some { s with reclaim := s.reclaim.unregisterReclaimable pml4Phys vaddr }
  | .select task target granted probe =>
    if (s.passes task).victims = [] then
      let selected := selectVictims s.reclaim target granted probe
      some ⟨selected.1, Function.update s.passes task ⟨selected.2, 0, 0⟩⟩
    else none
  | .update task outcome =>
    match (s.passes task).victims with
    | [] => none
    | (idx, _) :: rest =>
      let updated := afterSwapOut s.reclaim (s.passes task) idx rest outcome
      some ⟨updated.1, Function.update s.passes task updated.2⟩

def System.new : System := ⟨.new, fun _ => ⟨[], 0, 0⟩⟩

/-! ## What a true list is -/

/-- The count is that of the active entries. -/
def Counted (state : ReclaimState) : Prop := state.activeCount = state.pages.countP ReclaimablePage.active

/-- The active entry at the index is no longer there. -/
def Leaves (state state' : ReclaimState) (i : Nat) (e : ReclaimablePage) : Prop :=
  state.pages[i]? = some e ∧ e.active = true ∧ state'.pages[i]? ≠ some e

/-- The action is about the page of the entry: it unregisters it, finds it not present when the clock is at it, or
has swapped it out or been refused to. -/
def Warrants (s : System) (i : Nat) (e : ReclaimablePage) : Act → Prop
  | .register .. => False
  | .unregister pml4Phys vaddr => e.pml4Phys = pml4Phys ∧ e.vaddr = vaddr
  | .select _ _ _ probe => ∃ k, (s.reclaim.clockHand + k) % s.reclaim.pages.length = i ∧
      (probe k e).frameIsLocked = false ∧ (probe k e).testAndClearAccessed = none
  | .update task (.ok _) | .update task (.error .notSupported) =>
    ∃ victim ∈ (s.passes task).victims.head?, e.SamePage victim.2
  | .update _ (.error _) => False

/-- The step leaves a count that is right, and takes an entry off the list for its own page's sake only. -/
def KeepsTrue (s : System) (a : Act) : Prop :=
  ∀ s', step s a = some s' →
    Counted s'.reclaim ∧ ∀ i e, Leaves s.reclaim s'.reclaim i e → Warrants s i e a

/-- After a success the victim's index holds its page still, or no page and nothing is registered; after a refusal,
its page or no page. -/
def Undisturbed (s : System) : Act → Prop
  | .update task (.ok _) =>
    ∀ victim ∈ (s.passes task).victims.head?, ∀ e, s.reclaim.pages[victim.1]? = some e →
      if e.active then e.SamePage victim.2 else s.reclaim.activeCount = 0
  | .update task (.error .notSupported) =>
    ∀ victim ∈ (s.passes task).victims.head?, ∀ e, s.reclaim.pages[victim.1]? = some e →
      e.active = true → e.SamePage victim.2
  | _ => True

/-! ## The steps of the list -/

variable {s s' : System} {state state' state'' : ReclaimState} {e c : ReclaimablePage} {a : Act} {i idx len want : Nat}

theorem Leaves.split (h : Leaves state state'' i e) : Leaves state state' i e ∨ Leaves state' state'' i e := by
  obtain ⟨hi, hactive, hgone⟩ := h
  by_cases hstill : state'.pages[i]? = some e
  · exact .inr ⟨hstill, hactive, hgone⟩
  · exact .inl ⟨hi, hactive, hstill⟩

@[simp] theorem not_leaves_self : ¬Leaves state state i e := fun h => h.2.2 h.1

/-- A place that no active entry holds can be overwritten. -/
theorem not_leaves_set {x : ReclaimablePage} (hc : state.pages[idx]? = some c) (hinactive : c.active = false)
    (hpages : state'.pages = state.pages.set idx x) : ¬Leaves state state' i e := by
  rintro ⟨hi, hactive, hgone⟩
  apply hgone
  have hne : idx ≠ i := by
    rintro rfl
    rw [hc, Option.some.injEq] at hi
    simp [← hi, hinactive] at hactive
  rw [hpages, List.getElem?_set_ne hne, hi]

theorem not_leaves_append {x : ReclaimablePage} (hpages : state'.pages = state.pages ++ [x]) :
    ¬Leaves state state' i e := by
  rintro ⟨hi, -, hgone⟩
  apply hgone
  have hlt : i < state.pages.length := (List.getElem?_eq_some_iff.mp hi).1
  rw [hpages, List.getElem?_append_left hlt, hi]

namespace ReclaimState

theorem deactivate_of_some (hc : state.pages[idx]? = some c) :
    state.deactivate idx = ⟨state.pages.set idx { c with active := false }, state.clockHand, state.activeCount - 1⟩ := by
  simp [deactivate, hc]

theorem deactivate_of_none (hnone : state.pages[idx]? = none) : state.deactivate idx = state := by
  simp [deactivate, hnone]

@[simp] theorem pages_advance : (state.advance len).pages = state.pages := rfl

@[simp] theorem clockHand_advance : (state.advance len).clockHand = (state.clockHand + 1) % len := rfl

@[simp] theorem length_deactivate : (state.deactivate idx).pages.length = state.pages.length := by
  unfold deactivate
  split <;> simp

@[simp] theorem clockHand_deactivate : (state.deactivate idx).clockHand = state.clockHand := by
  unfold deactivate
  split <;> rfl

/-- The count goes down by one, the number of active entries only if the entry was active. -/
theorem counted_deactivate_iff (h : Counted state) (hc : state.pages[idx]? = some c) :
    Counted (state.deactivate idx) ↔ (c.active = false → state.activeCount = 0) := by
  have hset := Slots.countP_set ReclaimablePage.active { c with active := false } hc
  rw [deactivate_of_some hc]
  show state.activeCount - 1 = (state.pages.set idx { c with active := false }).countP ReclaimablePage.active ↔ _
  unfold Counted at h
  cases hactive : c.active with
  | false =>
    simp only [hactive, Bool.toNat_false] at hset
    simp only [forall_const]
    omega
  | true =>
    simp only [hactive, Bool.toNat_true, Bool.toNat_false] at hset
    simp only [Bool.true_eq_false, false_imp_iff, iff_true]
    omega

/-- Of the active entries the one at the index leaves, and no other. -/
theorem leaves_deactivate_iff :
    Leaves state (state.deactivate idx) i e ↔ i = idx ∧ state.pages[idx]? = some e ∧ e.active = true := by
  constructor
  · rintro ⟨hi, hactive, hgone⟩
    obtain rfl : i = idx := by
      by_contra hne
      apply hgone
      unfold deactivate
      split
      · simp [List.getElem?_set_ne (Ne.symm hne), hi]
      · exact hi
    exact ⟨rfl, hi, hactive⟩
  · rintro ⟨rfl, hi, hactive⟩
    refine ⟨hi, hactive, ?_⟩
    have hlt : i < state.pages.length := (List.getElem?_eq_some_iff.mp hi).1
    rw [deactivate_of_some hi]
    show (state.pages.set i { e with active := false })[i]? ≠ some e
    rw [List.getElem?_set_self hlt, Ne, Option.some.injEq]
    intro heq
    rw [← heq] at hactive
    simp at hactive

theorem register_cases (state : ReclaimState) (pml4Phys vaddr : Nat) (flags : Raw) (granted : Bool) :
    (∃ i c, state.pages[i]? = some c ∧ c.active = false ∧
      state.registerReclaimable pml4Phys vaddr flags granted =
        ⟨state.pages.set i ⟨pml4Phys, vaddr, flags, true⟩, state.clockHand, saturatingAdd 64 state.activeCount 1⟩) ∨
    ((state.pages.length + 1) * pageSize ≤ maxVal 63 ∧
      state.registerReclaimable pml4Phys vaddr flags granted =
        ⟨state.pages ++ [⟨pml4Phys, vaddr, flags, true⟩], state.clockHand, saturatingAdd 64 state.activeCount 1⟩) ∨
    state.registerReclaimable pml4Phys vaddr flags granted = state := by
  unfold registerReclaimable
  split
  next i hfind =>
    obtain ⟨hlt, hfree, -⟩ := List.findIdx?_eq_some_iff_getElem.mp hfind
    exact .inl ⟨i, state.pages[i], List.getElem?_eq_getElem hlt, by simpa using hfree, rfl⟩
  next =>
    split
    next hroom =>
      rw [tryReserve, Bool.and_eq_true, decide_eq_true_eq] at hroom
      exact .inr (.inl ⟨hroom.2, rfl⟩)
    next => exact .inr (.inr rfl)

theorem unregister_cases (state : ReclaimState) (pml4Phys vaddr : Nat) :
    (∃ i c, state.pages[i]? = some c ∧ c.active = true ∧ c.pml4Phys = pml4Phys ∧ c.vaddr = vaddr ∧
      state.unregisterReclaimable pml4Phys vaddr = state.deactivate i) ∨
    state.unregisterReclaimable pml4Phys vaddr = state := by
  unfold unregisterReclaimable
  split
  next i hfind =>
    obtain ⟨hlt, hfound, -⟩ := List.findIdx?_eq_some_iff_getElem.mp hfind
    simp only [Bool.and_eq_true, beq_iff_eq] at hfound
    exact .inl ⟨i, state.pages[i], List.getElem?_eq_getElem hlt, hfound.1.1, hfound.1.2, hfound.2, rfl⟩
  next => exact .inr rfl

end ReclaimState

open ReclaimState

/-- The list fits the address space. -/
def Fits (state : ReclaimState) : Prop := state.pages.length * pageSize ≤ maxVal 63

theorem saturatingAdd_activeCount (h : Counted state) (hfits : Fits state) :
    saturatingAdd 64 state.activeCount 1 = state.pages.countP ReclaimablePage.active + 1 := by
  have hle : state.pages.countP ReclaimablePage.active ≤ state.pages.length := List.countP_le_length
  unfold Counted at h
  unfold Fits pageSize maxVal at hfits
  rw [saturatingAdd_of_lt (by omega), h]

theorem counted_register (h : Counted state) (hfits : Fits state) (pml4Phys vaddr : Nat) (flags : Raw)
    (granted : Bool) : Counted (state.registerReclaimable pml4Phys vaddr flags granted) := by
  have hcount := saturatingAdd_activeCount h hfits
  rcases register_cases state pml4Phys vaddr flags granted with ⟨i, c, hc, hfree, heq⟩ | ⟨-, heq⟩ | heq
  · have hset := Slots.countP_set ReclaimablePage.active ⟨pml4Phys, vaddr, flags, true⟩ hc
    rw [hfree] at hset
    rw [heq]
    show saturatingAdd 64 state.activeCount 1 = _
    rw [hcount]
    simpa using hset.symm
  · rw [heq]
    show saturatingAdd 64 state.activeCount 1 = _
    simp [hcount]
  · rwa [heq]

theorem fits_register (hfits : Fits state) (pml4Phys vaddr : Nat) (flags : Raw) (granted : Bool) :
    Fits (state.registerReclaimable pml4Phys vaddr flags granted) := by
  rcases register_cases state pml4Phys vaddr flags granted with ⟨i, c, -, -, heq⟩ | ⟨hroom, heq⟩ | heq
  · simpa [Fits, heq] using hfits
  · simpa [Fits, heq] using hroom
  · rwa [heq]

theorem not_leaves_register (pml4Phys vaddr : Nat) (flags : Raw) (granted : Bool) :
    ¬Leaves state (state.registerReclaimable pml4Phys vaddr flags granted) i e := by
  rcases register_cases state pml4Phys vaddr flags granted with ⟨i, c, hc, hfree, heq⟩ | ⟨-, heq⟩ | heq <;> rw [heq]
  · exact not_leaves_set hc hfree rfl
  · exact not_leaves_append rfl
  · exact not_leaves_self

/-! ## The scan -/

/-- A scan keeps the count, and what it takes off the list it found not present when the clock was at it. -/
theorem scan_keeps (len want : Nat) (probe : Nat → ReclaimablePage → Probe) (h : Counted state) (left scanned : Nat) (victims : List Victim) :
    Counted (scan len want probe left scanned state victims).1 ∧
    (scan len want probe left scanned state victims).1.pages.length = state.pages.length ∧
    ∀ i e, Leaves state (scan len want probe left scanned state victims).1 i e →
      ∃ k, (state.clockHand + k) % len = i ∧ (probe (scanned + k) e).frameIsLocked = false ∧
        (probe (scanned + k) e).testAndClearAccessed = none := by
  induction left generalizing state scanned victims with
  | zero => exact ⟨h, rfl, fun i e hleaves => absurd hleaves not_leaves_self⟩
  | succ left ih =>
    unfold scan
    split
    case isFalse => exact ⟨h, rfl, fun i e hleaves => absurd hleaves not_leaves_self⟩
    case isTrue =>
      have hadvance : Counted (state.advance len) := h
      -- a later look, at the hand moved on by one
      have hlater : ∀ {state' : ReclaimState} (i : Nat) (e : ReclaimablePage),
          state'.clockHand = (state.clockHand + 1) % len →
          (∃ k, (state'.clockHand + k) % len = i ∧ (probe (scanned + 1 + k) e).frameIsLocked = false ∧
            (probe (scanned + 1 + k) e).testAndClearAccessed = none) →
          ∃ k, (state.clockHand + k) % len = i ∧ (probe (scanned + k) e).frameIsLocked = false ∧
            (probe (scanned + k) e).testAndClearAccessed = none := by
        rintro state' i e hhand ⟨k, hk, hseen⟩
        refine ⟨k + 1, ?_, ?_⟩
        · rw [hhand, Nat.mod_add_mod] at hk
          rw [← hk]
          congr 1
          omega
        · rwa [show scanned + (k + 1) = scanned + 1 + k by omega]
      -- the entry stays: the list is what it was
      have hstays : ∀ victims,
          Counted (scan len want probe left (scanned + 1) (state.advance len) victims).1 ∧
          (scan len want probe left (scanned + 1) (state.advance len) victims).1.pages.length = state.pages.length ∧
          ∀ i e, Leaves state (scan len want probe left (scanned + 1) (state.advance len) victims).1 i e →
            ∃ k, (state.clockHand + k) % len = i ∧ (probe (scanned + k) e).frameIsLocked = false ∧
              (probe (scanned + k) e).testAndClearAccessed = none := by
        intro victims
        obtain ⟨hcounted, hlen, hleaves⟩ := ih hadvance (scanned + 1) victims
        exact ⟨hcounted, hlen, fun i e hl => hlater i e rfl (hleaves i e hl)⟩
      dsimp only
      split
      case h_1 => exact hstays victims
      case h_2 entry hentry =>
        split
        case isTrue => exact hstays victims
        case isFalse hactive =>
          rw [Bool.not_eq_false] at hactive
          split
          case isTrue => exact hstays victims
          case isFalse hunlocked =>
            split
            case h_1 => exact hstays victims
            case h_2 => exact hstays _
            case h_3 habsent =>
              have hcounted' : Counted ((state.advance len).deactivate (state.clockHand % len)) := by
                refine (counted_deactivate_iff hadvance hentry).mpr fun hinactive => ?_
                rw [hactive] at hinactive
                cases hinactive
              obtain ⟨hcounted, hlen, hleaves⟩ := ih hcounted' (scanned + 1) victims
              refine ⟨hcounted, by rw [hlen, length_deactivate, pages_advance], fun i e hl => ?_⟩
              have hsplit : Leaves (state.advance len) ((state.advance len).deactivate (state.clockHand % len)) i e ∨ _ :=
                Leaves.split hl
              rcases hsplit with hnow | hnext
              · obtain ⟨rfl, hi, -⟩ := leaves_deactivate_iff.mp hnow
                obtain rfl : entry = e := Option.some.inj (hentry.symm.trans hi)
                exact ⟨0, rfl, by simpa using hunlocked, habsent⟩
              · exact hlater i e (by simp) (hleaves i e hnext)

/-! ## The steps of the system -/

/-- The count is right and the list is no longer than a list can be. -/
structure Inv (s : System) : Prop where
  counted : Counted s.reclaim
  fits : Fits s.reclaim

theorem Inv.new : Inv System.new := ⟨rfl, Nat.zero_le _⟩

theorem selectVictims_keeps (probe : Nat → ReclaimablePage → Probe) (h : Counted state) (target : Nat) (granted : Bool) :
    Counted (selectVictims state target granted probe).1 ∧
    (selectVictims state target granted probe).1.pages.length = state.pages.length ∧
    ∀ i e, Leaves state (selectVictims state target granted probe).1 i e →
      ∃ k, (state.clockHand + k) % state.pages.length = i ∧ (probe k e).frameIsLocked = false ∧
        (probe k e).testAndClearAccessed = none := by
  unfold selectVictims
  split
  · exact ⟨h, rfl, fun i e hleaves => absurd hleaves not_leaves_self⟩
  · have hscan := scan_keeps state.pages.length (min target state.pages.length) probe h
      (saturatingMul 64 state.pages.length 2) 0 []
    simpa using hscan

theorem deactivateActive_cases (state : ReclaimState) (idx : Nat) :
    (∃ c, state.pages[idx]? = some c ∧ c.active = true ∧ state.deactivateActive idx = state.deactivate idx) ∨
    (∀ c, state.pages[idx]? = some c → c.active = false) ∧ state.deactivateActive idx = state := by
  unfold deactivateActive
  split
  next c hc =>
    split
    next hactive => exact .inl ⟨c, hc, hactive, rfl⟩
    next hinactive =>
      refine .inr ⟨fun c' hc' => ?_, rfl⟩
      obtain rfl : c = c' := Option.some.inj (hc.symm.trans hc')
      simpa using hinactive
  next hnone => exact .inr ⟨fun c hc => absurd hc (by simp [hnone]), rfl⟩

/-- Only a success and a refusal for good touch the list. -/
theorem afterSwapOut_error {pass : Pass} {rest : List Victim} {err : KernelError} (herr : err ≠ .notSupported) :
    (afterSwapOut state pass idx rest (.error err)).1 = state := by
  cases err <;> first | rfl | exact absurd rfl herr

theorem fits_afterSwapOut (hfits : Fits state) (pass : Pass) (rest : List Victim) (outcome : KernelResult SwapEntry) :
    Fits (afterSwapOut state pass idx rest outcome).1 := by
  have hdeactivate : Fits (state.deactivate idx) := by simpa [Fits] using hfits
  rcases outcome with err | entry
  · by_cases herr : err = .notSupported
    · subst herr
      show Fits (state.deactivateActive idx)
      rcases deactivateActive_cases state idx with ⟨c, -, -, heq⟩ | ⟨-, heq⟩ <;> rw [heq]
      · exact hdeactivate
      · exact hfits
    · rwa [afterSwapOut_error herr]
  · exact hdeactivate

theorem Inv.next (h : Inv s) (hstep : step s a = some s') (hcounted : Counted s'.reclaim) : Inv s' := by
  refine ⟨hcounted, ?_⟩
  have hfits := h.fits
  rcases a with ⟨pml4Phys, vaddr, flags, granted⟩ | ⟨pml4Phys, vaddr⟩ | ⟨task, target, granted, probe⟩ | ⟨task, outcome⟩
  · obtain rfl := Option.some.inj hstep
    exact fits_register hfits ..
  · obtain rfl := Option.some.inj hstep
    show Fits (s.reclaim.unregisterReclaimable pml4Phys vaddr)
    rcases unregister_cases s.reclaim pml4Phys vaddr with ⟨i, c, -, -, -, -, heq⟩ | heq <;> rw [heq]
    · simpa [Fits] using hfits
    · exact hfits
  · simp only [step, Option.ite_none_right_eq_some, Option.some.injEq] at hstep
    obtain ⟨-, rfl⟩ := hstep
    show Fits (selectVictims s.reclaim target granted probe).1
    rw [Fits, (selectVictims_keeps probe h.counted target granted).2.1]
    exact hfits
  · simp only [step] at hstep
    split at hstep
    · cases hstep
    · obtain rfl := Option.some.inj hstep
      exact fits_afterSwapOut hfits ..

/-- The updates that look at the entry again keep the count, and take off the list the entry at the index. -/
theorem keepsTrue_refused_iff (victim : Victim) (h : Counted state) (hidx : victim.1 = idx) :
    (Counted (state.deactivateActive idx) ∧
      ∀ i e, Leaves state (state.deactivateActive idx) i e → e.SamePage victim.2) ↔
    ∀ e, state.pages[victim.1]? = some e → e.active = true → e.SamePage victim.2 := by
  subst hidx
  rcases deactivateActive_cases state victim.1 with ⟨c, hc, hactive, heq⟩ | ⟨hfree, heq⟩
  · rw [heq, counted_deactivate_iff h hc]
    constructor
    · rintro ⟨-, hleaves⟩ e he heactive
      exact hleaves victim.1 e (leaves_deactivate_iff.mpr ⟨rfl, he, heactive⟩)
    · intro hsame
      refine ⟨fun hinactive => absurd hactive (by simp [hinactive]), fun i e hl => ?_⟩
      obtain ⟨-, he, heactive⟩ := leaves_deactivate_iff.mp hl
      exact hsame e he heactive
  · rw [heq]
    refine iff_of_true ⟨h, fun i e hl => absurd hl not_leaves_self⟩ fun e he heactive => ?_
    rw [hfree e he] at heactive
    cases heactive

/-- The update that does not look makes the count wrong besides, where the entry is off the list already. -/
theorem keepsTrue_swapped_iff (victim : Victim) (h : Counted state) (hidx : victim.1 = idx) :
    (Counted (state.deactivate idx) ∧ ∀ i e, Leaves state (state.deactivate idx) i e → e.SamePage victim.2) ↔
    ∀ e, state.pages[victim.1]? = some e → if e.active then e.SamePage victim.2 else state.activeCount = 0 := by
  subst hidx
  cases hc : state.pages[victim.1]? with
  | none =>
    rw [deactivate_of_none hc]
    exact iff_of_true ⟨h, fun i e hl => absurd hl not_leaves_self⟩ fun e he => absurd he (by simp)
  | some c =>
    rw [counted_deactivate_iff h hc]
    constructor
    · rintro ⟨hzero, hleaves⟩ e he
      obtain rfl : c = e := Option.some.inj he
      split
      next hactive => exact hleaves victim.1 c (leaves_deactivate_iff.mpr ⟨rfl, hc, hactive⟩)
      next hinactive => exact hzero (by simpa using hinactive)
    · intro hsame
      have hentry := hsame c rfl
      refine ⟨fun hinactive => by simpa [hinactive] using hentry, fun i e hl => ?_⟩
      obtain ⟨-, he, hactive⟩ := leaves_deactivate_iff.mp hl
      obtain rfl : c = e := Option.some.inj (hc.symm.trans he)
      simpa [hactive] using hentry

theorem update_eq_some {task : Nat} {outcome : KernelResult SwapEntry} :
    step s (.update task outcome) = some s' ↔ ∃ victim rest, (s.passes task).victims = victim :: rest ∧
      s' = ⟨(afterSwapOut s.reclaim (s.passes task) victim.1 rest outcome).1,
        Function.update s.passes task (afterSwapOut s.reclaim (s.passes task) victim.1 rest outcome).2⟩ := by
  rcases hvictims : (s.passes task).victims with _ | ⟨⟨idx, victim⟩, rest⟩ <;> simp [step, hvictims, eq_comm]

theorem keepsTrue_update_iff {task : Nat} {outcome : KernelResult SwapEntry} {victim : Victim} {rest : List Victim}
    (hvictims : (s.passes task).victims = victim :: rest) :
    KeepsTrue s (.update task outcome) ↔
      Counted (afterSwapOut s.reclaim (s.passes task) victim.1 rest outcome).1 ∧
      ∀ i e, Leaves s.reclaim (afterSwapOut s.reclaim (s.passes task) victim.1 rest outcome).1 i e →
        Warrants s i e (.update task outcome) := by
  unfold KeepsTrue
  simp only [update_eq_some, hvictims]
  constructor
  · intro h
    exact h _ ⟨victim, rest, rfl, rfl⟩
  · rintro h s' ⟨victim', rest', hcons, rfl⟩
    obtain ⟨rfl, rfl⟩ := List.cons.inj hcons
    exact h

theorem undisturbed_iff_keepsTrue_update (h : Inv s) (task : Nat) (outcome : KernelResult SwapEntry) :
    Undisturbed s (.update task outcome) ↔ KeepsTrue s (.update task outcome) := by
  rcases hvictims : (s.passes task).victims with _ | ⟨victim, rest⟩
  · refine iff_of_true ?_ fun s' hstep => ?_
    · rcases outcome with err | entry
      · cases err <;> simp [Undisturbed, hvictims]
      · simp [Undisturbed, hvictims]
    · obtain ⟨victim, rest, hcons, -⟩ := update_eq_some.mp hstep
      rw [hvictims] at hcons
      cases hcons
  · rw [keepsTrue_update_iff hvictims]
    rcases outcome with err | entry
    · by_cases herr : err = .notSupported
      · subst herr
        have hiff := keepsTrue_refused_iff victim h.counted rfl
        simpa [Undisturbed, Warrants, hvictims, afterSwapOut] using hiff.symm
      · rw [afterSwapOut_error herr]
        refine iff_of_true ?_ ⟨h.counted, fun i e hl => absurd hl not_leaves_self⟩
        cases err <;> first | exact trivial | exact absurd rfl herr
    · have hiff := keepsTrue_swapped_iff victim h.counted rfl
      simpa [Undisturbed, Warrants, hvictims, afterSwapOut] using hiff.symm

/-- **One step keeps the list true exactly where nobody disturbed the victim's entry.** -/
theorem undisturbed_iff_keepsTrue (h : Inv s) : Undisturbed s a ↔ KeepsTrue s a := by
  rcases a with ⟨pml4Phys, vaddr, flags, granted⟩ | ⟨pml4Phys, vaddr⟩ | ⟨task, target, granted, probe⟩ | ⟨task, outcome⟩
  · refine iff_of_true trivial fun s' hstep => ?_
    obtain rfl := Option.some.inj hstep
    exact ⟨counted_register h.counted h.fits .., fun i e hl => absurd hl (not_leaves_register _ _ _ _)⟩
  · refine iff_of_true trivial fun s' hstep => ?_
    obtain rfl := Option.some.inj hstep
    show Counted (s.reclaim.unregisterReclaimable pml4Phys vaddr) ∧
      ∀ i e, Leaves s.reclaim (s.reclaim.unregisterReclaimable pml4Phys vaddr) i e → _
    rcases unregister_cases s.reclaim pml4Phys vaddr with ⟨i, c, hc, hactive, hp, hv, heq⟩ | heq <;> rw [heq]
    · rw [counted_deactivate_iff h.counted hc]
      refine ⟨fun hinactive => absurd hactive (by simp [hinactive]), fun j e hl => ?_⟩
      obtain ⟨rfl, he, -⟩ := leaves_deactivate_iff.mp hl
      obtain rfl : c = e := Option.some.inj (hc.symm.trans he)
      exact ⟨hp, hv⟩
    · exact ⟨h.counted, fun j e hl => absurd hl not_leaves_self⟩
  · refine iff_of_true trivial fun s' hstep => ?_
    simp only [step, Option.ite_none_right_eq_some, Option.some.injEq] at hstep
    obtain ⟨-, rfl⟩ := hstep
    obtain ⟨hcounted, -, hleaves⟩ := selectVictims_keeps probe h.counted target granted
    exact ⟨hcounted, hleaves⟩
  · exact undisturbed_iff_keepsTrue_update h task outcome

/-! ## Every run -/

variable {acts : List Act} {t : System}

/-- **The list stays true in exactly the runs in which no update finds another page, or none, where its victim was.** -/
theorem list_true_iff_undisturbed (acts : List Act) :
    Along step KeepsTrue System.new acts ↔ Along step Undisturbed System.new acts := by
  symm
  apply Along.iff_of_invariant (I := Inv)
  · intro s a s' h hok hstep
    exact h.next hstep ((undisturbed_iff_keepsTrue h).mp hok s' hstep).1
  · intro s a h
    exact undisturbed_iff_keepsTrue h
  · exact .new

/-- A page is unregistered while it is swapped out, and another is registered into its entry. -/
def reusedWhileSwapping : List Act :=
  [.register 1 0x4000 0 true, .select 0 1 true fun _ _ => ⟨false, some false⟩, .unregister 1 0x4000,
    .register 2 0x8000 0 true, .update 0 (.ok 0)]

/-- The pass takes the other page off the list. -/
theorem other_page_leaves : ¬Along step KeepsTrue System.new reusedWhileSwapping := by
  intro h
  have hlast := ((((h.2 _ rfl).2 _ rfl).2 _ rfl).2 _ rfl).1 _ rfl
  obtain ⟨victim, hvictim, hsame⟩ := hlast.2 0 ⟨2, 0x8000, 0, true⟩ ⟨rfl, rfl, by decide⟩
  obtain rfl : (0, ⟨1, 0x4000, 0, true⟩) = victim := Option.some.inj hvictim
  exact absurd hsame (by decide)

end SlateOS.Mm.Swap.Reclaim
