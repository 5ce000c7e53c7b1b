/-
# SlateOS.Cap.Table -- a process's capability table

`CapTable` and its operations, as `kernel/src/cap/table.rs` computes them, and the two batch
operations `proc/pcb.rs` builds from them for capability transfer. Handles are `u64` values. The
operations that walk all entries and change some of them (`narrow_all`, `suspend`, `restore`,
`drop_suspended`, `revoke_by_resource`) are one loop, `updateAll`, applied to what each of them does
to one entry.
-/
import SlateOS.Cap.Rights
import SlateOS.Foundation.MachineInt
import SlateOS.Kernel.Error

namespace SlateOS.Cap.Table

open Foundation.MachineInt Kernel

/-- `MAX_ENTRIES`. -/
def maxEntries : Nat := 4096

/-- `CapEntry`. -/
structure CapEntry where
  resourceType : ResourceType
  resourceId : Nat
  rights : Rights
  suspended : Rights
  valid : Bool
  deriving DecidableEq

/-- `CapTable`. -/
structure CapTable where
  entries : Std.TreeMap Nat CapEntry
  nextHandle : Nat

namespace CapTable

/-- `CapTable::new`: handle 0 is reserved. -/
def new : CapTable := ⟨∅, 1⟩

/-- `entries.values()`, in handle order. -/
def values (t : CapTable) : List CapEntry := t.entries.toList.map Prod.snd

/-! ## Single entries -/

/-- `insert_with_suspended`. -/
def insertWithSuspended (t : CapTable) (resourceType : ResourceType) (resourceId : Nat)
    (rights suspended : Rights) : KernelResult (Nat × CapTable) :=
  if t.entries.size ≥ maxEntries then .error .invalidArgument
  else
    let handleVal := t.nextHandle
    let next := wrappingAdd 64 t.nextHandle 1
    let next := if next = 0 then 1 else next
    .ok (handleVal,
      { entries := t.entries.insert handleVal
          { resourceType, resourceId, rights, suspended, valid := true }
        nextHandle := next })

/-- `insert`. -/
def insert (t : CapTable) (resourceType : ResourceType) (resourceId : Nat) (rights : Rights) :
    KernelResult (Nat × CapTable) :=
  t.insertWithSuspended resourceType resourceId rights .none

/-- `lookup`. -/
def lookup (t : CapTable) (handle : Nat) : KernelResult CapEntry :=
  match t.entries[handle]? with
  | none => .error .invalidCapability
  | some entry => if !entry.valid then .error .invalidCapability else .ok entry

/-- `check_rights`. -/
def checkRights (t : CapTable) (handle : Nat) (required : Rights) : KernelResult CapEntry :=
  match t.lookup handle with
  | .error e => .error e
  | .ok entry => if !entry.rights.contains required then .error .permissionDenied else .ok entry

/-- `duplicate`. -/
def duplicate (t : CapTable) (source : Nat) (newRights : Rights) : KernelResult (Nat × CapTable) :=
  match t.entries[source]? with
  | none => .error .invalidCapability
  | some entry =>
    if !entry.valid then .error .invalidCapability
    else if !entry.rights.contains .duplicate then .error .permissionDenied
    else if !newRights.isSubsetOf entry.rights then .error .permissionDenied
    else t.insert entry.resourceType entry.resourceId newRights

/-- `revoke`: whether the handle was found, and the table after. -/
def revoke (t : CapTable) (handle : Nat) : Bool × CapTable :=
  match t.entries[handle]? with
  | some entry => (true, { t with entries := t.entries.insert handle { entry with valid := false } })
  | none => (false, t)

/-- `remove`. -/
def remove (t : CapTable) (handle : Nat) : Option CapEntry × CapTable :=
  (t.entries[handle]?, { t with entries := t.entries.erase handle })

/-! ## Queries over all entries -/

/-- `count`. -/
def count (t : CapTable) : Nat := (t.values.filter fun e => e.valid).length

/-- `valid_entries`. -/
def validEntries (t : CapTable) : List CapEntry := t.values.filter fun e => e.valid

/-- `has_resource`. -/
def hasResource (t : CapTable) (resourceType : ResourceType) (resourceId : Nat)
    (required : Rights) : Bool :=
  t.values.any fun e => e.valid && e.resourceType == resourceType && e.resourceId == resourceId &&
    e.rights.contains required

/-- `has_capability_type`. -/
def hasCapabilityType (t : CapTable) (resourceType : ResourceType) (required : Rights) : Bool :=
  t.values.any fun e => e.valid && e.resourceType == resourceType && e.rights.contains required

/-- `suspended_count`. -/
def suspendedCount (t : CapTable) : Nat :=
  (t.values.filter fun e => e.valid && !e.suspended.isEmpty).length

/-! ## Changes to all entries -/

/-- The loop over `values_mut()`: `f` gives the changed entry, or `none` for one left alone.
Returns how many changed. -/
def updateAll (t : CapTable) (f : CapEntry → Option CapEntry) : Nat × CapTable :=
  ((t.values.filter fun e => (f e).isSome).length,
    { t with entries := t.entries.map fun _ e => (f e).getD e })

/-- What `narrow_all` does to one entry. -/
def narrowEntry (keep : CapEntry → Rights) (e : CapEntry) : Option CapEntry :=
  if !e.valid then none
  else
    let kept := keep e
    if kept = e.rights then none
    else if kept.isEmpty then some { e with valid := false }
    else some { e with rights := kept }

/-- `narrow_all`. -/
def narrowAll (t : CapTable) (keep : CapEntry → Rights) : Nat × CapTable :=
  t.updateAll (narrowEntry keep)

/-- What `suspend` does to one entry. -/
def suspendEntry (keep : CapEntry → Rights) (e : CapEntry) : Option CapEntry :=
  if !e.valid then none
  else
    let gone := e.rights.remove (keep e)
    if gone.isEmpty then none
    else some { e with rights := e.rights.remove gone, suspended := e.suspended.union gone }

/-- `suspend`. -/
def suspend (t : CapTable) (keep : CapEntry → Rights) : Nat × CapTable :=
  t.updateAll (suspendEntry keep)

/-- What `restore` does to one entry. -/
def restoreEntry (e : CapEntry) : Option CapEntry :=
  if !e.valid || e.suspended.isEmpty then none
  else some { e with rights := e.rights.union e.suspended, suspended := .none }

/-- `restore`. -/
def restore (t : CapTable) : Nat × CapTable := t.updateAll restoreEntry

/-- What `drop_suspended` does to one entry. -/
def dropEntry (e : CapEntry) : Option CapEntry :=
  if !e.valid || e.suspended.isEmpty then none
  else some { e with suspended := .none, valid := if e.rights.isEmpty then false else e.valid }

/-- `drop_suspended`. -/
def dropSuspended (t : CapTable) : Nat × CapTable := t.updateAll dropEntry

/-- What `revoke_by_resource` does to one entry. -/
def revokeEntry (resourceType : ResourceType) (resourceId : Nat) (e : CapEntry) : Option CapEntry :=
  if e.valid && e.resourceType == resourceType && e.resourceId == resourceId then
    some { e with valid := false }
  else none

/-- `revoke_by_resource`. -/
def revokeByResource (t : CapTable) (resourceType : ResourceType) (resourceId : Nat) :
    Nat × CapTable :=
  t.updateAll (revokeEntry resourceType resourceId)

/-- `drain_valid`: the resources of the valid entries; the table is left empty. -/
def drainValid (t : CapTable) : List (ResourceType × Nat) × CapTable :=
  (t.validEntries.map fun e => (e.resourceType, e.resourceId), { t with entries := ∅ })

/-! ## Batches -/

/-- The validation loop of `pcb::remove_caps`: the first handle that does not look up decides. -/
def lookupAll (t : CapTable) : List Nat → KernelResult Unit
  | [] => .ok ()
  | h :: hs =>
    match t.lookup h with
    | .error e => .error e
    | .ok _ => t.lookupAll hs

/-- The removal loop of `pcb::remove_caps`: a handle no longer there is skipped. -/
def removeAll (t : CapTable) : List Nat → List CapEntry × CapTable
  | [] => ([], t)
  | h :: hs =>
    match t.remove h with
    | (some entry, t) => ((entry :: (t.removeAll hs).1), (t.removeAll hs).2)
    | (none, t) => t.removeAll hs

/-- `pcb::remove_caps` on the process's table: all handles are looked up before any is removed. -/
def removeCaps (t : CapTable) (handles : List Nat) : KernelResult (List CapEntry × CapTable) :=
  match t.lookupAll handles with
  | .error e => .error e
  | .ok _ => .ok (t.removeAll handles)

/-- `pcb::insert_caps` on the process's table: an entry the full table refuses is dropped. Returns
the new handles. -/
def insertCaps (t : CapTable) : List (ResourceType × Nat × Rights) → List Nat × CapTable
  | [] => ([], t)
  | (resourceType, resourceId, rights) :: entries =>
    match t.insert resourceType resourceId rights with
    | .ok (h, t) => (h :: (t.insertCaps entries).1, (t.insertCaps entries).2)
    | .error _ => t.insertCaps entries

/-! ## What the operations do, entry by entry -/

theorem getElem?_insert (t : Std.TreeMap Nat CapEntry) (k h : Nat) (e : CapEntry) :
    (t.insert k e)[h]? = if k = h then some e else t[h]? := by
  rw [Std.TreeMap.getElem?_insert]
  simp only [compare_eq_iff_eq]

theorem getElem?_erase (t : Std.TreeMap Nat CapEntry) (k h : Nat) :
    (t.erase k)[h]? = if k = h then none else t[h]? := by
  rw [Std.TreeMap.getElem?_erase]
  simp only [compare_eq_iff_eq]

@[simp] theorem getElem?_updateAll (t : CapTable) (f : CapEntry → Option CapEntry) (h : Nat) :
    (t.updateAll f).2.entries[h]? = t.entries[h]?.map fun e => (f e).getD e :=
  Std.TreeMap.getElem?_map

/-- The values are the entries of some handle. -/
theorem mem_values {t : CapTable} {e : CapEntry} :
    e ∈ t.values ↔ ∃ h : Nat, t.entries[h]? = some e := by
  simp only [values, List.mem_map, Prod.exists, exists_eq_right]
  constructor
  · rintro ⟨h, hm⟩
    exact ⟨h, Std.TreeMap.mem_toList_iff_getElem?_eq_some.mp hm⟩
  · rintro ⟨h, hm⟩
    exact ⟨h, Std.TreeMap.mem_toList_iff_getElem?_eq_some.mpr hm⟩

/-- A successful insertion takes the next handle and adds one entry. -/
theorem insertWithSuspended_ok {t t' : CapTable} {ty : ResourceType} {id h : Nat} {r u : Rights}
    (heq : t.insertWithSuspended ty id r u = .ok (h, t')) :
    h = t.nextHandle ∧ t.entries.size < maxEntries ∧
      t'.entries = t.entries.insert h ⟨ty, id, r, u, true⟩ ∧
      t'.nextHandle = if wrappingAdd 64 t.nextHandle 1 = 0 then 1 else wrappingAdd 64 t.nextHandle 1 := by
  unfold insertWithSuspended at heq
  split at heq
  · cases heq
  · next hlt =>
      obtain ⟨rfl, rfl⟩ := Prod.mk.inj (Except.ok.inj heq)
      exact ⟨rfl, Nat.lt_of_not_le hlt, rfl, rfl⟩

theorem lookup_ok {t : CapTable} {h : Nat} {e : CapEntry} :
    t.lookup h = .ok e ↔ t.entries[h]? = some e ∧ e.valid = true := by
  unfold lookup
  cases he : t.entries[h]? with
  | none => simp
  | some e' =>
    cases hv : e'.valid with
    | false =>
      simp only [hv, Bool.not_false, if_true, Option.some.injEq]
      refine ⟨fun heq => (by cases heq), ?_⟩
      rintro ⟨rfl, hval⟩
      rw [hv] at hval
      cases hval
    | true =>
      simp only [hv, Bool.not_true, Bool.false_eq_true, if_false, Except.ok.injEq,
        Option.some.injEq]
      refine ⟨?_, And.left⟩
      rintro rfl
      exact ⟨rfl, hv⟩

/-- **A check passes exactly through a valid entry with the live rights.** -/
theorem checkRights_ok {t : CapTable} {h : Nat} {required : Rights} {e : CapEntry} :
    t.checkRights h required = .ok e ↔
      t.entries[h]? = some e ∧ e.valid = true ∧ e.rights.contains required = true := by
  rw [← and_assoc, ← lookup_ok]
  unfold checkRights
  cases hl : t.lookup h with
  | error k => simp
  | ok e' =>
    cases hc : e'.rights.contains required with
    | false =>
      simp only [hc, Bool.not_false, if_true, Except.ok.injEq]
      refine ⟨fun heq => (by cases heq), ?_⟩
      rintro ⟨rfl, hcon⟩
      rw [hc] at hcon
      cases hcon
    | true =>
      simp only [hc, Bool.not_true, Bool.false_eq_true, if_false, Except.ok.injEq]
      refine ⟨?_, And.left⟩
      rintro rfl
      exact ⟨rfl, hc⟩

theorem hasResource_iff {t : CapTable} {ty : ResourceType} {id : Nat} {required : Rights} :
    t.hasResource ty id required = true ↔ ∃ (h : Nat) (e : CapEntry),
      t.checkRights h required = .ok e ∧ e.resourceType = ty ∧ e.resourceId = id := by
  simp only [hasResource, List.any_eq_true, Bool.and_eq_true, beq_iff_eq, mem_values, checkRights_ok]
  constructor
  · rintro ⟨e, ⟨h, he⟩, ⟨⟨hv, hty⟩, hid⟩, hc⟩
    exact ⟨h, e, ⟨he, hv, hc⟩, hty, hid⟩
  · rintro ⟨h, e, ⟨he, hv, hc⟩, hty, hid⟩
    exact ⟨e, ⟨h, he⟩, ⟨⟨hv, hty⟩, hid⟩, hc⟩

theorem hasCapabilityType_iff {t : CapTable} {ty : ResourceType} {required : Rights} :
    t.hasCapabilityType ty required = true ↔ ∃ (h : Nat) (e : CapEntry),
      t.checkRights h required = .ok e ∧ e.resourceType = ty := by
  simp only [hasCapabilityType, List.any_eq_true, Bool.and_eq_true, beq_iff_eq, mem_values,
    checkRights_ok]
  constructor
  · rintro ⟨e, ⟨h, he⟩, ⟨hv, hty⟩, hc⟩
    exact ⟨h, e, ⟨he, hv, hc⟩, hty⟩
  · rintro ⟨h, e, ⟨he, hv, hc⟩, hty⟩
    exact ⟨e, ⟨h, he⟩, ⟨hv, hty⟩, hc⟩

/-- A duplicate is a new entry for the same resource with no more than the source's live rights. -/
theorem duplicate_ok {t t' : CapTable} {source h : Nat} {r : Rights}
    (heq : t.duplicate source r = .ok (h, t')) :
    ∃ e, t.checkRights source .duplicate = .ok e ∧ r.isSubsetOf e.rights = true ∧
      t.insert e.resourceType e.resourceId r = .ok (h, t') := by
  unfold duplicate at heq
  cases he : t.entries[source]? with
  | none => simp [he] at heq
  | some e =>
    simp only [he] at heq
    split at heq
    · cases heq
    next hv =>
    split at heq
    · cases heq
    next hd =>
    split at heq
    · cases heq
    next hs =>
    refine ⟨e, checkRights_ok.mpr ⟨he, ?_, ?_⟩, ?_, heq⟩
    · simpa using hv
    · simpa using hd
    · simpa using hs

end CapTable

end SlateOS.Cap.Table
