/-
# SlateOS.Cap.TableRuns -- capability tables over whole runs

The table's operations in any order. The handles issued so far are recorded beside the table, so
that "issued twice" and "after its insertion" can be said. An operation acts on the entries that
are already there through one function of the entry, `after`; everything a run cannot do to an
entry follows from what `after` cannot do, and from new entries standing under new handles.
-/
import SlateOS.Cap.Table
import SlateOS.Foundation.Runs

namespace SlateOS.Cap.TableRuns

open Foundation.MachineInt Foundation.Runs Kernel Cap.Table

/-- A capability table and the handles it has issued, the latest first. -/
structure State where
  table : CapTable
  issued : List Nat

/-- One call on the table. -/
inductive Op
  | insert (resourceType : ResourceType) (resourceId : Nat) (rights : Rights)
  | insertWithSuspended (resourceType : ResourceType) (resourceId : Nat) (rights suspended : Rights)
  | duplicate (source : Nat) (newRights : Rights)
  | revoke (handle : Nat)
  | remove (handle : Nat)
  | revokeByResource (resourceType : ResourceType) (resourceId : Nat)
  | narrowAll (keep : CapEntry → Rights)
  | suspend (keep : CapEntry → Rights)
  | restore
  | dropSuspended
  | drainValid
  | removeCaps (handles : List Nat)
  | insertCaps (entries : List (ResourceType × Nat × Rights))

namespace State

/-- A new process's table. -/
def init : State := ⟨.new, []⟩

/-- The state after a call that issues at most one handle. -/
def issue (s : State) : KernelResult (Nat × CapTable) → State
  | .ok (h, t) => ⟨t, h :: s.issued⟩
  | .error _ => s

/-- The state after a call. -/
def apply (s : State) : Op → State
  | .insert ty id r => s.issue (s.table.insert ty id r)
  | .insertWithSuspended ty id r u => s.issue (s.table.insertWithSuspended ty id r u)
  | .duplicate source r => s.issue (s.table.duplicate source r)
  | .revoke h => ⟨(s.table.revoke h).2, s.issued⟩
  | .remove h => ⟨(s.table.remove h).2, s.issued⟩
  | .revokeByResource ty id => ⟨(s.table.revokeByResource ty id).2, s.issued⟩
  | .narrowAll keep => ⟨(s.table.narrowAll keep).2, s.issued⟩
  | .suspend keep => ⟨(s.table.suspend keep).2, s.issued⟩
  | .restore => ⟨s.table.restore.2, s.issued⟩
  | .dropSuspended => ⟨s.table.dropSuspended.2, s.issued⟩
  | .drainValid => ⟨s.table.drainValid.2, s.issued⟩
  | .removeCaps hs =>
    match s.table.removeCaps hs with
    | .ok (_, t) => ⟨t, s.issued⟩
    | .error _ => s
  | .insertCaps entries =>
    ⟨(s.table.insertCaps entries).2, (s.table.insertCaps entries).1.reverse ++ s.issued⟩

end State

/-- Every call is enabled in every state; a refused call changes nothing. -/
def step (s : State) (op : Op) : Option State := some (s.apply op)

/-- `narrow_all` is given a `keep` that keeps a subset of an entry's rights. -/
def KeepSubset (op : Op) : Prop :=
  ∀ keep, op = .narrowAll keep → ∀ e : CapEntry, e.rights.contains (keep e) = true

/-- Runs whose `narrow_all` calls all keep subsets. -/
abbrev Later (s t : State) : Prop := ReachBy step (fun _ op => KeepSubset op) (fun x => x = s) t

/-! ## Handles -/

/-- The handles issued are `1, 2, …`, each once, and entries stand only under issued ones. -/
structure Numbered (s : State) : Prop where
  nodup : s.issued.Nodup
  mem : ∀ h, h ∈ s.issued ↔ 1 ≤ h ∧ h ≤ s.issued.length
  next : s.issued.length + 1 < 2 ^ 64 → s.table.nextHandle = s.issued.length + 1
  owned : ∀ (h : Nat) (e : CapEntry), s.table.entries[h]? = some e → h ∈ s.issued

theorem Numbered.init : Numbered State.init where
  nodup := List.nodup_nil
  mem := by
    intro h
    show h ∈ [] ↔ 1 ≤ h ∧ h ≤ 0
    simp only [List.not_mem_nil, false_iff]
    omega
  next := fun _ => rfl
  owned := by
    intro h e he
    have hnone : State.init.table.entries[h]? = none := Std.TreeMap.getElem?_emptyc
    rw [hnone] at he
    cases he

variable {s : State}

/-- A table that keeps the counter and gains no key stays numbered. -/
theorem Numbered.keep (hs : Numbered s) {t : CapTable}
    (hnext : t.nextHandle = s.table.nextHandle)
    (hsub : ∀ (h : Nat) (e : CapEntry), t.entries[h]? = some e → ∃ e₀, s.table.entries[h]? = some e₀) :
    Numbered ⟨t, s.issued⟩ where
  nodup := hs.nodup
  mem := hs.mem
  next := fun hlt => hnext.trans (hs.next hlt)
  owned := by
    intro h e he
    rcases hsub h e he with ⟨e₀, he₀⟩
    exact hs.owned h e₀ he₀

/-- An issued handle is the next number, and was not issued before. -/
theorem Numbered.issue (hs : Numbered s) (hlt : s.issued.length + 1 < 2 ^ 64)
    {ty : ResourceType} {id h : Nat} {r u : Rights} {t : CapTable}
    (heq : s.table.insertWithSuspended ty id r u = .ok (h, t)) :
    Numbered ⟨t, h :: s.issued⟩ ∧ h ∉ s.issued ∧
      ∀ k, t.entries[k]? = if h = k then some ⟨ty, id, r, u, true⟩ else s.table.entries[k]? := by
  rcases CapTable.insertWithSuspended_ok heq with ⟨hh, -, hent, hnext⟩
  rw [hs.next hlt] at hh hnext
  have hnew : h ∉ s.issued := by
    intro hmem
    have := (hs.mem h).mp hmem
    omega
  have hget : ∀ k, t.entries[k]? =
      if h = k then some ⟨ty, id, r, u, true⟩ else s.table.entries[k]? := by
    intro k
    rw [hent, CapTable.getElem?_insert]
  refine ⟨⟨List.nodup_cons.mpr ⟨hnew, hs.nodup⟩, ?_, ?_, ?_⟩, hnew, hget⟩
  · intro k
    show k ∈ h :: s.issued ↔ 1 ≤ k ∧ k ≤ (h :: s.issued).length
    rw [List.mem_cons, hs.mem, List.length_cons]
    omega
  · intro hlt'
    have hlen : (h :: s.issued).length = s.issued.length + 1 := List.length_cons
    have hwrap : wrappingAdd 64 (s.issued.length + 1) 1 = s.issued.length + 1 + 1 := by
      rw [wrappingAdd, Nat.mod_eq_of_lt (by omega)]
    show t.nextHandle = (h :: s.issued).length + 1
    rw [hnext, hwrap, if_neg (by omega), hlen]
  · intro k e he
    change t.entries[k]? = some e at he
    rw [hget] at he
    split at he
    · next hk => exact hk ▸ List.mem_cons_self
    · exact List.mem_cons_of_mem h (hs.owned k e he)

/-! ## What a call does to the entries already there -/

/-- The entry `e` under handle `h` after the call, or `none` when it is removed. -/
def after (t : CapTable) : Op → Nat → CapEntry → Option CapEntry
  | .revoke k, h, e => some (if k = h then { e with valid := false } else e)
  | .remove k, h, e => if k = h then none else some e
  | .revokeByResource ty id, _, e => some ((CapTable.revokeEntry ty id e).getD e)
  | .narrowAll keep, _, e => some ((CapTable.narrowEntry keep e).getD e)
  | .suspend keep, _, e => some ((CapTable.suspendEntry keep e).getD e)
  | .restore, _, e => some ((CapTable.restoreEntry e).getD e)
  | .dropSuspended, _, e => some ((CapTable.dropEntry e).getD e)
  | .drainValid, _, _ => none
  | .removeCaps hs, h, e =>
    match t.lookupAll hs with
    | .ok _ => if h ∈ hs then none else some e
    | .error _ => some e
  | .insert _ _ _, _, e => some e
  | .insertWithSuspended _ _ _ _, _, e => some e
  | .duplicate _ _, _, e => some e
  | .insertCaps _, _, e => some e

theorem getElem?_revoke (t : CapTable) (k h : Nat) : (t.revoke k).2.entries[h]? =
    t.entries[h]?.map fun e => if k = h then { e with valid := false } else e := by
  unfold CapTable.revoke
  cases hk : t.entries[k]? with
  | none =>
    show t.entries[h]? = _
    cases hh : t.entries[h]? with
    | none => rfl
    | some e =>
      have hne : k ≠ h := by
        rintro rfl
        rw [hk] at hh
        cases hh
      rw [Option.map_some, if_neg hne]
  | some e =>
    show (t.entries.insert k { e with valid := false })[h]? = _
    rw [CapTable.getElem?_insert]
    split
    · next heq =>
        subst heq
        rw [hk]
        simp
    · next hne =>
        cases t.entries[h]? with
        | none => rfl
        | some e' => simp

theorem getElem?_remove (t : CapTable) (k h : Nat) :
    (t.remove k).2.entries[h]? = t.entries[h]?.bind fun e => if k = h then none else some e := by
  show (t.entries.erase k)[h]? = _
  rw [CapTable.getElem?_erase]
  cases t.entries[h]? with
  | none => simp
  | some e => simp

theorem removeAll_nextHandle (t : CapTable) (hs : List Nat) :
    (t.removeAll hs).2.nextHandle = t.nextHandle := by
  induction hs generalizing t with
  | nil => rfl
  | cons k hs ih =>
    unfold CapTable.removeAll CapTable.remove
    cases t.entries[k]? with
    | none => exact ih _
    | some e => exact ih _

theorem getElem?_removeAll (t : CapTable) (hs : List Nat) (h : Nat) :
    (t.removeAll hs).2.entries[h]? =
      t.entries[h]?.bind fun e => if h ∈ hs then none else some e := by
  induction hs generalizing t with
  | nil =>
    show t.entries[h]? = _
    cases t.entries[h]? <;> simp
  | cons k hs ih =>
    have hrest : (t.removeAll (k :: hs)).2.entries[h]? =
        ((t.remove k).2.removeAll hs).2.entries[h]? := by
      rw [CapTable.removeAll]
      split <;> next heq => rw [heq]
    rw [hrest, ih, getElem?_remove]
    cases t.entries[h]? with
    | none => rfl
    | some e =>
      simp only [Option.bind_some, List.mem_cons]
      by_cases hk : k = h
      · simp [hk]
      · simp [hk, Ne.symm hk]

/-- The handles a batch issues are new, and older entries stay as they are. -/
theorem insertCaps_spec (entries : List (ResourceType × Nat × Rights))
    (hs : Numbered s)
    (hlt : (s.table.insertCaps entries).1.length + s.issued.length < 2 ^ 64) :
    Numbered ⟨(s.table.insertCaps entries).2,
        (s.table.insertCaps entries).1.reverse ++ s.issued⟩ ∧
      ∀ h ∈ s.issued, (s.table.insertCaps entries).2.entries[h]? = s.table.entries[h]? := by
  induction entries generalizing s with
  | nil => exact ⟨hs, fun _ _ => rfl⟩
  | cons x xs ih =>
    obtain ⟨ty, id, r⟩ := x
    cases hins : s.table.insert ty id r with
    | error k =>
      have heq : s.table.insertCaps ((ty, id, r) :: xs) = s.table.insertCaps xs := by
        rw [CapTable.insertCaps, hins]
      rw [heq] at hlt ⊢
      exact ih hs hlt
    | ok res =>
      obtain ⟨k, t⟩ := res
      have heq : s.table.insertCaps ((ty, id, r) :: xs) =
          (k :: (t.insertCaps xs).1, (t.insertCaps xs).2) := by
        rw [CapTable.insertCaps, hins]
      rw [heq, List.length_cons] at hlt
      rcases hs.issue (by omega) hins with ⟨hs₁, hnew, hget⟩
      have hlt₁ : (t.insertCaps xs).1.length + (k :: s.issued).length < 2 ^ 64 := by
        rw [List.length_cons]
        omega
      rcases ih hs₁ hlt₁ with ⟨hnum, hold⟩
      have hiss : (k :: (t.insertCaps xs).1).reverse ++ s.issued =
          (t.insertCaps xs).1.reverse ++ k :: s.issued := by simp
      rw [heq]
      constructor
      · rw [hiss]
        exact hnum
      · intro h hmem
        show (t.insertCaps xs).2.entries[h]? = s.table.entries[h]?
        rw [hold h (List.mem_cons_of_mem k hmem), hget, if_neg]
        rintro rfl
        exact hnew hmem

/-- What one call does: the handles stay numbered, and an entry under a handle issued before
becomes what `after` says. -/
structure StepSpec (s : State) (op : Op) : Prop where
  numbered : Numbered (s.apply op)
  entries : ∀ h ∈ s.issued,
    (s.apply op).table.entries[h]? = s.table.entries[h]?.bind (after s.table op h)

variable {op : Op}

/-- A call that issues no handle and acts on each entry by `after`. -/
theorem StepSpec.of_entries (hs : Numbered s) {t : CapTable}
    (happ : s.apply op = ⟨t, s.issued⟩) (hnext : t.nextHandle = s.table.nextHandle)
    (hent : ∀ h : Nat, t.entries[h]? = s.table.entries[h]?.bind (after s.table op h)) :
    StepSpec s op where
  numbered := by
    rw [happ]
    apply hs.keep hnext
    intro h e he
    rw [hent, Option.bind_eq_some_iff] at he
    rcases he with ⟨e₀, he₀, -⟩
    exact ⟨e₀, he₀⟩
  entries := by
    intro h _
    rw [happ]
    exact hent h

/-- A call that issues one handle, or is refused. -/
theorem StepSpec.of_issue (hs : Numbered s)
    {res : KernelResult (Nat × CapTable)} (happ : s.apply op = s.issue res)
    (hkeep : ∀ (h : Nat) (e : CapEntry), after s.table op h e = some e)
    (hres : ∀ h t, res = .ok (h, t) → ∃ ty id r u,
      s.table.insertWithSuspended ty id r u = .ok (h, t))
    (hlt : (s.apply op).issued.length < 2 ^ 64) : StepSpec s op := by
  have hbind : ∀ h : Nat, s.table.entries[h]?.bind (after s.table op h) = s.table.entries[h]? := by
    intro h
    rw [funext (hkeep h), Option.bind_fun_some]
  cases res with
  | error k =>
    constructor
    · rw [happ]
      exact hs
    · intro h _
      rw [happ, hbind]
      rfl
  | ok p =>
    obtain ⟨k, t⟩ := p
    rcases hres k t rfl with ⟨ty, id, r, u, hins⟩
    rw [happ] at hlt
    rcases hs.issue hlt hins with ⟨hnum, hnew, hget⟩
    constructor
    · rw [happ]
      exact hnum
    · intro h hmem
      rw [happ, hbind]
      show t.entries[h]? = s.table.entries[h]?
      rw [hget, if_neg]
      rintro rfl
      exact hnew hmem

/-- A loop over all entries. -/
theorem StepSpec.of_updateAll (hs : Numbered s)
    {f : CapEntry → Option CapEntry} (happ : s.apply op = ⟨(s.table.updateAll f).2, s.issued⟩)
    (hafter : ∀ h : Nat, after s.table op h = fun e => some ((f e).getD e)) : StepSpec s op := by
  apply StepSpec.of_entries hs happ rfl
  intro h
  rw [CapTable.getElem?_updateAll, hafter]
  cases s.table.entries[h]? <;> rfl

theorem step_spec (hs : Numbered s) (op : Op)
    (hlt : (s.apply op).issued.length < 2 ^ 64) : StepSpec s op := by
  cases op with
  | insert ty id r =>
    exact .of_issue hs rfl (fun _ _ => rfl) (fun _ _ heq => ⟨ty, id, r, .none, heq⟩) hlt
  | insertWithSuspended ty id r u =>
    exact .of_issue hs rfl (fun _ _ => rfl) (fun _ _ heq => ⟨ty, id, r, u, heq⟩) hlt
  | duplicate source r =>
    apply StepSpec.of_issue hs rfl (fun _ _ => rfl) _ hlt
    intro h t heq
    rcases CapTable.duplicate_ok heq with ⟨e, -, -, hins⟩
    exact ⟨e.resourceType, e.resourceId, r, .none, hins⟩
  | revoke k =>
    apply StepSpec.of_entries hs rfl
    · unfold CapTable.revoke
      split <;> rfl
    · intro h
      rw [getElem?_revoke]
      cases s.table.entries[h]? <;> rfl
  | remove k => exact .of_entries hs rfl rfl fun h => getElem?_remove s.table k h
  | revokeByResource ty id => exact .of_updateAll hs rfl fun _ => rfl
  | narrowAll keep => exact .of_updateAll hs rfl fun _ => rfl
  | suspend keep => exact .of_updateAll hs rfl fun _ => rfl
  | restore => exact .of_updateAll hs rfl fun _ => rfl
  | dropSuspended => exact .of_updateAll hs rfl fun _ => rfl
  | drainValid =>
    apply StepSpec.of_entries (t := s.table.drainValid.2) hs rfl rfl
    intro h
    have hnone : (∅ : Std.TreeMap Nat CapEntry)[h]? = none := Std.TreeMap.getElem?_emptyc
    show (∅ : Std.TreeMap Nat CapEntry)[h]? = _
    rw [hnone]
    cases s.table.entries[h]? <;> rfl
  | removeCaps handles =>
    cases hl : s.table.lookupAll handles with
    | error k =>
      apply StepSpec.of_entries (t := s.table) hs _ rfl
      · intro h
        show _ = s.table.entries[h]?.bind fun e => _
        simp only [after, hl, Option.bind_fun_some]
      · show s.apply (.removeCaps handles) = s
        simp only [State.apply, CapTable.removeCaps, hl]
    | ok _ =>
      apply StepSpec.of_entries (t := (s.table.removeAll handles).2) hs
      · simp only [State.apply, CapTable.removeCaps, hl]
      · exact removeAll_nextHandle s.table handles
      · intro h
        rw [getElem?_removeAll]
        show _ = s.table.entries[h]?.bind fun e => _
        simp only [after, hl]
  | insertCaps entries =>
    have hlen : (s.table.insertCaps entries).1.length + s.issued.length < 2 ^ 64 := by
      change ((s.table.insertCaps entries).1.reverse ++ s.issued).length < 2 ^ 64 at hlt
      rwa [List.length_append, List.length_reverse] at hlt
    rcases insertCaps_spec entries hs hlen with ⟨hnum, hold⟩
    constructor
    · exact hnum
    · intro h hmem
      show (s.table.insertCaps entries).2.entries[h]? = s.table.entries[h]?.bind fun e => some e
      rw [hold h hmem, Option.bind_fun_some]

/-! ## What no call can do to an entry -/

/-- `e'` is `e` at some later time, without a right or a validity that `e` did not have. -/
structure Below (e' e : CapEntry) : Prop where
  resourceType : e'.resourceType = e.resourceType
  resourceId : e'.resourceId = e.resourceId
  valid : e'.valid = true → e.valid = true
  rights : (e.rights.union e.suspended).contains (e'.rights.union e'.suspended) = true

theorem Below.refl (e : CapEntry) : Below e e := ⟨rfl, rfl, id, Rights.contains_refl _⟩

theorem Below.trans {a b c : CapEntry} (hab : Below a b) (hbc : Below b c) : Below a c where
  resourceType := hab.resourceType.trans hbc.resourceType
  resourceId := hab.resourceId.trans hbc.resourceId
  valid := fun h => hbc.valid (hab.valid h)
  rights := Rights.contains_trans hbc.rights hab.rights

/-- Every live right of `e'` is a live right of `e`. -/
def LiveBelow (e' e : CapEntry) : Prop := e.rights.contains e'.rights = true

theorem narrowEntry_below {keep : CapEntry → Rights}
    (hkeep : ∀ e : CapEntry, e.rights.contains (keep e) = true) (e : CapEntry) :
    Below ((CapTable.narrowEntry keep e).getD e) e ∧
      LiveBelow ((CapTable.narrowEntry keep e).getD e) e := by
  have hself := Below.refl e
  have hlive : LiveBelow e e := Rights.contains_refl _
  unfold CapTable.narrowEntry
  split
  · exact ⟨hself, hlive⟩
  dsimp only
  split
  · exact ⟨hself, hlive⟩
  split
  · exact ⟨⟨rfl, rfl, fun h => (by cases h), hself.rights⟩, hlive⟩
  · refine ⟨⟨rfl, rfl, id, ?_⟩, hkeep e⟩
    show (e.rights.union e.suspended).contains ((keep e).union e.suspended) = true
    have hk := Rights.contains_iff.mp (hkeep e)
    rw [Rights.contains_iff]
    intro i hi
    rw [Rights.has_union, Bool.or_eq_true] at hi ⊢
    exact hi.imp_left (hk i)

theorem suspendEntry_below (keep : CapEntry → Rights) (e : CapEntry) :
    Below ((CapTable.suspendEntry keep e).getD e) e ∧
      LiveBelow ((CapTable.suspendEntry keep e).getD e) e := by
  unfold CapTable.suspendEntry
  split
  · exact ⟨.refl e, Rights.contains_refl _⟩
  dsimp only
  split
  · exact ⟨.refl e, Rights.contains_refl _⟩
  refine ⟨⟨rfl, rfl, id, ?_⟩, ?_⟩
  · rw [Rights.contains_iff]
    intro i hi
    simp only [Option.getD_some, Rights.has_union, Rights.has_remove, Bool.or_eq_true,
      Bool.and_eq_true] at hi ⊢
    rcases hi with ⟨hr, -⟩ | hs | ⟨hr, -⟩
    · exact .inl hr
    · exact .inr hs
    · exact .inl hr
  · show e.rights.contains (e.rights.remove _) = true
    rw [Rights.contains_iff]
    intro i hi
    rw [Rights.has_remove, Bool.and_eq_true] at hi
    exact hi.1

theorem restoreEntry_below (e : CapEntry) : Below ((CapTable.restoreEntry e).getD e) e := by
  unfold CapTable.restoreEntry
  split
  · exact .refl e
  refine ⟨rfl, rfl, id, ?_⟩
  rw [Rights.contains_iff]
  intro i hi
  simpa using hi

theorem dropEntry_below (e : CapEntry) :
    Below ((CapTable.dropEntry e).getD e) e ∧ LiveBelow ((CapTable.dropEntry e).getD e) e := by
  unfold CapTable.dropEntry
  split
  · exact ⟨.refl e, Rights.contains_refl _⟩
  refine ⟨⟨rfl, rfl, ?_, ?_⟩, Rights.contains_refl _⟩
  · show (if e.rights.isEmpty then false else e.valid) = true → e.valid = true
    split
    · intro h
      cases h
    · exact id
  · rw [Rights.contains_iff]
    intro i hi
    simp only [Option.getD_some, Rights.has_union, Rights.has_none, Bool.or_false] at hi
    rw [Rights.has_union, hi, Bool.true_or]

theorem revokeEntry_below (ty : ResourceType) (id : Nat) (e : CapEntry) :
    Below ((CapTable.revokeEntry ty id e).getD e) e ∧
      LiveBelow ((CapTable.revokeEntry ty id e).getD e) e := by
  unfold CapTable.revokeEntry
  split
  · exact ⟨⟨rfl, rfl, fun h => (by cases h), Rights.contains_refl _⟩, Rights.contains_refl _⟩
  · exact ⟨.refl e, Rights.contains_refl _⟩

/-- **No call gives an entry validity or rights it did not have**; only `restore` makes a right
live that was not. -/
theorem after_below {t : CapTable} (hop : KeepSubset op) {h : Nat} {e e' : CapEntry}
    (heq : after t op h e = some e') : Below e' e ∧ (op ≠ .restore → LiveBelow e' e) := by
  have hsame : ∀ {o : Option CapEntry}, o = some e → o = some e' →
      Below e' e ∧ (op ≠ .restore → LiveBelow e' e) := by
    intro o ho ho'
    rw [ho, Option.some.injEq] at ho'
    exact ho' ▸ ⟨.refl e, fun _ => Rights.contains_refl _⟩
  cases op with
  | insert ty id r => exact hsame rfl heq
  | insertWithSuspended ty id r u => exact hsame rfl heq
  | duplicate source r => exact hsame rfl heq
  | insertCaps entries => exact hsame rfl heq
  | drainValid => cases heq
  | revoke k =>
    rw [← Option.some.inj heq]
    split
    · exact ⟨⟨rfl, rfl, fun h => (by cases h), Rights.contains_refl _⟩,
        fun _ => Rights.contains_refl _⟩
    · exact ⟨.refl e, fun _ => Rights.contains_refl _⟩
  | remove k =>
    change (if k = h then none else some e) = some e' at heq
    split at heq
    · cases heq
    · exact hsame rfl heq
  | removeCaps handles =>
    change (match t.lookupAll handles with
      | .ok _ => if h ∈ handles then none else some e
      | .error _ => some e) = some e' at heq
    split at heq
    · split at heq
      · cases heq
      · exact hsame rfl heq
    · exact hsame rfl heq
  | revokeByResource ty id =>
    rw [← Option.some.inj heq]
    exact (revokeEntry_below ty id e).imp_right fun hl _ => hl
  | narrowAll keep =>
    rw [← Option.some.inj heq]
    exact (narrowEntry_below (hop keep rfl) e).imp_right fun hl _ => hl
  | suspend keep =>
    rw [← Option.some.inj heq]
    exact (suspendEntry_below keep e).imp_right fun hl _ => hl
  | restore =>
    rw [← Option.some.inj heq]
    exact ⟨restoreEntry_below e, fun h => absurd rfl h⟩
  | dropSuspended =>
    rw [← Option.some.inj heq]
    exact (dropEntry_below e).imp_right fun hl _ => hl

/-! ## Runs -/

/-- Handles are only added to those issued. -/
theorem issued_suffix (s : State) (op : Op) : s.issued <:+ (s.apply op).issued := by
  have hissue : ∀ res : KernelResult (Nat × CapTable), s.issued <:+ (s.issue res).issued := by
    intro res
    cases res with
    | error k => exact List.suffix_refl _
    | ok p => exact List.suffix_cons p.1 s.issued
  cases op with
  | insert ty id r => exact hissue _
  | insertWithSuspended ty id r u => exact hissue _
  | duplicate source r => exact hissue _
  | insertCaps entries => exact List.suffix_append _ _
  | removeCaps handles =>
    unfold State.apply
    dsimp only
    split <;> exact List.suffix_refl _
  | revoke k => exact List.suffix_refl _
  | remove k => exact List.suffix_refl _
  | revokeByResource ty id => exact List.suffix_refl _
  | narrowAll keep => exact List.suffix_refl _
  | suspend keep => exact List.suffix_refl _
  | restore => exact List.suffix_refl _
  | dropSuspended => exact List.suffix_refl _
  | drainValid => exact List.suffix_refl _

/-- Between two states of a run, an entry under an issued handle changes only along `R`, when every
call changes entries along `R`. -/
structure Since (R : CapEntry → CapEntry → Prop) (s t : State) : Prop where
  numbered : Numbered t
  issued : s.issued <:+ t.issued
  entries : ∀ h ∈ s.issued, ∀ e', t.table.entries[h]? = some e' →
    ∃ e, s.table.entries[h]? = some e ∧ R e' e

section Runs

variable {R : CapEntry → CapEntry → Prop} {ok : Op → Prop}

/-- One call extends what a run did to the entries. -/
theorem Since.step {s t : State} (hs : Since R s t)
    (htrans : ∀ {a b c}, R a b → R b c → R a c)
    (hop : ∀ {h : Nat} {e e' : CapEntry}, after t.table op h e = some e' → R e' e)
    (hlt : (t.apply op).issued.length < 2 ^ 64) : Since R s (t.apply op) := by
  have hspec := step_spec hs.numbered op hlt
  refine ⟨hspec.numbered, hs.issued.trans (issued_suffix t op), ?_⟩
  intro h hmem e'' he''
  rw [hspec.entries h (hs.issued.subset hmem), Option.bind_eq_some_iff] at he''
  rcases he'' with ⟨e', he', haft⟩
  rcases hs.entries h hmem e' he' with ⟨e, he, hR⟩
  exact ⟨e, he, htrans (hop haft) hR⟩

/-- Every run does to the entries only what its calls do. -/
theorem Since.of_run {s t : State} (hs : Numbered s) (hrefl : ∀ e, R e e)
    (htrans : ∀ {a b c}, R a b → R b c → R a c)
    (hok : ∀ {t op h e e'}, ok op → after t op h e = some e' → R e' e)
    (hrun : ReachBy TableRuns.step (fun _ op => ok op) (fun x => x = s) t)
    (hlt : t.issued.length < 2 ^ 64) : Since R s t := by
  induction hrun with
  | start heq =>
    subst heq
    exact ⟨hs, List.suffix_refl _, fun h _ e he => ⟨e, he, hrefl e⟩⟩
  | @next t t' op _ hop hst ih =>
    cases hst
    have hle := (issued_suffix t op).length_le
    exact (ih (by omega)).step htrans (fun haft => hok hop haft) hlt

end Runs

/-- Every state of a run is numbered. -/
theorem numbered_of_run {t : State} (hrun : Later State.init t)
    (hlt : t.issued.length < 2 ^ 64) : Numbered t :=
  (Since.of_run (R := fun _ _ => True) Numbered.init (fun _ => trivial) (fun _ _ => trivial)
    (fun _ _ => trivial) hrun hlt).numbered

theorem below_of_run {s t : State} (hs : Numbered s) (hrun : Later s t)
    (hlt : t.issued.length < 2 ^ 64) : Since Below s t :=
  Since.of_run hs Below.refl Below.trans (fun hop haft => (after_below hop haft).1) hrun hlt

theorem liveBelow_of_run {s t : State} (hs : Numbered s)
    (hrun : ReachBy step (fun _ op => KeepSubset op ∧ op ≠ .restore) (fun x => x = s) t)
    (hlt : t.issued.length < 2 ^ 64) : Since LiveBelow s t :=
  Since.of_run hs (fun _ => Rights.contains_refl _) (fun hab hbc => Rights.contains_trans hbc hab)
    (fun hop haft => (after_below hop.1 haft).2 hop.2) hrun hlt

/-! ## The security invariant -/

/-- What a table that has issued fewer than `2^64` handles guarantees, now and from now on. -/
structure Secure (s : State) : Prop where
  /-- No handle was issued twice, and only issued handles have entries. -/
  issued_once : s.issued.Nodup
  entries_issued : ∀ (h : Nat) (e : CapEntry), s.table.entries[h]? = some e → h ∈ s.issued
  /-- An entry of the future under a handle issued by now is an entry of now, with no validity
  and no right, live or put aside, that it lacks now. -/
  entries_shrink : ∀ t, Later s t → t.issued.length < 2 ^ 64 → ∀ h ∈ s.issued, ∀ e',
    t.table.entries[h]? = some e' → ∃ e, s.table.entries[h]? = some e ∧ Below e' e
  /-- A duplicate names its source's resource, with rights among the source's live ones. -/
  duplicate_below : ∀ source r h t, s.table.duplicate source r = .ok (h, t) →
    ∃ e e', s.table.entries[source]? = some e ∧ e.valid = true ∧ t.entries[h]? = some e' ∧
      e'.resourceType = e.resourceType ∧ e'.resourceId = e.resourceId ∧
      e.rights.contains e'.rights = true ∧ e'.suspended = .none
  /-- The checks pass exactly through a valid entry with the required rights live. -/
  checkRights_iff : ∀ h required e, s.table.checkRights h required = .ok e ↔
    s.table.entries[h]? = some e ∧ e.valid = true ∧ e.rights.contains required = true
  hasResource_iff : ∀ ty id required, s.table.hasResource ty id required = true ↔
    ∃ (h : Nat) (e : CapEntry), s.table.entries[h]? = some e ∧ e.valid = true ∧
      e.rights.contains required = true ∧ e.resourceType = ty ∧ e.resourceId = id
  hasCapabilityType_iff : ∀ ty required, s.table.hasCapabilityType ty required = true ↔
    ∃ (h : Nat) (e : CapEntry), s.table.entries[h]? = some e ∧ e.valid = true ∧
      e.rights.contains required = true ∧ e.resourceType = ty
  /-- An issued handle that is removed or revoked now fails every check from now on. -/
  gone_stays_gone : ∀ t, Later s t → t.issued.length < 2 ^ 64 → ∀ h ∈ s.issued,
    (∀ e, s.table.entries[h]? = some e → e.valid = false) →
      ∀ required e, t.table.checkRights h required ≠ .ok e
  /-- A right that is not live now permits nothing under its handle until a `restore`. -/
  aside_stays_aside : ∀ t,
    ReachBy step (fun _ op => KeepSubset op ∧ op ≠ .restore) (fun x => x = s) t →
    t.issued.length < 2 ^ 64 → ∀ (h : Nat) (e : CapEntry) (i : Nat),
      s.table.entries[h]? = some e → e.rights.has i = false →
      ∀ required e', required.has i = true → t.table.checkRights h required ≠ .ok e'

theorem Numbered.secure (hs : Numbered s) : Secure s where
  issued_once := hs.nodup
  entries_issued := hs.owned
  entries_shrink := fun t hrun hlt => (below_of_run hs hrun hlt).entries
  duplicate_below := by
    intro source r h t heq
    rcases CapTable.duplicate_ok heq with ⟨e, hcheck, hsub, hins⟩
    rcases CapTable.checkRights_ok.mp hcheck with ⟨he, hv, -⟩
    rcases CapTable.insertWithSuspended_ok hins with ⟨-, -, hent, -⟩
    refine ⟨e, ⟨e.resourceType, e.resourceId, r, .none, true⟩, he, hv, ?_, rfl, rfl, ?_, rfl⟩
    · rw [hent, CapTable.getElem?_insert, if_pos rfl]
    · exact Rights.contains_iff.mpr (Rights.isSubsetOf_iff.mp hsub)
  checkRights_iff := fun _ _ _ => CapTable.checkRights_ok
  hasResource_iff := by
    intro ty id required
    simp only [CapTable.hasResource_iff, CapTable.checkRights_ok, and_assoc]
  hasCapabilityType_iff := by
    intro ty required
    simp only [CapTable.hasCapabilityType_iff, CapTable.checkRights_ok, and_assoc]
  gone_stays_gone := by
    intro t hrun hlt h hmem hgone required e' hcheck
    rcases CapTable.checkRights_ok.mp hcheck with ⟨he', hv', -⟩
    rcases (below_of_run hs hrun hlt).entries h hmem e' he' with ⟨e, he, hbelow⟩
    have hv := hbelow.valid hv'
    rw [hgone e he] at hv
    cases hv
  aside_stays_aside := by
    intro t hrun hlt h e i he hi required e' hreq hcheck
    rcases CapTable.checkRights_ok.mp hcheck with ⟨he', -, hcon⟩
    rcases (liveBelow_of_run hs hrun hlt).entries h (hs.owned h e he) e' he' with ⟨e₀, he₀, hlive⟩
    rw [he] at he₀
    cases he₀
    have hbit := Rights.contains_iff.mp hlive i (Rights.contains_iff.mp hcon i hreq)
    rw [hi] at hbit
    cases hbit

/-- **The capability table is secure in every state of every run** that has issued fewer than
`2^64` handles and narrows only to subsets. -/
theorem table_secure {s : State} (hrun : Later State.init s) (hlt : s.issued.length < 2 ^ 64) :
    Secure s :=
  (numbered_of_run hrun hlt).secure

theorem table_secure_put_aside :
    Secure ((State.init.apply (.insert .process 7 (Rights.read.union .duplicate))).apply
      (.suspend fun e => e.rights.remove .duplicate)) :=
  table_secure (.next (.next (.start rfl) (fun _ heq => (by cases heq)) rfl)
    (fun _ heq => (by cases heq)) rfl) (by decide)

end SlateOS.Cap.TableRuns
