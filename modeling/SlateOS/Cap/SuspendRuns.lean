/-
# SlateOS.Cap.SuspendRuns -- rights put aside come back

`suspend`, `restore` and `drop_suspended` of `kernel/src/cap/table.rs`, with any calls on the table between them. An
entry's live rights and those put aside make up its whole; `suspend` and `restore` move rights between the two parts,
and only `narrow_all` and `drop_suspended` take from the whole. A table is followed from any state: a handle is that
of an entry of the start as long as no call has issued it since.
-/
import SlateOS.Cap.TableRuns

namespace SlateOS.Cap.Table.CapEntry

/-- The entry with everything put aside given back. -/
def whole (e : CapEntry) : CapEntry := { e with rights := e.rights.union e.suspended, suspended := .none }

theorem whole_of_none {e : CapEntry} (h : e.suspended = .none) : e.whole = e := by
  obtain ⟨ty, id, r, u, v⟩ := e
  obtain rfl : u = .none := h
  unfold whole
  congr 1
  exact Rights.ext_has fun i => by simp

theorem whole_whole (e : CapEntry) : e.whole.whole = e.whole := whole_of_none rfl

end SlateOS.Cap.Table.CapEntry

namespace SlateOS.Cap.TableRuns

open Foundation.Runs Kernel Cap.Table

variable {s s' : State} {t : CapTable} {op : Op} {h : Nat} {e e' : CapEntry}

/-! ## One call, from any table -/

theorem getElem?_issue {res : KernelResult (Nat × CapTable)}
    (hres : ∀ k t', res = .ok (k, t') → ∃ ty id r u, s.table.insertWithSuspended ty id r u = .ok (k, t'))
    (hnew : h ∉ (s.issue res).issued) : (s.issue res).table.entries[h]? = s.table.entries[h]? := by
  cases res with
  | error k => rfl
  | ok p =>
    obtain ⟨k, t'⟩ := p
    obtain ⟨ty, id, r, u, hins⟩ := hres k t' rfl
    obtain ⟨-, -, hent, -⟩ := CapTable.insertWithSuspended_ok hins
    show t'.entries[h]? = s.table.entries[h]?
    rw [hent, CapTable.getElem?_insert, if_neg]
    rintro rfl
    exact hnew List.mem_cons_self

theorem getElem?_insertCaps (entries : List (ResourceType × Nat × Rights)) (t : CapTable)
    (hnew : h ∉ (t.insertCaps entries).1) : (t.insertCaps entries).2.entries[h]? = t.entries[h]? := by
  induction entries generalizing t with
  | nil => rfl
  | cons x xs ih =>
    obtain ⟨ty, id, r⟩ := x
    cases hins : t.insert ty id r with
    | error k =>
      have heq : t.insertCaps ((ty, id, r) :: xs) = t.insertCaps xs := by
        rw [CapTable.insertCaps, hins]
      rw [heq] at hnew ⊢
      exact ih t hnew
    | ok res =>
      obtain ⟨k, t'⟩ := res
      have heq : t.insertCaps ((ty, id, r) :: xs) = (k :: (t'.insertCaps xs).1, (t'.insertCaps xs).2) := by
        rw [CapTable.insertCaps, hins]
      rw [heq] at hnew ⊢
      obtain ⟨-, -, hent, -⟩ := CapTable.insertWithSuspended_ok hins
      rw [ih t' fun hin => hnew (List.mem_cons_of_mem k hin), hent, CapTable.getElem?_insert, if_neg]
      rintro rfl
      exact hnew List.mem_cons_self

/-- A sweep over the table does the same to every entry. -/
theorem getElem?_sweep (t : CapTable) (f : CapEntry → Option CapEntry) (h : Nat) :
    (t.updateAll f).2.entries[h]? = t.entries[h]?.bind fun e => some ((f e).getD e) := by
  rw [CapTable.getElem?_updateAll]
  cases t.entries[h]? <;> rfl

/-- What a call does to an entry whose handle it does not issue anew. -/
theorem getElem?_apply (s : State) (op : Op) (hnew : h ∉ (s.apply op).issued) :
    (s.apply op).table.entries[h]? = s.table.entries[h]?.bind (after s.table op h) := by
  cases op with
  | insert ty id r =>
    show _ = s.table.entries[h]?.bind fun e => some e
    rw [Option.bind_fun_some]
    exact getElem?_issue (fun _ _ heq => ⟨ty, id, r, .none, heq⟩) hnew
  | insertWithSuspended ty id r u =>
    show _ = s.table.entries[h]?.bind fun e => some e
    rw [Option.bind_fun_some]
    exact getElem?_issue (fun _ _ heq => ⟨ty, id, r, u, heq⟩) hnew
  | duplicate source r =>
    show _ = s.table.entries[h]?.bind fun e => some e
    rw [Option.bind_fun_some]
    refine getElem?_issue (fun k t' heq => ?_) hnew
    obtain ⟨e, -, -, hins⟩ := CapTable.duplicate_ok heq
    exact ⟨e.resourceType, e.resourceId, r, .none, hins⟩
  | insertCaps entries =>
    show _ = s.table.entries[h]?.bind fun e => some e
    rw [Option.bind_fun_some]
    refine getElem?_insertCaps entries s.table fun hin => hnew ?_
    exact List.mem_append_left _ (List.mem_reverse.mpr hin)
  | revoke k =>
    show (s.table.revoke k).2.entries[h]? = _
    rw [getElem?_revoke]
    cases s.table.entries[h]? <;> rfl
  | remove k => exact getElem?_remove s.table k h
  | revokeByResource ty id => exact getElem?_sweep s.table _ h
  | narrowAll keep => exact getElem?_sweep s.table _ h
  | suspend keep => exact getElem?_sweep s.table _ h
  | restore => exact getElem?_sweep s.table _ h
  | dropSuspended => exact getElem?_sweep s.table _ h
  | drainValid =>
    have hnone : (∅ : Std.TreeMap Nat CapEntry)[h]? = none := Std.TreeMap.getElem?_emptyc
    show (∅ : Std.TreeMap Nat CapEntry)[h]? = _
    rw [hnone]
    cases s.table.entries[h]? <;> rfl
  | removeCaps handles =>
    show _ = s.table.entries[h]?.bind fun e => _
    cases hl : s.table.lookupAll handles with
    | error k => simp only [State.apply, CapTable.removeCaps, after, hl, Option.bind_fun_some]
    | ok _ =>
      simp only [State.apply, CapTable.removeCaps, after, hl]
      exact getElem?_removeAll s.table handles h

/-! ## The whole of an entry -/

/-- A call that neither narrows rights nor forgets those put aside. -/
def Lossless : Op → Prop
  | .narrowAll _ | .dropSuspended => False
  | _ => True

instance (op : Op) : Decidable (Lossless op) := by
  cases op <;> unfold Lossless <;> infer_instance

/-- `e'` is `e` at some later time, revoked or with the same whole. -/
structure Entire (e' e : CapEntry) : Prop where
  valid : e'.valid = true → e.valid = true
  whole : e'.valid = true → e'.whole = e.whole

theorem Entire.refl (e : CapEntry) : Entire e e := ⟨id, fun _ => rfl⟩

theorem Entire.trans {a b c : CapEntry} (hab : Entire a b) (hbc : Entire b c) : Entire a c where
  valid := fun h => hbc.valid (hab.valid h)
  whole := fun h => (hab.whole h).trans (hbc.whole (hab.valid h))

theorem Entire.of_invalid (h : e'.valid = false) : Entire e' e := by
  constructor <;> intro hv <;> rw [h] at hv <;> cases hv

theorem suspendEntry_entire (keep : CapEntry → Rights) (e : CapEntry) :
    Entire ((CapTable.suspendEntry keep e).getD e) e := by
  unfold CapTable.suspendEntry
  split
  · exact .refl e
  dsimp only
  split
  · exact .refl e
  refine ⟨id, fun _ => ?_⟩
  unfold CapEntry.whole
  congr 1
  refine Rights.ext_has fun i => ?_
  simp only [Option.getD_some, Rights.has_union, Rights.has_remove]
  cases e.rights.has i <;> cases e.suspended.has i <;> cases (keep e).has i <;> rfl

theorem restoreEntry_getD (e : CapEntry) :
    (CapTable.restoreEntry e).getD e = if e.valid then e.whole else e := by
  unfold CapTable.restoreEntry
  cases hv : e.valid with
  | false => rfl
  | true =>
    cases he : e.suspended.isEmpty with
    | false =>
      simp only [Bool.not_true, Bool.or_false, Bool.false_eq_true, if_false, if_true, Option.getD_some,
        CapEntry.whole, hv]
    | true =>
      have hnone : e.suspended = .none := Rights.isEmpty_iff.mp he
      simp only [Bool.not_true, Bool.or_true, if_true, Option.getD_none]
      rw [CapEntry.whole_of_none hnone]

theorem restoreEntry_entire (e : CapEntry) : Entire ((CapTable.restoreEntry e).getD e) e := by
  rw [restoreEntry_getD]
  split
  · exact ⟨id, fun _ => e.whole_whole⟩
  · exact .refl e

/-- **Only a revocation, `narrow_all` or `drop_suspended` takes from the whole of an entry.** -/
theorem after_entire (hop : Lossless op) (heq : after t op h e = some e') : Entire e' e := by
  have hsame : some e = some e' → Entire e' e := by
    intro he
    rw [Option.some.inj he]
    exact .refl e'
  cases op with
  | insert ty id r => exact hsame heq
  | insertWithSuspended ty id r u => exact hsame heq
  | duplicate source r => exact hsame heq
  | insertCaps entries => exact hsame heq
  | narrowAll keep => exact hop.elim
  | dropSuspended => exact hop.elim
  | drainValid => cases heq
  | revoke k =>
    rw [← Option.some.inj heq]
    split
    · exact .of_invalid rfl
    · exact .refl e
  | remove k =>
    change (if k = h then none else some e) = some e' at heq
    split at heq
    · cases heq
    · exact hsame heq
  | removeCaps handles =>
    simp only [after] at heq
    split at heq
    · split at heq
      · cases heq
      · exact hsame heq
    · exact hsame heq
  | revokeByResource ty id =>
    rw [← Option.some.inj heq]
    unfold CapTable.revokeEntry
    split
    · exact .of_invalid rfl
    · exact .refl e
  | suspend keep =>
    rw [← Option.some.inj heq]
    exact suspendEntry_entire keep e
  | restore =>
    rw [← Option.some.inj heq]
    exact restoreEntry_entire e

/-! ## Runs -/

/-- The runs of a table, as it stands at some time. -/
abbrev From (ok : State → Op → Prop) (t : CapTable) (s : State) : Prop :=
  ReachBy step ok (fun x => x = ⟨t, []⟩) s

/-- An entry whose handle is not issued anew changes only along `R`, when every call changes entries along `R`. -/
theorem entry_of_run {R : CapEntry → CapEntry → Prop} {ok : State → Op → Prop} (hrefl : ∀ e, R e e)
    (htrans : ∀ {a b c}, R a b → R b c → R a c)
    (hok : ∀ {s op h e e'}, ok s op → after s.table op h e = some e' → R e' e) (hrun : From ok t s)
    (hnew : h ∉ s.issued) (he' : s.table.entries[h]? = some e') : ∃ e, t.entries[h]? = some e ∧ R e' e := by
  induction hrun generalizing e' with
  | start heq =>
    subst heq
    exact ⟨e', he', hrefl e'⟩
  | @next s s' op hrun hop hstep ih =>
    cases hstep
    rw [getElem?_apply s op hnew, Option.bind_eq_some_iff] at he'
    obtain ⟨e₁, he₁, haft⟩ := he'
    obtain ⟨e, he, hR⟩ := ih (fun hin => hnew ((issued_suffix s op).subset hin)) he₁
    exact ⟨e, he, htrans (hok hop haft) hR⟩

/-- The call removes, replaces and revokes no entry of the start. -/
def Spares (s : State) (op : Op) : Prop :=
  ∀ (h : Nat) (e : CapEntry), s.table.entries[h]? = some e → h ∉ s.issued →
    h ∉ (s.apply op).issued ∧ ∃ e', (s.apply op).table.entries[h]? = some e' ∧ e'.valid = e.valid

theorem spared_of_run {ok : State → Op → Prop} (hok : ∀ s op, ok s op → Spares s op) (hrun : From ok t s)
    (he : t.entries[h]? = some e) :
    h ∉ s.issued ∧ ∃ e', s.table.entries[h]? = some e' ∧ e'.valid = e.valid := by
  induction hrun with
  | start heq =>
    subst heq
    exact ⟨List.not_mem_nil, e, he, rfl⟩
  | @next s s' op hrun hop hstep ih =>
    cases hstep
    obtain ⟨hnew, e₁, he₁, hvalid⟩ := ih
    obtain ⟨hnew', e₂, he₂, hvalid'⟩ := hok s op hop h e₁ he₁ hnew
    exact ⟨hnew', e₂, he₂, hvalid'.trans hvalid⟩

theorem getElem?_suspend (t : CapTable) (keep : CapEntry → Rights) (h : Nat) :
    (t.suspend keep).2.entries[h]? = t.entries[h]?.map fun e => (CapTable.suspendEntry keep e).getD e :=
  CapTable.getElem?_updateAll ..

theorem suspendEntry_valid (keep : CapEntry → Rights) (e : CapEntry) :
    ((CapTable.suspendEntry keep e).getD e).valid = e.valid := by
  unfold CapTable.suspendEntry
  split
  · rfl
  dsimp only
  split <;> rfl

theorem getElem?_restore (t : CapTable) (h : Nat) :
    t.restore.2.entries[h]? = t.entries[h]?.map fun e => if e.valid then e.whole else e := by
  refine (CapTable.getElem?_updateAll ..).trans ?_
  simp only [restoreEntry_getD]

/-- **Suspending and restoring gives an entry that is still valid its whole.** -/
theorem restored_whole {keep : CapEntry → Rights} {ok : State → Op → Prop} (hok : ∀ s op, ok s op → Lossless op)
    (hrun : From ok (t.suspend keep).2 s) (hnew : h ∉ s.issued) (he : t.entries[h]? = some e)
    (he' : s.table.restore.2.entries[h]? = some e') (hv : e'.valid = true) : e' = e.whole := by
  rw [getElem?_restore, Option.map_eq_some_iff] at he'
  obtain ⟨e₂, he₂, rfl⟩ := he'
  obtain ⟨e₁, he₁, hentire⟩ :=
    entry_of_run (R := Entire) Entire.refl Entire.trans (fun hop haft => after_entire (hok _ _ hop) haft) hrun hnew he₂
  rw [getElem?_suspend, he, Option.map_some] at he₁
  cases he₁
  have hv₂ : e₂.valid = true := by
    cases hv₂ : e₂.valid with
    | true => rfl
    | false =>
      rw [hv₂, if_neg Bool.false_ne_true, hv₂] at hv
      cases hv
  rw [if_pos hv₂]
  exact (hentire.trans (suspendEntry_entire keep e)).whole hv₂

/-! ## Revocations -/

theorem revive_none {f : CapEntry → Option CapEntry} (hf : ∀ e, ((f e).getD e).valid = true → e.valid = true)
    (heq : some ((f e).getD e) = some e') (hv : e'.valid = true) : e.valid = true := by
  rw [← Option.some.inj heq] at hv
  exact hf e hv

/-- **No call revives an entry**, whatever `narrow_all` and `suspend` are given. -/
theorem after_valid (heq : after t op h e = some e') (hv : e'.valid = true) : e.valid = true := by
  by_cases hop : Lossless op
  · exact (after_entire hop heq).valid hv
  · cases op with
    | narrowAll keep =>
      refine revive_none (fun e hv => ?_) heq hv
      unfold CapTable.narrowEntry at hv
      split at hv
      · exact hv
      · rename_i hvalid
        simpa using hvalid
    | dropSuspended =>
      refine revive_none (fun e hv => ?_) heq hv
      unfold CapTable.dropEntry at hv
      split at hv
      · exact hv
      · rename_i hvalid
        rw [Bool.or_eq_true, not_or] at hvalid
        simpa using hvalid.1
    | _ => exact absurd trivial hop

/-! ## After `drop_suspended` -/

/-- The call puts no right aside. -/
def PutsNoneAside : Op → Prop
  | .suspend _ => False
  | .insertWithSuspended _ _ _ suspended => suspended = .none
  | _ => True

/-- Nothing is put aside in an entry that is valid. -/
def NoneAside (t : CapTable) : Prop :=
  ∀ (h : Nat) (e : CapEntry), t.entries[h]? = some e → e.valid = true → e.suspended = .none

/-- What `drop_suspended` does to an entry. -/
theorem getElem?_dropSuspended (t : CapTable) (h : Nat) : t.dropSuspended.2.entries[h]? = t.entries[h]?.map fun e =>
    if e.valid = true ∧ e.suspended ≠ .none then { e with suspended := .none, valid := !e.rights.isEmpty } else e := by
  refine (CapTable.getElem?_updateAll ..).trans (congrArg (t.entries[h]?.map ·) (funext fun e => ?_))
  unfold CapTable.dropEntry
  cases hv : e.valid with
  | false => simp
  | true =>
    cases he : e.suspended.isEmpty with
    | true => simp [Rights.isEmpty_iff.mp he]
    | false =>
      have hne : e.suspended ≠ .none := by
        intro hnone
        rw [Rights.isEmpty_iff.mpr hnone] at he
        cases he
      cases e.rights.isEmpty <;> simp [hne]

theorem noneAside_dropSuspended (t : CapTable) : NoneAside t.dropSuspended.2 := by
  intro h e he hv
  rw [getElem?_dropSuspended, Option.map_eq_some_iff] at he
  obtain ⟨e₀, -, rfl⟩ := he
  split
  · rfl
  · rename_i hnot
    rw [if_neg hnot] at hv
    by_contra hne
    exact hnot ⟨hv, hne⟩

/-- A new entry, or an old one. -/
theorem mem_insertWithSuspended {ty : ResourceType} {id k : Nat} {r u : Rights} {t' : CapTable}
    (hins : t.insertWithSuspended ty id r u = .ok (k, t')) (he : t'.entries[h]? = some e) :
    e.suspended = u ∨ t.entries[h]? = some e := by
  obtain ⟨-, -, hent, -⟩ := CapTable.insertWithSuspended_ok hins
  rw [hent, CapTable.getElem?_insert] at he
  split at he
  · cases he
    exact .inl rfl
  · exact .inr he

theorem NoneAside.issue (hs : NoneAside s.table) {res : KernelResult (Nat × CapTable)}
    (hres : ∀ k t', res = .ok (k, t') → ∃ ty id r, s.table.insertWithSuspended ty id r .none = .ok (k, t')) :
    NoneAside (s.issue res).table := by
  cases res with
  | error k => exact hs
  | ok p =>
    obtain ⟨k, t'⟩ := p
    obtain ⟨ty, id, r, hins⟩ := hres k t' rfl
    intro h e he hv
    obtain hnone | hold := mem_insertWithSuspended hins he
    · exact hnone
    · exact hs h e hold hv

theorem NoneAside.insertCaps (entries : List (ResourceType × Nat × Rights)) (ht : NoneAside t) :
    NoneAside (t.insertCaps entries).2 := by
  induction entries generalizing t with
  | nil => exact ht
  | cons x xs ih =>
    obtain ⟨ty, id, r⟩ := x
    rw [CapTable.insertCaps]
    cases hins : t.insert ty id r with
    | error k => exact ih ht
    | ok res =>
      have hnew : NoneAside (State.issue ⟨t, []⟩ (.ok res)).table :=
        NoneAside.issue ht fun _ _ heq => ⟨ty, id, r, hins.trans heq⟩
      exact ih hnew

/-- A call that issues no handle. -/
theorem NoneAside.after (ht : NoneAside t) (hissued : (State.apply ⟨t, []⟩ op).issued = [])
    (haside : ∀ {h : Nat} {e e' : CapEntry}, after t op h e = some e' → e.suspended = .none →
      e'.suspended = .none) : NoneAside (State.apply ⟨t, []⟩ op).table := by
  intro h e' he' hv
  rw [getElem?_apply ⟨t, []⟩ op (by rw [hissued]; exact List.not_mem_nil), Option.bind_eq_some_iff] at he'
  obtain ⟨e, he, haft⟩ := he'
  exact haside haft (ht h e he (after_valid haft hv))

/-- Where an entry is changed by `f` or left alone. -/
theorem aside_none {f : CapEntry → Option CapEntry}
    (hf : ∀ e e', f e = some e' → e.suspended = .none → e'.suspended = .none)
    (heq : some ((f e).getD e) = some e') (hnone : e.suspended = .none) : e'.suspended = .none := by
  rw [← Option.some.inj heq]
  cases hfe : f e with
  | none => exact hnone
  | some e₁ => exact hf e e₁ hfe hnone

theorem NoneAside.apply (ht : NoneAside t) (hop : PutsNoneAside op) : NoneAside (State.apply ⟨t, []⟩ op).table := by
  have hsame : ∀ {e e' : CapEntry}, some e = some e' → e.suspended = .none → e'.suspended = .none :=
    fun heq hnone => Option.some.inj heq ▸ hnone
  cases op with
  -- calls that issue handles
  | insert ty id r => exact NoneAside.issue ht fun _ _ heq => ⟨ty, id, r, heq⟩
  | insertWithSuspended ty id r u =>
    obtain rfl : u = .none := hop
    exact NoneAside.issue ht fun _ _ heq => ⟨ty, id, r, heq⟩
  | duplicate source r =>
    refine NoneAside.issue ht fun k t' heq => ?_
    obtain ⟨e, -, -, hins⟩ := CapTable.duplicate_ok heq
    exact ⟨e.resourceType, e.resourceId, r, hins⟩
  | insertCaps entries => exact ht.insertCaps entries
  | suspend keep => exact hop.elim
  -- calls about one handle, or a list of them
  | revoke k =>
    refine ht.after rfl fun heq hnone => ?_
    rw [← Option.some.inj heq]
    split
    · exact hnone
    · exact hnone
  | remove k =>
    refine ht.after rfl fun {h e e'} heq hnone => ?_
    change (if k = h then none else some e) = some e' at heq
    split at heq
    · cases heq
    · exact hsame heq hnone
  | drainValid => exact ht.after rfl fun heq _ => (by cases heq)
  | removeCaps handles =>
    refine ht.after ?_ fun {h e e'} heq hnone => ?_
    · unfold State.apply
      dsimp only
      split <;> rfl
    · simp only [TableRuns.after] at heq
      split at heq
      · split at heq
        · cases heq
        · exact hsame heq hnone
      · exact hsame heq hnone
  -- sweeps over the table
  | revokeByResource ty id =>
    refine ht.after rfl (aside_none fun e e' heq hnone => ?_)
    unfold CapTable.revokeEntry at heq
    split at heq
    · exact Option.some.inj heq ▸ hnone
    · cases heq
  | narrowAll keep =>
    refine ht.after rfl (aside_none fun e e' heq hnone => ?_)
    unfold CapTable.narrowEntry at heq
    split at heq
    · cases heq
    dsimp only at heq
    split at heq
    · cases heq
    split at heq <;> exact Option.some.inj heq ▸ hnone
  | restore =>
    refine ht.after rfl (aside_none fun e e' heq _ => ?_)
    unfold CapTable.restoreEntry at heq
    split at heq
    · cases heq
    · exact Option.some.inj heq ▸ rfl
  | dropSuspended =>
    refine ht.after rfl (aside_none fun e e' heq _ => ?_)
    unfold CapTable.dropEntry at heq
    split at heq
    · cases heq
    · exact Option.some.inj heq ▸ rfl

/-- What a call does to the table does not depend on the handles issued before. -/
theorem apply_table (s : State) (op : Op) : (s.apply op).table = (State.apply ⟨s.table, []⟩ op).table := by
  have hissue : ∀ res, (s.issue res).table = (State.issue ⟨s.table, []⟩ res).table := by
    intro res
    cases res <;> rfl
  cases op with
  | insert ty id r => exact hissue _
  | insertWithSuspended ty id r u => exact hissue _
  | duplicate source r => exact hissue _
  | removeCaps handles =>
    unfold State.apply
    dsimp only
    split <;> rfl
  | _ => rfl

theorem noneAside_of_run (ht : NoneAside t) (hrun : From (fun _ op => PutsNoneAside op) t s) : NoneAside s.table := by
  refine hrun.invariant (I := fun s => NoneAside s.table) ?_ ?_
  · rintro _ rfl
    exact ht
  · intro s op s' hs hop hstep
    cases hstep
    rw [apply_table]
    exact hs.apply hop

/-- There is nothing to restore. -/
theorem NoneAside.restore (ht : NoneAside t) :
    t.restore.1 = 0 ∧ t.restore.2.nextHandle = t.nextHandle ∧ ∀ h : Nat, t.restore.2.entries[h]? = t.entries[h]? := by
  refine ⟨?_, rfl, fun h => ?_⟩
  · show (t.values.filter _).length = 0
    rw [List.length_eq_zero_iff, List.filter_eq_nil_iff]
    intro e hin hsome
    obtain ⟨h, he⟩ := CapTable.mem_values.mp hin
    unfold CapTable.restoreEntry at hsome
    cases hv : e.valid with
    | false => simp [hv] at hsome
    | true =>
      rw [Rights.isEmpty_iff.mpr (ht h e he hv)] at hsome
      simp at hsome
  · rw [getElem?_restore]
    cases he : t.entries[h]? with
    | none => rfl
    | some e =>
      rw [Option.map_some]
      split
      · rename_i hv
        rw [CapEntry.whole_of_none (ht h e he hv)]
      · rfl

/-! ## The law -/

/-- **What `suspend`, `restore` and `drop_suspended` promise of a table**, with any calls between them. -/
structure Reversible (t : CapTable) : Prop where
  /-- An entry still valid gets its whole back. -/
  restored : ∀ keep s, From (fun _ op => Lossless op) (t.suspend keep).2 s → ∀ (h : Nat) (e e' : CapEntry),
    t.entries[h]? = some e → h ∉ s.issued → s.table.restore.2.entries[h]? = some e' → e'.valid = true → e' = e.whole
  /-- An entry that no call removes, replaces or revokes is still there, and valid. -/
  spared : ∀ keep s, From (fun s op => Lossless op ∧ Spares s op) (t.suspend keep).2 s → ∀ (h : Nat) (e : CapEntry),
    t.entries[h]? = some e → e.valid = true → s.table.restore.2.entries[h]? = some e.whole
  /-- A revoked entry is not revived, by any call. -/
  revoked : ∀ s, From (fun _ _ => True) t s → ∀ (h : Nat) (e e' : CapEntry), t.entries[h]? = some e →
    e.valid = false → h ∉ s.issued → s.table.entries[h]? = some e' → e'.valid = false
  /-- An entry that `drop_suspended` leaves without rights is revoked. -/
  dropped : ∀ h : Nat, t.dropSuspended.2.entries[h]? = t.entries[h]?.map fun e =>
    if e.valid = true ∧ e.suspended ≠ .none then { e with suspended := .none, valid := !e.rights.isEmpty } else e
  /-- And nothing comes back, until rights are put aside again. -/
  forgotten : ∀ s, From (fun _ op => PutsNoneAside op) t.dropSuspended.2 s → s.table.restore.1 = 0 ∧
    s.table.restore.2.nextHandle = s.table.nextHandle ∧
    ∀ h : Nat, s.table.restore.2.entries[h]? = s.table.entries[h]?

/-- **Putting rights aside is reversible** on every table. -/
theorem suspension_reversible (t : CapTable) : Reversible t where
  restored := fun _ _ hrun _ _ _ he hnew he' hv => restored_whole (fun _ _ hop => hop) hrun hnew he he' hv
  spared := by
    intro keep s hrun h e he hv
    have he₁ : (t.suspend keep).2.entries[h]? = some ((CapTable.suspendEntry keep e).getD e) := by
      rw [getElem?_suspend, he, Option.map_some]
    obtain ⟨hnew, e₂, he₂, hv₂⟩ := spared_of_run (fun _ _ hop => hop.2) hrun he₁
    rw [suspendEntry_valid, hv] at hv₂
    have hrestored : s.table.restore.2.entries[h]? = some e₂.whole := by
      rw [getElem?_restore, he₂, Option.map_some, if_pos hv₂]
    rw [hrestored, restored_whole (fun _ _ hop => hop.1) hrun hnew he hrestored hv₂]
  revoked := by
    intro s hrun h e e' he hv hnew he'
    obtain ⟨e₀, he₀, hback⟩ := entry_of_run (R := fun e' e => e'.valid = true → e.valid = true) (fun _ => id)
      (fun hab hbc hv => hbc (hab hv)) (fun _ haft => after_valid haft) hrun hnew he'
    obtain rfl := Option.some.inj (he.symm.trans he₀)
    cases hv' : e'.valid with
    | false => rfl
    | true => exact (hback hv').symm.trans hv
  dropped := getElem?_dropSuspended t
  forgotten := fun _ hrun => (noneAside_of_run (noneAside_dropSuspended t) hrun).restore

/-! ## Where the rights are not those of before -/

/-- One entry, with the rights and what is put aside. -/
def single (rights suspended : Rights) : CapTable :=
  ⟨(∅ : Std.TreeMap Nat CapEntry).insert 1 ⟨.process, 7, rights, suspended, true⟩, 2⟩

theorem getElem?_single (rights suspended : Rights) (h : Nat) :
    (single rights suspended).entries[h]? = if 1 = h then some ⟨.process, 7, rights, suspended, true⟩ else none := by
  rw [single, CapTable.getElem?_insert]
  congr 1

/-- `narrow_all` to some right revokes nothing. -/
theorem spares_narrowAll {r : Rights} (hr : r.isEmpty = false) (s : State) : Spares s (.narrowAll fun _ => r) := by
  intro h e he hnew
  refine ⟨hnew, (CapTable.narrowEntry (fun _ => r) e).getD e, ?_, ?_⟩
  · rw [getElem?_apply s (.narrowAll fun _ => r) hnew, he]
    rfl
  · unfold CapTable.narrowEntry
    split
    · rfl
    dsimp only
    split
    · rfl
    · rw [hr]
      rfl

/-- **Rights put aside before come with those of the entry, and `narrow_all` between takes from it.** -/
theorem suspension_not_exact :
    (¬∀ (t : CapTable) (keep : CapEntry → Rights) (h : Nat) (e e' : CapEntry), t.entries[h]? = some e →
      (t.suspend keep).2.restore.2.entries[h]? = some e' → e'.valid = true → e'.rights = e.rights) ∧
    ¬∀ (t : CapTable) (keep : CapEntry → Rights) (s : State), NoneAside t → From Spares (t.suspend keep).2 s →
      ∀ (h : Nat) (e e' : CapEntry), t.entries[h]? = some e → h ∉ s.issued →
        s.table.restore.2.entries[h]? = some e' → e'.valid = true → e'.rights = e.rights := by
  constructor
  · intro hall
    have hread := hall (single .none .read) (fun e => e.rights) 1 ⟨.process, 7, .none, .read, true⟩
      ⟨.process, 7, .read, .none, true⟩ (getElem?_single ..) ?_ rfl
    · exact absurd hread (by decide)
    · rw [getElem?_restore, getElem?_suspend, getElem?_single]
      decide
  · intro hall
    have hread := hall (single (Rights.read.union .write) .none) (fun e => e.rights)
      ⟨(((single (Rights.read.union .write) .none).suspend fun e => e.rights).2.narrowAll fun _ => .read).2, []⟩
      ?_ (.next (.start rfl) (spares_narrowAll (by decide) _) rfl) 1
      ⟨.process, 7, Rights.read.union .write, .none, true⟩ ⟨.process, 7, .read, .none, true⟩ (getElem?_single ..)
      List.not_mem_nil ?_ rfl
    · exact absurd hread (by decide)
    · intro h e he _
      rw [getElem?_single] at he
      split at he
      · cases he
        rfl
      · cases he
    · rw [getElem?_restore]
      show ((CapTable.updateAll _ _).2.entries[1]?).map _ = _
      rw [CapTable.getElem?_updateAll, getElem?_suspend, getElem?_single]
      decide

end SlateOS.Cap.TableRuns
