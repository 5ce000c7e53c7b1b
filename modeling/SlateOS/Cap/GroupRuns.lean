/-
# SlateOS.Cap.GroupRuns -- what capability groups grant, over whole runs

The abstract side of the group table is a `Roles`: which groups exist, and for each of them the gids
that were made members and the grants it was given since it was created. It is driven by the calls
that succeed and knows nothing of slots. `Refines` says that the table shows exactly the roles. Each
call keeps it, except a `create` that takes a slot in which a removed group left its grants, or one
that gives out an id in use because the id counter has stopped at its maximum.
-/
import SlateOS.Cap.Groups
import SlateOS.Foundation.Runs
import SlateOS.Foundation.Stores

namespace SlateOS.Cap.GroupRuns

open Foundation.MachineInt Foundation.Runs Foundation.Stores Kernel Cap.Groups
open Cap.Groups.GroupTable (Builtin)
open Function (update update_self update_of_ne)

/-! ## Existing groups, by id -/

/-- What one existing group was given since its creation. -/
@[ext]
structure Role where
  name : String
  members : Set Nat
  grants : Set CapGrant

/-- The existing groups. -/
abbrev Roles := Nat → Option Role

/-- Change or remove one existing group. -/
def Roles.change (roles : Roles) (id : Nat) (f : Role → Option Role) : Roles :=
  update roles id ((roles id).bind f)

/-- One call on the group table. -/
inductive Op
  | create (name : String)
  | remove (groupId : Nat)
  | addCap (groupId : Nat) (grant : CapGrant)
  | addMember (groupId gid : Nat)
  | removeMember (groupId gid : Nat)

/-- What a call that succeeded on the group `id` means. -/
def Op.record (roles : Roles) (id : Nat) : Op → Roles
  | .create name => update roles id (some ⟨name, ∅, ∅⟩)
  | .remove _ => roles.change id fun _ => none
  | .addCap _ grant => roles.change id fun r => some { r with grants := insert grant r.grants }
  | .addMember _ gid => roles.change id fun r => some { r with members := insert gid r.members }
  | .removeMember _ gid => roles.change id fun r => some { r with members := r.members \ {gid} }

/-- The call on the table; success names the group it acted on. -/
def exec (t : GroupTable) : Op → KernelResult Nat × GroupTable
  | .create name => t.create name
  | .remove id => ((t.remove id).1.map fun _ => id, (t.remove id).2)
  | .addCap id grant => ((t.addCap id grant).1.map fun _ => id, (t.addCap id grant).2)
  | .addMember id gid => ((t.addMember id gid).1.map fun _ => id, (t.addMember id gid).2)
  | .removeMember id gid => ((t.removeMember id gid).1.map fun _ => id, (t.removeMember id gid).2)

/-- The table, and the groups that exist by what the calls reported. -/
structure State where
  table : GroupTable
  roles : Roles

/-- The state after a call. -/
def State.apply (s : State) (op : Op) : State where
  table := (exec s.table op).2
  roles :=
    match (exec s.table op).1 with
    | .ok id => op.record s.roles id
    | .error _ => s.roles

/-- Every call is enabled in every state. -/
def step (s : State) (op : Op) : Option State := some (s.apply op)

/-- The installation of one built-in group. -/
def State.install (s : State) (b : Builtin) : State where
  table := (s.table.installBuiltin b).2
  roles :=
    match (s.table.installBuiltin b).1 with
    | .ok _ => update s.roles b.id (some ⟨b.name, {b.memberGid}, {c | c ∈ b.grants}⟩)
    | .error _ => s.roles

/-- The state after `init`. -/
def State.init : State := GroupTable.builtins.foldl State.install ⟨.empty, fun _ => none⟩

/-! ## The table shows the roles -/

/-- The role an active group plays. -/
def roleOf (g : CapGroup) : Role := ⟨g.name, {m | m ∈ g.members}, {c | some c ∈ g.caps}⟩

/-- The role a slot stands for: none when it is not active. -/
def standing (g : CapGroup) : Option Role := if g.active then some (roleOf g) else none

theorem standing_eq {g : CapGroup} {r : Role} (h : g.active = true) (hr : roleOf g = r) :
    standing g = some r :=
  (if_pos h).trans (congrArg some hr)

/-- The member array is used as a set: a prefix of it, without repetition. -/
structure MembersOk (g : CapGroup) : Prop where
  bound : g.memberCount ≤ maxMembersPerGroup
  nodup : g.members.Nodup

/-- The active groups of the table are exactly the existing groups, under distinct ids and names. -/
structure Refines (t : GroupTable) (roles : Roles) : Prop where
  role : ∀ i : Fin maxGroups, (t.group i).active = true →
    roles (t.group i).id = some (roleOf (t.group i))
  slot : ∀ id r, roles id = some r →
    ∃ i : Fin maxGroups, (t.group i).active = true ∧ (t.group i).id = id
  ids : ∀ i j : Fin maxGroups, (t.group i).active = true → (t.group j).active = true →
    (t.group i).id = (t.group j).id → i = j
  names : ∀ i j : Fin maxGroups, (t.group i).active = true → (t.group j).active = true →
    (t.group i).name = (t.group j).name → i = j
  members : ∀ i : Fin maxGroups, (t.group i).active = true → MembersOk (t.group i)

theorem getElem_set {v : Vector CapGroup maxGroups} (i j : Fin maxGroups) (g : CapGroup) :
    getElem (v.set i g i.isLt) j j.isLt = if i = j then g else getElem v j j.isLt := by
  show (v.set i.val g)[j.val] = _
  rw [Vector.getElem_set]
  simp only [Fin.ext_iff]
  rfl

variable {t : GroupTable} {roles : Roles}

/-- Writing a slot keeps the refinement when the group there before, if any, is replaced in the
roles and no other active group has the new one's id or name. -/
theorem Refines.write (h : Refines t roles) {i : Fin maxGroups}
    {g : CapGroup} {r : Option Role} (next : Nat) (hr : standing g = r)
    (hown : (t.group i).active = true → g.id = (t.group i).id)
    (hid : ∀ j, j ≠ i → (t.group j).active = true → (t.group j).id ≠ g.id)
    (hname : ∀ j, j ≠ i → (t.group j).active = true → (t.group j).name ≠ g.name)
    (hmem : MembersOk g) :
    Refines ⟨t.groups.set i g i.isLt, next⟩ (update roles g.id r) where
  role := by
    subst hr
    intro j
    show (t.groups.set i g)[j].active = true →
      update roles g.id _ (t.groups.set i g)[j].id = some (roleOf (t.groups.set i g)[j])
    rw [getElem_set]
    split
    · intro hact
      rw [update_self, standing_eq hact rfl]
    · next hne =>
        intro hact
        rw [update_of_ne (hid j (Ne.symm hne) hact)]
        exact h.role j hact
  slot := by
    subst hr
    intro id r hr
    show ∃ j : Fin maxGroups, (t.groups.set i g)[j].active = true ∧ (t.groups.set i g)[j].id = id
    rcases eq_or_ne id g.id with rfl | hne
    · rw [update_self, standing] at hr
      split at hr
      · next hact => exact ⟨i, by rw [getElem_set, if_pos rfl]; exact ⟨hact, rfl⟩⟩
      · cases hr
    · rw [update_of_ne hne] at hr
      rcases h.slot id r hr with ⟨j, hact, hjid⟩
      have hij : i ≠ j := by
        rintro rfl
        exact hne (hjid.symm.trans (hown hact).symm)
      exact ⟨j, by rw [getElem_set, if_neg hij]; exact ⟨hact, hjid⟩⟩
  ids := by
    intro j k
    show (t.groups.set i g)[j].active = true → (t.groups.set i g)[k].active = true →
      (t.groups.set i g)[j].id = (t.groups.set i g)[k].id → j = k
    rw [getElem_set, getElem_set]
    split <;> split
    · next hj hk => exact fun _ _ _ => hj.symm.trans hk
    · next hj hk => exact fun _ hact heq => absurd heq.symm (hid k (Ne.symm hk) hact)
    · next hj hk => exact fun hact _ heq => absurd heq (hid j (Ne.symm hj) hact)
    · exact h.ids j k
  names := by
    intro j k
    show (t.groups.set i g)[j].active = true → (t.groups.set i g)[k].active = true →
      (t.groups.set i g)[j].name = (t.groups.set i g)[k].name → j = k
    rw [getElem_set, getElem_set]
    split <;> split
    · next hj hk => exact fun _ _ _ => hj.symm.trans hk
    · next hj hk => exact fun _ hact heq => absurd heq.symm (hname k (Ne.symm hk) hact)
    · next hj hk => exact fun hact _ heq => absurd heq (hname j (Ne.symm hj) hact)
    · exact h.names j k
  members := by
    intro j
    show (t.groups.set i g)[j].active = true → MembersOk (t.groups.set i g)[j]
    rw [getElem_set]
    split
    · exact fun _ => hmem
    · exact h.members j

/-! ## What each function does to one group -/

/-- `f` refuses and leaves the group, or it does `upd` to the group's role. -/
def Enacts (f : CapGroup → KernelResult Unit × CapGroup) (upd : Role → Option Role) : Prop :=
  ∀ g, MembersOk g → g.active = true →
    ((∃ e, (f g).1 = .error e) ∧ (f g).2 = g) ∨
    ((f g).1 = .ok () ∧ (f g).2.id = g.id ∧ (f g).2.name = g.name ∧ MembersOk (f g).2 ∧
      standing (f g).2 = upd (roleOf g))

theorem retire_enacts : Enacts CapGroup.retire fun _ => none := by
  intro g hg hact
  unfold CapGroup.retire
  split
  · exact .inl ⟨⟨_, rfl⟩, rfl⟩
  · exact .inr ⟨rfl, rfl, rfl, ⟨hg.bound, hg.nodup⟩, rfl⟩

/-- The new grant stands in a slot that held none. -/
theorem mem_caps_set {v : Vector (Option CapGrant) maxCapsPerGroup} {i : Fin maxCapsPerGroup}
    (hi : getElem v i i.isLt = none) (grant c : CapGrant) :
    some c ∈ v.set i (some grant) i.isLt ↔ c = grant ∨ some c ∈ v := by
  rw [Vector.mem_iff_getElem, Vector.mem_iff_getElem]
  constructor
  · rintro ⟨j, hj, heq⟩
    rw [Vector.getElem_set] at heq
    split at heq
    · exact .inl (Option.some.inj heq).symm
    · exact .inr ⟨j, hj, heq⟩
  · rintro (rfl | ⟨j, hj, heq⟩)
    · exact ⟨i, i.isLt, Vector.getElem_set_self _⟩
    · refine ⟨j, hj, ?_⟩
      rw [Vector.getElem_set, if_neg]
      · exact heq
      · rintro rfl
        change v[i.val] = none at hi
        rw [hi] at heq
        cases heq

theorem addGrant_enacts (grant : CapGrant) :
    Enacts (CapGroup.addGrant grant) fun r => some { r with grants := insert grant r.grants } := by
  intro g hg hact
  unfold CapGroup.addGrant
  split
  · exact .inl ⟨⟨_, rfl⟩, rfl⟩
  split
  · next i hfind =>
      have hnone : g.caps[i] = none := by
        have := (Fin.find?_eq_some_iff.mp hfind).1
        rwa [Option.isNone_iff_eq_none] at this
      refine .inr ⟨rfl, rfl, rfl, ⟨hg.bound, hg.nodup⟩, ?_⟩
      refine standing_eq (by exact hact) ?_
      ext c
      · rfl
      · rfl
      · exact mem_caps_set hnone grant c
  · exact .inl ⟨⟨_, rfl⟩, rfl⟩

theorem addGid_enacts (gid : Nat) :
    Enacts (CapGroup.addGid gid) fun r => some { r with members := insert gid r.members } := by
  intro g hg hact
  unfold CapGroup.addGid
  split
  · next hin =>
      refine .inr ⟨rfl, rfl, rfl, hg, ?_⟩
      refine standing_eq (by exact hact) ?_
      ext m
      · rfl
      · show m ∈ g.members ↔ m = gid ∨ m ∈ g.members
        constructor
        · exact .inr
        · rintro (rfl | hm)
          · exact List.contains_iff_mem.mp hin
          · exact hm
      · rfl
  split
  · exact .inl ⟨⟨_, rfl⟩, rfl⟩
  next hout hfull =>
  have hlt : g.memberCount < maxMembersPerGroup := Nat.lt_of_not_le hfull
  have hcount : saturatingAdd 64 g.memberCount 1 = g.memberCount + 1 := by
    apply saturatingAdd_of_lt
    have : maxMembersPerGroup < 2 ^ 64 := by decide
    omega
  have hmembers : ((g.memberGids.set g.memberCount gid hlt).toList.take (g.memberCount + 1)) =
      g.members ++ [gid] := by
    rw [Vector.toList_set]
    apply take_set_succ
    rw [Vector.length_toList]
    exact hlt
  refine .inr ⟨rfl, rfl, rfl, ⟨?_, ?_⟩, ?_⟩
  · show saturatingAdd 64 g.memberCount 1 ≤ maxMembersPerGroup
    rw [hcount]
    exact hlt
  · show (List.take (saturatingAdd 64 g.memberCount 1) _).Nodup
    rw [hcount, hmembers, (List.perm_append_singleton gid g.members).nodup_iff, List.nodup_cons]
    rw [List.contains_iff_mem] at hout
    exact ⟨hout, hg.nodup⟩
  · refine standing_eq (by exact hact) ?_
    ext m
    · rfl
    · show m ∈ List.take (saturatingAdd 64 g.memberCount 1) _ ↔ m = gid ∨ m ∈ g.members
      rw [hcount, hmembers, List.mem_append, List.mem_singleton, or_comm]
    · rfl

theorem removeGid_enacts (gid : Nat) :
    Enacts (CapGroup.removeGid gid) fun r => some { r with members := r.members \ {gid} } := by
  intro g hg hact
  unfold CapGroup.removeGid
  split
  · next i hfind =>
      have hi := (Fin.find?_eq_some_iff.mp hfind).1
      rw [Bool.and_eq_true, decide_eq_true_eq, beq_iff_eq] at hi
      have hlast : g.memberCount - 1 < maxMembersPerGroup := by
        have := hg.bound
        have := hi.1
        omega
      have hx : g.memberGids.toList[i.val]? = some gid := by
        rw [Vector.getElem?_toList, Vector.getElem?_eq_getElem i.isLt]
        exact congrArg some hi.2
      have hy : g.memberGids.toList[g.memberCount - 1]? =
          some (g.memberGids.getD (g.memberCount - 1) 0) := by
        rw [Vector.getElem?_toList, Vector.getElem?_eq_getElem hlast]
        simp [Vector.getD, hlast]
      have hperm := swapRemove_perm hi.1 hx hy
      rw [← Vector.toList_set i.isLt] at hperm
      have hnodup := hperm.nodup_iff.mp hg.nodup
      rw [List.nodup_cons] at hnodup
      refine .inr ⟨rfl, rfl, rfl, ⟨Nat.le_of_lt hlast, hnodup.2⟩, ?_⟩
      refine standing_eq (by exact hact) ?_
      ext m
      · rfl
      · show m ∈ List.take (g.memberCount - 1) _ ↔ m ∈ g.members ∧ m ≠ gid
        have hmem : m ∈ g.members ↔ m = gid ∨ _ := hperm.mem_iff.trans List.mem_cons
        rw [hmem]
        constructor
        · intro hin
          refine ⟨.inr hin, ?_⟩
          rintro rfl
          exact hnodup.1 hin
        · rintro ⟨rfl | hin, hne⟩
          · exact absurd rfl hne
          · exact hin
      · rfl
  · next hfind =>
      refine .inr ⟨rfl, rfl, rfl, hg, ?_⟩
      refine standing_eq (by exact hact) ?_
      ext m
      · rfl
      · show m ∈ g.members ↔ m ∈ g.members ∧ m ≠ gid
        refine ⟨fun hin => ⟨hin, ?_⟩, And.left⟩
        rintro rfl
        rcases List.mem_iff_getElem.mp hin with ⟨j, hj, heq⟩
        have hlen : j < g.memberCount ∧ j < maxMembersPerGroup := by
          rw [CapGroup.members, List.length_take, Vector.length_toList] at hj
          omega
        have hno := Fin.find?_eq_none_iff.mp hfind ⟨j, hlen.2⟩
        rw [Bool.and_eq_false_iff] at hno
        rcases hno with hno | hno
        · simp [hlen.1] at hno
        · have hget : g.memberGids[j] = m := by
            rw [← heq]
            simp [CapGroup.members]
          simp [hget] at hno
      · rfl

/-! ## One call -/

/-- The slot a `create` of the name would take; there is none when the call is refused. -/
structure Creates (t : GroupTable) (name : String) (i : Fin maxGroups) : Prop where
  nonempty : name.isEmpty = false
  short : name.utf8ByteSize ≤ maxNameLen
  free : t.nameTaken name = false
  slot : t.freeSlot = some i

/-- A `create` takes a slot without leftover grants and gives out an id that is not in use. -/
def CleanSlot (t : GroupTable) (op : Op) : Prop :=
  ∀ name i, op = .create name → Creates t name i →
    (∀ c ∈ (t.group i).caps, c = none) ∧
      ∀ j : Fin maxGroups, (t.group j).active = true → (t.group j).id ≠ t.nextId

theorem nameTaken_eq_false {name : String} (h : t.nameTaken name = false)
    (j : Fin maxGroups) (hact : (t.group j).active = true) : (t.group j).name ≠ name := by
  rintro rfl
  have htrue : t.nameTaken t.groups[j].name = true := by
    unfold GroupTable.nameTaken
    rw [Vector.any_eq_true]
    refine ⟨j, j.isLt, ?_⟩
    show (t.groups[j].active && t.groups[j].name == t.groups[j].name) = true
    rw [hact, beq_self_eq_true, Bool.and_self]
  rw [h] at htrue
  cases htrue

theorem freeSlot_inactive {i : Fin maxGroups} (h : t.freeSlot = some i) :
    (t.group i).active = false := by
  have := (Fin.find?_eq_some_iff.mp h).1
  rwa [Bool.not_eq_true'] at this

/-- A `create` is refused without effect, or fills the slot it takes. -/
theorem create_cases (t : GroupTable) (name : String) :
    (∃ e, t.create name = (.error e, t)) ∨
    ∃ i, Creates t name i ∧ t.create name = (.ok t.nextId,
      ⟨t.groups.set i { t.group i with
          active := true, builtin := false, id := t.nextId, name, capCount := 0, memberCount := 0 } i.isLt,
        saturatingAdd 32 t.nextId 1⟩) := by
  unfold GroupTable.create
  split
  · exact .inl ⟨_, rfl⟩
  next hname =>
  split
  · exact .inl ⟨_, rfl⟩
  next hfree =>
  split
  · exact .inl ⟨_, rfl⟩
  · next i hslot =>
      rw [Bool.or_eq_true, decide_eq_true_eq, not_or] at hname
      refine .inr ⟨i, ⟨?_, Nat.le_of_not_lt hname.2, ?_, hslot⟩, rfl⟩
      · exact Bool.eq_false_iff.mpr hname.1
      · exact Bool.eq_false_iff.mpr hfree

/-- A slot filled anew starts a role of its own when it holds no leftover grant. -/
theorem Refines.create (h : Refines t roles) {name : String}
    {i : Fin maxGroups} (hc : Creates t name i) (hcaps : ∀ c ∈ (t.group i).caps, c = none)
    (hid : ∀ j : Fin maxGroups, (t.group j).active = true → (t.group j).id ≠ t.nextId)
    (next : Nat) :
    Refines ⟨t.groups.set i { t.group i with
        active := true, builtin := false, id := t.nextId, name, capCount := 0, memberCount := 0 } i.isLt,
      next⟩ (update roles t.nextId (some ⟨name, ∅, ∅⟩)) := by
  refine h.write next (standing_eq rfl ?_) ?_ ?_ ?_ ?_
  · ext m
    · rfl
    · show m ∈ List.take 0 _ ↔ False
      simp
    · show some m ∈ t.groups[i].caps ↔ False
      refine ⟨fun hm => ?_, False.elim⟩
      cases hcaps _ hm
  · intro hact
    rw [freeSlot_inactive hc.slot] at hact
    cases hact
  · exact fun j _ => hid j
  · exact fun j _ => nameTaken_eq_false hc.free j
  · exact ⟨Nat.zero_le _, List.nodup_nil⟩

/-- A function that finds a group by its id refuses without effect, or changes that group's role. -/
theorem Refines.onGroup (h : Refines t roles) (id : Nat)
    {f : CapGroup → KernelResult Unit × CapGroup} {upd : Role → Option Role} (hf : Enacts f upd) :
    ((∃ e, (t.onGroup id f).1 = .error e) ∧ (t.onGroup id f).2 = t) ∨
    ((t.onGroup id f).1 = .ok () ∧ Refines (t.onGroup id f).2 (roles.change id upd)) := by
  unfold GroupTable.onGroup
  cases hslot : t.slotOf id with
  | none => exact .inl ⟨⟨_, rfl⟩, rfl⟩
  | some i =>
    have hfound := (Fin.find?_eq_some_iff.mp hslot).1
    rw [Bool.and_eq_true, beq_iff_eq] at hfound
    rcases hfound with ⟨hact, rfl⟩
    rcases hf t.groups[i] (h.members i hact) hact with
      ⟨herr, hsame⟩ | ⟨hok, hid, hname, hmem, hrole⟩
    · refine .inl ⟨herr, ?_⟩
      show GroupTable.mk (t.groups.set i (f t.groups[i]).2) t.nextId = t
      rw [hsame]
      congr 1
      exact Vector.set_getElem_self i.isLt
    · refine .inr ⟨hok, ?_⟩
      rw [Roles.change, h.role i hact, Option.bind_some, ← hid]
      apply h.write _ hrole
      · exact fun _ => hid
      · intro j hne hj heq
        exact hne (h.ids j i hj hact (heq.trans hid))
      · intro j hne hj heq
        exact hne (h.names j i hj hact (heq.trans hname))
      · exact hmem

variable {s : State}

/-- A call refuses without effect, or succeeds and keeps the refinement. -/
theorem step_cases (h : Refines s.table s.roles) {op : Op}
    (hop : CleanSlot s.table op) :
    ((∃ e, (exec s.table op).1 = .error e) ∧ s.apply op = s) ∨
    ((∃ id, (exec s.table op).1 = .ok id) ∧ Refines (s.apply op).table (s.apply op).roles) := by
  -- The four functions on an existing group differ in the function and in what it means.
  have hgroup : ∀ {id : Nat} {f : CapGroup → KernelResult Unit × CapGroup}
      {upd : Role → Option Role}, Enacts f upd →
      exec s.table op = ((s.table.onGroup id f).1.map fun _ => id, (s.table.onGroup id f).2) →
      op.record s.roles id = s.roles.change id upd →
      ((∃ e, (exec s.table op).1 = .error e) ∧ s.apply op = s) ∨
      ((∃ id, (exec s.table op).1 = .ok id) ∧ Refines (s.apply op).table (s.apply op).roles) := by
    intro id f upd hf hexec hrec
    unfold State.apply
    rw [hexec]
    rcases h.onGroup id hf with ⟨⟨e, herr⟩, hsame⟩ | ⟨hok, href⟩
    · left
      rw [herr, hsame]
      exact ⟨⟨e, rfl⟩, rfl⟩
    · right
      rw [hok]
      refine ⟨⟨id, rfl⟩, ?_⟩
      show Refines _ (op.record s.roles id)
      rw [hrec]
      exact href
  cases op with
  | create name =>
    unfold State.apply
    rcases create_cases s.table name with ⟨e, herr⟩ | ⟨i, hc, hok⟩
    · left
      have hexec : exec s.table (.create name) = _ := herr
      rw [hexec]
      exact ⟨⟨e, rfl⟩, rfl⟩
    · right
      rcases hop name i rfl hc with ⟨hcaps, hid⟩
      have hexec : exec s.table (.create name) = _ := hok
      rw [hexec]
      exact ⟨⟨_, rfl⟩, h.create hc hcaps hid _⟩
  | remove id => exact hgroup retire_enacts rfl rfl
  | addCap id grant => exact hgroup (addGrant_enacts grant) rfl rfl
  | addMember id gid => exact hgroup (addGid_enacts gid) rfl rfl
  | removeMember id gid => exact hgroup (removeGid_enacts gid) rfl rfl

/-! ## After `init` -/

/-- No slot outside the active groups holds a grant. -/
def Pristine (t : GroupTable) : Prop :=
  ∀ i : Fin maxGroups, (t.group i).active = false → ∀ c ∈ (t.group i).caps, c = none

/-- The grants of a built-in group are the first of its slot, and the rest of the slot is empty. -/
theorem mem_builtin_caps {grants : List CapGrant} (hlen : grants.length ≤ maxCapsPerGroup)
    {caps : Vector (Option CapGrant) maxCapsPerGroup} (hcaps : ∀ c ∈ caps, c = none) (c : CapGrant) :
    some c ∈ Vector.ofFn (fun j : Fin maxCapsPerGroup =>
        if h : j.val < grants.length then some grants[j.val] else caps[j]) ↔ c ∈ grants := by
  rw [Vector.mem_ofFn]
  constructor
  · rintro ⟨j, hj⟩
    split at hj
    · rw [← Option.some.inj hj]
      exact List.getElem_mem _
    · rw [hcaps caps[j] (Vector.getElem_mem j.isLt)] at hj
      cases hj
  · intro hc
    rcases List.mem_iff_getElem.mp hc with ⟨j, hj, rfl⟩
    exact ⟨⟨j, Nat.lt_of_lt_of_le hj hlen⟩, dif_pos hj⟩

/-- A built-in group has one member. -/
theorem take_one_members (gids : Vector Nat maxMembersPerGroup) (gid : Nat) :
    (gids.set 0 gid (by decide)).toList.take 1 = [gid] := by
  rw [Vector.toList_set]
  exact take_set_succ (c := 0) (by rw [Vector.length_toList]; decide) gid

/-- What holds between two installations; `rest` are the groups still to be installed. -/
structure Installing (s : State) (rest : List Builtin) : Prop where
  refines : Refines s.table s.roles
  pristine : Pristine s.table
  fresh : ∀ b ∈ rest, ∀ i : Fin maxGroups, (s.table.group i).active = true →
    (s.table.group i).id ≠ b.id ∧ (s.table.group i).name ≠ b.name

theorem Installing.install {b : Builtin} {rest : List Builtin}
    (h : Installing s (b :: rest)) (hne : ∀ b' ∈ rest, b.id ≠ b'.id ∧ b.name ≠ b'.name) :
    Installing (s.install b) rest := by
  have hskip : Installing s rest :=
    ⟨h.refines, h.pristine, fun b' hb' => h.fresh b' (List.mem_cons_of_mem b hb')⟩
  have hfresh := h.fresh b List.mem_cons_self
  unfold State.install GroupTable.installBuiltin
  split
  · exact hskip
  next hlen =>
  split
  · exact hskip
  split
  · exact hskip
  next i hslot =>
  have hinact := freeSlot_inactive hslot
  refine ⟨?_, ?_, ?_⟩
  · show Refines ⟨s.table.groups.set i _, s.table.nextId⟩ (update s.roles b.id (some _))
    refine h.refines.write s.table.nextId (standing_eq rfl ?_) ?_ ?_ ?_ ?_
    · ext m
      · rfl
      · show m ∈ List.take 1 _ ↔ m = b.memberGid
        rw [take_one_members, List.mem_singleton]
      · exact mem_builtin_caps (Nat.le_of_not_lt hlen) (h.pristine i hinact) m
    · intro hact
      rw [hinact] at hact
      cases hact
    · exact fun j _ hj => (hfresh j hj).1
    · exact fun j _ hj => (hfresh j hj).2
    · refine ⟨Nat.le_of_ble_eq_true rfl, ?_⟩
      show (List.take 1 _).Nodup
      rw [take_one_members]
      exact List.nodup_cons.mpr ⟨List.not_mem_nil, List.nodup_nil⟩
  · intro j
    show (s.table.groups.set i _)[j].active = false → ∀ c ∈ (s.table.groups.set i _)[j].caps, c = none
    rw [getElem_set]
    split
    · intro hact
      cases hact
    · exact h.pristine j
  · intro b' hb' j
    show (s.table.groups.set i _)[j].active = true →
      (s.table.groups.set i _)[j].id ≠ b'.id ∧ (s.table.groups.set i _)[j].name ≠ b'.name
    rw [getElem_set]
    split
    · exact fun _ => hne b' hb'
    · exact h.fresh b' (List.mem_cons_of_mem b hb') j

theorem Installing.installAll {bs : List Builtin} (h : Installing s bs)
    (hids : (bs.map Builtin.id).Nodup) (hnames : (bs.map Builtin.name).Nodup) :
    Installing (bs.foldl State.install s) [] := by
  induction bs generalizing s with
  | nil => exact h
  | cons b bs ih =>
    rw [List.map_cons, List.nodup_cons] at hids hnames
    apply ih (h.install _) hids.2 hnames.2
    intro b' hb'
    constructor
    · intro heq
      exact hids.1 (heq ▸ List.mem_map_of_mem hb')
    · intro heq
      exact hnames.1 (heq ▸ List.mem_map_of_mem hb')

/-- After `init` the table shows the built-in groups, and the other slots are empty. -/
theorem init_installed : Installing State.init [] := by
  have hempty : ∀ i : Fin maxGroups, GroupTable.empty.group i = CapGroup.empty :=
    fun i => Vector.getElem_replicate i.isLt
  have hnot : ∀ i : Fin maxGroups, (GroupTable.empty.group i).active ≠ true := by
    intro i hact
    rw [hempty i] at hact
    cases hact
  apply Installing.installAll _ (by decide) (by decide)
  refine ⟨⟨?_, ?_, ?_, ?_, ?_⟩, ?_, ?_⟩
  · exact fun i hact => absurd hact (hnot i)
  · exact fun id r hr => by cases hr
  · exact fun i j hact => absurd hact (hnot i)
  · exact fun i j hact => absurd hact (hnot i)
  · exact fun i hact => absurd hact (hnot i)
  · intro i _ c hc
    change c ∈ (GroupTable.empty.group i).caps at hc
    rw [hempty i] at hc
    exact Vector.eq_of_mem_replicate hc
  · exact fun b _ i hact => absurd hact (hnot i)

/-! ## Whole runs -/

/-- What holds of every state of a run: access is granted through an existing group that has one of
the gids as a member and was given a sufficient grant, ids and names tell existing groups apart, and
a refused call changes nothing. -/
structure GrantsExactly (s : State) : Prop where
  access : ∀ uid primaryGid supplementaryGids resourceType required, uid ≠ 0 →
    (s.table.checkAccess uid primaryGid supplementaryGids resourceType required = true ↔
      ∃ id r, s.roles id = some r ∧
        (∃ gid ∈ r.members, gid = primaryGid ∨ gid ∈ supplementaryGids) ∧
        ∃ c ∈ r.grants, c.resourceType = resourceType ∧ c.rights.contains required = true)
  existing : ∀ id name, (∃ r, s.roles id = some r ∧ r.name = name) ↔
    ∃ i : Fin maxGroups, (s.table.group i).active = true ∧ (s.table.group i).id = id ∧
      (s.table.group i).name = name
  ids : ∀ i j : Fin maxGroups, (s.table.group i).active = true → (s.table.group j).active = true →
    (s.table.group i).id = (s.table.group j).id → i = j
  names : ∀ i j : Fin maxGroups, (s.table.group i).active = true → (s.table.group j).active = true →
    (s.table.group i).name = (s.table.group j).name → i = j
  refused : ∀ op e, (exec s.table op).1 = .error e → s.apply op = s

/-- `check_access` reads the active groups. -/
theorem checkAccess_iff {uid primaryGid : Nat} {supplementaryGids : List Nat}
    {resourceType : ResourceType} {required : Rights} (huid : uid ≠ 0) :
    t.checkAccess uid primaryGid supplementaryGids resourceType required = true ↔
      ∃ i : Fin maxGroups, (t.group i).active = true ∧
        (∃ gid ∈ (roleOf (t.group i)).members, gid = primaryGid ∨ gid ∈ supplementaryGids) ∧
        ∃ c ∈ (roleOf (t.group i)).grants,
          c.resourceType = resourceType ∧ c.rights.contains required = true := by
  have hcaps : ∀ g : CapGroup, (g.caps.any fun cap => cap.any fun cap =>
      cap.resourceType == resourceType && cap.rights.contains required) = true ↔
      ∃ c ∈ (roleOf g).grants,
        c.resourceType = resourceType ∧ c.rights.contains required = true := by
    intro g
    rw [Vector.any_eq_true']
    constructor
    · rintro ⟨c, hc, hany⟩
      rw [Option.any_eq_true] at hany
      rcases hany with ⟨c, rfl, hmatch⟩
      rw [Bool.and_eq_true, beq_iff_eq] at hmatch
      exact ⟨c, hc, hmatch⟩
    · rintro ⟨c, hc, hty, hrights⟩
      refine ⟨some c, hc, ?_⟩
      rw [Option.any_some, Bool.and_eq_true, beq_iff_eq]
      exact ⟨hty, hrights⟩
  have hmembers : ∀ g : CapGroup, (g.members.any fun gid =>
      gid == primaryGid || supplementaryGids.contains gid) = true ↔
      ∃ gid ∈ (roleOf g).members, gid = primaryGid ∨ gid ∈ supplementaryGids := by
    intro g
    rw [List.any_eq_true]
    simp only [Bool.or_eq_true, beq_iff_eq, List.contains_iff_mem]
    rfl
  unfold GroupTable.checkAccess
  rw [Bool.or_eq_true, beq_iff_eq, or_iff_right huid, Vector.any_eq_true]
  simp only [Bool.and_eq_true, hcaps, hmembers, and_assoc]
  exact ⟨fun ⟨i, hi, h⟩ => ⟨⟨i, hi⟩, h⟩, fun ⟨i, h⟩ => ⟨i, i.isLt, h⟩⟩

theorem Refines.access (h : Refines t roles) {uid primaryGid : Nat}
    {supplementaryGids : List Nat} {resourceType : ResourceType} {required : Rights}
    (huid : uid ≠ 0) :
    t.checkAccess uid primaryGid supplementaryGids resourceType required = true ↔
      ∃ id r, roles id = some r ∧
        (∃ gid ∈ r.members, gid = primaryGid ∨ gid ∈ supplementaryGids) ∧
        ∃ c ∈ r.grants, c.resourceType = resourceType ∧ c.rights.contains required = true := by
  rw [checkAccess_iff huid]
  constructor
  · rintro ⟨i, hact, hmem, hcap⟩
    exact ⟨t.groups[i].id, roleOf t.groups[i], h.role i hact, hmem, hcap⟩
  · rintro ⟨id, r, hr, hmem, hcap⟩
    rcases h.slot id r hr with ⟨i, hact, rfl⟩
    rw [h.role i hact] at hr
    cases hr
    exact ⟨i, hact, hmem, hcap⟩

/-- A refused call changes nothing, whatever slot a `create` would take. -/
theorem Refines.refused (h : Refines s.table s.roles) {op : Op} {e : KernelError}
    (herr : (exec s.table op).1 = .error e) : s.apply op = s := by
  -- `step_cases` covers every call but a `create` that succeeds in a slot with leftover grants.
  have hother : (∀ name, op ≠ .create name) → s.apply op = s := by
    intro hne
    rcases step_cases h (fun name i heq => absurd heq (hne name)) with ⟨-, hsame⟩ | ⟨⟨id, hok⟩, -⟩
    · exact hsame
    · rw [herr] at hok
      cases hok
  cases op with
  | create name =>
    rcases create_cases s.table name with ⟨e', hres⟩ | ⟨i, -, hres⟩
    · have hexec : exec s.table (.create name) = _ := hres
      unfold State.apply
      rw [hexec]
    · have hexec : exec s.table (.create name) = _ := hres
      rw [hexec] at herr
      cases herr
  | remove id => exact hother fun _ heq => (by cases heq)
  | addCap id grant => exact hother fun _ heq => (by cases heq)
  | addMember id gid => exact hother fun _ heq => (by cases heq)
  | removeMember id gid => exact hother fun _ heq => (by cases heq)

theorem Refines.grantsExactly (h : Refines s.table s.roles) : GrantsExactly s where
  access := fun _ _ _ _ _ huid => h.access huid
  existing := by
    intro id name
    constructor
    · rintro ⟨r, hr, rfl⟩
      rcases h.slot id r hr with ⟨i, hact, rfl⟩
      rw [h.role i hact] at hr
      cases hr
      exact ⟨i, hact, rfl, rfl⟩
    · rintro ⟨i, hact, rfl, rfl⟩
      exact ⟨roleOf s.table.groups[i], h.role i hact, rfl⟩
  ids := h.ids
  names := h.names
  refused := fun _ _ herr => h.refused herr

theorem reach_refines
    (h : ReachBy step (fun s op => CleanSlot s.table op) (fun x => x = .init) s) :
    Refines s.table s.roles :=
  h.invariant (I := fun s => Refines s.table s.roles)
    (fun _ heq => heq ▸ init_installed.refines)
    (by
      intro s op s' hs hop hst
      cases hst
      rcases step_cases hs hop with ⟨-, hsame⟩ | ⟨-, href⟩
      · exact hsame.symm ▸ hs
      · exact href)

/-- **Groups grant exactly what was given** in every run whose creations take slots without leftover
grants and give out unused ids. -/
theorem groups_grant_exactly {s : State}
    (h : ReachBy step (fun s op => CleanSlot s.table op) (fun x => x = .init) s) :
    GrantsExactly s :=
  (reach_refines h).grantsExactly

/-- The first creation after `init` takes an empty slot. -/
theorem init_cleanSlot (name : String) : CleanSlot State.init.table (.create name) := by
  intro name' i _ hc
  refine ⟨init_installed.pristine i (freeSlot_inactive hc.slot), ?_⟩
  decide +kernel

theorem groups_grant_exactly_member :
    GrantsExactly ((State.init.apply (.create "ops")).apply (.addMember 100 7)) :=
  groups_grant_exactly (.next (.next (.start rfl) (init_cleanSlot "ops") rfl)
    (fun _ _ heq => (by cases heq)) rfl)

theorem apply_roles {op : Op} {id : Nat}
    (h : (exec s.table op).1.toOption = some id) : (s.apply op).roles = op.record s.roles id := by
  unfold State.apply
  cases hres : (exec s.table op).1 with
  | error e =>
    rw [hres] at h
    cases h
  | ok id' =>
    rw [hres] at h
    cases h
    rfl

/-- After `init`, a group is created, given a grant and removed. -/
def reused : State :=
  ((State.init.apply (.create "a")).apply (.addCap 100 ⟨.file, .read⟩)).apply (.remove 100)

theorem reused_refines : Refines reused.table reused.roles :=
  reach_refines (.next (.next (.next (.start rfl) (init_cleanSlot "a") rfl)
    (fun _ _ heq => (by cases heq)) rfl) (fun _ _ heq => (by cases heq)) rfl)

/-- The grant of the removed group is authority of the next group created in its slot. -/
theorem not_groups_grant_exactly :
    ¬ ∀ s, Reach step (fun x => x = .init) s → GrantsExactly s := by
  intro hall
  have hreach : Reach step (fun x => x = State.init)
      ((reused.apply (.create "b")).apply (.addMember 101 7)) :=
    .next (.next (.next (.next (.next (.start rfl) trivial rfl) trivial rfl) trivial rfl)
      trivial rfl) trivial rfl
  have hcreate : (exec reused.table (.create "b")).1.toOption = some 101 := by decide +kernel
  have hadd : (exec (reused.apply (.create "b")).table (.addMember 101 7)).1.toOption = some 101 := by
    decide +kernel
  have haccess : ((reused.apply (.create "b")).apply (.addMember 101 7)).table.checkAccess
      1 7 [] .file .read = true := by decide +kernel
  have hnone : ∀ i : Fin maxGroups, reused.table.groups[i].active = true →
      7 ∉ reused.table.groups[i].members := by decide +kernel
  rcases ((hall _ hreach).access 1 7 [] .file .read (by decide)).mp haccess with
    ⟨id, r, hr, ⟨gid, hgid, hg⟩, c, hc, -⟩
  have hgid7 : gid = 7 := hg.resolve_right List.not_mem_nil
  subst hgid7
  rw [apply_roles hadd, apply_roles hcreate] at hr
  change update (update reused.roles 101 (some ⟨"b", ∅, ∅⟩)) 101
    (Option.bind (update reused.roles 101 (some ⟨"b", ∅, ∅⟩) 101) _) id = some r at hr
  rw [update_self, Function.update_idem] at hr
  rcases eq_or_ne id 101 with rfl | hne
  · -- The new group was given nothing.
    rw [update_self, Option.bind_some, Option.some.injEq] at hr
    rw [← hr] at hc
    exact absurd hc (Set.notMem_empty c)
  · -- The others had no such member.
    rw [update_of_ne hne] at hr
    rcases reused_refines.slot id r hr with ⟨i, hact, rfl⟩
    rw [reused_refines.role i hact, Option.some.injEq] at hr
    rw [← hr] at hgid
    exact hnone i hact hgid

end SlateOS.Cap.GroupRuns
