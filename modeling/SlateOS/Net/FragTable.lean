/-
# SlateOS.Net.FragTable -- the table as a map from keys to contexts

A table without duplicate keys stands for a partial map: `contextOf`. While there is a free slot for a key
that has none, a fragment acts on the context of its own key alone, as `receive` says, and what it returns
depends on nothing else in the table.
-/
import SlateOS.Foundation.Slots
import SlateOS.Net.Frag

namespace SlateOS.Net

open Foundation

namespace FragContext

variable {κ ν : Type}

/-- A context just opened for a fragment. -/
def fresh (f : Fragment κ ν) : FragContext κ ν where
  active := true
  key := f.key
  note := f.note
  buffer := []
  received := []
  totalLen := none
  createdNs := f.nowNs

/-- Nothing collected. -/
structure Blank (e : FragContext κ ν) : Prop where
  buffer : e.buffer = []
  received : e.received = []
  totalLen : e.totalLen = none

theorem blank_clear (e : FragContext κ ν) : e.clear.Blank := ⟨rfl, rfl, rfl⟩

/-- What a context is for does not change. -/
theorem addFragment_keeps (e : FragContext κ ν) (maxPayload offset : Nat) (data : List UInt8)
    (more : Bool) :
    (e.addFragment maxPayload offset data more).2.active = e.active ∧
      (e.addFragment maxPayload offset data more).2.key = e.key ∧
      (e.addFragment maxPayload offset data more).2.note = e.note := by
  unfold addFragment
  dsimp only
  split
  · exact ⟨rfl, rfl, rfl⟩
  · split
    · exact ⟨rfl, rfl, rfl⟩
    · exact ⟨rfl, rfl, rfl⟩

/-- A fragment for one key, as that key's context sees it. -/
def receive (maxPayload : Nat) (c : Option (FragContext κ ν)) (f : Fragment κ ν) :
    Option (ν × List UInt8) × Option (FragContext κ ν) :=
  let r := (c.getD (fresh f)).addFragment maxPayload (f.offsetUnits * fragBlockSize) f.data
    f.moreFragments
  if r.1 then (some (r.2.note, r.2.buffer.take (r.2.totalLen.getD r.2.buffer.length)), none)
  else if r.2.buffer = [] then (none, none)
  else (none, some r.2)

end FragContext

namespace FragTable

open FragContext

variable {κ ν : Type} {table : FragTable κ ν} {maxPayload idx : Nat} {e : FragContext κ ν}
  {f : Fragment κ ν}

/-- In use. -/
def Live (e : FragContext κ ν) : Prop := e.active = true

instance (e : FragContext κ ν) : Decidable (Live e) := inferInstanceAs (Decidable (_ = _))

/-- No two contexts have one key, and a free slot holds nothing. -/
structure Valid (table : FragTable κ ν) : Prop where
  unique : Slots.Unique Live FragContext.key table
  blank : ∀ e ∈ table, e.active = false → e.Blank

/-- Writing back what a context has become. -/
theorem valid_set (h : Valid table) (hi : table[idx]? = some e) {e' : FragContext κ ν}
    (hlive : Live e' → Live e) (hkey : e'.key = e.key) (hblank : e'.active = false → e'.Blank) :
    Valid (table.set idx e') where
  unique := h.unique.set_of_same hi hlive hkey
  blank a ha hdead := by
    rcases Slots.mem_set_cases ha with rfl | ha
    · exact hblank hdead
    · exact h.blank a ha hdead

/-- A slot taken for a new key holds a fresh context, whatever it held before. -/
theorem openAt_eq (h : Valid table) (hi : table[idx]? = some e) :
    table.openAt idx f = table.set idx (fresh f) := by
  have hfresh : { (if e.active then e.clear else e) with
      active := true
      key := f.key
      note := f.note
      createdNs := f.nowNs } = fresh f := by
    cases hactive : e.active with
    | true => rfl
    | false =>
      obtain ⟨hb, hr, ht⟩ := h.blank e (List.mem_of_getElem? hi) hactive
      simp [fresh, hb, hr, ht]
  refine List.ext_getElem? fun j => ?_
  unfold openAt
  by_cases hj : idx = j
  · subst hj
    rw [List.getElem?_modify_eq, hi, List.getElem?_set_self (List.getElem?_eq_some_iff.1 hi).1]
    exact congrArg some hfresh
  · rw [List.getElem?_modify_ne _ _ hj, List.getElem?_set_ne hj]

theorem valid_open (h : Valid table)
    (hnew : ∀ a ∈ table, Live a → a.key ≠ f.key) : Valid (table.set idx (fresh f)) where
  unique := h.unique.set_of_fresh hnew
  blank a ha hdead := by
    rcases Slots.mem_set_cases ha with rfl | ha
    · cases hdead
    · exact h.blank a ha hdead

/-- A free slot is found when there is one. -/
theorem slotFor_free (h : ∃ e ∈ table, e.active = false) :
    ∃ e, table[table.slotFor]? = some e ∧ e.active = false := by
  obtain ⟨a, ha, hdead⟩ := h
  unfold slotFor
  cases hfree : table.findIdx? fun e => !e.active with
  | none =>
    have hnot := List.findIdx?_eq_none_iff.1 hfree a ha
    rw [hdead] at hnot
    cases hnot
  | some i =>
    obtain ⟨hlt, he, -⟩ := List.findIdx?_eq_some_iff_getElem.1 hfree
    exact ⟨table[i], List.getElem?_eq_getElem hlt, by simpa using he⟩

/-- The tables as they are at boot. -/
theorem valid_replicate {e : FragContext κ ν} (he : e.active = false) (hblank : e.Blank) (n : Nat) :
    Valid (List.replicate n e) where
  unique := Slots.Unique.of_free fun a ha hlive => by
    rw [(List.mem_replicate.1 ha).2] at hlive
    exact Bool.noConfusion (he.symm.trans hlive)
  blank a ha _ := (List.mem_replicate.1 ha).2 ▸ hblank

/-! ## Contexts by key -/

variable [DecidableEq κ] {k : κ}

/-- The context of a key. -/
def contextOf (table : FragTable κ ν) (k : κ) : Option (FragContext κ ν) :=
  Slots.lookup Live FragContext.key table k

/-- **A fragment put into an open context.** -/
theorem addAt_spec (maxPayload : Nat) (f : Fragment κ ν) (h : Valid table)
    (hi : table[idx]? = some e) (he : Live e) :
    (table.addAt maxPayload idx f).1 = (receive maxPayload (some e) f).1 ∧
      Valid (table.addAt maxPayload idx f).2 ∧
      ∀ k, contextOf (table.addAt maxPayload idx f).2 k =
        if k = e.key then (receive maxPayload (some e) f).2 else contextOf table k := by
  obtain ⟨hactive, hkey, -⟩ := e.addFragment_keeps maxPayload
    (f.offsetUnits * fragBlockSize) f.data f.moreFragments
  have haddAt : table.addAt maxPayload idx f =
      let r := e.addFragment maxPayload (f.offsetUnits * fragBlockSize) f.data f.moreFragments
      if r.1 then (some (r.2.note, r.2.buffer.take (r.2.totalLen.getD r.2.buffer.length)),
        table.set idx r.2.clear)
      else if r.2.buffer = [] then (none, table.set idx r.2.clear)
      else (none, table.set idx r.2) := by
    unfold addAt
    rw [hi]
  rw [haddAt]
  unfold receive
  rw [Option.getD_some]
  generalize e.addFragment maxPayload (f.offsetUnits * fragBlockSize) f.data f.moreFragments = r
    at hactive hkey ⊢
  -- the context is closed, or written back still open
  have hclosed : Valid (table.set idx r.2.clear) ∧ ∀ k, contextOf (table.set idx r.2.clear) k =
      if k = e.key then none else contextOf table k := by
    have hdead : ¬Live r.2.clear := fun hc => Bool.noConfusion hc
    have hv : Valid (table.set idx r.2.clear) :=
      valid_set h hi (fun hc => absurd hc hdead) hkey fun _ => blank_clear _
    refine ⟨hv, fun k => ?_⟩
    by_cases hk : k = e.key
    · rw [if_pos hk]
      exact h.unique.lookup_set_dead hi he hk.symm hdead
    · rw [if_neg hk]
      exact h.unique.lookup_set_of_ne hv.unique hi (fun _ hc => hk hc.symm) fun hc => absurd hc hdead
  have hopen : Valid (table.set idx r.2) ∧ ∀ k, contextOf (table.set idx r.2) k =
      if k = e.key then some r.2 else contextOf table k := by
    have hlive : Live r.2 := hactive.trans he
    have hv : Valid (table.set idx r.2) := valid_set h hi (fun _ => he) hkey fun hc => by
      rw [hlive] at hc
      cases hc
    refine ⟨hv, fun k => ?_⟩
    by_cases hk : k = e.key
    · rw [if_pos hk]
      exact hv.unique.lookup_set_self hi hlive (hkey.trans hk.symm)
    · rw [if_neg hk]
      exact h.unique.lookup_set_of_ne hv.unique hi (fun _ hc => hk hc.symm)
        fun _ hc => hk (hc.symm.trans hkey)
  dsimp only
  split
  · exact ⟨rfl, hclosed⟩
  · split
    · exact ⟨rfl, hclosed⟩
    · exact ⟨rfl, hopen⟩

theorem findKey_eq_some (h : table.findKey k = some idx) :
    ∃ e, table[idx]? = some e ∧ Live e ∧ e.key = k := by
  unfold findKey at h
  obtain ⟨hlt, he, -⟩ := List.findIdx?_eq_some_iff_getElem.1 h
  simp only [Bool.and_eq_true, decide_eq_true_eq] at he
  exact ⟨table[idx], List.getElem?_eq_getElem hlt, he⟩

theorem findKey_eq_none (h : table.findKey k = none) : ∀ e ∈ table, Live e → e.key ≠ k := by
  intro e he hlive hkey
  have hnot := List.findIdx?_eq_none_iff.1 h e he
  simp [hkey] at hnot
  exact Bool.noConfusion (hnot.symm.trans hlive)

/-- The table stays valid, also when a context is evicted. -/
theorem valid_addFragment (h : Valid table) : Valid (table.addFragment maxPayload f).2 := by
  unfold addFragment
  split
  next idx hfound =>
    obtain ⟨e, hi, hlive, -⟩ := findKey_eq_some hfound
    exact (addAt_spec maxPayload f h hi hlive).2.1
  next hnone =>
  cases hi : table[table.slotFor]? with
  | none =>
    -- no such slot: nothing is opened and nothing is added
    have hopen : table.openAt table.slotFor f = table :=
      List.modify_eq_self (List.getElem?_eq_none_iff.1 hi)
    rw [hopen, addAt, hi]
    exact h
  | some e =>
    have hlt : table.slotFor < table.length := (List.getElem?_eq_some_iff.1 hi).1
    rw [openAt_eq h hi]
    have hv : Valid (table.set table.slotFor (fresh f)) := valid_open h (findKey_eq_none hnone)
    exact (addAt_spec maxPayload f hv (List.getElem?_set_self hlt) rfl).2.1

/-- There is a context for the fragment's key, or a slot for one. -/
def Room (table : FragTable κ ν) (k : κ) : Prop :=
  contextOf table k = none → ∃ e ∈ table, e.active = false

/-- **A fragment acts on the context of its key, and on no other.** -/
theorem addFragment_spec (maxPayload : Nat) (h : Valid table) (hroom : Room table f.key) :
    (table.addFragment maxPayload f).1 = (receive maxPayload (contextOf table f.key) f).1 ∧
      ∀ k, contextOf (table.addFragment maxPayload f).2 k =
        if k = f.key then (receive maxPayload (contextOf table f.key) f).2 else contextOf table k := by
  unfold addFragment
  split
  next idx hfound =>
    obtain ⟨e, hi, hlive, hkey⟩ := findKey_eq_some hfound
    have hcontext : contextOf table f.key = some e :=
      h.unique.lookup_eq_some_iff.2 ⟨List.mem_of_getElem? hi, hlive, hkey⟩
    obtain ⟨hout, -, hcontexts⟩ := addAt_spec maxPayload f h hi hlive
    rw [hcontext, ← hkey]
    exact ⟨hout, hcontexts⟩
  next hnone =>
  have hcontext : contextOf table f.key = none :=
    Slots.lookup_eq_none_iff.2 (findKey_eq_none hnone)
  obtain ⟨e, hi, hdead⟩ := slotFor_free (hroom hcontext)
  have hlt : table.slotFor < table.length := (List.getElem?_eq_some_iff.1 hi).1
  have hv : Valid (table.set table.slotFor (fresh f)) := valid_open h (findKey_eq_none hnone)
  have hset : (table.set table.slotFor (fresh f))[table.slotFor]? = some (fresh f) :=
    List.getElem?_set_self hlt
  obtain ⟨hout, -, hcontexts⟩ := addAt_spec maxPayload f hv hset rfl
  rw [openAt_eq h hi, hcontext]
  refine ⟨hout, fun k => (hcontexts k).trans ?_⟩
  -- the slot was free before, so no other key's context was there
  show (if k = f.key then _ else _) = _
  by_cases hk : k = f.key
  · rw [if_pos hk, if_pos hk]
    rfl
  · rw [if_neg hk, if_neg hk]
    have hnotLive : ¬Live e := fun hc => Bool.noConfusion (hdead.symm.trans hc)
    exact h.unique.lookup_set_of_ne hv.unique hi (fun hc => absurd hc hnotLive)
      fun _ hc => hk hc.symm

/-- **A fragment, with or without room**: unless the table has no slots at all, it acts on the context of its key as
it does when there is room, and a context of another key that is there afterwards was there before. -/
theorem addFragment_cases (maxPayload : Nat) (f : Fragment κ ν) (h : Valid table) :
    (contextOf table f.key = none ∧ table.addFragment maxPayload f = (none, table)) ∨
      (table.addFragment maxPayload f).1 = (receive maxPayload (contextOf table f.key) f).1 ∧
        contextOf (table.addFragment maxPayload f).2 f.key = (receive maxPayload (contextOf table f.key) f).2 ∧
        ∀ k ≠ f.key, ∀ a, contextOf (table.addFragment maxPayload f).2 k = some a → contextOf table k = some a := by
  unfold addFragment
  split
  next idx hfound =>
    obtain ⟨e, hi, hlive, hkey⟩ := findKey_eq_some hfound
    have hcontext : contextOf table f.key = some e :=
      h.unique.lookup_eq_some_iff.2 ⟨List.mem_of_getElem? hi, hlive, hkey⟩
    obtain ⟨hout, -, hcontexts⟩ := addAt_spec maxPayload f h hi hlive
    rw [hkey] at hcontexts
    rw [hcontext]
    refine .inr ⟨hout, (hcontexts f.key).trans (if_pos rfl), fun k hk a ha => ?_⟩
    rwa [hcontexts k, if_neg hk] at ha
  next hnone =>
  have hcontext : contextOf table f.key = none := Slots.lookup_eq_none_iff.2 (findKey_eq_none hnone)
  cases hi : table[table.slotFor]? with
  | none =>
    have hopen : table.openAt table.slotFor f = table :=
      List.modify_eq_self (List.getElem?_eq_none_iff.1 hi)
    rw [hopen, addAt, hi]
    exact .inl ⟨hcontext, rfl⟩
  | some e =>
    have hlt : table.slotFor < table.length := (List.getElem?_eq_some_iff.1 hi).1
    have hv : Valid (table.set table.slotFor (fresh f)) := valid_open h (findKey_eq_none hnone)
    have hset : (table.set table.slotFor (fresh f))[table.slotFor]? = some (fresh f) :=
      List.getElem?_set_self hlt
    obtain ⟨hout, -, hcontexts⟩ := addAt_spec maxPayload f hv hset rfl
    rw [openAt_eq h hi, hcontext]
    refine .inr ⟨hout, (hcontexts f.key).trans (if_pos rfl), fun k hk a ha => ?_⟩
    rw [hcontexts k, if_neg (show k ≠ (fresh f).key from hk)] at ha
    -- the slot may have been taken from another key, but it was given to none but the fragment's
    obtain ⟨hmem, hlive, hkey⟩ := hv.unique.lookup_eq_some_iff.1 ha
    obtain rfl | hmem := Slots.mem_set_cases hmem
    · exact absurd hkey.symm hk
    · exact h.unique.lookup_eq_some_iff.2 ⟨hmem, hlive, hkey⟩

/-- What an expiry pass leaves was there before it. -/
theorem contextOf_of_tickExpire (timeoutNs nowNs : Nat) (h : Valid table) {a : FragContext κ ν}
    (ha : contextOf (table.tickExpire timeoutNs nowNs) k = some a) : contextOf table k = some a := by
  obtain ⟨hmem, hlive, hkey⟩ := Slots.mem_of_lookup ha
  obtain ⟨b, hb, heq⟩ := List.mem_map.1 hmem
  split at heq
  · rw [← heq] at hlive
    cases hlive
  · exact h.unique.lookup_eq_some_iff.2 ⟨heq ▸ hb, hlive, hkey⟩

/-- An expiry pass keeps the table valid and every context that is not out of time. -/
theorem tickExpire_spec (timeoutNs nowNs : Nat) (h : Valid table) :
    Valid (table.tickExpire timeoutNs nowNs) ∧
      ∀ k, (∀ e, contextOf table k = some e → nowNs - e.createdNs < timeoutNs) →
        contextOf (table.tickExpire timeoutNs nowNs) k = contextOf table k := by
  have hpass : ∀ a : FragContext κ ν,
      Live (if a.active ∧ timeoutNs ≤ nowNs - a.createdNs then a.clear else a) →
        (if a.active ∧ timeoutNs ≤ nowNs - a.createdNs then a.clear else a) = a := by
    intro a hlive
    split at hlive
    next => cases hlive
    next hc => rw [if_neg hc]
  refine ⟨⟨?_, ?_⟩, fun k hk => ?_⟩
  · exact h.unique.map (fun a ha => hpass a ha ▸ ha) fun a ha => congrArg FragContext.key (hpass a ha)
  · intro a ha hdead
    obtain ⟨b, hb, rfl⟩ := List.mem_map.1 ha
    split at hdead
    next hc =>
      rw [if_pos hc]
      exact blank_clear b
    next hc =>
      rw [if_neg hc]
      exact h.blank b hb hdead
  · refine h.unique.lookup_map (fun a ha => ⟨hpass a ha ▸ ha, congrArg FragContext.key (hpass a ha)⟩)
      fun a ha hlive hkey => ?_
    have hyoung := hk a (h.unique.lookup_eq_some_iff.2 ⟨ha, hlive, hkey⟩)
    exact if_neg fun hc => absurd hc.2 (Nat.not_le.2 hyoung)

end FragTable

end SlateOS.Net
