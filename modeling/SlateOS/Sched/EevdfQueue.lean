/-
# SlateOS.Sched.EevdfQueue -- the four maps are one queue of entries

An EEVDF run queue is a finite map from task to entry; the tree, the deadline index and the two
partition indexes are four views of it. `Represents s q` says so, and one lemma for each way the source
touches the maps (insert an entry, remove one, promote one) says what it does to the queue `q`. `rebalance`
then amounts to `classify`: each entry is flagged by the floor.
-/
import SlateOS.Foundation.OrderedMap
import SlateOS.Sched.Eevdf

namespace SlateOS.Sched

open Foundation
open Function (update update_self update_of_ne)

namespace EevdfScheduler

/-- The waiting tasks and their entries. -/
abbrev Queue := TaskId → Option EevdfEntry

/-- The maps of `s` are views of the queue `q`. -/
structure Represents (s : EevdfScheduler) (q : Queue) : Prop where
  id : ∀ i e, q i = some e → e.id = i
  tree : ∀ (k : TimeKey) e, s.tree[k]? = some e ↔
    q (ofLex k).2 = some e ∧ e.deadline = (ofLex k).1
  deadlines : ∀ i, s.deadlines[i]? = (q i).map EevdfEntry.deadline
  eligible : ∀ k : TimeKey, k ∈ s.eligible ↔
    ∃ e, q (ofLex k).2 = some e ∧ e.deadline = (ofLex k).1 ∧ e.isEligible = true
  ineligible : ∀ k : TimeKey, k ∈ s.ineligibleByVrt ↔
    ∃ e, q (ofLex k).2 = some e ∧ e.vruntime = (ofLex k).1 ∧ e.isEligible = false

variable {s t : EevdfScheduler} {q : Queue}

/-- Only the four maps matter. -/
theorem Represents.congr (h : s.Represents q) (htree : t.tree = s.tree)
    (hdeadlines : t.deadlines = s.deadlines) (heligible : t.eligible = s.eligible)
    (hineligible : t.ineligibleByVrt = s.ineligibleByVrt) : t.Represents q where
  id := h.id
  tree := htree ▸ h.tree
  deadlines := hdeadlines ▸ h.deadlines
  eligible := heligible ▸ h.eligible
  ineligible := hineligible ▸ h.ineligible

variable {i : TaskId} {e : EevdfEntry}

theorem Represents.tree_eq (h : s.Represents q)
    (he : q i = some e) : s.tree[(toLex (e.deadline, i) : TimeKey)]? = some e :=
  (h.tree _ _).2 ⟨he, rfl⟩

theorem Represents.mem_tree (h : s.Represents q) (k : TimeKey) :
    k ∈ s.tree ↔ ∃ e, q (ofLex k).2 = some e ∧ e.deadline = (ofLex k).1 := by
  rw [OrderedMap.mem_iff]
  exact exists_congr fun e => h.tree k e

theorem Represents.deadline_eq_some (h : s.Represents q) {d : Nat} :
    s.deadlines[i]? = some d ↔ ∃ e, q i = some e ∧ e.deadline = d := by
  rw [h.deadlines]
  simp

theorem Represents.deadline_eq_none (h : s.Represents q) :
    s.deadlines[i]? = none ↔ q i = none := by
  rw [h.deadlines]
  simp

theorem represents_new : new.Represents fun _ => none where
  id := by simp
  tree := by
    intro k e
    show (∅ : Std.TreeMap TimeKey EevdfEntry)[k]? = some e ↔ _
    simp
  deadlines := by
    intro i
    show (∅ : Std.TreeMap TaskId Nat)[i]? = _
    simp
  eligible := by
    intro k
    show k ∈ (∅ : Std.TreeMap TimeKey Unit) ↔ _
    simp
  ineligible := by
    intro k
    show k ∈ (∅ : Std.TreeMap TimeKey Unit) ↔ _
    simp

/-! ## Inserting an entry -/

theorem ofLex_eq_iff {k : TimeKey} {v : Nat} :
    k = toLex (v, i) ↔ (ofLex k).1 = v ∧ (ofLex k).2 = i := by
  constructor
  · rintro rfl
    exact ⟨rfl, rfl⟩
  · rintro ⟨rfl, rfl⟩
    rfl

theorem addEntry_tree (s : EevdfScheduler) (e : EevdfEntry) :
    (s.addEntry e).tree = s.tree.insert (toLex (e.deadline, e.id)) e := by
  unfold addEntry
  split <;> rfl

theorem addEntry_nrRunning (s : EevdfScheduler) (e : EevdfEntry) :
    (s.addEntry e).nrRunning = MachineInt.saturatingAdd 32 s.nrRunning 1 := by
  unfold addEntry
  split <;> rfl

theorem addEntry_minVruntime (s : EevdfScheduler) (e : EevdfEntry) :
    (s.addEntry e).minVruntime = s.minVruntime := by
  unfold addEntry
  split <;> rfl

/-- The entry of a task that does not wait joins the queue. -/
theorem Represents.addEntry (h : s.Represents q) (hnew : q e.id = none) :
    (s.addEntry e).Represents (update q e.id (some e)) := by
  have hdeadlines : (s.addEntry e).deadlines = s.deadlines.insert e.id e.deadline := by
    unfold EevdfScheduler.addEntry
    split <;> rfl
  have heligible : ∀ k : TimeKey, k ∈ (s.addEntry e).eligible ↔
      (e.isEligible = true ∧ k = toLex (e.deadline, e.id)) ∨ k ∈ s.eligible := by
    intro k
    unfold EevdfScheduler.addEntry
    split
    · next hflag =>
        show k ∈ s.eligible.insert _ _ ↔ _
        rw [OrderedMap.mem_insert]
        simp [hflag]
    · next hflag => simp [hflag]
  have hineligible : ∀ k : TimeKey, k ∈ (s.addEntry e).ineligibleByVrt ↔
      (e.isEligible = false ∧ k = toLex (e.vruntime, e.id)) ∨ k ∈ s.ineligibleByVrt := by
    intro k
    unfold EevdfScheduler.addEntry
    split
    · next hflag => simp [hflag]
    · next hflag =>
        show k ∈ s.ineligibleByVrt.insert _ _ ↔ _
        rw [OrderedMap.mem_insert]
        simp [hflag]
  constructor
  · intro i e' he'
    by_cases hi : i = e.id
    · subst hi
      rw [update_self] at he'
      rw [Option.some.inj he']
    · rw [update_of_ne hi] at he'
      exact h.id i e' he'
  · intro k e'
    rw [addEntry_tree, OrderedMap.getElem?_insert]
    by_cases hi : (ofLex k).2 = e.id
    · rw [hi, update_self]
      by_cases hd : (ofLex k).1 = e.deadline
      · rw [if_pos (ofLex_eq_iff.2 ⟨hd, hi⟩)]
        constructor
        · intro he'
          cases he'
          exact ⟨rfl, hd.symm⟩
        · exact fun he' => he'.1
      · rw [if_neg fun hk => hd (ofLex_eq_iff.1 hk).1, h.tree, hi, hnew]
        simp only [reduceCtorEq, false_and, Option.some.injEq, false_iff, not_and]
        rintro rfl hd'
        exact hd hd'.symm
    · rw [update_of_ne hi, if_neg fun hk => hi (ofLex_eq_iff.1 hk).2]
      exact h.tree k e'
  · intro i
    rw [hdeadlines, OrderedMap.getElem?_insert]
    by_cases hi : i = e.id
    · rw [hi, if_pos rfl, update_self]
      rfl
    · rw [if_neg hi, update_of_ne hi]
      exact h.deadlines i
  · intro k
    rw [heligible, h.eligible, ofLex_eq_iff]
    by_cases hi : (ofLex k).2 = e.id
    · rw [hi, update_self, hnew]
      constructor
      · rintro (⟨hflag, hd, -⟩ | ⟨e', he', -⟩)
        · exact ⟨e, rfl, hd.symm, hflag⟩
        · simp at he'
      · rintro ⟨e', he', hd, hflag⟩
        cases he'
        exact .inl ⟨hflag, hd.symm, rfl⟩
    · rw [update_of_ne hi]
      simp [hi]
  · intro k
    rw [hineligible, h.ineligible, ofLex_eq_iff]
    by_cases hi : (ofLex k).2 = e.id
    · rw [hi, update_self, hnew]
      constructor
      · rintro (⟨hflag, hd, -⟩ | ⟨e', he', -⟩)
        · exact ⟨e, rfl, hd.symm, hflag⟩
        · simp at he'
      · rintro ⟨e', he', hd, hflag⟩
        cases he'
        exact .inl ⟨hflag, hd.symm, rfl⟩
    · rw [update_of_ne hi]
      simp [hi]

/-! ## Removing an entry -/

/-- The maps without the entry `e` of task `i`. -/
def without (s : EevdfScheduler) (e : EevdfEntry) : EevdfScheduler :=
  unindex { s with
    tree := s.tree.erase (toLex (e.deadline, e.id))
    deadlines := s.deadlines.erase e.id } (toLex (e.deadline, e.id)) e

theorem unindex_tree (s : EevdfScheduler) (k : TimeKey) (e : EevdfEntry) :
    (s.unindex k e).tree = s.tree := by
  unfold unindex
  split <;> rfl

theorem unindex_deadlines (s : EevdfScheduler) (k : TimeKey) (e : EevdfEntry) :
    (s.unindex k e).deadlines = s.deadlines := by
  unfold unindex
  split <;> rfl

theorem unindex_minVruntime (s : EevdfScheduler) (k : TimeKey) (e : EevdfEntry) :
    (s.unindex k e).minVruntime = s.minVruntime := by
  unfold unindex
  split <;> rfl

theorem unindex_nrRunning (s : EevdfScheduler) (k : TimeKey) (e : EevdfEntry) :
    (s.unindex k e).nrRunning = s.nrRunning := by
  unfold unindex
  split <;> rfl

theorem without_tree (s : EevdfScheduler) (e : EevdfEntry) :
    (s.without e).tree = s.tree.erase (toLex (e.deadline, e.id)) := unindex_tree _ _ _

/-- The task's entry leaves the queue. -/
theorem Represents.without (h : s.Represents q)
    (he : q i = some e) : (s.without e).Represents (update q i none) := by
  obtain rfl := h.id i e he
  have hdeadlines : (s.without e).deadlines = s.deadlines.erase e.id := unindex_deadlines _ _ _
  have heligible : ∀ k : TimeKey, k ∈ (s.without e).eligible ↔
      k ∈ s.eligible ∧ ¬ (e.isEligible = true ∧ k = toLex (e.deadline, e.id)) := by
    intro k
    unfold EevdfScheduler.without unindex
    split
    · next hflag =>
        show k ∈ s.eligible.erase _ ↔ _
        rw [OrderedMap.mem_erase]
        simp [hflag, and_comm]
    · next hflag => simp [hflag]
  have hineligible : ∀ k : TimeKey, k ∈ (s.without e).ineligibleByVrt ↔
      k ∈ s.ineligibleByVrt ∧ ¬ (e.isEligible = false ∧ k = toLex (e.vruntime, e.id)) := by
    intro k
    unfold EevdfScheduler.without unindex
    split
    · next hflag => simp [hflag]
    · next hflag =>
        show k ∈ s.ineligibleByVrt.erase _ ↔ _
        rw [OrderedMap.mem_erase]
        simp [hflag, and_comm]
  constructor
  · intro i e' he'
    by_cases hi : i = e.id
    · subst hi
      simp at he'
    · rw [update_of_ne hi] at he'
      exact h.id i e' he'
  · intro k e'
    rw [without_tree, OrderedMap.getElem?_erase]
    by_cases hi : (ofLex k).2 = e.id
    · rw [hi, update_self]
      by_cases hd : (ofLex k).1 = e.deadline
      · rw [if_pos (ofLex_eq_iff.2 ⟨hd, hi⟩)]
        simp
      · rw [if_neg fun hk => hd (ofLex_eq_iff.1 hk).1, h.tree, hi, he]
        simp only [Option.some.injEq, reduceCtorEq, false_and, iff_false, not_and]
        rintro rfl hd'
        exact hd hd'.symm
    · rw [update_of_ne hi, if_neg fun hk => hi (ofLex_eq_iff.1 hk).2]
      exact h.tree k e'
  · intro i
    rw [hdeadlines, OrderedMap.getElem?_erase]
    by_cases hi : i = e.id
    · rw [hi, if_pos rfl, update_self]
      rfl
    · rw [if_neg hi, update_of_ne hi]
      exact h.deadlines i
  · intro k
    rw [heligible, h.eligible, ofLex_eq_iff]
    by_cases hi : (ofLex k).2 = e.id
    · rw [hi, update_self, he]
      constructor
      · rintro ⟨⟨e', he', hd, hflag⟩, hne⟩
        cases he'
        exact absurd ⟨hflag, hd.symm, rfl⟩ hne
      · rintro ⟨e', he', -⟩
        simp at he'
    · rw [update_of_ne hi]
      simp [hi]
  · intro k
    rw [hineligible, h.ineligible, ofLex_eq_iff]
    by_cases hi : (ofLex k).2 = e.id
    · rw [hi, update_self, he]
      constructor
      · rintro ⟨⟨e', he', hv, hflag⟩, hne⟩
        cases he'
        exact absurd ⟨hflag, hv.symm, rfl⟩ hne
      · rintro ⟨e', he', -⟩
        simp at he'
    · rw [update_of_ne hi]
      simp [hi]

/-! ## Promotion and rebalancing -/

/-- The entry behind the key `k` of the ineligible index is marked eligible. -/
theorem Represents.promote (h : s.Represents q) {k : TimeKey}
    (he : q (ofLex k).2 = some e) (hv : e.vruntime = (ofLex k).1) (hflag : e.isEligible = false) :
    (s.promote k).Represents
      (update q (ofLex k).2 (some { e with isEligible := true })) := by
  have hdeadline : s.deadlines[(ofLex k).2]? = some e.deadline := by
    rw [h.deadlines, he]
    rfl
  have heq : s.promote k = { s with
      tree := s.tree.insert (toLex (e.deadline, (ofLex k).2)) { e with isEligible := true }
      eligible := s.eligible.insert (toLex (e.deadline, (ofLex k).2)) ()
      ineligibleByVrt := s.ineligibleByVrt.erase k } := by
    unfold EevdfScheduler.promote
    simp only [hdeadline, h.tree_eq he]
  rw [heq]
  constructor
  · intro i e' he'
    by_cases hi : i = (ofLex k).2
    · rw [hi, update_self] at he'
      cases he'
      exact (h.id _ e he).trans hi.symm
    · rw [update_of_ne hi] at he'
      exact h.id i e' he'
  · intro a e'
    show (s.tree.insert _ _)[a]? = some e' ↔ _
    rw [OrderedMap.getElem?_insert]
    by_cases hi : (ofLex a).2 = (ofLex k).2
    · rw [hi, update_self]
      by_cases hd : (ofLex a).1 = e.deadline
      · rw [if_pos (ofLex_eq_iff.2 ⟨hd, hi⟩)]
        constructor
        · intro he'
          cases he'
          exact ⟨rfl, hd.symm⟩
        · exact fun he' => he'.1
      · rw [if_neg fun hk => hd (ofLex_eq_iff.1 hk).1, h.tree, hi, he]
        constructor
        · rintro ⟨he', hd'⟩
          cases he'
          exact absurd hd'.symm hd
        · rintro ⟨he', hd'⟩
          cases he'
          exact absurd hd'.symm hd
    · rw [update_of_ne hi, if_neg fun hk => hi (ofLex_eq_iff.1 hk).2]
      exact h.tree a e'
  · intro i
    show s.deadlines[i]? = _
    rw [h.deadlines]
    by_cases hi : i = (ofLex k).2
    · rw [hi, update_self, he]
      rfl
    · rw [update_of_ne hi]
  · intro a
    show a ∈ s.eligible.insert _ _ ↔ _
    rw [OrderedMap.mem_insert, h.eligible, ofLex_eq_iff]
    by_cases hi : (ofLex a).2 = (ofLex k).2
    · rw [hi, update_self, he]
      simp only [Option.some.injEq, and_true]
      constructor
      · rintro (hd | ⟨e', rfl, -, hflag'⟩)
        · exact ⟨_, rfl, hd.symm, rfl⟩
        · rw [hflag] at hflag'
          simp at hflag'
      · rintro ⟨e', rfl, hd, -⟩
        exact .inl hd.symm
    · rw [update_of_ne hi]
      simp [hi]
  · intro a
    show a ∈ s.ineligibleByVrt.erase k ↔ _
    rw [OrderedMap.mem_erase, h.ineligible]
    by_cases hi : (ofLex a).2 = (ofLex k).2
    · rw [hi, update_self, he]
      simp only [Option.some.injEq]
      constructor
      · rintro ⟨hne, e', rfl, hv', -⟩
        exact absurd (ofLex_eq_iff.2 ⟨hv'.symm.trans hv, hi⟩) hne
      · rintro ⟨e', rfl, -, hflag'⟩
        simp at hflag'
    · rw [update_of_ne hi]
      have hne : a ≠ k := fun hak => hi (by rw [hak])
      simp [hne]

/-- Each entry flagged by the floor. -/
def classify (floor : Nat) (q : Queue) : Queue :=
  fun i => (q i).map fun e => { e with isEligible := decide (e.vruntime ≤ floor) }

/-- What is flagged eligible is at or below the floor. -/
def FlaggedBelow (floor : Nat) (q : Queue) : Prop :=
  ∀ i e, q i = some e → e.isEligible = true → e.vruntime ≤ floor

theorem classify_eq_self {floor : Nat}
    (h : ∀ i e, q i = some e → e.isEligible = decide (e.vruntime ≤ floor)) :
    classify floor q = q := by
  funext i
  unfold classify
  cases hq : q i with
  | none => rfl
  | some e => simp [← h i e hq]

theorem classify_update {floor : Nat} (he : q i = some e)
    (flag : Bool) :
    classify floor (update q i (some { e with isEligible := flag })) = classify floor q := by
  funext j
  unfold classify
  by_cases hj : j = i
  · rw [hj, update_self, he]
    rfl
  · rw [update_of_ne hj]

theorem classify_eq_none {floor : Nat} : classify floor q i = none ↔ q i = none := by
  simp [classify]

theorem promote_frame (s : EevdfScheduler) (k : TimeKey) :
    (s.promote k).ineligibleByVrt = s.ineligibleByVrt.erase k ∧
      (s.promote k).minVruntime = s.minVruntime ∧ (s.promote k).nrRunning = s.nrRunning := by
  unfold promote
  simp only
  split
  · exact ⟨rfl, rfl, rfl⟩
  · split <;> exact ⟨rfl, rfl, rfl⟩

theorem promote_size (h : s.Represents q) {k : TimeKey}
    (he : q (ofLex k).2 = some e) : (s.promote k).tree.size = s.tree.size := by
  have hdeadline : s.deadlines[(ofLex k).2]? = some e.deadline := by
    rw [h.deadlines, he]
    rfl
  unfold promote
  simp only [hdeadline, h.tree_eq he]
  exact OrderedMap.size_insert_of_mem (OrderedMap.mem_iff.2 ⟨e, h.tree_eq he⟩) _

/-- When nothing ineligible is at or below the floor, the flags are already right. -/
theorem Represents.settled (h : s.Represents q) (hbelow : FlaggedBelow s.minVruntime q)
    (hall : ∀ k ∈ s.ineligibleByVrt, s.minVruntime < (ofLex k).1) :
    s.Represents (classify s.minVruntime q) := by
  rw [classify_eq_self]
  · exact h
  · intro i e he
    cases hflag : e.isEligible with
    | true => simpa using hbelow i e he hflag
    | false =>
      have hmem : (toLex (e.vruntime, i) : TimeKey) ∈ s.ineligibleByVrt :=
        (h.ineligible _).2 ⟨e, he, rfl, hflag⟩
      simpa using hall _ hmem

/-- The loop promotes what the floor has reached: as many turns as there are ineligible tasks are
enough. -/
theorem rebalanceLoop_spec {fuel : Nat} (hfuel : s.ineligibleByVrt.size ≤ fuel)
    (h : s.Represents q) (hbelow : FlaggedBelow s.minVruntime q) :
    (rebalanceLoop fuel s).Represents (classify s.minVruntime q) ∧
      (rebalanceLoop fuel s).minVruntime = s.minVruntime ∧
      (rebalanceLoop fuel s).nrRunning = s.nrRunning ∧
      (rebalanceLoop fuel s).tree.size = s.tree.size := by
  induction fuel generalizing s q with
  | zero =>
    refine ⟨h.settled hbelow fun k hk => ?_, rfl, rfl, rfl⟩
    have hempty : s.ineligibleByVrt.isEmpty = true := by
      rw [Std.TreeMap.isEmpty_eq_size_eq_zero]
      simpa using hfuel
    exact absurd hk (Std.TreeMap.not_mem_of_isEmpty hempty)
  | succ fuel ih =>
    unfold rebalanceLoop
    split
    · next hnone =>
        rw [Std.TreeMap.minKey?_eq_none_iff] at hnone
        refine ⟨h.settled hbelow fun k hk => ?_, rfl, rfl, rfl⟩
        exact absurd hk (Std.TreeMap.not_mem_of_isEmpty hnone)
    · next k hk =>
        obtain ⟨hmem, hleast⟩ := OrderedMap.minKey_eq_some_iff.1 hk
        split
        · next hgt =>
            refine ⟨h.settled hbelow fun a ha => ?_, rfl, rfl, rfl⟩
            exact lt_of_lt_of_le hgt (Prod.Lex.monotone_fst _ _ (hleast a ha))
        · next hle =>
            obtain ⟨e, he, hv, hflag⟩ := (h.ineligible k).1 hmem
            obtain ⟨hinel, hmin, hnr⟩ := promote_frame s k
            have hsize := promote_size h he
            have hsize' : (s.promote k).ineligibleByVrt.size ≤ fuel := by
              have herase := OrderedMap.size_erase_of_mem hmem
              rw [hinel]
              omega
            have hbelow' : FlaggedBelow (s.promote k).minVruntime
                (update q (ofLex k).2 (some { e with isEligible := true })) := by
              rw [hmin]
              intro i e' he' hflag'
              by_cases hi : i = (ofLex k).2
              · rw [hi, update_self] at he'
                cases he'
                show e.vruntime ≤ s.minVruntime
                omega
              · rw [update_of_ne hi] at he'
                exact hbelow i e' he' hflag'
            obtain ⟨h1, h2, h3, h4⟩ := ih hsize' (h.promote he hv hflag) hbelow'
            rw [hmin, classify_update he] at h1
            exact ⟨h1, h2.trans hmin, h3.trans hnr, h4.trans hsize⟩

/-! ## Raising the floor -/

theorem updateMinVruntime_frame (s : EevdfScheduler) :
    ∃ floor, s.minVruntime ≤ floor ∧ s.updateMinVruntime = { s with minVruntime := floor } := by
  unfold updateMinVruntime
  split
  · split
    · next m _ =>
        split
        · next hgt => exact ⟨m, Nat.le_of_lt hgt, rfl⟩
        · exact ⟨s.minVruntime, le_rfl, rfl⟩
    · exact ⟨s.minVruntime, le_rfl, rfl⟩
  · exact ⟨s.minVruntime, le_rfl, rfl⟩

/-- `update_min_vruntime` and `rebalance`, which end every operation on the maps. -/
def settle (s : EevdfScheduler) : EevdfScheduler := s.updateMinVruntime.rebalance

theorem settle_spec (h : s.Represents q) (hbelow : FlaggedBelow s.minVruntime q) :
    s.settle.Represents (classify s.settle.minVruntime q) ∧
      s.minVruntime ≤ s.settle.minVruntime ∧ s.settle.nrRunning = s.nrRunning ∧
      s.settle.tree.size = s.tree.size := by
  obtain ⟨floor, hle, heq⟩ := updateMinVruntime_frame s
  unfold settle rebalance
  rw [heq]
  have hraised : ({ s with minVruntime := floor } : EevdfScheduler).Represents q :=
    h.congr rfl rfl rfl rfl
  obtain ⟨h1, h2, h3, h4⟩ := rebalanceLoop_spec le_rfl hraised
    fun i e he hflag => le_trans (hbelow i e he hflag) hle
  rw [h2]
  exact ⟨h1, hle, h3, h4⟩

end EevdfScheduler

end SlateOS.Sched
