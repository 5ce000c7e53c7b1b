/-
# SlateOS.Mm.CowViews -- isolation of address spaces under copy-on-write

Every private page holds what its program has there: the bytes at the fork, overwritten by the address
space's own stores. The break's slow half copies with no lock, so this needs that no store lands on a page
a break in flight has copied, in the frame it was copied from. The code relies on the frame being read-only
while it is shared; it is not once the other owners have left it, nor at a part a fork was told to skip.
-/
import SlateOS.Mm.CowRuns

namespace SlateOS.Mm.Cow

open Kernel Foundation.Runs
open Function (update update_self update_of_ne)

namespace CowState

/-- Every private page reads as what its program has there. -/
def Isolated (m : CowState) : Prop :=
  ∀ g i pte, m.entry g i = some pte → pte.isShared = false → m.mem pte.frame i = m.view g i

/-- No break of the group is in flight with a copy of part `i` made from the frame. -/
def NoCopyOf (m : CowState) (g : Group) (i : Part) (f : Nat) : Prop :=
  ∀ t prep, (m.place t).prep = some prep → prep.group = g → prep.frame = f →
    prep.copy ≠ none → prep.copied i = false

/-- The step's store, if it does one, lands on no page that a break in flight has copied. -/
def StoresApart (m : CowState) : CowAction → Prop
  | .store g i _ _ => ∀ pte, m.entry g i = some pte → m.NoCopyOf g i pte.frame
  | .advance t _ =>
    match m.place t with
    | .force w _ => ∀ pte, m.entry w.group w.part = some pte → m.refcount pte.frame = 1 →
        m.NoCopyOf w.group w.part pte.frame
    | _ => True
  | _ => True

/-- The pages and the copies in flight. A break's frame was mapped when the break read it, so it is
neither free nor itself a copy in flight. -/
structure Views (m : CowState) : Prop where
  page : m.Isolated
  copy : ∀ t prep f i q, (m.place t).prep = some prep → prep.copy = some f → prep.copied i = true →
    m.entry prep.group i = some q → q.frame = prep.frame → q.isShared = false →
      m.mem f i = m.view prep.group i
  present : ∀ t prep, (m.place t).prep = some prep → ∃ i q, m.entry prep.group i = some q
  unfree : ∀ t prep, (m.place t).prep = some prep → m.free prep.frame = false
  uncopied : ∀ t prep, (m.place t).prep = some prep → ¬m.held prep.frame

variable {m m' : CowState} {g parent child : Group} {f t : Nat} {i : Part} {pte : PageTableEntry}

variable {p : CowPlace} {prep : CowPrep}

theorem copy_of_prep (h : p.prep = some prep) :
    p.copy = prep.copy := by
  unfold CowPlace.copy
  rw [h]
  rfl

/-- A place without a break has no copy. -/
theorem copy_of_prep_none (h : p.prep = none) : p.copy = none := by
  unfold CowPlace.copy
  rw [h]
  rfl

/-- Entries keep their frames, and no break begins. -/
theorem Views.retag (h : Views m) (hmem : m'.mem = m.mem) (hview : m'.view = m.view)
    (hprep : ∀ t prep, (m'.place t).prep = some prep → (m.place t).prep = some prep)
    (hheld : ∀ f, m'.held f → m.held f)
    (hfree : ∀ t prep, (m.place t).prep = some prep → m'.free prep.frame = m.free prep.frame)
    (hback : ∀ g i q, m'.entry g i = some q → ∃ p, m.entry g i = some p ∧ p.frame = q.frame ∧
      p.isShared = q.isShared)
    (hforth : ∀ g i p, m.entry g i = some p → ∃ q, m'.entry g i = some q) : Views m' where
  page g i q hq hpriv := by
    obtain ⟨p, hp, hpf, hps⟩ := hback g i q hq
    rw [hmem, hview, ← hpf]
    exact h.page g i p hp (hps.trans hpriv)
  copy t prep f i q ht hc hcop hq hqf hpriv := by
    obtain ⟨p, hp, hpf, hps⟩ := hback prep.group i q hq
    rw [hmem, hview]
    exact h.copy t prep f i p (hprep t prep ht) hc hcop hp (hpf.trans hqf) (hps.trans hpriv)
  present t prep ht := by
    obtain ⟨i, p, hp⟩ := h.present t prep (hprep t prep ht)
    obtain ⟨q, hq⟩ := hforth prep.group i p hp
    exact ⟨i, q, hq⟩
  unfree t prep ht := (hfree t prep (hprep t prep ht)).trans (h.unfree t prep (hprep t prep ht))
  uncopied t prep ht hh := h.uncopied t prep (hprep t prep ht) (hheld _ hh)

/-- A thread moves on, its break over or none begun. -/
theorem prep_goto (hp : p.prep = none) :
    ∀ u prep, ((m.goto t p).place u).prep = some prep → (m.place u).prep = some prep := by
  intro u prep hu
  by_cases hut : u = t
  · subst hut
    rw [goto_place_self, hp] at hu
    cases hu
  · rw [goto_place_of_ne hut] at hu
    exact hu

theorem held_goto (hp : p.prep = none) (x : Nat) : (m.goto t p).held x → m.held x := by
  rintro ⟨u, hu⟩
  refine ⟨u, ?_⟩
  by_cases hut : u = t
  · subst hut
    rw [goto_place_self, copy_of_prep_none hp] at hu
    cases hu
  · rw [goto_place_of_ne hut] at hu
    exact hu

theorem Views.goto (h : Views m) (hp : p.prep = none) : Views (m.goto t p) :=
  h.retag rfl rfl (prep_goto hp) (held_goto hp) (fun _ _ _ => rfl)
    (fun _ _ q hq => ⟨q, hq, rfl, rfl⟩) fun _ _ p hp => ⟨p, hp⟩

/-! ## Stores -/

variable {off : Nat} {bytes : List UInt8}

theorem storeAt_mem_self :
    (m.storeAt g i f off bytes).mem f i = writeBytes (m.mem f i) off bytes := by
  change update m.mem f (update (m.mem f) i _) f i = _
  rw [update_self, update_self]

theorem storeAt_mem_of_ne {x : Nat} {j : Part}
    (h : ¬(x = f ∧ j = i)) : (m.storeAt g i f off bytes).mem x j = m.mem x j := by
  change update m.mem f (update (m.mem f) i _) x j = _
  by_cases hx : x = f
  · subst hx
    rw [update_self, update_of_ne fun hj => h ⟨rfl, hj⟩]
  · rw [update_of_ne hx]

theorem storeAt_view_self :
    (m.storeAt g i f off bytes).view g i = writeBytes (m.view g i) off bytes := by
  change update m.view g (update (m.view g) i _) g i = _
  rw [update_self, update_self]

theorem storeAt_view_of_ne {x : Group} {j : Part}
    (h : ¬(x = g ∧ j = i)) : (m.storeAt g i f off bytes).view x j = m.view x j := by
  change update m.view g (update (m.view g) i _) x j = _
  by_cases hx : x = g
  · subst hx
    rw [update_self, update_of_ne fun hj => h ⟨rfl, hj⟩]
  · rw [update_of_ne hx]

/-- A store through an entry no other group shares, and that no break in flight has copied. -/
theorem Views.storeAt (h : Views m) (hi : Inv m) (hp : m.entry g i = some pte)
    (hsole : pte.isShared = false → ∀ g' q, m.entry g' i = some q → q.frame = pte.frame → g' = g)
    (hnc : m.NoCopyOf g i pte.frame) (off : Nat) (bytes : List UInt8) :
    Views (m.storeAt g i pte.frame off bytes) where
  page := by
    intro g' j q hq hpriv
    have hq' : m.entry g' j = some q := hq
    by_cases hgj : g' = g ∧ j = i
    · obtain ⟨rfl, rfl⟩ := hgj
      have hqp : q = pte := Option.some.inj (hq'.symm.trans hp)
      subst hqp
      rw [storeAt_mem_self, storeAt_view_self, h.page g' j q hp hpriv]
    · rw [storeAt_view_of_ne hgj]
      by_cases hpage : q.frame = pte.frame ∧ j = i
      · -- another group on the page stored to: then the page is shared by design
        obtain ⟨hqf, rfl⟩ := hpage
        have hdesign := hi.designed g' g j q pte hq' hp hqf
        have hgg := hsole (hdesign.symm.trans hpriv) g' q hq' hqf
        exact absurd ⟨hgg, rfl⟩ hgj
      · rw [storeAt_mem_of_ne hpage]
        exact h.page g' j q hq' hpriv
  copy := by
    intro u prep x j q hu hc hcop hq hqf hpriv
    have hq' : m.entry prep.group j = some q := hq
    have hxf : x ≠ pte.frame := by
      rintro rfl
      exact hi.not_held (refers_of_entry hp) ⟨u, (copy_of_prep hu).trans hc⟩
    rw [storeAt_mem_of_ne fun hpage => hxf hpage.1]
    by_cases hgj : prep.group = g ∧ j = i
    · obtain ⟨hg, rfl⟩ := hgj
      have hqp : q = pte := Option.some.inj (hq'.symm.trans (hg ▸ hp))
      have hno := hnc u prep hu hg (hqp ▸ hqf.symm) (by rw [hc]; exact Option.some_ne_none x)
      exact absurd (hno.symm.trans hcop) Bool.false_ne_true
    · rw [storeAt_view_of_ne hgj]
      exact h.copy u prep x j q hu hc hcop hq' hqf hpriv
  present := h.present
  unfree := h.unfree
  uncopied := h.uncopied

/-! ## The two halves of a break -/

/-- The break a place shows after one has begun at `t`: the new one there, and those that were there. -/
theorem prep_of_goto {prep prep' : CowPrep} {u : Nat} (hp : p.prep = some prep)
    (hplace : m'.place = m.place) (hu : ((m'.goto t p).place u).prep = some prep') :
    (u = t ∧ prep' = prep) ∨ (u ≠ t ∧ (m.place u).prep = some prep') := by
  by_cases hut : u = t
  · subst hut
    rw [goto_place_self, hp] at hu
    exact Or.inl ⟨rfl, (Option.some.inj hu).symm⟩
  · rw [goto_place_of_ne hut, hplace] at hu
    exact Or.inr ⟨hut, hu⟩

theorem held_of_goto {x : Nat} (hplace : m'.place = m.place)
    (hx : (m'.goto t p).held x) : m.held x ∨ p.copy = some x := by
  obtain ⟨u, hu⟩ := hx
  by_cases hut : u = t
  · subst hut
    rw [goto_place_self] at hu
    exact Or.inr hu
  · rw [goto_place_of_ne hut, hplace] at hu
    exact Or.inl ⟨u, hu⟩

/-- A mapped frame is neither free nor a copy in flight. -/
theorem Inv.mapped_frame (hi : Inv m) (hp : m.entry g i = some pte) :
    m.free pte.frame = false ∧ ¬ m.held pte.frame := by
  refine ⟨?_, hi.not_held (refers_of_entry hp)⟩
  have hpos := hi.refcount_pos (refers_of_entry hp)
  by_contra hfree
  have hzero := hi.unused _ (Bool.not_eq_false _ ▸ hfree)
  omega

/-- A break begins that copies nothing. -/
theorem Views.beginUncopied (h : Views m) (hi : Inv m)
    (hp : m.entry g i = some pte) (hprep : p.prep = some prep) (hg : prep.group = g)
    (hf : prep.frame = pte.frame) (hnone : prep.copy = none) : Views (m.goto t p) := by
  obtain ⟨hnfree, hnheld⟩ := hi.mapped_frame hp
  have hheld : ∀ x, (m.goto t p).held x → m.held x := by
    intro x hx
    refine (held_of_goto rfl hx).resolve_right fun hcopy => ?_
    rw [copy_of_prep hprep, hnone] at hcopy
    cases hcopy
  exact {
    page := h.page
    copy := by
      intro u prep' x j q hu hc
      obtain ⟨_, rfl⟩ | ⟨_, hold⟩ := prep_of_goto hprep rfl hu
      · rw [hnone] at hc
        cases hc
      · exact h.copy u prep' x j q hold hc
    present := by
      intro u prep' hu
      obtain ⟨_, rfl⟩ | ⟨_, hold⟩ := prep_of_goto hprep rfl hu
      · exact ⟨i, pte, hg ▸ hp⟩
      · exact h.present u prep' hold
    unfree := by
      intro u prep' hu
      obtain ⟨_, rfl⟩ | ⟨_, hold⟩ := prep_of_goto hprep rfl hu
      · exact hf ▸ hnfree
      · exact h.unfree u prep' hold
    uncopied := by
      intro u prep' hu hh
      obtain ⟨_, rfl⟩ | ⟨_, hold⟩ := prep_of_goto hprep rfl hu
      · exact hnheld (hf ▸ hheld _ hh)
      · exact h.uncopied u prep' hold (hheld _ hh) }

/-- A break begins with a copy in the frame `f`, taken from the free ones. -/
theorem Views.beginCopied (h : Views m) (hi : Inv m)
    (hp : m.entry g i = some pte) (hprep : p.prep = some prep) (hg : prep.group = g)
    (hf : prep.frame = pte.frame) (hcopy : prep.copy = some f) (hfree : m.free f = true) :
    Views ({ m.setRefcount f 1 with
        free := update m.free f false
        mem := update m.mem f fun j =>
          if prep.copied j then m.mem pte.frame j else m.mem f j }.goto t p) := by
  obtain ⟨hnfree, hnheld⟩ := hi.mapped_frame hp
  obtain ⟨hfheld, hpairs, _⟩ := hi.of_free hfree
  have hfno := hi.not_refers_of_pairs hpairs
  have hfp : pte.frame ≠ f := fun heq => hfno g (heq ▸ refers_of_entry hp)
  have hmem : ∀ x, x ≠ f → update m.mem f (fun j =>
      if prep.copied j then m.mem pte.frame j else m.mem f j) x = m.mem x := fun x hx =>
    update_of_ne hx ..
  -- the breaks that were there read frames in use, so none reads `f`
  have hold_ne : ∀ u prep', (m.place u).prep = some prep' → prep'.frame ≠ f := by
    intro u prep' hold heq
    have huf := h.unfree u prep' hold
    rw [heq, hfree] at huf
    cases huf
  have hheld : ∀ x, ({ m.setRefcount f 1 with
      free := update m.free f false
      mem := update m.mem f fun j =>
        if prep.copied j then m.mem pte.frame j else m.mem f j }.goto t p).held x →
      m.held x ∨ x = f := by
    intro x hx
    refine (held_of_goto (m := m) rfl hx).imp_right fun hx => ?_
    rw [copy_of_prep hprep, hcopy] at hx
    exact (Option.some.inj hx).symm
  exact {
    page := by
      intro g' j q hq hpriv
      have hne : q.frame ≠ f := fun heq => hfno g' (heq ▸ refers_of_entry hq)
      change update m.mem f _ q.frame j = m.view g' j
      rw [hmem _ hne]
      exact h.page g' j q hq hpriv
    copy := by
      intro u prep' x j q hu hc hcop hq hqf hpriv
      change update m.mem f _ x j = m.view prep'.group j
      obtain ⟨_, rfl⟩ | ⟨_, hold⟩ := prep_of_goto (m := m) hprep rfl hu
      · rw [hcopy, Option.some.injEq] at hc
        subst hc
        rw [update_self, if_pos hcop]
        have hpage := h.page prep'.group j q hq hpriv
        rw [hqf, hf] at hpage
        exact hpage
      · have hxf : x ≠ f := by
          rintro rfl
          exact hfheld ⟨u, (copy_of_prep hold).trans hc⟩
        rw [hmem x hxf]
        exact h.copy u prep' x j q hold hc hcop hq hqf hpriv
    present := by
      intro u prep' hu
      obtain ⟨_, rfl⟩ | ⟨_, hold⟩ := prep_of_goto (m := m) hprep rfl hu
      · exact ⟨i, pte, hg ▸ hp⟩
      · exact h.present u prep' hold
    unfree := by
      intro u prep' hu
      change update m.free f false prep'.frame = false
      obtain ⟨_, rfl⟩ | ⟨_, hold⟩ := prep_of_goto (m := m) hprep rfl hu
      · rw [hf, update_of_ne hfp]
        exact hnfree
      · rw [update_of_ne (hold_ne u prep' hold)]
        exact h.unfree u prep' hold
    uncopied := by
      intro u prep' hu hh
      obtain ⟨_, rfl⟩ | ⟨_, hold⟩ := prep_of_goto (m := m) hprep rfl hu
      · rw [hf] at hh
        exact (hheld _ hh).elim hnheld hfp
      · exact (hheld _ hh).elim (h.uncopied u prep' hold) (hold_ne u prep' hold) }

variable {alloc : Option Nat}

/-- The slow half: its copies are what the pages hold. -/
theorem Views.prepareThen (h : Views m) (hi : Inv m) {mode : Break}
    {next : CowPrep → CowPlace} (ht : (m.place t).prep = none) (halloc : m.canAlloc alloc = true)
    (hnext : ∀ prep, (next prep).prep = some prep) :
    Views (m.prepareThen t g i mode alloc next) := by
  unfold CowState.prepareThen
  split
  next => exact h.goto rfl
  next prep m' hprep =>
  obtain ⟨pte, hp, _, hg, hmode, hf, hcase⟩ := prepareCow_cases hprep
  obtain ⟨hnone, rfl⟩ | ⟨f, hcopy, rfl, hcopied, rfl⟩ := hcase
  · exact h.beginUncopied hi hp (hnext prep) hg hf hnone
  · exact h.beginCopied hi hp (hnext prep) hg hf hcopy halloc

/-- Every part of the group keeps its page, or moves to the copy of it. -/
theorem Views.installCopy (h : Views m) (hi : Inv m)
    (ht : (m.place t).prep = some prep) (hc : prep.copy = some f) (hp : p.prep = none) :
    Views ((m.installCopy prep f).goto t p) := by
  have hcopy : (m.place t).copy = some f := (copy_of_prep ht).trans hc
  by_cases hins : ∀ i, m.installs prep i = false
  · unfold CowState.installCopy
    rw [if_pos hins]
    have hff : m.freeFrame f = { m.setRefcount f 0 with free := update m.free f true } := by
      unfold freeFrame
      rw [if_pos (hi.law.copies f ⟨t, hcopy⟩).1]
    rw [hff]
    refine h.retag rfl rfl (prep_goto hp) (held_goto hp) ?_ (fun _ _ q hq => ⟨q, hq, rfl, rfl⟩)
      fun _ _ q hq => ⟨q, hq⟩
    intro u prep' hu
    refine update_of_ne ?_ ..
    intro heq
    exact h.uncopied u prep' hu (heq ▸ ⟨t, hcopy⟩)
  · have hent := installCopy_entry (f := f) hins
    have hrest : (m.installCopy prep f).mem = m.mem ∧ (m.installCopy prep f).view = m.view ∧
        (m.installCopy prep f).free = m.free := by
      unfold CowState.installCopy
      rw [if_neg hins]
      dsimp only
      split
      · exact ⟨rfl, rfl, rfl⟩
      · unfold refDec
        split <;> exact ⟨rfl, rfl, rfl⟩
    obtain ⟨hmem, hview, hfree⟩ := hrest
    have hplace : ((m.installCopy prep f).goto t p).place = (m.goto t p).place := by
      change update (m.installCopy prep f).place t p = update m.place t p
      rw [installCopy_place]
    have hprep : ∀ u prep', (((m.installCopy prep f).goto t p).place u).prep = some prep' →
        (m.place u).prep = some prep' := by
      rw [hplace]
      exact prep_goto hp
    have hheld : ∀ x, ((m.installCopy prep f).goto t p).held x → m.held x := by
      intro x hx
      unfold held at hx
      rw [hplace] at hx
      exact held_goto hp x hx
    -- an entry now: what it was, or on the copy of the page it was on
    have hof : ∀ g' j q, (m.installCopy prep f).entry g' j = some q → m.entry g' j = some q ∨
        (g' = prep.group ∧ q.frame = f ∧ prep.copied j = true ∧ ∃ p₀, m.entry g' j = some p₀ ∧
          p₀.frame = prep.frame ∧ p₀.isShared = q.isShared) := by
      intro g' j q hq
      rw [hent] at hq
      by_cases hg : g' = prep.group
      · subst hg
        obtain ⟨p₀, q₀, hp₀, _, hf₀, hnew, hq₀⟩ | hsame := replaced_self m prep (copyOver prep f) j
        · have hqq : q₀ = q := Option.some.inj (hq₀.symm.trans hq)
          obtain ⟨hcop, hq₁⟩ := copyOver_eq_some hnew
          refine Or.inr ⟨rfl, ?_, hcop, p₀, hp₀, hf₀, ?_⟩
          · rw [← hqq, hq₁]
          · rw [← hqq, hq₁]
            cases prep.mode <;> rfl
        · exact Or.inl (hsame.symm.trans hq)
      · rw [replaced_of_ne hg] at hq
        exact Or.inl hq
    exact {
      page := by
        intro g' j q hq hpriv
        change (m.installCopy prep f).mem q.frame j = (m.installCopy prep f).view g' j
        rw [hmem, hview]
        obtain hold | ⟨rfl, hqf, hcop, p₀, hp₀, hf₀, hs₀⟩ := hof g' j q hq
        · exact h.page g' j q hold hpriv
        · rw [hqf]
          exact h.copy t prep f j p₀ ht hc hcop hp₀ hf₀ (hs₀.trans hpriv)
      copy := by
        intro u prep' x j q hu hc' hcop hq hqf hpriv
        have hu' := hprep u prep' hu
        change (m.installCopy prep f).mem x j = (m.installCopy prep f).view prep'.group j
        rw [hmem, hview]
        obtain hold | ⟨_, hqf', _⟩ := hof prep'.group j q hq
        · exact h.copy u prep' x j q hu' hc' hcop hold hqf hpriv
        · -- the copy was not mapped when the other break read the entries
          have hheldf : m.held prep'.frame := ⟨t, by rw [← hqf, hqf']; exact hcopy⟩
          exact absurd hheldf (h.uncopied u prep' hu')
      present := by
        intro u prep' hu
        obtain ⟨j, q, hq⟩ := h.present u prep' (hprep u prep' hu)
        change ∃ j q, (m.installCopy prep f).entry prep'.group j = some q
        rw [hent]
        by_cases hg : prep'.group = prep.group
        · rw [hg] at hq ⊢
          obtain ⟨_, q₀, _, _, _, _, hq₀⟩ | hsame := replaced_self m prep (copyOver prep f) j
          · exact ⟨j, q₀, hq₀⟩
          · exact ⟨j, q, hsame.trans hq⟩
        · rw [replaced_of_ne hg]
          exact ⟨j, q, hq⟩
      unfree := by
        intro u prep' hu
        change (m.installCopy prep f).free prep'.frame = false
        rw [hfree]
        exact h.unfree u prep' (hprep u prep' hu)
      uncopied := fun u prep' hu hh => h.uncopied u prep' (hprep u prep' hu) (hheld _ hh) }

theorem Views.installInPlace (h : Views m) (hp : p.prep = none) :
    Views ((m.installInPlace prep).goto t p) := by
  have hsame : (m.installInPlace prep).mem = m.mem ∧ (m.installInPlace prep).view = m.view ∧
      (m.installInPlace prep).free = m.free ∧ (m.installInPlace prep).place = m.place := by
    unfold CowState.installInPlace
    split
    · exact ⟨rfl, rfl, rfl, rfl⟩
    · split <;> exact ⟨rfl, rfl, rfl, rfl⟩
  obtain ⟨hmem, hview, hfree, hplace⟩ := hsame
  have hgoto : ((m.installInPlace prep).goto t p).place = (m.goto t p).place := by
    change update (m.installInPlace prep).place t p = update m.place t p
    rw [hplace]
  have hent : (m.installInPlace prep).entry = m.entry ∨
      (m.installInPlace prep).entry
        = m.replaced prep fun _ pte => some (Break.write.flags pte) := by
    unfold CowState.installInPlace
    split
    · exact Or.inl rfl
    · split
      · exact Or.inl rfl
      · exact Or.inr rfl
  refine h.retag hmem hview ?_ ?_ (fun _ _ _ => congrFun hfree _) ?_ ?_
  · rw [hgoto]
    exact prep_goto hp
  · intro x hx
    unfold held at hx
    rw [hgoto] at hx
    exact held_goto hp x hx
  · intro g j q hq
    change (m.installInPlace prep).entry g j = some q at hq
    obtain he | he := hent
    · rw [he] at hq
      exact ⟨q, hq, rfl, rfl⟩
    · rw [he] at hq
      by_cases hg : g = prep.group
      · subst hg
        obtain ⟨p₀, q₀, hp₀, _, _, hnew, hq₀⟩ | hsame :=
          replaced_self m prep (fun _ pte => some (Break.write.flags pte)) j
        · cases hnew
          have hqq := Option.some.inj (hq.symm.trans hq₀)
          exact ⟨p₀, hp₀, by rw [hqq]; rfl, by rw [hqq]; rfl⟩
        · exact ⟨q, hsame.symm.trans hq, rfl, rfl⟩
      · rw [replaced_of_ne hg] at hq
        exact ⟨q, hq, rfl, rfl⟩
  · intro g j p₁ hp₁
    change ∃ q, (m.installInPlace prep).entry g j = some q
    obtain he | he := hent
    · rw [he]
      exact ⟨p₁, hp₁⟩
    · rw [he]
      by_cases hg : g = prep.group
      · subst hg
        obtain ⟨_, q₀, _, _, _, _, hq₀⟩ | hsame :=
          replaced_self m prep (fun _ pte => some (Break.write.flags pte)) j
        · exact ⟨q₀, hq₀⟩
        · exact ⟨p₁, hsame.trans hp₁⟩
      · rw [replaced_of_ne hg]
        exact ⟨p₁, hp₁⟩

theorem Views.installCow (h : Views m) (hi : Inv m)
    (ht : (m.place t).prep = some prep) (hp : p.prep = none) :
    Views ((m.installCow prep).goto t p) := by
  unfold CowState.installCow
  cases hc : prep.copy with
  | none => exact h.installInPlace hp
  | some f => exact h.installCopy hi ht hc hp

/-! ## Forks -/

/-- The parent's entry changes its flags, and the child's page reads as the parent's. -/
theorem Views.share (h : Views m) {q₀ q : PageTableEntry} (hp : m.entry parent i = some pte)
    (hne : child ≠ parent) (hnochild : ∀ t prep, (m.place t).prep = some prep → prep.group ≠ child)
    (hf₀ : q₀.frame = pte.frame) (hs₀ : q₀.isShared = pte.isShared)
    (hf : q.frame = pte.frame) (hs : q.isShared = pte.isShared)
    (hent : m'.entry = ((m.writePte parent i q₀).writePte child i q).entry)
    (hview : m'.view = update m.view child
      (update (m.view child) i (m.view parent i)))
    (hmem : m'.mem = m.mem) (hfree : m'.free = m.free) (hplace : m'.place = m.place) :
    Views m' := by
  -- what stands at a part now
  have hof : ∀ g j r, m'.entry g j = some r → (g = child ∧ j = i ∧ r = q) ∨
      (¬(g = child ∧ j = i) ∧
        ∃ r₀, m.entry g j = some r₀ ∧ r₀.frame = r.frame ∧ r₀.isShared = r.isShared) := by
    intro g j r hr
    rw [hent] at hr
    obtain hnew | ⟨hother, hr⟩ := writePte_cases hr
    · exact Or.inl hnew
    · refine Or.inr ⟨fun heq => hother.elim (fun hg => hg heq.1) fun hj => hj heq.2, ?_⟩
      obtain ⟨rfl, rfl, rfl⟩ | ⟨_, hold⟩ := writePte_cases hr
      · exact ⟨pte, hp, hf₀.symm, hs₀.symm⟩
      · exact ⟨r, hold, rfl, rfl⟩
  have hviewof : ∀ g j, ¬(g = child ∧ j = i) → m'.view g j = m.view g j := by
    intro g j hgj
    rw [hview]
    by_cases hg : g = child
    · subst hg
      rw [update_self, update_of_ne fun hj => hgj ⟨rfl, hj⟩]
    · rw [update_of_ne hg]
  have hprep : ∀ t prep, (m'.place t).prep = some prep → (m.place t).prep = some prep := by
    rw [hplace]
    exact fun _ _ => id
  have hheld : ∀ x, m'.held x → m.held x := by
    intro x hx
    unfold held at hx
    rw [hplace] at hx
    exact hx
  exact {
    page := by
      intro g j r hr hpriv
      rw [hmem]
      obtain ⟨rfl, rfl, rfl⟩ | ⟨hgj, r₀, hr₀, hrf, hrs⟩ := hof g j r hr
      · rw [hview, update_self, update_self, hf]
        exact h.page parent j pte hp (hs.symm.trans hpriv)
      · rw [hviewof g j hgj, ← hrf]
        exact h.page g j r₀ hr₀ (hrs.trans hpriv)
    copy := by
      intro t prep x j r ht hc hcop hr hrf hpriv
      have ht' := hprep t prep ht
      have hgroup := hnochild t prep ht'
      rw [hmem, hviewof prep.group j fun hgj => hgroup hgj.1]
      obtain ⟨hg, _⟩ | ⟨_, r₀, hr₀, hrf₀, hrs₀⟩ := hof prep.group j r hr
      · exact absurd hg hgroup
      · exact h.copy t prep x j r₀ ht' hc hcop hr₀ (hrf₀.trans hrf) (hrs₀.trans hpriv)
    present := by
      intro t prep ht
      have ht' := hprep t prep ht
      obtain ⟨j, r, hr⟩ := h.present t prep ht'
      rw [hent, writePte_group (hnochild t prep ht')]
      by_cases hg : prep.group = parent
      · by_cases hj : j = i
        · exact ⟨i, q₀, hg ▸ writePte_self⟩
        · refine ⟨j, r, ?_⟩
          rw [hg] at hr ⊢
          exact (writePte_part hj).trans hr
      · rw [writePte_group hg]
        exact ⟨j, r, hr⟩
    unfree := fun t prep ht => by
      rw [hfree]
      exact h.unfree t prep (hprep t prep ht)
    uncopied := fun t prep ht hh => h.uncopied t prep (hprep t prep ht) (hheld _ hh) }

theorem Views.clonePart (hne : child ≠ parent) {skip : Part → Bool} {failAt : Option Part}
    {acc : CloneAcc} (h : Views acc.m)
    (hnochild : ∀ t prep, (acc.m.place t).prep = some prep → prep.group ≠ child) :
    Views (clonePart parent child skip failAt acc i).m ∧
      (clonePart parent child skip failAt acc i).m.place = acc.m.place := by
  unfold Cow.clonePart
  split
  · exact ⟨h, rfl⟩
  · split
    · exact ⟨h, rfl⟩
    next pte hpte =>
    have hp := given_eq_some hpte
    split
    next => exact ⟨h, rfl⟩
    next m₁ seen₁ hcount =>
    have hc := countedOnce_of_ok hcount
    obtain ⟨_, hfree, _, hplace⟩ := hc.same
    obtain ⟨hmem, hview⟩ := hc.contents
    have hent : ∀ r, (m₁.writePte parent i r).entry = (acc.m.writePte parent i r).entry := by
      intro r
      unfold CowState.writePte
      rw [hc.entry]
    dsimp only
    split
    next =>
      refine ⟨?_, hplace⟩
      refine h.retag hmem hview ?_ ?_ (fun _ _ _ => congrFun hfree _) ?_ ?_
      · intro t prep ht
        rw [← hplace]
        exact ht
      · rintro x ⟨t, ht⟩
        exact ⟨t, by rw [← hplace]; exact ht⟩
      · intro g j q hq
        rw [hent] at hq
        obtain ⟨rfl, rfl, rfl⟩ | ⟨_, hold⟩ := writePte_cases hq
        · exact ⟨pte, hp, pte.downgraded_frame.symm, pte.downgraded_isShared.symm⟩
        · exact ⟨q, hold, rfl, rfl⟩
      · intro g j p hpj
        rw [hent]
        by_cases hg : g = parent
        · subst hg
          by_cases hj : j = i
          · subst hj
            exact ⟨_, writePte_self⟩
          · exact ⟨p, (writePte_part hj).trans hpj⟩
        · exact ⟨p, (congrFun (writePte_group hg) j).trans hpj⟩
    next =>
    refine ⟨?_, hplace⟩
    refine h.share (q := pte.forChild) hp hne hnochild pte.downgraded_frame
      pte.downgraded_isShared pte.forChild_frame pte.forChild_isShared ?_ ?_ hmem hfree
      hplace
    · change ((m₁.writePte parent i pte.downgraded).writePte child i pte.forChild).entry = _
      unfold CowState.writePte
      rw [hc.entry]
    · change update m₁.view child _ = _
      rw [show ((m₁.writePte parent i pte.downgraded).writePte child i
        pte.forChild).view = m₁.view from rfl, hview]

theorem Views.cloneFrameGroup (h : Views m) (hne : child ≠ parent)
    (hc : ∀ i, m.entry child i = none) {skip : Part → Bool} {failAt : Option Part} :
    Views (cloneFrameGroup m parent child skip failAt).1 := by
  -- no break is in flight in a group nothing is mapped in
  have hnochild : ∀ t prep, (m.place t).prep = some prep → prep.group ≠ child := by
    rintro t prep ht rfl
    obtain ⟨i, q, hq⟩ := h.present t prep ht
    rw [hc i] at hq
    cases hq
  have hloop : ∀ (parts : List Part) (acc : CloneAcc), Views acc.m → acc.m.place = m.place →
      Views (parts.foldl (Cow.clonePart parent child skip failAt) acc).m := by
    intro parts
    induction parts with
    | nil => exact fun _ hacc _ => hacc
    | cons i parts ih =>
      intro acc hacc hplace
      have hno : ∀ t prep, (acc.m.place t).prep = some prep → prep.group ≠ child := by
        rw [hplace]
        exact hnochild
      have hturn : Views (Cow.clonePart parent child skip failAt acc i).m ∧
          (Cow.clonePart parent child skip failAt acc i).m.place = acc.m.place :=
        Views.clonePart hne hacc hno
      obtain ⟨hnext, hsame⟩ := hturn
      exact ih _ hnext (hsame.trans hplace)
  have hall := hloop [0, 1, 2, 3] ⟨m, [], none⟩ h rfl
  unfold Cow.cloneFrameGroup
  dsimp only
  split <;> exact hall

/-! ## Every run -/

theorem Views.forceSection (h : Views m) (hi : Inv m) (w : ForcedWrite) (attempts : Nat)
    (hnc : ∀ pte, m.entry w.group w.part = some pte → m.refcount pte.frame = 1 →
      m.NoCopyOf w.group w.part pte.frame) : Views (m.forceSection t w attempts) := by
  cases attempts with
  | zero => exact h.goto rfl
  | succ attempts =>
    simp only [CowState.forceSection]
    split
    · exact h.goto rfl
    next pte hp =>
    split
    · exact h.goto rfl
    · split
      next hone =>
        refine Views.goto (h.storeAt hi hp ?_ (hnc pte hp hone) _ _) rfl
        intro _ g' q hq hqf
        exact hi.sole (refers_of_entry hp) (Nat.le_of_eq hone) (hqf ▸ refers_of_entry hq)
      next => exact h.goto rfl

theorem Views.advance (h : Views m) (hi : Inv m)
    (halloc : m.canAlloc alloc = true) (hok : m.StoresApart (.advance t alloc))
    (hs : m.advance t alloc = some m') : Views m' := by
  unfold CowState.advance at hs
  unfold StoresApart at hok
  dsimp only at hok
  cases hp : m.place t <;> rw [hp] at hs hok <;> dsimp only at hs hok <;> cases hs
  case install prep => exact h.installCow hi (by rw [hp]; rfl) rfl
  case force w attempts => exact h.forceSection hi w attempts hok
  case forcePrepare w attempts =>
    exact h.prepareThen hi (by rw [hp]; rfl) halloc fun _ => rfl
  case forceInstall w attempts prep => exact h.installCow hi (by rw [hp]; rfl) rfl

theorem prep_of_fromUser {m'' : CowState} (h : m.fromUser t m'' = some m') :
    (m.place t).prep = none ∧ m' = m'' := by
  unfold fromUser at h
  split at h
  next r hr =>
    rw [hr]
    exact ⟨rfl, (Option.some.inj h).symm⟩
  next => cases h

/-- **The step lemma.** -/
theorem Views.step {a : CowAction} (h : Views m) (hi : Inv m) (hok : m.StoresApart a)
    (hs : m.step a = some m') : Views m' := by
  cases a with
  | store g i offset bytes =>
    simp only [CowState.step, CowState.store] at hs
    split at hs
    · cases hs
    next pte hp =>
    split at hs
    next hw =>
      cases hs
      refine h.storeAt hi hp ?_ (hok pte hp) offset bytes
      intro hpriv g' q hq hqf
      by_contra hgg
      have hro := hi.exclusive g g' i pte q (Ne.symm hgg) hp hq hqf.symm hpriv
      exact Bool.false_ne_true (hro.symm.trans hw.1)
    next => cases hs
  | fault t g i alloc =>
    simp only [CowState.step] at hs
    split at hs
    next halloc =>
      obtain ⟨ht, rfl⟩ := prep_of_fromUser hs
      exact h.prepareThen hi ht halloc fun _ => rfl
    next => cases hs
  | poke t w =>
    obtain ⟨_, rfl⟩ := prep_of_fromUser hs
    unfold CowState.poke
    split <;> exact h.goto rfl
  | advance t alloc =>
    simp only [CowState.step] at hs
    split at hs
    next halloc => exact h.advance hi halloc hok hs
    next => cases hs
  | clone parent child skip failAt =>
    simp only [CowState.step] at hs
    split at hs
    next hfresh =>
      cases hs
      refine h.cloneFrameGroup ?_ hfresh.2
      intro heq
      exact hfresh.1 (congrArg Prod.fst heq)
    next => cases hs

theorem Init.views (h : Init m) : Views m := by
  have hnone : ∀ t, (m.place t).prep = none := by
    intro t
    obtain ⟨r, hr⟩ := h.user t
    rw [hr]
    rfl
  have habsurd : ∀ {t prep}, (m.place t).prep = some prep → False := by
    intro t prep ht
    rw [hnone t] at ht
    cases ht
  exact {
    page := h.view
    copy := fun _ _ _ _ _ ht => (habsurd ht).elim
    present := fun _ _ ht => (habsurd ht).elim
    unfree := fun _ _ ht => (habsurd ht).elim
    uncopied := fun _ _ ht => (habsurd ht).elim }

/-- The condition on a step: a fork can count and map what it gives, and a store lands on no page that a
break in flight has copied. -/
def Undisturbed (m : CowState) (a : CowAction) : Prop := m.ForkCountable a ∧ m.StoresApart a

theorem installCow_view (prep : CowPrep) : (m.installCow prep).view = m.view := by
  unfold CowState.installCow
  split
  · unfold CowState.installInPlace
    split
    · rfl
    · split <;> rfl
  · unfold CowState.installCopy
    split
    · unfold freeFrame refDec
      split
      · rfl
      · split <;> rfl
    · dsimp only
      split
      · rfl
      · unfold refDec
        split <;> rfl

theorem prepareThen_view {mode : Break} {next : CowPrep → CowPlace} :
    (m.prepareThen t g i mode alloc next).view = m.view := by
  unfold CowState.prepareThen
  split
  next => rfl
  next prep m' hprep =>
    obtain ⟨_, _, _, _, _, _, ⟨_, rfl⟩ | ⟨_, _, _, _, rfl⟩⟩ := prepareCow_cases hprep <;> rfl

/-- A fork gives the child what the parent has, part by part, and takes nothing from anybody. -/
theorem cloneFrameGroup_view (hne : child ≠ parent) {skip : Part → Bool} {failAt : Option Part}
    (g : Group) (j : Part) :
    (cloneFrameGroup m parent child skip failAt).1.view g j = m.view g j ∨
      (g = child ∧ (cloneFrameGroup m parent child skip failAt).1.view g j = m.view parent j) := by
  have hpart : ∀ (acc : CloneAcc) (i : Part) (g : Group) (j : Part),
      (Cow.clonePart parent child skip failAt acc i).m.view g j = acc.m.view g j ∨
        (g = child ∧
          (Cow.clonePart parent child skip failAt acc i).m.view g j = acc.m.view parent j) := by
    intro acc i g j
    unfold Cow.clonePart
    split
    · exact Or.inl rfl
    · split
      · exact Or.inl rfl
      · split
        next => exact Or.inl rfl
        next m₁ seen₁ hcount =>
        have hview := (countedOnce_of_ok hcount).contents.2
        dsimp only
        split
        next => exact Or.inl (congrFun (congrFun hview g) j)
        next =>
        change update m₁.view child (update (m₁.view child) i
          (m₁.view parent i)) g j = _ ∨ g = child ∧ update m₁.view child
            (update (m₁.view child) i (m₁.view parent i)) g j = _
        rw [hview]
        by_cases hg : g = child
        · subst hg
          rw [update_self]
          by_cases hj : j = i
          · subst hj
            rw [update_self]
            exact Or.inr ⟨rfl, rfl⟩
          · rw [update_of_ne hj]
            exact Or.inl rfl
        · rw [update_of_ne hg]
          exact Or.inl rfl
  have hloop : ∀ (parts : List Part) (acc : CloneAcc) (g : Group) (j : Part),
      (parts.foldl (Cow.clonePart parent child skip failAt) acc).m.view g j = acc.m.view g j ∨
        (g = child ∧ (parts.foldl (Cow.clonePart parent child skip failAt) acc).m.view g j
          = acc.m.view parent j) := by
    intro parts
    induction parts with
    | nil => exact fun _ _ _ => Or.inl rfl
    | cons i parts ih =>
      intro acc g j
      have hparent : (Cow.clonePart parent child skip failAt acc i).m.view parent j
          = acc.m.view parent j :=
        (hpart acc i parent j).resolve_right fun heq => hne heq.1.symm
      obtain hsame | ⟨rfl, hgets⟩ := ih (Cow.clonePart parent child skip failAt acc i) g j
      · rw [List.foldl_cons, hsame]
        exact hpart acc i g j
      · exact Or.inr ⟨rfl, hgets.trans hparent⟩
  have hview : (cloneFrameGroup m parent child skip failAt).1
      = (([0, 1, 2, 3] : List Part).foldl (Cow.clonePart parent child skip failAt)
          ⟨m, [], none⟩).m := by
    unfold Cow.cloneFrameGroup
    dsimp only
    split <;> rfl
  rw [hview]
  exact hloop [0, 1, 2, 3] ⟨m, [], none⟩ g j

/-- The bytes a step stores through the entry of part `i` of the group, if it stores there. -/
def storesTo (m : CowState) (g : Group) (i : Part) : CowAction → Option (Nat × List UInt8)
  | .store g' i' offset bytes => if g' = g ∧ i' = i then some (offset, bytes) else none
  | .advance t _ =>
    match m.place t with
    | .force w _ => if w.group = g ∧ w.part = i then some (w.offset, w.bytes) else none
    | _ => none
  | _ => none

/-- **What `view` is.** A step leaves it, or it is a store of this address space to this page, or the
fork that creates the address space and gives it what the parent has. -/
theorem step_view {a : CowAction} (hs : m.step a = some m') (g : Group) (i : Part) :
    m'.view g i = m.view g i ∨
      (∃ store ∈ m.storesTo g i a, m'.view g i = writeBytes (m.view g i) store.1 store.2) ∨
      ∃ parent child skip failAt, a = .clone parent child skip failAt ∧ g = (child, parent.2) ∧
        m'.view g i = m.view parent i := by
  cases a with
  | store g' i' offset bytes =>
    simp only [CowState.step, CowState.store] at hs
    split at hs
    · cases hs
    · split at hs
      · cases hs
        by_cases hgi : g = g' ∧ i = i'
        · obtain ⟨rfl, rfl⟩ := hgi
          exact Or.inr (Or.inl ⟨_, if_pos ⟨rfl, rfl⟩, storeAt_view_self⟩)
        · exact Or.inl (storeAt_view_of_ne hgi)
      · cases hs
  | fault t g' i' alloc =>
    simp only [CowState.step] at hs
    split at hs
    next =>
      obtain ⟨_, rfl⟩ := of_fromUser hs
      exact Or.inl (congrFun (congrFun prepareThen_view g) i)
    next => cases hs
  | poke t w =>
    obtain ⟨_, rfl⟩ := of_fromUser hs
    unfold CowState.poke
    split <;> exact Or.inl rfl
  | advance t alloc =>
    simp only [CowState.step] at hs
    split at hs
    next =>
      unfold CowState.advance at hs
      cases hp : m.place t <;> rw [hp] at hs <;> dsimp only at hs <;> cases hs
      case install prep => exact Or.inl (congrFun (congrFun (installCow_view prep) g) i)
      case force w attempts =>
        cases attempts with
        | zero => exact Or.inl rfl
        | succ attempts =>
          simp only [CowState.forceSection]
          split
          · exact Or.inl rfl
          next pte _ =>
          split
          · exact Or.inl rfl
          · split
            next =>
              by_cases hgi : g = w.group ∧ i = w.part
              · obtain ⟨rfl, rfl⟩ := hgi
                refine Or.inr (Or.inl ⟨(w.offset, w.bytes), ?_,
                  storeAt_view_self (f := pte.frame)⟩)
                unfold storesTo
                dsimp only
                rw [hp]
                exact if_pos ⟨rfl, rfl⟩
              · exact Or.inl (storeAt_view_of_ne (f := pte.frame) hgi)
            next => exact Or.inl rfl
      case forcePrepare w attempts =>
        exact Or.inl (congrFun (congrFun prepareThen_view g) i)
      case forceInstall w attempts prep =>
        exact Or.inl (congrFun (congrFun (installCow_view prep) g) i)
    next => cases hs
  | clone parent child skip failAt =>
    simp only [CowState.step] at hs
    split at hs
    next hfresh =>
      cases hs
      have hne : ((child, parent.2) : Group) ≠ parent := fun heq =>
        hfresh.1 (congrArg Prod.fst heq)
      refine (cloneFrameGroup_view hne g i).imp_right fun hgets => Or.inr ?_
      exact ⟨parent, child, skip, failAt, rfl, hgets.1, hgets.2⟩
    next => cases hs

/-! ## A run that keeps the stores, and one that loses one -/

end CowState

end SlateOS.Mm.Cow
