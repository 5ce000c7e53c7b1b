/-
# SlateOS.Ere.Matches -- every match in turn

`userspace/ere/src/engine.rs`: `Cursor` and the iterators over it. The cursor searches again from where a match ended, one character
on when the match was empty, and drops an empty match that only touches the end of the one before. Positions are counted
in characters; the translation to byte offsets is left out.
-/
import SlateOS.Ere.Leftmost

namespace SlateOS.Ere

/-- `Cursor`, without the subject. -/
structure Cursor where
  next : Nat
  lastEnd : Option Nat
  done : Bool

namespace Regex

variable [CharData]

section

variable (re : Regex) (input : List Ch)

/-- The matches that a search answers by: all of them, or those along guarded paths where it backtracks. -/
def Finding (bol : StartOfLine) (s e : Nat) : Prop :=
  if re.hasBackref then re.GuardedMatchAt input bol s e else re.MatchAt input bol s e

/-- `Cursor::step`, a level of fuel for each round of its loop. -/
def step (nslots : Nat) : Nat → Cursor → Cursor × Option (Except MatchLimit Slots)
  | 0, cur => (cur, none)
  | fuel + 1, cur =>
    if cur.done then (cur, none)
    else
      match re.run input .yes cur.next (max nslots matchSlots) with
      | .error limit => ({ cur with done := true }, some (.error limit))
      | .ok none => ({ cur with done := true }, none)
      | .ok (some slots) =>
        match slots[0]?.join, slots[1]?.join with
        | some start, some stop =>
          if start < stop then (⟨stop, some stop, input.length < stop⟩, some (.ok slots))
          else if cur.lastEnd = some start then step nslots fuel ⟨start + 1, cur.lastEnd, input.length < start + 1⟩
          else (⟨start + 1, some stop, input.length < start + 1⟩, some (.ok slots))
        | _, _ => ({ cur with done := true }, none)

/-- What `find_iter` and `capture_spans_iter` go through, a level of fuel for each item; a step has `rounds` for its
loop. -/
def items (nslots rounds : Nat) : Nat → Cursor → List (Except MatchLimit Slots)
  | 0, _ => []
  | fuel + 1, cur =>
    match re.step input nslots rounds cur with
    | (_, none) => []
    | (cur, some item) => item :: items nslots rounds fuel cur

end

variable {re : Regex} {input : List Ch} {bol : StartOfLine} {nslots : Nat}

theorem WellFormed.start_le_of_matchAt (h : WellFormed re) {s e : Nat} (hmatch : re.MatchAt input bol s e) : s ≤ e := by
  obtain ⟨hs, c, hreach, -, rfl⟩ := matchAt_iff.mp hmatch
  exact (h.since_of_reaches (by unfold allSlots; omega) hs hreach).sp_ge

theorem finding_of_backref (hback : re.hasBackref = true) : re.Finding input bol = re.GuardedMatchAt input bol := by
  funext s e
  exact if_pos hback

theorem finding_of_not_backref (hback : ¬ re.hasBackref = true) : re.Finding input bol = re.MatchAt input bol := by
  funext s e
  exact if_neg hback

theorem Finding.matchAt {s e : Nat} (h : re.Finding input bol s e) : re.MatchAt input bol s e := by
  unfold Finding at h
  split at h
  · exact h.matchAt
  · exact h

/-- Only backtracking is abandoned. -/
theorem hasBackref_of_limit {start : Nat} {limit : MatchLimit} (hrun : re.run input bol start nslots = .error limit) :
    re.hasBackref = true := by
  by_contra hback
  rw [run, if_neg hback] at hrun
  split at hrun
  · cases hrun
  · split at hrun <;> cases hrun

/-- **What a search answers is the leftmost and longest of the matches it answers by.** -/
theorem WellFormed.run_spec (h : WellFormed re) (hslots : 2 ≤ nslots) {start : Nat} {res : Option Slots}
    (hres : re.run input bol start nslots = .ok res) : Answers (re.Finding input bol) (min start input.length) res := by
  by_cases hback : re.hasBackref
  · rw [run, if_pos hback] at hres
    rw [finding_of_backref hback]
    exact h.runBacktrack_spec start hres
  · obtain ⟨res', hres', hanswers⟩ := h.run_answers input bol (by simpa using hback) hslots start
    cases hres.symm.trans hres'
    rwa [finding_of_not_backref hback]

end Regex

/-! ## Stepping over the matches -/

namespace Cursor

variable {input : List Ch} {cur : Cursor}

/-- Where going through the matches of a subject begins. -/
def first : Cursor := ⟨0, none, false⟩

/-- Where the cursor is after a match. -/
def after (input : List Ch) (s e : Nat) : Cursor :=
  let next := if s < e then e else s + 1
  ⟨next, some e, input.length < next⟩

/-- A cursor that is not done is at a position of the subject, and the last match ended by there. -/
structure Ready (input : List Ch) (cur : Cursor) : Prop where
  done : cur.done = decide (input.length < cur.next)
  lastEnd : ∀ x ∈ cur.lastEnd, x ≤ cur.next

theorem ready_first : Ready input first := ⟨by simp [first], by simp [first]⟩

variable (input) in
theorem next_after {s e : Nat} (hle : s ≤ e) :
    s < (after input s e).next ∧ e ≤ (after input s e).next ∧ (s = e ∨ (after input s e).next = e) := by
  unfold after
  split
  · exact ⟨by assumption, Nat.le_refl e, .inr rfl⟩
  · exact ⟨Nat.lt_succ_self s, Nat.le_succ_of_le (by omega), .inl (by omega)⟩

theorem ready_after {s e : Nat} (hle : s ≤ e) : Ready input (after input s e) :=
  ⟨rfl, fun x hx => by cases hx; exact (next_after input hle).2.1⟩

/-- The rounds of its loop that a step may need. -/
def Enough (rounds : Nat) (cur : Cursor) : Prop := 0 < rounds ∧ (cur.lastEnd = some cur.next → 1 < rounds)

/-- Behind an empty match that touches the end of the last, the next round needs no other. -/
theorem Enough.next {rounds s : Nat} (h : Enough (rounds + 1) cur) (hs : cur.next = s) (hbutts : cur.lastEnd = some s)
    (done : Bool) : Enough rounds ⟨s + 1, cur.lastEnd, done⟩ := by
  have hmore := h.2 (by rw [hs]; exact hbutts)
  refine ⟨by omega, fun hcon => ?_⟩
  exact absurd (Option.some.inj (hbutts.symm.trans hcon)) (Nat.ne_of_lt (Nat.lt_succ_self s))

theorem ready_next {s : Nat} (hbutts : cur.lastEnd = some s) : Ready input ⟨s + 1, cur.lastEnd, input.length < s + 1⟩ :=
  ⟨rfl, fun x hx => by cases hbutts.symm.trans hx; exact Nat.le_succ s⟩

variable [CharData]

/-- An item is the span of a match that begins at the cursor or behind it, the longest there, and is not an empty one at
the end of the last; no match begins before it, but for an empty one there, where then no other does. -/
structure Next (re : Regex) (input : List Ch) (cur : Cursor) (s e : Nat) : Prop where
  next_le : cur.next ≤ s
  finding : re.Finding input .yes s e
  longest : ∀ e', re.Finding input .yes s e' → e' ≤ e
  apart : cur.lastEnd = some s → s < e
  leftmost : ∀ s' e', cur.next ≤ s' → re.Finding input .yes s' e' → s ≤ s' ∨ (cur.lastEnd = some s' ∧ s' = e')

/-- What a step answers. -/
def Steps (re : Regex) (input : List Ch) (cur : Cursor) : Cursor × Option (Except MatchLimit Slots) → Prop
  | (_, none) => ∀ s e, cur.next ≤ s → re.Finding input .yes s e → cur.lastEnd = some s ∧ s = e
  | (cur', some (.ok slots)) => ∃ s e, Regex.Spans slots s e ∧ cur.Next re input s e ∧ cur' = .after input s e
  | (cur', some (.error _)) => re.hasBackref = true ∧ cur'.done = true

end Cursor

namespace Regex

variable [CharData] {re : Regex} {input : List Ch} {bol : StartOfLine} {nslots : Nat} {cur : Cursor}

variable (nslots) in
/-- **A step answers the next match.** -/
theorem WellFormed.step_spec (h : WellFormed re) (rounds : Nat) (hcur : cur.Ready input) (hrounds : Cursor.Enough rounds cur) :
    cur.Steps re input (re.step input nslots rounds cur) := by
  induction rounds generalizing cur with
  | zero => exact absurd hrounds.1 (Nat.lt_irrefl 0)
  | succ rounds ih =>
    have hpast : ∀ s e, re.Finding input .yes s e → s ≤ input.length := fun s e hfind => hfind.matchAt.1
    rw [step]
    split
    next hdone =>
      intro s e hs hfind
      rw [hcur.done, decide_eq_true_iff] at hdone
      exact absurd (hpast s e hfind) (by omega)
    next hdone =>
      rw [hcur.done, decide_eq_true_iff] at hdone
      have hmin : min cur.next input.length = cur.next := Nat.min_eq_left (Nat.not_lt.mp hdone)
      split
      next hrun => exact ⟨hasBackref_of_limit hrun, rfl⟩
      next hrun =>
        have hanswers := h.run_spec (Nat.le_max_right nslots matchSlots) hrun
        rw [hmin] at hanswers
        exact fun s e hs hfind => absurd hfind (hanswers s e hs)
      next slots hrun =>
        have hanswers := h.run_spec (Nat.le_max_right nslots matchSlots) hrun
        rw [hmin] at hanswers
        obtain ⟨s, e, hspans, hfirst⟩ := hanswers
        have hle : s ≤ e := h.start_le_of_matchAt hfirst.isMatch.matchAt
        simp only [hspans.1, hspans.2, Option.join_some]
        split
        next hlt =>
          refine ⟨s, e, hspans, ⟨hfirst.start_le, hfirst.isMatch, hfirst.longest, fun _ => hlt, fun s' e' hs' hfind =>
            .inl (hfirst.leftmost s' e' hs' hfind)⟩, ?_⟩
          simp [Cursor.after, hlt]
        next hempty =>
          obtain rfl : s = e := by omega
          split
          next hbutts =>
            -- the empty match is dropped, and nothing of it is left for the next round
            have heq : cur.next = s := Nat.le_antisymm hfirst.start_le (hcur.lastEnd s hbutts)
            have hdropped : ∀ s' e', s' = s → re.Finding input .yes s' e' → cur.lastEnd = some s' ∧ s' = e' := by
              rintro s' e' rfl hfind
              exact ⟨hbutts, Nat.le_antisymm (h.start_le_of_matchAt hfind.matchAt) (hfirst.longest e' hfind)⟩
            have hnext := ih (Cursor.ready_next hbutts) (hrounds.next heq hbutts _)
            generalize re.step input nslots rounds ⟨s + 1, cur.lastEnd, input.length < s + 1⟩ = out at hnext
            rcases out with ⟨cur', - | ⟨limit | slots'⟩⟩
            · intro s' e' hs' hfind
              rcases Nat.eq_or_lt_of_le (heq ▸ hs') with hs' | hlt
              · exact hdropped s' e' hs'.symm hfind
              · exact hnext s' e' hlt hfind
            · exact hnext
            · obtain ⟨s', e', hspans', hnext', rfl⟩ := hnext
              refine ⟨s', e', hspans', ⟨?_, hnext'.finding, hnext'.longest, hnext'.apart, fun t u ht hfind => ?_⟩, rfl⟩
              · have hge : s + 1 ≤ s' := hnext'.next_le
                omega
              · rcases Nat.eq_or_lt_of_le (heq ▸ ht) with ht | hlt
                · exact .inr (hdropped t u ht.symm hfind)
                · exact hnext'.leftmost t u hlt hfind
          next hapart =>
            refine ⟨s, s, hspans, ⟨hfirst.start_le, hfirst.isMatch, hfirst.longest, fun hcon => absurd hcon hapart,
              fun s' e' hs' hfind => .inl (hfirst.leftmost s' e' hs' hfind)⟩, ?_⟩
            simp [Cursor.after]

variable (nslots) in
/-- More rounds than enough change nothing. -/
theorem WellFormed.step_rounds (h : WellFormed re) (rounds : Nat) (hcur : cur.Ready input) (hrounds : Cursor.Enough rounds cur) :
    re.step input nslots (rounds + 1) cur = re.step input nslots rounds cur := by
  induction rounds generalizing cur with
  | zero => exact absurd hrounds.1 (Nat.lt_irrefl 0)
  | succ rounds ih =>
    rw [step, step]
    split
    · rfl
    next hdone =>
      rw [hcur.done, decide_eq_true_iff] at hdone
      rcases hrun : re.run input .yes cur.next (max nslots matchSlots) with limit | - | slots
      · rfl
      · rfl
      · have hanswers := h.run_spec (Nat.le_max_right nslots matchSlots) hrun
        obtain ⟨s, e, hspans, hfirst⟩ := hanswers
        simp only [hspans.1, hspans.2, Option.join_some]
        split
        · rfl
        · split
          next hbutts =>
            have hmin : min cur.next input.length = cur.next := Nat.min_eq_left (Nat.not_lt.mp hdone)
            have heq : cur.next = s := Nat.le_antisymm (hmin ▸ hfirst.start_le) (hcur.lastEnd s hbutts)
            exact ih (Cursor.ready_next hbutts) (hrounds.next heq hbutts _)
          · rfl

/-! ## All the matches -/

/-- What the items from a cursor on are: each is the next match, until none is left or a search is abandoned. -/
inductive Yields (re : Regex) (input : List Ch) : Cursor → List (Except MatchLimit Slots) → Prop
  | ended {cur : Cursor} (h : ∀ s e, cur.next ≤ s → re.Finding input .yes s e → cur.lastEnd = some s ∧ s = e) :
      Yields re input cur []
  | abandoned {cur : Cursor} {limit : MatchLimit} (h : re.hasBackref = true) : Yields re input cur [.error limit]
  | matched {cur : Cursor} {slots : Slots} {s e : Nat} {rest : List (Except MatchLimit Slots)} (hspans : Spans slots s e)
      (hnext : cur.Next re input s e) (hrest : Yields re input (.after input s e) rest) :
      Yields re input cur (.ok slots :: rest)

/-- The span of an item, as `Matches` gives it. -/
def spanOf : Except MatchLimit Slots → Option (Nat × Nat)
  | .error _ => none
  | .ok slots =>
    match slots[0]?.join, slots[1]?.join with
    | some s, some e => some (s, e)
    | _, _ => none

omit [CharData] in
theorem spanOf_ok {slots : Slots} {s e : Nat} (h : Spans slots s e) : spanOf (.ok slots) = some (s, e) := by
  simp [spanOf, h.1, h.2]

variable (nslots) in
theorem WellFormed.items_yields (h : WellFormed re) {rounds : Nat} (hrounds : 2 ≤ rounds) (fuel : Nat) (hcur : cur.Ready input)
    (hfuel : input.length < fuel + cur.next) : Yields re input cur (re.items input nslots rounds fuel cur) ∧
      re.items input nslots rounds (fuel + 1) cur = re.items input nslots rounds fuel cur ∧
      re.items input nslots (rounds + 1) fuel cur = re.items input nslots rounds fuel cur := by
  have henough : ∀ cur, Cursor.Enough rounds cur := fun cur => ⟨by omega, fun _ => by omega⟩
  induction fuel generalizing cur with
  | zero =>
    refine ⟨.ended fun s e hs hfind => ?_, ?_, rfl⟩
    · have hle := hfind.matchAt.1
      omega
    · have hdone : cur.done = true := by
        rw [hcur.done, decide_eq_true_iff]
        omega
      obtain ⟨rounds, rfl⟩ := Nat.exists_eq_add_of_le' hrounds
      simp [items, step, hdone]
  | succ fuel ih =>
    have hstep := h.step_spec nslots rounds hcur (henough cur)
    rw [items, items, items, h.step_rounds nslots rounds hcur (henough cur)]
    generalize re.step input nslots rounds cur = out at hstep ⊢
    rcases out with ⟨cur', - | ⟨limit | slots⟩⟩
    · exact ⟨.ended hstep, rfl, rfl⟩
    · obtain ⟨hback, hdone⟩ := hstep
      have hend : ∀ rounds fuel, re.items input nslots (rounds + 1) fuel cur' = [] := by
        intro rounds fuel
        cases fuel <;> simp [items, step, hdone]
      obtain ⟨rounds, rfl⟩ := Nat.exists_eq_add_of_le' hrounds
      simp only [hend]
      exact ⟨.abandoned hback, trivial, trivial⟩
    · obtain ⟨s, e, hspans, hnext, rfl⟩ := hstep
      have hle := h.start_le_of_matchAt hnext.finding.matchAt
      have hgt := (Cursor.next_after input hle).1
      have hstart := hnext.next_le
      obtain ⟨hyields, hfuel', hrounds'⟩ := @ih (.after input s e) (Cursor.ready_after hle) (by omega)
      simp only [hfuel', hrounds']
      exact ⟨.matched hspans hnext hyields, trivial, trivial⟩

/-- The spans of the items are in order and apart, and no match that is not empty is passed over. -/
theorem Yields.tokens (h : WellFormed re) {cur : Cursor} {items : List (Except MatchLimit Slots)}
    (hitems : Yields re input cur items) (hcur : cur.Ready input) :
    ((∀ span ∈ items.filterMap spanOf, cur.next ≤ span.1 ∧ (cur.lastEnd = some span.1 → span.1 < span.2)) ∧
      (items.filterMap spanOf).Pairwise fun span span' =>
        span.1 < span'.1 ∧ span.2 ≤ span'.1 ∧ (span.2 = span'.1 → span'.1 < span'.2)) ∧
      ((∀ limit, .error limit ∉ items) → ∀ s e, cur.next ≤ s → s < e → re.Finding input .yes s e →
        ∃ span ∈ items.filterMap spanOf, span.1 ≤ s ∧ s < span.2) := by
  induction hitems with
  | ended hnone =>
    refine ⟨⟨by simp, .nil⟩, fun _ s e hs hlt hfind => ?_⟩
    exact absurd (hnone s e hs hfind).2 (Nat.ne_of_lt hlt)
  | abandoned =>
    rw [List.filterMap_cons_none rfl, List.filterMap_nil]
    exact ⟨⟨by simp, .nil⟩, fun hok => absurd List.mem_cons_self (hok _)⟩
  | @matched cur slots s e rest hspans hnext hrest ih =>
    have hle := h.start_le_of_matchAt hnext.finding.matchAt
    obtain ⟨hgt, hge, -⟩ := Cursor.next_after input hle
    obtain ⟨⟨hbehind, hpairs⟩, hcomplete⟩ := ih (Cursor.ready_after hle)
    have hstart := hnext.next_le
    rw [List.filterMap_cons_some (spanOf_ok hspans)]
    refine ⟨⟨List.forall_mem_cons.mpr ⟨⟨hstart, hnext.apart⟩, fun span hspan => ?_⟩,
      List.pairwise_cons.mpr ⟨fun span hspan => ?_, hpairs⟩⟩, fun hok s' e' hs' hlt hfind => ?_⟩
    · have hspanle := (hbehind span hspan).1
      refine ⟨by omega, fun hlast => ?_⟩
      have hbefore := hcur.lastEnd span.1 hlast
      omega
    · obtain ⟨hspanle, hempty⟩ := hbehind span hspan
      exact ⟨by simp only; omega, Nat.le_trans hge hspanle, fun heq => hempty (congrArg some heq)⟩
    · rcases hnext.leftmost s' e' hs' hfind with hs' | ⟨-, heq⟩
      · rcases Nat.lt_or_ge s' e with hin | hout
        · exact ⟨(s, e), List.mem_cons_self, hs', hin⟩
        · have hafter : (Cursor.after input s e).next ≤ s' := by
            unfold Cursor.after
            split
            next => exact hout
            next hempty =>
              -- the longest match from there is empty, so this one begins behind it
              refine Nat.lt_of_le_of_ne hs' fun heq => ?_
              subst heq
              have hmost := hnext.longest e' hfind
              omega
          obtain ⟨span, hspan, hcovers⟩ :=
            hcomplete (fun limit hmem => hok limit (List.mem_cons_of_mem _ hmem)) s' e' hafter hlt hfind
          exact ⟨span, List.mem_cons_of_mem _ hspan, hcovers⟩
      · omega

/-- **Going through the matches of a subject** ends with at most one item for each position and one more, and no step
takes more than two rounds: what comes is the matches in turn, each the leftmost from where the one before ended and the
longest there, but for an empty one that only touches that end. They are in order and apart, and as long as no search
is abandoned every match that is not empty begins inside one of them. -/
theorem items_in_turn (h : Built re) (input : List Ch) (nslots : Nat) :
    ∃ items, (∀ rounds fuel, 2 ≤ rounds → input.length < fuel → re.items input nslots rounds fuel .first = items) ∧
      Yields re input .first items ∧
      ((items.filterMap spanOf).Pairwise fun span span' =>
        span.1 < span'.1 ∧ span.2 ≤ span'.1 ∧ (span.2 = span'.1 → span'.1 < span'.2)) ∧
      ((∀ limit, .error limit ∉ items) → ∀ s e, s < e → re.Finding input .yes s e →
        ∃ span ∈ items.filterMap spanOf, span.1 ≤ s ∧ s < span.2) := by
  have hyields := fun {rounds fuel : Nat} (hrounds : 2 ≤ rounds) (hfuel : input.length < fuel) =>
    h.wellFormed.items_yields nslots hrounds fuel Cursor.ready_first (by simpa [Cursor.first] using hfuel)
  have hsame : ∀ rounds fuel, 2 ≤ rounds → input.length < fuel →
      re.items input nslots rounds fuel .first = re.items input nslots 2 (input.length + 1) .first := by
    intro rounds fuel hrounds hfuel
    obtain ⟨more, rfl⟩ := Nat.exists_eq_add_of_le hrounds
    obtain ⟨left, rfl⟩ := Nat.exists_eq_add_of_lt hfuel
    induction more with
    | zero =>
      induction left with
      | zero => rfl
      | succ left ih => exact (hyields hrounds (by omega)).2.1.trans (ih (by omega))
    | succ more ih => exact (hyields (Nat.le_add_right 2 more) hfuel).2.2.trans (ih (Nat.le_add_right 2 more))
  have hitems := (hyields (Nat.le_refl 2) (Nat.lt_succ_self input.length)).1
  obtain ⟨⟨-, hapart⟩, hcomplete⟩ := hitems.tokens h.wellFormed Cursor.ready_first
  exact ⟨_, hsame, hitems, hapart, fun hok s e hlt hfind => hcomplete hok s e (Nat.zero_le s) hlt hfind⟩

end Regex

/-! ## A star -/

/-- `a*`. -/
def anyAs : Regex :=
  ⟨[.split 3 1, .skip, .jmp 0, .save 0, .split 5 7, .char (.u 'a'), .jmp 4, .save 1, .matched], 0, 3, false, false, false,
    false, none⟩

theorem anyAs_built : @Regex.Built CharData.ascii anyAs := by
  have hcompiled : @compilePattern CharData.ascii ("a*".toList.map Ch.u) false .posixExtended = .ok anyAs [] := by
    decide +kernel
  exact @Regex.Built.compiled CharData.ascii _ _ _ _ _ hcompiled

/-- On `ba` there is an empty match, and then `a`. -/
theorem items_in_turn_at_ba :
    @Regex.Yields CharData.ascii anyAs ("ba".toList.map Ch.u) .first
      (@Regex.items CharData.ascii anyAs ("ba".toList.map Ch.u) 2 2 3 .first) := by
  obtain ⟨items, hitems, hyields, -⟩ := @Regex.items_in_turn CharData.ascii anyAs anyAs_built ("ba".toList.map Ch.u) 2
  rw [hitems 2 3 (Nat.le_refl 2) (by decide)]
  exact hyields

/-- On `aab` the match behind `aa` is the one at the end, though at the end of `aa` there is one of nothing. -/
theorem items_pass_an_empty_match :
    @Regex.Built CharData.ascii anyAs ∧
      (@Regex.items CharData.ascii anyAs ("aab".toList.map Ch.u) 2 2 4 .first).filterMap Regex.spanOf = [(0, 2), (3, 3)] ∧
      ¬ @LeftmostLongest (@Regex.MatchAt CharData.ascii anyAs ("aab".toList.map Ch.u) .yes) 2 3 3 := by
  let _ := CharData.ascii
  have hrun : anyAs.run ("aab".toList.map Ch.u) .yes 2 2 = .ok (some [some 2, some 2]) := by decide +kernel
  obtain ⟨s, e, hspans, hfirst⟩ := anyAs_built.wellFormed.run_spec (Nat.le_refl 2) hrun
  obtain rfl : 2 = s := by simpa using hspans.1
  refine ⟨anyAs_built, by decide +kernel, fun hthree => ?_⟩
  exact absurd (hthree.leftmost 2 e (Nat.le_refl 2) hfirst.isMatch.matchAt) (by decide)

end SlateOS.Ere
