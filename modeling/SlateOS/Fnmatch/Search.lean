/-
# SlateOS.Fnmatch.Search -- the search with a single restart point

`userspace/fnmatch/src/lib.rs`, `fnmatch`: the last star met is the only one that is ever extended. The search finds
a cut of the name along the pattern exactly when there is one, under every flag set; the rule about the dot that
begins the name is the only part of the answer that is not the cut's.
-/
import SlateOS.Foundation.Wildcards
import SlateOS.Fnmatch.Pattern

namespace SlateOS.Fnmatch

open Ascii Foundation.Wildcards

/-! ## The search -/

section Definitions

variable (pattern name : List Byte) (flags : Flags)

/-- The dot that begins the name is refused before the search. -/
def dotRefused : Bool :=
  flags.has .period && name.head? == some dot && pattern.head? != some dot
    && !(pattern.head? == some backslash && !flags.has .noescape && pattern[1]? == some dot)

/-- Whether a star may eat the byte at `n`. -/
def mayEat (n : Nat) : Bool :=
  match name[n]? with
  | none => false
  | some eaten =>
    if flags.has .pathname && eaten == slash then false
    else
      !(flags.has .period && flags.has .pathname && eaten == dot && decide (0 < n) && name[n - 1]? == some slash)

/-- The variables of the loop. The last star did not begin behind the place in the name. -/
structure Place where
  p : Nat
  n : Nat
  star : Option (Nat × Nat)
  behind : ∀ s ∈ star, s.2 ≤ n

/-- A mismatch: the last star eats one byte more. -/
def backtrack (place : Place) : Bool ⊕ Place :=
  match place.star with
  | none => .inl false
  | some (starP, starN) =>
    if mayEat name flags starN then
      .inr ⟨starP + 1, starN + 1, some (starP, starN + 1), fun _ hs => Nat.le_of_eq (congrArg Prod.snd (Option.some.inj hs).symm)⟩
    else .inl false

/-- One round of the loop: the answer, or the place to go on from. -/
def round (place : Place) : Bool ⊕ Place :=
  match pattern[place.p]? with
  | some b =>
    if b = star then
      .inr ⟨place.p + 1, place.n, some (place.p, place.n), fun _ hs => Nat.le_of_eq (congrArg Prod.snd (Option.some.inj hs).symm)⟩
    else
      match matchOne pattern flags name place.p place.n with
      | some next => .inr ⟨next, place.n + 1, place.star, fun s hs => Nat.le_succ_of_le (place.behind s hs)⟩
      | none => backtrack name flags place
  | none =>
    if place.n = name.length then .inl true
    else if flags.has .leadingDir && name[place.n]? == some slash then .inl true
    else backtrack name flags place

/-- How often a star can still be extended. -/
def slack (place : Place) : Nat :=
  match place.star with
  | none => name.length + 1
  | some s => name.length - s.2

variable {pattern name flags} {n : Nat} {place place' : Place}

theorem lt_of_mayEat (h : mayEat name flags n = true) : n < name.length := by
  unfold mayEat at h
  split at h
  · cases h
  next eaten heaten => exact (List.getElem?_eq_some_iff.mp heaten).1

theorem backtrack_eq_inr (h : backtrack name flags place = .inr place') :
    ∃ starP starN, place.star = some (starP, starN) ∧ mayEat name flags starN = true ∧
      place'.p = starP + 1 ∧ place'.n = starN + 1 ∧ place'.star = some (starP, starN + 1) := by
  unfold backtrack at h
  split at h
  · cases h
  next starP starN hstar =>
    split at h
    next heat =>
      cases h
      exact ⟨starP, starN, hstar, heat, rfl, rfl, rfl⟩
    next => cases h

theorem slack_backtrack (h : backtrack name flags place = .inr place') : slack name place' < slack name place := by
  obtain ⟨starP, starN, hstar, heat, -, -, hstar'⟩ := backtrack_eq_inr h
  have hlt := lt_of_mayEat heat
  simp only [slack, hstar, hstar']
  omega

/-- **Every round that goes on brings the search nearer to its end**: no star is set back, and between two
extensions of a star the place in the pattern moves on. -/
theorem round_lt (h : round pattern name flags place = .inr place') :
    slack name place' < slack name place ∨
      slack name place' ≤ slack name place ∧ pattern.length - place'.p < pattern.length - place.p := by
  unfold round at h
  split at h
  next b hb =>
    have hlt := (List.getElem?_eq_some_iff.mp hb).1
    split at h
    · cases h
      refine .inr ⟨?_, ?_⟩
      · unfold slack
        cases hstar : place.star with
        | none =>
          show name.length - place.n ≤ name.length + 1
          omega
        | some s => simpa using Nat.sub_le_sub_left (place.behind s hstar) name.length
      · show pattern.length - (place.p + 1) < pattern.length - place.p
        omega
    · split at h
      next next hnext =>
        cases h
        have hend := (matchOne_eq_some hnext).1
        have hmove : place.p < next := hend ▸ lt_itemEnd pattern flags place.p
        refine .inr ⟨Nat.le_refl _, ?_⟩
        show pattern.length - next < pattern.length - place.p
        omega
      next => exact .inl (slack_backtrack h)
  next =>
    split at h
    · cases h
    · split at h
      · cases h
      · exact .inl (slack_backtrack h)

variable (pattern name flags)

/-- The loop. -/
def search (place : Place) : Bool :=
  match _h : round pattern name flags place with
  | .inl answer => answer
  | .inr place' => search place'
termination_by (slack name place, pattern.length - place.p)
decreasing_by
  rcases round_lt _h with hlt | ⟨hle, hlt⟩
  · exact Prod.Lex.left _ _ hlt
  · rcases Nat.lt_or_eq_of_le hle with hslack | hslack
    · exact Prod.Lex.left _ _ hslack
    · rw [hslack]
      exact Prod.Lex.right _ hlt

/-- `fnmatch`. -/
def fnmatch : Bool := if dotRefused pattern name flags then false else search pattern name flags ⟨0, 0, none, by simp⟩

/-! ## Cuts of the name -/

/-- The item at a place of the pattern. -/
def item (p : Nat) : Item Nat :=
  match pattern[p]? with
  | none => .finish
  | some b => if b = star then .star (p + 1) else .one (fits pattern flags name p) (itemEnd pattern flags p)

/-- The items from `p` on take the bytes of the name from `n` up to `m`. -/
abbrev Cuts (p n m : Nat) : Prop := Cut (item pattern name flags) (fun n => mayEat name flags n = true) p n m

/-- The name ends here, or a component of it does and the rest is a directory's. -/
def EndsAt (m : Nat) : Prop := m = name.length ∨ flags.has .leadingDir = true ∧ name[m]? = some slash

/-- The rest of the name, up to where it may end, can be cut along the rest of the pattern. -/
def Reaches (p n : Nat) : Prop := ∃ m, Cuts pattern name flags p n m ∧ EndsAt name flags m

end Definitions

section Correctness

variable {pattern name : List Byte} {flags : Flags} {p n m : Nat} {place place' : Place} {b : Byte} {answer : Bool}

theorem item_finish (hp : pattern[p]? = none) : item pattern name flags p = .finish := by
  simp [item, hp]

theorem item_star (hp : pattern[p]? = some star) : item pattern name flags p = .star (p + 1) := by
  simp [item, hp]

theorem item_one (hp : pattern[p]? = some b) (hb : b ≠ star) :
    item pattern name flags p = .one (fits pattern flags name p) (itemEnd pattern flags p) := by
  simp [item, hp, hb]

theorem item_eq_finish (h : item pattern name flags p = .finish) : pattern[p]? = none := by
  unfold item at h
  split at h
  next hp => exact hp
  next => split at h <;> cases h

theorem item_eq_star {q : Nat} (h : item pattern name flags p = .star q) : pattern[p]? = some star ∧ q = p + 1 := by
  unfold item at h
  split at h
  · cases h
  next b hp =>
    split at h
    next hb =>
      cases h
      exact ⟨hb ▸ hp, rfl⟩
    next => cases h

theorem item_eq_one {f : Nat → Bool} {q : Nat} (h : item pattern name flags p = .one f q) :
    (∃ b, pattern[p]? = some b ∧ b ≠ star) ∧ f = fits pattern flags name p ∧ q = itemEnd pattern flags p := by
  unfold item at h
  split at h
  · cases h
  next b hp =>
    split at h
    next => cases h
    next hb =>
      cases h
      exact ⟨⟨b, hp, hb⟩, rfl, rfl⟩

theorem reaches_finish (hp : pattern[p]? = none) : Reaches pattern name flags p n ↔ EndsAt name flags n := by
  simp [Reaches, Cuts, Cut.finish_iff (item_finish hp)]

theorem reaches_star (hp : pattern[p]? = some star) : Reaches pattern name flags p n ↔
    Reaches pattern name flags (p + 1) n ∨ mayEat name flags n = true ∧ Reaches pattern name flags p (n + 1) := by
  unfold Reaches Cuts
  constructor
  · rintro ⟨m, hcut, hend⟩
    rcases (Cut.star_iff (item_star hp)).mp hcut with hcut | ⟨heat, hcut⟩
    · exact .inl ⟨m, hcut, hend⟩
    · exact .inr ⟨heat, m, hcut, hend⟩
  · rintro (⟨m, hcut, hend⟩ | ⟨heat, m, hcut, hend⟩)
    · exact ⟨m, .skip (item_star hp) hcut, hend⟩
    · exact ⟨m, .eat (item_star hp) heat hcut, hend⟩

theorem reaches_one (hp : pattern[p]? = some b) (hb : b ≠ star) : Reaches pattern name flags p n ↔
    fits pattern flags name p n = true ∧ Reaches pattern name flags (itemEnd pattern flags p) (n + 1) := by
  simp [Reaches, Cuts, Cut.one_iff (item_one hp hb), and_assoc]

/-- Under `PATHNAME` the slashes of a name are walls to every star. -/
theorem walled (pattern name : List Byte) (flags : Flags) :
    Walled (item pattern name flags) (fun n => mayEat name flags n = true)
      (fun k => flags.has .pathname = true ∧ name[k]? = some slash) name.length := by
  constructor
  · intro k heat
    exact lt_of_mayEat heat
  · rintro k heat ⟨hpathname, hslash⟩
    simp [mayEat, hslash, hpathname] at heat
  · intro k hlt hopen hopen'
    have hget : name[k + 1]? = some name[k + 1] := List.getElem?_eq_getElem hlt
    rw [hget, Option.some.injEq] at hopen'
    simp only [mayEat, hget]
    cases hpathname : flags.has .pathname with
    | false => simp
    | true =>
      simp only [hpathname, true_and] at hopen hopen'
      simp [hopen, hopen']
  · intro p f q k hp hfits
    rw [(item_eq_one hp).2.1] at hfits
    obtain ⟨r, hr⟩ := Option.isSome_iff_exists.mp hfits
    exact (matchOne_eq_some hr).2.1
  · intro p f q k l hp hk hl
    rw [(item_eq_one hp).2.1] at hk hl
    apply and_congr_right
    intro hpathname
    rw [slash_iff_of_fits hpathname hk, slash_iff_of_fits hpathname hl]

/-! ## The search finds a cut -/

/-- There is a cut, from here or with the last star extended. -/
def Alive (pattern name : List Byte) (flags : Flags) (place : Place) : Prop :=
  Reaches pattern name flags place.p place.n ∨
    ∃ s ∈ place.star, mayEat name flags s.2 = true ∧ Reaches pattern name flags s.1 (s.2 + 1)

/-- Between the last star and the place there are items that take one byte each, and have taken it. -/
def Inv (pattern name : List Byte) (flags : Flags) (place : Place) : Prop :=
  ∀ s ∈ place.star, pattern[s.1]? = some star ∧
    Line (item pattern name flags) (s.1 + 1) s.2 place.p place.n

/-- A mismatch gives up the cuts from here, and only these. -/
theorem alive_of_mismatch (hmiss : ¬Reaches pattern name flags place.p place.n) :
    Alive pattern name flags place ↔
      ∃ s ∈ place.star, mayEat name flags s.2 = true ∧ Reaches pattern name flags s.1 (s.2 + 1) := by
  simp [Alive, hmiss]

theorem backtrack_answer (hmiss : ¬Reaches pattern name flags place.p place.n)
    (h : backtrack name flags place = .inl answer) : answer = true ↔ Alive pattern name flags place := by
  rw [alive_of_mismatch hmiss]
  unfold backtrack at h
  split at h
  next hstar =>
    cases h
    simp [hstar]
  next starP starN hstar =>
    split at h
    next => cases h
    next heat =>
      cases h
      simp [hstar, heat]

theorem backtrack_next (hinv : Inv pattern name flags place) (hmiss : ¬Reaches pattern name flags place.p place.n)
    (h : backtrack name flags place = .inr place') :
    Inv pattern name flags place' ∧ (Alive pattern name flags place ↔ Alive pattern name flags place') := by
  obtain ⟨starP, starN, hstar, heat, hp', hn', hstar'⟩ := backtrack_eq_inr h
  have hp : pattern[starP]? = some star := (hinv _ hstar).1
  constructor
  · intro s hs
    obtain rfl : (starP, starN + 1) = s := Option.some.inj (hstar'.symm.trans hs)
    rw [hp', hn']
    exact ⟨hp, .refl⟩
  · rw [alive_of_mismatch hmiss]
    simp only [Alive, hstar, hstar', hp', hn', Option.mem_some_iff, exists_eq_left', heat, true_and]
    exact reaches_star hp

/-- An answer of the loop is right. -/
theorem round_answer (h : round pattern name flags place = .inl answer) :
    answer = true ↔ Alive pattern name flags place := by
  unfold round at h
  split at h
  next b hb =>
    split at h
    · cases h
    next hne =>
      split at h
      · cases h
      next hnone =>
        apply backtrack_answer _ h
        rw [reaches_one hb hne]
        simp [fits, hnone]
  next hnone =>
    have hfinish : Reaches pattern name flags place.p place.n ↔ _ := reaches_finish hnone
    split at h
    next hend =>
      cases h
      exact iff_of_true rfl (.inl (hfinish.mpr (.inl hend)))
    next hend =>
      split at h
      next hdir =>
        cases h
        rw [Bool.and_eq_true, beq_iff_eq] at hdir
        exact iff_of_true rfl (.inl (hfinish.mpr (.inr hdir)))
      next hdir =>
        apply backtrack_answer _ h
        rw [hfinish]
        simpa [EndsAt, hend] using hdir

/-- **A round loses no cut.** At a star it forgets the star before it, for which the new one can stand in. -/
theorem round_next (hinv : Inv pattern name flags place) (h : round pattern name flags place = .inr place') :
    Inv pattern name flags place' ∧ (Alive pattern name flags place ↔ Alive pattern name flags place') := by
  unfold round at h
  split at h
  next b hb =>
    split at h
    next hstar =>
      subst hstar
      cases h
      constructor
      · intro s hs
        cases hs
        exact ⟨hb, .refl⟩
      · have hstep : Reaches pattern name flags place.p place.n ↔ _ := reaches_star hb
        simp only [Alive, Option.mem_some_iff, exists_eq_left', ← hstep]
        refine or_iff_left_of_imp ?_
        rintro ⟨s, hs, heat, m, hcut, hend⟩
        obtain ⟨hs, hline⟩ := hinv s hs
        exact ⟨m, Cut.exchange (walled pattern name flags) (item_star hs) hline (item_star hb) heat hcut, hend⟩
    next hne =>
      split at h
      next next hnext =>
        cases h
        have hend : next = itemEnd pattern flags place.p := (matchOne_eq_some hnext).1
        have hfits : fits pattern flags name place.p place.n = true := by simp [fits, hnext]
        constructor
        · intro s hs
          obtain ⟨hsp, hline⟩ := hinv s hs
          refine ⟨hsp, ?_⟩
          rw [hend]
          exact hline.snoc (item_one hb hne) hfits
        · apply or_congr_left
          rw [reaches_one hb hne, hend]
          simp [hfits]
      next hnone =>
        apply backtrack_next hinv _ h
        rw [reaches_one hb hne]
        simp [fits, hnone]
  next hnone =>
    have hfinish : Reaches pattern name flags place.p place.n ↔ _ := reaches_finish hnone
    split at h
    · cases h
    next hend =>
      split at h
      · cases h
      next hdir =>
        apply backtrack_next hinv _ h
        rw [hfinish]
        simpa [EndsAt, hend] using hdir

theorem search_iff (hinv : Inv pattern name flags place) :
    search pattern name flags place = true ↔ Alive pattern name flags place := by
  fun_induction search pattern name flags place with
  | case1 place answer h => exact round_answer h
  | case2 place place' h ih =>
    obtain ⟨hinv', halive⟩ := round_next hinv h
    rw [halive]
    exact ih hinv'

/-- **The search answers yes exactly where the name can be cut along the pattern** and its first byte is no dot that
`PERIOD` refuses. -/
theorem fnmatch_iff_reaches (pattern name : List Byte) (flags : Flags) :
    fnmatch pattern name flags = true ↔
      dotRefused pattern name flags = false ∧ Reaches pattern name flags 0 0 := by
  unfold fnmatch
  split
  next hrefused => simp [hrefused]
  next hallowed =>
    rw [search_iff fun s hs => by cases hs]
    simp [Alive, hallowed]

end Correctness

end SlateOS.Fnmatch
