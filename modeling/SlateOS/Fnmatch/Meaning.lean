/-
# SlateOS.Fnmatch.Meaning -- what a shell pattern means

Without `PERIOD` no byte's place in the name matters: a pattern is the list of its items, and it matches the names
that can be cut into pieces of which each item takes one. A star takes any piece, without a slash under `PATHNAME`;
another item takes the single bytes that `match_one` accepts.
-/
import SlateOS.Fnmatch.Search

namespace SlateOS.Fnmatch

open Ascii Foundation.Wildcards

section Definitions

variable (pattern : List Byte) (flags : Flags)

/-- The places where the items from `p` on begin. -/
def itemsFrom (p : Nat) : List Nat :=
  if p < pattern.length then
    p :: itemsFrom (if pattern[p]? = some star then p + 1 else itemEnd pattern flags p)
  else []
termination_by pattern.length - p
decreasing_by
  have := lt_itemEnd pattern flags p
  split <;> omega

/-- The item at `p` takes the piece. -/
def Takes (p : Nat) (piece : List Byte) : Prop :=
  if pattern[p]? = some star then flags.has .pathname = true → slash ∉ piece
  else ∃ c, piece = [c] ∧ (matchOne pattern flags [c] p 0).isSome = true

/-- Each item takes its piece, in order. -/
abbrev Pieces (p : Nat) (pieces : List (List Byte)) : Prop :=
  List.Forall₂ (Takes pattern flags) (itemsFrom pattern flags p) pieces

end Definitions

variable {pattern name piece : List Byte} {pieces : List (List Byte)} {flags : Flags} {p n m : Nat} {b c : Byte}

/-! ## Items without `PERIOD` -/

theorem matchOne_of_byte (hperiod : flags.has .period = false) (hc : name[n]? = some c) :
    matchOne pattern flags name p n = matchOne pattern flags [c] p 0 := by
  simp only [matchOne, hc, List.getElem?_cons_zero, hperiod, Bool.false_and, Bool.false_eq_true, if_false]

theorem fits_iff (hperiod : flags.has .period = false) : fits pattern flags name p n = true ↔
    ∃ c, name[n]? = some c ∧ (matchOne pattern flags [c] p 0).isSome = true := by
  cases hc : name[n]? with
  | none => simp [fits, matchOne, hc]
  | some c => simp [fits, matchOne_of_byte hperiod hc]

theorem mayEat_iff (hperiod : flags.has .period = false) : mayEat name flags n = true ↔
    ∃ c, name[n]? = some c ∧ (flags.has .pathname = true → c ≠ slash) := by
  cases hc : name[n]? with
  | none => simp [mayEat, hc]
  | some c => simp [mayEat, hc, hperiod, imp_iff_not_or]

theorem itemsFrom_finish (hp : pattern[p]? = none) : itemsFrom pattern flags p = [] := by
  rw [itemsFrom, if_neg (Nat.not_lt.mpr (List.getElem?_eq_none_iff.mp hp))]

theorem itemsFrom_star (hp : pattern[p]? = some star) :
    itemsFrom pattern flags p = p :: itemsFrom pattern flags (p + 1) := by
  rw [itemsFrom, if_pos (List.getElem?_eq_some_iff.mp hp).1, if_pos hp]

theorem itemsFrom_one (hp : pattern[p]? = some b) (hb : b ≠ star) :
    itemsFrom pattern flags p = p :: itemsFrom pattern flags (itemEnd pattern flags p) := by
  rw [itemsFrom, if_pos (List.getElem?_eq_some_iff.mp hp).1, if_neg (by simp [hp, hb])]

theorem takes_star (hp : pattern[p]? = some star) :
    Takes pattern flags p piece ↔ (flags.has .pathname = true → slash ∉ piece) := by
  rw [Takes, if_pos hp]

theorem takes_one (hp : pattern[p]? = some b) (hb : b ≠ star) :
    Takes pattern flags p piece ↔ ∃ c, piece = [c] ∧ (matchOne pattern flags [c] p 0).isSome = true := by
  rw [Takes, if_neg (by simp [hp, hb])]

theorem drop_eq_cons (hc : name[n]? = some c) : name.drop n = c :: name.drop (n + 1) := by
  obtain ⟨hlt, rfl⟩ := List.getElem?_eq_some_iff.mp hc
  exact List.drop_eq_getElem_cons hlt

/-! ## Cuts and pieces -/

theorem exists_pieces_of_cuts (hperiod : flags.has .period = false) (h : Cuts pattern name flags p n m) :
    ∃ pieces, Pieces pattern flags p pieces ∧ name.drop n = pieces.flatten ++ name.drop m := by
  induction h with
  | @finish p n hp =>
    refine ⟨[], ?_, rfl⟩
    rw [Pieces, itemsFrom_finish (item_eq_finish hp)]
    exact .nil
  | @skip p q n m hp _ ih =>
    obtain ⟨hstar, rfl⟩ := item_eq_star hp
    obtain ⟨pieces, hpieces, hname⟩ := ih
    refine ⟨[] :: pieces, ?_, by simpa using hname⟩
    rw [Pieces, itemsFrom_star hstar]
    exact .cons ((takes_star hstar).mpr (by simp)) hpieces
  | @eat p q n m hp hn _ ih =>
    obtain ⟨hstar, rfl⟩ := item_eq_star hp
    obtain ⟨c, hc, hslash⟩ := (mayEat_iff hperiod).mp hn
    obtain ⟨pieces, hpieces, hname⟩ := ih
    rw [Pieces, itemsFrom_star hstar] at hpieces
    rcases pieces with _ | ⟨piece, pieces⟩
    · cases hpieces
    obtain ⟨hpiece, hrest⟩ := List.forall₂_cons.mp hpieces
    rw [takes_star hstar] at hpiece
    refine ⟨(c :: piece) :: pieces, ?_, by simp [drop_eq_cons hc, hname]⟩
    rw [Pieces, itemsFrom_star hstar]
    refine .cons ((takes_star hstar).mpr fun hpathname => ?_) hrest
    simpa [eq_comm] using ⟨hslash hpathname, hpiece hpathname⟩
  | @one p q n m f hp hn _ ih =>
    obtain ⟨⟨b, hbyte, hb⟩, rfl, rfl⟩ := item_eq_one hp
    obtain ⟨c, hc, hmatch⟩ := (fits_iff hperiod).mp hn
    obtain ⟨pieces, hpieces, hname⟩ := ih
    refine ⟨[c] :: pieces, ?_, by simp [drop_eq_cons hc, hname]⟩
    rw [Pieces, itemsFrom_one hbyte hb]
    exact .cons ((takes_one hbyte hb).mpr ⟨c, rfl, hmatch⟩) hpieces

/-- A star takes a piece byte by byte. -/
theorem cuts_of_star (hperiod : flags.has .period = false) (hp : pattern[p]? = some star)
    (hpiece : flags.has .pathname = true → slash ∉ piece) {rest : List Byte} (hname : name.drop n = piece ++ rest)
    (h : Cuts pattern name flags (p + 1) (n + piece.length) m) : Cuts pattern name flags p n m := by
  induction piece generalizing n with
  | nil => exact .skip (item_star hp) h
  | cons c piece ih =>
    have hc : name[n]? = some c := by
      rw [← Nat.add_zero n, ← List.getElem?_drop, hname]
      rfl
    refine .eat (item_star hp) ((mayEat_iff hperiod).mpr ⟨c, hc, fun hpathname => ?_⟩) (ih ?_ ?_ ?_)
    · intro hslash
      exact hpiece hpathname (hslash ▸ List.mem_cons_self)
    · intro hpathname hmem
      exact hpiece hpathname (List.mem_cons_of_mem c hmem)
    · rw [drop_eq_cons hc, List.cons_append, List.cons.injEq] at hname
      exact hname.2
    · rwa [List.length_cons, ← Nat.add_assoc, Nat.add_right_comm] at h

theorem cuts_of_pieces (hperiod : flags.has .period = false) (hpieces : Pieces pattern flags p pieces)
    {rest : List Byte} (hname : name.drop n = pieces.flatten ++ rest) :
    Cuts pattern name flags p n (n + pieces.flatten.length) := by
  induction pieces generalizing p n with
  | nil =>
    cases hp : pattern[p]? with
    | none => exact .finish (item_finish hp)
    | some b =>
      by_cases hb : b = star
      · subst hb
        rw [Pieces, itemsFrom_star hp] at hpieces
        cases hpieces
      · rw [Pieces, itemsFrom_one hp hb] at hpieces
        cases hpieces
  | cons piece pieces ih =>
    rw [List.flatten_cons, List.append_assoc] at hname
    rw [List.flatten_cons, List.length_append, ← Nat.add_assoc]
    have hdrop : name.drop (n + piece.length) = pieces.flatten ++ rest := by
      rw [← List.drop_drop, hname, List.drop_left]
    cases hp : pattern[p]? with
    | none =>
      rw [Pieces, itemsFrom_finish hp] at hpieces
      cases hpieces
    | some b =>
      by_cases hb : b = star
      · subst hb
        rw [Pieces, itemsFrom_star hp] at hpieces
        obtain ⟨hpiece, hrest⟩ := List.forall₂_cons.mp hpieces
        exact cuts_of_star hperiod hp ((takes_star hp).mp hpiece) hname (ih hrest hdrop)
      · rw [Pieces, itemsFrom_one hp hb] at hpieces
        obtain ⟨hpiece, hrest⟩ := List.forall₂_cons.mp hpieces
        obtain ⟨c, rfl, hmatch⟩ := (takes_one hp hb).mp hpiece
        have hc : name[n]? = some c := by
          rw [← Nat.add_zero n, ← List.getElem?_drop, hname]
          rfl
        exact .one (item_one hp hb) ((fits_iff hperiod).mpr ⟨c, hc, hmatch⟩) (ih hrest hdrop)

/-- **A pattern matches the names that can be cut into pieces**, one for each of its items, or whose first
directories can. -/
theorem fnmatch_iff_pieces (pattern name : List Byte) (flags : Flags) (hperiod : flags.has .period = false) :
    fnmatch pattern name flags = true ↔
      ∃ pieces, Pieces pattern flags 0 pieces ∧
        (name = pieces.flatten ∨
          flags.has .leadingDir = true ∧ ∃ below, name = pieces.flatten ++ slash :: below) := by
  rw [fnmatch_iff_reaches]
  have hallowed : dotRefused pattern name flags = false := by simp [dotRefused, hperiod]
  simp only [hallowed, true_and]
  constructor
  · rintro ⟨m, hcut, hend⟩
    obtain ⟨pieces, hpieces, hname⟩ := exists_pieces_of_cuts hperiod hcut
    rw [List.drop_zero] at hname
    refine ⟨pieces, hpieces, ?_⟩
    rcases hend with rfl | ⟨hdir, hslash⟩
    · rw [List.drop_length, List.append_nil] at hname
      exact .inl hname
    · rw [drop_eq_cons hslash] at hname
      exact .inr ⟨hdir, name.drop (m + 1), hname⟩
  · rintro ⟨pieces, hpieces, hname | ⟨hdir, below, hname⟩⟩
    · have hall : name.drop 0 = pieces.flatten ++ [] := by simpa using hname
      refine ⟨0 + pieces.flatten.length, cuts_of_pieces hperiod hpieces hall, .inl ?_⟩
      simp [hname]
    · refine ⟨0 + pieces.flatten.length, cuts_of_pieces hperiod hpieces hname, .inr ⟨hdir, ?_⟩⟩
      simp [hname]

/-- `a*c` takes the directory of `abc/d`. -/
theorem fnmatch_iff_pieces_directory :
    Flags.leadingDir.has .period = false ∧ fnmatch (ofText "a*c") (ofText "abc/d") .leadingDir = true := by
  refine ⟨by decide, (fnmatch_iff_pieces _ _ _ (by decide)).mpr
    ⟨[ofText "a", ofText "b", ofText "c"], ?_, .inr ⟨by decide, ofText "d", by decide⟩⟩⟩
  have hitems : itemsFrom (ofText "a*c") .leadingDir 0 = [0, 1, 2] := by
    rw [itemsFrom_one (b := 0x61#8) (by decide) (by decide), show itemEnd _ _ 0 = 1 by decide,
      itemsFrom_star (by decide), itemsFrom_one (b := 0x63#8) (by decide) (by decide),
      show itemEnd _ _ (1 + 1) = 3 by decide, itemsFrom_finish (by decide)]
  rw [Pieces, hitems]
  refine .cons ?_ (.cons ?_ (.cons ?_ .nil))
  · exact (takes_one (b := 0x61#8) (by decide) (by decide)).mpr ⟨0x61#8, by decide, by decide⟩
  · exact (takes_star (by decide)).mpr fun hpathname => absurd hpathname (by decide)
  · exact (takes_one (b := 0x63#8) (by decide) (by decide)).mpr ⟨0x63#8, by decide, by decide⟩

end SlateOS.Fnmatch
