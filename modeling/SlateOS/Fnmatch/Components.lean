/-
# SlateOS.Fnmatch.Components -- a path matched component by component

Under `PATHNAME` a slash of the name can only be taken by a slash of the pattern, so a pattern `p/q` matches a path
`a/b` component by component. The rule for the dot that begins a component is kept in three places. Before the
search it refuses every pattern that does not begin with a dot; behind a slash it refuses the star that would eat the
dot and the item that would take it, but not a star that eats nothing in front of a dot in the pattern.
-/
import SlateOS.Fnmatch.Search

namespace SlateOS.Fnmatch

open Ascii Foundation.Wildcards

/-- The pattern has neither brackets nor escapes. -/
def Plain (pattern : List Byte) : Prop := bracketOpen ∉ pattern ∧ backslash ∉ pattern

/-- The name can be cut along the pattern, and its first byte is no dot that `PERIOD` refuses. -/
def Means (pattern name : List Byte) (flags : Flags) : Prop :=
  dotRefused pattern name flags = false ∧ Reaches pattern name flags 0 0

/-- Under `PERIOD`, stars stand before a dot that begins `q`, and matched without them the components agree. -/
def BehindStars (p q a b : List Byte) (flags : Flags) : Prop :=
  flags.has .period = true ∧ Means p a flags ∧
    ∃ k r, q = List.replicate (k + 1) star ++ dot :: r ∧ Means (dot :: r) b flags

variable {pattern name p q a b pre pre' : List Byte} {flags : Flags} {i j n m : Nat} {c d : Byte}

/-! ## Patterns without brackets and escapes -/

theorem Plain.append (hp : Plain p) (hq : Plain q) : Plain (p ++ q) := by
  simp only [Plain, List.mem_append, not_or]
  exact ⟨⟨hp.1, hq.1⟩, hp.2, hq.2⟩

theorem Plain.slash_cons (hq : Plain q) : Plain (slash :: q) := by
  simp only [Plain, List.mem_cons, not_or]
  exact ⟨⟨by decide, hq.1⟩, by decide, hq.2⟩

theorem Plain.of_append (h : Plain (p ++ q)) : Plain q := by
  simp only [Plain, List.mem_append, not_or] at h
  exact ⟨h.1.2, h.2.2⟩

theorem Plain.getElem?_ne (h : Plain pattern) (hc : pattern[i]? = some c) : c ≠ bracketOpen ∧ c ≠ backslash := by
  have hmem := List.mem_of_getElem? hc
  exact ⟨fun heq => h.1 (heq ▸ hmem), fun heq => h.2 (heq ▸ hmem)⟩

theorem Plain.itemEnd_eq (h : Plain pattern) (i : Nat) : itemEnd pattern flags i = i + 1 := by
  have hopen : pattern[i]? ≠ some bracketOpen := fun heq => (h.getElem?_ne heq).1 rfl
  have hescape : pattern[i]? ≠ some backslash := fun heq => (h.getElem?_ne heq).2 rfl
  simp [itemEnd, hopen, hescape]

/-- A byte of a plain pattern against one of the name, which begins a component or not. -/
def byteFits (flags : Flags) (c d : Byte) (atStart : Bool) : Bool :=
  if c = question then
    !(flags.has .pathname && d == slash) && !(flags.has .period && d == dot && atStart)
  else eq c d flags

theorem Plain.fits_eq (h : Plain pattern) (hc : pattern[i]? = some c) (hd : name[n]? = some d) :
    fits pattern flags name i n = byteFits flags c d (atComponentStart flags name n) := by
  obtain ⟨hopen, hescape⟩ := h.getElem?_ne hc
  unfold fits matchOne byteFits
  rw [hc, hd]
  by_cases hquestion : c = question
  · simp only [hquestion, if_true]
    split
    next hslash => simp [hslash]
    next hslash =>
      rw [Bool.not_eq_true] at hslash
      split
      next hdot => simp [hdot]
      next hdot =>
        rw [Bool.not_eq_true] at hdot
        simp [hslash, hdot]
  · simp only [hquestion, if_false, hopen, hescape, false_and]
    cases eq c d flags <;> rfl

theorem fits_of_none (hd : name[n]? = none) : fits pattern flags name i n = false := by
  simp [fits, matchOne, hd]

/-! ## A component behind a slash -/

/-- Where the component begins behind a slash, each item asks there what it asks of the component by itself. -/
theorem item_shifts (hplain : Plain (pre ++ q)) (hstart : atComponentStart flags (pre' ++ b) pre'.length = true)
    (n₀ i : Nat) : (item q b flags i).Shifts (· + pre.length) pre'.length n₀
      (item (pre ++ q) (pre' ++ b) flags (i + pre.length)) := by
  have hplain' : Plain q := hplain.of_append
  have hget : (pre ++ q)[i + pre.length]? = q[i]? := by
    rw [List.getElem?_append_right (Nat.le_add_left _ _), Nat.add_sub_cancel]
  cases hc : q[i]? with
  | none =>
    rw [item_finish hc, item_finish (hget.trans hc)]
    exact .finish
  | some c =>
    by_cases hstar : c = star
    · subst hstar
      rw [item_star hc, item_star (hget.trans hc), Nat.add_right_comm]
      exact .star (i + 1)
    · rw [item_one hc hstar, item_one (hget.trans hc) hstar, hplain'.itemEnd_eq, hplain.itemEnd_eq,
        Nat.add_right_comm]
      refine .one (i + 1) fun n _ => ?_
      have hname : (pre' ++ b)[n + pre'.length]? = b[n]? := by
        rw [List.getElem?_append_right (Nat.le_add_left _ _), Nat.add_sub_cancel]
      cases hd : b[n]? with
      | none => rw [fits_of_none hd, fits_of_none (hname.trans hd)]
      | some d =>
        rw [hplain'.fits_eq hc hd, hplain.fits_eq (hget.trans hc) (hname.trans hd)]
        congr 1
        rcases n with _ | n
        · rw [Nat.zero_add, hstart]
          rfl
        · have hback : (pre' ++ b)[n + pre'.length]? = b[n]? := by
            rw [List.getElem?_append_right (Nat.le_add_left _ _), Nat.add_sub_cancel]
          unfold atComponentStart
          rw [show n + 1 + pre'.length - 1 = n + pre'.length by omega, hback, Nat.add_sub_cancel,
            beq_eq_false_iff_ne.mpr (show n + 1 + pre'.length ≠ 0 by omega),
            beq_eq_false_iff_ne.mpr (show n + 1 ≠ 0 by omega)]

theorem endsAt_shift : EndsAt (pre' ++ b) flags (m + pre'.length) ↔ EndsAt b flags m := by
  unfold EndsAt
  rw [List.length_append, List.getElem?_append_right (Nat.le_add_left _ _), Nat.add_sub_cancel, Nat.add_comm m,
    Nat.add_left_cancel_iff]

/-- From `n₀` on the stars may eat what they may eat of the component by itself. -/
theorem reaches_shift (hplain : Plain (pre ++ q)) (hstart : atComponentStart flags (pre' ++ b) pre'.length = true)
    {n₀ : Nat} (heat : ∀ n, n₀ ≤ n → mayEat (pre' ++ b) flags (n + pre'.length) = mayEat b flags n) (hn : n₀ ≤ n) :
    Reaches (pre ++ q) (pre' ++ b) flags (i + pre.length) (n + pre'.length) ↔ Reaches q b flags i n := by
  have hshift : ∀ m', Cuts (pre ++ q) (pre' ++ b) flags (i + pre.length) (n + pre'.length) m' ↔
      ∃ m, m' = m + pre'.length ∧ Cuts q b flags i n m := by
    intro m'
    exact Cut.shift_iff (item_shifts hplain hstart n₀) (fun n hn => by rw [heat n hn]) hn
  unfold Reaches
  constructor
  · rintro ⟨m', hcut, hend⟩
    obtain ⟨m, rfl, hcomponent⟩ := (hshift m').mp hcut
    exact ⟨m, hcomponent, endsAt_shift.mp hend⟩
  · rintro ⟨m, hcut, hend⟩
    exact ⟨m + pre'.length, (hshift _).mpr ⟨m, rfl, hcut⟩, endsAt_shift.mpr hend⟩

/-! ## The component before the slash -/

theorem eq_slash_iff : eq slash d flags = true ↔ d = slash := eq_iff (by decide)

theorem mayEat_append (hj : j < a.length) : mayEat (a ++ b) flags j = mayEat a flags j := by
  unfold mayEat
  rw [List.getElem?_append_left hj, List.getElem?_append_left (show j - 1 < a.length by omega)]

theorem atComponentStart_append (hj : j < a.length) :
    atComponentStart flags (a ++ b) j = atComponentStart flags a j := by
  unfold atComponentStart
  rw [List.getElem?_append_left (show j - 1 < a.length by omega)]

theorem byteFits_slash (hpathname : flags.has .pathname = true) (hc : c ≠ slash) (start : Bool) :
    byteFits flags c slash start = false := by
  unfold byteFits
  split
  · simp [hpathname]
  · rw [Bool.eq_false_iff]
    intro heq
    exact hc ((slash_iff_of_eq heq).mp rfl)

/-- The slash of the path is taken by the slash between the patterns: what is before it are the first component and
its pattern. -/
theorem reaches_component (hpathname : flags.has .pathname = true) (hdir : flags.has .leadingDir = false)
    (hplain : Plain (p ++ slash :: q)) (hplain' : Plain p) (hp : slash ∉ p) (ha : slash ∉ a)
    (hi : i ≤ p.length) (hj : j ≤ a.length) :
    Reaches (p ++ slash :: q) (a ++ slash :: b) flags i j ↔
      Reaches p a flags i j ∧ Reaches (p ++ slash :: q) (a ++ slash :: b) flags (p.length + 1) (a.length + 1) := by
  induction hsize : (p.length - i) + (a.length - j) using Nat.strongRecOn generalizing i j with
  | _ size ih =>
    -- the byte of the path at `j`: one of the component, or the slash behind it
    have hname : (j < a.length ∧ (a ++ slash :: b)[j]? = a[j]?) ∨
        j = a.length ∧ (a ++ slash :: b)[j]? = some slash := by
      rcases Nat.lt_or_eq_of_le hj with hlt | rfl
      · exact .inl ⟨hlt, List.getElem?_append_left hlt⟩
      · exact .inr ⟨rfl, by simp⟩
    rcases Nat.lt_or_eq_of_le hi with hlt | rfl
    · -- inside the first pattern
      obtain ⟨c, hc⟩ : ∃ c, p[i]? = some c := ⟨p[i], List.getElem?_eq_getElem hlt⟩
      have hc' : (p ++ slash :: q)[i]? = some c := by rw [List.getElem?_append_left hlt, hc]
      have hcs : c ≠ slash := fun heq => hp (heq ▸ List.mem_of_getElem? hc)
      by_cases hstar : c = star
      · subst hstar
        rw [reaches_star hc', reaches_star hc, ih _ (by omega) (show i + 1 ≤ p.length by omega) hj rfl]
        rcases hname with ⟨hjlt, -⟩ | ⟨rfl, hslash⟩
        · rw [mayEat_append hjlt, ih _ (by omega) hi (show j + 1 ≤ a.length by omega) rfl]
          rw [or_and_right, and_assoc]
        · have hstop : mayEat (a ++ slash :: b) flags a.length = false := by simp [mayEat, hpathname]
          have hstop' : mayEat a flags a.length = false := by simp [mayEat]
          simp [hstop, hstop']
      · rw [reaches_one hc' hstar, reaches_one hc hstar, hplain.itemEnd_eq, hplain'.itemEnd_eq]
        rcases hname with ⟨hjlt, hget⟩ | ⟨rfl, hslash⟩
        · have hd : a[j]? = some a[j] := List.getElem?_eq_getElem hjlt
          rw [hplain.fits_eq hc' (hget.trans hd), hplain'.fits_eq hc hd, atComponentStart_append hjlt,
            ih _ (by omega) (show i + 1 ≤ p.length by omega) (show j + 1 ≤ a.length by omega) rfl, and_assoc]
        · rw [hplain.fits_eq hc' hslash, byteFits_slash hpathname hcs, fits_of_none (by simp)]
          simp
    · -- at the slash between the patterns
      have hc : (p ++ slash :: q)[p.length]? = some slash := by simp
      have hfinish : Reaches p a flags p.length j ↔ j = a.length := by
        rw [reaches_finish (by simp)]
        simp [EndsAt, hdir]
      rw [reaches_one hc (by decide), hplain.itemEnd_eq, hfinish]
      rcases hname with ⟨hjlt, hget⟩ | ⟨rfl, hslash⟩
      · have hd : a[j]? = some a[j] := List.getElem?_eq_getElem hjlt
        have hne : a[j] ≠ slash := fun heq => ha (heq ▸ List.getElem_mem hjlt)
        rw [hplain.fits_eq hc (hget.trans hd), byteFits, if_neg (by decide), eq_slash_iff]
        simp [hne, Nat.ne_of_lt hjlt]
      · rw [hplain.fits_eq hc hslash, byteFits, if_neg (by decide), eq_slash_iff]
        simp

/-! ## The dot that begins a component -/

/-- Behind a slash a star may eat what it may at the start of a name, apart from a dot that `PERIOD` protects. -/
theorem mayEat_behind_slash (a : List Byte) (hfree : flags.has .period = false ∨ b.head? ≠ some dot ∨ 0 < n) :
    mayEat (a ++ slash :: b) flags (n + (a.length + 1)) = mayEat b flags n := by
  have hget : (a ++ slash :: b)[n + (a.length + 1)]? = b[n]? := by
    rw [List.getElem?_append_right (by omega), show n + (a.length + 1) - a.length = n + 1 by omega]
    rfl
  unfold mayEat
  rw [hget]
  rcases n with _ | n
  · cases hb : b[0]? with
    | none => rfl
    | some d =>
      rw [← List.head?_eq_getElem?] at hb
      rw [hb] at hfree
      rcases hfree with hperiod | hdot | hlt
      · simp [hperiod]
      · have hne : d ≠ dot := fun heq => hdot (heq ▸ rfl)
        simp [hne]
      · cases hlt
  · have hback : (a ++ slash :: b)[n + 1 + (a.length + 1) - 1]? = b[n]? := by
      rw [List.getElem?_append_right (by omega), show n + 1 + (a.length + 1) - 1 - a.length = n + 1 by omega]
      rfl
    rw [hback]
    have hpos : 0 < n + 1 + (a.length + 1) := by omega
    simp [hpos]

theorem atComponentStart_behind_slash (hpathname : flags.has .pathname = true) :
    atComponentStart flags ((a ++ [slash]) ++ b) (a ++ [slash]).length = true := by
  simp [atComponentStart, hpathname]

/-- Where the component begins with no protected dot, it is matched behind a slash as it is by itself. -/
theorem reaches_behind_slash (hpathname : flags.has .pathname = true) (hplain : Plain (p ++ slash :: q))
    (hfree : flags.has .period = false ∨ b.head? ≠ some dot) :
    Reaches (p ++ slash :: q) (a ++ slash :: b) flags (p.length + 1) (a.length + 1) ↔ Reaches q b flags 0 0 := by
  have heat : ∀ n, 0 ≤ n → mayEat ((a ++ [slash]) ++ b) flags (n + (a ++ [slash]).length) = mayEat b flags n := by
    intro n _
    have hmay : _ = mayEat b flags n := mayEat_behind_slash a (hfree.imp_right .inl)
    simpa using hmay
  have hplain' : Plain ((p ++ [slash]) ++ q) := by simpa using hplain
  have hshift := reaches_shift (i := 0) hplain' (atComponentStart_behind_slash hpathname) heat (Nat.le_refl 0)
  simpa using hshift

/-- A dot that `PERIOD` protects is taken by a dot only. -/
theorem byteFits_dot (hperiod : flags.has .period = true) : byteFits flags c dot true = true ↔ c = dot := by
  unfold byteFits
  split
  next hquestion =>
    subst hquestion
    simp [hperiod, dot, question]
  next => exact eq_iff_left (by decide)

/-- **Behind a slash a protected dot is taken by the first item that is no star**, which must be a dot. -/
theorem reaches_dot_behind_slash (hpathname : flags.has .pathname = true) (hdir : flags.has .leadingDir = false)
    (hperiod : flags.has .period = true) (hb : b.head? = some dot) (hplain : Plain (pre ++ q)) :
    Reaches (pre ++ q) (a ++ slash :: b) flags pre.length (a.length + 1) ↔
      ∃ k r, q = List.replicate k star ++ dot :: r ∧ Reaches (dot :: r) b flags 0 0 := by
  have hname : (a ++ slash :: b)[a.length + 1]? = some dot := by
    rw [List.getElem?_append_right (by omega), Nat.add_sub_cancel_left, List.getElem?_cons_succ,
      ← List.head?_eq_getElem?, hb]
  induction q generalizing pre with
  | nil =>
    rw [reaches_finish (by simp)]
    constructor
    · rintro (hend | ⟨hdir', -⟩)
      · rw [hend] at hname
        simp at hname
      · simp [hdir] at hdir'
    · rintro ⟨k, r, hnil, -⟩
      simp at hnil
  | cons c q ih =>
    have hc : (pre ++ c :: q)[pre.length]? = some c := by simp
    by_cases hstar : c = star
    · subst hstar
      have hstop : mayEat (a ++ slash :: b) flags (a.length + 1) = false := by
        simp [mayEat, hname, hperiod, hpathname]
      have hstep := ih (show Plain ((pre ++ [star]) ++ q) by simpa using hplain)
      have hpre : Reaches (pre ++ star :: q) (a ++ slash :: b) flags (pre.length + 1) (a.length + 1) ↔
          ∃ k r, q = List.replicate k star ++ dot :: r ∧ Reaches (dot :: r) b flags 0 0 := by
        simpa using hstep
      rw [reaches_star hc, hstop, hpre]
      constructor
      · rintro (⟨k, r, rfl, hr⟩ | ⟨hfalse, -⟩)
        · exact ⟨k + 1, r, rfl, hr⟩
        · cases hfalse
      · rintro ⟨_ | k, r, hq, hr⟩
        · exact absurd (List.cons.inj hq).1 (by decide)
        · exact .inl ⟨k, r, (List.cons.inj hq).2, hr⟩
    · -- the item is asked the same as at the start of the component, and what follows it is no longer at the start
      have hq : Plain (c :: q) := hplain.of_append
      have hb' : b[0]? = some dot := by rw [← List.head?_eq_getElem?, hb]
      have hstart : atComponentStart flags (a ++ slash :: b) (a.length + 1) = true := by
        simp [atComponentStart, hpathname]
      have heat : ∀ n, 1 ≤ n → mayEat ((a ++ [slash]) ++ b) flags (n + (a ++ [slash]).length) = mayEat b flags n := by
        intro n hn
        have hmay : _ = mayEat b flags n := mayEat_behind_slash a (.inr (.inr hn))
        simpa using hmay
      have hrest := reaches_shift (i := 1) hplain (atComponentStart_behind_slash hpathname) heat (Nat.le_refl 1)
      have hsame : Reaches (pre ++ c :: q) (a ++ slash :: b) flags pre.length (a.length + 1) ↔
          c = dot ∧ Reaches (c :: q) b flags 0 0 := by
        have hhead : Reaches (c :: q) b flags 0 0 ↔ _ := reaches_one (b := c) rfl hstar
        rw [hhead, hq.itemEnd_eq, hq.fits_eq (c := c) rfl hb', reaches_one hc hstar, hplain.itemEnd_eq,
          hplain.fits_eq hc hname, hstart, show atComponentStart flags b 0 = true from rfl, byteFits_dot hperiod,
          Nat.add_comm pre.length 1, show a.length + 1 + 1 = 1 + (a ++ [slash]).length by simp; omega,
          show a ++ slash :: b = (a ++ [slash]) ++ b by simp, hrest]
        simp
      rw [hsame]
      constructor
      · rintro ⟨rfl, hr⟩
        exact ⟨0, q, rfl, hr⟩
      · rintro ⟨_ | k, r, hcons, hr⟩
        · obtain ⟨rfl, rfl⟩ := List.cons.inj hcons
          exact ⟨rfl, hr⟩
        · exact absurd (List.cons.inj hcons).1 hstar

/-! ## Paths -/

/-- The dot that begins the path begins its first component. -/
theorem dotRefused_component (hplain : Plain (p ++ slash :: q)) (hplain' : Plain p) :
    dotRefused (p ++ slash :: q) (a ++ slash :: b) flags = dotRefused p a flags := by
  have hescape : (p ++ slash :: q).head? ≠ some backslash := by
    rw [List.head?_eq_getElem?]
    exact fun heq => (hplain.getElem?_ne heq).2 rfl
  have hescape' : p.head? ≠ some backslash := by
    rw [List.head?_eq_getElem?]
    exact fun heq => (hplain'.getElem?_ne heq).2 rfl
  unfold dotRefused
  rw [beq_eq_false_iff_ne.mpr hescape, beq_eq_false_iff_ne.mpr hescape']
  have hslash : (slash == dot) = false ∧ (some slash != some dot) = true := by decide
  have hnone : ((none : Option Byte) != some dot) = true := by decide
  rcases a with _ | ⟨d, a⟩ <;> rcases p with _ | ⟨c, p⟩ <;> simp [hslash, hnone]

theorem dotRefused_dot (hplain : Plain q) (hperiod : flags.has .period = true) (hb : b.head? = some dot) :
    dotRefused q b flags = false ↔ q.head? = some dot := by
  have hescape : q.head? ≠ some backslash := by
    rw [List.head?_eq_getElem?]
    exact fun heq => (hplain.getElem?_ne heq).2 rfl
  simp [dotRefused, hperiod, hb, hescape]

theorem dotRefused_of_free (hfree : flags.has .period = false ∨ b.head? ≠ some dot) :
    dotRefused q b flags = false := by
  rcases hfree with hperiod | hdot
  · simp [dotRefused, hperiod]
  · simp [dotRefused, hdot]

theorem means_dot : Means (dot :: q) b flags ↔ Reaches (dot :: q) b flags 0 0 := by
  simp [Means, dotRefused]

theorem head_of_reaches_dot (hplain : Plain (dot :: q)) (h : Reaches (dot :: q) b flags 0 0) :
    b.head? = some dot := by
  obtain ⟨hfits, -⟩ := (reaches_one (b := dot) rfl (by decide)).mp h
  cases hd : b[0]? with
  | none => simp [fits_of_none hd] at hfits
  | some d =>
    rw [hplain.fits_eq (c := dot) rfl hd, byteFits, if_neg (by decide), eq_iff (by decide)] at hfits
    rw [List.head?_eq_getElem?, hd, hfits]

/-- **A component behind a slash means what it means by itself**, unless stars stand before the dot that must take a
protected one. -/
theorem reaches_behind_slash_iff (hpathname : flags.has .pathname = true) (hdir : flags.has .leadingDir = false)
    (hplain : Plain (p ++ slash :: q)) :
    Reaches (p ++ slash :: q) (a ++ slash :: b) flags (p.length + 1) (a.length + 1) ↔
      Means q b flags ∨ flags.has .period = true ∧
        ∃ k r, q = List.replicate (k + 1) star ++ dot :: r ∧ Means (dot :: r) b flags := by
  have hassoc : Plain ((p ++ [slash]) ++ q) := by simpa using hplain
  have hq : Plain q := hassoc.of_append
  by_cases hfree : flags.has .period = false ∨ b.head? ≠ some dot
  · rw [reaches_behind_slash hpathname hplain hfree, Means, dotRefused_of_free hfree]
    refine ⟨fun h => .inl ⟨rfl, h⟩, ?_⟩
    rintro (⟨-, h⟩ | ⟨hperiod, k, r, rfl, h⟩)
    · exact h
    · rcases hfree with hoff | hdot
      · rw [hoff] at hperiod
        cases hperiod
      · exact absurd (head_of_reaches_dot hq.of_append h.2) hdot
  · simp only [not_or, Bool.not_eq_false, not_not] at hfree
    obtain ⟨hperiod, hb⟩ := hfree
    have hdot := reaches_dot_behind_slash (a := a) hpathname hdir hperiod hb hassoc
    rw [List.length_append, List.length_singleton, List.append_assoc, List.singleton_append] at hdot
    rw [hdot, Means, dotRefused_dot hq hperiod hb]
    constructor
    · rintro ⟨_ | k, r, rfl, h⟩
      · exact .inl ⟨rfl, h⟩
      · exact .inr ⟨hperiod, k, r, rfl, means_dot.mpr h⟩
    · rintro (⟨hhead, h⟩ | ⟨-, k, r, rfl, h⟩)
      · obtain ⟨r, rfl⟩ := List.head?_eq_some_iff.mp hhead
        exact ⟨0, r, rfl, h⟩
      · exact ⟨k + 1, r, rfl, h.2⟩

theorem fnmatch_iff_means (pattern name : List Byte) (flags : Flags) :
    fnmatch pattern name flags = true ↔ Means pattern name flags :=
  fnmatch_iff_reaches pattern name flags

/-- **A path is matched component by component**, exactly where no stars stand before a dot that must take a protected
one. -/
theorem fnmatch_component_iff (p q a b : List Byte) (flags : Flags) (hp : Plain p) (hq : Plain q) (hslash : slash ∉ p)
    (hname : slash ∉ a) (hpathname : flags.has .pathname = true) (hdir : flags.has .leadingDir = false) :
    (fnmatch (p ++ slash :: q) (a ++ slash :: b) flags = true ↔
      fnmatch p a flags = true ∧ fnmatch q b flags = true) ↔ ¬BehindStars p q a b flags := by
  have hplain : Plain (p ++ slash :: q) := hp.append hq.slash_cons
  have hpath : Means (p ++ slash :: q) (a ++ slash :: b) flags ↔ Means p a flags ∧
      (Means q b flags ∨ flags.has .period = true ∧
        ∃ k r, q = List.replicate (k + 1) star ++ dot :: r ∧ Means (dot :: r) b flags) := by
    rw [← reaches_behind_slash_iff hpathname hdir hplain, Means, dotRefused_component hplain hp,
      reaches_component hpathname hdir hplain hp hslash hname (Nat.zero_le _) (Nat.zero_le _), ← and_assoc]
    rfl
  have hexclusive : Means q b flags → ¬BehindStars p q a b flags := by
    rintro ⟨hallowed, hreach⟩ ⟨hperiod, -, k, r, rfl, hr⟩
    have hb := head_of_reaches_dot hq.of_append hr.2
    rw [dotRefused_dot hq hperiod hb] at hallowed
    exact absurd (Option.some.inj hallowed) (by decide)
  rw [fnmatch_iff_means, fnmatch_iff_means, fnmatch_iff_means, hpath]
  constructor
  · rintro hiff ⟨hperiod, hpa, hstars⟩
    exact hexclusive (hiff.mp ⟨hpa, .inr ⟨hperiod, hstars⟩⟩).2 ⟨hperiod, hpa, hstars⟩
  · intro hnot
    refine and_congr_right fun hpa => or_iff_left_of_imp fun ⟨hperiod, hstars⟩ => ?_
    exact absurd ⟨hperiod, hpa, hstars⟩ hnot

/-- `a/.*` and `a/.b`, under `PATHNAME` and `PERIOD`. -/
theorem fnmatch_component_iff_dot : Plain [0x61#8] ∧ Flags.has ⟨5⟩ .period = true ∧
    ((fnmatch ([0x61#8] ++ slash :: [dot, star]) ([0x61#8] ++ slash :: [dot, 0x62#8]) ⟨5⟩ = true ↔
      fnmatch [0x61#8] [0x61#8] ⟨5⟩ = true ∧ fnmatch [dot, star] [dot, 0x62#8] ⟨5⟩ = true) ↔
      ¬BehindStars [0x61#8] [dot, star] [0x61#8] [dot, 0x62#8] ⟨5⟩) :=
  ⟨⟨by decide, by decide⟩, by decide,
    fnmatch_component_iff _ _ _ _ _ ⟨by decide, by decide⟩ ⟨by decide, by decide⟩ (by decide) (by decide) (by decide)
      (by decide)⟩

/-- The dot of `a/.b` is taken by the one of `a/*.b`, the star in front of it by nothing; by itself `*.b` does not
match `.b`. -/
theorem star_hides_dot :
    ¬(fnmatch ([0x61#8] ++ slash :: [star, dot, 0x62#8]) ([0x61#8] ++ slash :: [dot, 0x62#8]) ⟨5⟩ = true ↔
      fnmatch [0x61#8] [0x61#8] ⟨5⟩ = true ∧ fnmatch [star, dot, 0x62#8] [dot, 0x62#8] ⟨5⟩ = true) := by
  have hrefused : fnmatch [star, dot, 0x62#8] [dot, 0x62#8] ⟨5⟩ = false := by
    rw [fnmatch, if_pos (by decide)]
  have hpath : fnmatch ([0x61#8] ++ slash :: [star, dot, 0x62#8]) ([0x61#8] ++ slash :: [dot, 0x62#8]) ⟨5⟩ = true := by
    refine (fnmatch_iff_reaches _ _ _).mpr ⟨by decide, 4, ?_, .inl rfl⟩
    apply Cut.one (item_one (b := 0x61#8) rfl (by decide)) (by decide)
    apply Cut.one (item_one (b := slash) rfl (by decide)) (by decide)
    apply Cut.skip (item_star rfl)
    apply Cut.one (item_one (b := dot) rfl (by decide)) (by decide)
    apply Cut.one (item_one (b := 0x62#8) rfl (by decide)) (by decide)
    exact Cut.finish (item_finish rfl)
  intro hiff
  have hboth := (hiff.mp hpath).2
  rw [hrefused] at hboth
  cases hboth

end SlateOS.Fnmatch
