/-
# SlateOS.Ere.Skipping -- the prefilter changes no scan

`userspace/ere/src/engine.rs`: while every thread was seeded at its own position and no match can begin there, all of
the pattern's threads die, and what the prefix's thread seeds is what a search begun at the next position has. So the
scan that steps over such positions answers as the one that passes them.
-/
import SlateOS.Ere.Pike

namespace SlateOS.Ere

open Foundation.DepthFirst
open Relation (ReflTransGen)

namespace Regex

variable [CharData] {re : Regex} {input : List Ch} {bol : StartOfLine} {nslots sp : Nat} {longest : Bool}

/-! ## Fresh threads -/

/-- The only thread of the search prefix is the one that skips, its slots empty; and a fresh list is a seeded one. -/
structure Seeded (re : Regex) (input : List Ch) (bol : StartOfLine) (nslots : Nat) (st : ScanState) : Prop where
  skips : ∀ th ∈ st.threads, th.1 < 3 → th = (1, List.replicate nslots none)
  fresh : st.fresh = true → st.threads = re.seeds input bol 0 nslots st.sp

/-- What a pass keeps: its list is a visit, what is of the prefix there is its thread, and where nothing came before
what the prefix seeded, that is what a search begun at the next position has. -/
structure Reseeds (re : Regex) (input : List Ch) (bol : StartOfLine) (nslots sp : Nat) (p : Pass) : Prop where
  visits : ∃ roots, p.nlist = visitAll (re.threadGraph input bol (sp + 1)) (re.prog.length + 1) roots .none
  skips : ∀ th ∈ p.nlist.out, th.1 < 3 → th = (1, List.replicate nslots none)
  seeded : p.older = some 0 → p.seeded = (re.seeds input bol 0 nslots (sp + 1)).length ∧
    re.seeds input bol 0 nslots (sp + 1) <+: p.nlist.out

theorem added_eq_visit (pc : Nat) (caps : Slots) (list : ThreadList) :
    re.added input bol sp pc caps list = visit (re.threadGraph input bol sp) (re.prog.length + 1) pc caps list :=
  addThread_eq_visit sp _ pc caps list

theorem seeds_eq_visit : re.seeds input bol 0 nslots sp =
    (visit (re.threadGraph input bol sp) (re.prog.length + 1) 0 (List.replicate nslots none) .none).out := by
  rw [seeds, added_eq_visit]

/-- Seeded again, the prefix leads to nothing of its own but the thread that skips, and keeps the slots for it. -/
theorem WellFormed.steps_again (h : WellFormed re) {caps : Slots} {th : Thread}
    (hsteps : ReflTransGen (re.threadGraph input bol sp).Step (2, caps) th) : 3 ≤ th.1 ∨ th.2 = caps := by
  obtain ⟨h0, h1, h2, h3⟩ := h.searching
  induction hsteps with
  | refl => exact .inr rfl
  | @tail th th' _ hstep ih =>
    obtain ⟨⟨hnode, hleaf⟩, hsucc, hcarry⟩ := hstep
    rcases Nat.lt_or_ge th.1 3 with hlt | hge
    · refine .inr (hcarry.trans (Eq.trans ?_ (ih.resolve_left (by omega))))
      have hpc : th.1 = 0 ∨ th.1 = 1 ∨ th.1 = 2 := by omega
      rcases hpc with hpc | hpc | hpc <;> simp [threadGraph, hpc, h0, h1, h2]
    · exact .inl (Nat.le_of_succ_le (h.succ_ge hge hsucc))

theorem WellFormed.reseeds_taken (h : WellFormed re) {th : Thread} {p : Pass} (hp : Reseeds re input bol nslots sp p)
    (hth : th.1 < 3 → th = (1, List.replicate nslots none)) : Reseeds re input bol nslots sp (re.taken input bol sp th p) := by
  obtain ⟨roots, hroots⟩ := hp.visits
  have hvisit : (re.taken input bol sp th p).nlist =
      visitAll (re.threadGraph input bol (sp + 1)) (re.prog.length + 1) (roots ++ [(th.1 + 1, th.2)]) .none := by
    rw [taken_nlist, added_eq_visit, visitAll_append, ← hroots]
    rfl
  obtain ⟨new, hnew, hreach⟩ := visit_out (g := re.threadGraph input bol (sp + 1)) (re.prog.length + 1) (th.1 + 1) th.2
    p.nlist
  have hout : (re.taken input bol sp th p).nlist.out = p.nlist.out ++ new := by rw [taken_nlist, added_eq_visit, hnew]
  refine ⟨⟨_, hvisit⟩, fun th' hth' hlt => ?_, fun holder => ?_⟩
  · have hmem := hth'
    rw [hout] at hth'
    rcases List.mem_append.mp hth' with hth' | hth'
    · exact hp.skips th' hth' hlt
    · rcases Nat.lt_or_ge th.1 3 with hlt3 | hge
      · obtain rfl := hth hlt3
        have hcaps := (h.steps_again (hreach th' hth')).resolve_left (by omega)
        -- the other two instructions of the prefix do not become threads
        have hleaf := ((leavesOut_visitAll _ _ leavesOut_none th'.1).mp ⟨th'.2, hvisit ▸ hmem⟩).2
        obtain ⟨h0, h1, h2, h3⟩ := h.searching
        have hpc : th'.1 = 0 ∨ th'.1 = 1 ∨ th'.1 = 2 := by omega
        rcases hpc with hpc | hpc | hpc
        · simp [threadGraph, hpc, h0, Inst.waits] at hleaf
        · exact Prod.ext hpc hcaps
        · simp [threadGraph, hpc, h2, Inst.waits] at hleaf
      · have hge' := h.steps_ge (show 3 ≤ ((th.1 + 1, th.2) : Thread).1 by simp; omega) (hreach th' hth')
        omega
  · rcases Nat.lt_or_ge th.1 3 with hlt3 | hge
    · obtain rfl := hth hlt3
      have hentry : (1 : Nat) < re.entry := by rw [h.entry]; decide
      rw [taken, if_pos hentry] at holder ⊢
      have hempty : p.nlist.out = [] := by simpa using holder
      have hbarren : Barren (re.threadGraph input bol (sp + 1)) (· ∈ p.nlist.seen) := by
        rw [hroots] at hempty ⊢
        refine barren_of_out_eq_nil _ ?_ roots hempty
        simp [threadGraph]
      have hagain : (re.added input bol (sp + 1) 2 (List.replicate nslots none) p.nlist).out =
          re.seeds input bol 0 nslots (sp + 1) := by
        rw [added_eq_visit, h.visit_again _ hbarren hempty, seeds_eq_visit]
      simp [hagain]
    · have hentry : ¬ th.1 < re.entry := by rw [h.entry]; omega
      rw [taken, if_neg hentry] at holder
      have hsame : (re.taken input bol sp th p).seeded = p.seeded := by rw [taken, if_neg hentry]
      obtain ⟨hseeded, hpre⟩ := hp.seeded holder
      rw [hsame, hout]
      exact ⟨hseeded, hpre.trans (List.prefix_append _ _)⟩

theorem reseeds_begin (st : ScanState) :
    Reseeds re input bol nslots sp ⟨.none, st.matched, st.matchedAt, none, 0⟩ :=
  ⟨⟨[], rfl⟩, by simp [Visited.none], by simp⟩

/-- **What a position's pass leaves is seeded** as what it was given. -/
theorem WellFormed.seeded_advance (h : WellFormed re) {st : ScanState} (hst : Seeded re input bol nslots st) :
    Seeded re input bol nslots (re.advance input bol longest st) := by
  have hpass : Reseeds re input bol nslots st.sp
      (re.pass input bol longest st.sp st.threads ⟨.none, st.matched, st.matchedAt, none, 0⟩) := by
    refine pass_induct (P := Reseeds re input bol nslots st.sp) (fun th hth _ p hp => ?_) (fun th _ _ p hp => ?_)
      (reseeds_begin st)
    · exact h.reseeds_taken hp (hst.skips th hth)
    · exact ⟨by simpa using hp.visits, by simpa using hp.skips, by simpa using hp.seeded⟩
  refine ⟨hpass.skips, fun hfresh => ?_⟩
  simp only [advance, Bool.and_eq_true, beq_iff_eq] at hfresh ⊢
  obtain ⟨hseeded, hpre⟩ := hpass.seeded hfresh.1
  exact (hpre.eq_of_length (hseeded.symm.trans hfresh.2)).symm

theorem WellFormed.seeded_seeds (h : WellFormed re) (fresh : Bool) (matched : Option Slots) (matchedAt : Option Nat) :
    Seeded re input bol nslots ⟨re.seeds input bol 0 nslots sp, sp, fresh, matched, matchedAt⟩ := by
  obtain ⟨new, hnew, hreach⟩ := h.seeds_eq input bol nslots sp
  refine ⟨fun th hth hlt => ?_, fun _ => rfl⟩
  simp only [hnew] at hth
  rcases List.mem_append.mp hth with hth | hth
  · exact absurd (hreach th hth).1 (Nat.not_le.mpr hlt)
  · exact List.mem_singleton.mp hth

/-! ## Stepping over -/

section

variable {pf : Prefilter} {matched : Option Slots} {matchedAt : Option Nat} {fresh : Bool}

variable (nslots longest matched matchedAt fresh) in
/-- **Where no match can begin, a seeded search goes on as one seeded at the next position**, or with no thread at the
end. -/
theorem WellFormed.advance_seeds (h : WellFormed re) (hpf : re.prefilter = some pf)
    (hcan : ¬ re.canStart input bol pf sp = true) :
    ∃ fresh', re.advance input bol longest ⟨re.seeds input bol 0 nslots sp, sp, fresh, matched, matchedAt⟩ =
      ⟨if sp < input.length then re.seeds input bol 0 nslots (sp + 1) else [], sp + 1, fresh', matched, matchedAt⟩ := by
  obtain ⟨new, hnew, hreach⟩ := h.seeds_eq input bol nslots sp
  obtain ⟨h0, h1, h2, h3⟩ := h.searching
  have hdead : ∀ th ∈ new, ¬ re.takesAt input sp th.1 ∧ re.prog[th.1]? ≠ some .matched := by
    intro th hth
    obtain ⟨-, hpath⟩ := hreach th hth
    refine ⟨?_, (stuck_of_not_canStart h hpf hcan hpath).2⟩
    intro htakes
    have hsp := (stuck_of_not_canStart h hpf hcan (hpath.tail (step_of_takesAt htakes))).1
    simp at hsp
  rcases Nat.lt_or_ge sp input.length with hlt | hge
  · have htakes : re.takesAt input sp 1 := ⟨.skip, h1, by simp [Inst.consumes, takes, hlt]⟩
    have hentry : (1 : Nat) < re.entry := by rw [h.entry]; decide
    have hagain : (re.added input bol (sp + 1) 2 (List.replicate nslots none) .none).out =
        re.seeds input bol 0 nslots (sp + 1) := by
      rw [added_eq_visit, h.visit_again _ ⟨fun x hx => absurd hx List.not_mem_nil, fun x _ hx => absurd hx List.not_mem_nil⟩ rfl,
        seeds_eq_visit]
    have hpass : ∀ p, re.pass input bol longest sp (re.seeds input bol 0 nslots sp) p =
        re.taken input bol sp (1, List.replicate nslots none) p := by
      intro p
      rw [hnew, pass_all_dead hdead, pass_takes htakes, pass]
    simp [advance, hpass, taken, hentry, hagain, if_pos hlt]
  · have hnot : ¬ re.takesAt input sp 1 := by
      rintro ⟨inst, hinst, htakes⟩
      cases h1.symm.trans hinst
      simp [Inst.consumes, takes, hge] at htakes
    have hmatched : re.prog[1]? ≠ some .matched := by simp [h1]
    have hpass : ∀ p, re.pass input bol longest sp (re.seeds input bol 0 nslots sp) p = p := by
      intro p
      rw [hnew, pass_all_dead hdead, pass_dead hnot hmatched, pass]
    simp [advance, hpass, Nat.not_lt.mpr hge, Visited.none]

/-- Without a prefilter the loop does not ask whether its threads are fresh. -/
theorem scanLoop_fresh (seedPc fuel : Nat) (st : ScanState) (fresh : Bool) :
    re.scanLoop input bol none seedPc longest nslots fuel { st with fresh := fresh } =
      re.scanLoop input bol none seedPc longest nslots fuel st := by
  cases fuel <;> rfl

theorem scanLoop_nil (pf : Option Prefilter) (seedPc fuel : Nat) (fresh : Bool) :
    re.scanLoop input bol pf seedPc longest nslots fuel ⟨[], sp, fresh, matched, matchedAt⟩ = matched := by
  cases fuel with
  | zero => rfl
  | succ fuel => simp [scanLoop]

theorem WellFormed.seeds_ne_nil (h : WellFormed re) : (re.seeds input bol 0 nslots sp).isEmpty = false := by
  obtain ⟨new, hnew, -⟩ := h.seeds_eq input bol nslots sp
  simp [hnew]

/-- Passing a position where no match can begin. -/
theorem WellFormed.scanLoop_pass (h : WellFormed re) (hpf : re.prefilter = some pf) (hle : sp ≤ input.length)
    (hcan : ¬ re.canStart input bol pf sp = true) (fuel : Nat) :
    re.scanLoop input bol none 0 longest nslots (fuel + 1) ⟨re.seeds input bol 0 nslots sp, sp, true, matched, matchedAt⟩ =
      if sp < input.length then
        re.scanLoop input bol none 0 longest nslots fuel
          ⟨re.seeds input bol 0 nslots (sp + 1), sp + 1, true, matched, matchedAt⟩
      else matched := by
  obtain ⟨fresh', hadvance⟩ := h.advance_seeds nslots longest matched matchedAt true hpf hcan
  simp only [scanLoop, if_neg (Nat.not_lt.mpr hle), h.seeds_ne_nil, Option.filter_none, hadvance, Bool.false_eq_true, if_false]
  split
  · exact (scanLoop_fresh 0 fuel ⟨_, sp + 1, true, matched, matchedAt⟩ fresh').symm ▸ rfl
  · exact scanLoop_nil none 0 fuel fresh'

theorem firstStart_succ {p : Option Nat} (hcan : ¬ re.canStart input bol pf sp = true)
    (hp : FirstStart re input bol pf sp p) : FirstStart re input bol pf (sp + 1) p := by
  rcases p with - | p
  · exact fun q hq => hp q (by omega)
  · obtain ⟨⟨hge, hcanp⟩, hbefore⟩ := hp
    have hne : p ≠ sp := fun heq => hcan (heq ▸ hcanp)
    exact ⟨⟨by omega, hcanp⟩, fun q hq => hbefore q (by omega)⟩

theorem firstStart_of_succ {p : Option Nat} (hcan : ¬ re.canStart input bol pf sp = true)
    (hp : FirstStart re input bol pf (sp + 1) p) : FirstStart re input bol pf sp p := by
  have hhere : ∀ q, sp ≤ q → re.canStart input bol pf q = true → sp + 1 ≤ q := fun q hq hcanq =>
    Nat.lt_of_le_of_ne hq fun heq => hcan (heq ▸ hcanq)
  rcases p with - | p
  · exact fun q hq hcanq => hp q (hhere q hq hcanq) hcanq
  · obtain ⟨⟨hge, hcanp⟩, hbefore⟩ := hp
    exact ⟨⟨by omega, hcanp⟩, fun q hq hlt hcanq => hbefore q (hhere q hq hcanq) hlt hcanq⟩

/-- **Passing all the positions before the next where a match can begin** comes to the search seeded there, or to the
end. -/
theorem WellFormed.scanLoop_over (h : WellFormed re) (hpf : re.prefilter = some pf) {p : Option Nat} (fuel : Nat)
    (hle : sp ≤ input.length) (hfuel : input.length < fuel + sp) (hp : FirstStart re input bol pf sp p) :
    re.scanLoop input bol none 0 longest nslots fuel ⟨re.seeds input bol 0 nslots sp, sp, true, matched, matchedAt⟩ =
      p.elim matched fun p => re.scanLoop input bol none 0 longest nslots (fuel - (p - sp))
        ⟨re.seeds input bol 0 nslots p, p, true, matched, matchedAt⟩ := by
  induction fuel generalizing sp with
  | zero => omega
  | succ fuel ih =>
    by_cases hcan : re.canStart input bol pf sp = true
    · rcases p with - | p
      · exact absurd hcan (hp sp (Nat.le_refl _))
      · obtain ⟨⟨hge, -⟩, hbefore⟩ := hp
        obtain rfl : p = sp := by
          by_contra hne
          exact hbefore sp (Nat.le_refl _) (by omega) hcan
        simp
    · rw [h.scanLoop_pass hpf hle hcan]
      split
      next hlt =>
        rw [ih hlt (by omega) (firstStart_succ hcan hp)]
        rcases p with - | p
        · rfl
        · have hge := (firstStart_succ hcan hp).1.1
          have hsub : fuel + 1 - (p - sp) = fuel - (p - (sp + 1)) := by omega
          simp only [Option.elim, hsub]
      next hend =>
        rcases p with - | p
        · rfl
        · have hlt := canStart_lt hp.1.2
          have hge := hp.1.1
          omega

/-- **The loop answers with the prefilter what it answers without.** -/
theorem WellFormed.scanLoop_unfiltered (h : WellFormed re) (hpf : re.prefilter = some pf) (fuel fuel' : Nat) {st : ScanState}
    (hst : Seeded re input bol nslots st) (hfuel : input.length < fuel + st.sp) (hfuel' : input.length < fuel' + st.sp) :
    re.scanLoop input bol (some pf) 0 longest nslots fuel st = re.scanLoop input bol none 0 longest nslots fuel' st := by
  induction fuel generalizing fuel' st with
  | zero =>
    rw [scanLoop]
    rcases fuel' with - | fuel'
    · rfl
    · rw [scanLoop, if_pos (by omega)]
  | succ fuel ih =>
    rcases fuel' with - | fuel'
    · rw [scanLoop, scanLoop, if_pos (by omega)]
    · by_cases hend : input.length < st.sp
      · rw [scanLoop, scanLoop, if_pos hend, if_pos hend]
      · by_cases hempty : st.threads.isEmpty = true
        · rw [scanLoop, scanLoop, if_neg hend, if_neg hend, if_pos hempty, if_pos hempty]
        · by_cases hskip : (st.fresh && !re.canStart input bol pf st.sp) = true
          · -- the search was seeded here, so the loop that does not step over comes to where the other steps to
            obtain ⟨hfresh, hcan⟩ : st.fresh = true ∧ ¬ re.canStart input bol pf st.sp = true := by simpa using hskip
            obtain ⟨threads, sp, fresh, matched, matchedAt⟩ := st
            simp only at hfresh hcan hend hfuel hfuel'
            obtain rfl : fresh = true := hfresh
            obtain rfl : threads = re.seeds input bol 0 nslots sp := hst.fresh rfl
            have hnext := nextStart_spec re input bol pf (sp + 1)
            rw [h.scanLoop_over hpf (fuel' + 1) (by omega) hfuel' (firstStart_of_succ hcan hnext), scanLoop, if_neg hend,
              if_neg hempty]
            simp only [Option.filter_some, hskip, if_true]
            rcases hp : re.nextStart input bol pf (sp + 1) with - | p
            · rfl
            · rw [hp] at hnext
              have hge := hnext.1.1
              have hlt := canStart_lt hnext.1.2
              exact ih _ (h.seeded_seeds true matched matchedAt) (by simp only; omega) (by simp only; omega)
          · rw [scanLoop, scanLoop, if_neg hend, if_neg hend, if_neg hempty, if_neg hempty]
            simp only [Option.filter_some, hskip, Bool.false_eq_true, if_false, Option.filter_none]
            exact ih fuel' (h.seeded_advance hst) (by simp only [advance]; omega) (by simp only [advance]; omega)

end

/-! ## Whole scans -/

theorem added_of_unfiltered (sp pc : Nat) (caps : Slots) (list : ThreadList) :
    re.unfiltered.added input bol sp pc caps list = re.added input bol sp pc caps list := by
  have hadd : ∀ fuel pc caps list,
      re.unfiltered.addThread input bol sp fuel pc caps list = re.addThread input bol sp fuel pc caps list := by
    intro fuel
    induction fuel with
    | zero => exact fun _ _ _ => rfl
    | succ fuel ih =>
      intro pc caps list
      unfold addThread
      simp only [ih]
      rfl
  exact hadd _ pc caps list

theorem seeds_of_unfiltered (seedPc sp : Nat) :
    re.unfiltered.seeds input bol seedPc nslots sp = re.seeds input bol seedPc nslots sp := by
  rw [seeds, seeds, added_of_unfiltered]

theorem pass_of_unfiltered (sp : Nat) (threads : List Thread) (p : Pass) :
    re.unfiltered.pass input bol longest sp threads p = re.pass input bol longest sp threads p := by
  induction threads generalizing p with
  | nil => rfl
  | cons th threads ih =>
    unfold pass
    simp only [ih, added_of_unfiltered]
    rfl

theorem scanLoop_of_unfiltered (pf : Option Prefilter) (seedPc fuel : Nat) (st : ScanState) :
    re.unfiltered.scanLoop input bol pf seedPc longest nslots fuel st = re.scanLoop input bol pf seedPc longest nslots fuel st := by
  have hadvance : ∀ st, re.unfiltered.advance input bol longest st = re.advance input bol longest st := by
    intro st
    simp only [advance, pass_of_unfiltered]
  induction fuel generalizing st with
  | zero => rfl
  | succ fuel ih =>
    unfold scanLoop
    simp only [ih, hadvance, seeds_of_unfiltered]
    rfl

/-- Without a prefilter the search begins where it starts. -/
theorem scan_of_unfiltered (start : Nat) :
    re.unfiltered.scan input bol start 0 longest nslots =
      re.scanLoop input bol none 0 longest nslots (input.length + 1)
        ⟨re.seeds input bol 0 nslots (min start input.length), min start input.length, true, none, none⟩ := by
  rw [← seeds_of_unfiltered]
  exact scanLoop_of_unfiltered none 0 _ _

/-- **The prefilter changes no scan**: from any position, it answers as the scan without one. -/
theorem WellFormed.scan_unfiltered (h : WellFormed re) (start : Nat) (longest : Bool) (nslots : Nat) :
    re.scan input bol start 0 longest nslots = re.unfiltered.scan input bol start 0 longest nslots := by
  have hle := Nat.min_le_right start input.length
  rw [scan_of_unfiltered, scan]
  rcases hpf : re.prefilter with - | pf
  · rfl
  · have hnext := nextStart_spec re input bol pf (min start input.length)
    rw [h.scanLoop_over hpf (input.length + 1) hle (by omega) hnext]
    simp only [if_true]
    rcases hp : re.nextStart input bol pf (min start input.length) with - | p
    · rfl
    · rw [hp] at hnext
      have hge := hnext.1.1
      have hlt := canStart_lt hnext.1.2
      exact h.scanLoop_unfiltered hpf _ _ (h.seeded_seeds true none none) (by simp only; omega) (by simp only; omega)

end Regex

end SlateOS.Ere
