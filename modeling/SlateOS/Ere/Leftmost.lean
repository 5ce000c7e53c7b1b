/-
# SlateOS.Ere.Leftmost -- the leftmost start

`userspace/ere/src/engine.rs`: the first scan of `run`. Its threads stand in the order of where their matches began, the
search prefix's own behind them, so the first that accepts drops only threads whose matches began no earlier. Wherever
a path has come to from a position, a thread stands that began no later, or what began no later has accepted.
-/
import SlateOS.Ere.Search

namespace SlateOS.Ere

open Foundation.DepthFirst
open Relation (ReflTransGen)

namespace Regex

variable [CharData] {re : Regex} {input : List Ch} {bol : StartOfLine} {nslots start s sp : Nat} {c : Config}

/-- Something is found that began no later. -/
def FoundBy (matched : Option Slots) (s : Nat) : Prop := ∃ caps, matched = some caps ∧ began caps ≤ s

/-- The search prefix's own thread. -/
def skipper (nslots : Nat) : Thread := (1, List.replicate nslots none)

/-- What the search has come to. Of its threads, `own` are the pattern's. -/
structure Leading (re : Regex) (input : List Ch) (bol : StartOfLine) (nslots start : Nat) (st : ScanState)
    (own : List Thread) : Prop where
  sp_ge : start ≤ st.sp
  threads : st.threads = own ++ if st.matched.isNone ∧ st.sp ≤ input.length then [skipper nslots] else []
  follows : ∀ th ∈ own, Follows re input bol nslots start st.sp th
  inOrder : InOrder own
  complete : ∀ s c, start ≤ s → s ≤ input.length → re.Reaches input bol nslots s c → c.sp = st.sp → re.waitsAt c.pc →
    (∃ th ∈ own, th.1 = c.pc ∧ began th.2 ≤ s) ∨ FoundBy st.matched s
  found : (st.matched = none ∧ st.matchedAt = none) ∨
    ∃ c, Follows re input bol nslots start c.sp (c.pc, c.caps) ∧ re.Accepts c ∧ st.matched = some c.caps ∧
      st.matchedAt = some c.sp ∧ ∀ th ∈ own, began th.2 ≤ began c.caps
  earlier : ∀ s c, start ≤ s → s ≤ input.length → re.Reaches input bol nslots s c → re.Accepts c → c.sp < st.sp →
    FoundBy st.matched s
  before : st.matchedAt.all (· < st.sp) = true

/-! ## The search prefix's thread -/

theorem takesAt_skip (h : WellFormed re) : re.takesAt input sp 1 ↔ sp < input.length := by
  have hskip := h.searching.2.1
  constructor
  · rintro ⟨inst, hinst, htakes⟩
    rw [Bool.and_eq_true] at htakes
    exact sp_lt_of_takes htakes.2
  · intro hlt
    exact ⟨_, hskip, by simp [Inst.consumes, takes, hlt]⟩

theorem not_accepting_skipper (h : WellFormed re) (nslots : Nat) : re.accepting (skipper nslots) = false := by
  have hskip := h.searching.2.1
  simp [accepting, skipper, hskip]

variable (input bol sp) in
/-- Behind the pattern's threads the prefix seeds the pattern at the next position, and skips on. -/
theorem WellFormed.visit_skipped (h : WellFormed re) (caps : Slots) {roots : List Thread} (hroots : ∀ r ∈ roots, 3 ≤ r.1) :
    ∃ new, (visitAll (re.threadGraph input bol sp) (re.prog.length + 1) (roots ++ [(2, caps)]) .none).out =
        (visitAll (re.threadGraph input bol sp) (re.prog.length + 1) roots .none).out ++ (new ++ [(1, caps)]) ∧
      ∀ th ∈ new, ReflTransGen (re.threadGraph input bol sp).Step (3, caps) th := by
  have hlen := h.length_ge
  obtain ⟨hnode, ⟨-, -, hleaf⟩, ⟨-, hsucc⟩, hcarry⟩ := h.graph_prefix input bol sp
  have hseen : ∀ y ∈ (visitAll (re.threadGraph input bol sp) (re.prog.length + 1) roots .none).seen, 3 ≤ y := by
    refine visitAll_induct (P := fun v => ∀ y ∈ v.seen, 3 ≤ y) (fun r hr v hv => ?_) (fun y hy => absurd hy List.not_mem_nil)
    exact visit_seen (fun x y hx hedge => Nat.le_of_succ_le (h.succ_ge hx hedge.2.1)) _ (hroots r hr) r.2 hv
  have hleaves := leavesOut_visitAll (g := re.threadGraph input bol sp) (re.prog.length + 1) roots leavesOut_none
  rw [visitAll_append]
  generalize visitAll (re.threadGraph input bol sp) (re.prog.length + 1) roots .none = v at hseen hleaves
  have htwo : 2 ∉ v.seen := fun hmem => absurd (hseen 2 hmem) (by decide)
  have hzero : 0 ∉ 2 :: v.seen := by
    intro hmem
    exact absurd (hseen 0 ((List.mem_cons.mp hmem).resolve_left (by decide))) (by decide)
  have hout : ∀ th ∈ v.out, 3 ≤ th.1 := fun th hth => hseen th.1 ((hleaves th.1).mp ⟨th.2, hth⟩).1
  obtain ⟨new, hnew, hreach⟩ := h.visit_seed input bol sp re.prog.length (by omega) caps
    hzero (hleaves.mark hleaf) hout
  refine ⟨new, ?_, hreach⟩
  show (visit _ (re.prog.length + 1) 2 caps v).out = _
  rw [visit_inner ⟨hnode (by omega), htwo⟩ hleaf, hsucc, (hcarry caps).2]
  exact hnew

/-! ## One position -/

section

variable {threads : List Thread} {th : Thread}

theorem Follows.began_le (h : WellFormed re) (hslots : 2 ≤ nslots) (hth : Follows re input bol nslots start sp th) :
    began th.2 ≤ sp := (h.since_of_reaches hslots hth.1.2 hth.2).sp_ge

theorem Follows.pc_ge (h : WellFormed re) (hslots : 2 ≤ nslots) (hth : Follows re input bol nslots start sp th) :
    3 ≤ th.1 := (h.since_of_reaches hslots hth.1.2 hth.2).pc_ge

variable (input bol) in
/-- The pattern's threads at the next position: each goes on from one at this position, in their order. -/
theorem WellFormed.onward_follows (h : WellFormed re) (hslots : 2 ≤ nslots)
    (hfollows : ∀ th ∈ threads, Follows re input bol nslots start sp th) (horder : InOrder threads) :
    (∀ th ∈ (visitAll (re.threadGraph input bol (sp + 1)) (re.prog.length + 1) (re.onward input sp threads) .none).out,
        Follows re input bol nslots start (sp + 1) th ∧ ∃ from' ∈ threads, began th.2 = began from'.2) ∧
      InOrder (visitAll (re.threadGraph input bol (sp + 1)) (re.prog.length + 1) (re.onward input sp threads) .none).out := by
  obtain ⟨hout, hordered⟩ := h.out_inOrder hslots (follows_onward hfollows) (onward_inOrder re input sp horder)
  refine ⟨fun th hth => ?_, hordered⟩
  obtain ⟨hfollow, r, hr, heq⟩ := hout th hth
  obtain ⟨from', hfrom, -, rfl⟩ := mem_onward.mp hr
  exact ⟨hfollow, from', hfrom, heq⟩

/-- What the prefix seeds at the next position: the paths from there, and all that wait. -/
theorem WellFormed.seeded_follows (h : WellFormed re) (hslots : 2 ≤ nslots) (hstart : start ≤ sp) (hle : sp ≤ input.length)
    (hsteps : ReflTransGen (re.threadGraph input bol sp).Step (3, List.replicate nslots none) th) (hwaits : re.waitsAt th.1) :
    Follows re input bol nslots start sp th ∧ began th.2 = sp := by
  have hreach : re.Reaches input bol nslots sp ⟨th.1, sp, th.2⟩ := by
    rw [Reaches, Regex.start, h.entry]
    exact path_of_threadSteps hsteps
  have heq : began th.2 = sp := h.began_of_reaches hslots hle hreach hwaits
  exact ⟨by rw [Follows, heq]; exact ⟨⟨hstart, hle⟩, hreach⟩, heq⟩

/-- What the next position's threads are when nothing accepts at this one. -/
theorem WellFormed.advance_onward (h : WellFormed re) {st : ScanState} {own : List Thread}
    (hst : Leading re input bol nslots start st own) (hle : st.sp ≤ input.length)
    (hnone : ∀ th ∈ own, re.accepting th = false) :
    (re.advance input bol false st).matched = st.matched ∧ (re.advance input bol false st).matchedAt = st.matchedAt ∧
      (re.advance input bol false st).threads =
        (visitAll (re.threadGraph input bol (st.sp + 1)) (re.prog.length + 1)
          (re.onward input st.sp own ++ if st.matched.isNone ∧ st.sp < input.length then [(2, List.replicate nslots none)]
            else []) .none).out := by
  have hall : ∀ th ∈ st.threads, re.accepting th = false := by
    intro th hth
    rw [hst.threads] at hth
    rcases List.mem_append.mp hth with hth | hth
    · exact hnone th hth
    · split at hth
      · rw [List.mem_singleton.mp hth]
        exact not_accepting_skipper h nslots
      · cases hth
  obtain ⟨p', hpass, hnlist, hmatched, hmatchedAt⟩ := pass_onward re input bol st.sp false []
    ⟨.none, st.matched, st.matchedAt, none, 0⟩ hall
  rw [List.append_nil] at hpass
  have honward : re.onward input st.sp st.threads = re.onward input st.sp own ++
      if st.matched.isNone ∧ st.sp < input.length then [(2, List.replicate nslots none)] else [] := by
    have htakes : re.takesAt input st.sp 1 ↔ st.sp < input.length := takesAt_skip h
    rw [hst.threads]
    by_cases hmatch : st.matched.isNone <;> by_cases hlt : st.sp < input.length <;>
      simp [onward, hmatch, hle, hlt, skipper, htakes]
  rw [honward] at hnlist
  simp only [advance, hpass]
  exact ⟨hmatched, hmatchedAt, by rw [← hnlist]; rfl⟩

variable {st : ScanState} {own : List Thread}

omit [CharData] in
theorem FoundBy.mono {matched : Option Slots} {s s' : Nat} (hfound : FoundBy matched s) (hle : s ≤ s') :
    FoundBy matched s' := by
  obtain ⟨caps, hm, hbegan⟩ := hfound
  exact ⟨caps, hm, Nat.le_trans hbegan hle⟩

/-- What is found began before the position. -/
theorem Leading.foundBy_sp (hst : Leading re input bol nslots start st own) (h : WellFormed re) (hslots : 2 ≤ nslots)
    (hsome : st.matched ≠ none) : FoundBy st.matched st.sp := by
  rcases hst.found with ⟨hnone, -⟩ | ⟨c, hfollows, -, hm, hat, -⟩
  · exact absurd hnone hsome
  · have hbefore := hst.before
    rw [hat] at hbefore
    have hlt : c.sp < st.sp := by simpa using hbefore
    exact ⟨c.caps, hm, Nat.le_trans (Follows.began_le h hslots hfollows) (Nat.le_of_lt hlt)⟩

theorem WellFormed.edge_seeded (h : WellFormed re) : (re.threadGraph input bol sp).Edge 0 3 := by
  obtain ⟨hnode, ⟨hleaf, -⟩, ⟨hsucc, -⟩, -⟩ := h.graph_prefix input bol sp
  exact ⟨⟨hnode (by omega), hleaf⟩, by simp [hsucc], hnode (by omega)⟩

/-- From what the prefix's thread goes on to, the pattern's entry is reached. -/
theorem WellFormed.path_of_skipped (h : WellFormed re) : ReflTransGen (re.threadGraph input bol sp).Edge 2 3 := by
  obtain ⟨hnode, ⟨-, -, hleaf⟩, ⟨-, hsucc⟩, -⟩ := h.graph_prefix input bol sp
  have hjump : (re.threadGraph input bol sp).Edge 2 0 := ⟨⟨hnode (by omega), hleaf⟩, by simp [hsucc], hnode (by omega)⟩
  exact (ReflTransGen.single hjump).tail h.edge_seeded

/-- **A position at which nothing accepts** keeps the search leading. -/
theorem WellFormed.leading_onward (h : WellFormed re) (hback : re.hasBackref = false) (hslots : 2 ≤ nslots)
    (hst : Leading re input bol nslots start st own) (hle : st.sp ≤ input.length)
    (hnone : ∀ th ∈ own, re.accepting th = false) :
    ∃ own', Leading re input bol nslots start (re.advance input bol false st) own' := by
  obtain ⟨hmatched, hmatchedAt, hthreads⟩ := h.advance_onward hst hle hnone
  obtain ⟨hout, hordered⟩ := h.onward_follows input bol hslots hst.follows hst.inOrder
  have hsp : (re.advance input bol false st).sp = st.sp + 1 := rfl
  have hroots : ∀ r ∈ re.onward input st.sp own, 3 ≤ r.1 := fun r hr =>
    Follows.pc_ge h hslots (follows_onward hst.follows r hr)
  -- the pattern's threads at the next position: behind those that go on, those that the prefix seeds
  obtain ⟨new, hsplit, hnew, hempty⟩ : ∃ new, (re.advance input bol false st).threads =
      ((visitAll (re.threadGraph input bol (st.sp + 1)) (re.prog.length + 1) (re.onward input st.sp own) .none).out ++ new)
        ++ (if st.matched.isNone ∧ st.sp + 1 ≤ input.length then [skipper nslots] else []) ∧
      (∀ th ∈ new, Follows re input bol nslots start (st.sp + 1) th ∧ began th.2 = st.sp + 1) ∧
      (st.matched ≠ none → new = []) := by
    rw [hthreads]
    by_cases hseeds : st.matched.isNone ∧ st.sp < input.length
    · obtain ⟨new, hvisit, hsteps⟩ := h.visit_skipped input bol (st.sp + 1)
        (List.replicate nslots none) hroots
      obtain ⟨hunmatched, hnext⟩ := hseeds
      rw [if_pos ⟨hunmatched, hnext⟩, if_pos ⟨hunmatched, hnext⟩]
      refine ⟨new, by rw [hvisit]; simp [skipper], fun th hth => ?_, fun hsome => ?_⟩
      · refine h.seeded_follows hslots (Nat.le_succ_of_le hst.sp_ge) hnext (hsteps th hth) ?_
        exact waitsAt_of_mem_out input bol (st.sp + 1)
          (re.onward input st.sp own ++ [(2, List.replicate nslots none)]) (by rw [hvisit]; simp [hth])
      · exact absurd (Option.isNone_iff_eq_none.mp hunmatched) hsome
    · have hnext : ¬ (st.matched.isNone ∧ st.sp + 1 ≤ input.length) := hseeds
      rw [if_neg hseeds, if_neg hnext]
      exact ⟨[], by simp, by simp, fun _ => rfl⟩
  have hown : ∀ th ∈ (visitAll (re.threadGraph input bol (st.sp + 1)) (re.prog.length + 1)
      (re.onward input st.sp own) .none).out ++ new, Follows re input bol nslots start (st.sp + 1) th := by
    intro th hth
    rcases List.mem_append.mp hth with hth | hth
    · exact (hout th hth).1
    · exact (hnew th hth).1
  have hmem : ∀ th : Thread, 3 ≤ th.1 → th ∈ (re.advance input bol false st).threads →
      th ∈ (visitAll (re.threadGraph input bol (st.sp + 1)) (re.prog.length + 1)
        (re.onward input st.sp own) .none).out ++ new := by
    intro th hpc hth
    rw [hsplit] at hth
    rcases List.mem_append.mp hth with hth | hth
    · exact hth
    · split at hth
      · rw [List.mem_singleton.mp hth] at hpc
        exact absurd hpc (by simp [skipper])
      · cases hth
  refine ⟨_, ⟨Nat.le_succ_of_le hst.sp_ge, by rw [hsplit, hmatched, hsp], hown, ?_, ?_, ?_, ?_, ?_⟩⟩
  · refine List.pairwise_append.mpr ⟨hordered, ?_, fun th hth th' hth' => ?_⟩
    · exact List.pairwise_of_forall_mem_list fun th hth th' hth' => by rw [(hnew th hth).2, (hnew th' hth').2]
    · rw [(hnew th' hth').2]
      exact Follows.began_le h hslots (hout th hth).1
  · intro s c hs hlen hreach hcsp hwaits
    have hpc := (h.since_of_reaches hslots hlen hreach).pc_ge
    rw [hmatched]
    rcases h.arrives hback hslots hlen hreach with ⟨hcs, hpath⟩ | ⟨q, hq, hqsp, hqwaits, htakes, hpath⟩
    · -- the path begins here, where the prefix has seeded the pattern unless something is found
      rw [hsp] at hcsp
      obtain rfl : s = st.sp + 1 := by omega
      by_cases hsome : st.matched = none
      · have hseeds : st.matched.isNone ∧ st.sp < input.length := ⟨by simp [hsome], hlen⟩
        rw [if_pos hseeds] at hthreads
        obtain ⟨d, hd, -⟩ := visitAll_complete (g := re.threadGraph input bol (st.sp + 1))
          (r := (2, List.replicate nslots none)) (re.prog.length + 1) (by simp [threadGraph])
          (re.onward input st.sp own) [] (Finset.mem_range.mpr (by have := h.length_ge; omega)) (h.path_of_skipped.trans hpath)
          (leaf_of_waitsAt hwaits)
        have hd' := hmem (c.pc, d) hpc (hthreads ▸ hd)
        exact .inl ⟨_, hd', rfl, Follows.began_le h hslots (hown _ hd')⟩
      · exact .inr ((hst.foundBy_sp h hslots hsome).mono (Nat.le_succ _))
    · have hqeq : q.sp = st.sp := by
        rw [hsp] at hcsp
        omega
      rcases hst.complete s q hs hlen hq hqeq hqwaits with ⟨th, hth, hthpc, hbegan⟩ | hfound
      · rw [hsp] at hcsp
        rw [hcsp, ← hthpc] at hpath
        rw [hqeq, ← hthpc] at htakes
        obtain ⟨d, hd, hdbegan⟩ := h.onward_began hslots hst.follows hst.inOrder hth htakes hpath hwaits _
        have hd' := hmem (c.pc, d) hpc (hthreads ▸ hd)
        exact .inl ⟨_, hd', rfl, Nat.le_trans hdbegan hbegan⟩
      · exact .inr hfound
  · rw [hmatched, hmatchedAt]
    rcases hst.found with hnot | ⟨c, hfollows, haccepts, hm, hat, hbegan⟩
    · exact .inl hnot
    · refine .inr ⟨c, hfollows, haccepts, hm, hat, fun th hth => ?_⟩
      rw [hempty (by simp [hm]), List.append_nil] at hth
      obtain ⟨-, from', hfrom, heq⟩ := hout th hth
      rw [heq]
      exact hbegan from' hfrom
  · intro s c hs hlen hreach haccepts hlt
    rw [hmatched]
    rcases Nat.eq_or_lt_of_le (Nat.le_of_lt_succ hlt) with hcsp | hlt
    · rcases hst.complete s c hs hlen hreach hcsp (waitsAt_of_accepts haccepts) with ⟨th, hth, hpc, -⟩ | hfound
      · -- a thread stands where the path accepts, and none accepts
        have haccepting : re.accepting th = true := accepting_iff.mpr (hpc ▸ haccepts)
        rw [hnone th hth] at haccepting
        cases haccepting
      · exact hfound
    · exact hst.earlier s c hs hlen hreach haccepts hlt
  · rw [hmatchedAt, hsp]
    exact before_succ hst.before

/-- **A position at which a thread accepts**: the first that does drops those behind it, which began no earlier. -/
theorem WellFormed.leading_accepts (h : WellFormed re) (hback : re.hasBackref = false) (hslots : 2 ≤ nslots)
    {front back : List Thread} {th : Thread} (hst : Leading re input bol nslots start st (front ++ th :: back))
    (hnone : ∀ th' ∈ front, re.accepting th' = false) (haccepting : re.accepting th = true) :
    ∃ own', Leading re input bol nslots start (re.advance input bol false st) own' := by
  have haccepts := accepting_iff.mp haccepting
  obtain ⟨p', hpass, hnlist, -, hmatchedAt⟩ := pass_onward re input bol st.sp false
    (th :: (back ++ if st.matched.isNone ∧ st.sp ≤ input.length then [skipper nslots] else []))
    ⟨.none, st.matched, st.matchedAt, none, 0⟩ hnone
  have hthreads : st.threads = front ++ th :: (back ++
      if st.matched.isNone ∧ st.sp ≤ input.length then [skipper nslots] else []) := by
    rw [hst.threads]
    simp
  rw [pass_accepts haccepts, ← hthreads] at hpass
  have hbefore : p'.matchedAt.all (· < st.sp) = true := hmatchedAt ▸ hst.before
  have hmatched : (re.advance input bol false st).matched = some th.2 := by
    simp [advance, hpass, Pass.accepted, hbefore]
  have hat : (re.advance input bol false st).matchedAt = some st.sp := by
    simp [advance, hpass, Pass.accepted, hbefore]
  have hnext : (re.advance input bol false st).threads = (visitAll (re.threadGraph input bol (st.sp + 1))
      (re.prog.length + 1) (re.onward input st.sp front) .none).out := by
    simp [advance, hpass, hnlist]
  have hsp : (re.advance input bol false st).sp = st.sp + 1 := rfl
  obtain ⟨horderfront, horderback, hcross⟩ := List.pairwise_append.mp hst.inOrder
  have hfollowsfront : ∀ th' ∈ front, Follows re input bol nslots start st.sp th' := fun th' hth' =>
    hst.follows th' (List.mem_append_left _ hth')
  have hfollows : Follows re input bol nslots start st.sp th := hst.follows th (by simp)
  obtain ⟨hout, hordered⟩ := h.onward_follows input bol hslots hfollowsfront horderfront
  -- what is behind the thread, and what was found before, began no earlier
  have hbehind : ∀ th' ∈ th :: back, began th.2 ≤ began th'.2 := by
    intro th' hth'
    rcases List.mem_cons.mp hth' with rfl | hth'
    · exact Nat.le_refl _
    · exact (List.pairwise_cons.mp horderback).1 th' hth'
  have hover : ∀ s, FoundBy st.matched s → FoundBy (some th.2) s := by
    rintro s ⟨caps, hm, hbegan⟩
    rcases hst.found with ⟨hnot, -⟩ | ⟨c, -, -, hm', -, hle⟩
    · cases hm.symm.trans hnot
    · cases hm.symm.trans hm'
      exact ⟨th.2, rfl, Nat.le_trans (hle th (by simp)) hbegan⟩
  refine ⟨_, ⟨Nat.le_succ_of_le hst.sp_ge, by simp [hnext, hmatched], fun th' hth' => (hout th' hth').1, hordered,
    ?_, ?_, ?_, ?_⟩⟩
  · intro s c hs hlen hreach hcsp hwaits
    rw [hmatched]
    rw [hsp] at hcsp
    rcases h.arrives hback hslots hlen hreach with ⟨hcs, -⟩ | ⟨q, hq, hqsp, hqwaits, htakes, hpath⟩
    · exact .inr ⟨th.2, rfl, Nat.le_trans (Follows.began_le h hslots hfollows) (by omega)⟩
    · have hqeq : q.sp = st.sp := by omega
      rcases hst.complete s q hs hlen hq hqeq hqwaits with ⟨th', hth', hpc, hbegan⟩ | hfound
      · rcases List.mem_append.mp hth' with hth' | hth'
        · rw [hcsp, ← hpc] at hpath
          rw [hqeq, ← hpc] at htakes
          obtain ⟨d, hd, hdbegan⟩ := h.onward_began hslots hfollowsfront horderfront hth' htakes hpath hwaits []
          rw [List.append_nil] at hd
          exact .inl ⟨_, hd, rfl, Nat.le_trans hdbegan hbegan⟩
        · exact .inr ⟨th.2, rfl, Nat.le_trans (hbehind th' hth') hbegan⟩
      · exact .inr (hover s hfound)
  · refine .inr ⟨⟨th.1, st.sp, th.2⟩, hfollows, haccepts, hmatched, hat, fun th' hth' => ?_⟩
    obtain ⟨-, from', hfrom, heq⟩ := hout th' hth'
    rw [heq]
    exact hcross from' hfrom th List.mem_cons_self
  · intro s c hs hlen hreach hcaccepts hlt
    rw [hmatched]
    rcases Nat.eq_or_lt_of_le (Nat.le_of_lt_succ hlt) with hcsp | hlt
    · rcases hst.complete s c hs hlen hreach hcsp (waitsAt_of_accepts hcaccepts) with ⟨th', hth', hpc, hbegan⟩ | hfound
      · rcases List.mem_append.mp hth' with hth' | hth'
        · have haccepting' : re.accepting th' = true := accepting_iff.mpr (hpc ▸ hcaccepts)
          rw [hnone th' hth'] at haccepting'
          cases haccepting'
        · exact ⟨th.2, rfl, Nat.le_trans (hbehind th' hth') hbegan⟩
      · exact hover s hfound
    · exact hover s (hst.earlier s c hs hlen hreach hcaccepts hlt)
  · rw [hat, hsp]
    simp

/-- **One position keeps the search leading.** -/
theorem WellFormed.leading_advance (h : WellFormed re) (hback : re.hasBackref = false) (hslots : 2 ≤ nslots)
    (hst : Leading re input bol nslots start st own) (hle : st.sp ≤ input.length) :
    ∃ own', Leading re input bol nslots start (re.advance input bol false st) own' := by
  rcases hfind : own.find? re.accepting with - | th
  · refine h.leading_onward hback hslots hst hle fun th hth => ?_
    simpa using List.find?_eq_none.mp hfind th hth
  · obtain ⟨haccepting, front, back, rfl, hnone⟩ := List.find?_eq_some_iff_append.mp hfind
    exact h.leading_accepts hback hslots hst (fun th' hth' => by simpa using hnone th' hth') haccepting

/-! ## A whole scan -/

/-- What the search answers: what accepted from the leftmost start that has a match. -/
def LeftmostFrom (re : Regex) (input : List Ch) (bol : StartOfLine) (nslots start : Nat) (res : Option Slots) : Prop :=
  (∀ caps, res = some caps → (start ≤ began caps ∧ began caps ≤ input.length) ∧
      ∃ c, re.Reaches input bol nslots (began caps) c ∧ re.Accepts c ∧ c.caps = caps) ∧
    ∀ s c, start ≤ s → s ≤ input.length → re.Reaches input bol nslots s c → re.Accepts c → FoundBy res s

/-- When all paths have accepted that can, what was found is leftmost. -/
theorem Leading.settled (hst : Leading re input bol nslots start st own)
    (hall : ∀ s c, start ≤ s → s ≤ input.length → re.Reaches input bol nslots s c → re.Accepts c →
      FoundBy st.matched s ∨ c.sp < st.sp) : LeftmostFrom re input bol nslots start st.matched := by
  refine ⟨fun caps hcaps => ?_, fun s c hs hlen hreach haccepts => ?_⟩
  · rcases hst.found with ⟨hnot, -⟩ | ⟨c, hfollows, haccepts, hm, -⟩
    · cases hcaps.symm.trans hnot
    · cases hcaps.symm.trans hm
      exact ⟨hfollows.1, c, hfollows.2, haccepts, rfl⟩
  · rcases hall s c hs hlen hreach haccepts with hfound | hlt
    · exact hfound
    · exact hst.earlier s c hs hlen hreach haccepts hlt

/-- With no thread left something is found, and no path from a start up to it goes on. -/
theorem WellFormed.leading_nil (h : WellFormed re) (hback : re.hasBackref = false) (hslots : 2 ≤ nslots)
    (hst : Leading re input bol nslots start st own) (hle : st.sp ≤ input.length) (hnil : st.threads = []) :
    LeftmostFrom re input bol nslots start st.matched := by
  have hthreads := hst.threads
  rw [hnil, eq_comm, List.append_eq_nil_iff] at hthreads
  obtain ⟨rfl, hskipper⟩ := hthreads
  have hsome : st.matched ≠ none := by
    intro hnone
    simp [hnone, hle] at hskipper
  refine hst.settled fun s c hs hlen hreach haccepts => ?_
  rcases Nat.lt_or_ge c.sp st.sp with hlt | hge
  · exact .inr hlt
  · rcases Nat.lt_or_ge st.sp s with hlater | hsle
    · exact .inl ((hst.foundBy_sp h hslots hsome).mono (Nat.le_of_lt hlater))
    · -- the path waited at this position, where no thread stands
      obtain ⟨q, hq, hqsp, hwaits⟩ : ∃ q : Config, re.Reaches input bol nslots s q ∧ q.sp = st.sp ∧ re.waitsAt q.pc := by
        rcases Nat.eq_or_lt_of_le hge with heq | hlt
        · exact ⟨c, hreach, heq.symm, waitsAt_of_accepts haccepts⟩
        · exact h.waited hback hslots hlen hreach hsle hlt
      rcases hst.complete s q hs hlen hq hqsp hwaits with ⟨th, hth, -⟩ | hfound
      · cases hth
      · exact .inl hfound

theorem WellFormed.leading_scanLoop (h : WellFormed re) (hback : re.hasBackref = false) (hslots : 2 ≤ nslots) (fuel : Nat)
    (hst : Leading re input bol nslots start st own) (hfuel : input.length < fuel + st.sp) :
    LeftmostFrom re input bol nslots start (re.scanLoop input bol none 0 false nslots fuel st) := by
  have hpast : ∀ {st own}, Leading re input bol nslots start st own → input.length < st.sp →
      LeftmostFrom re input bol nslots start st.matched := fun hst hlt => hst.settled fun s c hs hlen hreach _ =>
    .inr (Nat.lt_of_le_of_lt (h.since_of_reaches hslots hlen hreach).sp_le hlt)
  induction fuel generalizing st own with
  | zero => exact hpast hst (by omega)
  | succ fuel ih =>
    rw [scanLoop]
    split
    next hlt => exact hpast hst hlt
    next hle =>
      split
      next hempty => exact h.leading_nil hback hslots hst (Nat.not_lt.mp hle) (List.isEmpty_iff.mp hempty)
      · obtain ⟨own', hnext⟩ := h.leading_advance hback hslots hst (Nat.not_lt.mp hle)
        have hsp : (re.advance input bol false st).sp = st.sp + 1 := rfl
        exact ih hnext (by omega)

variable (input bol) in
theorem WellFormed.leading_seeds (h : WellFormed re) (hback : re.hasBackref = false) (hslots : 2 ≤ nslots)
    (hs : start ≤ input.length) :
    ∃ own, Leading re input bol nslots start ⟨re.seeds input bol 0 nslots start, start, true, none, none⟩ own := by
  obtain ⟨new, hnew, hsteps⟩ := h.visit_seed input bol start (re.prog.length + 1)
    (by have := h.length_ge; omega) (List.replicate nslots none) (v := .none) (by simp [Visited.none]) leavesOut_none
    (by simp [Visited.none])
  have hseeds : re.seeds input bol 0 nslots start = new ++ [skipper nslots] := by
    rw [seeds_eq_visit, hnew]
    rfl
  have hown : ∀ th ∈ new, Follows re input bol nslots start start th ∧ began th.2 = start := by
    intro th hth
    refine h.seeded_follows hslots (Nat.le_refl _) hs (hsteps th hth) ?_
    exact waitsAt_of_mem_out input bol start [(0, List.replicate nslots none)]
      (by rw [show visitAll _ _ _ _ = visit _ _ _ _ _ from rfl, hnew]; simp [hth])
  refine ⟨new, ⟨Nat.le_refl _, by simp [hseeds, hs], fun th hth => (hown th hth).1, ?_, fun s c hs' hlen hreach hcsp hwaits => ?_,
    .inl ⟨rfl, rfl⟩, fun s c hs' hlen hreach _ hlt => ?_, rfl⟩⟩
  · exact List.pairwise_of_forall_mem_list fun th hth th' hth' => by rw [(hown th hth).2, (hown th' hth').2]
  · have hpc := (h.since_of_reaches hslots hlen hreach).pc_ge
    have hge := (h.since_of_reaches hslots hlen hreach).sp_ge
    simp only at hcsp
    rcases h.arrives hback hslots hlen hreach with ⟨hcs, hpath⟩ | ⟨q, hq, hqsp, -⟩
    · obtain rfl : s = start := by omega
      have hseed : (re.threadGraph input bol s).Edge 0 3 := h.edge_seeded
      obtain ⟨d, hd, -⟩ := visitAll_complete (g := re.threadGraph input bol s)
        (r := (0, List.replicate nslots none)) (re.prog.length + 1) (by simp [threadGraph]) [] [] hseed.1.1
        (hpath.head hseed) (leaf_of_waitsAt hwaits)
      have hd' : (c.pc, d) ∈ new := by
        have hd : (c.pc, d) ∈ re.seeds input bol 0 nslots s := by rwa [seeds_eq_visit]
        rw [hseeds] at hd
        refine (List.mem_append.mp hd).resolve_right fun hone => ?_
        have hpc' : c.pc = 1 := congrArg Prod.fst (List.mem_singleton.mp hone)
        omega
      exact .inl ⟨_, hd', rfl, Nat.le_of_eq (hown _ hd').2⟩
    · have hge' := (h.since_of_reaches hslots hlen hq).sp_ge
      omega
  · have hge := (h.since_of_reaches hslots hlen hreach).sp_ge
    simp only at hlt
    omega

variable (input bol) in
/-- **The search finds the leftmost start of a match**, at or behind where it starts. -/
theorem WellFormed.scan_leftmost (h : WellFormed re) (hback : re.hasBackref = false) (hslots : 2 ≤ nslots) (start : Nat) :
    LeftmostFrom re input bol nslots (min start input.length) (re.scan input bol start 0 false nslots) := by
  obtain ⟨own, hst⟩ := h.leading_seeds input bol hback hslots (Nat.min_le_right start input.length)
  rw [h.scan_unfiltered, scan_of_unfiltered]
  exact h.leading_scanLoop hback hslots _ hst (by simp only; omega)

variable (input bol) in
/-- **Without backreferences the search answers the leftmost match, and the longest from there.** -/
theorem WellFormed.run_answers (h : WellFormed re) (hback : re.hasBackref = false) (hslots : 2 ≤ nslots) (start : Nat) :
    ∃ res, re.run input bol start nslots = .ok res ∧ Answers (re.MatchAt input bol) (min start input.length) res := by
  obtain ⟨hbegins, hleftmost⟩ := h.scan_leftmost input bol hback hslots start
  rw [run, if_neg (by simp [hback])]
  rcases hfirst : re.scan input bol start 0 false nslots with - | first
  · refine ⟨none, rfl, fun s e hs hmatch => ?_⟩
    obtain ⟨hlen, c, hreach, haccepts, -⟩ := (h.matchAt_iff_reaches hback nslots).mp hmatch
    obtain ⟨caps, hcaps, -⟩ := hleftmost s c hs hlen hreach haccepts
    cases hfirst.symm.trans hcaps
  · obtain ⟨⟨hge, hle⟩, c, hreach, haccepts, rfl⟩ := hbegins first hfirst
    have hsince := h.since_of_reaches hslots hle hreach
    have hslot : c.caps[0]?.join = some (began c.caps) := by
      have hlast := h.pc_of_accepted haccepts
      have hlen := h.length_ge
      simp [hsince.begins (by omega)]
    simp only [hslot]
    have hlongest := h.scan_longest bol hback hslots hle
    rcases hsecond : re.scan input bol (began c.caps) re.entry true nslots with - | caps
    · rw [hsecond] at hlongest
      exact absurd haccepts (hlongest c hreach)
    · rw [hsecond] at hlongest
      obtain ⟨c', ⟨hreach', haccepts'⟩, rfl, hmost⟩ := hlongest
      refine ⟨some c'.caps, rfl, began c.caps, c'.sp,
        h.spans_of_accepts (h.since_of_reaches hslots hle hreach') haccepts', hge, ?_, fun s e hs hmatch => ?_, fun e hmatch => ?_⟩
      · exact (h.matchAt_iff_reaches hback nslots).mpr ⟨hle, c', hreach', haccepts', rfl⟩
      · obtain ⟨hlen, d, hd, hdaccepts, -⟩ := (h.matchAt_iff_reaches hback nslots).mp hmatch
        obtain ⟨caps, hcaps, hbegan⟩ := hleftmost s d hs hlen hd hdaccepts
        cases hfirst.symm.trans hcaps
        exact hbegan
      · obtain ⟨-, d, hd, hdaccepts, rfl⟩ := (h.matchAt_iff_reaches hback nslots).mp hmatch
        exact hmost d hd hdaccepts

end

variable (input bol) in
/-- **A search answers the leftmost match, and the longest from there**, of all that the pattern's program has, when it
has no backreference. -/
theorem search_leftmost_longest (h : Built re) (hback : re.hasBackref = false) (start : Nat) (hslots : 2 ≤ nslots) :
    ∃ res, re.run input bol start nslots = .ok res ∧ Answers (re.MatchAt input bol) (min start input.length) res :=
  h.wellFormed.run_answers input bol hback hslots start

end Regex

/-- `ab*`, compiled. -/
def starred : Regex :=
  ⟨[.split 3 1, .skip, .jmp 0, .save 0, .char (.u 'a'), .split 6 8, .char (.u 'b'), .jmp 5, .save 1, .matched], 0, 3,
    false, false, false, false, some ⟨1#256 <<< 97, [4], false⟩⟩

theorem starred_built : @Regex.Built CharData.ascii starred := by
  let _ := CharData.ascii
  have hof : Prefilter.of starred.prog 3 false = starred.prefilter := by
    have hfirsts : firstsLoop starred.prog (6 * starred.prog.length + 1) [(3, false)] [] [] true = some ([4], false) := by
      decide +kernel
    simp only [Prefilter.of, hfirsts, List.mergeSort_singleton]
    decide +kernel
  have hcompiled : compilePattern ("ab*".toList.map Ch.u) false .posixExtended =
      .ok { starred with prefilter := Prefilter.of starred.prog 3 false } [] := by
    rfl
  rw [hof] at hcompiled
  exact .compiled hcompiled

/-- Of `xabb` all of `abb` is answered. -/
theorem search_leftmost_longest_at_xabb :
    @Regex.run CharData.ascii starred ("xabb".toList.map Ch.u) .yes 0 2 = .ok (some [some 1, some 4]) ∧
      Answers (@Regex.MatchAt CharData.ascii starred ("xabb".toList.map Ch.u) .yes) 0 (some [some 1, some 4]) := by
  have hrun : @Regex.run CharData.ascii starred ("xabb".toList.map Ch.u) .yes 0 2 = .ok (some [some 1, some 4]) := by
    decide +kernel
  obtain ⟨res, hres, hanswers⟩ := @Regex.search_leftmost_longest CharData.ascii starred ("xabb".toList.map Ch.u) .yes 2
    starred_built rfl 0 (Nat.le_refl 2)
  have hsame := Except.ok.inj (hrun.symm.trans hres)
  exact ⟨hrun, hsame ▸ hanswers⟩

end SlateOS.Ere
