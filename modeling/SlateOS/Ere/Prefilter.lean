/-
# SlateOS.Ere.Prefilter -- where no match begins

`userspace/ere/src/engine.rs`: what `Prefilter::of` works out is what the pattern's entry reaches without consuming,
assertions taken to hold, and it is refused where a match or a backreference is among that. So a path that consumes
something, or accepts, begins where `can_start` says a match can.
-/
import Mathlib.Data.Finset.Prod
import SlateOS.Ere.Programs

namespace SlateOS.Ere

open Foundation.DepthFirst
open Relation (ReflTransGen)

/-! ## The closure of the entry -/

/-- What a node of the closure leads to. -/
def followers (prog : List Inst) (x : Nat × Bool) : Option (List (Nat × Bool)) :=
  prog[x.1]?.bind fun inst => inst.follow x.1 x.2

/-- The instruction at an address consumes a character. -/
def consumesAt (prog : List Inst) (pc : Nat) : Prop := prog[pc]?.any Inst.consumes = true

/-- The first instructions and the flag are those of what has been marked. -/
structure FirstsOf (prog : List Inst) (seen : List (Nat × Bool)) (firsts : List Nat) (lineStart : Bool) : Prop where
  within : ∀ x ∈ seen, prog[x.1]? ≠ none
  firsts_iff : ∀ pc, pc ∈ firsts ↔ (∃ anchored, (pc, anchored) ∈ seen) ∧ consumesAt prog pc
  line_start : lineStart = true → ∀ pc, (pc, false) ∈ seen → ¬ consumesAt prog pc

theorem firstsOf_nil (prog : List Inst) : FirstsOf prog [] [] true := ⟨by simp, by simp, by simp⟩

theorem FirstsOf.mark {prog : List Inst} {seen : List (Nat × Bool)} {firsts : List Nat} {lineStart : Bool} {pc : Nat}
    {anchored : Bool} {inst : Inst} (h : FirstsOf prog seen firsts lineStart) (hinst : prog[pc]? = some inst) :
    FirstsOf prog ((pc, anchored) :: seen) (if inst.consumes then firsts ++ [pc] else firsts)
      (if inst.consumes then lineStart && anchored else lineStart) := by
  have hpc : consumesAt prog pc ↔ inst.consumes = true := by simp [consumesAt, hinst]
  have hwithin : ∀ x ∈ (pc, anchored) :: seen, prog[x.1]? ≠ none := by
    intro x hx
    rcases List.mem_cons.mp hx with rfl | hx
    · simp [hinst]
    · exact h.within x hx
  rcases hconsumes : inst.consumes with - | -
  · have hnot : ¬ consumesAt prog pc := by simp [hpc, hconsumes]
    refine ⟨hwithin, fun q => ?_, fun hline q hq => ?_⟩
    · by_cases heq : q = pc
      · subst heq
        simp [h.firsts_iff, hnot]
      · simp [h.firsts_iff, heq]
    · rcases List.mem_cons.mp hq with heq | hq
      · cases heq
        exact hnot
      · exact h.line_start (by simpa using hline) q hq
  · refine ⟨hwithin, fun q => ?_, fun hline q hq => ?_⟩
    · by_cases heq : q = pc
      · subst heq
        simp [hpc, hconsumes]
      · simp [h.firsts_iff, heq]
    · simp only [if_true, Bool.and_eq_true] at hline
      rcases List.mem_cons.mp hq with heq | hq
      · cases heq
        exact absurd hline.2 Bool.false_ne_true
      · exact h.line_start hline.1 q hq

/-- The loop explores the closure, and keeps its first instructions and the flag. -/
theorem firstsLoop_explores (prog : List Inst) (fuel : Nat) (stack seen : List (Nat × Bool)) (firsts : List Nat)
    (lineStart : Bool) (h : FirstsOf prog seen firsts lineStart) :
    match firstsLoop prog fuel stack seen firsts lineStart with
    | none => explore (followers prog) fuel stack seen = none
    | some (firsts', lineStart') =>
      ∃ marked, explore (followers prog) fuel stack seen = some marked ∧ FirstsOf prog marked firsts' lineStart' := by
  induction fuel generalizing stack seen firsts lineStart with
  | zero =>
    rcases stack with - | ⟨x, stack⟩
    · exact ⟨seen, rfl, h⟩
    · rfl
  | succ fuel ih =>
    rcases stack with - | ⟨⟨pc, anchored⟩, stack⟩
    · exact ⟨seen, rfl, h⟩
    · rw [firstsLoop, explore]
      rcases hinst : prog[pc]? with - | inst
      · have hnew : (pc, anchored) ∉ seen := fun hseen => h.within _ hseen hinst
        simp [hnew, followers, hinst]
      · by_cases hseen : (pc, anchored) ∈ seen
        · simp only [if_pos hseen]
          exact ih stack seen firsts lineStart h
        · rcases hfollow : inst.follow pc anchored with - | next
          · simp [hseen, followers, hinst, hfollow]
          · have hnext : followers prog (pc, anchored) = some next := by simp [followers, hinst, hfollow]
            simp only [if_neg hseen, hfollow, hnext]
            exact ih _ _ _ _ (h.mark hinst)

/-- The nodes of the closure, each instruction anchored and not. -/
def closureNodes (prog : List Inst) : Finset (Nat × Bool) := Finset.range prog.length ×ˢ ({false, true} : Finset Bool)

theorem followers_bound {prog : List Inst} {x : Nat × Bool} {ys : List (Nat × Bool)} (h : followers prog x = some ys) :
    x ∈ closureNodes prog ∧ ys.length ≤ 2 := by
  obtain ⟨pc, anchored⟩ := x
  obtain ⟨inst, hinst, hfollow⟩ := Option.bind_eq_some_iff.mp h
  have hlt : pc < prog.length := (List.getElem?_eq_some_iff.mp hinst).1
  refine ⟨by cases anchored <;> simpa [closureNodes] using hlt, ?_⟩
  cases inst <;> cases hfollow <;> simp

/-- The entry reaches an instruction without consuming, having passed a start of the line or of the subject or not. -/
def Closure (prog : List Inst) (entry : Nat) (x : Nat × Bool) : Prop :=
  ReflTransGen (Leads (followers prog)) (entry, false) x

/-- **The loop answers for the whole closure** of the entry: it is refused where something in it needs no character, and
otherwise gives the instructions that take the first. -/
theorem firstsLoop_spec (prog : List Inst) (entry : Nat) :
    match firstsLoop prog (6 * prog.length + 1) [(entry, false)] [] [] true with
    | none => ∃ x, Closure prog entry x ∧ followers prog x = none
    | some (firsts, lineStart) =>
      (∀ pc, pc ∈ firsts ↔ (∃ anchored, Closure prog entry (pc, anchored)) ∧ consumesAt prog pc) ∧
        (lineStart = true → ∀ pc, Closure prog entry (pc, false) → ¬ consumesAt prog pc) ∧
        ∀ x, Closure prog entry x → followers prog x ≠ none := by
  have hloop := firstsLoop_explores prog (6 * prog.length + 1) [(entry, false)] [] [] true (firstsOf_nil prog)
  have hexplored : Explored (followers prog) (entry, false)
      (explore (followers prog) (6 * prog.length + 1) [(entry, false)] []) := by
    refine explore_spec (fun x ys h => followers_bound h) (entry, false) (Nat.le_of_eq ?_)
    simp [closureNodes]
    omega
  split at hloop
  next hnone =>
    rw [hloop] at hexplored
    exact hexplored
  next firsts lineStart hsome =>
    obtain ⟨marked, hmarked, hof⟩ := hloop
    rw [hmarked] at hexplored
    have hmem : ∀ x, x ∈ marked ↔ Closure prog entry x := fun x => (hexplored x).1
    refine ⟨fun pc => ?_, fun hline pc hpc => hof.line_start hline pc ((hmem _).mpr hpc), fun x hx => ?_⟩
    · simp only [hof.firsts_iff, hmem]
    · exact (hexplored x).2 ((hmem x).mpr hx)

/-! ## What a prefilter says -/

namespace Prefilter

variable [CharData] {prog : List Inst} {entry : Nat} {ci : Bool} {pf : Prefilter}

/-- **A prefilter is that of the entry's closure**, in which nothing accepts and nothing goes back to a group. -/
structure Fits (prog : List Inst) (entry : Nat) (ci : Bool) (pf : Prefilter) : Prop where
  firsts : ∀ pc, pc ∈ pf.firsts ↔ (∃ anchored, Closure prog entry (pc, anchored)) ∧ consumesAt prog pc
  line_start : pf.lineStart = true → ∀ pc, Closure prog entry (pc, false) → ¬ consumesAt prog pc
  followed : ∀ x, Closure prog entry x → followers prog x ≠ none
  set_eq : pf.set = byteSet (takenBy prog pf.firsts ci)

theorem fits_of_of (h : of prog entry ci = some pf) : Fits prog entry ci pf := by
  unfold of at h
  have hspec := firstsLoop_spec prog entry
  split at h
  · cases h
  next firsts lineStart hloop =>
    rw [hloop] at hspec
    obtain ⟨hfirsts, hline, hfollowed⟩ := hspec
    dsimp only at h
    split at h
    · cases h
    · cases h
      exact ⟨fun pc => by simp [hfirsts], hline, hfollowed, rfl⟩

/-- The set answers for the byte characters what the first instructions answer for the others. -/
theorem Fits.first_eq (h : Fits prog entry ci pf) (c : Ch) : pf.first prog c ci = takenBy prog pf.firsts ci c := by
  unfold first
  split
  next b hb => rw [h.set_eq, inByteSet_byteSet, byteCh_of_byteIndex hb]
  · rfl

end Prefilter

/-! ## The paths of a pattern that has one -/

namespace Regex

variable [CharData] {re : Regex} {input : List Ch} {bol : StartOfLine} {pf : Prefilter} {s : Nat} {c c' : Config}

/-- A configuration before anything is consumed is in the closure, anchored only where a line or the subject begins. -/
def Before (re : Regex) (input : List Ch) (bol : StartOfLine) (s : Nat) (c : Config) : Prop :=
  c.sp = s ∧ ∃ anchored, Closure re.prog 3 (c.pc, anchored) ∧ (anchored = true → s = 0 ∨ re.lineStartAt input bol s = true)

/-- Within the closure a step consumes nothing, or what begins it can start a match. -/
theorem before_step (hpf : Prefilter.Fits re.prog 3 re.ci pf) (hc : re.Before input bol s c)
    (hstep : re.Step input bol c c') :
    re.Before input bol s c' ∨ s < c'.sp ∧ re.canStart input bol pf s = true := by
  obtain ⟨rfl, anchored, hclosure, hanchored⟩ := hc
  have hfollowed := hpf.followed _ hclosure
  have hleads : ∀ {ys y}, followers re.prog (c.pc, anchored) = some ys → y ∈ ys → Closure re.prog 3 y :=
    fun hys hy => hclosure.tail ⟨_, hys, hy⟩
  unfold Step nexts at hstep
  rcases hinst : re.prog[c.pc]? with - | inst
  · simp [hinst] at hstep
  · have hfollow : followers re.prog (c.pc, anchored) = inst.follow c.pc anchored := by simp [followers, hinst]
    rw [hfollow] at hfollowed hleads
    simp only [hinst] at hstep
    cases inst with
    | matched | backref n => exact absurd rfl hfollowed
    | jmp x =>
      cases List.mem_singleton.mp hstep
      exact .inl ⟨rfl, anchored, hleads rfl List.mem_cons_self, hanchored⟩
    | split x y =>
      rcases List.mem_cons.mp hstep with rfl | hstep
      · exact .inl ⟨rfl, anchored, hleads rfl (by simp), hanchored⟩
      · cases List.mem_singleton.mp hstep
        exact .inl ⟨rfl, anchored, hleads rfl (by simp), hanchored⟩
    | save n =>
      cases List.mem_singleton.mp hstep
      exact .inl ⟨rfl, anchored, hleads rfl List.mem_cons_self, hanchored⟩
    | assertEnd | assertBufEnd | assertWord _ =>
      dsimp only at hstep
      split at hstep
      · cases List.mem_singleton.mp hstep
        exact .inl ⟨rfl, anchored, hleads rfl List.mem_cons_self, hanchored⟩
      · cases hstep
    | assertStart | assertBufStart =>
      dsimp only at hstep
      split at hstep
      next hholds =>
        cases List.mem_singleton.mp hstep
        refine .inl ⟨rfl, true, hleads rfl List.mem_cons_self, fun _ => ?_⟩
        simp only [assertHolds] at hholds
        first
          | exact .inr hholds
          | exact .inl (by simpa using hholds)
      · cases hstep
    | char _ | any | skip | cls _ =>
      dsimp only at hstep
      split at hstep
      next htakes =>
        cases List.mem_singleton.mp hstep
        refine .inr ⟨Nat.lt_succ_self _, ?_⟩
        have hconsumes : consumesAt re.prog c.pc := by simp [consumesAt, hinst, Inst.consumes]
        have hmem := (hpf.firsts c.pc).mpr ⟨⟨anchored, hclosure⟩, hconsumes⟩
        obtain ⟨ch, hch⟩ : ∃ ch, input[c.sp]? = some ch := ⟨_, List.getElem?_eq_getElem (sp_lt_of_takes htakes)⟩
        rw [hch] at htakes
        have hfirst : pf.first re.prog ch re.ci = true := by
          rw [hpf.first_eq]
          exact List.any_eq_true.mpr ⟨c.pc, hmem, by simp [hinst, takes_bytes htakes]⟩
        have hline : pf.lineStart = true → anchored = true := by
          intro hline
          by_contra hnot
          rw [Bool.not_eq_true] at hnot
          exact hpf.line_start hline c.pc (hnot ▸ hclosure) hconsumes
        unfold canStart
        rw [hch]
        rcases hls : pf.lineStart with - | -
        · simp [hfirst]
        · rcases hanchored (hline hls) with hzero | hholds
          · simp [hfirst, hzero]
          · simp [hfirst, hholds]
      · cases hstep

/-- **A path that consumes something begins where a match can**; before it does it is in the closure. -/
theorem before_or_canStart (h : WellFormed re) (hpf : re.prefilter = some pf) {nslots : Nat}
    (hreach : re.Reaches input bol nslots s c) :
    re.Before input bol s c ∨ re.canStart input bol pf s = true := by
  have hfits := Prefilter.fits_of_of (h.prefilter pf hpf)
  induction hreach with
  | refl => exact .inl ⟨rfl, false, by rw [start, h.entry]; exact .refl, fun hcon => absurd hcon Bool.false_ne_true⟩
  | tail _ hstep ih =>
    rcases ih with hbefore | hcan
    · exact (before_step hfits hbefore hstep).imp_right And.right
    · exact .inr hcan

/-- **No match begins where none can start**: the paths from there consume nothing and accept nowhere. -/
theorem stuck_of_not_canStart (h : WellFormed re) (hpf : re.prefilter = some pf)
    (hcan : ¬ re.canStart input bol pf s = true) {nslots : Nat} (hreach : re.Reaches input bol nslots s c) :
    c.sp = s ∧ ¬ re.Accepts c := by
  have hfits := Prefilter.fits_of_of (h.prefilter pf hpf)
  obtain ⟨hsp, anchored, hclosure, -⟩ := (before_or_canStart h hpf hreach).resolve_right hcan
  refine ⟨hsp, fun haccepts => hfits.followed _ hclosure ?_⟩
  have hinst : re.prog[c.pc]? = some .matched := haccepts
  simp [followers, hinst, Inst.follow]

/-! ### The next position where a match can begin -/

theorem canStart_lt {p : Nat} (h : re.canStart input bol pf p = true) : p < input.length := by
  by_contra hge
  simp [canStart, List.getElem?_eq_none (Nat.not_lt.mp hge)] at h

theorem canStart_of_lineStart {p : Nat} (hline : (pf.lineStart && !re.newlineAnchor) = true)
    (h : re.canStart input bol pf p = true) : p = 0 := by
  by_contra hne
  simp_all [canStart, lineStartAt]

/-- What `next_start` answers: the first position from there on where a match can begin, if there is one. -/
def FirstStart (re : Regex) (input : List Ch) (bol : StartOfLine) (pf : Prefilter) (start : Nat) : Option Nat → Prop
  | none => ∀ q, start ≤ q → ¬ re.canStart input bol pf q = true
  | some p => (start ≤ p ∧ re.canStart input bol pf p = true) ∧
    ∀ q, start ≤ q → q < p → ¬ re.canStart input bol pf q = true

variable (re input bol pf) in
theorem nextStart_spec (start : Nat) : FirstStart re input bol pf start (re.nextStart input bol pf start) := by
  unfold nextStart
  split
  next hline =>
    split
    next hzero =>
      obtain ⟨rfl, hfirst⟩ := hzero
      exact ⟨⟨Nat.le_refl _, by simp [canStart, hfirst]⟩, fun q _ hlt => absurd hlt (Nat.not_lt_zero q)⟩
    next hnot =>
      intro q hq hcan
      obtain rfl := canStart_of_lineStart hline hcan
      refine hnot ⟨by omega, ?_⟩
      simp only [canStart, Bool.and_eq_true] at hcan
      exact hcan.1
  next =>
    rcases hfind : (List.range' start (input.length - start)).find? (re.canStart input bol pf) with - | p
    · intro q hq hcan
      have hlt := canStart_lt hcan
      exact List.find?_eq_none.mp hfind q (List.mem_range'_1.mpr ⟨hq, by omega⟩) hcan
    · obtain ⟨hcan, before, after, hsplit, hbefore⟩ := List.find?_eq_some_iff_append.mp hfind
      have hmem : p ∈ List.range' start (input.length - start) := by simp [hsplit]
      refine ⟨⟨(List.mem_range'_1.mp hmem).1, hcan⟩, fun q hq hlt hq' => ?_⟩
      have hqmem : q ∈ before ++ p :: after := by
        rw [← hsplit]
        have hin := canStart_lt hq'
        exact List.mem_range'_1.mpr ⟨hq, by omega⟩
      have hsorted : (before ++ p :: after).Pairwise (· < ·) := hsplit ▸ List.pairwise_lt_range'
      rcases List.mem_append.mp hqmem with hq | hq
      · exact absurd hq' (by simpa using hbefore q hq)
      · rcases List.mem_cons.mp hq with rfl | hq
        · exact Nat.lt_irrefl _ hlt
        · have hpq := List.rel_of_pairwise_cons (List.pairwise_append.mp hsorted).2.1 hq
          omega

end Regex

end SlateOS.Ere
