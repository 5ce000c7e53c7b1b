/-
# SlateOS.Foundation.Runs -- runs of a guarded transition system

A system is an executable partial step `step : σ → α → Option σ`: an action carries every choice
the environment makes (which task moves, what the clock says, which lock section runs), and `none`
means that the action is not enabled. Concurrency is interleaving: one action is one atomic section.

Two presentations of "every run" are used and connected here. `run` executes a list of actions and
is what a concrete scenario is evaluated with; `Reach` is the inductive closure that proofs induct
over. `ReachBy` restricts a run to steps whose pre-state meets a side condition, which is how a
result "in every run whose steps all meet the condition" is stated.
-/
import Mathlib.Data.Option.Basic

namespace SlateOS.Foundation.Runs

universe u v

variable {σ : Type u} {α : Type v}

/-! ## Executing a list of actions -/

/-- Execute the actions in order; `none` as soon as one is not enabled. -/
def run (step : σ → α → Option σ) : σ → List α → Option σ
  | s, [] => some s
  | s, a :: as => (step s a).bind fun s' => run step s' as

@[simp] theorem run_nil (step : σ → α → Option σ) (s : σ) : run step s [] = some s := rfl

@[simp] theorem run_cons (step : σ → α → Option σ) (s : σ) (a : α) (as : List α) :
    run step s (a :: as) = (step s a).bind fun s' => run step s' as := rfl

/-- A run splits at any point of its action list. -/
theorem run_append (step : σ → α → Option σ) (s : σ) (as bs : List α) :
    run step s (as ++ bs) = (run step s as).bind fun s' => run step s' bs := by
  induction as generalizing s with
  | nil => rfl
  | cons a as ih =>
    simp only [List.cons_append, run_cons]
    cases step s a with
    | none => rfl
    | some s' => exact ih s'

/-! ## Reachability under a side condition on the steps -/

/-- States reached from `init` by steps that all meet `ok` at their pre-state. -/
inductive ReachBy (step : σ → α → Option σ) (ok : σ → α → Prop) (init : σ → Prop) : σ → Prop
  | start {s : σ} (h : init s) : ReachBy step ok init s
  | next {s s' : σ} {a : α} (h : ReachBy step ok init s) (hok : ok s a)
      (hs : step s a = some s') : ReachBy step ok init s'

/-- States reached from `init` by any steps. -/
abbrev Reach (step : σ → α → Option σ) (init : σ → Prop) : σ → Prop :=
  ReachBy step (fun _ _ => True) init

variable {step : σ → α → Option σ} {ok : σ → α → Prop} {init : σ → Prop}

variable {s : σ}

/-- **The invariant rule.** A predicate that holds initially and is preserved by every step meeting
the side condition holds of every state reached by such steps. -/
theorem ReachBy.invariant {I : σ → Prop} (hinit : ∀ s, init s → I s)
    (hstep : ∀ s a s', I s → ok s a → step s a = some s' → I s')
    (h : ReachBy step ok init s) : I s := by
  induction h with
  | start h => exact hinit _ h
  | next _ hok hs ih => exact hstep _ _ _ ih hok hs

/-- A weaker side condition reaches at least as much. -/
theorem ReachBy.mono {ok' : σ → α → Prop} (hmono : ∀ s a, ok s a → ok' s a)
    (h : ReachBy step ok init s) : ReachBy step ok' init s := by
  induction h with
  | start h => exact .start h
  | next _ hok hs ih => exact .next ih (hmono _ _ hok) hs

/-- Every guarded run is a run. -/
theorem ReachBy.reach (h : ReachBy step ok init s) : Reach step init s :=
  h.mono fun _ _ _ => trivial

variable {as : List α}

/-- A successful execution from a reached state ends in a reached state. -/
theorem Reach.of_run {s s' : σ} (h : Reach step init s)
    (hrun : run step s as = some s') : Reach step init s' := by
  induction as generalizing s with
  | nil =>
    simp only [run_nil, Option.some.injEq] at hrun
    exact hrun ▸ h
  | cons a as ih =>
    simp only [run_cons, Option.bind_eq_some_iff] at hrun
    obtain ⟨t, ht, hrest⟩ := hrun
    exact ih (.next h trivial ht) hrest

/-- The side condition along an execution, as an executable-style recursion on the action list. -/
def Along (step : σ → α → Option σ) (ok : σ → α → Prop) : σ → List α → Prop
  | _, [] => True
  | s, a :: as => ok s a ∧ ∀ s', step s a = some s' → Along step ok s' as

/-- Side conditions that agree at every step agree along every execution. -/
theorem Along.congr {ok' : σ → α → Prop} (h : ∀ s a, ok s a ↔ ok' s a) (s : σ) (as : List α) :
    Along step ok s as ↔ Along step ok' s as := by
  induction as generalizing s with
  | nil => exact Iff.rfl
  | cons a as ih =>
    unfold Along
    refine and_congr (h s a) ?_
    constructor
    · intro hrest s' hs'
      exact (ih s').mp (hrest s' hs')
    · intro hrest s' hs'
      exact (ih s').mpr (hrest s' hs')

/-- Steps from an invariant that meet the side condition obey a law, so an execution that meets the one all
along obeys the other all along. -/
theorem Along.of_invariant {I : σ → Prop} {law : σ → α → Prop}
    (hstep : ∀ s a s', I s → ok s a → step s a = some s' → I s')
    (hlaw : ∀ s a, I s → ok s a → law s a) (hs : I s)
    (halong : Along step ok s as) : Along step law s as := by
  induction as generalizing s with
  | nil => exact trivial
  | cons a as ih =>
    refine ⟨hlaw s a hs halong.1, ?_⟩
    intro s' hs'
    exact ih (hstep s a s' hs halong.1 hs') (halong.2 s' hs')

/-- Under an invariant that the steps meeting the side condition keep, a law equivalent to the side condition is
obeyed all along exactly where the side condition is met all along. -/
theorem Along.iff_of_invariant {I : σ → Prop} {law : σ → α → Prop}
    (hstep : ∀ s a s', I s → ok s a → step s a = some s' → I s')
    (hlaw : ∀ s a, I s → (ok s a ↔ law s a)) (hs : I s) : Along step ok s as ↔ Along step law s as := by
  induction as generalizing s with
  | nil => exact Iff.rfl
  | cons a as ih =>
    unfold Along
    rw [hlaw s a hs]
    apply and_congr_right
    intro hlawful
    apply forall_congr'
    intro s'
    apply imp_congr_right
    intro hs'
    exact ih (hstep s a s' hs ((hlaw s a hs).mpr hlawful) hs')

/-- An execution that meets the side condition all along stays inside the guarded reachable set. -/
theorem ReachBy.of_run {s s' : σ} (h : ReachBy step ok init s)
    (hrun : run step s as = some s') (halong : Along step ok s as) : ReachBy step ok init s' := by
  induction as generalizing s with
  | nil =>
    simp only [run_nil, Option.some.injEq] at hrun
    exact hrun ▸ h
  | cons a as ih =>
    simp only [run_cons, Option.bind_eq_some_iff] at hrun
    obtain ⟨t, ht, hrest⟩ := hrun
    exact ih (.next h halong.1 ht) hrest (halong.2 t ht)

/-- Where a side condition says exactly when a step keeps `P`, an execution meets it all along exactly when every
state it passes is in `P`. -/
theorem Along.iff_prefixes {I P : σ → Prop} {t : σ}
    (hinv : ∀ s a s', I s → step s a = some s' → I s')
    (hexact : ∀ s a s', I s → P s → step s a = some s' → (ok s a ↔ P s'))
    (hI : I s) (hP : P s) (hrun : run step s as = some t) :
    Along step ok s as ↔ ∀ bs, bs <+: as → ∀ s', run step s bs = some s' → P s' := by
  induction as generalizing s with
  | nil =>
    refine ⟨fun _ bs hbs s' hs' => ?_, fun _ => trivial⟩
    obtain rfl := List.prefix_nil.mp hbs
    simp only [run_nil, Option.some.injEq] at hs'
    exact hs' ▸ hP
  | cons a as ih =>
    simp only [run_cons, Option.bind_eq_some_iff] at hrun
    obtain ⟨u, hu, hrest⟩ := hrun
    constructor
    · rintro ⟨hok, hall⟩ bs hbs s' hs'
      have hPu := (hexact s a u hI hP hu).mp hok
      rcases bs with _ | ⟨b, bs⟩
      · simp only [run_nil, Option.some.injEq] at hs'
        exact hs' ▸ hP
      · obtain ⟨rfl, hbs'⟩ := List.cons_prefix_cons.mp hbs
        simp only [run_cons, hu, Option.bind_some] at hs'
        exact (ih (hinv s b u hI hu) hPu hrest).mp (hall u hu) bs hbs' s' hs'
    · intro hall
      have hPu : P u := by
        apply hall [a] ⟨as, rfl⟩
        simp [hu]
      refine ⟨(hexact s a u hI hP hu).mpr hPu, fun u' hu' => ?_⟩
      obtain rfl : u = u' := Option.some.inj (hu.symm.trans hu')
      refine (ih (hinv s a u hI hu) hPu hrest).mpr fun bs hbs s' hs' => ?_
      apply hall (a :: bs) (List.cons_prefix_cons.mpr ⟨rfl, hbs⟩)
      simpa [hu] using hs'

/-- A decidable check of the side condition along an execution. -/
def checkAlong (step : σ → α → Option σ) (check : σ → α → Bool) : σ → List α → Bool
  | _, [] => true
  | s, a :: as => check s a && (step s a).all fun s' => checkAlong step check s' as

theorem Along.of_check {check : σ → α → Bool} (hcheck : ∀ s a, check s a = true → ok s a) (h : checkAlong step check s as = true) : Along step ok s as := by
  induction as generalizing s with
  | nil => exact trivial
  | cons a as ih =>
    unfold checkAlong at h
    rw [Bool.and_eq_true] at h
    refine ⟨hcheck s a h.1, ?_⟩
    intro s' hs'
    have hall := h.2
    rw [hs', Option.all_some] at hall
    exact ih hall

end SlateOS.Foundation.Runs
