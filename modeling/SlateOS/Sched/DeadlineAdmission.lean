/-
# SlateOS.Sched.DeadlineAdmission -- which deadline tasks are admitted

`register` and `unregister` of `kernel/src/sched/deadline.rs`. The running total is the sum of the utilisations of the
tasks that are registered. A task that is registered again is tested with its old utilisation still in the total, and
an utilisation leaves out what it has below one part in 10000, which admits more than the limit.
-/
import Mathlib.Tactic.FieldSimp
import Mathlib.Tactic.Linarith
import SlateOS.Foundation.Runs
import SlateOS.Sched.Deadline

namespace SlateOS.Sched

open Foundation Foundation.MachineInt Foundation.OrderedMap Foundation.Runs

/-! ## Utilisations -/

/-- `DeadlineParams` as the kernel can build them: three `u32`. -/
structure Params32 extends DeadlineParams where
  budget : budgetTicks < 2 ^ 32
  deadline : deadlineTicks < 2 ^ 32
  period : periodTicks < 2 ^ 32

namespace DeadlineParams

/-- The utilisation, exactly. -/
def exactUtilization (p : DeadlineParams) : ℚ := p.budgetTicks / p.periodTicks

/-- What `utilization_x10000` leaves out, in parts of 10000. -/
def lost (p : DeadlineParams) : ℚ := (p.budgetTicks * 10000 % p.periodTicks : ℕ) / p.periodTicks

variable {p : DeadlineParams}

/-- A period of 0 counts as the whole CPU. -/
theorem utilizationX10000_of_zero (h : p.periodTicks = 0) : p.utilizationX10000 = 10000 := if_pos h

theorem utilizationX10000_eq (hbudget : p.budgetTicks < 2 ^ 32) (h : p.periodTicks ≠ 0) :
    p.utilizationX10000 = p.budgetTicks * 10000 / p.periodTicks := by
  unfold utilizationX10000
  rw [if_neg h, saturatingMul, Nat.min_eq_left (by unfold maxVal; omega)]

theorem exactUtilization_eq (hbudget : p.budgetTicks < 2 ^ 32) (h : p.periodTicks ≠ 0) :
    10000 * p.exactUtilization = p.utilizationX10000 + p.lost := by
  have hne : (p.periodTicks : ℚ) ≠ 0 := Nat.cast_ne_zero.mpr h
  have hdiv : (p.budgetTicks * 10000 : ℚ) = p.periodTicks * (p.budgetTicks * 10000 / p.periodTicks : ℕ) +
      (p.budgetTicks * 10000 % p.periodTicks : ℕ) := by
    exact_mod_cast (Nat.div_add_mod (p.budgetTicks * 10000) p.periodTicks).symm
  rw [utilizationX10000_eq hbudget h, exactUtilization, lost]
  field_simp
  linarith

end DeadlineParams

namespace DeadlineScheduler

variable {s s' : DeadlineScheduler} {id : TaskId} {p : DeadlineParams}

/-- The sum of the utilisations of the registered tasks. -/
def utilizations (s : DeadlineScheduler) : Nat := sumValues DeadlineParams.utilizationX10000 s.params

/-- Those of the tasks other than one. -/
def othersUtilization (s : DeadlineScheduler) (id : TaskId) : Nat :=
  sumValues DeadlineParams.utilizationX10000 (s.params.erase id)

/-- The exact sum. -/
def exactUtilizations (s : DeadlineScheduler) : ℚ := sumValues DeadlineParams.exactUtilization s.params

/-! ## Calls -/

/-- A call of the admission control. -/
inductive AdmissionCall
  | register (id : TaskId) (params : Params32)
  | unregister (id : TaskId)

/-- The scheduler after a call. -/
def apply (s : DeadlineScheduler) : AdmissionCall → DeadlineScheduler
  | .register id params => (s.register id params.toDeadlineParams).2
  | .unregister id => s.unregister id

/-- Every call is enabled in every state. -/
def admissionStep (s : DeadlineScheduler) (call : AdmissionCall) : Option DeadlineScheduler := some (s.apply call)

/-- No task is registered. -/
structure Unregistered (s : DeadlineScheduler) : Prop where
  params : s.params = ∅
  total : s.totalUtilization = 0

theorem unregistered_new : new.Unregistered := ⟨rfl, rfl⟩

/-- **The books**: the total is the sum, within the limit, and every registration can be a `u32` one. -/
structure Booked (s : DeadlineScheduler) : Prop where
  total : s.totalUtilization = s.utilizations
  limit : s.totalUtilization ≤ maxUtilizationX10000
  narrow : ∀ (i : TaskId) (p : DeadlineParams), s.params[i]? = some p → p.budgetTicks < 2 ^ 32 ∧ p.periodTicks ≠ 0

theorem Unregistered.booked (h : s.Unregistered) : s.Booked := by
  refine ⟨?_, ?_, fun i p hp => ?_⟩
  · rw [h.total, utilizations, h.params, sumValues_empty]
  · rw [h.total]
    exact Nat.zero_le _
  · rw [h.params] at hp
    have hnone : (∅ : Std.TreeMap TaskId DeadlineParams)[i]? = none := Std.TreeMap.getElem?_emptyc
    rw [hnone] at hp
    cases hp

/-- A task's own utilisation and the others'. -/
theorem utilizations_eq {old : DeadlineParams} (h : s.params[id]? = some old) :
    s.utilizations = old.utilizationX10000 + s.othersUtilization id :=
  sumValues_eq_erase _ h

theorem utilizations_of_none (h : s.params[id]? = none) : s.othersUtilization id = s.utilizations := by
  refine sumValues_erase_of_notMem _ fun hin => ?_
  obtain ⟨v, hv⟩ := mem_iff.1 hin
  rw [h] at hv
  cases hv

theorem getElem?_dropParams (s : DeadlineScheduler) (id i : TaskId) :
    (s.dropParams id).params[i]? = if i = id then none else s.params[i]? := by
  unfold dropParams
  split
  · rename_i hold
    split
    · rename_i hi
      rw [hi, hold]
    · rfl
  · exact getElem?_erase s.params id i

theorem sumValues_dropParams {M : Type*} [AddCommMonoid M] (f : DeadlineParams → M) (s : DeadlineScheduler)
    (id : TaskId) : sumValues f (s.dropParams id).params = sumValues f (s.params.erase id) := by
  unfold dropParams
  split
  · rename_i hold
    refine (sumValues_erase_of_notMem f fun hin => ?_).symm
    obtain ⟨v, hv⟩ := mem_iff.1 hin
    rw [hold] at hv
    cases hv
  · rfl

/-- The removal of a registration takes it off the total. -/
theorem Booked.dropParams_total (h : s.Booked) (id : TaskId) :
    (s.dropParams id).totalUtilization = s.othersUtilization id := by
  unfold dropParams
  split
  · rename_i hold
    rw [utilizations_of_none hold]
    exact h.total
  · rename_i old hold
    show s.totalUtilization - old.utilizationX10000 = _
    rw [h.total, utilizations_eq hold, Nat.add_sub_cancel_left]

theorem Booked.others_le (h : s.Booked) (id : TaskId) : s.othersUtilization id ≤ s.totalUtilization := by
  rw [h.total]
  cases hold : s.params[id]? with
  | none => exact (utilizations_of_none hold).le
  | some old =>
    rw [utilizations_eq hold]
    exact Nat.le_add_left _ _

/-! ## What `register` answers -/

theorem utilizationX10000_lt (p : Params32) : p.utilizationX10000 < 2 ^ 48 := by
  have hbudget := p.budget
  by_cases hzero : p.periodTicks = 0
  · rw [DeadlineParams.utilizationX10000_of_zero hzero]
    decide
  · rw [DeadlineParams.utilizationX10000_eq hbudget hzero]
    refine Nat.lt_of_le_of_lt (Nat.div_le_self _ _) ?_
    omega

/-- `register` tests the running total, in which the task's old utilisation still is. -/
theorem Booked.register_iff (h : s.Booked) (id : TaskId) (p : Params32) :
    (s.register id p.toDeadlineParams).1 = true ↔ s.utilizations + p.utilizationX10000 ≤ maxUtilizationX10000 := by
  have hp := utilizationX10000_lt p
  have hlimit := h.limit
  have hmax : maxUtilizationX10000 = 9500 := rfl
  unfold register
  rw [saturatingAdd_of_lt (by omega), h.total]
  split
  · rename_i hover
    exact iff_of_false Bool.false_ne_true (Nat.not_le_of_gt hover)
  · rename_i hfits
    exact iff_of_true rfl (Nat.le_of_not_gt hfits)

theorem register_refused (hfalse : (s.register id p).1 = false) : (s.register id p).2 = s := by
  unfold register at hfalse ⊢
  split
  · rfl
  · rename_i hfits
    rw [if_neg hfits] at hfalse
    cases hfalse

/-- What an accepted registration does to the books. -/
structure Registered (s : DeadlineScheduler) (id : TaskId) (p : DeadlineParams) (s' : DeadlineScheduler) : Prop where
  total : s'.totalUtilization = s.othersUtilization id + p.utilizationX10000
  params : ∀ i : TaskId, s'.params[i]? = if i = id then some p else s.params[i]?
  sum : ∀ {M : Type} [AddCommMonoid M] (f : DeadlineParams → M),
    sumValues f s'.params = f p + sumValues f (s.params.erase id)

theorem Booked.registered (h : s.Booked) {p : Params32} (htrue : (s.register id p.toDeadlineParams).1 = true) :
    Registered s id p.toDeadlineParams (s.register id p.toDeadlineParams).2 := by
  have hp := utilizationX10000_lt p
  have hle := h.others_le id
  have hlimit := h.limit
  have hmax : maxUtilizationX10000 = 9500 := rfl
  unfold register at htrue ⊢
  split
  · rename_i hover
    rw [if_pos hover] at htrue
    cases htrue
  · refine ⟨?_, fun i => ?_, fun {M} _ f => ?_⟩
    · show saturatingAdd 64 (s.dropParams id).totalUtilization p.utilizationX10000 = _
      rw [h.dropParams_total, saturatingAdd_of_lt (by omega)]
    · show ((s.dropParams id).params.insert id p.toDeadlineParams)[i]? = _
      rw [getElem?_insert, getElem?_dropParams]
      split <;> rfl
    · show sumValues f ((s.dropParams id).params.insert id p.toDeadlineParams) = _
      rw [sumValues_insert, sumValues_dropParams]
      intro hin
      obtain ⟨v, hv⟩ := mem_iff.1 hin
      rw [getElem?_dropParams, if_pos rfl] at hv
      cases hv

theorem Booked.accepted (h : s.Booked) {p : Params32} {s' : DeadlineScheduler} (hreg : Registered s id p.toDeadlineParams s')
    (hfits : s.utilizations + p.utilizationX10000 ≤ maxUtilizationX10000) : s'.Booked := by
  have hle := h.others_le id
  rw [h.total] at hle
  refine ⟨?_, ?_, fun i q hq => ?_⟩
  · rw [hreg.total, Nat.add_comm]
    exact (hreg.sum _).symm
  · rw [hreg.total]
    exact Nat.le_trans (Nat.add_le_add_right hle _) hfits
  · rw [hreg.params] at hq
    split at hq
    · cases hq
      refine ⟨p.budget, fun hzero => ?_⟩
      rw [DeadlineParams.utilizationX10000_of_zero hzero] at hfits
      have hmax : maxUtilizationX10000 = 9500 := rfl
      omega
    · exact h.narrow i q hq

theorem Booked.unregister (h : s.Booked) (id : TaskId) : (s.unregister id).Booked := by
  refine ⟨?_, ?_, fun i p hp => ?_⟩
  · show (s.dropParams id).totalUtilization = sumValues _ (s.dropParams id).params
    rw [h.dropParams_total, sumValues_dropParams]
    rfl
  · show (s.dropParams id).totalUtilization ≤ _
    rw [h.dropParams_total]
    exact Nat.le_trans (h.others_le id) h.limit
  · change (s.dropParams id).params[i]? = some p at hp
    rw [getElem?_dropParams] at hp
    split at hp
    · cases hp
    · exact h.narrow i p hp

theorem Booked.apply (h : s.Booked) (call : AdmissionCall) : (s.apply call).Booked := by
  cases call with
  | unregister id => exact h.unregister id
  | register id p =>
    show (s.register id p.toDeadlineParams).2.Booked
    cases hanswer : (s.register id p.toDeadlineParams).1 with
    | false =>
      rw [register_refused hanswer]
      exact h
    | true => exact h.accepted (h.registered hanswer) ((h.register_iff id p).mp hanswer)

/-- **The books are kept in every run**, and `register` answers as it should except for one case. -/
theorem registration_accounted (h : Reach admissionStep Unregistered s) :
    s.totalUtilization = s.utilizations ∧
    ∀ (id : TaskId) (p : Params32),
      (((s.register id p.toDeadlineParams).1 = true ↔
          s.othersUtilization id + p.utilizationX10000 ≤ maxUtilizationX10000) ↔
        ∀ old, s.params[id]? = some old → s.othersUtilization id + p.utilizationX10000 ≤ maxUtilizationX10000 →
          old.utilizationX10000 + s.othersUtilization id + p.utilizationX10000 ≤ maxUtilizationX10000) ∧
      ((s.register id p.toDeadlineParams).1 = false → (s.register id p.toDeadlineParams).2 = s) := by
  have hbooked : s.Booked := by
    refine h.invariant (fun _ hs => Unregistered.booked hs) ?_
    intro s call s' hs _ hstep
    cases hstep
    exact hs.apply call
  refine ⟨hbooked.total, fun id p => ⟨?_, register_refused⟩⟩
  rw [hbooked.register_iff]
  -- the source adds to the total before it takes off what the task has already
  cases hold : s.params[id]? with
  | none =>
    rw [utilizations_of_none hold]
    refine iff_of_true Iff.rfl fun old hsome => ?_
    cases hsome
  | some old =>
    rw [utilizations_eq hold]
    constructor
    · intro hiff old' hsome hfits
      cases hsome
      exact hiff.mpr hfits
    · intro hfits
      refine ⟨fun hall => ?_, fun hothers => hfits old rfl hothers⟩
      omega

/-- Six tenths of the CPU. -/
def sixTenths : Params32 := ⟨⟨6, 10, 10⟩, by decide, by decide, by decide⟩

/-- Half of it. -/
def half : Params32 := ⟨⟨5, 10, 10⟩, by decide, by decide, by decide⟩

/-- A task has six tenths. -/
def sixTenthsTaken : DeadlineScheduler := (new.register 1 sixTenths.toDeadlineParams).2

theorem sixTenthsTaken_reached : Reach admissionStep Unregistered sixTenthsTaken :=
  .next (.start unregistered_new) (a := .register 1 sixTenths) trivial rfl

theorem registration_accounted_once : sixTenthsTaken.totalUtilization = 6000 ∧
    sixTenthsTaken.totalUtilization = sixTenthsTaken.utilizations :=
  ⟨by decide, (registration_accounted sixTenthsTaken_reached).1⟩

/-- **A task is refused half of the CPU for the six tenths it is to give up.** -/
theorem register_again_refused : ¬∀ s : DeadlineScheduler, Reach admissionStep Unregistered s →
    ∀ (id : TaskId) (p : Params32), (s.register id p.toDeadlineParams).1 = true ↔
      s.othersUtilization id + p.utilizationX10000 ≤ maxUtilizationX10000 := by
  intro hall
  have hfits : sixTenthsTaken.othersUtilization 1 + half.utilizationX10000 ≤ maxUtilizationX10000 := by decide
  have haccepted := (hall sixTenthsTaken sixTenthsTaken_reached 1 half).mpr hfits
  exact absurd haccepted (by decide)

/-! ## The exact load -/

/-- The registered tasks take at most 95 percent. -/
def Sound (s : DeadlineScheduler) : Prop := s.exactUtilizations ≤ 95 / 100

/-- An accepted registration leaves room for what the utilisations leave out. -/
def FractionsFit (s : DeadlineScheduler) : AdmissionCall → Prop
  | .unregister _ => True
  | .register id p => s.utilizations + p.utilizationX10000 ≤ maxUtilizationX10000 →
      sumValues DeadlineParams.lost (s.params.erase id) + p.lost ≤
        ((maxUtilizationX10000 - (s.othersUtilization id + p.utilizationX10000) : ℕ) : ℚ)

theorem exactUtilizations_nonneg_erase (s : DeadlineScheduler) (id : TaskId) :
    sumValues DeadlineParams.exactUtilization (s.params.erase id) ≤ s.exactUtilizations := by
  cases hold : s.params[id]? with
  | none =>
    refine (sumValues_erase_of_notMem _ fun hin => ?_).le
    obtain ⟨v, hv⟩ := mem_iff.1 hin
    rw [hold] at hv
    cases hv
  | some old =>
    unfold exactUtilizations
    rw [sumValues_eq_erase _ hold]
    have hpos : 0 ≤ old.exactUtilization := div_nonneg (Nat.cast_nonneg _) (Nat.cast_nonneg _)
    linarith

/-- The exact load of registrations is their utilisations and what these leave out. -/
theorem exact_sum {m : Std.TreeMap TaskId DeadlineParams}
    (hm : ∀ (i : TaskId) (p : DeadlineParams), m[i]? = some p → p.budgetTicks < 2 ^ 32 ∧ p.periodTicks ≠ 0) :
    10000 * sumValues DeadlineParams.exactUtilization m =
      (sumValues DeadlineParams.utilizationX10000 m : ℕ) + sumValues DeadlineParams.lost m := by
  unfold sumValues
  have hall : ∀ e ∈ m.toList, e.2.budgetTicks < 2 ^ 32 ∧ e.2.periodTicks ≠ 0 :=
    fun e he => hm e.1 e.2 (mem_toList.1 he)
  generalize m.toList = es at hall
  induction es with
  | nil => simp
  | cons e es ih =>
    obtain ⟨hbudget, hperiod⟩ := hall e List.mem_cons_self
    have hrest := ih fun e' he' => hall e' (List.mem_cons_of_mem e he')
    simp only [List.map_cons, List.sum_cons, Nat.cast_add, mul_add]
    rw [hrest, DeadlineParams.exactUtilization_eq hbudget hperiod]
    ring

/-- **One accepted registration is sound exactly where the fractions fit.** -/
theorem Booked.sound_iff_fits (h : s.Booked) {p : Params32} (hreg : Registered s id p.toDeadlineParams s')
    (hfits : s.utilizations + p.utilizationX10000 ≤ maxUtilizationX10000) :
    s'.Sound ↔ s.FractionsFit (.register id p) := by
  have hbooked := h.accepted hreg hfits
  -- the exact load is what is booked and what the rounding of each utilisation lost
  have hexact : 10000 * s'.exactUtilizations = (s'.utilizations : ℕ) + sumValues DeadlineParams.lost s'.params :=
    exact_sum hbooked.narrow
  have hlimit := hbooked.limit
  rw [← hbooked.total, hreg.sum, hreg.total] at hexact
  rw [hreg.total] at hlimit
  have hroom : ((maxUtilizationX10000 - (s.othersUtilization id + p.utilizationX10000) : ℕ) : ℚ) =
      9500 - ((s.othersUtilization id + p.utilizationX10000 : ℕ) : ℚ) := by
    rw [Nat.cast_sub hlimit]
    norm_num [maxUtilizationX10000]
  show s'.exactUtilizations ≤ 95 / 100 ↔ (s.utilizations + p.utilizationX10000 ≤ maxUtilizationX10000 →
    sumValues DeadlineParams.lost (s.params.erase id) + p.lost ≤
      ((maxUtilizationX10000 - (s.othersUtilization id + p.utilizationX10000) : ℕ) : ℚ))
  rw [hroom]
  constructor
  · intro hsound _
    linarith
  · intro hfraction
    have := hfraction hfits
    linarith

/-- A call keeps the load sound exactly where the fractions fit. -/
theorem Booked.sound_apply (h : s.Booked) (hsound : s.Sound) (call : AdmissionCall) :
    (s.apply call).Sound ↔ s.FractionsFit call := by
  cases call with
  | unregister id =>
    refine iff_of_true ?_ trivial
    show sumValues _ (s.dropParams id).params ≤ _
    rw [sumValues_dropParams]
    exact le_trans (exactUtilizations_nonneg_erase s id) hsound
  | register id p =>
    show (s.register id p.toDeadlineParams).2.Sound ↔ _
    cases hanswer : (s.register id p.toDeadlineParams).1 with
    | false =>
      rw [register_refused hanswer]
      refine iff_of_true hsound fun hfits => ?_
      rw [(h.register_iff id p).mpr hfits] at hanswer
      cases hanswer
    | true => exact h.sound_iff_fits (h.registered hanswer) ((h.register_iff id p).mp hanswer)

/-- **Every state of a run is sound exactly where the fractions fit at each of its calls.** -/
theorem admission_sound_iff (s : DeadlineScheduler) (calls : List AdmissionCall) (h : s.Unregistered) :
    Along admissionStep (fun s call => (s.apply call).Sound) s calls ↔ Along admissionStep FractionsFit s calls := by
  have hstart : s.Booked ∧ s.Sound := by
    refine ⟨h.booked, ?_⟩
    show sumValues _ s.params ≤ _
    rw [h.params, sumValues_empty]
    norm_num
  constructor
  · refine Along.of_invariant (I := fun s => s.Booked ∧ s.Sound) ?_ ?_ hstart
    · intro s call s' hs hok hstep
      cases hstep
      exact ⟨hs.1.apply call, hok⟩
    · exact fun s call hs hok => (hs.1.sound_apply hs.2 call).mp hok
  · refine Along.of_invariant (I := fun s => s.Booked ∧ s.Sound) ?_ ?_ hstart
    · intro s call s' hs hok hstep
      cases hstep
      exact ⟨hs.1.apply call, (hs.1.sound_apply hs.2 call).mpr hok⟩
    · exact fun s call hs hok => (hs.1.sound_apply hs.2 call).mpr hok

theorem admission_sound_iff_six_tenths :
    Along admissionStep (fun s call => (s.apply call).Sound) new [.register 1 sixTenths] := by
  refine (admission_sound_iff new [.register 1 sixTenths] unregistered_new).mpr ⟨fun _ => ?_, fun _ _ => trivial⟩
  have hlost : sumValues DeadlineParams.lost (new.params.erase 1) = 0 := rfl
  have hroom : maxUtilizationX10000 - (new.othersUtilization 1 + sixTenths.utilizationX10000) = 3500 := by decide
  rw [hlost, hroom]
  norm_num [DeadlineParams.lost, sixTenths]

/-- A hair more than the limit. -/
def overLimit : Params32 := ⟨⟨95001, 100000, 100000⟩, by decide, by decide, by decide⟩

/-- **A load above the limit is admitted.** -/
theorem overload_admitted : ¬∀ (s : DeadlineScheduler) (calls : List AdmissionCall), s.Unregistered →
    (calls.foldl apply s).Sound := by
  intro hall
  have hsound : (new.register 1 overLimit.toDeadlineParams).2.Sound := hall new [.register 1 overLimit] unregistered_new
  have haccepted : (new.register 1 overLimit.toDeadlineParams).1 = true := by decide
  have hsum := (unregistered_new.booked.registered haccepted).sum DeadlineParams.exactUtilization
  have hnone : sumValues DeadlineParams.exactUtilization (new.params.erase 1) = 0 := rfl
  unfold Sound exactUtilizations at hsound
  rw [hsum, hnone] at hsound
  norm_num [DeadlineParams.exactUtilization, overLimit] at hsound

end DeadlineScheduler

end SlateOS.Sched
