/-
# SlateOS.Bignum.Division -- `divmod` divides

The digit that each round of the main loop finds is the quotient of the window it looks at: the estimate is
that digit or one more, the subtraction tells which, and adding the divisor back repairs the second case. From
the round follows the loop, from the loop `divmod`: for normalized numbers and any divisor but zero the
quotient and the rest are right, nothing saturates, no cast loses anything and no estimate is corrected more
than twice.
-/
import SlateOS.Foundation.QuotientEstimate
import SlateOS.Bignum.Limbs
import Mathlib.Tactic.LinearCombination

namespace SlateOS.Bignum

open Foundation Foundation.Traced Foundation.QuotientEstimate

/-! ## The estimate -/

section Estimate

variable {P W V d u t s : Nat}

/-- **The correction** stops at the digit or one above it. `k` bounds the rounds: each adds the divisor's top
limb to the rest, which ends the loop when it reaches the base. -/
theorem correct_meets (h : View limbBase P W V d u t s) (ht : t < limbBase) : ∀ {q r k : Nat},
    q * t + r = d → W / V ≤ q → q ≤ limbBase + 1 → r < limbBase → limbBase ≤ r + k * t →
      (correct t s u q r).Meets 2 fun out =>
        W / V ≤ out.1 ∧ out.1 * V ≤ W + V ∧ out.1 < limbBase ∧ out.2 ≤ k := by
  intro q
  have hB : limbBase = 1000000000 := rfl
  have hdigit : W / V < limbBase := Nat.div_lt_of_lt_mul h.digit
  induction q with
  | zero =>
    intro r k _ hge _ _ _
    refine Meets.pure ⟨hge, ?_, limbBase_pos, Nat.zero_le _⟩
    rw [Nat.zero_mul]
    exact Nat.zero_le _
  | succ q ih =>
    intro r k hqr hge hq hr hk
    have hproduct : (q + 1) * s ≤ (limbBase + 1) * limbBase := Nat.mul_le_mul hq h.second.le
    have hshifted : r * limbBase + u < 2 ^ 64 := by
      have hthird := h.third
      rw [hB] at hr hthird ⊢
      omega
    rw [hB] at hproduct
    unfold correct
    refine Meets.bind (mulU64_meets (by omega)) ?_
    rintro _ rfl
    refine Meets.bind (mulU64_meets (by omega)) ?_
    rintro _ rfl
    refine Meets.bind (addU64_meets (by omega)) ?_
    rintro _ rfl
    split
    next hbig =>
      have hle : W / V ≤ q := by
        rcases hbig with hbase | hrefuted
        · omega
        · exact Nat.le_of_lt_succ (h.lt_of_refuted hqr hrefuted)
      have hqr' : q * t + (r + t) = d := by
        rw [← hqr]
        ring
      -- A rest below the base has rounds left.
      have hkpos : k ≠ 0 := by
        rintro rfl
        omega
      obtain ⟨k, rfl⟩ := Nat.exists_eq_succ_of_ne_zero hkpos
      refine Meets.bind (addU64_meets (by omega)) ?_
      rintro _ rfl
      split
      next hend =>
        have hfits := h.le_of_rest hqr' (by omega) hend
        have hlt : q < limbBase := by
          have hmul := hfits.trans_lt h.digit
          rw [Nat.mul_comm] at hmul
          exact Nat.lt_of_mul_lt_mul_left hmul
        exact Meets.pure ⟨hle, hfits.trans (Nat.le_add_right _ _), hlt, Nat.succ_le_succ (Nat.zero_le _)⟩
      next hmore =>
      have hk' : limbBase ≤ r + t + k * t := by
        rw [Nat.succ_mul] at hk
        omega
      refine Meets.bind (ih hqr' hle (by omega) (by omega) hk') ?_
      rintro out ⟨hlow, hup, hlt, hrounds⟩
      exact Meets.pure ⟨hlow, hup, hlt, Nat.succ_le_succ hrounds⟩
    next hfits =>
      rw [not_or, Nat.not_le, Nat.not_lt] at hfits
      exact Meets.pure ⟨hge, h.le_succ_of_accepted hqr hfits.1 hfits.2, hfits.1, Nat.zero_le _⟩

end Estimate

/-- A window of the dividend, the limbs `lo`, `third`, `mid` and `hi`, and the divisor's limbs `vl`, `second`
and `top`: the window's quotient is a digit and the divisor's top limb is at least half the base. -/
structure Window (vl lo : List Nat) (second top third mid hi : Nat) : Prop where
  divisor : Limbs (vl ++ [second, top])
  limbs : Limbs (lo ++ [third, mid])
  length : lo.length = vl.length
  half : limbBase ≤ 2 * top
  digit : value (lo ++ [third, mid]) + limbBase ^ (vl.length + 2) * hi <
    value (vl ++ [second, top]) * limbBase

section Window

variable {vl lo tail : List Nat} {second top third mid hi : Nat}

/-- What the window stands for. -/
def windowValue (lo : List Nat) (third mid hi : Nat) : Nat :=
  value (lo ++ [third, mid]) + limbBase ^ (lo.length + 2) * hi

theorem value_append_two (lo : List Nat) (x y : Nat) :
    value (lo ++ [x, y]) = (y * limbBase + x) * limbBase ^ lo.length + value lo := by
  rw [value_append, value_cons, value_cons, value_nil]
  ring

theorem Window.view (h : Window vl lo second top third mid hi) :
    View limbBase (limbBase ^ vl.length) (windowValue lo third mid hi) (value (vl ++ [second, top]))
      (hi * limbBase + mid) third top second := by
  have hdivisor := Limbs.append_iff.mp h.divisor
  have hlimbs := Limbs.append_iff.mp h.limbs
  have hhalf := h.half
  have hpos := limbBase_pos
  refine ⟨⟨value lo, ?_, ?_⟩, ⟨value vl, hdivisor.1.value_lt, value_append_two vl second top⟩, ?_, ?_, ?_, by omega⟩
  · rw [← h.length]
    exact hlimbs.1.value_lt
  · rw [windowValue, value_append_two, h.length]
    ring
  · exact (Limbs.cons_iff.mp hlimbs.2).1
  · exact (Limbs.cons_iff.mp hdivisor.2).1
  · rw [windowValue, h.length]
    exact h.digit

/-- The window's top two limbs are below the divisor's top limb and a base more. -/
theorem Window.dividend_lt (h : Window vl lo second top third mid hi) :
    hi * limbBase + mid < (top + 1) * limbBase := by
  have hview := h.view
  obtain ⟨low, -, hW⟩ := hview.window
  have hlt := hview.digit
  have hV : value (vl ++ [second, top]) < (top + 1) * (limbBase ^ vl.length * limbBase) := by
    have hdivisor : Limbs (vl ++ [second] ++ [top]) := by simpa using h.divisor
    simpa [pow_succ] using hdivisor.top_bounds.2
  have hmul : (hi * limbBase + mid) * (limbBase ^ vl.length * limbBase) <
      (top + 1) * limbBase * (limbBase ^ vl.length * limbBase) := by
    calc (hi * limbBase + mid) * (limbBase ^ vl.length * limbBase)
        ≤ windowValue lo third mid hi := by
          rw [hW]
          nlinarith [Nat.zero_le (third * limbBase ^ vl.length)]
      _ < value (vl ++ [second, top]) * limbBase := hlt
      _ ≤ (top + 1) * (limbBase ^ vl.length * limbBase) * limbBase := Nat.mul_le_mul_right _ hV.le
      _ = (top + 1) * limbBase * (limbBase ^ vl.length * limbBase) := by ring
  exact Nat.lt_of_mul_lt_mul_right hmul

theorem limb_append_add (xs ys : List Nat) (i : Nat) : limb (xs ++ ys) (xs.length + i) = limb ys i := by
  unfold limb
  rw [List.getElem?_append_right (Nat.le_add_right _ _), Nat.add_sub_cancel_left]

/-- **The estimate** is the window's quotient or one more, after two corrections at most. -/
theorem estimate_meets (h : Window vl lo second top third mid hi) :
    (estimate top second (vl.length + 2) (lo ++ third :: mid :: hi :: tail)).Meets 2 fun q =>
      windowValue lo third mid hi / value (vl ++ [second, top]) ≤ q ∧
      q * value (vl ++ [second, top]) ≤ windowValue lo third mid hi + value (vl ++ [second, top]) ∧
      q < limbBase := by
  have hview := h.view
  have hlt := h.dividend_lt
  have hhalf := h.half
  have htop : top < limbBase := by
    have hdivisor := (Limbs.append_iff.mp h.divisor).2
    exact (Limbs.cons_iff.mp (Limbs.cons_iff.mp hdivisor).2).1
  have hB : limbBase = 1000000000 := rfl
  have hhi : limb (lo ++ third :: mid :: hi :: tail) (vl.length + 2) = hi := by
    rw [← h.length, limb_append_add]
    rfl
  have hmid : limb (lo ++ third :: mid :: hi :: tail) (vl.length + 2 - 1) = mid := by
    rw [← h.length, Nat.add_sub_assoc (by omega), limb_append_add]
    rfl
  have hthird : limb (lo ++ third :: mid :: hi :: tail) (vl.length + 2 - 2) = third := by
    rw [← h.length, Nat.add_sub_assoc (by omega), limb_append_add]
    rfl
  unfold estimate
  simp only [hhi, hmid, hthird]
  rw [if_neg (by omega), if_neg (by omega)]
  have htopPos : top ≠ 0 := hview.top.ne'
  have hfits : hi * limbBase + mid < 2 ^ 64 := by
    rw [hB] at htop hlt ⊢
    omega
  refine Meets.bind (mulU64_meets (by omega)) ?_
  rintro _ rfl
  refine Meets.bind (addU64_meets hfits) ?_
  rintro _ rfl
  refine Meets.bind (divU64_meets htopPos) ?_
  rintro _ rfl
  refine Meets.bind (remU64_meets htopPos) ?_
  rintro _ rfl
  set d := hi * limbBase + mid
  have hquotient : d / top ≤ limbBase + 1 := by
    rw [← Nat.lt_succ_iff, Nat.div_lt_iff_lt_mul hview.top]
    rw [hB] at hlt hhalf ⊢
    omega
  have hrest : d % top < top := Nat.mod_lt d hview.top
  have hsplit : d / top * top + d % top = d := Nat.div_add_mod' d top
  refine Meets.bind (correct_meets (k := 2) hview htop hsplit hview.le_first hquotient (by omega) (by omega)) ?_
  rintro out ⟨hlow, hup, hdigit, hrounds⟩
  exact Meets.loop hrounds ⟨hlow, hup, hdigit⟩

end Window

/-! ## Subtracting and adding back -/

section Subtract

variable {q n : Nat} {vs lows tail : List Nat} {borrow carry : Nat}

/-- What is left of the limbs `lows`, and the borrow out, after `q` times the divisor and the borrow in are
taken away. -/
def Subtracted (q : Nat) (vs lows tail : List Nat) (borrow : Nat) (out : List Nat × Nat) : Prop :=
  ∃ left, out.1 = left ++ tail ∧ left.length = vs.length ∧ Limbs left ∧ out.2 ≤ limbBase ∧
    value left + (q * value vs + borrow) = value lows + limbBase ^ vs.length * out.2

theorem Subtracted.cons {v slot low next : Nat} {out : List Nat × Nat}
    (h : Subtracted q vs lows tail next out) (hlow : low < limbBase)
    (hbalance : low + (q * v + borrow) = slot + limbBase * next) :
    Subtracted q (v :: vs) (slot :: lows) tail borrow (low :: out.1, out.2) := by
  obtain ⟨left, heq, hlength, hlimbs, hle, hvalue⟩ := h
  refine ⟨low :: left, ?_, ?_, Limbs.cons_iff.mpr ⟨hlow, hlimbs⟩, hle, ?_⟩
  · show low :: out.1 = _
    rw [heq]
    rfl
  · rw [List.length_cons, List.length_cons, hlength]
  · rw [value_cons, value_cons, value_cons, List.length_cons, pow_succ]
    calc low + limbBase * value left + (q * (v + limbBase * value vs) + borrow)
        = low + (q * v + borrow) + limbBase * (value left + q * value vs) := by ring
      _ = slot + limbBase * (value left + (q * value vs + next)) := by
          rw [hbalance]
          ring
      _ = slot + limbBase * value lows + limbBase ^ vs.length * limbBase * out.2 := by
          rw [hvalue]
          ring

/-- **The subtraction**, one limb and then the others. Folding the borrow into the product keeps what is taken
from a limb below the base, so that one base back is enough. -/
theorem mulSub_meets (hq : q < limbBase) : ∀ {vs lows : List Nat} {borrow : Nat},
    lows.length = vs.length → Limbs vs → Limbs lows → borrow ≤ limbBase →
      (mulSub q vs (lows ++ tail) borrow).Meets 2 (Subtracted q vs lows tail borrow)
  | [], [], borrow, _, _, _, hborrow => by
    unfold mulSub
    refine Meets.pure ⟨[], rfl, rfl, Limbs.nil, hborrow, ?_⟩
    simp
  | v :: vs, slot :: lows, borrow, hlength, hvs, hlows, hborrow => by
    obtain ⟨hv, hvs⟩ := Limbs.cons_iff.mp hvs
    obtain ⟨hslot, hlows⟩ := Limbs.cons_iff.mp hlows
    have hlength : lows.length = vs.length := by simpa using hlength
    have hB : limbBase = 1000000000 := rfl
    have hmul := limb_mul_le hq hv
    have hhi : (q * v + borrow) / limbBase < limbBase := by
      rw [hB] at hborrow
      rw [Nat.div_lt_iff_lt_mul limbBase_pos, hB]
      omega
    have hlo := Nat.mod_lt (q * v + borrow) limbBase_pos
    have hsplit := Nat.mod_add_div (q * v + borrow) limbBase
    rw [List.cons_append]
    unfold mulSub
    refine Meets.bind (mulU64_meets (by omega)) ?_
    rintro _ rfl
    refine Meets.bind (addU64_meets (by omega)) ?_
    rintro _ rfl
    refine Meets.bind (split_meets _) ?_
    rintro _ rfl
    simp only
    set hi := (q * v + borrow) / limbBase
    set lo := (q * v + borrow) % limbBase
    refine Meets.bind (subI64_meets (by omega) (by omega)) ?_
    rintro _ rfl
    split
    next hneg =>
      -- One base goes back into the limb, and one more is borrowed from the next.
      refine Meets.bind (addI64_meets (by omega) (by omega)) ?_
      rintro _ rfl
      refine Meets.bind (intAsU32_meets (by omega) (by omega)) ?_
      rintro _ rfl
      refine Meets.bind (addU64_meets (by omega)) ?_
      rintro _ rfl
      refine Meets.bind (mulSub_meets hq hlength hvs hlows (by omega)) ?_
      intro out hout
      refine Meets.pure (hout.cons (by omega) ?_)
      rw [← hsplit, Nat.mul_succ]
      omega
    next hfits =>
    refine Meets.bind (intAsU32_meets (by omega) (by omega)) ?_
    rintro _ rfl
    refine Meets.bind (mulSub_meets hq hlength hvs hlows hhi.le) ?_
    intro out hout
    refine Meets.pure (hout.cons (by omega) ?_)
    rw [← hsplit]
    omega

/-- **Adding back**: the sum, and a carry that is a bit. -/
theorem addBack_meets : ∀ {vs lows : List Nat} {carry : Nat},
    lows.length = vs.length → Limbs vs → Limbs lows → carry ≤ 1 →
      (addBack vs (lows ++ tail) carry).Meets 2 fun out =>
        ∃ sum, out.1 = sum ++ tail ∧ sum.length = vs.length ∧ Limbs sum ∧ out.2 ≤ 1 ∧
          value sum + limbBase ^ vs.length * out.2 = value lows + value vs + carry
  | [], [], carry, _, _, _, hcarry => by
    unfold addBack
    refine Meets.pure ⟨[], rfl, rfl, Limbs.nil, hcarry, ?_⟩
    simp
  | v :: vs, slot :: lows, carry, hlength, hvs, hlows, hcarry => by
    obtain ⟨hv, hvs⟩ := Limbs.cons_iff.mp hvs
    obtain ⟨hslot, hlows⟩ := Limbs.cons_iff.mp hlows
    have hlength : lows.length = vs.length := by simpa using hlength
    have hB : limbBase = 1000000000 := rfl
    rw [List.cons_append]
    unfold addBack
    refine Meets.bind (addU64_meets (by omega)) ?_
    rintro _ rfl
    refine Meets.bind (addU64_meets (by omega)) ?_
    rintro _ rfl
    refine Meets.bind (split_meets _) ?_
    rintro _ rfl
    have hnext : (slot + v + carry) / limbBase ≤ 1 := by
      rw [Nat.div_le_iff_le_mul_add_pred limbBase_pos]
      omega
    refine Meets.bind (addBack_meets hlength hvs hlows hnext) ?_
    rintro out ⟨sum, heq, hsum, hlimbs, hbit, hvalue⟩
    have hsplit := Nat.mod_add_div (slot + v + carry) limbBase
    refine Meets.pure ⟨(slot + v + carry) % limbBase :: sum, ?_, ?_,
      Limbs.cons_iff.mpr ⟨Nat.mod_lt _ limbBase_pos, hlimbs⟩, hbit, ?_⟩
    · show _ :: out.1 = _
      rw [heq]
      rfl
    · rw [List.length_cons, List.length_cons, hsum]
    · rw [value_cons, value_cons, value_cons, List.length_cons, pow_succ]
      calc (slot + v + carry) % limbBase + limbBase * value sum + limbBase ^ vs.length * limbBase * out.2
          = (slot + v + carry) % limbBase + limbBase * (value sum + limbBase ^ vs.length * out.2) := by ring
        _ = ((slot + v + carry) % limbBase + limbBase * ((slot + v + carry) / limbBase)) +
              limbBase * (value lows + value vs) := by
            rw [hvalue]
            ring
        _ = slot + limbBase * value lows + (v + limbBase * value vs) + carry := by
            rw [hsplit]
            ring

end Subtract

/-! ## One round -/

section Round

variable {vs tail : List Nat} {W : Nat}

/-- The round has replaced the window by its rest, with a limb on top that is not read again, and found its
quotient. -/
def Settled (vs tail : List Nat) (W : Nat) (out : List Nat × Nat) : Prop :=
  ∃ rest top, out.1 = rest ++ top :: tail ∧ rest.length = vs.length ∧ Limbs rest ∧
    value rest = W % value vs ∧ out.2 = W / value vs

theorem getElem?_append_length (xs ys : List Nat) (x : Nat) : (xs ++ x :: ys)[xs.length]? = some x := by
  rw [List.getElem?_append_right (Nat.le_refl _), Nat.sub_self]
  rfl

theorem set_append_length (xs ys : List Nat) (x y : Nat) :
    (xs ++ x :: ys).set xs.length y = xs ++ y :: ys := by
  rw [List.set_append_right _ _ (Nat.le_refl _), Nat.sub_self]
  rfl

/-- **The top limb** decides whether the estimate was the digit. -/
theorem settle_meets {left : List Nat} {start hi borrow q : Nat} (hvs : Limbs vs) (hpos : 0 < value vs)
    (hleft : Limbs left) (hlength : left.length = vs.length) (hhi : hi < limbBase) (hborrow : borrow ≤ limbBase)
    (hW : W = start + limbBase ^ vs.length * hi)
    (hbalance : value left + q * value vs = start + limbBase ^ vs.length * borrow)
    (hlow : W / value vs ≤ q) (hup : q * value vs ≤ W + value vs) :
    (settle vs (left ++ hi :: tail) borrow q).Meets 2 (Settled vs tail W) := by
  have hB : limbBase = 1000000000 := rfl
  have hV := hvs.value_lt
  have hget : (left ++ hi :: tail)[vs.length]? = some hi := by
    rw [← hlength, getElem?_append_length]
  have hset : ∀ x, (left ++ hi :: tail).set vs.length x = left ++ x :: tail := by
    intro x
    rw [← hlength, set_append_length]
  unfold settle
  rw [hget]
  simp only [hset]
  refine Meets.bind (tryI64_meets (by omega)) ?_
  rintro _ rfl
  refine Meets.bind (subI64_meets (by omega) (by omega)) ?_
  rintro _ rfl
  split
  next hneg =>
    -- The estimate was one too large: `hi - borrow` is `-1`, so one base is enough for the top limb.
    have hleftLt : value left < limbBase ^ vs.length := by
      rw [← hlength]
      exact hleft.value_lt
    obtain ⟨hq, hdebt, hsum⟩ := settle_over hpos hV.le hleftLt hup hW hbalance (by omega)
    refine Meets.bind (addI64_meets (by omega) (by omega)) ?_
    rintro _ rfl
    refine Meets.bind (intAsU32_meets (by omega) (by omega)) ?_
    rintro _ rfl
    have hqPos : 1 ≤ q := by
      rw [hq]
      exact Nat.le_add_left _ _
    refine Meets.bind (subU64_meets hqPos) ?_
    rintro _ rfl
    refine Meets.bind (addBack_meets hlength hvs hleft (Nat.zero_le 1)) ?_
    rintro ⟨slots, carry⟩ ⟨sum, heq, hsumLength, hsumLimbs, hbit, hvalue⟩
    simp only at heq hbit hvalue ⊢
    have htop : limb slots vs.length = ((hi : Int) - borrow + limbBase).toNat := by
      rw [heq, ← hsumLength, limb_append_length]
    have hsumSet : ∀ x, slots.set vs.length x = sum ++ x :: tail := by
      intro x
      rw [heq, ← hsumLength, set_append_length]
    rw [htop]
    refine Meets.bind (addU64_meets (by omega)) ?_
    rintro _ rfl
    refine Meets.bind (asU32_meets (by omega)) ?_
    rintro _ rfl
    refine Meets.pure ⟨sum, _, hsumSet _, hsumLength, hsumLimbs, ?_, ?_⟩
    · -- The sum is the rest and one power of the base more, which is the carry.
      have hrest := Nat.mod_lt W hpos
      have hsumLt : value sum < limbBase ^ vs.length := by
        rw [← hsumLength]
        exact hsumLimbs.value_lt
      have hcarry : carry = 1 := by
        rcases Nat.eq_zero_or_pos carry with hzero | hone
        · rw [hzero, Nat.mul_zero] at hvalue
          omega
        · omega
      rw [hcarry, Nat.mul_one] at hvalue
      omega
    · show q - 1 = W / value vs
      rw [hq, Nat.add_sub_cancel]
  next hpaid =>
  obtain ⟨hq, hrest, -⟩ := settle_fits hpos hV.le hlow hW hbalance (by omega)
  refine Meets.bind (intAsU32_meets (by omega) (by omega)) ?_
  rintro _ rfl
  exact Meets.pure ⟨left, _, rfl, hlength, hleft, hrest, hq⟩

/-- **A round of the main loop.** -/
theorem divideStep_meets {vl lo : List Nat} {second top third mid hi : Nat}
    (h : Window vl lo second top third mid hi) (hhi : hi < limbBase) :
    (divideStep top second (vl ++ [second, top]) (lo ++ third :: mid :: hi :: tail)).Meets 2
      (Settled (vl ++ [second, top]) tail (windowValue lo third mid hi)) := by
  have hview := h.view
  have hpos := hview.divisor_pos
  have hlength : (vl ++ [second, top]).length = vl.length + 2 := by simp
  have hlows : (lo ++ [third, mid]).length = (vl ++ [second, top]).length := by
    rw [hlength, ← h.length]
    simp
  have hslots : lo ++ third :: mid :: hi :: tail = lo ++ [third, mid] ++ hi :: tail := by simp
  unfold divideStep
  rw [hlength]
  refine Meets.bind (estimate_meets h) ?_
  rintro q ⟨hlow, hup, hdigit⟩
  rw [hslots]
  refine Meets.bind (mulSub_meets hdigit hlows h.divisor h.limbs (Nat.zero_le _)) ?_
  rintro ⟨slots, borrow⟩ ⟨left, heq, hleftLength, hleft, hborrow, hbalance⟩
  simp only at heq hborrow hbalance ⊢
  rw [heq]
  have hW : windowValue lo third mid hi =
      value (lo ++ [third, mid]) + limbBase ^ (vl ++ [second, top]).length * hi := by
    rw [windowValue, hlength, h.length]
  refine Meets.bind (settle_meets h.divisor hpos hleft hleftLength hhi hborrow hW hbalance hlow hup) ?_
  rintro ⟨slots', digit⟩ ⟨rest, top', hslots', hrestLength, hrest, hvalue, hquotient⟩
  simp only at hslots' hquotient ⊢
  have hlt : digit < limbBase := by
    rw [hquotient]
    exact Nat.div_lt_of_lt_mul hview.digit
  refine Meets.bind (asU32_meets (hlt.trans (by decide))) ?_
  rintro _ rfl
  exact Meets.pure ⟨rest, top', hslots', hrestLength, hrest, hvalue, hquotient⟩

end Round

/-! ## The loop -/

section Loop

theorem exists_concat_of_length {α : Type} {l : List α} {n : Nat} (h : l.length = n + 1) :
    ∃ low x, l = low ++ [x] ∧ low.length = n := by
  have hne : l ≠ [] := by
    rintro rfl
    cases h
  refine ⟨l.dropLast, l.getLast hne, (List.dropLast_concat_getLast hne).symm, ?_⟩
  rw [List.length_dropLast, h, Nat.add_sub_cancel]

theorem windowValue_eq (lo : List Nat) (third mid hi : Nat) :
    windowValue lo third mid hi = value (lo ++ [third, mid, hi]) := by
  rw [windowValue, value_append, value_append]
  simp only [value_cons, value_nil]
  ring

/-- A rest below the divisor and the next limb of the dividend are a window. -/
theorem exists_window {vl lows : List Nat} {second top x : Nat} (hdivisor : Limbs (vl ++ [second, top]))
    (hhalf : limbBase ≤ 2 * top) (hlows : Limbs lows) (hlength : lows.length = vl.length + 2)
    (hx : x < limbBase) (hlt : value lows < value (vl ++ [second, top])) :
    ∃ lo third mid hi, x :: lows = lo ++ [third, mid, hi] ∧ Window vl lo second top third mid hi ∧
      hi < limbBase ∧ windowValue lo third mid hi = x + limbBase * value lows := by
  obtain ⟨first, hi, heq, hfirst⟩ :=
    exists_concat_of_length (l := x :: lows) (n := vl.length + 2) (congrArg Nat.succ hlength)
  obtain ⟨low, mid, rfl, hlow⟩ := exists_concat_of_length (n := vl.length + 1) hfirst
  obtain ⟨lo, third, rfl, hlo⟩ := exists_concat_of_length hlow
  have hlist : x :: lows = lo ++ [third, mid, hi] := by simpa using heq
  have hlimbs : Limbs (lo ++ [third, mid] ++ [hi]) := by
    have hall : Limbs (x :: lows) := Limbs.cons_iff.mpr ⟨hx, hlows⟩
    rw [heq] at hall
    simpa using hall
  have hparts := Limbs.append_iff.mp hlimbs
  have hvalue : windowValue lo third mid hi = x + limbBase * value lows := by
    rw [windowValue_eq, ← hlist, value_cons]
  refine ⟨lo, third, mid, hi, hlist, ⟨hdivisor, hparts.1, hlo, hhalf, ?_⟩,
    (Limbs.cons_iff.mp hparts.2).1, hvalue⟩
  rw [← hlo]
  calc windowValue lo third mid hi = x + limbBase * value lows := hvalue
    _ < limbBase * (value lows + 1) := by
        rw [Nat.mul_succ]
        omega
    _ ≤ limbBase * value (vl ++ [second, top]) := Nat.mul_le_mul_left _ hlt
    _ = value (vl ++ [second, top]) * limbBase := Nat.mul_comm _ _

/-- What the loop leaves of the dividend `U` for the divisor `vs`: a rest below it, and a quotient of `len`
limbs. -/
def LoopDone (vs : List Nat) (U len : Nat) (out : List Nat × List Nat) : Prop :=
  ∃ rest tail, out.1 = rest ++ tail ∧ rest.length = vs.length ∧ Limbs rest ∧ value rest < value vs ∧
    Limbs out.2 ∧ out.2.length = len ∧ value rest + value vs * value out.2 = U

/-- **The main loop.** With `j` limbs of the dividend still to come, the rest of what has been looked at is
below the divisor and the quotient limbs found so far account for what was taken away. -/
theorem divideLoop_meets {vl : List Nat} {second top : Nat} (hdivisor : Limbs (vl ++ [second, top]))
    (hhalf : limbBase ≤ 2 * top) : ∀ {j : Nat} {front lows tail qf qs : List Nat},
    front.length = j → qf.length = j → lows.length = vl.length + 2 → Limbs front → Limbs lows → Limbs qs →
    value lows < value (vl ++ [second, top]) →
      (divideLoop top second (vl ++ [second, top]) j (front ++ (lows ++ tail)) (qf ++ qs)).Meets 2
        (LoopDone (vl ++ [second, top])
          (value (front ++ lows) + limbBase ^ j * (value (vl ++ [second, top]) * value qs))
          (j + qs.length)) := by
  intro j
  induction j with
  | zero =>
    intro front lows tail qf qs hfront hqf hlength hfrontLimbs hlows hqs hlt
    obtain rfl := List.length_eq_zero_iff.mp hfront
    obtain rfl := List.length_eq_zero_iff.mp hqf
    unfold divideLoop
    refine Meets.pure ⟨lows, tail, rfl, ?_, hlows, hlt, hqs, (Nat.zero_add _).symm, ?_⟩
    · simpa using hlength
    · simp
  | succ j ih =>
    intro front lows tail qf qs hfrontLength hqfLength hlength hfrontLimbs hlows hqs hlt
    obtain ⟨front, x, rfl, hfront⟩ := exists_concat_of_length hfrontLength
    obtain ⟨qf, y, rfl, hqf⟩ := exists_concat_of_length hqfLength
    obtain ⟨hfrontLimbs, hxLimbs⟩ := Limbs.append_iff.mp hfrontLimbs
    have hx := (Limbs.cons_iff.mp hxLimbs).1
    obtain ⟨lo, third, mid, hi, hlist, hwindow, hhi, hvalue⟩ :=
      exists_window hdivisor hhalf hlows hlength hx hlt
    have hu : front ++ [x] ++ (lows ++ tail) = front ++ (lo ++ third :: mid :: hi :: tail) := by
      have hslots : x :: (lows ++ tail) = lo ++ third :: mid :: hi :: tail := by
        rw [← List.cons_append, hlist]
        simp
      simp [hslots]
    rw [hu, ← hfront]
    unfold divideLoop
    rw [List.drop_left, List.take_left]
    refine Meets.bind (divideStep_meets hwindow hhi) ?_
    rintro ⟨slots, digit⟩ ⟨rest, top', hslots, hrestLength, hrest, hrestValue, hdigit⟩
    simp only at hslots hdigit ⊢
    have hset : (qf ++ [y] ++ qs).set front.length digit = qf ++ (digit :: qs) := by
      rw [hfront, ← hqf, List.append_assoc, List.singleton_append, set_append_length]
    have hdigitLt : digit < limbBase := by
      rw [hdigit]
      exact Nat.div_lt_of_lt_mul hwindow.view.digit
    have hrestLt : value rest < value (vl ++ [second, top]) := by
      rw [hrestValue]
      exact Nat.mod_lt _ hwindow.view.divisor_pos
    rw [hslots, hset, hfront]
    refine (ih hfront hqf (by simpa using hrestLength) hfrontLimbs hrest
      (Limbs.cons_iff.mpr ⟨hdigitLt, hqs⟩) hrestLt).mono ?_
    rintro out ⟨rest', tail', heq, hlength', hlimbs', hlt', hquotient, hlen, htotal⟩
    refine ⟨rest', tail', heq, hlength', hlimbs', hlt', hquotient, ?_, ?_⟩
    · rw [hlen, List.length_cons]
      omega
    · -- The digit's share goes from the rest to the quotient.
      have hsplit : value rest + value (vl ++ [second, top]) * digit = x + limbBase * value lows := by
        rw [hrestValue, hdigit, ← hvalue]
        exact Nat.mod_add_div _ _
      rw [htotal, value_append front rest, value_append (front ++ [x]) lows, value_append front [x],
        List.length_append, hfront, value_cons digit qs, value_cons x [], value_nil, List.length_singleton,
        pow_succ]
      linear_combination limbBase ^ j * hsplit

/-- The loop from the start: no quotient limb is found, and the top limbs of the dividend are below the
divisor. -/
theorem divideLoop_start {vl u : List Nat} {second top j : Nat} (hdivisor : Limbs (vl ++ [second, top]))
    (hhalf : limbBase ≤ 2 * top) (hlength : u.length = j + (vl.length + 2)) (hu : Limbs u)
    (hlt : value (u.drop j) < value (vl ++ [second, top])) :
    (divideLoop top second (vl ++ [second, top]) j u (List.replicate j 0)).Meets 2
      (LoopDone (vl ++ [second, top]) (value u) j) := by
  have hfront : (u.take j).length = j := by
    rw [List.length_take, hlength]
    omega
  have hlows : (u.drop j).length = vl.length + 2 := by
    rw [List.length_drop, hlength]
    omega
  have hq : (List.replicate j 0).length = j := List.length_replicate
  have hloop : (divideLoop top second (vl ++ [second, top]) j (u.take j ++ (u.drop j ++ []))
      (List.replicate j 0 ++ [])).Meets 2 (LoopDone (vl ++ [second, top]) _ (j + ([] : List Nat).length)) :=
    divideLoop_meets hdivisor hhalf hfront hq hlows (fun l hl => hu l (List.mem_of_mem_take hl))
      (fun l hl => hu l (List.mem_of_mem_drop hl)) Limbs.nil hlt
  simpa using hloop

end Loop

/-! ## Long division -/

/-- A quotient and a rest: normalized, with the value of the dividend, a rest smaller than the divisor and of
the dividend's sign. -/
structure Divided (a b : BigInt) (out : BigInt × BigInt) : Prop where
  quotient : out.1.Normalized
  remainder : out.2.Normalized
  sum : a.toInt = out.1.toInt * b.toInt + out.2.toInt
  small : |out.2.toInt| < |b.toInt|
  sign : out.2.toInt = 0 ∨ out.2.negative = a.negative

namespace BigInt

variable {a b : BigInt}

theorem abs_toInt (a : BigInt) : |a.toInt| = value a.limbs := by
  unfold toInt
  split
  · rw [abs_neg, Nat.abs_cast]
  · rw [Nat.abs_cast]

/-- Magnitudes divide, and the signs are put on in the end. -/
theorem divided_of_magnitudes {qs rs : List Nat} (hqs : Limbs qs) (hqsNe : qs ≠ []) (hrs : Limbs rs)
    (hrsNe : rs ≠ []) (hsum : value a.limbs = value qs * value b.limbs + value rs)
    (hlt : value rs < value b.limbs) :
    Divided a b (normalize ⟨a.negative != b.negative, qs⟩, normalize ⟨a.negative, rs⟩) := by
  refine ⟨normalize_normalized hqsNe hqs, normalize_normalized hrsNe hrs, ?_, ?_, ?_⟩
  · have hcast : (value a.limbs : Int) = value qs * value b.limbs + value rs := by exact_mod_cast hsum
    rw [toInt_normalize, toInt_normalize]
    unfold toInt
    rw [hcast]
    cases a.negative <;> cases b.negative <;> simp <;> ring
  · rw [toInt_normalize, abs_toInt, abs_toInt]
    exact_mod_cast hlt
  · by_cases hzero : value rs = 0
    · left
      rw [toInt_normalize]
      simp [toInt, hzero]
    · exact Or.inr (normalize_negative_of_ne hzero)

/-- **The scale.** -/
theorem scaleFor_meets {low : List Nat} {top : Nat} (heq : b.limbs = low ++ [top]) (hpos : 0 < top)
    (htop : top < limbBase) :
    b.scaleFor.Meets 2 fun scale => 0 < scale ∧ scale < limbBase ∧ scale * (top + 1) ≤ limbBase ∧
      limbBase ≤ 2 * (scale * top) := by
  obtain ⟨hscale, hle, hhalf⟩ := scale_spec (B := limbBase) (by decide) hpos htop
  have hB : limbBase = 1000000000 := rfl
  have hlast : b.limbs.getLastD 1 = top := by
    rw [heq, List.getLastD_concat]
  have hlt : limbBase / (top + 1) < limbBase := Nat.div_lt_self limbBase_pos (by omega)
  unfold scaleFor
  rw [hlast]
  refine Meets.bind (addU64_meets (by omega)) ?_
  rintro _ rfl
  refine Meets.bind (divU64_meets (Nat.succ_ne_zero top)) ?_
  rintro _ rfl
  rw [Nat.max_eq_left hscale]
  refine (asU32_meets (hlt.trans (by decide))).mono ?_
  rintro _ rfl
  exact ⟨hscale, hlt, hle, hhalf⟩

theorem map_limb_range (ls : List Nat) : (List.range ls.length).map (limb ls) = ls := by
  refine List.ext_getElem ?_ ?_
  · simp
  · intro i h₁ h₂
    simp [limb, h₂]

end BigInt

/-- Padding keeps the value and fills up to the length. -/
theorem padTo_spec {len : Nat} {ls : List Nat} (hls : Limbs ls) (hle : ls.length ≤ len) :
    (padTo len ls).length = len ∧ Limbs (padTo len ls) ∧ value (padTo len ls) = value ls := by
  unfold padTo
  refine ⟨?_, Limbs.append_iff.mpr ⟨hls, ?_⟩, ?_⟩
  · rw [List.length_append, List.length_replicate]
    omega
  · intro l hl
    rw [List.eq_of_mem_replicate hl]
    exact limbBase_pos
  · rw [value_append, value_replicate_zero, Nat.mul_zero, Nat.add_zero]

namespace BigInt

variable {a b : BigInt}

/-- The divisor, scaled: as many limbs, and the top one at least half the base. -/
theorem Normalized.scaled {v : BigInt} {low : List Nat} {top scale : Nat} (hb : b.Normalized)
    (heq : b.limbs = low ++ [top]) (hpos : 0 < top) (hv : v.Normalized) (hscale : 0 < scale)
    (hvalue : value v.limbs = scale * value b.limbs) (hle : scale * (top + 1) ≤ limbBase)
    (hhalf : limbBase ≤ 2 * (scale * top)) :
    ∃ vl vTop, v.limbs = vl ++ [vTop] ∧ vl.length = low.length ∧ limbBase ≤ 2 * vTop := by
  have hlimbs := hb.limbs
  rw [heq] at hlimbs
  obtain ⟨hlow, hup⟩ := hlimbs.top_bounds
  rw [← heq] at hlow hup
  have hvLow : scale * top * limbBase ^ low.length ≤ value v.limbs := by
    rw [hvalue, Nat.mul_assoc]
    exact Nat.mul_le_mul_left _ hlow
  have hvUp : value v.limbs < limbBase ^ (low.length + 1) := by
    calc value v.limbs = scale * value b.limbs := hvalue
      _ < scale * ((top + 1) * limbBase ^ low.length) := Nat.mul_lt_mul_of_pos_left hup hscale
      _ = scale * (top + 1) * limbBase ^ low.length := (Nat.mul_assoc _ _ _).symm
      _ ≤ limbBase * limbBase ^ low.length := Nat.mul_le_mul_right _ hle
      _ = limbBase ^ (low.length + 1) := (pow_succ' _ _).symm
  have hone : 1 ≤ scale * top := Nat.mul_pos hscale hpos
  have hvPow : limbBase ^ low.length ≤ value v.limbs := by
    refine le_trans ?_ hvLow
    exact Nat.le_mul_of_pos_left _ hone
  have hlength : v.limbs.length = low.length + 1 := by
    have hmore := hv.lt_length hvPow
    have hne : value v.limbs ≠ 0 := ((Nat.pow_pos limbBase_pos).trans_le hvPow).ne'
    have hfew := hv.length_le hne hvUp
    omega
  obtain ⟨vl, vTop, hvl, hvlLength⟩ := exists_concat_of_length hlength
  refine ⟨vl, vTop, hvl, hvlLength, hhalf.trans (Nat.mul_le_mul_left 2 ?_)⟩
  have hvLimbs := hv.limbs
  rw [hvl] at hvLimbs
  have hbound := hvLimbs.top_bounds.2
  rw [← hvl, hvlLength] at hbound
  have hlt : scale * top < vTop + 1 := Nat.lt_of_mul_lt_mul_right (hvLow.trans_lt hbound)
  omega

/-- **Long division** by a divisor of several limbs. -/
theorem longDivide_meets (ha : a.Normalized) (hb : b.Normalized) (hn : 2 ≤ b.limbs.length)
    (hgt : value b.limbs < value a.limbs) : (a.longDivide b).Meets 2 (Divided a b) := by
  have hbNe : value b.limbs ≠ 0 := hb.value_ne_zero (by omega)
  have haNe : value a.limbs ≠ 0 := by omega
  obtain ⟨low, top, heq, hpos⟩ := hb.split_top hbNe
  have hbLength : b.limbs.length = low.length + 1 := by
    rw [heq, List.length_append, List.length_singleton]
  have htop : top < limbBase := hb.limbs top (by simp [heq])
  have hlengths : b.limbs.length ≤ a.limbs.length := by
    by_contra hlt
    have hless := hb.lt_of_length_lt ha (by omega)
    omega
  unfold longDivide
  refine Meets.bind (scaleFor_meets heq hpos htop) ?_
  rintro scale ⟨hscale, hscaleLt, hle, hhalf⟩
  refine Meets.bind (mulLimb_meets ha hscaleLt) ?_
  rintro u ⟨hu, huValue⟩
  refine Meets.bind (mulLimb_meets hb hscaleLt) ?_
  rintro v ⟨hv, hvValue⟩
  obtain ⟨vlow, vTop, hvl, hvlLength, hvHalf⟩ := hb.scaled heq hpos hv hscale hvValue hle hhalf
  obtain ⟨vl, vSecond, rfl, hvl2⟩ := exists_concat_of_length (n := low.length - 1) (l := vlow) (by omega)
  have hvLimbs : v.limbs = vl ++ [vSecond, vTop] := by simpa using hvl
  have hvLength : v.limbs.length = b.limbs.length := by
    rw [hvl, List.length_append, List.length_singleton, hvlLength, hbLength]
  have hlast : v.limbs.getLastD 1 = vTop := by
    rw [hvl, List.getLastD_concat]
  have hsecond : (if v.limbs.length < 2 then 0 else limb v.limbs (v.limbs.length - 2)) = vSecond := by
    rw [if_neg (by omega), hvLimbs]
    simp [limb]
  have hvs : (List.range b.limbs.length).map (limb v.limbs) = vl ++ [vSecond, vTop] := by
    rw [← hvLength, map_limb_range, hvLimbs]
  have hdivisor : Limbs (vl ++ [vSecond, vTop]) := hvLimbs ▸ hv.limbs
  have hvsValue : value (vl ++ [vSecond, vTop]) = scale * value b.limbs := by
    rw [← hvLimbs, hvValue]
  simp only [hlast, hsecond, hvs]
  set m := a.limbs.length - b.limbs.length with hm
  have huLength : u.limbs.length ≤ m + b.limbs.length + 1 := by
    refine hu.length_le ?_ ?_
    · rw [huValue]
      exact Nat.mul_ne_zero hscale.ne' haNe
    · rw [huValue, pow_succ, Nat.mul_comm _ limbBase, hm, Nat.sub_add_cancel hlengths]
      exact Nat.mul_lt_mul'' hscaleLt ha.limbs.value_lt
  obtain ⟨hpadLength, hpadLimbs, hpadValue⟩ := padTo_spec hu.limbs huLength
  set pad := padTo (m + b.limbs.length + 1) u.limbs
  -- The dividend has a limb less than the divisor `m + 1` places up.
  have hstart : value (pad.drop (m + 1)) < value (vl ++ [vSecond, vTop]) := by
    have hpad : value pad = value (pad.take (m + 1)) + limbBase ^ (m + 1) * value (pad.drop (m + 1)) := by
      conv_lhs => rw [← List.take_append_drop (m + 1) pad]
      rw [value_append, List.length_take, hpadLength, Nat.min_eq_left (by omega)]
    have hbLow := (hb.length_bounds hbNe).1
    have hmul : limbBase ^ (m + 1) * value (pad.drop (m + 1)) <
        limbBase ^ (m + 1) * value (vl ++ [vSecond, vTop]) := by
      calc limbBase ^ (m + 1) * value (pad.drop (m + 1)) ≤ value pad := by
            rw [hpad]
            exact Nat.le_add_left _ _
        _ = scale * value a.limbs := by rw [hpadValue, huValue]
        _ < scale * limbBase ^ a.limbs.length := Nat.mul_lt_mul_of_pos_left ha.limbs.value_lt hscale
        _ = limbBase ^ (m + 1) * (scale * limbBase ^ (b.limbs.length - 1)) := by
            rw [show a.limbs.length = m + 1 + (b.limbs.length - 1) by omega, pow_add]
            ring
        _ ≤ limbBase ^ (m + 1) * value (vl ++ [vSecond, vTop]) := by
            rw [hvsValue]
            exact Nat.mul_le_mul_left _ (Nat.mul_le_mul_left _ hbLow)
    exact Nat.lt_of_mul_lt_mul_left hmul
  refine Meets.bind (divideLoop_start hdivisor hvHalf (by omega) hpadLimbs hstart) ?_
  rintro ⟨u', q⟩ ⟨rest, tail, hu', hrestLength, hrest, hrestLt, hq, hqLength, htotal⟩
  simp only at hu' hq hqLength htotal ⊢
  have hrestLen : rest.length = b.limbs.length := by
    rw [hrestLength, ← hvLimbs, hvLength]
  have hrem : (if b.limbs.length ≤ u'.length then u'.take b.limbs.length else u') = rest := by
    rw [hu', if_pos (by simp [hrestLen]), ← hrestLen, List.take_left]
  have hrestNe : rest ≠ [] := by
    rw [← List.length_pos_iff]
    omega
  rw [hrem]
  refine Meets.bind (divLimb_meets hrestNe hrest hscale hscaleLt) ?_
  rintro ⟨remainder, r⟩ ⟨hremainder, hr, hunscaled⟩
  simp only at hremainder hr hunscaled ⊢
  rw [hpadValue, huValue, hvsValue, hunscaled] at htotal
  rw [hvsValue, hunscaled] at hrestLt
  -- The scale divides what is left, so unscaling is exact.
  have hexact : r = 0 := by
    have hothers : scale ∣ value remainder.limbs * scale + scale * (value b.limbs * value q) :=
      Nat.dvd_add (Nat.dvd_mul_left _ _) (Nat.dvd_mul_right _ _)
    have hall : scale ∣ value remainder.limbs * scale + scale * (value b.limbs * value q) + r :=
      ⟨value a.limbs, by linear_combination htotal⟩
    exact Nat.eq_zero_of_dvd_of_lt ((Nat.dvd_add_right hothers).mp hall) hr
  subst hexact
  have hqNe : q ≠ [] := by
    rw [← List.length_pos_iff]
    omega
  refine Meets.pure (divided_of_magnitudes hq hqNe hremainder.limbs hremainder.nonempty ?_ ?_)
  · refine Nat.eq_of_mul_eq_mul_left hscale ?_
    linear_combination -htotal
  · rw [Nat.add_zero, Nat.mul_comm] at hrestLt
    exact Nat.lt_of_mul_lt_mul_left hrestLt

/-- **`divmod` divides.** -/
theorem divmod_meets (ha : a.Normalized) (hb : b.Normalized) (hne : b.isZero = false) :
    (a.divmod b).Meets 2 (Divided a b) := by
  have hbNe : value b.limbs ≠ 0 := by
    intro hzero
    rw [isZero_iff.mpr hzero] at hne
    cases hne
  have hcmp := cmpMag_spec ha hb
  unfold divmod
  rw [if_neg (by simp [hne])]
  split
  next hless =>
    have hlt : value a.limbs < value b.limbs := by
      rw [hcmp, order] at hless
      split at hless
      · omega
      · split at hless <;> omega
    refine Meets.pure ⟨Normalized.zero, ha, ?_, ?_, Or.inr rfl⟩
    · simp [toInt, BigInt.zero]
    · rw [abs_toInt, abs_toInt]
      exact_mod_cast hlt
  next hnotLess =>
  split
  next hequal =>
    have heq : value a.limbs = value b.limbs := by
      rw [hcmp, order] at hequal
      split at hequal
      · assumption
      · split at hequal <;> omega
    have hzero : BigInt.zero = normalize ⟨a.negative, [0]⟩ := by
      cases a.negative <;> rfl
    rw [hzero]
    refine Meets.pure (divided_of_magnitudes (by decide) (by decide) (by decide) (by decide) ?_ ?_)
    · simp [BigInt.one, heq]
    · simpa using Nat.pos_of_ne_zero hbNe
  next hdiffer =>
  have hgt : value b.limbs < value a.limbs := by
    rw [hcmp, order] at hnotLess hdiffer
    split at hdiffer
    · omega
    · split at hdiffer
      · assumption
      · omega
  split
  next d hd =>
    have hdValue : value b.limbs = d := by simp [hd]
    have hdLt : d < limbBase := hb.limbs d (by simp [hd])
    refine Meets.bind (divLimb_meets ha.nonempty ha.limbs (by omega) hdLt) ?_
    rintro ⟨q, r⟩ ⟨hq, hr, hvalue⟩
    simp only at hq hr hvalue ⊢
    obtain ⟨hrNe, hrLimbs, hrValue⟩ := limbsOf_spec r
    have hfrom : (fromI64 r).limbs = limbsOf r := rfl
    refine Meets.pure (divided_of_magnitudes hq.limbs hq.nonempty hrLimbs hrNe ?_ ?_)
    · rw [hfrom, hrValue, hdValue]
      exact hvalue
    · rw [hfrom, hrValue, hdValue]
      exact hr
  next hmore =>
  have hn : 2 ≤ b.limbs.length := by
    rcases hlimbs : b.limbs with _ | ⟨x, _ | ⟨y, ys⟩⟩
    · exact absurd hlimbs hb.nonempty
    · exact absurd hlimbs (hmore x)
    · simp
  exact longDivide_meets ha hb hn hgt

/-- Minus `10^27` by `10^18 + 1`: one correction and one divisor added back. -/
theorem divmod_added_back :
    (divmod ⟨true, [0, 0, 0, 1]⟩ ⟨false, [1, 0, 1]⟩).val = (⟨true, [999999999]⟩, ⟨true, [1, 999999999]⟩) ∧
      (divmod ⟨true, [0, 0, 0, 1]⟩ ⟨false, [1, 0, 1]⟩).Meets 2
        (Divided ⟨true, [0, 0, 0, 1]⟩ ⟨false, [1, 0, 1]⟩) :=
  ⟨by decide, divmod_meets ⟨by decide, by decide, by decide, by decide⟩
    ⟨by decide, by decide, by decide, by decide⟩ (by decide)⟩

end BigInt

end SlateOS.Bignum
