/-
# SlateOS.Fs.Reclock.Coverage -- which bytes a list of locks holds

A list of locks stands for a relation between owners, bytes and types. `subtract` takes exactly a range out of
one lock, `install` gives exactly a range to one owner, and both keep the list `Sound`: no lock is empty, two
owners' locks do not conflict, and one owner's locks are disjoint and do not touch where they have one type.
-/
import SlateOS.Fs.Reclock.Table
import Mathlib.Data.List.Pairwise

namespace SlateOS.Fs.Reclock

open Foundation.MachineInt

variable {l l' h merged want : RecordLock} {locks out held : List RecordLock} {o o' a c b : Nat}
  {ty : RecordLockType}

namespace RecordLock

/-- The lock covers byte `b`. -/
def Covers (l : RecordLock) (b : Nat) : Prop := l.start ≤ b ∧ b < l.stop

theorem stop_le (l : RecordLock) : l.stop ≤ maxVal 64 := by
  unfold stop
  split
  · exact Nat.le_refl _
  · exact saturatingAdd_le_maxVal _ _ _

/-- A lock that starts below the end covers a byte. -/
theorem start_lt_stop (hstart : l.start < maxVal 64) : l.start < l.stop := by
  unfold stop saturatingAdd
  split <;> omega

theorem stop_spanning (hlt : a < c) (hle : c ≤ maxVal 64) : (spanning o a c ty).stop = c := by
  unfold spanning stop saturatingAdd
  dsimp only
  by_cases hend : c = maxVal 64
  · rw [if_pos hend, if_pos rfl, hend]
  · rw [if_neg hend, if_neg (by omega)]
    omega

theorem overlaps_iff : l.overlaps l' = true ↔ l.start < l'.stop ∧ l'.start < l.stop := by
  rw [overlaps, Bool.and_eq_true, decide_eq_true_eq, decide_eq_true_eq]

theorem conflictsWith_iff : l.conflictsWith l' = true ↔
    l.owner ≠ l'.owner ∧ (l.start < l'.stop ∧ l'.start < l.stop) ∧ (l.lockType = .write ∨ l'.lockType = .write) := by
  rw [conflictsWith, Bool.and_eq_true, Bool.and_eq_true, decide_eq_true_eq, overlaps_iff, Bool.or_eq_true,
    decide_eq_true_eq, decide_eq_true_eq, and_assoc]

/-- What two locks of one table must be to each other, up to touching. -/
structure Apart (l l' : RecordLock) : Prop where
  disjoint : l.owner = l'.owner → l.stop ≤ l'.start ∨ l'.stop ≤ l.start
  compatible : l.owner ≠ l'.owner →
    (l.stop ≤ l'.start ∨ l'.stop ≤ l.start) ∨ (l.lockType = .read ∧ l'.lockType = .read)

/-- And what they must be once touching locks are merged. -/
structure Separate (l l' : RecordLock) : Prop extends Apart l l' where
  untouched : l.owner = l'.owner → l.lockType = l'.lockType → l.stop ≠ l'.start ∧ l'.stop ≠ l.start

theorem Apart.symm (h : Apart l l') : Apart l' l :=
  ⟨fun ho => (h.disjoint ho.symm).symm, fun ho => (h.compatible (Ne.symm ho)).imp Or.symm And.symm⟩

theorem Separate.symm (h : Separate l l') : Separate l' l :=
  ⟨h.toApart.symm, fun ho ht => (h.untouched ho.symm ht.symm).symm⟩

instance : Std.Symm Separate := ⟨fun _ _ h => h.symm⟩

theorem apart_of_compatible (howner : l.owner ≠ l'.owner) (h : l.conflictsWith l' = false) : Apart l l' := by
  refine ⟨fun ho => absurd ho howner, fun _ => ?_⟩
  have hnot : ¬ (l.conflictsWith l' = true) := by
    rw [h]
    exact Bool.false_ne_true
  rw [conflictsWith_iff] at hnot
  cases hl : l.lockType <;> cases hl' : l'.lockType <;> simp only [hl, hl', reduceCtorEq, or_true,
    and_true, or_false, and_false, not_false_eq_true] at hnot ⊢ <;> omega

end RecordLock

open RecordLock

/-! ## Pieces of a lock -/

/-- A piece of a lock: same owner and type, not empty, and inside it. -/
structure Piece (held l : RecordLock) : Prop where
  owner : l.owner = held.owner
  lockType : l.lockType = held.lockType
  since : held.start ≤ l.start
  ne : l.start < l.stop
  upTo : l.stop ≤ held.stop

theorem Piece.refl (h : l.start < l.stop) : Piece l l := ⟨rfl, rfl, Nat.le_refl _, h, Nat.le_refl _⟩

theorem Piece.apart (h : Piece l l') (hs : Apart l h_) : Apart l' h_ := by
  have := h.since
  have := h.upTo
  refine ⟨fun ho => ?_, fun ho => ?_⟩
  · have := hs.disjoint (h.owner.symm.trans ho)
    omega
  · obtain hd | ht := hs.compatible (fun heq => ho (h.owner.trans heq))
    · left
      omega
    · exact .inr ⟨h.lockType.trans ht.1, ht.2⟩

theorem Piece.separate (h : Piece l l') (hs : Separate l h_) (hne : h_.start < h_.stop) : Separate l' h_ := by
  have := h.since
  have := h.upTo
  have := h.ne
  refine ⟨h.apart hs.toApart, fun ho ht => ?_⟩
  have hd := hs.disjoint (h.owner.symm.trans ho)
  have hu := hs.untouched (h.owner.symm.trans ho) (h.lockType.symm.trans ht)
  omega

theorem mem_subtract (hne : h.start < h.stop) (hmem : l ∈ subtract h a c) :
    Piece h l ∧ (l.stop ≤ a ∨ c ≤ l.start) := by
  have hle := stop_le h
  unfold subtract at hmem
  split at hmem
  case isTrue hout =>
    rw [List.mem_singleton] at hmem
    subst hmem
    exact ⟨.refl hne, by omega⟩
  case isFalse hin =>
    rw [List.mem_append] at hmem
    obtain hmem | hmem := hmem
    · split at hmem
      case isTrue hlt =>
        rw [List.mem_singleton] at hmem
        subst hmem
        have hstop : (spanning h.owner h.start a h.lockType).stop = a := stop_spanning hlt (by omega)
        refine ⟨⟨rfl, rfl, Nat.le_refl _, ?_, ?_⟩, .inl (Nat.le_of_eq hstop)⟩
        · rw [hstop]
          exact hlt
        · rw [hstop]
          omega
      case isFalse => cases hmem
    · split at hmem
      case isTrue hlt =>
        rw [List.mem_singleton] at hmem
        subst hmem
        have hstop : (spanning h.owner c h.stop h.lockType).stop = h.stop := stop_spanning hlt hle
        refine ⟨⟨rfl, rfl, ?_, ?_, Nat.le_of_eq hstop⟩, .inr (Nat.le_refl _)⟩
        · change h.start ≤ c
          omega
        · rw [hstop]
          exact hlt
      case isFalse => cases hmem

theorem covers_subtract (hne : h.start < h.stop) :
    (∃ l ∈ subtract h a c, l.Covers b) ↔ h.Covers b ∧ ¬(a ≤ b ∧ b < c) := by
  have hle := stop_le h
  constructor
  · rintro ⟨l, hmem, hl⟩
    obtain ⟨hpiece, hout⟩ := mem_subtract hne hmem
    have := hpiece.since
    have := hpiece.upTo
    unfold Covers at hl ⊢
    omega
  · rintro ⟨hcov, hnot⟩
    unfold Covers at hcov
    unfold subtract
    split
    case isTrue => exact ⟨h, List.mem_singleton_self h, hcov⟩
    case isFalse hin =>
      by_cases hb : b < a
      · refine ⟨spanning h.owner h.start a h.lockType, ?_, ?_⟩
        · rw [if_pos (by omega : h.start < a)]
          exact List.mem_append_left _ (List.mem_singleton_self _)
        · unfold Covers
          rw [stop_spanning (by omega) (by omega)]
          exact ⟨hcov.1, hb⟩
      · refine ⟨spanning h.owner c h.stop h.lockType, ?_, ?_⟩
        · rw [if_pos (by omega : c < h.stop)]
          exact List.mem_append_right _ (List.mem_singleton_self _)
        · unfold Covers
          rw [stop_spanning (by omega) hle]
          exact ⟨by change c ≤ b; omega, hcov.2⟩

theorem pairwise_subtract (hne : h.start < h.stop) (hac : a < c) : (subtract h a c).Pairwise Separate := by
  have hle := stop_le h
  unfold subtract
  split
  case isTrue => exact List.pairwise_singleton _ _
  case isFalse hin =>
    rw [List.pairwise_append]
    refine ⟨?_, ?_, ?_⟩
    · split
      · exact List.pairwise_singleton _ _
      · exact .nil
    · split
      · exact List.pairwise_singleton _ _
      · exact .nil
    · intro x hx y hy
      split at hx
      case isFalse => cases hx
      case isTrue hlt =>
        split at hy
        case isFalse => cases hy
        case isTrue hlt' =>
          rw [List.mem_singleton] at hx hy
          subst hx hy
          have hx : (spanning h.owner h.start a h.lockType).stop = a := stop_spanning hlt (by omega)
          have hy : (spanning h.owner c h.stop h.lockType).stop = h.stop := stop_spanning hlt' hle
          refine ⟨⟨fun _ => .inl ?_, fun ho => absurd rfl ho⟩, fun _ _ => ⟨?_, ?_⟩⟩
          · rw [hx]
            exact Nat.le_of_lt hac
          · rw [hx]
            exact Nat.ne_of_lt hac
          · rw [hy]
            change h.stop ≠ h.start
            omega

/-! ## Lists of locks -/

/-- Owner `o` holds byte `b` with type `ty`. -/
def Holds (locks : List RecordLock) (o b : Nat) (ty : RecordLockType) : Prop :=
  ∃ l ∈ locks, l.owner = o ∧ l.lockType = ty ∧ l.Covers b

/-- No lock is empty, and the locks are separate. -/
structure Sound (locks : List RecordLock) : Prop where
  ne : ∀ l ∈ locks, l.start < l.stop
  separate : locks.Pairwise Separate

theorem Sound.nil : Sound [] := ⟨(fun _ hl => nomatch hl), .nil⟩

/-- Two locks that cover a byte for one owner are one. -/
theorem Holds.unique {ty' : RecordLockType} (hs : Sound locks) (h : Holds locks o b ty)
    (h' : Holds locks o b ty') : ty = ty' := by
  obtain ⟨x, hx, hxo, hxt, hxb⟩ := h
  obtain ⟨y, hy, hyo, hyt, hyb⟩ := h'
  by_cases hxy : x = y
  · rw [← hxt, ← hyt, hxy]
  · have hsep := hs.separate.forall hx hy hxy
    have hd := hsep.disjoint (hxo.trans hyo.symm)
    unfold Covers at hxb hyb
    omega

/-- No two owners hold a byte incompatibly. -/
theorem Holds.compatible {ty' : RecordLockType} (hs : Sound locks) (h : Holds locks o b ty)
    (h' : Holds locks o' b ty') (ho : o ≠ o') : ty = .read ∧ ty' = .read := by
  obtain ⟨x, hx, hxo, hxt, hxb⟩ := h
  obtain ⟨y, hy, hyo, hyt, hyb⟩ := h'
  have hne : x.owner ≠ y.owner := by
    rw [hxo, hyo]
    exact ho
  have hsep := hs.separate.forall hx hy (fun heq => hne (congrArg _ heq))
  obtain hd | ht := hsep.compatible hne
  · unfold Covers at hxb hyb
    omega
  · exact ⟨hxt.symm.trans ht.1, hyt.symm.trans ht.2⟩

/-- A request is in conflict exactly when a byte of it is held incompatibly by another owner. -/
theorem conflict_iff (hne : ∀ l ∈ locks, l.start < l.stop) (hwant : want.start < want.stop) :
    (∃ l ∈ locks, l.conflictsWith want = true) ↔
      ∃ o b ty, o ≠ want.owner ∧ want.Covers b ∧ Holds locks o b ty ∧ (ty = .write ∨ want.lockType = .write) := by
  constructor
  · rintro ⟨l, hl, hc⟩
    obtain ⟨howner, hov, hty⟩ := conflictsWith_iff.mp hc
    have hlne := hne l hl
    refine ⟨l.owner, max l.start want.start, l.lockType, howner, ?_, ⟨l, hl, rfl, rfl, ?_⟩, hty⟩
    · unfold Covers
      omega
    · unfold Covers
      omega
  · rintro ⟨o, b, ty, howner, hb, ⟨l, hl, hlo, hlt, hlb⟩, hty⟩
    refine ⟨l, hl, conflictsWith_iff.mpr ⟨hlo ▸ howner, ?_, hlt ▸ hty⟩⟩
    unfold Covers at hb hlb
    omega

/-! ## Taking a range out -/

/-- A range that a request can ask for: not empty, or at the very end. -/
def RangeOk (a c : Nat) : Prop := a < c ∨ maxVal 64 ≤ a

theorem mem_clearOwn (hne : ∀ l ∈ held, l.start < l.stop) (hac : RangeOk a c)
    (hmem : l ∈ clearOwn held o a c) :
    ∃ h ∈ held, Piece h l ∧ (l.owner = o → l.stop ≤ a ∨ c ≤ l.start) ∧
      (l = h ∨ (h.owner = o ∧ a < c ∧ l ∈ subtract h a c)) := by
  rw [clearOwn, List.mem_flatMap] at hmem
  obtain ⟨h, hh, hl⟩ := hmem
  have hle := stop_le h
  split at hl
  case isTrue hcut =>
    have hlt : a < c := hac.resolve_right (by omega)
    obtain ⟨hpiece, hout⟩ := mem_subtract (hne h hh) hl
    exact ⟨h, hh, hpiece, fun _ => hout, .inr ⟨hcut.1, hlt, hl⟩⟩
  case isFalse hcut =>
    rw [List.mem_singleton] at hl
    subst hl
    exact ⟨l, hh, .refl (hne l hh), fun ho => by omega, .inl rfl⟩

theorem holds_clearOwn (hne : ∀ l ∈ held, l.start < l.stop) (hac : RangeOk a c) :
    Holds (clearOwn held o a c) o' b ty ↔ Holds held o' b ty ∧ ¬(o' = o ∧ a ≤ b ∧ b < c) := by
  constructor
  · rintro ⟨l, hl, hlo, hlt, hlb⟩
    obtain ⟨h, hh, hpiece, hout, -⟩ := mem_clearOwn hne hac hl
    have := hpiece.since
    have := hpiece.upTo
    unfold Covers at hlb
    refine ⟨⟨h, hh, hpiece.owner.symm.trans hlo, hpiece.lockType.symm.trans hlt, ?_⟩, ?_⟩
    · unfold Covers
      omega
    · rintro ⟨ho, hb⟩
      have := hout (hlo.trans ho)
      omega
  · rintro ⟨⟨h, hh, hho, hht, hhb⟩, hnot⟩
    by_cases hcut : h.owner = o ∧ h.start < c ∧ a < h.stop
    · have hle := stop_le h
      have hlt : a < c := hac.resolve_right (by omega)
      have hcov : h.Covers b ∧ ¬(a ≤ b ∧ b < c) := ⟨hhb, fun hb => hnot ⟨hho.symm.trans hcut.1, hb⟩⟩
      obtain ⟨l, hl, hlb⟩ := (covers_subtract (hne h hh)).mpr hcov
      obtain ⟨hpiece, -⟩ := mem_subtract (hne h hh) hl
      refine ⟨l, ?_, hpiece.owner.trans hho, hpiece.lockType.trans hht, hlb⟩
      rw [clearOwn, List.mem_flatMap]
      refine ⟨h, hh, ?_⟩
      rw [if_pos hcut]
      exact hl
    · refine ⟨h, ?_, hho, hht, hhb⟩
      rw [clearOwn, List.mem_flatMap]
      refine ⟨h, hh, ?_⟩
      rw [if_neg hcut]
      exact List.mem_singleton_self h

theorem Sound.clearOwn (hs : Sound held) (hac : RangeOk a c) : Sound (clearOwn held o a c) := by
  refine ⟨?_, ?_⟩
  · intro l hl
    obtain ⟨h, -, hpiece, -⟩ := mem_clearOwn hs.ne hac hl
    exact hpiece.ne
  · unfold Reclock.clearOwn
    rw [List.pairwise_flatMap]
    have hpieces : ∀ h ∈ held, ∀ l ∈ (if h.owner = o ∧ h.start < c ∧ a < h.stop then subtract h a c else [h]),
        Piece h l := by
      intro h hh l hl
      have hle := stop_le h
      split at hl
      case isTrue hcut => exact (mem_subtract (hs.ne h hh) hl).1
      case isFalse =>
        rw [List.mem_singleton] at hl
        subst hl
        exact .refl (hs.ne l hh)
    refine ⟨?_, ?_⟩
    · intro h hh
      have hle := stop_le h
      split
      case isTrue hcut => exact pairwise_subtract (hs.ne h hh) (hac.resolve_right (by omega))
      case isFalse => exact List.pairwise_singleton _ _
    · refine hs.separate.imp_of_mem ?_
      intro x y hx hy hxy l hl l' hl'
      have hpx := hpieces x hx l hl
      have hpy := hpieces y hy l' hl'
      exact (hpy.separate (hpx.separate hxy (hs.ne y hy)).symm hpx.ne).symm

/-! ## Installing a lock -/

theorem touches_iff : touches merged h = true ↔
    h.owner = merged.owner ∧ h.lockType = merged.lockType ∧ (h.stop = merged.start ∨ merged.stop = h.start) := by
  rw [touches, Bool.and_eq_true, Bool.and_eq_true, decide_eq_true_eq, decide_eq_true_eq, Bool.or_eq_true,
    decide_eq_true_eq, decide_eq_true_eq, and_assoc]

/-- What is absorbed and what absorbs it together cover what the merged lock covers. -/
theorem merge_range (hh : h.start < h.stop) (hm : merged.start < merged.stop) (ht : touches merged h = true) :
    (merge merged h).start = min h.start merged.start ∧ (merge merged h).stop = max h.stop merged.stop ∧
      (merge merged h).start < (merge merged h).stop := by
  obtain ⟨-, -, htouch⟩ := touches_iff.mp ht
  have hlh := stop_le h
  have hlm := stop_le merged
  have hstop : (merge merged h).stop = max h.stop merged.stop := stop_spanning (by omega) (by omega)
  refine ⟨rfl, hstop, ?_⟩
  rw [hstop]
  change min h.start merged.start < _
  omega

/-- Absorbing touching locks changes no byte and leaves nothing to absorb. -/
theorem absorb_spec (out : List RecordLock) (merged : RecordLock) (hs : Sound out)
    (hm : merged.start < merged.stop) (hapart : ∀ l ∈ out, Apart l merged) :
    Sound (absorb out merged) ∧
      ∀ o b ty, Holds (absorb out merged) o b ty ↔
        Holds out o b ty ∨ (o = merged.owner ∧ ty = merged.lockType ∧ merged.Covers b) := by
  induction out, merged using absorb.induct with
  | case1 out merged hnone =>
    unfold absorb
    split
    case h_2 h hsome => rw [hnone] at hsome; cases hsome
    case h_1 =>
      refine ⟨⟨?_, ?_⟩, ?_⟩
      · intro l hl
        obtain hl | hl := List.mem_append.mp hl
        · exact hs.ne l hl
        · rw [List.mem_singleton] at hl
          rwa [hl]
      · rw [List.pairwise_append]
        refine ⟨hs.separate, List.pairwise_singleton _ _, ?_⟩
        intro l hl m hmem
        rw [List.mem_singleton] at hmem
        subst hmem
        refine ⟨hapart l hl, fun ho ht => ?_⟩
        have hnot : ¬ (touches m l = true) := by simpa using List.find?_eq_none.mp hnone l hl
        rw [touches_iff] at hnot
        exact ⟨fun heq => hnot ⟨ho, ht, .inl heq⟩, fun heq => hnot ⟨ho, ht, .inr heq⟩⟩
      · intro o b ty
        constructor
        · rintro ⟨l, hl, hlo, hlt, hlb⟩
          obtain hl | hl := List.mem_append.mp hl
          · exact .inl ⟨l, hl, hlo, hlt, hlb⟩
          · rw [List.mem_singleton] at hl
            subst hl
            exact .inr ⟨hlo.symm, hlt.symm, hlb⟩
        · rintro (⟨l, hl, hlo, hlt, hlb⟩ | ⟨ho, ht, hb⟩)
          · exact ⟨l, List.mem_append_left _ hl, hlo, hlt, hlb⟩
          · exact ⟨merged, List.mem_append_right _ (List.mem_singleton_self _), ho.symm, ht.symm, hb⟩
  | case2 out merged h hsome ih =>
    have hmem := List.mem_of_find?_eq_some hsome
    have htouch := List.find?_some hsome
    obtain ⟨howner, htype, hends⟩ := touches_iff.mp htouch
    have hh := hs.ne h hmem
    obtain ⟨hstart, hstop, hne⟩ := merge_range hh hm htouch
    have hperm := List.perm_cons_erase hmem
    have hpair : (h :: out.erase h).Pairwise Separate :=
      hperm.pairwise hs.separate Separate.symm
    obtain ⟨hrel, hrest⟩ := List.pairwise_cons.mp hpair
    have hsound : Sound (out.erase h) := ⟨fun l hl => hs.ne l (List.mem_of_mem_erase hl), hrest⟩
    have hapart' : ∀ l ∈ out.erase h, Apart l (merge merged h) := by
      intro l hl
      have hlm := hapart l (List.mem_of_mem_erase hl)
      have hlh := (hrel l hl).symm
      have hlne := hsound.ne l hl
      refine ⟨fun ho => ?_, fun ho => ?_⟩
      · have hd := hlm.disjoint ho
        have hd' := hlh.disjoint (ho.trans howner.symm)
        rw [hstart, hstop]
        omega
      · obtain hd | ht := hlm.compatible ho
        · obtain hd' | ht' := hlh.compatible (fun heq => ho (heq.trans howner))
          · left
            rw [hstart, hstop]
            omega
          · exact .inr ⟨ht'.1, htype.symm.trans ht'.2⟩
        · exact .inr ht
    obtain ⟨hres, hholds⟩ := ih hsound hne hapart'
    have habsorb : absorb out merged = absorb (out.erase h) (merge merged h) := by
      rw [absorb]
      split
      case h_1 hnone => rw [hsome] at hnone; cases hnone
      case h_2 h' hsome' =>
        rw [hsome] at hsome'
        cases hsome'
        rfl
    rw [habsorb]
    refine ⟨hres, fun o b ty => ?_⟩
    rw [hholds]
    have hcov : (merge merged h).Covers b ↔ h.Covers b ∨ merged.Covers b := by
      unfold Covers
      rw [hstart, hstop]
      omega
    constructor
    · rintro (⟨l, hl, hl'⟩ | ⟨ho, ht, hb⟩)
      · exact .inl ⟨l, List.mem_of_mem_erase hl, hl'⟩
      · obtain hb | hb := hcov.mp hb
        · exact .inl ⟨h, hmem, howner.trans ho.symm, htype.trans ht.symm, hb⟩
        · exact .inr ⟨ho, ht, hb⟩
    · rintro (⟨l, hl, hlo, hlt, hlb⟩ | ⟨ho, ht, hb⟩)
      · obtain rfl | hl := List.mem_cons.mp (hperm.mem_iff.mp hl)
        · exact .inr ⟨hlo.symm.trans howner, hlt.symm.trans htype, hcov.mpr (.inl hlb)⟩
        · exact .inl ⟨l, hl, hlo, hlt, hlb⟩
      · exact .inr ⟨ho, ht, hcov.mpr (.inr hb)⟩

/-- **A lock that nobody else's is in the way of is installed exactly.** -/
theorem install_spec (hs : Sound held) (hwant : want.start < want.stop)
    (hfree : ∀ l ∈ held, l.conflictsWith want = false) :
    Sound (install held want).1 ∧
      ∀ o b ty, Holds (install held want).1 o b ty ↔
        (o = want.owner ∧ want.Covers b ∧ ty = want.lockType) ∨
          (¬(o = want.owner ∧ want.Covers b) ∧ Holds held o b ty) := by
  have hcleared := hs.clearOwn (o := want.owner) (.inl hwant)
  have hapart : ∀ l ∈ clearOwn held want.owner want.start want.stop, Apart l want := by
    intro l hl
    obtain ⟨h, hh, hpiece, hout, -⟩ := mem_clearOwn hs.ne (.inl hwant) hl
    by_cases ho : l.owner = want.owner
    · exact ⟨fun _ => (hout ho).imp id id, fun hne => absurd ho hne⟩
    · refine hpiece.apart (apart_of_compatible ?_ (hfree h hh))
      rwa [← hpiece.owner]
  obtain ⟨hsound, hholds⟩ := absorb_spec _ want hcleared hwant hapart
  refine ⟨hsound, fun o b ty => ?_⟩
  rw [install, hholds, holds_clearOwn hs.ne (.inl hwant)]
  constructor
  · rintro (⟨hold, hnot⟩ | ⟨ho, ht, hb⟩)
    · exact .inr ⟨hnot, hold⟩
    · exact .inl ⟨ho, hb, ht⟩
  · rintro (⟨ho, hb, ht⟩ | ⟨hnot, hold⟩)
    · exact .inr ⟨ho, ht, hb⟩
    · exact .inl ⟨hold, hnot⟩

theorem absorb_ne_nil (out : List RecordLock) (merged : RecordLock) : absorb out merged ≠ [] := by
  induction out, merged using absorb.induct with
  | case1 out merged hnone =>
    unfold absorb
    split
    · simp
    · next hsome => rw [hnone] at hsome; cases hsome
  | case2 out merged h hsome ih =>
    unfold absorb
    split
    · simp
    · next h' hsome' =>
        rw [hsome] at hsome'
        cases hsome'
        exact ih

/-- A single lock is installed as it is. -/
theorem install_nil (want : RecordLock) : install [] want = ([want], false) := by
  rw [install, clearOwn, List.flatMap_nil, absorb]
  rfl

end SlateOS.Fs.Reclock
