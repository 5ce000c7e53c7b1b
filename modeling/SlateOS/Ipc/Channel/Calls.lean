/-
# SlateOS.Ipc.Channel.Calls -- the calls of a run

Each call has its own number, stands at a point of its own operation, and is settled at most once. That
holds in every run, whatever the channel does. A section changes the point of one call, or settles it
with an entry at the end of the log.
-/
import SlateOS.Ipc.Channel.Sections
import Mathlib.Data.List.Nodup

namespace SlateOS.Ipc

/-! ## What a verdict leaves -/

variable {M μ : Type}

/-- Where the call resumes. -/
def Verdict.next : Verdict M → Option (Point M)
  | .ret .. => none
  | .wait _ next => some next
  | .goto next => some next

/-- What the call returns. -/
def Verdict.outcome : Verdict M → Option (Outcome M)
  | .ret outcome _ _ => some outcome
  | .wait .. => none
  | .goto _ => none

theorem Verdict.next_of_outcome {v : Verdict M} {o : Outcome M} (h : v.outcome = some o) :
    v.next = none := by
  cases v with
  | ret outcome wakes ready => rfl
  | wait ready next => cases h
  | goto next => cases h

namespace System

open Kernel Ipc

section

variable (s : State μ) (task : TaskId) (c : Call μ) (channel : Option (Channel (Parcel μ)))
  (v : Verdict (Parcel μ))

theorem goOn_channel : (s.goOn task c channel v).channel = channel := by cases v <;> rfl

theorem goOn_calls : (s.goOn task c channel v).calls = s.calls := by cases v <;> rfl

theorem goOn_pendingWake : (s.goOn task c channel v).pendingWake = s.pendingWake := by
  cases v <;> rfl

theorem goOn_log :
    (s.goOn task c channel v).log = s.log ++ (v.outcome.map (Done.mk c)).toList := by
  cases v with
  | ret outcome wakes ready => rfl
  | wait ready next => exact (List.append_nil _).symm
  | goto next => exact (List.append_nil _).symm

theorem goOn_pc_of_ne {t : TaskId} (h : t ≠ task) :
    (s.goOn task c channel v).pc t = s.pc t := by
  cases v <;> simp [State.goOn, State.setPc, Function.update_of_ne h]

theorem goOn_resume_self :
    ((s.goOn task c channel v).pc task).resume = v.next.map fun pt => (c, pt) := by
  cases v <;> simp [State.goOn, State.setPc, Verdict.next]

end

/-! ## Calls and their points -/

/-- The operation is `send_timeout`. -/
def Op.timed : Op μ → Bool
  | .sendTimeout .. => true
  | _ => false

/-- The point is one of the call: it sends, or has sent, the call's own message from the call's side,
or receives where the call does. -/
structure Fits (c : Call μ) (pt : Point (Parcel μ)) : Prop where
  sends : ∀ {p : Side} {pending : Option (Parcel μ)}, pt.sends = some (p, pending) →
    ∃ x, c.parcel = some x ∧ x.side = p ∧ ∀ y, pending = some y → y = x
  parcel : ∀ {x : Parcel μ}, c.parcel = some x → ∃ pending, pt.sends = some (x.side, pending)
  receives : pt.receives = c.op.receives
  timed : pt.timed = c.op.timed

variable {c : Call μ}

theorem parcel_call {x : Parcel μ} (h : c.parcel = some x) : x.call = c.id := by
  rcases c with ⟨id, op⟩
  cases op <;> first | (cases h; done) | (obtain rfl := Option.some.inj h; rfl)

theorem Fits.start (c : Call μ) : Fits c c.start := by
  rcases c with ⟨id, op⟩
  cases op with
  | send p msg | sendBlocking p msg | sendTimeout p msg timeoutNs =>
    refine ⟨?_, ?_, rfl, rfl⟩
    · intro q pending h
      cases h
      exact ⟨_, rfl, rfl, fun y hy => (Option.some.inj hy).symm⟩
    · intro x hx
      cases hx
      exact ⟨_, rfl⟩
  | tryRecv d | recv d | recvTimeout d timeoutNs | dup p | close p =>
    exact ⟨fun h => (nomatch h), fun h => (nomatch h), rfl, rfl⟩

/-- A send goes on from its side, with its message or without. -/
theorem Fits.next {pt next : Point (Parcel μ)} (h : Fits c pt) {p : Side}
    {pending pending' : Option (Parcel μ)} (hs : pt.sends = some (p, pending))
    (hnext : next.sends = some (p, pending')) (hsub : pending' = none ∨ pending' = pending)
    (htimed : next.timed = pt.timed) : Fits c next where
  sends := by
    intro q pend hq
    rcases h.sends hs with ⟨x, hx, hside, hpend⟩
    obtain ⟨rfl, rfl⟩ := Prod.mk.inj (Option.some.inj (hnext.symm.trans hq))
    refine ⟨x, hx, hside, ?_⟩
    intro y hy
    rcases hsub with hnone | hsame
    · exact absurd (hnone.symm.trans hy) (nomatch ·)
    · exact hpend y (hsame.symm.trans hy)
  parcel := by
    intro x hx
    rcases h.sends hs with ⟨y, hy, hside, -⟩
    obtain rfl := Option.some.inj (hx.symm.trans hy)
    exact ⟨pending', hside ▸ hnext⟩
  receives := by
    rw [← h.receives, Point.receives_of_sends hs, Point.receives_of_sends hnext]
  timed := htimed.trans h.timed

theorem Fits.next_receive {pt next : Point (Parcel μ)} (h : Fits c pt) {d : Side}
    (hr : pt.receives = some d) (hnext : next = .recv d ∨ next = .recvTimeout d) : Fits c next := by
  have hop : c.op.receives = some d := h.receives.symm.trans hr
  have hparcel : c.parcel = none := by
    rcases c with ⟨id, op⟩
    cases op <;> first | rfl | cases hop
  have htimed : c.op.timed = false := by
    rcases c with ⟨id, op⟩
    cases op <;> first | rfl | cases hop
  rcases hnext with rfl | rfl
  · exact ⟨fun h => (nomatch h), fun hx => absurd (hparcel.symm.trans hx) (nomatch ·), hop.symm,
      htimed.symm⟩
  · exact ⟨fun h => (nomatch h), fun hx => absurd (hparcel.symm.trans hx) (nomatch ·), hop.symm,
      htimed.symm⟩

theorem park_pending (ch : Channel M) (p : Side) (pending : Option M) :
    (ch.park p pending).1 = none ∨ (ch.park p pending).1 = pending := by
  unfold Channel.park
  split
  · exact .inl rfl
  · exact .inr rfl

variable {pt : Point (Parcel μ)}

/-- Wherever a section sends a call on to, that point is again one of the call. -/
theorem Fits.enter (h : Fits c pt)
    (channel : Option (Channel (Parcel μ))) (task : TaskId) (expired : Bool)
    {next : Point (Parcel μ)} (hnext : (pt.enter channel task expired).1.next = some next) :
    Fits c next := by
  cases channel with
  | none => cases hnext
  | some ch =>
    change (pt.onChannel ch task expired).1.next = some next at hnext
    rcases hs : pt.sends with _ | ⟨p, pending⟩
    · rcases hr : pt.receives with _ | d
      · rcases hv : pt.onChannel ch task expired with ⟨v, channel'⟩
        have hstep := holderStep ch task expired hs hr
        rw [hv] at hstep hnext
        cases hstep <;> cases hnext
      · rcases recvStep ch task expired hr with ⟨v, ch', hv, hstep⟩
        rw [hv] at hnext
        cases hstep with
        | waits _ _ _ hor =>
          cases hnext
          exact h.next_receive hr hor
        | goes _ =>
          cases hnext
          exact h.next_receive hr (.inr rfl)
        | got | closed | nothing => cases hnext
    · rcases sendStep ch task expired hs with ⟨v, ch', hv, hstep⟩
      rw [hv] at hnext
      cases hstep with
      | waits _ _ hsends htimed =>
        cases hnext
        exact h.next hs hsends (park_pending ch p pending) htimed
      | goes hsends htimed =>
        cases hnext
        exact h.next hs hsends (.inr rfl) htimed
      | refused | closed | expired | delivered | found => cases hnext

/-! ## Orderly runs -/

/-- The calls in progress and the calls settled. -/
structure Orderly (s : State μ) : Prop where
  fits : ∀ {t : TaskId} {c : Call μ} {pt : Point (Parcel μ)},
    (s.pc t).resume = some (c, pt) → Fits c pt
  open_lt : ∀ {t : TaskId} {c : Call μ} {pt : Point (Parcel μ)},
    (s.pc t).resume = some (c, pt) → c.id < s.calls
  open_inj : ∀ {t u : TaskId} {c c' : Call μ} {pt pt' : Point (Parcel μ)},
    (s.pc t).resume = some (c, pt) → (s.pc u).resume = some (c', pt') → c.id = c'.id → t = u
  open_unsettled : ∀ {t : TaskId} {c : Call μ} {pt : Point (Parcel μ)},
    (s.pc t).resume = some (c, pt) → ∀ e ∈ s.log, e.call.id ≠ c.id
  settled_lt : ∀ e ∈ s.log, e.call.id < s.calls
  settled_nodup : (s.log.map fun e => e.call.id).Nodup

theorem Orderly.start (ch : Channel (Parcel μ)) : Orderly (State.start ch) where
  fits h := nomatch h
  open_lt h := nomatch h
  open_inj h := nomatch h
  open_unsettled h := nomatch h
  settled_lt _ he := nomatch he
  settled_nodup := List.nodup_nil

variable {s s' : State μ}

theorem Orderly.quiet (h : Orderly s) (hq : Quiet s s') : Orderly s' where
  fits := by
    intro t c pt ht
    exact h.fits (hq.resume t ▸ ht)
  open_lt := by
    intro t c pt ht
    rw [hq.calls]
    exact h.open_lt (hq.resume t ▸ ht)
  open_inj := by
    intro t u c c' pt pt' ht hu hid
    exact h.open_inj (hq.resume t ▸ ht) (hq.resume u ▸ hu) hid
  open_unsettled := by
    intro t c pt ht
    rw [hq.log]
    exact h.open_unsettled (hq.resume t ▸ ht)
  settled_lt := by
    rw [hq.log, hq.calls]
    exact h.settled_lt
  settled_nodup := by
    rw [hq.log]
    exact h.settled_nodup

variable {task t : TaskId}

theorem begin_resume {op : Op μ} (h : ((s.begin task op).pc t).resume = some (c, pt)) :
    (t = task ∧ c = ⟨s.calls, op⟩ ∧ pt = c.start) ∨ (t ≠ task ∧ (s.pc t).resume = some (c, pt)) := by
  change (Function.update s.pc task _ t).resume = _ at h
  by_cases heq : t = task
  · subst heq
    rw [Function.update_self] at h
    cases h
    exact .inl ⟨rfl, rfl, rfl⟩
  · rw [Function.update_of_ne heq] at h
    exact .inr ⟨heq, h⟩

theorem Orderly.begin (h : Orderly s) (task : TaskId) (op : Op μ) :
    Orderly (s.begin task op) where
  fits := by
    intro t c pt ht
    rcases begin_resume ht with ⟨-, rfl, rfl⟩ | ⟨-, ht⟩
    · exact Fits.start _
    · exact h.fits ht
  open_lt := by
    intro t c pt ht
    show c.id < s.calls + 1
    rcases begin_resume ht with ⟨-, rfl, -⟩ | ⟨-, ht⟩
    · exact Nat.lt_succ_self _
    · exact Nat.lt_succ_of_lt (h.open_lt ht)
  open_inj := by
    intro t u c c' pt pt' ht hu hid
    rcases begin_resume ht with ⟨rfl, rfl, -⟩ | ⟨-, ht⟩
    · rcases begin_resume hu with ⟨rfl, -, -⟩ | ⟨-, hu⟩
      · rfl
      · exact absurd hid.symm (h.open_lt hu).ne
    · rcases begin_resume hu with ⟨-, rfl, -⟩ | ⟨-, hu⟩
      · exact absurd hid (h.open_lt ht).ne
      · exact h.open_inj ht hu hid
  open_unsettled := by
    intro t c pt ht e he
    rcases begin_resume ht with ⟨-, rfl, -⟩ | ⟨-, ht⟩
    · exact (h.settled_lt e he).ne
    · exact h.open_unsettled ht e he
  settled_lt := fun e he => Nat.lt_succ_of_lt (h.settled_lt e he)
  settled_nodup := h.settled_nodup

theorem goOn_resume
    {channel : Option (Channel (Parcel μ))} {v : Verdict (Parcel μ)} {c' : Call μ}
    {pt' : Point (Parcel μ)}
    (h : ((s.goOn task c channel v).pc t).resume = some (c', pt')) :
    (t = task ∧ c' = c ∧ v.next = some pt') ∨ (t ≠ task ∧ (s.pc t).resume = some (c', pt')) := by
  by_cases heq : t = task
  · subst heq
    rw [goOn_resume_self, Option.map_eq_some_iff] at h
    rcases h with ⟨pt, hpt, hpair⟩
    cases hpair
    exact .inl ⟨rfl, rfl, hpt⟩
  · rw [goOn_pc_of_ne _ _ _ _ _ heq] at h
    exact .inr ⟨heq, h⟩

theorem mem_goOn_log
    {channel : Option (Channel (Parcel μ))} {v : Verdict (Parcel μ)} {e : Done μ} :
    e ∈ (s.goOn task c channel v).log ↔
      e ∈ s.log ∨ ∃ o, v.outcome = some o ∧ e = ⟨c, o⟩ := by
  rw [goOn_log, List.mem_append, Option.mem_toList, Option.map_eq_some_iff]
  constructor
  · rintro (h | ⟨o, ho, rfl⟩)
    · exact .inl h
    · exact .inr ⟨o, ho, rfl⟩
  · rintro (h | ⟨o, ho, rfl⟩)
    · exact .inl h
    · exact .inr ⟨o, ho, rfl⟩

theorem Orderly.goOn (h : Orderly s) (hpc : s.pc task = .running c pt)
    (channel : Option (Channel (Parcel μ))) {v : Verdict (Parcel μ)}
    (hfits : ∀ next, v.next = some next → Fits c next) : Orderly (s.goOn task c channel v) := by
  have hopen : (s.pc task).resume = some (c, pt) := by rw [hpc]; rfl
  refine ⟨?_, ?_, ?_, ?_, ?_, ?_⟩
  · intro t c' pt' ht
    rcases goOn_resume ht with ⟨-, rfl, hnext⟩ | ⟨-, ht⟩
    · exact hfits pt' hnext
    · exact h.fits ht
  · intro t c' pt' ht
    rw [goOn_calls]
    rcases goOn_resume ht with ⟨-, rfl, -⟩ | ⟨-, ht⟩
    · exact h.open_lt hopen
    · exact h.open_lt ht
  · intro t u c₁ c₂ pt₁ pt₂ ht hu hid
    rcases goOn_resume ht with ⟨ht₁, hc₁, -⟩ | ⟨-, ht₁⟩
    · rcases goOn_resume hu with ⟨hu₁, -, -⟩ | ⟨-, hu₁⟩
      · exact ht₁.trans hu₁.symm
      · exact ht₁.trans (h.open_inj hopen hu₁ (hc₁ ▸ hid))
    · rcases goOn_resume hu with ⟨hu₁, hc₂, -⟩ | ⟨-, hu₁⟩
      · exact (h.open_inj ht₁ hopen (hc₂ ▸ hid)).trans hu₁.symm
      · exact h.open_inj ht₁ hu₁ hid
  · intro t c' pt' ht e he
    rcases mem_goOn_log.mp he with he₁ | ⟨o, ho, rfl⟩
    · rcases goOn_resume ht with ⟨-, hc, -⟩ | ⟨-, ht₁⟩
      · rw [hc]
        exact h.open_unsettled hopen e he₁
      · exact h.open_unsettled ht₁ e he₁
    · -- The call settled here has left its task; another task is in another call.
      rcases goOn_resume ht with ⟨-, -, hnext⟩ | ⟨hne, ht₁⟩
      · rw [Verdict.next_of_outcome ho] at hnext
        cases hnext
      · intro hid
        exact hne (h.open_inj ht₁ hopen hid.symm)
  · intro e he
    rw [goOn_calls]
    rcases mem_goOn_log.mp he with he | ⟨o, -, rfl⟩
    · exact h.settled_lt e he
    · exact h.open_lt hopen
  · rw [goOn_log, List.map_append]
    rcases ho : v.outcome with _ | o
    · simpa using h.settled_nodup
    · show ((s.log.map fun e => e.call.id) ++ [c.id]).Nodup
      refine List.nodup_append.mpr ⟨h.settled_nodup, by simp, ?_⟩
      intro k hk k' hk'
      rw [List.mem_map] at hk
      rcases hk with ⟨e, he, rfl⟩
      rw [List.mem_singleton.mp hk']
      exact h.open_unsettled hopen e he

/-- The calls stay in order. -/
theorem Orderly.step (h : Orderly s) {a : Action μ} (hs : s.step a = some s') :
    Orderly s' := by
  rcases step_cases hs with hq | ⟨task, op, -, -, rfl⟩ | ⟨task, expired, c, pt, -, hpc, rfl⟩
  · exact h.quiet hq
  · exact h.begin task op
  · refine h.goOn hpc _ fun next hnext => ?_
    exact (h.fits (by rw [hpc]; rfl)).enter s.channel task expired hnext

/-- A call has one entry in the log. -/
theorem Orderly.entry_unique (h : Orderly s) {e e' : Done μ} (he : e ∈ s.log)
    (he' : e' ∈ s.log) (hid : e.call.id = e'.call.id) : e = e' :=
  List.inj_on_of_nodup_map h.settled_nodup he he' hid

/-- Two tasks' sends have different messages. -/
theorem Orderly.parcel_ne (h : Orderly s) {t u : TaskId} {c c' : Call μ}
    {pt pt' : Point (Parcel μ)} {x x' : Parcel μ} (ht : (s.pc t).resume = some (c, pt))
    (hu : (s.pc u).resume = some (c', pt')) (hne : u ≠ t) (hx : c.parcel = some x)
    (hx' : c'.parcel = some x') : x' ≠ x := by
  rintro rfl
  exact hne (h.open_inj hu ht ((parcel_call hx').symm.trans (parcel_call hx)))

/-- A send in progress and a settled one have different messages. -/
theorem Orderly.parcel_ne_settled (h : Orderly s) {x x' : Parcel μ} (ht : (s.pc t).resume = some (c, pt))
    (hx : c.parcel = some x) {e : Done μ} (he : e ∈ s.log) (hx' : e.call.parcel = some x') :
    x' ≠ x := by
  rintro rfl
  exact h.open_unsettled ht e he ((parcel_call hx').symm.trans (parcel_call hx))

/-! ## The log grows at its end -/

theorem accepted_of_log {e : Option (Done μ)} (h : s'.log = s.log ++ e.toList)
    (d : Side) : s'.accepted d =
      s.accepted d ++ ((e.bind Done.accepted).filter fun x => x.side.peer = d).toList := by
  unfold State.accepted
  rw [h, List.filterMap_append, List.filter_append]
  congr 1
  cases e with
  | none => rfl
  | some e =>
    cases hacc : e.accepted with
    | none => simp [hacc]
    | some x => by_cases hd : x.side.peer = d <;> simp [hacc, hd, Option.filter]

theorem received_of_log {e : Option (Done μ)} (h : s'.log = s.log ++ e.toList)
    (d : Side) : s'.received d =
      s.received d ++ ((e.filter fun e => e.call.op.receives = some d).bind Done.taken).toList := by
  unfold State.received
  rw [h, List.filter_append, List.filterMap_append]
  congr 1
  cases e with
  | none => rfl
  | some e =>
    by_cases hd : e.call.op.receives = some d
    · cases htaken : e.taken <;> simp [hd, htaken, Option.filter]
    · simp [hd, Option.filter]

end System

end SlateOS.Ipc
