/-
# SlateOS.Ipc.Channel.Sync -- a rendezvous channel hands messages over

A rendezvous channel has one slot for each side, and no record of whose message is in it. A send that
finds the slot empty takes that for a delivery, and a `send_timeout` that gives up empties the slot,
whoever filled it. `Clean` names the steps at which these guesses are right; in every run of such steps
each send's result is true of its own message.
-/
import SlateOS.Ipc.Channel.Calls

namespace SlateOS.Ipc.System

open Kernel Ipc Foundation.Runs
open Function (update update_self update_of_ne)

variable {μ : Type}

/-! ## The condition -/

/-- The messages taken by receives, on either side. -/
def State.taken (s : State μ) : List (Parcel μ) := s.log.filterMap Done.taken

/-- The send of this message returned an error. -/
def Refused (s : State μ) (x : Parcel μ) : Prop :=
  ∃ e ∈ s.log, e.call.parcel = some x ∧ ∃ err, e.outcome = .sent (.error err)

/-- Some task is in a `recv` or `recv_timeout` on the side, past its first look. -/
def Receiving (s : State μ) (d : Side) (r : TaskId) : Prop :=
  ∃ c pt, (s.pc r).resume = some (c, pt) ∧ (pt = .recv d ∨ pt = .recvTimeout d)

/-- What must hold when the call `c` runs the section at `pt`. -/
structure CleanSection (s : State μ) (expired : Bool) (c : Call μ) (pt : Point (Parcel μ)) :
    Prop where
  /-- A message is handed only to a receiver that still waits. -/
  handOver : ∀ ch p x r, s.channel = some ch → pt.sends = some (p, some x) →
    pt.delivers ch = true → ch.waiters p.peer = some r → Receiving s p.peer r
  /-- A woken `send_blocking` that finds the slot empty has put its message there. -/
  woken : ∀ ch p x, s.channel = some ch → pt = .sendBlockingWoken p (some x) →
    ch.rendezvousSlots p ≠ none
  /-- A send that gives up has not had its message taken already. -/
  givingUp : pt.givesUp s.channel expired = true → ∀ x, c.parcel = some x → x ∉ s.taken
  /-- A `send_timeout` that gives up finds in the slot its own message, or one left there by a send
  that returned an error. -/
  clearing : ∀ ch p pending y, s.channel = some ch → pt = .sendTimeout p pending →
    pt.givesUp s.channel expired = true → ch.rendezvousSlots p = some y →
    c.parcel = some y ∨ Refused s y
  /-- A receive takes no message that a send left there when it returned an error. -/
  taking : ∀ ch d y, s.channel = some ch → pt.receives = some d →
    ch.rendezvousSlots d.peer = some y → ¬ Refused s y
  /-- An end closes over a message only if its send returned an error, or is still to do so. -/
  closing : ∀ ch p y, s.channel = some ch → pt = .close p → ch.lastHolder p = true →
    ch.rendezvousSlots p = some y → Refused s y ∨ ∃ t c' pt', (s.pc t).resume = some (c', pt') ∧
      c'.parcel = some y ∧ (c'.op.timed = true ∨ ch.closed p.peer = true)

/-- **The condition** on a step. -/
def Clean (s : State μ) : Action μ → Prop
  | .move task expired => ∀ c pt, s.pc task = .running c pt → CleanSection s expired c pt
  | _ => True

/-! ## The invariant -/

/-- Where the message of every send is. -/
structure Rendezvous (s : State μ) : Prop where
  sync : ∀ {ch : Channel (Parcel μ)}, s.channel = some ch → ch.sync = true
  /-- Where a message is in the slot, no receiver is recorded, and the end is open. -/
  occupied : ∀ {ch : Channel (Parcel μ)} {p : Side} {x : Parcel μ}, s.channel = some ch →
    ch.rendezvousSlots p = some x →
    ch.waiters p.peer = none ∧ ch.closed p = false ∧ x.side = p ∧ x ∉ s.taken ∧ x.call < s.calls
  taken_nodup : s.taken.Nodup
  taken_lt : ∀ x ∈ s.taken, x.call < s.calls
  taken_side : ∀ {e : Done μ} {x : Parcel μ}, e ∈ s.log → e.taken = some x →
    e.call.op.receives = some x.side.peer
  /-- A send that still has its message. -/
  pending : ∀ {t : TaskId} {c : Call μ} {pt : Point (Parcel μ)} {p : Side} {x : Parcel μ},
    (s.pc t).resume = some (c, pt) → c.parcel = some x → pt.sends = some (p, some x) →
    x ∉ s.taken ∧ ∀ ch, s.channel = some ch → ch.rendezvousSlots p ≠ some x
  /-- A send that has parked its message. -/
  parked : ∀ {t : TaskId} {c : Call μ} {pt : Point (Parcel μ)} {p : Side} {x : Parcel μ},
    (s.pc t).resume = some (c, pt) → c.parcel = some x → pt.sends = some (p, none) →
    x ∈ s.taken ∨ ∀ ch, s.channel = some ch →
      ch.rendezvousSlots p = some x ∨ (ch.closed p = true ∧ c.op.timed = true)
  sent : ∀ {e : Done μ} {x : Parcel μ}, e ∈ s.log → e.call.parcel = some x →
    e.outcome = .sent (.ok ()) → x ∈ s.taken ∨ ∃ ch r, s.channel = some ch ∧
      ch.rendezvousSlots x.side = some x ∧ Receiving s x.side.peer r
  failed : ∀ {e : Done μ} {x : Parcel μ} {err : KernelError}, e ∈ s.log → e.call.parcel = some x →
    e.outcome = .sent (.error err) → x ∉ s.taken

theorem Rendezvous.start : Rendezvous (State.start (μ := μ) .newSync) where
  sync h := by
    cases h
    rfl
  occupied h hx := by
    cases h
    cases hx
  taken_nodup := List.nodup_nil
  taken_lt _ hx := nomatch hx
  taken_side he := nomatch he
  pending h := nomatch h
  parked h := nomatch h
  sent he := nomatch he
  failed he := nomatch he

theorem Rendezvous.quiet {s s' : State μ} (h : Rendezvous s) (hq : Quiet s s') :
    Rendezvous s' := by
  have htaken : s'.taken = s.taken := by
    rw [State.taken, hq.log]
    rfl
  have hchannel : ∀ {ch'}, s'.channel = some ch' → ∃ ch, s.channel = some ch ∧
      ch'.sync = ch.sync ∧ ch'.rendezvousSlots = ch.rendezvousSlots ∧ ch'.waiters = ch.waiters ∧
      ch'.closed = ch.closed := by
    intro ch' hch'
    rcases hq.channel with ⟨f, hch⟩
    rw [hch, Option.map_eq_some_iff] at hch'
    rcases hch' with ⟨ch, hch, rfl⟩
    exact ⟨ch, hch, rfl, rfl, rfl, rfl⟩
  refine ⟨?_, ?_, ?_, ?_, ?_, ?_, ?_, ?_, ?_⟩
  · intro ch' hch'
    rcases hchannel hch' with ⟨ch, hch, hsync, -⟩
    exact hsync.trans (h.sync hch)
  · intro ch' p x hch' hx
    rcases hchannel hch' with ⟨ch, hch, -, hslots, hwaiters, hclosed⟩
    rw [hslots] at hx
    rw [hwaiters, hclosed, htaken, hq.calls]
    exact h.occupied hch hx
  · rw [htaken]
    exact h.taken_nodup
  · rw [htaken, hq.calls]
    exact h.taken_lt
  · intro e x he
    rw [hq.log] at he
    exact h.taken_side he
  · intro t c pt p x ht hx hs
    rw [htaken]
    rw [hq.resume] at ht
    refine ⟨(h.pending ht hx hs).1, ?_⟩
    intro ch' hch'
    rcases hchannel hch' with ⟨ch, hch, -, hslots, -⟩
    rw [hslots]
    exact (h.pending ht hx hs).2 ch hch
  · intro t c pt p x ht hx hs
    rw [htaken]
    rw [hq.resume] at ht
    rcases h.parked ht hx hs with hin | hall
    · exact .inl hin
    · refine .inr fun ch' hch' => ?_
      rcases hchannel hch' with ⟨ch, hch, -, hslots, -, hclosed⟩
      rw [hslots, hclosed]
      exact hall ch hch
  · intro e x he hx ho
    rw [hq.log] at he
    rw [htaken]
    rcases h.sent he hx ho with hin | ⟨ch, r, hch, hslot, c, pt, hr, hpt⟩
    · exact .inl hin
    · rcases hq.channel with ⟨f, hch'⟩
      refine .inr ⟨{ ch with readyWaiters := f ch }, r, by rw [hch', hch]; rfl, hslot, c, pt, ?_, hpt⟩
      rw [hq.resume]
      exact hr
  · intro e x err he
    rw [hq.log] at he
    rw [htaken]
    exact h.failed he

variable {s : State μ}

/-- A new call's message is nowhere yet. -/
theorem Rendezvous.begin (h : Rendezvous s) (task : TaskId)
    (op : Op μ) (hidle : s.pc task = .idle) : Rendezvous (s.begin task op) where
  sync := h.sync
  occupied := by
    intro ch p x hch hx
    rcases h.occupied hch hx with ⟨hw, hc, hside, hnot, hlt⟩
    exact ⟨hw, hc, hside, hnot, Nat.lt_succ_of_lt hlt⟩
  taken_nodup := h.taken_nodup
  taken_lt x hx := Nat.lt_succ_of_lt (h.taken_lt x hx)
  taken_side := h.taken_side
  pending := by
    intro t c pt p x ht hx hs
    rcases begin_resume ht with ⟨-, rfl, -⟩ | ⟨-, ht⟩
    · have hcall : x.call = s.calls := parcel_call hx
      refine ⟨fun hin => absurd (h.taken_lt x hin) (hcall ▸ Nat.lt_irrefl _), ?_⟩
      intro ch hch hslot
      exact absurd (h.occupied hch hslot).2.2.2.2 (hcall ▸ Nat.lt_irrefl _)
    · exact h.pending ht hx hs
  parked := by
    intro t c pt p x ht hx hs
    rcases begin_resume ht with ⟨-, rfl, rfl⟩ | ⟨-, ht⟩
    · cases op <;> cases hs
    · exact h.parked ht hx hs
  sent := by
    intro e x he hx ho
    rcases h.sent he hx ho with hin | ⟨ch, r, hch, hslot, c, pt, hr, hpt⟩
    · exact .inl hin
    · refine .inr ⟨ch, r, hch, hslot, c, pt, ?_, hpt⟩
      have hne : r ≠ task := by
        rintro rfl
        rw [hidle] at hr
        cases hr
      show (update s.pc task _ r).resume = _
      rw [update_of_ne hne]
      exact hr
  failed := h.failed

/-! ## Sections -/

variable {task : TaskId} {c : Call μ} {channel : Option (Channel (Parcel μ))}
  {v : Verdict (Parcel μ)}

theorem goOn_taken :
    (s.goOn task c channel v).taken =
      s.taken ++ ((v.outcome.map (Done.mk c)).bind Done.taken).toList := by
  unfold State.taken
  rw [goOn_log, List.filterMap_append]
  congr 1
  rcases v.outcome with _ | o
  · rfl
  · show [Done.mk c o].filterMap Done.taken = (Done.taken ⟨c, o⟩).toList
    rcases ho : Done.taken ⟨c, o⟩ with _ | x
    · rw [List.filterMap_cons_none ho]
      rfl
    · rw [List.filterMap_cons_some ho]
      rfl

theorem goOn_taken_of_none
    (h : ∀ o, v.outcome = some o → Done.taken ⟨c, o⟩ = none) :
    (s.goOn task c channel v).taken = s.taken := by
  rw [goOn_taken]
  rcases ho : v.outcome with _ | o
  · exact List.append_nil _
  · show s.taken ++ (Done.taken ⟨c, o⟩).toList = s.taken
    rw [h o ho]
    exact List.append_nil _

variable {x : Parcel μ} {pt : Point (Parcel μ)}

theorem refused_not_open (ho : Orderly s) (hr : Refused s x)
    {t : TaskId} (ht : (s.pc t).resume = some (c, pt))
    (hx : c.parcel = some x) : False := by
  rcases hr with ⟨e, he, hparcel, -⟩
  exact ho.parcel_ne_settled ht hx he hparcel rfl

theorem refused_not_sent (ho : Orderly s) (hr : Refused s x)
    {e : Done μ} (he : e ∈ s.log) (hx : e.call.parcel = some x)
    (hout : e.outcome = .sent (.ok ())) : False := by
  rcases hr with ⟨e', he', hparcel, err, herr⟩
  obtain rfl := ho.entry_unique he' he ((parcel_call hparcel).symm.trans (parcel_call hx))
  rw [hout] at herr
  cases herr

variable {d : Side}

/-- A receiver that waits is not in the section a send runs. -/
theorem Receiving.goOn
    (hpc : s.pc task = .running c pt) {r : TaskId} (h : Receiving s d r)
    (hpt : pt.receives ≠ some d) : Receiving (s.goOn task c channel v) d r := by
  rcases h with ⟨c', pt', hr, hor⟩
  have hne : r ≠ task := by
    rintro rfl
    rw [hpc] at hr
    obtain ⟨-, rfl⟩ := Prod.mk.inj (Option.some.inj hr)
    rcases hor with rfl | rfl <;> exact hpt rfl
  refine ⟨c', pt', ?_, hor⟩
  rw [goOn_pc_of_ne _ _ _ _ _ hne]
  exact hr

/-- What a send may do to its slot: nothing, put its message into it, or empty it of its own message
or of one whose send returned an error. -/
inductive SlotStep (s : State μ) (x : Parcel μ) : Option (Parcel μ) → Option (Parcel μ) → Prop
  | keep {o : Option (Parcel μ)} : SlotStep s x o o
  | fill (hnot : x ∉ s.taken) : SlotStep s x none (some x)
  | clear {o : Option (Parcel μ)} (hown : ∀ y, o = some y → y = x ∨ Refused s y) :
      SlotStep s x o none

variable {y : Parcel μ}

/-- What a send's section leaves the others: their messages stay where they are. -/
theorem SlotStep.others {o o' : Option (Parcel μ)}
    (h : SlotStep s x o o') (hne : y ≠ x) (hnot : ¬ Refused s y) : o = some y ↔ o' = some y := by
  cases h with
  | keep => exact Iff.rfl
  | fill _ =>
    refine ⟨fun h => (nomatch h), fun h => ?_⟩
    exact absurd (Option.some.inj h).symm hne
  | clear hown =>
    refine ⟨fun h => ?_, fun h => (nomatch h)⟩
    rcases hown y h with heq | hrefused
    · exact absurd heq hne
    · exact absurd hrefused hnot

variable {p : Side}

/-- The section of a send, given what it does to its slot and what is true of its own message. -/
theorem Rendezvous.send_core (h : Rendezvous s) (ho : Orderly s) (hpc : s.pc task = .running c pt)
    {ch ch' : Channel (Parcel μ)} (hch : s.channel = some ch)
    {pending : Option (Parcel μ)} (hsends : pt.sends = some (p, pending)) (hx : c.parcel = some x)
    (hside : x.side = p)
    (hfits : ∀ next, v.next = some next → Fits c next) (hsync : ch'.sync = true)
    (hclosed : ch'.closed = ch.closed)
    (hother : ∀ q, q ≠ p → ch'.rendezvousSlots q = ch.rendezvousSlots q)
    (hmine : SlotStep s x (ch.rendezvousSlots p) (ch'.rendezvousSlots p))
    (hopen : ∀ y, ch'.rendezvousSlots p = some y → ch'.closed p = false)
    (hwaiters : ∀ q y, ch'.rendezvousSlots q = some y → ch'.waiters q.peer = none)
    (htaken : ∀ o, v.outcome = some o → Done.taken ⟨c, o⟩ = none)
    (hpend : ∀ next y, v.next = some next → next.sends = some (p, some y) →
      x ∉ s.taken ∧ ch'.rendezvousSlots p ≠ some x)
    (hpark : ∀ next, v.next = some next → next.sends = some (p, none) →
      x ∈ s.taken ∨ ch'.rendezvousSlots p = some x ∨
        (ch'.closed p = true ∧ c.op.timed = true))
    (hok : v.outcome = some (.sent (.ok ())) → x ∈ s.taken ∨
      (ch'.rendezvousSlots p = some x ∧ ∃ r, Receiving s p.peer r))
    (herr : ∀ err, v.outcome = some (.sent (.error err)) → x ∉ s.taken) :
    Rendezvous (s.goOn task c (some ch') v) := by
  have hres : (s.pc task).resume = some (c, pt) := by rw [hpc]; rfl
  have hrecv : ∀ d, pt.receives ≠ some d := by
    intro d hd
    rw [Point.receives_of_sends hsends] at hd
    cases hd
  have hsame : (s.goOn task c (some ch') v).taken = s.taken := goOn_taken_of_none htaken
  -- The side of what comes next is this side.
  have hnextSide : ∀ {next q o}, v.next = some next → next.sends = some (q, o) → q = p := by
    intro next q o hnext hq
    rcases (hfits next hnext).sends hq with ⟨y, hy, hys, -⟩
    rw [← hys, ← hside, Option.some.inj (hy.symm.trans hx)]
  have hslots : ∀ {q : Side} {y : Parcel μ}, y ≠ x → ¬ Refused s y →
      (ch.rendezvousSlots q = some y ↔ ch'.rendezvousSlots q = some y) := by
    intro q y hne hnot
    by_cases hq : q = p
    · subst hq
      exact hmine.others hne hnot
    · rw [hother q hq]
  refine ⟨?_, ?_, ?_, ?_, ?_, ?_, ?_, ?_, ?_⟩
  · intro ch₁ hch₁
    rw [goOn_channel] at hch₁
    cases hch₁
    exact hsync
  · intro ch₁ q y hch₁ hy
    rw [goOn_channel] at hch₁
    cases hch₁
    rw [hsame, goOn_calls]
    refine ⟨hwaiters q y hy, ?_⟩
    by_cases hq : q = p
    · subst hq
      refine ⟨hopen y hy, ?_⟩
      generalize hold : ch.rendezvousSlots q = old at hmine
      rw [hy] at hmine
      cases hmine with
      | keep =>
        rcases h.occupied hch hold with ⟨-, -, hys, hnot, hlt⟩
        exact ⟨hys, hnot, hlt⟩
      | fill hnot => exact ⟨hside, hnot, parcel_call hx ▸ ho.open_lt hres⟩
    · rw [hother q hq] at hy
      rw [hclosed]
      exact (h.occupied hch hy).2
  · rw [hsame]
    exact h.taken_nodup
  · rw [hsame, goOn_calls]
    exact h.taken_lt
  · intro e y he hy
    rcases mem_goOn_log.mp he with he | ⟨o, hout, rfl⟩
    · exact h.taken_side he hy
    · rw [htaken o hout] at hy
      cases hy
  · intro t c' pt' q y ht hy hsend
    rw [hsame]
    rcases goOn_resume ht with ⟨-, rfl, hnext⟩ | ⟨hne, ht⟩
    · obtain rfl := Option.some.inj (hx.symm.trans hy)
      obtain rfl := hnextSide hnext hsend
      refine ⟨(hpend pt' x hnext hsend).1, ?_⟩
      intro ch₁ hch₁
      rw [goOn_channel] at hch₁
      cases hch₁
      exact (hpend pt' x hnext hsend).2
    · rcases h.pending ht hy hsend with ⟨hnot, hslot⟩
      refine ⟨hnot, ?_⟩
      intro ch₁ hch₁ hy₁
      rw [goOn_channel] at hch₁
      cases hch₁
      have hyx := ho.parcel_ne hres ht hne hx hy
      exact hslot ch hch ((hslots hyx fun hr => refused_not_open ho hr ht hy).mpr hy₁)
  · intro t c' pt' q y ht hy hsend
    rw [hsame]
    rcases goOn_resume ht with ⟨-, rfl, hnext⟩ | ⟨hne, ht⟩
    · obtain rfl := Option.some.inj (hx.symm.trans hy)
      obtain rfl := hnextSide hnext hsend
      rcases hpark pt' hnext hsend with hin | hslot
      · exact .inl hin
      · refine .inr fun ch₁ hch₁ => ?_
        rw [goOn_channel] at hch₁
        cases hch₁
        exact hslot
    · rcases h.parked ht hy hsend with hin | hall
      · exact .inl hin
      · refine .inr fun ch₁ hch₁ => ?_
        rw [goOn_channel] at hch₁
        cases hch₁
        have hyx := ho.parcel_ne hres ht hne hx hy
        rw [hclosed]
        rcases hall ch hch with hslot | hgone
        · exact .inl ((hslots hyx fun hr => refused_not_open ho hr ht hy).mp hslot)
        · exact .inr hgone
  · intro e y he hy hout
    rw [hsame]
    rcases mem_goOn_log.mp he with he | ⟨o, ho', rfl⟩
    · rcases h.sent he hy hout with hin | ⟨ch₀, r, hch₀, hslot, hr⟩
      · exact .inl hin
      · obtain rfl := Option.some.inj (hch.symm.trans hch₀)
        have hyx := ho.parcel_ne_settled hres hx he hy
        refine .inr ⟨ch', r, goOn_channel .., ?_, hr.goOn hpc (hrecv _)⟩
        exact (hslots hyx fun hr => refused_not_sent ho hr he hy hout).mp hslot
    · obtain rfl := Option.some.inj (hx.symm.trans hy)
      obtain rfl : o = .sent (.ok ()) := hout
      rcases hok ho' with hin | ⟨hslot, r, hr⟩
      · exact .inl hin
      · subst hside
        exact .inr ⟨ch', r, goOn_channel .., hslot, hr.goOn hpc (hrecv _)⟩
  · intro e y err he hy hout
    rw [hsame]
    rcases mem_goOn_log.mp he with he | ⟨o, ho', rfl⟩
    · exact h.failed he hy hout
    · obtain rfl := Option.some.inj (hx.symm.trans hy)
      obtain rfl : o = .sent (.error err) := hout
      exact herr err ho'

/-! ## Sends -/

variable {M : Type} {ch : Channel M}

theorem clearSlot_slots (h : ch.sync = true) (p : Side) :
    (ch.clearSlot p).rendezvousSlots = update ch.rendezvousSlots p none := by
  rw [Channel.clearSlot, if_pos h]

theorem park_occupied {y : M} (h : ch.rendezvousSlots p = some y)
    (pending : Option M) : ch.park p pending = (pending, ch) := by
  simp [Channel.park, h]

theorem park_empty (hsync : ch.sync = true)
    (h : ch.rendezvousSlots p = none) (pending : Option M) :
    ch.park p pending = (none, ch.fillSlot p pending) := by
  simp [Channel.park, h, hsync]

variable {q : Side}

theorem park_slots_of_ne (ch : Channel M) (pending : Option M) (h : q ≠ p) :
    (ch.park p pending).2.rendezvousSlots q = ch.rendezvousSlots q := by
  unfold Channel.park
  split
  · rcases pending with _ | y
    · rfl
    · exact update_of_ne h ..
  · rfl

theorem accepts_sync (h : ch.sync = true) (p : Side) :
    ch.accepts p = (ch.waiters p.peer).isSome := by
  rw [Channel.accepts, if_pos h]

theorem closed_of_open (h : ch.shut p = false) :
    ch.closed p = false := by
  rw [Channel.shut, Bool.or_eq_false_iff] at h
  exact h.1

/-- The section of a send whose message is `x`. -/
structure SendSection (s : State μ) (task : TaskId) (expired : Bool) (c : Call μ)
    (pt : Point (Parcel μ)) (ch : Channel (Parcel μ)) (p : Side) (pending : Option (Parcel μ))
    (x : Parcel μ) : Prop where
  rendezvous : Rendezvous s
  orderly : Orderly s
  running : s.pc task = .running c pt
  clean : CleanSection s expired c pt
  channel : s.channel = some ch
  sends : pt.sends = some (p, pending)
  parcel : c.parcel = some x
  side : x.side = p
  own : ∀ y, pending = some y → x = y

namespace SendSection

variable {s : State μ} {task : TaskId} {expired : Bool} {c : Call μ} {pt : Point (Parcel μ)}
  {ch ch₁ : Channel (Parcel μ)} {p : Side} {pending : Option (Parcel μ)} {x : Parcel μ}

theorem resume (hs : SendSection s task expired c pt ch p pending x) :
    (s.pc task).resume = some (c, pt) := by
  rw [hs.running]
  rfl

theorem sync (hs : SendSection s task expired c pt ch p pending x) : ch.sync = true :=
  hs.rendezvous.sync hs.channel

theorem no_waiter (hs : SendSection s task expired c pt ch p pending x)
    (hy : ch.rendezvousSlots q = some y) : ch.waiters q.peer = none :=
  (hs.rendezvous.occupied hs.channel hy).1

theorem open_of_occupied (hs : SendSection s task expired c pt ch p pending x)
    (hy : ch.rendezvousSlots p = some y) : ch.closed p = false :=
  (hs.rendezvous.occupied hs.channel hy).2.1

/-- The own message before the section, when the send still has it. -/
theorem before (hs : SendSection s task expired c pt ch p pending x)
    (hy : pending = some y) : x ∉ s.taken ∧ ch.rendezvousSlots p ≠ some x := by
  obtain rfl := hs.own y hy
  have hsends := hs.sends
  rw [hy] at hsends
  obtain ⟨hnot, hslot⟩ := hs.rendezvous.pending hs.resume hs.parcel hsends
  exact ⟨hnot, hslot ch hs.channel⟩

/-- The own message before the section, when the send has parked it. -/
theorem parked (hs : SendSection s task expired c pt ch p pending x) (hnone : pending = none) :
    x ∈ s.taken ∨ ch.rendezvousSlots p = some x ∨ (ch.closed p = true ∧ c.op.timed = true) := by
  have hsends := hs.sends
  rw [hnone] at hsends
  rcases hs.rendezvous.parked hs.resume hs.parcel hsends with hin | hall
  · exact .inl hin
  · exact .inr (hall ch hs.channel)

/-- A parked message was taken once the slot of the open end is empty. -/
theorem taken_of_empty (hs : SendSection s task expired c pt ch p pending x) (hnone : pending = none)
    (hslot : ch.rendezvousSlots p = none) (hclosed : ch.closed p = false) : x ∈ s.taken := by
  rcases hs.parked hnone with hin | hpark | ⟨hc, -⟩
  · exact hin
  · rw [hslot] at hpark
    cases hpark
  · rw [hclosed] at hc
    cases hc

theorem giving (hs : SendSection s task expired c pt ch p pending x)
    (hgive : pt.givesUp (some ch) expired = true) : x ∉ s.taken :=
  hs.clean.givingUp (hs.channel ▸ hgive) x hs.parcel

/-- Giving up with the channel as it was. -/
theorem refused (hs : SendSection s task expired c pt ch p pending x)
    (hgive : pt.givesUp (some ch) expired = true) {e : KernelError} :
    Rendezvous (s.goOn task c (some ch) (.ret (.sent (.error e)) [] none)) := by
  refine hs.rendezvous.send_core hs.orderly hs.running hs.channel hs.sends hs.parcel hs.side
    (fun _ hn => (nomatch hn)) hs.sync rfl (fun _ _ => rfl) .keep (fun _ => hs.open_of_occupied)
    (fun _ _ => hs.no_waiter) ?_ (fun _ _ hn => (nomatch hn)) (fun _ hn => (nomatch hn)) ?_
    (fun _ _ => hs.giving hgive)
  · intro o hout
    cases hout
    rfl
  · intro hout
    cases hout

/-- Giving up with the slot emptied, however the rest of the channel looks. -/
theorem emptied (hs : SendSection s task expired c pt ch p pending x) (hpt : pt = .sendTimeout p pending)
    (hgive : pt.givesUp (some ch) expired = true) (hsync : ch₁.sync = true)
    (hclosed : ch₁.closed = ch.closed) (hwaiters : ch₁.waiters = ch.waiters)
    (hslot : ch₁.rendezvousSlots p = none)
    (hother : ∀ q, q ≠ p → ch₁.rendezvousSlots q = ch.rendezvousSlots q) {e : KernelError} :
    Rendezvous (s.goOn task c (some ch₁) (.ret (.sent (.error e)) [] none)) := by
  refine hs.rendezvous.send_core hs.orderly hs.running hs.channel hs.sends hs.parcel hs.side
    (fun _ hn => (nomatch hn)) hsync hclosed hother ?_ ?_ ?_ ?_ (fun _ _ hn => (nomatch hn))
    (fun _ hn => (nomatch hn)) (fun hn => (nomatch hn)) ?_
  · rw [hslot]
    refine .clear fun y hy => ?_
    rcases hs.clean.clearing ch p pending y hs.channel hpt (hs.channel ▸ hgive) hy with hyown | hrefused
    · exact .inl (Option.some.inj (hyown.symm.trans hs.parcel))
    · exact .inr hrefused
  · intro y hy
    rw [hslot] at hy
    cases hy
  · intro q y hy
    by_cases hq : q = p
    · rw [hq, hslot] at hy
      cases hy
    · rw [hother q hq] at hy
      rw [hwaiters]
      exact hs.no_waiter hy
  · intro o hout
    cases hout
    rfl
  · exact fun _ _ => hs.giving hgive

/-- A `send_timeout` whose time is over after it has registered once more. -/
theorem timedOut (hs : SendSection s task expired c pt ch p pending x) (hpt : pt = .sendTimeout p pending)
    (hgive : pt.givesUp (some ch) expired = true) :
    Rendezvous (s.goOn task c (some (((ch.park p pending).2.registerSender p task).clearSlot p))
      (.ret (.sent (.error .timedOut)) [] none)) := by
  have hsync' : ((ch.park p pending).2.registerSender p task).sync = true :=
    (ch.park_fields p pending).2.2.2.2.trans hs.sync
  apply hs.emptied hpt hgive (by simpa using hsync')
  · rw [(Channel.clearSlot_fields _ p).2.1]
    exact (ch.park_fields p pending).2.1
  · rw [(Channel.clearSlot_fields _ p).2.2.1]
    exact (ch.park_fields p pending).2.2.1
  · rw [clearSlot_slots hsync', update_self]
  · intro q hq
    rw [clearSlot_slots hsync', update_of_ne hq]
    exact park_slots_of_ne ch pending hq

/-- A receiver was registered, and the message was in the slot before: nothing is left to deliver. -/
theorem delivered_none (hs : SendSection s task expired c pt ch p none x)
    (hslot : ch.rendezvousSlots p = none) (hclosed : ch.closed p = false) {woken : List TaskId} :
    Rendezvous (s.goOn task c (some (ch.deliver p none).2) (.ret (.sent (.ok ())) woken (some p.peer))) := by
  have hch' := ch.deliver_none p
  refine hs.rendezvous.send_core hs.orderly hs.running hs.channel hs.sends hs.parcel hs.side
    (fun _ hn => (nomatch hn)) (by simp [hs.sync]) (by simp) ?_ ?_ ?_ ?_ ?_ (fun _ _ hn => (nomatch hn))
    (fun _ hn => (nomatch hn)) ?_ (fun _ hn => (nomatch hn))
  · intro q _
    rw [hch']
  · rw [hch']
    exact .keep
  · intro y hy
    rw [hch'] at hy
    exact absurd (hslot.symm.trans hy) (nomatch ·)
  · intro q y hy
    rw [hch'] at hy ⊢
    show update ch.waiters p.peer none q.peer = none
    by_cases hq : q.peer = p.peer
    · rw [hq, update_self]
    · rw [update_of_ne hq]
      exact hs.no_waiter hy
  · intro o hout
    cases hout
    rfl
  · intro _
    exact .inl (hs.taken_of_empty rfl hslot hclosed)

/-- A receiver was registered, and the message goes into the slot for it. -/
theorem delivered_some (hs : SendSection s task expired c pt ch p (some x) x)
    (hdelivers : pt.delivers ch = true) {r : TaskId} (hr : ch.waiters p.peer = some r)
    (hslot : ch.rendezvousSlots p = none) (hclosed : ch.closed p = false) {woken : List TaskId} :
    Rendezvous
      (s.goOn task c (some (ch.deliver p (some x)).2) (.ret (.sent (.ok ())) woken (some p.peer))) := by
  have hslots := ch.deliver_slots p hs.sync x
  refine hs.rendezvous.send_core hs.orderly hs.running hs.channel hs.sends hs.parcel hs.side
    (fun _ hn => (nomatch hn)) (by simp [hs.sync]) (by simp) ?_ ?_ ?_ ?_ ?_ (fun _ _ hn => (nomatch hn))
    (fun _ hn => (nomatch hn)) ?_ (fun _ hn => (nomatch hn))
  · intro q hq
    rw [hslots, update_of_ne hq]
  · rw [hslots, update_self, hslot]
    exact .fill (hs.before rfl).1
  · intro z _
    rw [(ch.deliver_fields p (some x)).2.1]
    exact hclosed
  · intro q z hz
    rw [(ch.deliver_fields p (some x)).2.2.1]
    by_cases hq : q = p
    · rw [hq, update_self]
    · rw [update_of_ne (fun hpeer => hq (Side.peer_inj.mp hpeer))]
      rw [hslots, update_of_ne hq] at hz
      exact hs.no_waiter hz
  · intro o hout
    cases hout
    rfl
  · intro _
    refine .inr ⟨?_, r, hs.clean.handOver ch p x r hs.channel hs.sends hdelivers hr⟩
    rw [hslots, update_self]

/-- The slot is empty: a receiver took the message. -/
theorem found (hs : SendSection s task expired c pt ch p pending x)
    (hslot : ch.rendezvousSlots p = none)
    (hwhy : pt = .sendBlockingWoken p pending ∨ (pending = none ∧ ch.shut p = false)) :
    Rendezvous (s.goOn task c (some ch) (.ret (.sent (.ok ())) [] none)) := by
  refine hs.rendezvous.send_core hs.orderly hs.running hs.channel hs.sends hs.parcel hs.side
    (fun _ hn => (nomatch hn)) hs.sync rfl (fun _ _ => rfl) .keep (fun _ => hs.open_of_occupied)
    (fun _ _ => hs.no_waiter) ?_ (fun _ _ hn => (nomatch hn)) (fun _ hn => (nomatch hn)) ?_
    (fun _ hn => (nomatch hn))
  · intro o hout
    cases hout
    rfl
  · intro _
    refine .inl ?_
    rcases hwhy with hpt | ⟨hnone, hopen⟩
    · have hnone : pending = none := by
        rcases pending with _ | y
        · rfl
        · exact absurd hslot (hs.clean.woken ch p y hs.channel hpt)
      rcases hs.parked hnone with hin | hpark | ⟨-, htimed⟩
      · exact hin
      · rw [hslot] at hpark
        cases hpark
      · rw [← (hs.orderly.fits hs.resume).timed, hpt] at htimed
        cases htimed
    · exact hs.taken_of_empty hnone hslot (closed_of_open hopen)

/-- What parking does to the own slot: the message goes in where there was none. -/
theorem slotStep_park (hs : SendSection s task expired c pt ch p pending x) :
    SlotStep s x (ch.rendezvousSlots p) ((ch.park p pending).2.rendezvousSlots p) := by
  rcases hslot : ch.rendezvousSlots p with _ | y
  · rw [park_empty hs.sync hslot]
    rcases pending with _ | y
    · show SlotStep s x none (ch.rendezvousSlots p)
      rw [hslot]
      exact .keep
    · obtain rfl := hs.own y rfl
      show SlotStep s x none (update ch.rendezvousSlots p (some x) p)
      rw [update_self]
      exact .fill (hs.before rfl).1
  · rw [park_occupied hslot]
    show SlotStep s x (some y) (ch.rendezvousSlots p)
    rw [hslot]
    exact .keep

/-- The send parks its message, if it still has it, and waits. -/
theorem waits (hs : SendSection s task expired c pt ch p pending x) (hopen : ch.shut p = false)
    (hacc : ch.accepts p = false) {next : Point (Parcel μ)}
    (hfits : ∀ next', (Verdict.wait (some p.peer) next).next = some next' → Fits c next')
    (hnext : next.sends = some (p, (ch.park p pending).1)) :
    Rendezvous (s.goOn task c (some ((ch.park p pending).2.registerSender p task))
      (.wait (some p.peer) next)) := by
  have hclosed := closed_of_open hopen
  rw [accepts_sync hs.sync, Option.isSome_eq_false_iff, Option.isNone_iff_eq_none] at hacc
  have hout : ∀ o, Verdict.outcome (.wait (some p.peer) next) = some o →
      Done.taken ⟨c, o⟩ = none := fun _ hn => (nomatch hn)
  have hwaiters : ∀ q y, (ch.park p pending).2.rendezvousSlots q = some y →
      (ch.park p pending).2.waiters q.peer = none := by
    intro q y hy
    rw [(ch.park_fields p pending).2.2.1]
    by_cases hq : q = p
    · rw [hq]
      exact hacc
    · rw [park_slots_of_ne ch pending hq] at hy
      exact hs.no_waiter hy
  refine hs.rendezvous.send_core hs.orderly hs.running hs.channel hs.sends hs.parcel hs.side hfits
    ((ch.park_fields p pending).2.2.2.2.trans hs.sync) (ch.park_fields p pending).2.1
    (fun q hq => park_slots_of_ne ch pending hq) hs.slotStep_park ?_ hwaiters hout ?_ ?_
    (fun hn => (nomatch hn)) (fun _ hn => (nomatch hn))
  · intro y _
    show (ch.park p pending).2.closed p = false
    rw [(ch.park_fields p pending).2.1]
    exact hclosed
  · -- it still has the message when the slot was occupied
    intro next' y hn hsend
    cases hn
    have hsame := (Prod.mk.inj (Option.some.inj (hnext.symm.trans hsend))).2
    show x ∉ s.taken ∧ (ch.park p pending).2.rendezvousSlots p ≠ some x
    rcases hslot : ch.rendezvousSlots p with _ | z
    · rw [park_empty hs.sync hslot] at hsame
      cases hsame
    · rw [park_occupied hslot] at hsame ⊢
      exact hs.before hsame
  · intro next' hn hsend
    cases hn
    have hsame := (Prod.mk.inj (Option.some.inj (hnext.symm.trans hsend))).2
    show x ∈ s.taken ∨ (ch.park p pending).2.rendezvousSlots p = some x ∨ _
    rcases hslot : ch.rendezvousSlots p with _ | z
    · rcases pending with _ | y
      · exact .inl (hs.taken_of_empty rfl hslot hclosed)
      · obtain rfl := hs.own y rfl
        refine .inr (.inl ?_)
        rw [park_empty hs.sync hslot]
        exact update_self ..
    · rw [park_occupied hslot] at hsame ⊢
      exact hs.parked hsame

/-- The send goes on to its next section. -/
theorem goes (hs : SendSection s task expired c pt ch p pending x) {next : Point (Parcel μ)}
    (hfits : ∀ next', (Verdict.goto next).next = some next' → Fits c next')
    (hnext : next.sends = some (p, pending)) :
    Rendezvous (s.goOn task c (some ch) (.goto next)) := by
  refine hs.rendezvous.send_core hs.orderly hs.running hs.channel hs.sends hs.parcel hs.side hfits hs.sync
    rfl (fun _ _ => rfl) .keep (fun _ => hs.open_of_occupied) (fun _ _ => hs.no_waiter)
    (fun _ hn => (nomatch hn)) ?_ ?_ (fun hn => (nomatch hn)) (fun _ hn => (nomatch hn))
  · intro next' y hn hsend
    cases hn
    exact hs.before (Prod.mk.inj (Option.some.inj (hnext.symm.trans hsend))).2
  · intro next' hn hsend
    cases hn
    exact hs.parked (Prod.mk.inj (Option.some.inj (hnext.symm.trans hsend))).2

end SendSection

theorem Rendezvous.send (h : Rendezvous s) (ho : Orderly s)
    {expired : Bool} (hpc : s.pc task = .running c pt)
    (hclean : CleanSection s expired c pt) {ch ch' : Channel (Parcel μ)} (hch : s.channel = some ch) {pending : Option (Parcel μ)} (hsends : pt.sends = some (p, pending)) (hfits : ∀ next, v.next = some next → Fits c next)
    (hstep : SendStep ch task expired pt p pending v ch') :
    Rendezvous (s.goOn task c (some ch') v) := by
  have hres : (s.pc task).resume = some (c, pt) := by rw [hpc]; rfl
  obtain ⟨x, hx, hside, hown⟩ := (ho.fits hres).sends hsends
  have hs : SendSection s task expired c pt ch p pending x :=
    ⟨h, ho, hpc, hclean, hch, hsends, hx, hside, fun y hy => (hown y hy).symm⟩
  cases hstep with
  | refused hgive => exact hs.refused hgive
  | closed hpt hgive _ =>
    apply hs.emptied hpt hgive (by simp [hs.sync]) (by simp) (by simp)
    · rw [clearSlot_slots hs.sync, update_self]
    · intro q hq
      rw [clearSlot_slots hs.sync, update_of_ne hq]
  | expired hpt hgive _ _ _ => exact hs.timedOut hpt hgive
  | delivered hopen hacc hdelivers =>
    rw [accepts_sync hs.sync, Option.isSome_iff_exists] at hacc
    obtain ⟨r, hr⟩ := hacc
    -- a registered receiver means an empty slot
    have hslot : ch.rendezvousSlots p = none := by
      rcases hy : ch.rendezvousSlots p with _ | y
      · rfl
      · rw [hs.no_waiter hy] at hr
        cases hr
    have hclosed := closed_of_open hopen
    rcases pending with _ | y
    · exact hs.delivered_none hslot hclosed
    · obtain rfl := hown y rfl
      exact hs.delivered_some hdelivers hr hslot hclosed
  | found _ hslot hwhy => exact hs.found hslot hwhy
  | waits hopen hacc hnext _ _ _ => exact hs.waits hopen hacc hfits hnext
  | goes hnext _ => exact hs.goes hfits hnext

/-! ## Receives -/

/-- A call that does not send has no message of its own. -/
theorem parcel_of_sends (hfits : Fits c pt)
    (hs : pt.sends = none) : c.parcel = none := by
  rcases hx : c.parcel with _ | x
  · rfl
  · rcases hfits.parcel hx with ⟨pending, hp⟩
    rw [hs] at hp
    cases hp

theorem sends_of_receives {pt : Point M} (h : pt.receives = some d) :
    pt.sends = none := by
  cases pt <;> first | rfl | cases h

section

variable {s : State μ} {task : TaskId} {c : Call μ} {pt : Point (Parcel μ)}
  {channel : Option (Channel (Parcel μ))} {v : Verdict (Parcel μ)}

/-- An entry of a call that does not send is no send's. -/
theorem mem_goOn_log_parcel (hparcel : c.parcel = none) {e : Done μ}
    (he : e ∈ (s.goOn task c channel v).log) (hx : e.call.parcel = some x) : e ∈ s.log := by
  rcases mem_goOn_log.mp he with he | ⟨o, -, rfl⟩
  · exact he
  · rw [hparcel] at hx
    cases hx

theorem goOn_resume_parcel (hparcel : c.parcel = none) {t : TaskId} {c' : Call μ}
    {pt' : Point (Parcel μ)}
    (ht : ((s.goOn task c channel v).pc t).resume = some (c', pt')) (hx : c'.parcel = some x) :
    (s.pc t).resume = some (c', pt') := by
  rcases goOn_resume ht with ⟨-, rfl, -⟩ | ⟨-, ht⟩
  · rw [hparcel] at hx
    cases hx
  · exact ht

/-- A section of a call that does not send, and takes no message: what has to be said of the channel it
leaves behind. -/
theorem Rendezvous.unmoved (h : Rendezvous s) (hpc : s.pc task = .running c pt)
    (hparcel : c.parcel = none) (htaken : ∀ o, v.outcome = some o → Done.taken ⟨c, o⟩ = none)
    (hsync : ∀ ch', channel = some ch' → ch'.sync = true)
    (hoccupied : ∀ ch' q y, channel = some ch' → ch'.rendezvousSlots q = some y →
      ∃ ch, s.channel = some ch ∧ ch.rendezvousSlots q = some y ∧ ch'.waiters q.peer = none ∧
        ch'.closed q = false)
    (hparked : ∀ ch', channel = some ch' → ∀ {t : TaskId} {c' : Call μ} {pt' : Point (Parcel μ)}
      {q : Side} {y : Parcel μ}, (s.pc t).resume = some (c', pt') → c'.parcel = some y →
      (∀ ch, s.channel = some ch →
        ch.rendezvousSlots q = some y ∨ (ch.closed q = true ∧ c'.op.timed = true)) →
      ch'.rendezvousSlots q = some y ∨ (ch'.closed q = true ∧ c'.op.timed = true))
    (hsent : ∀ {ch : Channel (Parcel μ)} {e : Done μ} {y : Parcel μ}, s.channel = some ch →
      e ∈ s.log → e.call.parcel = some y → e.outcome = .sent (.ok ()) →
      ch.rendezvousSlots y.side = some y → pt.receives ≠ some y.side.peer ∧
        ∃ ch', channel = some ch' ∧ ch'.rendezvousSlots y.side = some y) :
    Rendezvous (s.goOn task c channel v) := by
  have hsame : (s.goOn task c channel v).taken = s.taken := goOn_taken_of_none htaken
  have hleft : (s.goOn task c channel v).channel = channel := goOn_channel ..
  refine ⟨fun hch₁ => hsync _ (hleft ▸ hch₁), ?_, ?_, ?_, ?_, ?_, ?_, ?_, ?_⟩
  · intro ch₁ q y hch₁ hy
    rcases hoccupied ch₁ q y (hleft ▸ hch₁) hy with ⟨ch, hch, hy', hw, hc⟩
    rw [hsame, goOn_calls]
    exact ⟨hw, hc, (h.occupied hch hy').2.2⟩
  · rw [hsame]
    exact h.taken_nodup
  · rw [hsame, goOn_calls]
    exact h.taken_lt
  · intro e y he hy
    rcases mem_goOn_log.mp he with he | ⟨o, hout, rfl⟩
    · exact h.taken_side he hy
    · rw [htaken o hout] at hy
      cases hy
  · intro t c' pt' q y ht hy hsend
    rw [hsame]
    rcases h.pending (goOn_resume_parcel hparcel ht hy) hy hsend with ⟨hnot, hslot⟩
    refine ⟨hnot, fun ch₁ hch₁ hy₁ => ?_⟩
    rcases hoccupied ch₁ q y (hleft ▸ hch₁) hy₁ with ⟨ch, hch, hy', -⟩
    exact hslot ch hch hy'
  · intro t c' pt' q y ht hy hsend
    rw [hsame]
    have ht' := goOn_resume_parcel hparcel ht hy
    exact (h.parked ht' hy hsend).imp_right fun hall ch₁ hch₁ =>
      hparked ch₁ (hleft ▸ hch₁) ht' hy hall
  · intro e y he hy hout
    rw [hsame]
    have he' := mem_goOn_log_parcel hparcel he hy
    rcases h.sent he' hy hout with hin | ⟨ch, r, hch, hslot, hr⟩
    · exact .inl hin
    · rcases hsent hch he' hy hout hslot with ⟨hne, ch', hch', hslot'⟩
      exact .inr ⟨ch', r, hleft.trans hch', hslot', hr.goOn hpc hne⟩
  · intro e y err he hy hout
    rw [hsame]
    exact h.failed (mem_goOn_log_parcel hparcel he hy) hy hout

/-- A section that moves no message. -/
theorem Rendezvous.still (h : Rendezvous s) (hpc : s.pc task = .running c pt)
    (hparcel : c.parcel = none) {ch ch' : Channel (Parcel μ)} (hch : s.channel = some ch)
    (hsync : ch'.sync = ch.sync) (hslots : ch'.rendezvousSlots = ch.rendezvousSlots)
    (hclosed : ch'.closed = ch.closed)
    (hwaiters : ∀ q y, ch.rendezvousSlots q = some y → ch'.waiters q.peer = none)
    (hrecv : ∀ q y, ch.rendezvousSlots q = some y → pt.receives ≠ some q.peer)
    (htaken : ∀ o, v.outcome = some o → Done.taken ⟨c, o⟩ = none) :
    Rendezvous (s.goOn task c (some ch') v) := by
  refine h.unmoved hpc hparcel htaken ?_ ?_ ?_ ?_
  · rintro _ ⟨⟩
    exact hsync.trans (h.sync hch)
  · rintro _ q y ⟨⟩ hy
    rw [hslots] at hy
    exact ⟨ch, hch, hy, hwaiters q y hy, hclosed ▸ (h.occupied hch hy).2.1⟩
  · rintro _ ⟨⟩ t c' pt' q y - - hall
    rw [hslots, hclosed]
    exact hall ch hch
  · intro ch₀ e y hch₀ _ _ _ hslot
    obtain rfl := Option.some.inj (hch.symm.trans hch₀)
    exact ⟨hrecv _ y hslot, ch', rfl, hslots ▸ hslot⟩

/-- A section that takes the message of a slot. -/
theorem Rendezvous.take (h : Rendezvous s) (ho : Orderly s) (hpc : s.pc task = .running c pt)
    {ch ch' : Channel (Parcel μ)} (hch : s.channel = some ch) (hr : pt.receives = some d)
    (hclean : ∀ y, ch.rendezvousSlots d.peer = some y → ¬ Refused s y)
    (hy : ch.rendezvousSlots d.peer = some y) (hsync : ch'.sync = ch.sync)
    (hslots : ch'.rendezvousSlots = update ch.rendezvousSlots d.peer none)
    (hclosed : ch'.closed = ch.closed) (hwaiters : ch'.waiters = ch.waiters)
    (hv : v.outcome = some (.received (.ok (some y)))) :
    Rendezvous (s.goOn task c (some ch') v) := by
  have hres : (s.pc task).resume = some (c, pt) := by rw [hpc]; rfl
  have hparcel := parcel_of_sends (ho.fits hres) (sends_of_receives hr)
  have hop : c.op.receives = some d := (ho.fits hres).receives.symm.trans hr
  rcases h.occupied hch hy with ⟨-, -, hyside, hynot, hylt⟩
  have htaken : (s.goOn task c (some ch') v).taken = s.taken ++ [y] := by
    rw [goOn_taken, hv]
    rfl
  have hkeep : ∀ q z, z ≠ y → ch.rendezvousSlots q = some z → ch'.rendezvousSlots q = some z := by
    intro q z hzy hz
    rw [hslots]
    by_cases hq : q = d.peer
    · subst hq
      exact absurd (Option.some.inj (hz.symm.trans hy)) hzy
    · rw [update_of_ne hq]
      exact hz
  have hold : ∀ q z, ch'.rendezvousSlots q = some z → ch.rendezvousSlots q = some z ∧ z ≠ y := by
    intro q z hz
    rw [hslots] at hz
    by_cases hq : q = d.peer
    · subst hq
      rw [update_self] at hz
      cases hz
    · rw [update_of_ne hq] at hz
      refine ⟨hz, ?_⟩
      rintro rfl
      exact hq ((h.occupied hch hz).2.2.1.symm.trans hyside)
  refine ⟨?_, ?_, ?_, ?_, ?_, ?_, ?_, ?_, ?_⟩
  · intro ch₁ hch₁
    rw [goOn_channel] at hch₁
    cases hch₁
    exact hsync.trans (h.sync hch)
  · intro ch₁ q z hch₁ hz
    rw [goOn_channel] at hch₁
    cases hch₁
    rcases hold q z hz with ⟨hz', hzy⟩
    rcases h.occupied hch hz' with ⟨hw, hc, hzside, hznot, hzlt⟩
    rw [hwaiters, hclosed, htaken, goOn_calls]
    refine ⟨hw, hc, hzside, ?_, hzlt⟩
    simp [hznot, hzy]
  · rw [htaken]
    refine List.nodup_append.mpr ⟨h.taken_nodup, by simp, ?_⟩
    intro z hz z' hz' heq
    rw [List.mem_singleton.mp hz'] at heq
    exact hynot (heq ▸ hz)
  · rw [htaken, goOn_calls]
    intro z hz
    rcases List.mem_append.mp hz with hz | hz
    · exact h.taken_lt z hz
    · rw [List.mem_singleton.mp hz]
      exact hylt
  · intro e z he hz
    rcases mem_goOn_log.mp he with he | ⟨o, hout, rfl⟩
    · exact h.taken_side he hz
    · obtain rfl := Option.some.inj (hv.symm.trans hout)
      cases hz
      rw [hyside, Side.peer_peer]
      exact hop
  · intro t c' pt' q z ht hz hsend
    have ht' := goOn_resume_parcel hparcel ht hz
    rcases h.pending ht' hz hsend with ⟨hnot, hslot⟩
    have hzy : z ≠ y := by
      rintro rfl
      rcases (ho.fits ht').sends hsend with ⟨z', hz', hside, -⟩
      obtain rfl := Option.some.inj (hz.symm.trans hz')
      exact hslot ch hch (hside ▸ hyside ▸ hy)
    rw [htaken]
    refine ⟨by simp [hnot, hzy], fun ch₁ hch₁ hz₁ => ?_⟩
    rw [goOn_channel] at hch₁
    cases hch₁
    exact hslot ch hch (hold q z hz₁).1
  · intro t c' pt' q z ht hz hsend
    rw [htaken]
    by_cases hzy : z = y
    · exact .inl (hzy ▸ List.mem_append_right _ (List.mem_singleton_self _))
    · rcases h.parked (goOn_resume_parcel hparcel ht hz) hz hsend with hin | hall
      · exact .inl (List.mem_append_left _ hin)
      · refine .inr fun ch₁ hch₁ => ?_
        rw [goOn_channel] at hch₁
        cases hch₁
        rw [hclosed]
        exact (hall ch hch).imp_left (hkeep q z hzy)
  · intro e z he hz hout
    rw [htaken]
    by_cases hzy : z = y
    · exact .inl (hzy ▸ List.mem_append_right _ (List.mem_singleton_self _))
    · rcases h.sent (mem_goOn_log_parcel hparcel he hz) hz hout with hin | ⟨ch₀, r, hch₀, hslot, hrcv⟩
      · exact .inl (List.mem_append_left _ hin)
      · obtain rfl := Option.some.inj (hch.symm.trans hch₀)
        refine .inr ⟨ch', r, goOn_channel .., hkeep _ z hzy hslot, hrcv.goOn hpc ?_⟩
        -- This receive is on the side of the message it takes.
        intro hsame
        have hd : d = z.side.peer := Option.some.inj (hr.symm.trans hsame)
        rw [hd, Side.peer_peer, hslot] at hy
        exact hzy (Option.some.inj hy)
  · intro e z err he hz hout
    have he' := mem_goOn_log_parcel hparcel he hz
    have hzy : z ≠ y := by
      rintro rfl
      exact hclean z hy ⟨e, he', hz, err, hout⟩
    rw [htaken]
    simp [h.failed he' hz hout, hzy]

end

theorem takeMessage_sync_none (h : ch.sync = true)
    (htake : ch.takeMessage d = none) : ch.rendezvousSlots d.peer = none := by
  rw [ch.takeMessage_sync h] at htake
  rcases hy : ch.rendezvousSlots d.peer with _ | y
  · rfl
  · rw [hy] at htake
    cases htake

theorem takeMessage_sync_some {ch ch' : Channel M} (h : ch.sync = true) {x : M}
    (htake : ch.takeMessage d = some (x, ch')) : ch.rendezvousSlots d.peer = some x ∧
      ch' = { ch with rendezvousSlots := update ch.rendezvousSlots d.peer none } := by
  rw [ch.takeMessage_sync h] at htake
  rcases hy : ch.rendezvousSlots d.peer with _ | y
  · rw [hy] at htake
    cases htake
  · rw [hy] at htake
    cases htake
    exact ⟨rfl, rfl⟩

theorem Rendezvous.receive (h : Rendezvous s) (ho : Orderly s)
    {expired : Bool} (hpc : s.pc task = .running c pt)
    (hclean : CleanSection s expired c pt) {ch ch' : Channel (Parcel μ)} (hch : s.channel = some ch) (hr : pt.receives = some d)
    (hstep : RecvStep ch task expired pt d v ch') : Rendezvous (s.goOn task c (some ch') v) := by
  have hres : (s.pc task).resume = some (c, pt) := by rw [hpc]; rfl
  have hparcel := parcel_of_sends (ho.fits hres) (sends_of_receives hr)
  have hsync := h.sync hch
  have hold : ∀ q y, ch.rendezvousSlots q = some y → ch.waiters q.peer = none := by
    intro q y hy
    exact (h.occupied hch hy).1
  have hempty : ch.takeMessage d = none → ∀ q y, ch.rendezvousSlots q = some y →
      pt.receives ≠ some q.peer := by
    intro htake q y hy hq
    obtain rfl := Option.some.inj (hr.symm.trans hq)
    have hnone := takeMessage_sync_none hsync htake
    rw [Side.peer_peer, hy] at hnone
    cases hnone
  cases hstep with
  | @got y ch₀ htake wasFull =>
    rcases takeMessage_sync_some hsync htake with ⟨hy, rfl⟩
    refine h.take ho hpc hch hr (fun y => hclean.taking ch d y hch hr) hy ?_ ?_ ?_ ?_ rfl
    · simp
    · simp
    · simp
    · simp
  | closed htake _ =>
    refine h.still hpc hparcel hch rfl rfl rfl hold (hempty htake) fun o hout => ?_
    cases hout
    rfl
  | nothing htake hres' =>
    refine h.still hpc hparcel hch rfl rfl rfl hold (hempty htake) fun o hout => ?_
    cases hout
    rcases hres' with rfl | rfl <;> rfl
  | waits htake _ _ _ =>
    refine h.still hpc hparcel hch rfl rfl rfl ?_ (hempty htake) fun o hout => (nomatch hout)
    intro q y hy
    have hne : q.peer ≠ d := fun hq => hempty htake q y hy (hq ▸ hr)
    exact (update_of_ne hne ..).trans (hold q y hy)
  | goes htake =>
    exact h.still hpc hparcel hch rfl rfl rfl hold (hempty htake) fun o hout => (nomatch hout)

/-! ## Holders -/

section

variable {s : State μ} {task : TaskId} {expired : Bool} {c : Call μ} {pt : Point (Parcel μ)}
  {ch : Channel (Parcel μ)} {p : Side} {y : Parcel μ}

/-- The message in the slot of an end that closes belongs to a send that is still to fail. -/
theorem CleanSection.closing_open (hclean : CleanSection s expired c pt) (ho : Orderly s)
    (hch : s.channel = some ch) (hpt : pt = .close p) (hlast : ch.lastHolder p = true)
    (hy : ch.rendezvousSlots p = some y) {t : TaskId} {c' : Call μ} {pt' : Point (Parcel μ)}
    (ht : (s.pc t).resume = some (c', pt')) (hy' : c'.parcel = some y) :
    c'.op.timed = true ∨ ch.closed p.peer = true := by
  rcases hclean.closing ch p y hch hpt hlast hy with hrefused | ⟨t₀, c₀, pt₀, ht₀, hy₀, hor⟩
  · exact absurd (refused_not_open ho hrefused ht hy') id
  · by_cases hne : t = t₀
    · subst hne
      obtain ⟨rfl, -⟩ := Prod.mk.inj (Option.some.inj (ht.symm.trans ht₀))
      exact hor
    · exact absurd rfl (ho.parcel_ne ht₀ ht hne hy₀ hy')

theorem CleanSection.closing_not_sent (hclean : CleanSection s expired c pt) (ho : Orderly s)
    (hch : s.channel = some ch) (hpt : pt = .close p) (hlast : ch.lastHolder p = true)
    (hy : ch.rendezvousSlots p = some y) {e : Done μ} (he : e ∈ s.log)
    (hy' : e.call.parcel = some y) : e.outcome ≠ .sent (.ok ()) := by
  intro hout
  rcases hclean.closing ch p y hch hpt hlast hy with hrefused | ⟨t₀, c₀, pt₀, ht₀, hy₀, -⟩
  · exact refused_not_sent ho hrefused he hy' hout
  · exact ho.parcel_ne_settled ht₀ hy₀ he hy' rfl

/-- Shutting an end down empties its slot and leaves the other one. -/
theorem shutDown_slots (hsync : ch.sync = true)
    (hy : (ch.shutDown p).2.rendezvousSlots q = some y) : q ≠ p ∧ ch.rendezvousSlots q = some y := by
  rw [show (ch.shutDown p).2.rendezvousSlots = update ch.rendezvousSlots p none from
    if_pos hsync] at hy
  have hq : q ≠ p := by
    rintro rfl
    rw [update_self] at hy
    cases hy
  rw [update_of_ne hq] at hy
  exact ⟨hq, hy⟩

theorem shutDown_slots_of_ne (hsync : ch.sync = true) (hq : q ≠ p) :
    (ch.shutDown p).2.rendezvousSlots q = ch.rendezvousSlots q := by
  rw [show (ch.shutDown p).2.rendezvousSlots = update ch.rendezvousSlots p none from
    if_pos hsync, update_of_ne hq]

/-- The last holder of an end closes it, and the other end stays. -/
theorem Rendezvous.last (h : Rendezvous s) (ho : Orderly s) (hpc : s.pc task = .running c pt)
    (hclean : CleanSection s expired c pt) (hch : s.channel = some ch) (hparcel : c.parcel = none)
    (hr : pt.receives = none) (hpt : pt = .close p) (hlast : ch.lastHolder p = true)
    (hpeer : ch.closed p.peer = false) :
    Rendezvous (s.goOn task c (some (ch.shutDown p).2)
      (.ret (.done (.ok ())) (ch.shutDown p).1 none)) := by
  have hsync := h.sync hch
  refine h.unmoved hpc hparcel ?_ ?_ ?_ ?_ ?_
  · rintro _ ⟨⟩
    rfl
  · rintro _ ⟨⟩
    exact hsync
  · rintro _ q y ⟨⟩ hy
    rcases shutDown_slots hsync hy with ⟨hq, hy'⟩
    rcases h.occupied hch hy' with ⟨hw, hc, -⟩
    refine ⟨ch, hch, hy', ?_, ?_⟩
    · show update ch.waiters p.peer none q.peer = none
      rw [update_of_ne (fun hpeer => hq (Side.peer_inj.mp hpeer))]
      exact hw
    · show update ch.closed p true q = false
      rw [update_of_ne hq]
      exact hc
  · rintro _ ⟨⟩ t c' pt' q y ht hy hall
    by_cases hq : q = p
    · subst hq
      refine .inr ⟨update_self .., ?_⟩
      rcases hall ch hch with hslot | ⟨-, htimed⟩
      · rcases hclean.closing_open ho hch hpt hlast hslot ht hy with htimed | hc
        · exact htimed
        · rw [hpeer] at hc
          cases hc
      · exact htimed
    · rw [shutDown_slots_of_ne hsync hq]
      refine (hall ch hch).imp_right fun hc => ⟨?_, hc.2⟩
      exact (update_of_ne hq ..).trans hc.1
  · intro ch₀ e y hch₀ he hy hout hslot
    obtain rfl := Option.some.inj (hch.symm.trans hch₀)
    have hq : y.side ≠ p := by
      rintro rfl
      exact hclean.closing_not_sent ho hch hpt hlast hslot he hy hout
    exact ⟨by rw [hr]; nofun, _, rfl, (shutDown_slots_of_ne hsync hq).trans hslot⟩

/-- Both ends are closed now, and the channel goes away. -/
theorem Rendezvous.gone (h : Rendezvous s) (ho : Orderly s) (hpc : s.pc task = .running c pt)
    (hclean : CleanSection s expired c pt) (hch : s.channel = some ch) (hparcel : c.parcel = none)
    (hpt : pt = .close p) (hlast : ch.lastHolder p = true) (hpeer : ch.closed p.peer = true)
    (wakes : List TaskId) : Rendezvous (s.goOn task c none (.ret (.done (.ok ())) wakes none)) := by
  refine h.unmoved hpc hparcel ?_ nofun nofun nofun ?_
  · rintro _ ⟨⟩
    rfl
  · intro ch₀ e y hch₀ he hy hout hslot
    obtain rfl := Option.some.inj (hch.symm.trans hch₀)
    rcases Side.eq_or_eq_peer p y.side with hq | hq
    · exact absurd hout (hclean.closing_not_sent ho hch hpt hlast (hq ▸ hslot) he hy)
    · -- The other end was closed already, so its slot is empty.
      have hopen := (h.occupied hch hslot).2.1
      rw [hq, hpeer] at hopen
      cases hopen

theorem Rendezvous.holder (h : Rendezvous s) (ho : Orderly s) (hpc : s.pc task = .running c pt)
    (hclean : CleanSection s expired c pt) (hch : s.channel = some ch)
    (hs : pt.sends = none) (hr : pt.receives = none) (hstep : HolderStep ch pt v channel) :
    Rendezvous (s.goOn task c channel v) := by
  have hparcel : c.parcel = none := parcel_of_sends (ho.fits (by rw [hpc]; rfl)) hs
  cases hstep with
  | count r refs _ =>
    refine h.still hpc hparcel hch rfl rfl rfl (fun q y hy => (h.occupied hch hy).1)
      (fun q y _ => by rw [hr]; nofun) fun o hout => ?_
    cases hout
    rfl
  | last hpt hlast hpeer => exact h.last ho hpc hclean hch hparcel hr hpt hlast hpeer
  | gone hpt hlast hpeer => exact h.gone ho hpc hclean hch hparcel hpt hlast hpeer _

end

/-- A call that finds the channel gone. -/
theorem Rendezvous.missing (h : Rendezvous s) (ho : Orderly s)
    {expired : Bool} (hpc : s.pc task = .running c pt)
    (hclean : CleanSection s expired c pt) (hch : s.channel = none) :
    Rendezvous (s.goOn task c none (.ret pt.missing [] none)) := by
  have hres : (s.pc task).resume = some (c, pt) := by rw [hpc]; rfl
  have hfits := ho.fits hres
  have hsame : (s.goOn task c none (.ret pt.missing [] none)).taken = s.taken := by
    refine goOn_taken_of_none fun o hout => ?_
    cases hout
    cases pt <;> rfl
  have hres' : ∀ {t c' pt'},
      ((s.goOn task c none (.ret pt.missing [] none)).pc t).resume = some (c', pt') →
      (s.pc t).resume = some (c', pt') := by
    intro t c' pt' ht
    rcases goOn_resume ht with ⟨-, -, hnext⟩ | ⟨-, ht⟩
    · cases hnext
    · exact ht
  refine ⟨fun hch₁ => (nomatch hch₁), fun hch₁ => (nomatch hch₁), ?_, ?_, ?_, ?_, ?_, ?_, ?_⟩
  · rw [hsame]
    exact h.taken_nodup
  · rw [hsame, goOn_calls]
    exact h.taken_lt
  · intro e x he hx
    rcases mem_goOn_log.mp he with he | ⟨o, hout, rfl⟩
    · exact h.taken_side he hx
    · cases hout
      cases pt <;> cases hx
  · intro t c' pt' q y ht hy hsend
    rw [hsame]
    refine ⟨(h.pending (hres' ht) hy hsend).1, fun ch₁ hch₁ => ?_⟩
    cases hch₁
  · intro t c' pt' q y ht hy hsend
    refine .inr fun ch₁ hch₁ => ?_
    cases hch₁
  · intro e y he hy hout
    rw [hsame]
    rcases mem_goOn_log.mp he with he | ⟨o, ho', rfl⟩
    · rcases h.sent he hy hout with hin | ⟨ch₀, r, hch₀, -⟩
      · exact .inl hin
      · rw [hch] at hch₀
        cases hch₀
    · cases ho'
      cases pt <;> cases hout
  · intro e y err he hy hout
    rw [hsame]
    rcases mem_goOn_log.mp he with he | ⟨o, ho', rfl⟩
    · exact h.failed he hy hout
    · refine hclean.givingUp ?_ y hy
      rcases hfits.parcel hy with ⟨pending, hsend⟩
      rw [hch]
      cases pt <;> first | rfl | cases hsend

/-! ## Runs -/

theorem Rendezvous.step {s s' : State μ} (h : Rendezvous s) (ho : Orderly s) {a : Action μ}
    (hclean : Clean s a) (hs : s.step a = some s') : Rendezvous s' := by
  rcases step_cases hs with hq | ⟨task, op, -, hidle, rfl⟩ | ⟨task, expired, c, pt, rfl, hpc, rfl⟩
  · exact h.quiet hq
  · exact h.begin task op hidle
  · have hsection := hclean c pt hpc
    have hfits : ∀ next, (pt.enter s.channel task expired).1.next = some next → Fits c next := by
      intro next hnext
      exact (ho.fits (by rw [hpc]; rfl)).enter s.channel task expired hnext
    unfold State.enter
    rcases hch : s.channel with _ | ch
    · exact h.missing ho hpc hsection hch
    · rw [hch] at hfits
      show Rendezvous (s.goOn task c (pt.onChannel ch task expired).2 (pt.onChannel ch task expired).1)
      change ∀ next, (pt.onChannel ch task expired).1.next = some next → Fits c next at hfits
      rcases hsends : pt.sends with _ | ⟨p, pending⟩
      · rcases hrecv : pt.receives with _ | d
        · exact h.holder ho hpc hsection hch hsends hrecv (holderStep _ _ _ hsends hrecv)
        · rcases recvStep ch task expired hrecv with ⟨v, ch', hv, hstep⟩
          rw [hv]
          exact h.receive ho hpc hsection hch hrecv hstep
      · rcases sendStep ch task expired hsends with ⟨v, ch', hv, hstep⟩
        rw [hv] at hfits ⊢
        exact h.send ho hpc hsection hch hsends hfits hstep

theorem mem_received :
    x ∈ s.received d ↔ ∃ e ∈ s.log, e.call.op.receives = some d ∧ e.taken = some x := by
  simp only [State.received, List.mem_filterMap, List.mem_filter, decide_eq_true_eq, and_assoc]

theorem Rendezvous.mem_received (h : Rendezvous s) :
    x ∈ s.received d ↔ x ∈ s.taken ∧ x.side.peer = d := by
  rw [System.mem_received, State.taken, List.mem_filterMap]
  constructor
  · rintro ⟨e, he, hd, hx⟩
    exact ⟨⟨e, he, hx⟩, Option.some.inj ((h.taken_side he hx).symm.trans hd)⟩
  · rintro ⟨⟨e, he, hx⟩, rfl⟩
    exact ⟨e, he, h.taken_side he hx, hx⟩

theorem received_sublist (s : State μ) (d : Side) : (s.received d).Sublist s.taken :=
  List.filter_sublist.filterMap _

/-- What a rendezvous channel promises. -/
structure SyncDelivery (s : State μ) : Prop where
  /-- A send that returned `Ok` has had its own message taken by a receive on the other side, or has
  handed it to a receiver that waits there. -/
  sent : ∀ e ∈ s.log, ∀ x, e.call.parcel = some x → e.outcome = .sent (.ok ()) →
    x ∈ s.received x.side.peer ∨ ∃ ch r, s.channel = some ch ∧
      ch.rendezvousSlots x.side = some x ∧ Receiving s x.side.peer r
  /-- Nobody has received the message of a send that returned an error. -/
  failed : ∀ e ∈ s.log, ∀ x err, e.call.parcel = some x → e.outcome = .sent (.error err) →
    ∀ d, x ∉ s.received d
  /-- No message is received twice, or on the wrong side. -/
  once : ∀ d, (s.received d).Nodup ∧ ∀ x ∈ s.received d, x.side.peer = d
  /-- A message that a send in progress has parked was received, or is still in the slot, unless the
  send is to return an error: the channel is gone, or a `send_timeout`'s end is closed. -/
  kept : ∀ t c pt p x, (s.pc t).resume = some (c, pt) → c.parcel = some x →
    pt.sends = some (p, none) → x ∈ s.received x.side.peer ∨ ∀ ch, s.channel = some ch →
      ch.rendezvousSlots p = some x ∨ (ch.closed p = true ∧ c.op.timed = true)

theorem Rendezvous.delivery (h : Rendezvous s) : SyncDelivery s where
  sent := by
    intro e he x hx hout
    exact (h.sent he hx hout).imp_left fun hin => h.mem_received.mpr ⟨hin, rfl⟩
  failed := by
    intro e he x err hx hout d hin
    exact h.failed he hx hout (h.mem_received.mp hin).1
  once := by
    intro d
    exact ⟨h.taken_nodup.sublist (received_sublist s d), fun x hx => (h.mem_received.mp hx).2⟩
  kept := by
    intro t c pt p x ht hx hsend
    exact (h.parked ht hx hsend).imp_left fun hin => h.mem_received.mpr ⟨hin, rfl⟩

/-- **Delivery on a rendezvous channel**, in every run of clean steps. -/
theorem sync_delivery {s : State μ}
    (h : ReachBy State.step Clean (fun s => s = State.start .newSync) s) : SyncDelivery s := by
  have hinv : Orderly s ∧ Rendezvous s := by
    refine h.invariant (I := fun s => Orderly s ∧ Rendezvous s) ?_ ?_
    · rintro s rfl
      exact ⟨.start _, .start⟩
    · rintro s a s' ⟨ho, hr⟩ hclean hs
      exact ⟨ho.step hs, hr.step ho hclean hs⟩
  exact hinv.2.delivery

/-! ## A check of the condition -/

/-- The call stands at a receive on the side. -/
def receivingCheck (d : Side) : Option (Call μ × Point (Parcel μ)) → Bool
  | some (_, .recv e) | some (_, .recvTimeout e) => decide (e = d)
  | _ => false

/-- The section hands its message to a task that waits for one. -/
def handOverCheck (s : State μ) (ch : Channel (Parcel μ)) (pt : Point (Parcel μ)) : Bool :=
  match pt.sends with
  | some (p, some _) =>
    !pt.delivers ch || (ch.waiters p.peer).all fun r => receivingCheck p.peer (s.pc r).resume
  | _ => true

/-- The section is not one that finds the slot empty with the message still in hand. -/
def wokenCheck (ch : Channel (Parcel μ)) : Point (Parcel μ) → Bool
  | .sendBlockingWoken p (some _) => (ch.rendezvousSlots p).isSome
  | .close _ => false
  | _ => true

def isRefusal (e : Done μ) : Bool :=
  match e.outcome with
  | .sent (.error _) => true
  | _ => false

/-- Enough for the condition: no send gives up or has failed, no end closes, and a receiver that is
handed a message is there. -/
def cleanCheck (s : State μ) : Action μ → Bool
  | .move task expired =>
    match s.pc task with
    | .running _ pt => !pt.givesUp s.channel expired && !s.log.any isRefusal &&
        s.channel.all fun ch => wokenCheck ch pt && handOverCheck s ch pt
    | _ => true
  | _ => true

theorem receiving_of_check {r : TaskId}
    (h : receivingCheck d (s.pc r).resume = true) : Receiving s d r := by
  rcases hres : (s.pc r).resume with _ | ⟨c, pt⟩
  · rw [hres] at h
    cases h
  · rw [hres] at h
    refine ⟨c, pt, hres, ?_⟩
    cases pt with
    | recv e => exact .inl (congrArg Point.recv (of_decide_eq_true h))
    | recvTimeout e => exact .inr (congrArg Point.recvTimeout (of_decide_eq_true h))
    | send | sendBlocking | sendBlockingWoken | sendTimeoutFast | sendTimeout | tryRecv
    | recvTimeoutFast | dup | close => cases h

theorem clean_of_check (s : State μ) (a : Action μ) (h : cleanCheck s a = true) : Clean s a := by
  cases a with
  | move task expired =>
    intro c pt hpc
    rw [cleanCheck, hpc] at h
    simp only [Bool.and_eq_true, Bool.not_eq_true'] at h
    rcases h with ⟨⟨hgive, hlog⟩, hall⟩
    have hchannel : ∀ ch, s.channel = some ch →
        wokenCheck ch pt = true ∧ handOverCheck s ch pt = true := by
      intro ch hch
      rwa [hch, Option.all_some, Bool.and_eq_true] at hall
    have hrefused : ∀ y, ¬ Refused s y := by
      rintro y ⟨e, he, -, err, herr⟩
      have hfalse := List.any_eq_false.mp hlog e he
      exact hfalse (by rw [isRefusal, herr])
    refine ⟨?_, ?_, ?_, ?_, ?_, ?_⟩
    · intro ch p x r hch hsends hdelivers hr
      have hreceiver := (hchannel ch hch).2
      rw [handOverCheck, hsends] at hreceiver
      simp only [hdelivers, hr, Bool.not_true, Bool.false_or, Option.all_some] at hreceiver
      exact receiving_of_check hreceiver
    · rintro ch p x hch rfl hslot
      have hwoken := (hchannel ch hch).1
      rw [wokenCheck, hslot] at hwoken
      cases hwoken
    · intro hgive'
      rw [hgive] at hgive'
      cases hgive'
    · intro ch p pending y _ _ hgive'
      rw [hgive] at hgive'
      cases hgive'
    · exact fun ch d y _ _ _ => hrefused y
    · rintro ch p y hch rfl
      cases (hchannel ch hch).1
  | call | wake | forget | registerWaiter | deregisterWaiter => exact trivial

/-- A send parks its message, and a receive takes it. -/
def meeting : List (Action Nat) :=
  [.call 1 (.sendBlocking .zero 7), .move 1 false, .move 1 false, .move 1 false,
    .call 2 (.recv .one), .move 2 false, .move 2 false, .move 1 false]

theorem sync_delivery_meeting : ∃ s : State Nat,
    run State.step (.start .newSync) meeting = some s ∧ s.received .one = [⟨0, .zero, 7⟩] ∧
    s.accepted .one = [⟨0, .zero, 7⟩] ∧ SyncDelivery s := by
  have hrun : (run State.step (.start .newSync) meeting).map
      (fun s => (s.received .one, s.accepted .one)) =
      some ([⟨0, .zero, 7⟩], [⟨0, .zero, 7⟩]) := by decide +kernel
  have hcheck : checkAlong State.step cleanCheck (State.start .newSync) meeting = true := by
    decide +kernel
  rw [Option.map_eq_some_iff] at hrun
  rcases hrun with ⟨s, hs, hpair⟩
  obtain ⟨hreceived, haccepted⟩ := Prod.mk.inj hpair
  refine ⟨s, hs, hreceived, haccepted, sync_delivery (.of_run (.start rfl) hs ?_)⟩
  exact Along.of_check clean_of_check hcheck

/-! ## A message that is lost -/

theorem mem_accepted (h : x ∈ s.accepted d) :
    ∃ e ∈ s.log, e.call.parcel = some x ∧ e.outcome = .sent (.ok ()) := by
  rw [State.accepted, List.mem_filter, List.mem_filterMap] at h
  rcases h.1 with ⟨e, he, hx⟩
  refine ⟨e, he, ?_⟩
  unfold Done.accepted at hx
  split at hx
  · next hout => exact ⟨hx, hout⟩
  · cases hx

/-- Two tasks send from one end. The receive takes the first message and wakes the second sender, who
finds the slot empty. -/
def twoSenders : List (Action Nat) :=
  [.call 1 (.sendBlocking .zero 7), .move 1 false, .move 1 false, .move 1 false,
    .call 2 (.sendBlocking .zero 8), .move 2 false, .move 2 false, .move 2 false,
    .call 3 (.tryRecv .one), .move 3 false, .move 3 false, .move 2 false]

theorem twoSenders_loses_message : ¬ ∀ s : State Nat,
    Reach State.step (fun s => s = State.start .newSync) s → SyncDelivery s := by
  intro hall
  have hrun : (run State.step (.start .newSync) twoSenders).map
      (fun s => (s.received .one, s.accepted .one, s.channel.bind fun ch => ch.rendezvousSlots .zero)) =
      some ([⟨0, .zero, 7⟩], [⟨1, .zero, 8⟩], none) := by decide +kernel
  rw [Option.map_eq_some_iff] at hrun
  rcases hrun with ⟨s, hs, hfields⟩
  simp only [Prod.mk.injEq] at hfields
  rcases hfields with ⟨hreceived, haccepted, hslot⟩
  have hmem : (⟨1, .zero, 8⟩ : Parcel Nat) ∈ s.accepted .one := by
    rw [haccepted]
    exact List.mem_singleton_self _
  rcases mem_accepted hmem with ⟨e, he, hx, hout⟩
  rcases (hall s (Reach.of_run (.start rfl) hs)).sent e he _ hx hout with hin | ⟨ch, r, hch, hfull, -⟩
  · change _ ∈ s.received .one at hin
    rw [hreceived] at hin
    exact absurd hin (by decide)
  · rw [hch] at hslot
    exact absurd (hslot.symm.trans hfull) (nomatch ·)

end SlateOS.Ipc.System
