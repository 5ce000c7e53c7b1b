/-
# SlateOS.Ipc.Channel.Async -- a buffered channel delivers in order

On a buffered channel the messages accepted for a side are those received there followed by those in
its queue, whatever the tasks do. Only two sections touch the queues: a send that returns `Ok` puts its
message at the back, and a receive takes one from the front.
-/
import SlateOS.Ipc.Channel.Calls

namespace SlateOS.Ipc.System

open Kernel Ipc Foundation.Runs
open Function (update update_self update_of_ne)

variable {μ : Type}

/-! ## The invariant -/

/-- What was accepted is what was received and what is queued. -/
structure Flow (s : State μ) : Prop where
  live : ∀ {ch : Channel (Parcel μ)}, s.channel = some ch → ch.sync = false ∧
    ∀ d, s.accepted d = s.received d ++ ch.queues d ∧ (ch.queues d).length ≤ maxQueueDepth
  received : ∀ d, s.received d <+: s.accepted d
  /-- A send in progress still has its message. -/
  pending : ∀ {t : TaskId} {c : Call μ} {pt : Point (Parcel μ)} {p : Side}
    {pending : Option (Parcel μ)}, (s.pc t).resume = some (c, pt) →
    pt.sends = some (p, pending) → pending.isSome = true
  /-- Where a receive has reported the end, nothing is left and nothing will come. -/
  drained : ∀ {e : Done μ} {d : Side}, e ∈ s.log → e.call.op.receives = some d →
    e.outcome = .received (.error .channelClosed) →
    s.received d = s.accepted d ∧
      ∀ ch, s.channel = some ch → ch.closed d.peer = true ∧ ch.queues d = []

theorem Flow.start : Flow (State.start (μ := μ) .new) where
  live h := by
    cases h
    exact ⟨rfl, fun d => ⟨rfl, Nat.zero_le _⟩⟩
  received d := List.prefix_rfl
  pending h := nomatch h
  drained h := nomatch h

theorem Flow.quiet {s s' : State μ} (h : Flow s) (hq : Quiet s s') : Flow s' := by
  have hacc : s'.accepted = s.accepted := by
    funext d
    rw [State.accepted, hq.log]
    rfl
  have hrec : s'.received = s.received := by
    funext d
    rw [State.received, hq.log]
    rfl
  rcases hq.channel with ⟨f, hch⟩
  refine ⟨?_, ?_, ?_, ?_⟩
  · intro ch hlive
    rw [hch, Option.map_eq_some_iff] at hlive
    rcases hlive with ⟨ch₀, hch₀, rfl⟩
    rw [hacc, hrec]
    have hlive₀ := h.live hch₀
    exact hlive₀
  · rw [hacc, hrec]
    exact h.received
  · intro t c pt p pending ht hs
    exact h.pending (hq.resume t ▸ ht) hs
  · intro e d he hr ho
    rw [hq.log] at he
    rw [hacc, hrec]
    refine ⟨(h.drained he hr ho).1, ?_⟩
    intro ch hlive
    rw [hch, Option.map_eq_some_iff] at hlive
    rcases hlive with ⟨ch₀, hch₀, rfl⟩
    exact (h.drained he hr ho).2 ch₀ hch₀

variable {c : Call μ} {p : Side}

theorem start_pending {pending : Option (Parcel μ)}
    (h : c.start.sends = some (p, pending)) : pending.isSome = true := by
  rcases c with ⟨id, op⟩
  cases op <;> first | (cases h; done) | (obtain ⟨-, rfl⟩ := Prod.mk.inj (Option.some.inj h); rfl)

variable {s : State μ}

theorem Flow.begin (h : Flow s) (task : TaskId) (op : Op μ) :
    Flow (s.begin task op) where
  live := h.live
  received := h.received
  pending := by
    intro t c pt p pending ht hs
    rcases begin_resume ht with ⟨-, -, rfl⟩ | ⟨-, ht⟩
    · exact start_pending hs
    · exact h.pending ht hs
  drained := h.drained

/-! ## Sections -/

/-- The entry a verdict adds to the log. -/
def entry (c : Call μ) (v : Verdict (Parcel μ)) : Option (Done μ) := v.outcome.map (Done.mk c)

section

variable {s : State μ} {task : TaskId} {c : Call μ} {channel : Option (Channel (Parcel μ))}
  {v : Verdict (Parcel μ)}

theorem goOn_accepted (d : Side) : (s.goOn task c channel v).accepted d = s.accepted d ++
    (((entry c v).bind Done.accepted).filter fun x => x.side.peer = d).toList :=
  accepted_of_log (goOn_log s task c channel v) d

theorem goOn_received (d : Side) : (s.goOn task c channel v).received d = s.received d ++
    (((entry c v).filter fun e => e.call.op.receives = some d).bind Done.taken).toList :=
  received_of_log (goOn_log s task c channel v) d

theorem goOn_accepted_of_none (h : (entry c v).bind Done.accepted = none) (d : Side) :
    (s.goOn task c channel v).accepted d = s.accepted d := by
  rw [goOn_accepted, h]
  exact List.append_nil _

theorem goOn_received_of_none (h : (entry c v).bind Done.taken = none) (d : Side) :
    (s.goOn task c channel v).received d = s.received d := by
  rw [goOn_received]
  have hnone : ((entry c v).filter fun e => e.call.op.receives = some d).bind Done.taken = none := by
    rcases hv : entry c v with _ | e
    · rfl
    · rw [hv] at h
      by_cases hd : e.call.op.receives = some d
      · simpa [Option.filter, hd] using h
      · simp [Option.filter, hd]
  rw [hnone]
  exact List.append_nil _

/-- A report that an end is closed is a section's own, or was there before. -/
theorem mem_log_report {e : Done μ} (he : e ∈ (s.goOn task c channel v).log)
    (ho : e.outcome = .received (.error .channelClosed)) :
    e ∈ s.log ∨ (e.call = c ∧ v.outcome = some (.received (.error .channelClosed))) := by
  rcases mem_goOn_log.mp he with he | ⟨o, hout, rfl⟩
  · exact .inl he
  · exact .inr ⟨rfl, hout.trans (congrArg some ho)⟩

variable {ch : Channel (Parcel μ)}

/-- The sends in progress still have their messages after the section too. -/
def KeepsPending (v : Verdict (Parcel μ)) : Prop :=
  ∀ next p pending, v.next = some next → next.sends = some (p, pending) → pending.isSome = true

theorem Flow.goOn_pending (h : Flow s) (hkeep : KeepsPending v) {t : TaskId} {c' : Call μ}
    {pt : Point (Parcel μ)} {pending : Option (Parcel μ)}
    (ht : ((s.goOn task c channel v).pc t).resume = some (c', pt))
    (hs : pt.sends = some (p, pending)) : pending.isSome = true := by
  rcases goOn_resume ht with ⟨-, -, hnext⟩ | ⟨-, ht⟩
  · exact hkeep pt p pending hnext hs
  · exact h.pending ht hs

/-- A section that moves no message. -/
theorem Flow.keep (h : Flow s) (hch : s.channel = some ch)
    (hacc : (entry c v).bind Done.accepted = none) (htaken : (entry c v).bind Done.taken = none)
    (hkeep : KeepsPending v)
    (hreport : v.outcome = some (.received (.error .channelClosed)) → ∀ d,
      c.op.receives = some d → ch.queues d = [] ∧ ch.closed d.peer = true)
    (hchannel : ∀ ch', channel = some ch' → ch'.queues = ch.queues ∧ ch'.sync = ch.sync ∧
      ∀ p, ch.closed p = true → ch'.closed p = true) : Flow (s.goOn task c channel v) := by
  refine ⟨?_, ?_, h.goOn_pending hkeep, ?_⟩
  · intro ch' hch'
    rw [goOn_channel] at hch'
    rcases hchannel ch' hch' with ⟨hq, hsync, -⟩
    refine ⟨hsync.trans (h.live hch).1, ?_⟩
    intro d
    rw [goOn_accepted_of_none hacc, goOn_received_of_none htaken, hq]
    exact (h.live hch).2 d
  · intro d
    rw [goOn_accepted_of_none hacc, goOn_received_of_none htaken]
    exact h.received d
  · intro e d he hr ho
    rw [goOn_accepted_of_none hacc, goOn_received_of_none htaken, goOn_channel]
    rcases mem_log_report he ho with he | ⟨rfl, hv⟩
    · refine ⟨(h.drained he hr ho).1, ?_⟩
      intro ch' hch'
      rcases hchannel ch' hch' with ⟨hq, -, hclosed⟩
      rcases (h.drained he hr ho).2 ch hch with ⟨hpeer, hempty⟩
      exact ⟨hclosed _ hpeer, hq ▸ hempty⟩
    · rcases hreport hv d hr with ⟨hempty, hpeer⟩
      refine ⟨?_, ?_⟩
      · have hlive := ((h.live hch).2 d).1
        rw [hempty, List.append_nil] at hlive
        exact hlive.symm
      · intro ch' hch'
        rcases hchannel ch' hch' with ⟨hq, -, hclosed⟩
        exact ⟨hclosed _ hpeer, hq ▸ hempty⟩

/-- A section that accepts a message. -/
theorem Flow.put (h : Flow s) (hch : s.channel = some ch) {x : Parcel μ}
    (hx : c.parcel = some x) (hside : x.side = p) (hopen : ch.shut p = false)
    (hroom : (ch.queues p.peer).length < maxQueueDepth)
    (hv : v.outcome = some (.sent (.ok ()))) :
    Flow (s.goOn task c (some (ch.deliver p (some x)).2) v) := by
  have hentry : entry c v = some ⟨c, .sent (.ok ())⟩ := by rw [entry, hv]; rfl
  have hacc : (entry c v).bind Done.accepted = some x := by rw [hentry]; exact hx
  have htaken : (entry c v).bind Done.taken = none := by rw [hentry]; rfl
  have hsync := (h.live hch).1
  have hqueues := ch.deliver_queues p hsync x
  have haccepted : ∀ d, (s.goOn task c (some (ch.deliver p (some x)).2) v).accepted d =
      s.accepted d ++ if p.peer = d then [x] else [] := by
    intro d
    rw [goOn_accepted, hacc]
    by_cases hd : p.peer = d
    · simp [Option.filter, hside, hd]
    · simp [Option.filter, hside, hd]
  refine ⟨?_, ?_, ?_, ?_⟩
  · intro ch' hch'
    rw [goOn_channel] at hch'
    cases hch'
    refine ⟨(ch.deliver_fields p (some x)).2.2.2.2.trans hsync, ?_⟩
    intro d
    rw [haccepted, goOn_received_of_none htaken, hqueues]
    rcases (h.live hch).2 d with ⟨heq, hlen⟩
    by_cases hd : p.peer = d
    · subst hd
      rw [if_pos rfl, update_self, heq, List.append_assoc]
      refine ⟨rfl, ?_⟩
      rw [List.length_append, List.length_singleton]
      exact hroom
    · rw [if_neg hd, List.append_nil, update_of_ne (Ne.symm hd)]
      exact ⟨heq, hlen⟩
  · intro d
    rw [haccepted, goOn_received_of_none htaken]
    exact (h.received d).trans (List.prefix_append _ _)
  · refine fun ht hs => h.goOn_pending ?_ ht hs
    intro next q pending hnext
    rw [Verdict.next_of_outcome hv] at hnext
    cases hnext
  · intro e d he hr ho
    rw [haccepted, goOn_received_of_none htaken, goOn_channel]
    rcases mem_log_report he ho with he | ⟨-, hout⟩
    · rcases h.drained he hr ho with ⟨heq, hclosed⟩
      rcases hclosed ch hch with ⟨hpeer, hempty⟩
      -- An end whose closing was reported refuses every send.
      have hne : p.peer ≠ d := by
        rintro rfl
        rw [Side.peer_peer] at hpeer
        rw [Channel.shut, hpeer] at hopen
        cases hopen
      rw [if_neg hne, List.append_nil]
      refine ⟨heq, ?_⟩
      intro ch' hch'
      cases hch'
      rw [hqueues, update_of_ne (Ne.symm hne), (ch.deliver_fields p (some x)).2.1]
      exact ⟨hpeer, hempty⟩
    · rw [hv] at hout
      cases hout

/-- A section that takes the message at the front of a queue. -/
theorem Flow.got (h : Flow s) (hch : s.channel = some ch) {d : Side} {x : Parcel μ}
    {rest : List (Parcel μ)} (hop : c.op.receives = some d) (hq : ch.queues d = x :: rest)
    (hv : v.outcome = some (.received (.ok (some x)))) {ch' : Channel (Parcel μ)}
    (hqueues : ch'.queues = update ch.queues d rest) (hsync : ch'.sync = ch.sync)
    (hclosed : ch'.closed = ch.closed) : Flow (s.goOn task c (some ch') v) := by
  have hentry : entry c v = some ⟨c, .received (.ok (some x))⟩ := by rw [entry, hv]; rfl
  have hacc : (entry c v).bind Done.accepted = none := by rw [hentry]; rfl
  have hreceived : ∀ e, (s.goOn task c (some ch') v).received e =
      s.received e ++ if d = e then [x] else [] := by
    intro e
    rw [goOn_received, hentry]
    by_cases he : d = e
    · simp [Option.filter, hop, he, Done.taken]
    · simp [Option.filter, hop, he]
  have hlive : ∀ e, s.accepted e = (s.received e ++ if d = e then [x] else []) ++ ch'.queues e ∧
      (ch'.queues e).length ≤ maxQueueDepth := by
    intro e
    rcases (h.live hch).2 e with ⟨heq, hlen⟩
    rw [hqueues]
    by_cases he : d = e
    · subst he
      rw [if_pos rfl, update_self, heq, hq, List.append_assoc]
      rw [hq, List.length_cons] at hlen
      exact ⟨rfl, Nat.le_of_succ_le hlen⟩
    · rw [if_neg he, List.append_nil, update_of_ne (Ne.symm he)]
      exact ⟨heq, hlen⟩
  refine ⟨?_, ?_, ?_, ?_⟩
  · intro ch₁ hch₁
    rw [goOn_channel] at hch₁
    cases hch₁
    refine ⟨hsync.trans (h.live hch).1, ?_⟩
    intro e
    rw [goOn_accepted_of_none hacc, hreceived]
    exact hlive e
  · intro e
    rw [goOn_accepted_of_none hacc, hreceived, (hlive e).1]
    exact List.prefix_append _ _
  · refine fun ht hs => h.goOn_pending ?_ ht hs
    intro next q pending hnext
    rw [Verdict.next_of_outcome hv] at hnext
    cases hnext
  · intro e f he hr ho
    rw [goOn_accepted_of_none hacc, hreceived, goOn_channel]
    rcases mem_log_report he ho with he | ⟨-, hout⟩
    · rcases h.drained he hr ho with ⟨heq, hall⟩
      rcases hall ch hch with ⟨hpeer, hempty⟩
      have hne : d ≠ f := by
        rintro rfl
        rw [hq] at hempty
        cases hempty
      rw [if_neg hne, List.append_nil]
      refine ⟨heq, ?_⟩
      intro ch₁ hch₁
      cases hch₁
      rw [hqueues, update_of_ne (Ne.symm hne), hclosed]
      exact ⟨hpeer, hempty⟩
    · rw [hv] at hout
      cases hout

end

variable {ch : Channel (Parcel μ)}

theorem park_async (h : ch.sync = false) (p : Side)
    (pending : Option (Parcel μ)) : ch.park p pending = (pending, ch) := by
  simp [Channel.park, h]

theorem accepts_async (h : ch.sync = false)
    (hacc : ch.accepts p = true) : (ch.queues p.peer).length < maxQueueDepth := by
  simpa [Channel.accepts, h] using hacc

theorem takeMessage_async_none (h : ch.sync = false) {d : Side}
    (htake : ch.takeMessage d = none) : ch.queues d = [] := by
  rw [ch.takeMessage_async h] at htake
  rcases hq : ch.queues d with _ | ⟨x, rest⟩
  · rfl
  · rw [hq] at htake
    cases htake

theorem takeMessage_async_some {ch ch' : Channel (Parcel μ)} (h : ch.sync = false) {d : Side}
    {x : Parcel μ} (htake : ch.takeMessage d = some (x, ch')) : ∃ rest, ch.queues d = x :: rest ∧
      ch' = { ch with queues := update ch.queues d rest } := by
  rw [ch.takeMessage_async h] at htake
  rcases hq : ch.queues d with _ | ⟨y, rest⟩
  · rw [hq] at htake
    cases htake
  · rw [hq] at htake
    cases htake
    exact ⟨rest, rfl, rfl⟩

variable {task : TaskId}

theorem Flow.send (h : Flow s) {expired : Bool}
    {pt : Point (Parcel μ)} (hopen : (s.pc task).resume = some (c, pt)) (hfits : Fits c pt)
    {ch ch' : Channel (Parcel μ)} (hch : s.channel = some ch)
    {pending : Option (Parcel μ)} (hs : pt.sends = some (p, pending)) {v : Verdict (Parcel μ)}
    (hstep : SendStep ch task expired pt p pending v ch') :
    Flow (s.goOn task c (some ch') v) := by
  rcases hfits.sends hs with ⟨x, hx, hside, hpend⟩
  obtain ⟨y, rfl⟩ := Option.isSome_iff_exists.mp (h.pending hopen hs)
  obtain rfl := hpend y rfl
  have hsync := (h.live hch).1
  have hrefuse : ∀ {ch' : Channel (Parcel μ)} {v : Verdict (Parcel μ)} {e : KernelError},
      v = .ret (.sent (.error e)) [] none → ch'.queues = ch.queues → ch'.sync = ch.sync →
      ch'.closed = ch.closed → Flow (s.goOn task c (some ch') v) := by
    rintro ch' v e rfl hq hsync' hclosed
    refine h.keep hch rfl rfl (fun _ _ _ hnext => (nomatch hnext)) (fun hv => (nomatch hv)) ?_
    rintro ch₁ hch₁
    cases hch₁
    exact ⟨hq, hsync', fun q hq => hclosed ▸ hq⟩
  cases hstep with
  | refused => exact hrefuse rfl rfl rfl rfl
  | closed => exact hrefuse rfl (by simp) (by simp) (by simp)
  | expired =>
    refine hrefuse rfl ?_ ?_ ?_ <;> simp [park_async hsync, Channel.registerSender]
  | delivered hopen' hacc _ => exact h.put hch hx hside hopen' (accepts_async hsync hacc) rfl
  | found hsync' => exact absurd (hsync.symm.trans hsync') (by decide)
  | waits _ _ hnext =>
    rw [park_async hsync] at hnext ⊢
    refine h.keep hch rfl rfl ?_ (fun hv => (nomatch hv)) ?_
    · intro next q pending hn hsends
      cases hn
      obtain ⟨-, rfl⟩ := Prod.mk.inj (Option.some.inj (hnext.symm.trans hsends))
      rfl
    · intro ch₁ hch₁
      cases hch₁
      exact ⟨rfl, rfl, fun _ => id⟩
  | goes hnext =>
    refine h.keep hch rfl rfl ?_ (fun hv => (nomatch hv)) ?_
    · intro next q pending hn hsends
      cases hn
      obtain ⟨-, rfl⟩ := Prod.mk.inj (Option.some.inj (hnext.symm.trans hsends))
      rfl
    · intro ch₁ hch₁
      cases hch₁
      exact ⟨rfl, rfl, fun _ => id⟩

theorem Flow.receive (h : Flow s) {expired : Bool}
    {pt : Point (Parcel μ)} (hfits : Fits c pt) {ch ch' : Channel (Parcel μ)}
    (hch : s.channel = some ch) {d : Side} (hr : pt.receives = some d) {v : Verdict (Parcel μ)}
    (hstep : RecvStep ch task expired pt d v ch') : Flow (s.goOn task c (some ch') v) := by
  have hop : c.op.receives = some d := hfits.receives.symm.trans hr
  have hsync := (h.live hch).1
  have hsame : ∀ ch₁ : Channel (Parcel μ), some ch = some ch₁ → ch₁.queues = ch.queues ∧
      ch₁.sync = ch.sync ∧ ∀ p, ch.closed p = true → ch₁.closed p = true := by
    intro ch₁ hch₁
    cases hch₁
    exact ⟨rfl, rfl, fun _ => id⟩
  cases hstep with
  | got htake wasFull =>
    rcases takeMessage_async_some hsync htake with ⟨rest, hq, rfl⟩
    exact h.got hch hop hq rfl (by simp) (by simp) (by simp)
  | closed htake hclosed =>
    refine h.keep hch rfl rfl (fun _ _ _ hnext => (nomatch hnext)) ?_ hsame
    intro _ e he
    obtain rfl := Option.some.inj (hop.symm.trans he)
    exact ⟨takeMessage_async_none hsync htake, hclosed⟩
  | nothing _ hr' =>
    rcases hr' with rfl | rfl
    · exact h.keep hch rfl rfl (fun _ _ _ hnext => (nomatch hnext)) (fun hv => (nomatch hv)) hsame
    · exact h.keep hch rfl rfl (fun _ _ _ hnext => (nomatch hnext)) (fun hv => (nomatch hv)) hsame
  | waits _ _ _ hnext =>
    refine h.keep hch rfl rfl ?_ (fun hv => (nomatch hv)) ?_
    · intro next q pending hn hsends
      cases hn
      rcases hnext with rfl | rfl <;> cases hsends
    · intro ch₁ hch₁
      cases hch₁
      exact ⟨rfl, rfl, fun _ => id⟩
  | goes =>
    refine h.keep hch rfl rfl ?_ (fun hv => (nomatch hv)) hsame
    intro next q pending hn hsends
    cases hn
    cases hsends

theorem Flow.holder (h : Flow s)
    {pt : Point (Parcel μ)} (hch : s.channel = some ch)
    {v : Verdict (Parcel μ)} {channel : Option (Channel (Parcel μ))}
    (hstep : HolderStep ch pt v channel) : Flow (s.goOn task c channel v) := by
  cases hstep with
  | count r refs _ =>
    refine h.keep hch rfl rfl (fun _ _ _ hnext => (nomatch hnext)) (fun hv => (nomatch hv)) ?_
    intro ch₁ hch₁
    cases hch₁
    exact ⟨rfl, rfl, fun _ => id⟩
  | @last p =>
    refine h.keep hch rfl rfl (fun _ _ _ hnext => (nomatch hnext)) (fun hv => (nomatch hv)) ?_
    intro ch₁ hch₁
    cases hch₁
    refine ⟨rfl, rfl, ?_⟩
    intro q hq
    show update ch.closed p true q = true
    by_cases hqp : q = p
    · subst hqp
      exact update_self ..
    · rw [update_of_ne hqp]
      exact hq
  | gone =>
    exact h.keep hch rfl rfl (fun _ _ _ hnext => (nomatch hnext)) (fun hv => (nomatch hv))
      fun _ hch₁ => (nomatch hch₁)

/-- A call that finds the channel gone. -/
theorem Flow.missing (h : Flow s)
    (pt : Point (Parcel μ)) : Flow (s.goOn task c none (.ret pt.missing [] none)) := by
  have hacc : (entry c (.ret pt.missing [] none)).bind Done.accepted = none := by cases pt <;> rfl
  have htaken : (entry c (.ret pt.missing [] none)).bind Done.taken = none := by cases pt <;> rfl
  refine ⟨fun hlive => (nomatch hlive), ?_, ?_, ?_⟩
  · intro d
    rw [goOn_accepted_of_none hacc, goOn_received_of_none htaken]
    exact h.received d
  · refine fun ht hs => h.goOn_pending ?_ ht hs
    intro next q pending hnext
    cases hnext
  · intro e d he hr ho
    rw [goOn_accepted_of_none hacc, goOn_received_of_none htaken]
    rcases mem_log_report he ho with he | ⟨-, hout⟩
    · refine ⟨(h.drained he hr ho).1, ?_⟩
      intro ch hlive
      rw [goOn_channel] at hlive
      cases hlive
    · cases pt <;> cases hout

/-- The flow of messages survives every step. -/
theorem Flow.step {s s' : State μ} (h : Flow s) (ho : Orderly s) {a : Action μ}
    (hs : s.step a = some s') : Flow s' := by
  rcases step_cases hs with hq | ⟨task, op, -, -, rfl⟩ | ⟨task, expired, c, pt, -, hpc, rfl⟩
  · exact h.quiet hq
  · exact h.begin task op
  · have hopen : (s.pc task).resume = some (c, pt) := by rw [hpc]; rfl
    have hfits := ho.fits hopen
    unfold State.enter
    rcases hch : s.channel with _ | ch
    · exact h.missing pt
    · show Flow (s.goOn task c (pt.onChannel ch task expired).2 (pt.onChannel ch task expired).1)
      rcases hsends : pt.sends with _ | ⟨p, pending⟩
      · rcases hrecv : pt.receives with _ | d
        · exact h.holder hch (holderStep _ _ _ hsends hrecv)
        · rcases recvStep ch task expired hrecv with ⟨v, ch', hv, hstep⟩
          rw [hv]
          exact h.receive hfits hch hrecv hstep
      · rcases sendStep ch task expired hsends with ⟨v, ch', hv, hstep⟩
        rw [hv]
        exact h.send hopen hfits hch hsends hstep

/-! ## Delivery -/

/-- What a buffered channel promises for a side: the messages received are the first of the messages
whose sends returned `Ok`, each call's once; the queue is bounded; and the end is reported only when
everything accepted was received. -/
structure Delivers (s : State μ) (d : Side) : Prop where
  inOrder : s.received d <+: s.accepted d
  once : ((s.accepted d).map Parcel.call).Nodup
  bounded : ∀ ch, s.channel = some ch → (ch.queues d).length ≤ maxQueueDepth
  drained : ∀ e ∈ s.log, e.call.op.receives = some d →
    e.outcome = .received (.error .channelClosed) → s.received d = s.accepted d

theorem accepted_calls_sublist (s : State μ) (d : Side) :
    ((s.accepted d).map Parcel.call).Sublist (s.log.map fun e => e.call.id) := by
  have hall : ((s.log.filterMap Done.accepted).map Parcel.call).Sublist
      (s.log.map fun e => e.call.id) := by
    induction s.log with
    | nil => exact List.Sublist.slnil
    | cons e log ih =>
      rcases hacc : e.accepted with _ | x
      · rw [List.filterMap_cons_none hacc]
        exact ih.cons _
      · have hcall : x.call = e.call.id := by
          unfold Done.accepted at hacc
          split at hacc
          · exact parcel_call hacc
          · cases hacc
        rw [List.filterMap_cons_some hacc, List.map_cons, List.map_cons, hcall]
        exact ih.cons_cons _
  exact (List.filter_sublist.map _).trans hall

theorem reach_flow (h : Reach State.step (fun s => s = State.start .new) s) :
    Orderly s ∧ Flow s := by
  refine h.invariant (I := fun s => Orderly s ∧ Flow s) ?_ ?_
  · rintro s rfl
    exact ⟨.start _, .start⟩
  · rintro s a s' ⟨ho, hf⟩ - hs
    exact ⟨ho.step hs, hf.step ho hs⟩

/-- **Delivery on a buffered channel**, in every run of any tasks on its two ends. -/
theorem async_delivery {s : State μ} (h : Reach State.step (fun s => s = State.start .new) s)
    (d : Side) : Delivers s d := by
  rcases reach_flow h with ⟨ho, hf⟩
  exact {
    inOrder := hf.received d
    once := ho.settled_nodup.sublist (accepted_calls_sublist s d)
    bounded := fun ch hch => ((hf.live hch).2 d).2
    drained := fun e he hr hout => (hf.drained he hr hout).1 }

/-- Two messages from side 0: one is received and the other is left when the end closes. -/
def twoMessages : List (Action Nat) :=
  [.call 1 (.send .zero 7), .move 1 false, .call 2 (.recv .one), .move 1 false, .move 1 false,
    .call 1 (.sendBlocking .zero 8), .move 2 false, .move 1 false, .call 3 (.close .zero),
    .move 3 false]

theorem async_delivery_twoMessages : ∃ s : State Nat,
    run State.step (.start .new) twoMessages = some s ∧ s.received .one = [⟨0, .zero, 7⟩] ∧
    s.accepted .one = [⟨0, .zero, 7⟩, ⟨2, .zero, 8⟩] ∧ Delivers s .one := by
  have hlists : (run State.step (.start .new) twoMessages).map
      (fun s => (s.received .one, s.accepted .one)) =
      some ([⟨0, .zero, 7⟩], [⟨0, .zero, 7⟩, ⟨2, .zero, 8⟩]) := by decide +kernel
  rw [Option.map_eq_some_iff] at hlists
  rcases hlists with ⟨s, hs, hpair⟩
  obtain ⟨hreceived, haccepted⟩ := Prod.mk.inj hpair
  exact ⟨s, hs, hreceived, haccepted, async_delivery (Reach.of_run (.start rfl) hs) .one⟩

end SlateOS.Ipc.System
