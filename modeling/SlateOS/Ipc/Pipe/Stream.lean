/-
# SlateOS.Ipc.Pipe.Stream -- any number of writers and readers of one pipe

`write_with` and `read_with` of `kernel/src/ipc/pipe.rs` look at the pipe under the table's lock, again
and again until they return; one look is one step here, and between two looks anything may happen. A
call that parked may look again at any time: waking it too often is more interleavings, not fewer. The
two logs record what each look moved, under the number of its call.
-/
import SlateOS.Foundation.Runs
import SlateOS.Ipc.Pipe.Ring

namespace SlateOS.Ipc.Pipe

open Foundation.Runs Kernel
open Function (update update_self update_of_ne)

/-! ## One look -/

/-- `WriteFrom`. -/
inductive WriteFrom
  | data (bytes : List UInt8)
  | probe
  deriving DecidableEq

/-- `ReadInto`: a buffer is its length. -/
inductive ReadInto
  | buffer (room : Nat)
  | probe
  deriving DecidableEq

/-- What the clock and the signals say during a look. -/
structure Env where
  armed : Bool
  expired : Bool
  signal : Bool

/-- How a look ends. -/
inductive Next
  | ret (result : KernelResult Nat)
  | again (done : Nat)
  | park
  deriving DecidableEq

/-- A look: how it ends, the bytes it moved, the tasks it wakes, and the pipe. -/
structure Look where
  next : Next
  moved : List UInt8
  wakes : WaiterSet
  pipe : Pipe

/-- The answer when nothing more goes in: the count so far, or the error if there is none. -/
def soFar (done : Nat) (e : KernelError) : KernelResult Nat := if done > 0 then .ok done else .error e

/-- The end of a look of `write_with` that found no room. -/
def writeWait (p : Pipe) (task : Nat) (patience : Patience) (done : Nat) (env : Env) : Look :=
  match patience.endsNow env.armed env.expired with
  | some e => ⟨.ret (soFar done e), [], [], p⟩
  | none =>
    if env.signal then ⟨.ret (soFar done .interrupted), [], [], p⟩
    else ⟨.park, [], [], { p with writerWaiters := p.writerWaiters.insert task }⟩

/-- Whether `write_with` puts anything in: a write of at most `PIPE_BUF` bytes only whole. -/
def fits (p : Pipe) (bytes rest : List UInt8) : Bool :=
  if bytes.length ≤ pipeBuf then p.writable ≥ rest.length else p.writable > 0

/-- One look of `write_with`. -/
def writeLook (p : Pipe) (task : Nat) (src : WriteFrom) (patience : Patience) (done : Nat)
    (env : Env) : Look :=
  let p := { p with writerWaiters := WaiterSet.remove p.writerWaiters task }
  if p.readClosed then ⟨.ret (soFar done .channelClosed), [], [], p⟩
  else
    match src with
    | .data bytes =>
      let rest := bytes.drop done
      if p.fits bytes rest then
        let r := p.writeBytes rest
        let done := done + r.1
        ⟨if done ≥ bytes.length then .ret (.ok done) else .again done, rest.take r.1,
          r.2.readerWaiters, { r.2 with readerWaiters := [] }⟩
      else writeWait p task patience done env
    | .probe => if p.writable > 0 then ⟨.ret (.ok 1), [], [], p⟩ else writeWait p task patience done env

/-- The end of a look of `read_with` that found no bytes. -/
def readWait (p : Pipe) (task : Nat) (patience : Patience) (env : Env) : Look :=
  if p.writeClosed then ⟨.ret (.ok 0), [], [], p⟩
  else
    match patience.endsNow env.armed env.expired with
    | some e => ⟨.ret (.error e), [], [], p⟩
    | none =>
      if env.signal then ⟨.ret (.error .interrupted), [], [], p⟩
      else ⟨.park, [], [], { p with readerWaiters := p.readerWaiters.insert task }⟩

/-- One look of `read_with`. -/
def readLook (p : Pipe) (task : Nat) (into : ReadInto) (patience : Patience) (env : Env) : Look :=
  let p := { p with readerWaiters := WaiterSet.remove p.readerWaiters task }
  match into with
  | .buffer room =>
    let r := p.readBytes room
    if r.1.length > 0 then
      ⟨.ret (.ok r.1.length), r.1, r.2.writerWaiters, { r.2 with writerWaiters := [] }⟩
    else readWait p task patience env
  | .probe => if p.readable > 0 then ⟨.ret (.ok 1), [], [], p⟩ else readWait p task patience env

/-- `set_capacity` on a pipe that is there; `allocated` is whether the new buffer could be had. -/
def resize (p : Pipe) (newCap : Nat) (allocated : Bool) : KernelResult Nat × Pipe :=
  if newCap > maxPipeBufferCapacity then (.error .invalidArgument, p)
  else if allocated then p.setCapacity newCap
  else (.error .outOfMemory, p)

/-! ## The calls -/

/-- A call. -/
inductive Call
  | write (task : Nat) (src : WriteFrom) (patience : Patience)
  | read (task : Nat) (into : ReadInto) (patience : Patience)

/-- A call under way, with what it has done so far, or returned. -/
inductive Progress
  | running (done : Nat)
  | returned (result : KernelResult Nat)

/-- The checks before the first look. -/
def accept (h : PipeHandle) : Call → Progress
  | .write _ src _ =>
    if h.writes = false then .returned (.error .invalidHandle)
    else if src = .data [] then .returned (.error .invalidArgument)
    else .running 0
  | .read _ into _ =>
    if h.reads = false then .returned (.error .invalidHandle)
    else if into = .buffer 0 then .returned (.error .invalidArgument)
    else .running 0

/-- One look of a call. -/
def lookOf (p : Pipe) (done : Nat) (env : Env) : Call → Look
  | .write task src patience => p.writeLook task src patience done env
  | .read task into patience => p.readLook task into patience env

/-- What a look leaves of its call. -/
def Next.progress (done : Nat) : Next → Progress
  | .ret result => .returned result
  | .again done => .running done
  | .park => .running done

/-- Whether a call is a write. -/
def Call.isWrite : Call → Bool
  | .write .. => true
  | .read .. => false

/-- The pipe, the calls made on it by number, what the writes put in and what the reads took out. -/
structure Stream where
  pipe : Pipe
  calls : Nat → Option (Call × Progress)
  nextCall : Nat
  accepted : List (Nat × List UInt8)
  taken : List (Nat × List UInt8)

/-- A step. -/
inductive Act
  | call (h : PipeHandle) (c : Call)
  | look (n : Nat) (env : Env)
  | peek (h : PipeHandle) (offset room : Nat)
  | setCapacity (newCap : Nat) (allocated : Bool)
  | setEnds (readClosed writeClosed : Bool)

/-- An entry of a log, if anything moved. -/
def logged (n : Nat) (moved : List UInt8) : List (Nat × List UInt8) :=
  if moved = [] then [] else [(n, moved)]

/-- One step; ends open and close as they like. -/
def step (s : Stream) : Act → Option Stream
  | .call h c =>
    some { s with
      calls := update s.calls s.nextCall (some (c, accept h c))
      nextCall := s.nextCall + 1 }
  | .look n env =>
    match s.calls n with
    | some (c, .running done) =>
      let l := s.pipe.lookOf done env c
      some { s with
        pipe := l.pipe
        calls := update s.calls n (some (c, l.next.progress done))
        accepted := if c.isWrite then s.accepted ++ logged n l.moved else s.accepted
        taken := if c.isWrite then s.taken else s.taken ++ logged n l.moved }
    | _ => none
  | .peek .. => some s
  | .setCapacity newCap allocated => some { s with pipe := (s.pipe.resize newCap allocated).2 }
  | .setEnds readClosed writeClosed => some { s with pipe := { s.pipe with readClosed, writeClosed } }

/-- A pipe from `create` or `fifo_create`, no call made yet. -/
def Start (s : Stream) : Prop :=
  (s.pipe = .new defaultBufferCapacity ∨ ∃ fileId, s.pipe = PipeTable.fifoPipe fileId) ∧
    s.calls = (fun _ => none) ∧ s.nextCall = 0 ∧ s.accepted = [] ∧ s.taken = []

/-- The bytes of a log. -/
def logBytes (log : List (Nat × List UInt8)) : List UInt8 := log.flatMap Prod.snd

/-- The chunks a call moved. -/
def chunksOf (n : Nat) (log : List (Nat × List UInt8)) : List (List UInt8) :=
  (log.filter (·.1 = n)).map Prod.snd

/-! ## What a look does -/

variable {p : Pipe}

/-- A look that moves nothing. -/
def Idle (p : Pipe) (l : Look) : Prop := l.moved = [] ∧ l.pipe.Ring ∧ l.pipe.contents = p.contents

theorem writeWait_idle (h : p.Ring) (task : Nat) (patience : Patience) (done : Nat) (env : Env) :
    Idle p (p.writeWait task patience done env) ∧
      ((p.writeWait task patience done env).next = .park ∨
        ∃ e, (p.writeWait task patience done env).next = .ret (soFar done e)) := by
  unfold writeWait
  split
  · exact ⟨⟨rfl, h, rfl⟩, .inr ⟨_, rfl⟩⟩
  · split
    · exact ⟨⟨rfl, h, rfl⟩, .inr ⟨_, rfl⟩⟩
    · exact ⟨⟨rfl, ⟨h.len_le, h.head_lt⟩, rfl⟩, .inl rfl⟩

theorem readWait_idle (h : p.Ring) (task : Nat) (patience : Patience) (env : Env) :
    Idle p (p.readWait task patience env) ∧
      ((p.readWait task patience env).next = .park ∨
        (p.readWait task patience env).next = .ret (.ok 0) ∨
        ∃ e, (p.readWait task patience env).next = .ret (.error e)) := by
  unfold readWait
  split
  · exact ⟨⟨rfl, h, rfl⟩, .inr (.inl rfl)⟩
  · split
    · exact ⟨⟨rfl, h, rfl⟩, .inr (.inr ⟨_, rfl⟩)⟩
    · split
      · exact ⟨⟨rfl, h, rfl⟩, .inr (.inr ⟨_, rfl⟩)⟩
      · exact ⟨⟨rfl, ⟨h.len_le, h.head_lt⟩, rfl⟩, .inl rfl⟩

/-- A look of a write that moves `k` bytes. -/
def Puts (bytes : List UInt8) (done k : Nat) (l : Look) : Prop :=
  0 < k ∧ k ≤ bytes.length - done ∧ l.moved = (bytes.drop done).take k ∧
    (bytes.length ≤ pipeBuf → k = bytes.length - done) ∧
    l.next = if done + k ≥ bytes.length then .ret (.ok (done + k)) else .again (done + k)

/-- A write puts some of its bytes behind the contents, all of them if they are few, or nothing. -/
theorem writeLook_data (h : p.Ring) (task : Nat) {bytes : List UInt8} {done : Nat}
    (hdone : done < bytes.length) (patience : Patience) (env : Env) :
    (p.writeLook task (.data bytes) patience done env).pipe.Ring ∧
      (p.writeLook task (.data bytes) patience done env).pipe.contents =
        p.contents ++ (p.writeLook task (.data bytes) patience done env).moved ∧
      (((p.writeLook task (.data bytes) patience done env).moved = [] ∧
          ((p.writeLook task (.data bytes) patience done env).next = .park ∨
            ∃ e, (p.writeLook task (.data bytes) patience done env).next = .ret (soFar done e))) ∨
        ∃ k, Puts bytes done k (p.writeLook task (.data bytes) patience done env)) := by
  have h' : Ring { p with writerWaiters := WaiterSet.remove p.writerWaiters task } :=
    ⟨h.len_le, h.head_lt⟩
  unfold writeLook
  simp only
  split
  · exact ⟨h', (List.append_nil _).symm, .inl ⟨rfl, .inr ⟨_, rfl⟩⟩⟩
  · split
    · rename_i hfits
      obtain ⟨hring, hcount, hcontents, -⟩ := h'.writeBytes (bytes.drop done)
      have hrest : (bytes.drop done).length = bytes.length - done := List.length_drop
      have hwritable : 0 < p.writable := by
        unfold fits at hfits
        split at hfits
        · have hle := of_decide_eq_true hfits
          exact Nat.lt_of_lt_of_le (by omega) hle
        · exact of_decide_eq_true hfits
      rw [hrest] at hcount
      refine ⟨⟨hring.len_le, hring.head_lt⟩, hcontents, .inr ⟨_, ?_, ?_, rfl, ?_, rfl⟩⟩
      · rw [hcount]
        exact Nat.lt_min.2 ⟨by omega, hwritable⟩
      · rw [hcount]
        exact Nat.min_le_left _ _
      · intro hsmall
        rw [fits, if_pos hsmall, hrest] at hfits
        rw [hcount]
        exact Nat.min_eq_left (of_decide_eq_true hfits)
    · obtain ⟨⟨hmoved, hring, hcontents⟩, hnext⟩ := writeWait_idle h' task patience done env
      refine ⟨hring, ?_, .inl ⟨hmoved, hnext⟩⟩
      rw [hmoved, hcontents, List.append_nil]
      rfl

theorem writeLook_probe (h : p.Ring) (task : Nat) (patience : Patience) (done : Nat) (env : Env) :
    Idle p (p.writeLook task .probe patience done env) := by
  have h' : Ring { p with writerWaiters := WaiterSet.remove p.writerWaiters task } :=
    ⟨h.len_le, h.head_lt⟩
  unfold writeLook
  simp only
  split
  · exact ⟨rfl, h', rfl⟩
  · split
    · exact ⟨rfl, h', rfl⟩
    · exact (writeWait_idle h' task patience done env).1

/-- A read takes bytes from the front of the contents, and says how many. -/
theorem readLook_buffer (h : p.Ring) (task room : Nat) (patience : Patience) (env : Env) :
    (p.readLook task (.buffer room) patience env).pipe.Ring ∧
      p.contents = (p.readLook task (.buffer room) patience env).moved ++
        (p.readLook task (.buffer room) patience env).pipe.contents ∧
      (((p.readLook task (.buffer room) patience env).moved = [] ∧
          ((p.readLook task (.buffer room) patience env).next = .park ∨
            (p.readLook task (.buffer room) patience env).next = .ret (.ok 0) ∨
            ∃ e, (p.readLook task (.buffer room) patience env).next = .ret (.error e))) ∨
        ((p.readLook task (.buffer room) patience env).moved ≠ [] ∧
          (p.readLook task (.buffer room) patience env).moved.length ≤ room ∧
          (p.readLook task (.buffer room) patience env).next =
            .ret (.ok (p.readLook task (.buffer room) patience env).moved.length))) := by
  have h' : Ring { p with readerWaiters := WaiterSet.remove p.readerWaiters task } :=
    ⟨h.len_le, h.head_lt⟩
  unfold readLook
  simp only
  obtain ⟨hring, hcount, hcontents, -⟩ := h'.readBytes room
  split
  · rename_i hsome
    refine ⟨⟨hring.len_le, hring.head_lt⟩, hcontents, .inr ⟨?_, ?_, rfl⟩⟩
    · exact List.ne_nil_of_length_pos hsome
    · rw [hcount]
      exact Nat.min_le_left _ _
  · obtain ⟨⟨hmoved, hring', hcontents'⟩, hnext⟩ := readWait_idle h' task patience env
    refine ⟨hring', ?_, .inl ⟨hmoved, hnext⟩⟩
    rw [hmoved, hcontents', List.nil_append]
    rfl

theorem readLook_probe (h : p.Ring) (task : Nat) (patience : Patience) (env : Env) :
    Idle p (p.readLook task .probe patience env) := by
  have h' : Ring { p with readerWaiters := WaiterSet.remove p.readerWaiters task } :=
    ⟨h.len_le, h.head_lt⟩
  unfold readLook
  simp only
  split
  · exact ⟨rfl, h', rfl⟩
  · exact (readWait_idle h' task patience env).1

theorem resize_spec (h : p.Ring) (newCap : Nat) (allocated : Bool) :
    (p.resize newCap allocated).2.Ring ∧ (p.resize newCap allocated).2.contents = p.contents := by
  unfold resize
  split
  · exact ⟨h, rfl⟩
  · split
    · exact ⟨(h.setCapacity newCap).1, (h.setCapacity newCap).2.1⟩
    · exact ⟨h, rfl⟩

/-! ## The logs -/

theorem logBytes_append (l m : List (Nat × List UInt8)) :
    logBytes (l ++ m) = logBytes l ++ logBytes m := List.flatMap_append

theorem logBytes_logged (n : Nat) (moved : List UInt8) : logBytes (logged n moved) = moved := by
  unfold logged
  split
  · rename_i hnone
    exact hnone.symm
  · simp [logBytes]

theorem chunksOf_append (n : Nat) (l m : List (Nat × List UInt8)) :
    chunksOf n (l ++ m) = chunksOf n l ++ chunksOf n m := by
  simp [chunksOf]

theorem chunksOf_logged_of_ne {n m : Nat} (h : n ≠ m) (moved : List UInt8) :
    chunksOf n (logged m moved) = [] := by
  unfold logged
  split
  · rfl
  · simp [chunksOf, Ne.symm h]

theorem chunksOf_logged_nil (n m : Nat) : chunksOf n (logged m []) = [] := rfl

theorem chunksOf_logged_self (n : Nat) {moved : List UInt8} (h : moved ≠ []) :
    chunksOf n (logged n moved) = [moved] := by
  simp [logged, h, chunksOf]

/-! ## The invariant -/

/-- What a write has put in, by how far it is. -/
def WriteTold (bytes : List UInt8) : Progress → List (List UInt8) → Prop
  | .running done, put =>
    put.flatten = bytes.take done ∧ done < bytes.length ∧ (done = 0 → put = []) ∧
      (bytes.length ≤ pipeBuf → done = 0)
  | .returned (.ok k), put =>
    put.flatten = bytes.take k ∧ k ≤ bytes.length ∧ (bytes.length ≤ pipeBuf → put = [bytes])
  | .returned (.error _), put => put = []

/-- What a read has taken out, by how far it is. -/
def ReadTold (room : Nat) : Progress → List (List UInt8) → Prop
  | .running _, got => got = []
  | .returned (.ok k), got => got.flatten.length = k ∧ k ≤ room
  | .returned (.error _), got => got = []

/-- What a call has put in and taken out. -/
def Told (prog : Progress) (put got : List (List UInt8)) : Call → Prop
  | .write _ (.data bytes) _ => WriteTold bytes prog put ∧ got = []
  | .write _ .probe _ => put = [] ∧ got = []
  | .read _ (.buffer room) _ => put = [] ∧ ReadTold room prog got
  | .read _ .probe _ => put = [] ∧ got = []

/-- What holds in every state of a run. -/
structure Inv (s : Stream) : Prop where
  ring : s.pipe.Ring
  fifo : logBytes s.taken ++ s.pipe.contents = logBytes s.accepted
  told : ∀ n c prog, s.calls n = some (c, prog) →
    Told prog (chunksOf n s.accepted) (chunksOf n s.taken) c
  fresh : ∀ n, s.nextCall ≤ n →
    s.calls n = none ∧ chunksOf n s.accepted = [] ∧ chunksOf n s.taken = []

theorem WriteTold.idle {bytes : List UInt8} {done : Nat} {put : List (List UInt8)} {next : Next}
    (h : WriteTold bytes (.running done) put)
    (hnext : next = .park ∨ ∃ e, next = .ret (soFar done e)) :
    WriteTold bytes (next.progress done) put := by
  obtain ⟨hput, hlt, hzero, hsmall⟩ := h
  rcases hnext with rfl | ⟨e, rfl⟩
  · exact ⟨hput, hlt, hzero, hsmall⟩
  · by_cases hdone : done > 0
    · rw [soFar, if_pos hdone]
      refine ⟨hput, Nat.le_of_lt hlt, fun hs => ?_⟩
      have := hsmall hs
      omega
    · rw [soFar, if_neg hdone]
      exact hzero (by omega)

theorem WriteTold.puts {bytes : List UInt8} {done k : Nat} {put : List (List UInt8)} {l : Look}
    (h : WriteTold bytes (.running done) put) (hl : Puts bytes done k l) :
    l.moved ≠ [] ∧ WriteTold bytes (l.next.progress done) (put ++ [l.moved]) := by
  obtain ⟨hput, hlt, hzero, hsmall⟩ := h
  obtain ⟨hpos, hle, hmoved, hwhole, hnext⟩ := hl
  have hflat : (put ++ [l.moved]).flatten = bytes.take (done + k) := by
    rw [List.flatten_append, hput, hmoved, List.take_add]
    simp
  have hne : l.moved ≠ [] := by
    refine List.ne_nil_of_length_pos ?_
    rw [hmoved, List.length_take, List.length_drop]
    omega
  refine ⟨hne, ?_⟩
  rw [hnext]
  split
  · refine ⟨hflat, by omega, fun hs => ?_⟩
    -- a small write went in at once
    have hdone := hsmall hs
    rw [hzero hdone, hmoved, hwhole hs, hdone]
    simp
  · rename_i hmore
    refine ⟨hflat, Nat.not_le.1 hmore, fun hsum => by omega, fun hs => ?_⟩
    have := hwhole hs
    omega

/-- A look keeps the call's account. -/
theorem lookOf_told {p : Pipe} (h : p.Ring) {c : Call} {done : Nat} (env : Env) (n : Nat)
    {accepted taken : List (Nat × List UInt8)}
    (htold : Told (.running done) (chunksOf n accepted) (chunksOf n taken) c) :
    (p.lookOf done env c).pipe.Ring ∧
      (if c.isWrite then
        (p.lookOf done env c).pipe.contents = p.contents ++ (p.lookOf done env c).moved
      else p.contents = (p.lookOf done env c).moved ++ (p.lookOf done env c).pipe.contents) ∧
      Told ((p.lookOf done env c).next.progress done)
        (chunksOf n (if c.isWrite then accepted ++ logged n (p.lookOf done env c).moved else accepted))
        (chunksOf n (if c.isWrite then taken else taken ++ logged n (p.lookOf done env c).moved)) c := by
  cases c with
  | write task src patience =>
    cases src with
    | data bytes =>
      obtain ⟨hput, hgot⟩ := htold
      obtain ⟨hring, hcontents, hmoves⟩ := writeLook_data h task hput.2.1 patience env
      refine ⟨hring, hcontents, ?_, hgot⟩
      show WriteTold bytes _ (chunksOf n (accepted ++ logged n
        (p.writeLook task (.data bytes) patience done env).moved))
      rw [chunksOf_append]
      rcases hmoves with ⟨hmoved, hnext⟩ | ⟨k, hk⟩
      · rw [hmoved, chunksOf_logged_nil, List.append_nil]
        exact hput.idle hnext
      · obtain ⟨hne, hafter⟩ := hput.puts hk
        rw [chunksOf_logged_self n hne]
        exact hafter
    | probe =>
      obtain ⟨hmoved, hring, hcontents⟩ := writeLook_probe h task patience done env
      refine ⟨hring, ?_, ?_, htold.2⟩
      · show (p.writeLook task .probe patience done env).pipe.contents =
          p.contents ++ (p.writeLook task .probe patience done env).moved
        rw [hmoved, hcontents, List.append_nil]
      · show chunksOf n (accepted ++ logged n (p.writeLook task .probe patience done env).moved) = []
        rw [hmoved, chunksOf_append, chunksOf_logged_nil, List.append_nil]
        exact htold.1
  | read task into patience =>
    cases into with
    | buffer room =>
      obtain ⟨hput, hgot⟩ := htold
      obtain ⟨hring, hcontents, hmoves⟩ := readLook_buffer h task room patience env
      refine ⟨hring, hcontents, hput, ?_⟩
      show ReadTold room _ (chunksOf n (taken ++ logged n
        (p.readLook task (.buffer room) patience env).moved))
      have hnone : chunksOf n taken = [] := hgot
      rw [chunksOf_append, hnone, List.nil_append]
      rcases hmoves with ⟨hmoved, hnext⟩ | ⟨hne, hroom, hnext⟩
      · rw [hmoved, chunksOf_logged_nil]
        show ReadTold room ((p.readLook task (.buffer room) patience env).next.progress done) []
        rcases hnext with hnext | hnext | ⟨e, hnext⟩
        · rw [hnext]
          rfl
        · rw [hnext]
          exact ⟨rfl, Nat.zero_le _⟩
        · rw [hnext]
          rfl
      · rw [chunksOf_logged_self n hne]
        show ReadTold room ((p.readLook task (.buffer room) patience env).next.progress done) _
        rw [hnext]
        exact ⟨by simp, hroom⟩
    | probe =>
      obtain ⟨hmoved, hring, hcontents⟩ := readLook_probe h task patience env
      refine ⟨hring, ?_, htold.1, ?_⟩
      · show p.contents = (p.readLook task .probe patience env).moved ++
          (p.readLook task .probe patience env).pipe.contents
        rw [hmoved, hcontents, List.nil_append]
      · show chunksOf n (taken ++ logged n (p.readLook task .probe patience env).moved) = []
        rw [hmoved, chunksOf_append, chunksOf_logged_nil, List.append_nil]
        exact htold.2

variable {s : Stream}

theorem accept_told (h : PipeHandle) (c : Call) : Told (accept h c) [] [] c := by
  cases c with
  | write task src patience =>
    cases src with
    | data bytes =>
      refine ⟨?_, rfl⟩
      simp only [accept]
      split
      · rfl
      · split
        · rfl
        · rename_i hdata
          have hne : bytes ≠ [] := fun hnil => hdata (by rw [hnil])
          exact ⟨by simp, List.length_pos_of_ne_nil hne, fun _ => rfl, fun _ => rfl⟩
    | probe => exact ⟨rfl, rfl⟩
  | read task into patience =>
    cases into with
    | buffer room =>
      refine ⟨rfl, ?_⟩
      simp only [accept]
      split
      · rfl
      · split
        · rfl
        · rfl
    | probe => exact ⟨rfl, rfl⟩

theorem inv_start (h : Start s) : Inv s := by
  obtain ⟨hpipe, hcalls, hnext, haccepted, htaken⟩ := h
  have hempty : s.pipe.Ring ∧ s.pipe.contents = [] := by
    rcases hpipe with hp | ⟨fileId, hp⟩
    · rw [hp]
      exact ⟨ring_new _, contents_new _⟩
    · rw [hp]
      have hring := ring_new defaultBufferCapacity
      exact ⟨⟨hring.len_le, hring.head_lt⟩, contents_new _⟩
  refine ⟨hempty.1, ?_, fun n c prog hn => ?_, fun n _ => ?_⟩
  · rw [hempty.2, haccepted, htaken]
    rfl
  · rw [hcalls] at hn
    cases hn
  · rw [hcalls, haccepted, htaken]
    exact ⟨rfl, rfl, rfl⟩

/-- A change of the pipe that keeps its contents. -/
theorem Inv.setPipe (h : Inv s) {p : Pipe} (hring : p.Ring) (hcontents : p.contents = s.pipe.contents) :
    Inv { s with pipe := p } where
  ring := hring
  fifo := by
    show logBytes s.taken ++ p.contents = logBytes s.accepted
    rw [hcontents, h.fifo]
  told := h.told
  fresh := h.fresh

theorem Inv.call (h : Inv s) (g : PipeHandle) (c : Call) :
    Inv { s with
      calls := update s.calls s.nextCall (some (c, accept g c))
      nextCall := s.nextCall + 1 } := by
  obtain ⟨-, hput, hgot⟩ := h.fresh s.nextCall (Nat.le_refl _)
  refine ⟨h.ring, h.fifo, fun n d prog hn => ?_, fun n hn => ?_⟩
  · change update s.calls s.nextCall (some (c, accept g c)) n = some (d, prog) at hn
    by_cases hnew : n = s.nextCall
    · subst hnew
      rw [update_self] at hn
      cases hn
      show Told _ (chunksOf s.nextCall s.accepted) (chunksOf s.nextCall s.taken) c
      rw [hput, hgot]
      exact accept_told g c
    · rw [update_of_ne hnew] at hn
      exact h.told n d prog hn
  · change s.nextCall + 1 ≤ n at hn
    obtain ⟨hnone, hrest⟩ := h.fresh n (Nat.le_of_succ_le hn)
    refine ⟨?_, hrest⟩
    show update s.calls s.nextCall _ n = none
    rw [update_of_ne (by omega)]
    exact hnone

theorem Inv.look (h : Inv s) {n done : Nat} {c : Call} (hn : s.calls n = some (c, .running done))
    (env : Env) :
    Inv { s with
      pipe := (s.pipe.lookOf done env c).pipe
      calls := update s.calls n
        (some (c, (s.pipe.lookOf done env c).next.progress done))
      accepted := if c.isWrite then
        s.accepted ++ logged n (s.pipe.lookOf done env c).moved else s.accepted
      taken := if c.isWrite then
        s.taken else s.taken ++ logged n (s.pipe.lookOf done env c).moved } := by
  obtain ⟨hring, hcontents, htold⟩ := lookOf_told h.ring env n (h.told n c _ hn)
  -- the logs of the other calls are as they were
  have hother : ∀ m, m ≠ n →
      chunksOf m (if c.isWrite then s.accepted ++ logged n (s.pipe.lookOf done env c).moved
        else s.accepted) = chunksOf m s.accepted ∧
      chunksOf m (if c.isWrite then s.taken
        else s.taken ++ logged n (s.pipe.lookOf done env c).moved) = chunksOf m s.taken := by
    intro m hm
    have hlog := chunksOf_logged_of_ne hm (s.pipe.lookOf done env c).moved
    split
    · exact ⟨by rw [chunksOf_append, hlog, List.append_nil], rfl⟩
    · exact ⟨rfl, by rw [chunksOf_append, hlog, List.append_nil]⟩
  refine ⟨hring, ?_, fun m d prog hm => ?_, fun m hm => ?_⟩
  · have hfifo := h.fifo
    show logBytes (if c.isWrite then _ else _) ++ (s.pipe.lookOf done env c).pipe.contents =
      logBytes (if c.isWrite then _ else _)
    split at hcontents
    · rw [if_pos ‹_›, if_pos ‹_›, logBytes_append, logBytes_logged, hcontents, ← hfifo,
        List.append_assoc]
    · rw [if_neg ‹_›, if_neg ‹_›, logBytes_append, logBytes_logged, List.append_assoc, ← hcontents,
        hfifo]
  · change update s.calls n _ m = some (d, prog) at hm
    by_cases hmn : m = n
    · subst hmn
      rw [update_self] at hm
      cases hm
      exact htold
    · rw [update_of_ne hmn] at hm
      show Told prog (chunksOf m (if c.isWrite then _ else _)) (chunksOf m (if c.isWrite then _ else _)) d
      rw [(hother m hmn).1, (hother m hmn).2]
      exact h.told m d prog hm
  · obtain ⟨hnone, hrest⟩ := h.fresh m hm
    have hmn : m ≠ n := by
      rintro rfl
      rw [hn] at hnone
      cases hnone
    refine ⟨?_, (hother m hmn).1.trans hrest.1, (hother m hmn).2.trans hrest.2⟩
    show update s.calls n _ m = none
    rw [update_of_ne hmn]
    exact hnone

theorem step_inv {s' : Stream} {a : Act} (h : Inv s) (hstep : step s a = some s') : Inv s' := by
  cases a with
  | call g c =>
    cases hstep
    exact h.call g c
  | look n env =>
    simp only [step] at hstep
    split at hstep
    · rename_i c done hn
      cases hstep
      exact h.look hn env
    · cases hstep
  | peek g offset room =>
    cases hstep
    exact h
  | setCapacity newCap allocated =>
    cases hstep
    obtain ⟨hring, hcontents⟩ := resize_spec h.ring newCap allocated
    exact h.setPipe hring hcontents
  | setEnds readClosed writeClosed =>
    cases hstep
    exact h.setPipe ⟨h.ring.len_le, h.ring.head_lt⟩ rfl

/-- The run lemma. -/
theorem reach_inv (h : Reach step Start s) : Inv s :=
  h.invariant (fun _ hs => inv_start hs) fun _ _ _ hi _ hstep => step_inv hi hstep

end SlateOS.Ipc.Pipe
