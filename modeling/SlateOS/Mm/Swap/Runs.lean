/-
# SlateOS.Mm.Swap.Runs -- swapping is transparent, but for data that grew stale meanwhile

A swap-in installs what it read before it held the lock, and knows the slot by its number alone: where the slot went
back and was given out again in between, data of an earlier time covers what was stored since. A swap-out knows the
frame that it stored by its entries alone.
-/
import SlateOS.Mm.Swap.Invariant

namespace SlateOS.Mm.Swap

open Foundation.Runs

variable {n : Nat} {areas : Areas} {s s' : State n}

/-! ## Runs -/

/-- What a section relies on without looking: an exchange, that the frame still holds what was stored; an install,
that the slot still holds what was read. -/
def Current (areas : Areas) (s : State n) : Action n → Prop
  | .exchange thread _ => ∀ page parts slot, s.ops thread = some (.storing page parts slot) →
      (∀ i, s.raw page i = parts i) → ∀ frame, s.swap.readSlot areas slot = some frame →
        ∀ i, isPresent (parts i) = true → frame i = s.bytes page i
  | .install thread _ _ => ∀ page slot frame, s.ops thread = some (.prepared page slot frame) →
      ∀ frame', s.swap.readSlot areas slot = some frame' → ∀ i, fromPteRaw (s.raw page i) = some slot →
        PageFlags.contains (keptFlags (s.raw page i)) PageFlags.present = true → frame i = frame' i
  | _ => True

/-- Every section that relies on nothing that changed keeps the invariant. -/
theorem Inv.step {a : Action n} (hi : Inv areas s) (hcurrent : Current areas s a) (hstep : step areas s a = some s') :
    Inv areas s' := by
  cases a with
  | store thread page able =>
    simp only [Swap.step] at hstep
    split at hstep
    · rename_i hnone
      cases hstep
      exact hi.storeFrame (Option.isNone_iff_eq_none.mp hnone) page able
    · cases hstep
  | exchange thread locked =>
    simp only [Swap.step] at hstep
    split at hstep
    · rename_i page parts slot hop
      cases hstep
      exact hi.exchangeEntries hop locked (hcurrent page parts slot hop)
    · cases hstep
  | find thread page part =>
    simp only [Swap.step] at hstep
    split at hstep
    · rename_i hnone
      have hidle := Inv.not_holds_of_idle (Option.isNone_iff_eq_none.mp hnone)
      split at hstep
      · cases hstep
        refine hi.idle_op hidle (fun op h slot i hholds => ?_) fun _ _ _ h => nomatch h
        cases h
        exact hholds
      · cases hstep
        exact hi
    · cases hstep
  | fetch thread able =>
    simp only [Swap.step] at hstep
    split at hstep
    · rename_i page slot hop
      have hidle : ∀ k i, ¬∃ op, s.ops thread = some op ∧ op.holds k i := by
        rintro k i ⟨op, h, hholds⟩
        rw [hop] at h
        cases h
        exact hholds
      split at hstep
      · cases hstep
        refine hi.idle_op hidle (fun op h slot i hholds => ?_) fun _ _ _ h => nomatch h
        cases h
        exact hholds
      · cases hstep
        exact hi.idle_op hidle (fun op h => nomatch h) fun _ _ _ h => nomatch h
    · cases hstep
  | install thread phys able =>
    simp only [Swap.step] at hstep
    split at hstep
    · rename_i page slot frame hop
      cases hstep
      exact hi.installFrame hop phys able (hcurrent page slot frame hop)
    · cases hstep
  | release thread =>
    simp only [Swap.step] at hstep
    split at hstep
    · rename_i slot parts hop
      cases hstep
      exact hi.release hop
    · cases hstep
  | unmap thread page part =>
    simp only [Swap.step] at hstep
    split at hstep
    · rename_i hnone
      cases hstep
      exact hi.unmapPart (Option.isNone_iff_eq_none.mp hnone) page part
    · cases hstep
  | map page flags phys frame =>
    simp only [Swap.step] at hstep
    split at hstep
    · cases hstep
    · rename_i hswap
      cases hstep
      exact hi.mapFrame (Bool.not_eq_true _ ▸ hswap) flags phys frame
  | write page part contents =>
    simp only [Swap.step] at hstep
    split at hstep
    · rename_i hpres
      cases hstep
      refine hi.accessed hpres.1 (by decide) fun i hsame => ?_
      by_cases hi' : i = part
      · rw [hi', Function.update_self, Function.update_self]
      · rw [Function.update_of_ne hi', Function.update_of_ne hi']
        exact hsame
    · cases hstep
  | read page part =>
    simp only [Swap.step] at hstep
    split at hstep
    · rename_i hpres
      cases hstep
      exact hi.accessed hpres (by decide) fun i hsame => hsame
    · cases hstep

/-- **Swapping is transparent** in every run in which no exchange covers a frame that changed since it was stored,
and no swap-in installs data that its slot no longer holds. -/
theorem swapping_transparent (areas : Areas) (s : State n) (h : ReachBy (step areas) (Current areas) (Start areas) s) :
    Transparent areas s :=
  (h.invariant (fun _ hs => Inv.start hs) fun _ _ _ hi hok hs => hi.step hok hs).transparent

/-! ## A swap-in that comes late -/

section Stale

/-- A codec that finds nothing to shrink. -/
def plainCodec : Codec where
  compress _ := none
  decompress c := if c = [SlateOS.Mm.Compress.zeroPageMarker] then some fun _ _ => 0#8 else none
  roundTrip _ _ h := nomatch h
  zeroPage := rfl

/-- One disk area of two slots, the first its header. -/
def oneArea : Areas where
  devices := [⟨.disk, 0, 2, false⟩]
  disjoint := List.pairwise_singleton _ _
  bounded := by decide
  reserved slot := slot == 0
  codec := plainCodec

def booted : State 2 where
  raw _ _ := 0#64
  bytes _ _ _ := 0#8
  swap := ⟨oneArea.reserved, fun _ => 0, fun _ => 0, fun _ => none⟩
  ops _ := none
  last _ _ _ := 0#8
  prot _ _ := 0#64

theorem booted_start : Start oneArea booted := ⟨fun _ _ => rfl, fun _ => rfl, fun _ => rfl, fun _ => rfl⟩

/-- A frame whose first part is mapped for reading and writing, full of ones. -/
def mapOnes : Action 2 :=
  .map (1, 1) (fun i => if i = 0 then 7#64 else 0#64) 0x4000#64 fun _ _ => 1#8

/-- The frame is swapped out, a swap-in of one thread reads it, and while that waits for the lock another thread
brings the frame back, fills it with twos, and has it swapped out again: to the same slot. -/
def lateInstall : List (Action 2) :=
  [mapOnes, .store 1 (1, 1) fun _ => true, .exchange 1 true, .find 0 (1, 1) 0, .fetch 0 true,
    .find 1 (1, 1) 0, .fetch 1 true, .install 1 0x8000#64 true, .release 1,
    .write (1, 1) 0 fun _ => 2#8, .store 1 (1, 1) fun _ => true, .exchange 1 true, .install 0 0xC000#64 true]

theorem lateInstall_stale : ((run (step oneArea) booted lateInstall).any fun s =>
    isPresent (s.raw (1, 1) 0) && decide (s.bytes (1, 1) 0 0 ≠ s.last (1, 1) 0 0)) = true := by
  decide +kernel

/-- What was stored between the two swap-outs is lost. -/
theorem swap_in_stale :
    ¬∀ (n : Nat) (areas : Areas) (s : State n), Reach (step areas) (Start areas) s → Transparent areas s := by
  intro h
  obtain ⟨s, hrun, hstale⟩ := (Option.any_eq_true _ _).mp lateInstall_stale
  rw [Bool.and_eq_true, decide_eq_true_eq] at hstale
  have hreach : Reach (step oneArea) (Start oneArea) s :=
    Reach.of_run (.start booted_start) hrun
  exact hstale.2 (congrFun ((h 2 oneArea s hreach).restored _ _ hstale.1).1 0)

/-- The frame is mapped. -/
def fresh : State 2 := booted.mapFrame (1, 1) (fun i => if i = 0 then 7#64 else 0#64) 0x4000#64 fun _ _ => 1#8

/-- And stored. -/
def stored : State 2 := fresh.storeFrame oneArea 1 (1, 1) fun _ => true

/-- And swapped out. -/
def swappedOut : State 2 := stored.exchangeEntries 1 (1, 1) (fresh.raw (1, 1)) 1 true

theorem stored_op : stored.ops 1 = some (.storing (1, 1) (fresh.raw (1, 1)) 1) := rfl

theorem stored_data : stored.swap.readSlot oneArea 1 = some (stored.bytes (1, 1)) := rfl

theorem swappedOut_reached : ReachBy (step oneArea) (Current oneArea) (Start oneArea) swappedOut := by
  have hfresh : ReachBy (step oneArea) (Current oneArea) (Start oneArea) fresh :=
    .next (.start booted_start) (a := mapOnes) trivial rfl
  have hstored : ReachBy (step oneArea) (Current oneArea) (Start oneArea) stored :=
    .next hfresh (a := .store 1 (1, 1) fun _ => true) trivial rfl
  refine .next hstored (a := .exchange 1 true) ?_ rfl
  intro page parts slot hop _ frame hread i _
  rw [stored_op] at hop
  cases hop
  rw [stored_data] at hread
  cases hread
  rfl

theorem swappedOut_names : swappedOut.Names 1 ((1, 1), 0) := by
  unfold State.Names
  decide +kernel

/-- The promises hold while the frame is swapped out. -/
theorem swapping_transparent_out : swappedOut.Names 1 ((1, 1), 0) ∧ Transparent oneArea swappedOut :=
  ⟨swappedOut_names, swapping_transparent oneArea swappedOut swappedOut_reached⟩

end Stale

end SlateOS.Mm.Swap
