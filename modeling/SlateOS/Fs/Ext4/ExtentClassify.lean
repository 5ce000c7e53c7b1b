/-
# SlateOS.Fs.Ext4.ExtentClassify -- the spans of a range

`classify` walks a valid map and a range together. What it has still to look at are the extents that end
after the block it has come to; the spans it writes out tile the rest of the range, and at each of their
blocks they say what a lookup of that block says. The end of the range saturates, so that the last
number of `u64` is no block of any range.
-/
import SlateOS.Foundation.Spans
import SlateOS.Fs.Ext4.ExtentSet

namespace SlateOS.Fs.Ext4

open Foundation Foundation.MachineInt

/-! ## What a span says -/

namespace Span

/-- The first block. -/
def first : Span → Nat
  | hole logical _ | written logical _ _ | unwritten logical _ _ => logical

/-- How many blocks. -/
def blocks : Span → Nat
  | hole _ len | written _ len _ | unwritten _ len _ => len

/-- The physical block and the kind at one block of the span. -/
def value : Span → Nat → Option (Nat × Bool)
  | hole _ _, _ => none
  | written logical _ phys, b => some (satAdd phys (b - logical), false)
  | unwritten logical _ phys, b => some (satAdd phys (b - logical), true)

end Span

namespace ExtentMap

variable {map : ExtentMap} {e : Extent}

/-- The spans agree with the lookup at every block. -/
def Agree (map : ExtentMap) (spans : List Span) : Prop :=
  ∀ span ∈ spans, ∀ b, span.first ≤ b → b < span.first + span.blocks → lookup map b = span.value b

/-- A lookup passes over the extents that end before the block. -/
theorem lookup_dropWhile {first b : Nat} (h : first ≤ b) :
    lookup (map.dropWhile fun e => e.theEnd ≤ first) b = lookup map b := by
  induction map with
  | nil => rfl
  | cons e rest ih =>
    rw [List.dropWhile_cons]
    split
    · next hend =>
      have hle : e.theEnd ≤ b := (of_decide_eq_true hend).trans h
      rw [ih, lookup_cons, if_pos hle]
    · rfl

theorem Valid.of_suffix {rest : ExtentMap} (h : Valid map) (hsuffix : rest <:+ map) : Valid rest :=
  ⟨h.ordered.sublist hsuffix.sublist, fun x hx => h.sound x (hsuffix.subset hx)⟩

/-- The first extent left is one that ends after the block. -/
theorem head_after_dropWhile {first : Nat} {rest : ExtentMap}
    (h : (map.dropWhile fun e => e.theEnd ≤ first) = e :: rest) : first < e.theEnd := by
  have hhead := List.head?_dropWhile_not (fun e : Extent => decide (e.theEnd ≤ first)) map
  rw [h] at hhead
  simpa using hhead

/-! ## The loop -/

/-- The span of the blocks of an extent from `cur` to `stop`. -/
def spanOf (e : Extent) (cur stop : Nat) : Span :=
  if e.unwritten then .unwritten cur (stop - cur) (satAdd e.phys (cur - e.logical))
  else .written cur (stop - cur) (satAdd e.phys (cur - e.logical))

theorem spanOf_first (e : Extent) (cur stop : Nat) : (spanOf e cur stop).first = cur := by
  unfold spanOf
  split <;> rfl

theorem spanOf_blocks (e : Extent) (cur stop : Nat) : (spanOf e cur stop).blocks = stop - cur := by
  unfold spanOf
  split <;> rfl

/-- The span of a part of an extent says what the extent says. -/
theorem spanOf_value {cur stop b : Nat} (hstart : e.logical ≤ cur) (hb : cur ≤ b) :
    (spanOf e cur stop).value b = some (e.value b) := by
  have hsum : cur - e.logical + (b - cur) = b - e.logical := by omega
  unfold spanOf Extent.value
  cases hkind : e.unwritten
  · simp [Span.value, satAdd_assoc, hsum]
  · simp [Span.value, satAdd_assoc, hsum]

section

variable {theEnd cur : Nat} {later : ExtentMap}

theorem classifyLoop_of_ge {rest : ExtentMap} (h : theEnd ≤ cur) : classifyLoop theEnd rest cur = [] := by
  unfold classifyLoop
  exact dif_neg (by omega)

theorem classifyLoop_nil (h : cur < theEnd) :
    classifyLoop theEnd [] cur = .hole cur (theEnd - cur) :: classifyLoop theEnd [] theEnd := by
  rw [classifyLoop, dif_pos h]

/-- The extent holds the block that the loop has come to. -/
theorem classifyLoop_inside (h : cur < theEnd) (hstart : e.logical ≤ cur) :
    classifyLoop theEnd (e :: later) cur =
      spanOf e cur (min e.theEnd theEnd) :: classifyLoop theEnd later (min e.theEnd theEnd) := by
  rw [classifyLoop, dif_pos h]
  exact dif_pos hstart

/-- The extent begins later. -/
theorem classifyLoop_before (h : cur < theEnd) (hstart : cur < e.logical) :
    classifyLoop theEnd (e :: later) cur =
      .hole cur (min e.logical theEnd - cur) ::
        classifyLoop theEnd (e :: later) (min e.logical theEnd) := by
  rw [classifyLoop, dif_pos h]
  exact dif_neg (by omega)

/-- What the loop writes out from a block on: spans that tile the rest of the range and agree with the
extents that are left. -/
def Spans (theEnd : Nat) (rest : ExtentMap) (cur : Nat) : Prop :=
  Tiles Span.first Span.blocks cur (classifyLoop theEnd rest cur) theEnd ∧
    Agree rest (classifyLoop theEnd rest cur)

theorem spans_end (rest : ExtentMap) : Spans theEnd rest theEnd := by
  unfold Spans
  rw [classifyLoop_of_ge (Nat.le_refl _)]
  exact ⟨.nil theEnd, fun span hspan => absurd hspan List.not_mem_nil⟩

/-- One span, behind which the loop goes on with extents that say the same there. -/
theorem spans_cons {rest rest' : ExtentMap} {next : Nat} {span : Span}
    (hloop : classifyLoop theEnd rest cur = span :: classifyLoop theEnd rest' next)
    (hfirst : span.first = cur) (hblocks : span.blocks = next - cur) (hlt : cur < next)
    (hspan : ∀ b, cur ≤ b → b < next → lookup rest b = span.value b)
    (hsame : ∀ b, next ≤ b → b < theEnd → lookup rest b = lookup rest' b)
    (hrest : Spans theEnd rest' next) : Spans theEnd rest cur := by
  obtain ⟨htiles, hagree⟩ := hrest
  have hnext : cur + span.blocks = next := by omega
  unfold Spans
  rw [hloop]
  refine ⟨.cons hfirst (by omega) (by rwa [hnext]), fun piece hpiece b hlo hhi => ?_⟩
  rcases List.mem_cons.1 hpiece with rfl | hlater
  · exact hspan b (by omega) (by omega)
  · have hin := htiles.bounds hlater
    rw [hsame b (by omega) (by omega)]
    exact hagree piece hlater b hlo hhi

/-- At a block of the extent, the loop goes on to the end of the extent or of the range. -/
theorem spans_inside (hstart : e.logical ≤ cur) (hcur : cur < e.theEnd) (hlt : cur < theEnd)
    (hrest : Spans theEnd later (min e.theEnd theEnd)) : Spans theEnd (e :: later) cur := by
  apply spans_cons (classifyLoop_inside hlt hstart) (spanOf_first _ _ _) (spanOf_blocks _ _ _)
  · omega
  · intro b hlo hhi
    rw [spanOf_value hstart hlo, lookup_cons, if_neg (by omega), if_pos (by omega)]
  · intro b hlo hhi
    rw [lookup_cons, if_pos (by omega)]
  · exact hrest

/-- Before the extent, the loop goes on to its first block or to the end of the range. -/
theorem spans_before (hbefore : cur < e.logical) (hend : e.logical ≤ e.theEnd) (hlt : cur < theEnd)
    (hrest : Spans theEnd (e :: later) (min e.logical theEnd)) : Spans theEnd (e :: later) cur := by
  apply spans_cons (classifyLoop_before hlt hbefore) rfl rfl
  · omega
  · intro b hlo hhi
    rw [lookup_cons, if_neg (by omega), if_neg (by omega)]
    rfl
  · intro b hlo hhi
    rfl
  · exact hrest

theorem classifyLoop_spec (rest : ExtentMap) : ∀ cur, Valid rest → (∀ x ∈ rest, cur < x.theEnd) →
    cur ≤ theEnd → Spans theEnd rest cur := by
  induction rest with
  | nil =>
    intro cur _ _ hle
    rcases Nat.lt_or_eq_of_le hle with hlt | rfl
    · apply spans_cons (classifyLoop_nil hlt) rfl rfl hlt
      · intro b _ _
        rfl
      · intro b _ _
        rfl
      · exact spans_end []
    · exact spans_end []
  | cons e later ih =>
    intro cur hvalid hafter hle
    have hsound := hvalid.sound e List.mem_cons_self
    have hpos := hsound.len_ne
    have hstop : e.theEnd = e.logical + e.len := Extent.theEnd_eq hsound.range
    have hlater : ∀ x ∈ later, min e.theEnd theEnd < x.theEnd := by
      intro x hx
      have hx' := hvalid.sound x (List.mem_cons_of_mem e hx)
      have hbefore : e.logical + e.len ≤ x.logical := hvalid.head_before x hx
      have hxpos := hx'.len_ne
      rw [Extent.theEnd_eq hx'.range]
      omega
    have hrest : Spans theEnd later (min e.theEnd theEnd) :=
      ih _ hvalid.tail hlater (Nat.min_le_right _ _)
    -- from a block of the extent, and from there for a block before it
    have hinside : ∀ cur, e.logical ≤ cur → cur < e.theEnd → cur ≤ theEnd →
        Spans theEnd (e :: later) cur := by
      intro cur hstart hcur hle
      rcases Nat.lt_or_eq_of_le hle with hlt | rfl
      · exact spans_inside hstart hcur hlt hrest
      · exact spans_end _
    rcases Nat.lt_or_ge cur e.logical with hbefore | hstart
    · rcases Nat.lt_or_eq_of_le hle with hlt | rfl
      · apply spans_before hbefore (by omega) hlt
        rcases Nat.le_total e.logical theEnd with h | h
        · rw [Nat.min_eq_left h]
          exact hinside e.logical (Nat.le_refl _) (by omega) h
        · rw [Nat.min_eq_right h]
          exact spans_end _
      · exact spans_end _
    · exact hinside cur hstart (hafter e List.mem_cons_self) hle

end

/-- In a valid map, all the extents left end after the block. -/
theorem Valid.dropWhile_after (h : Valid map) (first : Nat) :
    ∀ x ∈ map.dropWhile fun e => e.theEnd ≤ first, first < x.theEnd := by
  intro x hx
  cases hrest : map.dropWhile fun e => e.theEnd ≤ first with
  | nil =>
    rw [hrest] at hx
    cases hx
  | cons e later =>
    have hhead := head_after_dropWhile hrest
    have hvalid := h.of_suffix (List.dropWhile_suffix fun e => decide (e.theEnd ≤ first))
    rw [hrest] at hx hvalid
    rcases List.mem_cons.1 hx with rfl | hlater
    · exact hhead
    · have he := hvalid.sound e List.mem_cons_self
      have hx' := hvalid.sound x hx
      have hbefore : e.logical + e.len ≤ x.logical := hvalid.head_before x hlater
      rw [Extent.theEnd_eq he.range] at hhead
      rw [Extent.theEnd_eq hx'.range]
      omega

/-- The spans of a range of a valid map tile it, up to the last number of `u64`, and each says of its
blocks what a lookup says. -/
theorem classify_spans (hphys : ∀ e ∈ map, e.phys < 2 ^ 64) (h : validate map = .ok ()) {first : Nat}
    (count : Nat) (hfirst : first < 2 ^ 64) :
    Tiles Span.first Span.blocks first (classify map first count) (min (first + count) (2 ^ 64 - 1)) ∧
      Agree map (classify map first count) := by
  have hvalid := (validate_ok_iff hphys).1 h
  have hend : satAdd first count = min (first + count) (2 ^ 64 - 1) := rfl
  obtain ⟨htiles, hagree⟩ := @classifyLoop_spec (satAdd first count)
    (map.dropWhile fun e => e.theEnd ≤ first) first
    (hvalid.of_suffix (List.dropWhile_suffix fun e : Extent => decide (e.theEnd ≤ first)))
    (hvalid.dropWhile_after first) (by omega)
  rw [← hend]
  refine ⟨htiles, fun span hspan b hlo hhi => ?_⟩
  have hin := htiles.bounds hspan
  rw [← hagree span hspan b hlo hhi, lookup_dropWhile (by omega)]

/-- A range over a hole, a written extent and an unwritten one. -/
theorem classify_spans_small :
    Tiles Span.first Span.blocks 0 (classify [⟨2, 3, 100, false⟩, ⟨5, 2, 200, true⟩] 0 9) 9 :=
  (classify_spans (by decide) rfl 9 (by decide)).1

/-- The last number of `u64` is a block of no span. -/
theorem classify_last_block :
    validate [] = .ok () ∧
      ¬ ∃ span ∈ classify [] (2 ^ 64 - 1) 1,
        span.first ≤ 2 ^ 64 - 1 ∧ 2 ^ 64 - 1 < span.first + span.blocks := by
  refine ⟨rfl, ?_⟩
  have hnone : classify [] (2 ^ 64 - 1) 1 = [] := classifyLoop_of_ge (by decide)
  rw [hnone]
  rintro ⟨span, hspan, -⟩
  cases hspan

end ExtentMap

end SlateOS.Fs.Ext4
