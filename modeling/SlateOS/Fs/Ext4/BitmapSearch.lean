/-
# SlateOS.Fs.Ext4.BitmapSearch -- when the searches for clear bits are right

`bitmap_find_free_run` looks at the bits from `start` to the limit, then from the first bit on until it
has looked at as many bits as there are. The limit itself counts as a bit when a run of clear bits ends
there, and then the last bit before `start` is not looked at. `bitmap_find_free` wraps to all the bits
below `start`, those at or past the limit among them.
-/
import SlateOS.Fs.Ext4.Bitmap

namespace SlateOS.Fs.Ext4

open Foundation.MachineInt

/-- `count` clear bits from `bit` on, all of them below the limit. -/
def ClearRun (bitmap : List Byte) (maxBits count bit : Nat) : Prop :=
  ∀ i, i < count → bit + i < maxBits ∧ bitmapTest bitmap (bit + i) = false

instance (bitmap : List Byte) (maxBits count bit : Nat) : Decidable (ClearRun bitmap maxBits count bit) :=
  Nat.decidableBallLT count fun i _ => bit + i < maxBits ∧ bitmapTest bitmap (bit + i) = false

/-- What a search should answer: the start of such a run, or that there is none. -/
def Finds (bitmap : List Byte) (maxBits count : Nat) : Option Nat → Prop
  | some bit => ClearRun bitmap maxBits count bit
  | none => ∀ bit, ¬ ClearRun bitmap maxBits count bit

/-- The first search leaves the limit behind: no bit below it is clear, and one between it and the start
is. -/
def PastLimit (bitmap : List Byte) (start maxBits : Nat) : Prop :=
  (∀ bit, bit < maxBits → bitmapTest bitmap bit = true) ∧
    ∃ bit, maxBits ≤ bit ∧ bit < start ∧ bitmapTest bitmap bit = false

/-- The second search misses a run: the one that begins right before the start is the only one, and the
last bit below the limit is clear. -/
def BeforeStart (bitmap : List Byte) (start maxBits count : Nat) : Prop :=
  0 < start ∧ start < maxBits ∧ bitmapTest bitmap (maxBits - 1) = false ∧
    ClearRun bitmap maxBits count (start - 1) ∧
    ∀ bit, ClearRun bitmap maxBits count bit → bit = start - 1

variable {bitmap : List Byte} {bit start maxBits count : Nat}

/-! ## One bit -/

theorem clearRun_one : ClearRun bitmap maxBits 1 bit ↔ bit < maxBits ∧ bitmapTest bitmap bit = false := by
  constructor
  · intro h
    exact h 0 (by decide)
  · intro h i hi
    obtain rfl : i = 0 := by omega
    exact h

/-- The search for one bit is right but where it leaves the limit behind. -/
theorem bitmapFindFree_finds :
    Finds bitmap maxBits 1 (bitmapFindFree bitmap start maxBits) ↔ ¬ PastLimit bitmap start maxBits := by
  unfold bitmapFindFree
  split
  · next found hfound =>
    -- found on the way to the limit
    have hclear : bitmapTest bitmap found = false := by simpa using List.find?_some hfound
    have hmem := List.mem_range'_1.1 (List.mem_of_find?_eq_some hfound)
    have hlt : found < maxBits := by omega
    refine iff_of_true (clearRun_one.2 ⟨hlt, hclear⟩) fun hpast => ?_
    have hset := hpast.1 found hlt
    rw [hclear] at hset
    cases hset
  · next hnone =>
    have hfrom : ∀ b, start ≤ b → b < maxBits → bitmapTest bitmap b = true := by
      intro b hlo hhi
      have hb := List.find?_eq_none.1 hnone b (List.mem_range'_1.2 ⟨hlo, by omega⟩)
      simpa using hb
    cases hwrap : (List.range start).find? fun b => !bitmapTest bitmap b with
    | some found =>
      -- the way around from 0 does not stop at the limit
      obtain ⟨hclear, hmem, hbefore⟩ := List.find?_range_eq_some.1 hwrap
      have hclear' : bitmapTest bitmap found = false := by simpa using hclear
      have hlt : found < start := List.mem_range.1 hmem
      rcases Nat.lt_or_ge found maxBits with hin | hout
      · refine iff_of_true (clearRun_one.2 ⟨hin, hclear'⟩) fun hpast => ?_
        have hset := hpast.1 found hin
        rw [hclear'] at hset
        cases hset
      · refine iff_of_false (fun h => ?_) fun h => h ⟨fun b hb => ?_, found, hout, hlt, hclear'⟩
        · have hin := (clearRun_one.1 h).1
          omega
        · simpa using hbefore b (by omega)
    | none =>
      have hbelow : ∀ b, b < start → bitmapTest bitmap b = true := by
        intro b hb
        have h := List.find?_eq_none.1 hwrap b (List.mem_range.2 hb)
        simpa using h
      refine iff_of_true (fun b hb => ?_) fun hpast => ?_
      · obtain ⟨hlt, hclear⟩ := clearRun_one.1 hb
        rcases Nat.lt_or_ge b start with hb | hb
        · rw [hbelow b hb] at hclear
          cases hclear
        · rw [hfrom b hb hlt] at hclear
          cases hclear
      · obtain ⟨-, b, -, hb, hclear⟩ := hpast
        rw [hbelow b hb] at hclear
        cases hclear

/-! ## One round of the second search -/

/-- Where the inner loop stops: at the run's full length, at the limit or at a set bit. -/
theorem freeRunLen_stop {remaining runLen : Nat} (hmax : maxBits < 2 ^ 32) (hlt : bit + runLen ≤ maxBits) :
    let len := freeRunLen bitmap maxBits bit remaining runLen
    runLen ≤ len ∧ bit + len ≤ maxBits ∧ (len = runLen + remaining ∨
      ¬ (bit + len < maxBits ∧ bitmapTest bitmap (bit + len) = false)) := by
  induction remaining generalizing runLen with
  | zero => exact ⟨Nat.le_refl _, hlt, .inl rfl⟩
  | succ remaining ih =>
    unfold freeRunLen
    rw [saturatingAdd_of_lt (show bit + runLen < 2 ^ 32 by omega)]
    split
    · next hstop =>
      refine ⟨Nat.le_refl _, hlt, .inr fun hgo => ?_⟩
      rcases hstop with hlimit | hset
      · omega
      · rw [hgo.2] at hset
        cases hset
    · next hgo =>
      have hin : bit + runLen < maxBits := by
        by_contra hlimit
        exact hgo (.inl (by omega))
      obtain ⟨hle, hend, hstop⟩ := @ih (runLen + 1) (by omega)
      rw [saturatingAdd_of_lt (show runLen + 1 < 2 ^ 32 by omega)]
      refine ⟨by omega, hend, hstop.imp_left fun h => by omega⟩

/-- A round that finds no run has looked at the bits up to and including the one that ends its run, and
no run begins at any of them. -/
structure Skipped (bitmap : List Byte) (maxBits count bit len : Nat) : Prop where
  short : len < count
  le_limit : bit + len ≤ maxBits
  clear : ∀ i, i < len → bitmapTest bitmap (bit + i) = false
  stopped : bit + len < maxBits → bitmapTest bitmap (bit + len) = true
  no_run : ∀ b, bit ≤ b → b ≤ bit + len → ¬ ClearRun bitmap maxBits count b

theorem skipped_of_short (hmax : maxBits < 2 ^ 32) (hbit : bit < maxBits)
    (hshort : freeRunLen bitmap maxBits bit count 0 < count) :
    Skipped bitmap maxBits count bit (freeRunLen bitmap maxBits bit count 0) := by
  obtain ⟨-, hend, hstop⟩ := @freeRunLen_stop bitmap bit maxBits count 0 hmax (by omega)
  have hrun := @freeRunLen_spec bitmap bit maxBits count 0 hmax (fun i hi => absurd hi (Nat.not_lt_zero i))
    hbit
  have hstopped := hstop.resolve_left (by omega)
  refine ⟨hshort, hend, fun i hi => (hrun i hi).2, fun hlt => ?_, fun b hlo hhi hclear => ?_⟩
  · simpa using fun h => hstopped ⟨hlt, h⟩
  · -- the run would have the bit that ended the other one
    have hin := hclear (bit + freeRunLen bitmap maxBits bit count 0 - b) (by omega)
    rw [Nat.add_sub_cancel' hhi] at hin
    exact hstopped hin

theorem findFreeRunLoop_of_ge {fuel scanned : Nat} (h : maxBits ≤ scanned) :
    findFreeRunLoop bitmap maxBits count fuel bit scanned = none := by
  cases fuel with
  | zero => rfl
  | succ fuel => rw [findFreeRunLoop, if_neg (by omega)]

/-- A bit at or past the limit is the first one. -/
theorem findFreeRunLoop_wrap {fuel scanned : Nat} (h : maxBits ≤ bit) :
    findFreeRunLoop bitmap maxBits count fuel bit scanned =
      findFreeRunLoop bitmap maxBits count fuel 0 scanned := by
  cases fuel with
  | zero => rfl
  | succ fuel =>
    have hzero : (if 0 ≥ maxBits then 0 else 0) = (if bit ≥ maxBits then 0 else bit) := by
      rw [if_pos h, ite_self]
    rw [findFreeRunLoop, findFreeRunLoop, hzero]

/-- A round below the limit: it finds a run at its bit or goes on behind what it has looked at. -/
theorem findFreeRunLoop_round (hmax : maxBits < 2 ^ 32) (hcount : count < 2 ^ 32) {scanned : Nat}
    (hbit : bit < maxBits) (hscanned : scanned < maxBits) (fuel : Nat) :
    findFreeRunLoop bitmap maxBits count (fuel + 1) bit scanned = some bit ∨
      ∃ len, Skipped bitmap maxBits count bit len ∧
        findFreeRunLoop bitmap maxBits count (fuel + 1) bit scanned =
          findFreeRunLoop bitmap maxBits count fuel (saturatingAdd 32 bit (len + 1))
            (saturatingAdd 32 scanned (len + 1)) := by
  have hnot : ¬ bit ≥ maxBits := by omega
  rw [findFreeRunLoop, if_pos hscanned]
  simp only [if_neg hnot]
  rcases Nat.lt_or_ge (freeRunLen bitmap maxBits bit count 0) count with hshort | hlong
  · have hskipped := skipped_of_short hmax hbit hshort
    refine .inr ⟨_, hskipped, ?_⟩
    rw [if_neg (Nat.not_le.2 hshort), saturatingAdd_of_lt (show _ + 1 < 2 ^ 32 by omega),
      Nat.max_eq_left (Nat.le_add_left 1 _)]
  · rw [if_pos hlong]
    exact .inl rfl

/-! ## The passes over the bitmap -/

/-- A limit that a sum reaches is reached by the sum that saturates. -/
theorem le_saturatingAdd {a b : Nat} (hmax : maxBits < 2 ^ 32) (h : maxBits ≤ a + b) :
    maxBits ≤ saturatingAdd 32 a b :=
  Nat.le_min.2 ⟨h, Nat.le_sub_one_of_lt hmax⟩

/-- The search looked `among` these bits: it answers one of them, or no run begins at any of them. -/
def Searched (bitmap : List Byte) (maxBits count : Nat) (among : Nat → Prop) : Option Nat → Prop
  | some b => among b
  | none => ∀ b, among b → ¬ ClearRun bitmap maxBits count b

/-- More bits, at which no run begins. -/
theorem Searched.widen {among among' : Nat → Prop} {res : Option Nat}
    (h : Searched bitmap maxBits count among' res) (hsub : ∀ b, among' b → among b)
    (hrest : ∀ b, among b → among' b ∨ ¬ ClearRun bitmap maxBits count b) :
    Searched bitmap maxBits count among res := by
  cases res with
  | some b => exact hsub b h
  | none =>
    intro b hb
    rcases hrest b hb with hold | hnone
    · exact h b hold
    · exact hnone

/-- A pass up to `stop` looks at all the bits before it. -/
theorem findFreeRunLoop_pass (hmax : maxBits < 2 ^ 32) (hcount : count < 2 ^ 32) {stop : Nat}
    (hstop : stop ≤ maxBits) (fuel : Nat) : ∀ bit scanned, scanned + stop = maxBits + bit →
    stop ≤ bit + fuel →
    Searched bitmap maxBits count (fun b => bit ≤ b ∧ b < stop)
      (findFreeRunLoop bitmap maxBits count fuel bit scanned) := by
  induction fuel with
  | zero =>
    intro bit scanned _ hfuel b hb
    omega
  | succ fuel ih =>
    intro bit scanned heq hfuel
    rcases Nat.lt_or_ge bit stop with hlt | hge
    · rcases @findFreeRunLoop_round bitmap bit maxBits count hmax hcount scanned (by omega) (by omega) fuel
        with hfound | ⟨len, hskipped, hloop⟩
      · rw [hfound]
        exact ⟨Nat.le_refl _, hlt⟩
      · rw [hloop]
        rcases Nat.lt_or_ge (bit + (len + 1)) stop with hnext | hnext
        · rw [saturatingAdd_of_lt (by omega), saturatingAdd_of_lt (by omega)]
          apply (ih (bit + (len + 1)) (scanned + (len + 1)) (by omega) (by omega)).widen
          · intro b hb
            omega
          · intro b hb
            rcases Nat.lt_or_ge b (bit + (len + 1)) with hpassed | hlater
            · exact .inr (hskipped.no_run b hb.1 (by omega))
            · exact .inl ⟨hlater, hb.2⟩
        · -- everything up to `stop` has been looked at, also where the sum saturates
          have hover : maxBits ≤ saturatingAdd 32 scanned (len + 1) :=
            le_saturatingAdd hmax (by omega)
          rw [findFreeRunLoop_of_ge hover]
          intro b hb
          exact hskipped.no_run b hb.1 (by omega)
    · rw [findFreeRunLoop_of_ge (by omega)]
      intro b hb
      omega

/-- How far the second pass comes: one bit less when the last bit below the limit is clear. -/
def secondStop (bitmap : List Byte) (start maxBits : Nat) : Nat :=
  if bitmapTest bitmap (maxBits - 1) then start else start - 1

/-- What is scanned when the first pass is over leaves the second as many bits as it may look at: the
first pass ends at the last bit if that is set, and past it if it is clear. -/
theorem Skipped.secondStop_eq {len scanned : Nat} (hskipped : Skipped bitmap maxBits count bit len)
    (hstart : 0 < start) (hbit : bit < maxBits) (heq : scanned + start = bit)
    (hlast : maxBits ≤ bit + (len + 1)) :
    scanned + (len + 1) + secondStop bitmap start maxBits = maxBits := by
  have hlen := hskipped.le_limit
  unfold secondStop
  rcases Nat.lt_or_ge (bit + len) maxBits with hin | hout
  · have hset := hskipped.stopped hin
    rw [show bit + len = maxBits - 1 by omega] at hset
    rw [if_pos hset]
    omega
  · have hclear := hskipped.clear (len - 1) (by omega)
    rw [show bit + (len - 1) = maxBits - 1 by omega] at hclear
    rw [if_neg (by rw [hclear]; decide)]
    omega

/-- Both passes, from a bit of the first one on. -/
theorem findFreeRunLoop_from (hmax : maxBits < 2 ^ 32) (hcount : count < 2 ^ 32) (hstart : 0 < start)
    (fuel : Nat) : ∀ bit scanned, start ≤ bit → bit < maxBits → scanned + start = bit →
    maxBits + start ≤ bit + fuel →
    Searched bitmap maxBits count (fun b => bit ≤ b ∨ b < secondStop bitmap start maxBits)
      (findFreeRunLoop bitmap maxBits count fuel bit scanned) := by
  induction fuel with
  | zero =>
    intro bit scanned _ hbit _ hfuel
    omega
  | succ fuel ih =>
    intro bit scanned hlo hbit heq hfuel
    rcases @findFreeRunLoop_round bitmap bit maxBits count hmax hcount scanned hbit (by omega) fuel
      with hfound | ⟨len, hskipped, hloop⟩
    · rw [hfound]
      exact .inl (Nat.le_refl _)
    · rw [hloop]
      have hlen := hskipped.le_limit
      have hscanned : saturatingAdd 32 scanned (len + 1) = scanned + (len + 1) :=
        saturatingAdd_of_lt (by omega)
      rw [hscanned]
      rcases Nat.lt_or_ge (bit + (len + 1)) maxBits with hnext | hnext
      · rw [saturatingAdd_of_lt (by omega)]
        apply (ih (bit + (len + 1)) (scanned + (len + 1)) (by omega) hnext (by omega) (by omega)).widen
        · intro b hb
          omega
        · rintro b (hb | hb)
          · rcases Nat.lt_or_ge b (bit + (len + 1)) with hpassed | hlater
            · exact .inr (hskipped.no_run b hb (by omega))
            · exact .inl (.inl hlater)
          · exact .inl (.inr hb)
      · -- the loop goes round, and the second pass begins
        have hwrap : maxBits ≤ saturatingAdd 32 bit (len + 1) := le_saturatingAdd hmax hnext
        have hstop := hskipped.secondStop_eq hstart hbit heq hnext
        rw [findFreeRunLoop_wrap hwrap]
        apply (@findFreeRunLoop_pass bitmap maxBits count hmax hcount (secondStop bitmap start maxBits)
          (by omega) fuel 0 (scanned + (len + 1)) (by omega) (by omega)).widen
        · intro b hb
          exact .inr hb.2
        · rintro b (hb | hb)
          · refine .inr ?_
            rcases Nat.lt_or_ge (bit + len) b with hpast | hpassed
            · intro hclear
              have hshort := hskipped.short
              have hin := (hclear 0 (by omega)).1
              omega
            · exact hskipped.no_run b hb hpassed
          · exact .inl ⟨Nat.zero_le _, hb⟩

/-! ## The second search -/

/-- The bits that a search from inside the bitmap leaves out: none, or the one before the start when the
last bit is clear. -/
theorem not_searched_iff {b : Nat} : ¬ (start ≤ b ∨ b < secondStop bitmap start maxBits) ↔
    0 < start ∧ b = start - 1 ∧ bitmapTest bitmap (maxBits - 1) = false := by
  unfold secondStop
  cases bitmapTest bitmap (maxBits - 1) with
  | true =>
    simp only [if_true, Bool.true_eq_false, and_false, iff_false, not_not]
    omega
  | false =>
    simp only [Bool.false_eq_true, if_false, and_true]
    omega

/-- Where it looked at all the bits but those, the search is right unless the only run begins there. -/
theorem Searched.finds_iff (hin : 0 < start ∧ start < maxBits) {res : Option Nat}
    (h : Searched bitmap maxBits count (fun b => start ≤ b ∨ b < secondStop bitmap start maxBits) res)
    (hsound : ∀ {b}, res = some b → ClearRun bitmap maxBits count b) :
    Finds bitmap maxBits count res ↔ ¬ BeforeStart bitmap start maxBits count := by
  cases res with
  | some b =>
    refine iff_of_true (hsound rfl) fun hmissed => ?_
    -- a run that is found is not the one before the start
    obtain ⟨hpos, -, hlast, -, honly⟩ := hmissed
    have hb := honly b (hsound rfl)
    exact not_searched_iff.2 ⟨hpos, hb, hlast⟩ h
  | none =>
    constructor
    · intro hnone hmissed
      exact hnone _ hmissed.2.2.2.1
    · intro hmissed b hclear
      obtain ⟨hpos, rfl, hlast⟩ := not_searched_iff.1 fun hb => h b hb hclear
      refine hmissed ⟨hpos, hin.2, hlast, hclear, fun c hc => ?_⟩
      exact (not_searched_iff.1 fun hb => h c hb hc).2.1

/-- The search for a longer run is right but where it misses one. -/
theorem bitmapFindFreeRun_finds (hmax : maxBits < 2 ^ 32) (hcount : count < 2 ^ 32) (htwo : 2 ≤ count) :
    Finds bitmap maxBits count (bitmapFindFreeRun bitmap start maxBits count) ↔
      ¬ BeforeStart bitmap start maxBits count := by
  have hsound : ∀ {b}, bitmapFindFreeRun bitmap start maxBits count = some b →
      ClearRun bitmap maxBits count b := fun h => bitmapFindFreeRun_spec hmax htwo h
  have hloop : bitmapFindFreeRun bitmap start maxBits count =
      findFreeRunLoop bitmap maxBits count maxBits start 0 := by
    rw [bitmapFindFreeRun, if_neg (by omega), if_neg (by omega)]
  by_cases hin : 0 < start ∧ start < maxBits
  · have h := @findFreeRunLoop_from bitmap start maxBits count hmax hcount hin.1 maxBits start 0
      (Nat.le_refl _) hin.2 (Nat.zero_add _) (by omega)
    rw [← hloop] at h
    exact h.finds_iff hin hsound
  · -- one pass over all the bits
    have hzero : bitmapFindFreeRun bitmap start maxBits count =
        findFreeRunLoop bitmap maxBits count maxBits 0 0 := by
      rw [hloop]
      rcases Nat.eq_zero_or_pos start with rfl | hpos
      · rfl
      · exact findFreeRunLoop_wrap (by omega)
    have h := @findFreeRunLoop_pass bitmap maxBits count hmax hcount maxBits (Nat.le_refl _) maxBits 0 0
      (by omega) (by omega)
    rw [← hzero] at h
    refine iff_of_true ?_ fun hmissed => hin ⟨hmissed.1, hmissed.2.1⟩
    cases hres : bitmapFindFreeRun bitmap start maxBits count with
    | some b => exact hsound hres
    | none =>
      rw [hres] at h
      intro b hclear
      exact h b ⟨Nat.zero_le _, (hclear 0 (by omega)).1⟩ hclear

/-- Both searches are right exactly where the first does not leave the limit behind and the second does
not miss the run before its start. -/
theorem bitmap_searches_find (bitmap : List Byte) (start maxBits count : Nat) (hmax : maxBits < 2 ^ 32)
    (hcount : count < 2 ^ 32) :
    (Finds bitmap maxBits 1 (bitmapFindFree bitmap start maxBits) ↔ ¬ PastLimit bitmap start maxBits) ∧
    (Finds bitmap maxBits count (bitmapFindFreeRun bitmap start maxBits count) ↔
      ¬ (count = 1 ∧ PastLimit bitmap start maxBits ∨
        2 ≤ count ∧ BeforeStart bitmap start maxBits count)) := by
  refine ⟨bitmapFindFree_finds, ?_⟩
  by_cases hzero : count = 0
  · subst hzero
    refine iff_of_true ?_ (by omega)
    exact fun i hi => absurd hi (Nat.not_lt_zero i)
  by_cases hone : count = 1
  · subst hone
    rw [bitmapFindFreeRun, if_neg hzero, if_pos rfl, bitmapFindFree_finds]
    simp
  · rw [bitmapFindFreeRun_finds hmax hcount (by omega)]
    simp only [hone, false_and, false_or, show 2 ≤ count by omega, true_and]

/-- A run of three bits that begins before the start and ends at the limit is found when another one
begins there, too. -/
theorem bitmap_searches_find_small :
    Finds [0x03#8] 8 3 (bitmapFindFreeRun [0x03#8] 4 8 3) :=
  ((bitmap_searches_find [0x03#8] 4 8 3 (by decide) (by decide)).2).2 (by
    rintro (⟨h, -⟩ | ⟨-, h⟩)
    · cases h
    · exact absurd (h.2.2.2.2 4 (by decide)) (by decide))

/-- The first search answers a bit past the limit; the second misses the bits 3 to 7. -/
theorem bitmap_searches_miss :
    (bitmapFindFree [0xFF#8, 0x00#8] 12 8 = some 8 ∧ ¬ ClearRun [0xFF#8, 0x00#8] 8 1 8) ∧
    (bitmapFindFreeRun [0x07#8] 4 8 5 = none ∧ ClearRun [0x07#8] 8 5 3) := by
  refine ⟨⟨?_, ?_⟩, ?_, ?_⟩ <;> decide

end SlateOS.Fs.Ext4
