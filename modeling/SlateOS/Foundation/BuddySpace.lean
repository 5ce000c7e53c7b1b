/-
# SlateOS.Foundation.BuddySpace -- a set of disjoint dyadic blocks

What a buddy allocator's free lists are, without the lists' representation: for each order `o` a
list `L o` of bases of blocks of level `g + o`, `g` being the level of the smallest block and `M`
the largest order. `Space` says that the blocks are aligned, inside a limit and pairwise disjoint;
`Fits` that one more block may be added. `Adds L x o L'` says that `L'` is `L` with one block more,
wherever it was put, and serves both directions: adding is read from left to right, removing from
right to left. Splitting and merging are two lemmas about `Fits`.

`Cover` is the set of addresses the blocks make up and `weight` their number in smallest blocks;
`NoFreeBuddies` is full coalescing.
-/
import Mathlib.Data.Nat.Bitwise
import Mathlib.Tactic.Ring
import Mathlib.Algebra.BigOperators.Ring.Finset
import Mathlib.Algebra.Order.BigOperators.Group.Finset
import Mathlib.Order.Interval.Finset.Nat

/-! ## Dyadic blocks and their buddies

A dyadic block of level `n` is an interval `[a, a + 2^n)` whose base is a multiple of `2^n`. Two
blocks are nested or disjoint, a block of level `n + 1` is the disjoint union of its two halves, and
flipping bit `n` of a base (`buddy n a = a ^^^ 2^n`) exchanges the halves. These four facts are all
that a buddy allocator, a radix tree or a power-of-two segment tree needs of its addresses.
-/

namespace SlateOS.Foundation.Dyadic

/-- The points of the block of level `n` at `a`. -/
def Within (n a f : Nat) : Prop := a ≤ f ∧ f < a + 2 ^ n

instance (n a f : Nat) : Decidable (Within n a f) := inferInstanceAs (Decidable (_ ∧ _))

/-- Two blocks have no point in common. -/
def Disjoint (m a n b : Nat) : Prop := ∀ f, Within m a f → ¬ Within n b f

theorem within_base (n a : Nat) : Within n a a :=
  ⟨le_refl a, Nat.lt_add_of_pos_right (Nat.two_pow_pos n)⟩

theorem Disjoint.symm {m a n b : Nat} (h : Disjoint m a n b) : Disjoint n b m a :=
  fun f hb ha => h f ha hb

/-- The other block of the same level inside the enclosing block of level `n + 1`. -/
def buddy (n a : Nat) : Nat := a ^^^ 2 ^ n

@[simp] theorem buddy_buddy (n a : Nat) : buddy n (buddy n a) = a := by
  simp [buddy]

/-! ## The two halves of a block -/

theorem buddy_mul (n q : Nat) : buddy n (q * 2 ^ n) = (q ^^^ 1) * 2 ^ n := by
  have h : (q ^^^ 1) <<< n = q <<< n ^^^ 1 <<< n := Nat.shiftLeft_xor_distrib
  simpa [buddy, Nat.shiftLeft_eq] using h.symm

/-- The buddy of a lower half is the upper half. -/
theorem buddy_lower {n a : Nat} (h : 2 ^ (n + 1) ∣ a) : buddy n a = a + 2 ^ n := by
  obtain ⟨q, rfl⟩ := h
  have he : 2 ^ (n + 1) * q = (2 * q) * 2 ^ n := by ring
  rw [he, buddy_mul, Nat.xor_one_of_even (even_two_mul q)]
  ring

/-- The buddy of an upper half is the lower half, which is aligned one level higher. -/
theorem buddy_upper {n a : Nat} (h : 2 ^ n ∣ a) (hodd : ¬ 2 ^ (n + 1) ∣ a) :
    buddy n a + 2 ^ n = a ∧ 2 ^ (n + 1) ∣ buddy n a := by
  obtain ⟨q, rfl⟩ := h
  have hq : q % 2 = 1 := by
    by_contra hne
    have h0 : q % 2 = 0 := by omega
    refine hodd ⟨q / 2, ?_⟩
    have : q = 2 * (q / 2) := by omega
    calc 2 ^ n * q = 2 ^ n * (2 * (q / 2)) := by rw [← this]
      _ = 2 ^ (n + 1) * (q / 2) := by ring
  have hqo : Odd q := Nat.odd_iff.mpr hq
  have hb : buddy n (2 ^ n * q) = (q - 1) * 2 ^ n := by
    rw [Nat.mul_comm, buddy_mul, Nat.xor_one_of_odd hqo]
  obtain ⟨r, hr⟩ : ∃ r, q = 2 * r + 1 := hqo
  subst hr
  rw [hb]
  constructor
  · simp only [Nat.add_sub_cancel]
    ring
  · exact ⟨r, by simp only [Nat.add_sub_cancel]; ring⟩

theorem buddy_aligned {n a : Nat} (h : 2 ^ n ∣ a) : 2 ^ n ∣ buddy n a := by
  obtain ⟨q, rfl⟩ := h
  rw [Nat.mul_comm, buddy_mul]
  exact Nat.dvd_mul_left _ _

theorem buddy_ne (n a : Nat) : buddy n a ≠ a := by
  intro h
  have h1 : a ^^^ 2 ^ n = a ^^^ 0 := by
    rw [Nat.xor_zero]
    exact h
  exact absurd (Nat.xor_right_injective h1) (Nat.two_pow_pos n).ne'

/-- The lower of a block and its buddy is the base of the enclosing block. -/
theorem min_buddy_aligned {n a : Nat} (h : 2 ^ n ∣ a) : 2 ^ (n + 1) ∣ min a (buddy n a) := by
  by_cases he : 2 ^ (n + 1) ∣ a
  · rw [buddy_lower he, Nat.min_eq_left (by omega)]
    exact he
  · obtain ⟨hb, hd⟩ := buddy_upper h he
    rw [Nat.min_eq_right (by omega)]
    exact hd

/-- A block and its buddy make up the enclosing block. -/
theorem within_min_buddy {n a : Nat} (h : 2 ^ n ∣ a) (f : Nat) :
    Within (n + 1) (min a (buddy n a)) f ↔ Within n a f ∨ Within n (buddy n a) f := by
  have hp : 2 ^ (n + 1) = 2 ^ n + 2 ^ n := by ring
  by_cases he : 2 ^ (n + 1) ∣ a
  · rw [buddy_lower he, Nat.min_eq_left (by omega)]
    simp only [Within]
    omega
  · obtain ⟨hb, _⟩ := buddy_upper h he
    rw [Nat.min_eq_right (by omega)]
    simp only [Within]
    omega

/-- A block of level `n + 1` is its lower and its upper half. -/
theorem within_succ (n a f : Nat) :
    Within (n + 1) a f ↔ Within n a f ∨ Within n (a + 2 ^ n) f := by
  have hp : 2 ^ (n + 1) = 2 ^ n + 2 ^ n := by ring
  simp only [Within]
  omega

/-- The halves of an aligned block are aligned one level lower. -/
theorem upper_aligned {n a : Nat} (h : 2 ^ (n + 1) ∣ a) : 2 ^ n ∣ a + 2 ^ n :=
  Nat.dvd_add ((Nat.pow_dvd_pow 2 (Nat.le_succ n)).trans h) (Nat.dvd_refl _)

/-! ## Blocks against points of a coarser grid -/

/-- A block that begins before a point of its grid ends there or before. -/
theorem add_le_of_lt {n a c : Nat} (ha : 2 ^ n ∣ a) (hc : 2 ^ n ∣ c) (hlt : a < c) : a + 2 ^ n ≤ c := by
  obtain ⟨q, rfl⟩ := ha
  obtain ⟨r, rfl⟩ := hc
  have hqr : q + 1 ≤ r := Nat.lt_of_mul_lt_mul_left hlt
  calc 2 ^ n * q + 2 ^ n = 2 ^ n * (q + 1) := by ring
    _ ≤ 2 ^ n * r := Nat.mul_le_mul_left _ hqr

/-- **Nested or disjoint**: a block that meets one of a higher level lies inside it. -/
theorem within_of_meet {m n a b f : Nat} (hmn : m ≤ n) (ha : 2 ^ m ∣ a) (hb : 2 ^ n ∣ b) (hfa : Within m a f)
    (hfb : Within n b f) {i : Nat} (hi : Within m a i) : Within n b i := by
  have hpow : 2 ^ m ∣ 2 ^ n := Nat.pow_dvd_pow 2 hmn
  have hbm : 2 ^ m ∣ b := hpow.trans hb
  have hlow : b ≤ a := by
    by_contra hlt
    have hle := add_le_of_lt ha hbm (not_le.mp hlt)
    exact absurd (hfa.2.trans_le (hle.trans hfb.1)) (lt_irrefl f)
  have hhigh : a + 2 ^ m ≤ b + 2 ^ n :=
    add_le_of_lt ha (Nat.dvd_add hbm hpow) (hfa.1.trans_lt hfb.2)
  exact ⟨hlow.trans hi.1, hi.2.trans_le hhigh⟩

/-- Two blocks of one level that meet are one. -/
theorem eq_of_meet {n a b f : Nat} (ha : 2 ^ n ∣ a) (hb : 2 ^ n ∣ b) (hfa : Within n a f) (hfb : Within n b f) :
    a = b :=
  le_antisymm (within_of_meet le_rfl hb ha hfb hfa (within_base n b)).1
    (within_of_meet le_rfl ha hb hfa hfb (within_base n a)).1

end SlateOS.Foundation.Dyadic

/-! ## A set of disjoint dyadic blocks -/

namespace SlateOS.Foundation.BuddySpace

open Foundation.Dyadic

variable {g M limit : Nat} {L L' : Nat → List Nat} {x y o p f : Nat}

/-! ## Definitions -/

/-- The addresses inside some block. -/
def Cover (g : Nat) (L : Nat → List Nat) (f : Nat) : Prop := ∃ o, ∃ x ∈ L o, Within (g + o) x f

/-- **The shape of a free space**: aligned blocks of order at most `M` below `limit`, no two of
which meet. -/
structure Space (g M limit : Nat) (L : Nat → List Nat) : Prop where
  order_le : ∀ {x o}, x ∈ L o → o ≤ M
  aligned : ∀ {x o}, x ∈ L o → 2 ^ (g + o) ∣ x
  bounded : ∀ {x o}, x ∈ L o → x + 2 ^ (g + o) ≤ limit
  nodup : ∀ o, (L o).Nodup
  disjoint : ∀ {x o y p f}, x ∈ L o → y ∈ L p → Within (g + o) x f → Within (g + p) y f →
    x = y ∧ o = p

/-- A block that may be added: well formed and outside every block there is. -/
structure Fits (g M limit : Nat) (L : Nat → List Nat) (x o : Nat) : Prop where
  order_le : o ≤ M
  aligned : 2 ^ (g + o) ∣ x
  bounded : x + 2 ^ (g + o) ≤ limit
  fresh : ∀ f, Within (g + o) x f → ¬ Cover g L f

/-- `L'` is `L` with the block `x` of order `o` besides. -/
structure Adds (L : Nat → List Nat) (x o : Nat) (L' : Nat → List Nat) : Prop where
  perm : (L' o).Perm (x :: L o)
  other : ∀ p, p ≠ o → L' p = L p

/-- The size of the space in smallest blocks. -/
def weight (M : Nat) (L : Nat → List Nat) : Nat := ∑ o ∈ Finset.range (M + 1), 2 ^ o * (L o).length

/-- No block below the largest order has its buddy beside it in the space. -/
def NoFreeBuddies (g M : Nat) (L : Nat → List Nat) : Prop :=
  ∀ o, o < M → ∀ x ∈ L o, buddy (g + o) x ∉ L o

theorem cover_of_mem (h : x ∈ L o) : Cover g L x := ⟨o, x, h, within_base _ _⟩

/-! ## One block more -/

theorem Adds.mem_iff (h : Adds L x o L') : y ∈ L' p ↔ y ∈ L p ∨ (y = x ∧ p = o) := by
  by_cases hp : p = o
  · subst hp
    rw [h.perm.mem_iff, List.mem_cons]
    tauto
  · rw [h.other p hp]
    tauto

theorem Adds.mem_self (h : Adds L x o L') : x ∈ L' o := h.mem_iff.mpr (Or.inr ⟨rfl, rfl⟩)

theorem Adds.mem_of_mem (h : Adds L x o L') (hy : y ∈ L p) : y ∈ L' p := h.mem_iff.mpr (Or.inl hy)

theorem Adds.cover_iff (h : Adds L x o L') :
    Cover g L' f ↔ Cover g L f ∨ Within (g + o) x f := by
  constructor
  · rintro ⟨p, y, hy, hw⟩
    rcases h.mem_iff.mp hy with hy | ⟨rfl, rfl⟩
    · exact Or.inl ⟨p, y, hy, hw⟩
    · exact Or.inr hw
  · rintro (⟨p, y, hy, hw⟩ | hw)
    · exact ⟨p, y, h.mem_of_mem hy, hw⟩
    · exact ⟨o, x, h.mem_self, hw⟩

/-- Erasing a listed block is adding it, backwards. -/
theorem adds_erase (h : x ∈ L o) : Adds (Function.update L o ((L o).erase x)) x o L := by
  constructor
  · rw [Function.update_self]
    exact List.perm_cons_erase h
  · intro p hp
    rw [Function.update_of_ne hp]

/-- A block that fits may be added. -/
theorem Space.add (hs : Space g M limit L) (hf : Fits g M limit L x o) (h : Adds L x o L') :
    Space g M limit L' where
  order_le hy := by
    rcases h.mem_iff.mp hy with hy | ⟨rfl, rfl⟩
    · exact hs.order_le hy
    · exact hf.order_le
  aligned hy := by
    rcases h.mem_iff.mp hy with hy | ⟨rfl, rfl⟩
    · exact hs.aligned hy
    · exact hf.aligned
  bounded hy := by
    rcases h.mem_iff.mp hy with hy | ⟨rfl, rfl⟩
    · exact hs.bounded hy
    · exact hf.bounded
  nodup p := by
    by_cases hp : p = o
    · subst hp
      have hx : x ∉ L p := fun hm => hf.fresh x (within_base _ _) (cover_of_mem hm)
      exact h.perm.nodup_iff.mpr (List.nodup_cons.mpr ⟨hx, hs.nodup p⟩)
    · rw [h.other p hp]
      exact hs.nodup p
  disjoint hy hz hwy hwz := by
    rcases h.mem_iff.mp hy with hy | ⟨rfl, rfl⟩ <;> rcases h.mem_iff.mp hz with hz | ⟨rfl, rfl⟩
    · exact hs.disjoint hy hz hwy hwz
    · exact absurd ⟨_, _, hy, hwy⟩ (hf.fresh _ hwz)
    · exact absurd ⟨_, _, hz, hwz⟩ (hf.fresh _ hwy)
    · exact ⟨rfl, rfl⟩

/-- What is left when a block is removed is a space, and the block fits into it. -/
theorem Space.remove (hs : Space g M limit L') (h : Adds L x o L') :
    Space g M limit L ∧ Fits g M limit L x o := by
  have hnd : x ∉ L o := (List.nodup_cons.mp (h.perm.nodup_iff.mp (hs.nodup o))).1
  refine ⟨⟨fun hy => hs.order_le (h.mem_of_mem hy), fun hy => hs.aligned (h.mem_of_mem hy),
    fun hy => hs.bounded (h.mem_of_mem hy), fun p => ?_, fun hy hz =>
      hs.disjoint (h.mem_of_mem hy) (h.mem_of_mem hz)⟩,
    ⟨hs.order_le h.mem_self, hs.aligned h.mem_self, hs.bounded h.mem_self, ?_⟩⟩
  · by_cases hp : p = o
    · subst hp
      exact (List.nodup_cons.mp (h.perm.nodup_iff.mp (hs.nodup p))).2
    · rw [← h.other p hp]
      exact hs.nodup p
  · rintro f hw ⟨p, y, hy, hwy⟩
    obtain ⟨rfl, rfl⟩ := hs.disjoint h.mem_self (h.mem_of_mem hy) hw hwy
    exact hnd hy

theorem Adds.weight_eq (h : Adds L x o L') (ho : o ≤ M) : weight M L' = weight M L + 2 ^ o := by
  have hmem : o ∈ Finset.range (M + 1) := Finset.mem_range.mpr (by omega)
  unfold weight
  rw [← Finset.add_sum_erase _ _ hmem, ← Finset.add_sum_erase _ _ hmem, h.perm.length_eq]
  have hrest : ∑ p ∈ (Finset.range (M + 1)).erase o, 2 ^ p * (L' p).length =
      ∑ p ∈ (Finset.range (M + 1)).erase o, 2 ^ p * (L p).length :=
    Finset.sum_congr rfl fun p hp => by rw [h.other p (Finset.ne_of_mem_erase hp)]
  rw [hrest, List.length_cons]
  ring

/-! ## Size -/

/-- The blocks are disjoint parts of `[0, limit)`, so their sizes add up to at most `limit`. -/
theorem Space.weight_le (hs : Space g M limit L) : weight M L * 2 ^ g ≤ limit := by
  classical
  let S : Finset (Σ _ : Nat, Nat) := (Finset.range (M + 1)).sigma fun o => (L o).toFinset
  let block : (Σ _ : Nat, Nat) → Finset Nat := fun b => Finset.Ico b.2 (b.2 + 2 ^ (g + b.1))
  have hmem : ∀ b ∈ S, b.2 ∈ L b.1 := by
    intro b hb
    exact List.mem_toFinset.mp (Finset.mem_sigma.mp hb).2
  have hdisj : Set.PairwiseDisjoint S block := by
    intro b hb c hc hne
    refine Finset.disjoint_left.mpr fun f hfb hfc => ?_
    obtain ⟨h1, h2⟩ := hs.disjoint (hmem b hb) (hmem c hc) (Finset.mem_Ico.mp hfb)
      (Finset.mem_Ico.mp hfc)
    exact hne (Sigma.ext h2 (heq_of_eq h1))
  have hsub : S.biUnion block ⊆ Finset.range limit := by
    intro f hf
    obtain ⟨b, hb, hfb⟩ := Finset.mem_biUnion.mp hf
    have hle := hs.bounded (hmem b hb)
    have hlt := (Finset.mem_Ico.mp hfb).2
    exact Finset.mem_range.mpr (by omega)
  calc weight M L * 2 ^ g = ∑ o ∈ Finset.range (M + 1), ∑ _x ∈ (L o).toFinset, 2 ^ (g + o) := by
        unfold weight
        rw [Finset.sum_mul]
        refine Finset.sum_congr rfl fun o _ => ?_
        rw [Finset.sum_const, List.toFinset_card_of_nodup (hs.nodup o), Nat.nsmul_eq_mul, pow_add]
        ring
    _ = ∑ b ∈ S, (block b).card := by
        rw [Finset.sum_sigma]
        refine Finset.sum_congr rfl fun o _ => Finset.sum_congr rfl fun x _ => ?_
        simp [block]
    _ = (S.biUnion block).card := (Finset.card_biUnion hdisj).symm
    _ ≤ (Finset.range limit).card := Finset.card_le_card hsub
    _ = limit := Finset.card_range limit

theorem length_le_weight (ho : o ≤ M) : (L o).length ≤ weight M L := by
  have hmem : o ∈ Finset.range (M + 1) := Finset.mem_range.mpr (by omega)
  calc (L o).length ≤ 2 ^ o * (L o).length := Nat.le_mul_of_pos_left _ (Nat.two_pow_pos o)
    _ ≤ weight M L :=
        Finset.single_le_sum (f := fun p => 2 ^ p * (L p).length) (fun _ _ => Nat.zero_le _) hmem

/-! ## Splitting and merging -/

/-- The upper half of a block fits where the block does. -/
theorem Fits.upper (hf : Fits g M limit L x (o + 1)) : Fits g M limit L (x + 2 ^ (g + o)) o where
  order_le := by
    have := hf.order_le
    omega
  aligned := upper_aligned hf.aligned
  bounded := by
    have hb := hf.bounded
    have hp : 2 ^ (g + (o + 1)) = 2 ^ (g + o) + 2 ^ (g + o) := by ring
    omega
  fresh f hw := hf.fresh f ((within_succ _ _ _).mpr (Or.inr hw))

/-- **Splitting.** Once the upper half of a block that fits is added, the lower half still fits. -/
theorem Fits.lower (hf : Fits g M limit L x (o + 1)) (h : Adds L (x + 2 ^ (g + o)) o L') :
    Fits g M limit L' x o where
  order_le := by
    have := hf.order_le
    omega
  aligned := (Nat.pow_dvd_pow 2 (by omega)).trans hf.aligned
  bounded := by
    have hb := hf.bounded
    have hp : 2 ^ (g + (o + 1)) = 2 ^ (g + o) + 2 ^ (g + o) := by ring
    have hpos := Nat.two_pow_pos (g + o)
    omega
  fresh f hw hc := by
    rcases h.cover_iff.mp hc with hc | hu
    · exact hf.fresh f ((within_succ _ _ _).mpr (Or.inl hw)) hc
    · simp only [Within] at hw hu
      omega

/-- **Merging.** Once a block's buddy is removed, the block around both fits. -/
theorem Fits.merge (hf : Fits g M limit L' x o) (ho : o < M) (hs : Space g M limit L')
    (h : Adds L (buddy (g + o) x) o L') :
    Fits g M limit L (min x (buddy (g + o) x)) (o + 1) where
  order_le := ho
  aligned := min_buddy_aligned hf.aligned
  bounded := by
    have hp : 2 ^ (g + (o + 1)) = 2 ^ (g + o) + 2 ^ (g + o) := by ring
    have hx := hf.bounded
    have hb := hs.bounded h.mem_self
    by_cases he : 2 ^ (g + o + 1) ∣ x
    · rw [buddy_lower he] at hb ⊢
      omega
    · have hu := (buddy_upper hf.aligned he).1
      omega
  fresh f hw hc := by
    rcases (within_min_buddy hf.aligned f).mp hw with hwx | hwb
    · exact hf.fresh f hwx (h.cover_iff.mpr (Or.inl hc))
    · exact (hs.remove h).2.fresh f hwb hc

/-! ## Full coalescing -/

/-- A block whose buddy is absent may be added to a fully coalesced space. -/
theorem NoFreeBuddies.add (hn : NoFreeBuddies g M L) (h : Adds L x o L')
    (hb : o < M → buddy (g + o) x ∉ L o) : NoFreeBuddies g M L' := by
  intro p hp y hy hby
  rcases h.mem_iff.mp hy with hy | ⟨rfl, rfl⟩
  · rcases h.mem_iff.mp hby with hby | ⟨hbx, rfl⟩
    · exact hn p hp y hy hby
    · refine hb hp ?_
      rw [← hbx, buddy_buddy]
      exact hy
  · rcases h.mem_iff.mp hby with hby | ⟨hbx, _⟩
    · exact hb hp hby
    · exact buddy_ne _ _ hbx

theorem NoFreeBuddies.remove (hn : NoFreeBuddies g M L') (h : Adds L x o L') :
    NoFreeBuddies g M L :=
  fun p hp y hy hb => hn p hp y (h.mem_of_mem hy) (h.mem_of_mem hb)

/-- **A fully coalesced space keeps no room hidden**: aligned room of some order lies inside one block of at least
that order. -/
theorem exists_block_of_covered (hs : Space g M limit L) (hn : NoFreeBuddies g M L) (ho : o ≤ M)
    (hx : 2 ^ (g + o) ∣ x) (hall : ∀ f, Within (g + o) x f → Cover g L f) :
    ∃ p, o ≤ p ∧ ∃ y ∈ L p, ∀ f, Within (g + o) x f → Within (g + p) y f := by
  induction o generalizing x with
  | zero =>
    obtain ⟨p, y, hy, hin⟩ := hall x (within_base _ _)
    exact ⟨p, Nat.zero_le p, y, hy, fun f hf =>
      within_of_meet (by omega) hx (hs.aligned hy) (within_base _ _) hin hf⟩
  | succ o ih =>
    have hlow : 2 ^ (g + o) ∣ x := (Nat.pow_dvd_pow 2 (by omega)).trans hx
    obtain ⟨p, hp, y, hy, hpy⟩ := ih (by omega) hlow fun f hf => hall f ((within_succ _ _ _).mpr (Or.inl hf))
    have hin := hpy x (within_base _ _)
    by_cases hbig : o + 1 ≤ p
    · exact ⟨p, hbig, y, hy, fun f hf =>
        within_of_meet (by omega) hx (hs.aligned hy) (within_base _ _) hin hf⟩
    -- the lower half is a block by itself, so the upper half cannot be one
    obtain rfl : p = o := by omega
    obtain rfl : x = y := eq_of_meet hlow (hs.aligned hy) (within_base _ _) hin
    obtain ⟨q, hq, z, hz, hqz⟩ := ih (by omega) (upper_aligned hx) fun f hf =>
      hall f ((within_succ _ _ _).mpr (Or.inr hf))
    have hinz := hqz _ (within_base _ _)
    have hupper : Within (g + (p + 1)) x (x + 2 ^ (g + p)) :=
      (within_succ _ _ _).mpr (Or.inr (within_base _ _))
    by_cases hbig' : p + 1 ≤ q
    · exact ⟨q, hbig', z, hz, fun f hf =>
        within_of_meet (by omega) hx (hs.aligned hz) hupper hinz hf⟩
    obtain rfl : q = p := by omega
    obtain rfl : x + 2 ^ (g + q) = z :=
      eq_of_meet (upper_aligned hx) (hs.aligned hz) (within_base _ _) hinz
    exact absurd (buddy_lower (n := g + q) hx ▸ hz) (hn q (by omega) x hy)

end SlateOS.Foundation.BuddySpace
