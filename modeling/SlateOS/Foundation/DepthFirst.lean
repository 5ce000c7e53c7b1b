/-
# SlateOS.Foundation.DepthFirst -- exploring a graph depth first

A graph has finitely many nodes; each is a leaf or has successors in order, and what is carried along changes at each
node. `visit` marks nodes as it comes to them and puts out the leaves, with what was carried there first; `explore`
keeps a stack instead, carries nothing, and may refuse a node. Both take fuel, and no more than the unmarked nodes
ask for.
-/
import Mathlib.Data.Finset.Card
import Mathlib.Logic.Relation

namespace SlateOS.Foundation.DepthFirst

universe u v

variable {α : Type u} {δ : Type v}

open Relation (ReflTransGen)

/-! ## Visiting -/

/-- Nodes, leaves and successors, and what becomes of the data carried through a node. -/
structure Graph (α : Type u) (δ : Type v) where
  nodes : Finset α
  leaf : α → Bool
  succ : α → List α
  carry : α → δ → δ

/-- The nodes marked, the latest first, and the leaves put out, the latest last. -/
structure Visited (α : Type u) (δ : Type v) where
  seen : List α
  out : List (α × δ)

/-- Nothing visited. -/
def Visited.none : Visited α δ := ⟨[], []⟩

/-- The nodes marked before are marked, and the leaves put out before are out, in front. -/
structure Extends (v v' : Visited α δ) : Prop where
  seen : ∀ x ∈ v.seen, x ∈ v'.seen
  out : v.out <+: v'.out

theorem Extends.refl (v : Visited α δ) : Extends v v := ⟨fun _ h => h, List.prefix_rfl⟩

theorem Extends.trans {v v' v'' : Visited α δ} (h : Extends v v') (h' : Extends v' v'') : Extends v v'' :=
  ⟨fun x hx => h'.seen x (h.seen x hx), h.out.trans h'.out⟩

/-- The leaves that are out are the marked ones. -/
def LeavesOut (g : Graph α δ) (v : Visited α δ) : Prop :=
  ∀ x, (∃ d, (x, d) ∈ v.out) ↔ x ∈ v.seen ∧ g.leaf x = true

theorem leavesOut_none {g : Graph α δ} : LeavesOut g Visited.none := by simp [LeavesOut, Visited.none]

theorem LeavesOut.mark {g : Graph α δ} {v : Visited α δ} {x : α} (h : LeavesOut g v) (hleaf : g.leaf x = false) :
    LeavesOut g ⟨x :: v.seen, v.out⟩ := by
  intro y
  rw [h y, List.mem_cons]
  refine ⟨fun hy => ⟨.inr hy.1, hy.2⟩, fun ⟨hy, hyleaf⟩ => ⟨hy.resolve_left fun heq => ?_, hyleaf⟩⟩
  rw [heq, hleaf] at hyleaf
  cases hyleaf

/-- A function of successors leads from one node to another. -/
def Leads (succ : α → Option (List α)) (x y : α) : Prop := ∃ ys, succ x = some ys ∧ y ∈ ys

/-- The marks are all that is reached from the root, and all of it has successors to give; or something reached has
none. -/
def Explored (succ : α → Option (List α)) (root : α) : Option (List α) → Prop
  | some marked => ∀ x, (x ∈ marked ↔ ReflTransGen (Leads succ) root x) ∧ (x ∈ marked → succ x ≠ none)
  | none => ∃ x, ReflTransGen (Leads succ) root x ∧ succ x = none

/-- What is marked leads to what is marked or on the stack, the root is there, and all of it is reached. -/
structure Frontier (succ : α → Option (List α)) (root : α) (stack seen : List α) : Prop where
  leads : ∀ x ∈ seen, ∃ ys, succ x = some ys ∧ ∀ y ∈ ys, y ∈ seen ∨ y ∈ stack
  root_mem : root ∈ seen ∨ root ∈ stack
  reached : ∀ x, x ∈ seen ∨ x ∈ stack → ReflTransGen (Leads succ) root x

namespace Frontier

variable {succ : α → Option (List α)} {root x : α} {stack seen ys : List α}

theorem start (root : α) : Frontier succ root [root] [] := by
  refine ⟨fun x hx => absurd hx List.not_mem_nil, .inr List.mem_cons_self, fun x hx => ?_⟩
  rw [List.mem_singleton.mp (hx.resolve_left List.not_mem_nil)]

/-- With nothing on the stack, all that is reached is marked. -/
theorem explored (h : Frontier succ root [] seen) : Explored succ root (some seen) := by
  refine fun x => ⟨⟨fun hx => h.reached x (.inl hx), fun hreach => ?_⟩, fun hx hnone => ?_⟩
  swap
  · obtain ⟨ys, hys, -⟩ := h.leads x hx
    rw [hnone] at hys
    cases hys
  induction hreach with
  | refl => exact h.root_mem.resolve_right List.not_mem_nil
  | tail _ hstep ih =>
    obtain ⟨ys, hys, hmem⟩ := hstep
    obtain ⟨ys', hys', hnext⟩ := h.leads _ ih
    rw [hys] at hys'
    cases hys'
    exact (hnext _ hmem).resolve_right List.not_mem_nil

theorem drop (h : Frontier succ root (x :: stack) seen) (hseen : x ∈ seen) : Frontier succ root stack seen := by
  have hstay : ∀ {y}, y ∈ seen ∨ y ∈ x :: stack → y ∈ seen ∨ y ∈ stack := by
    rintro y (hy | hy)
    · exact .inl hy
    · rcases List.mem_cons.mp hy with rfl | hy
      · exact .inl hseen
      · exact .inr hy
  refine ⟨fun z hz => ?_, hstay h.root_mem, fun z hz => h.reached z (hz.imp_right (List.mem_cons_of_mem _))⟩
  obtain ⟨ys, hys, hnext⟩ := h.leads z hz
  exact ⟨ys, hys, fun y hy => hstay (hnext y hy)⟩

theorem mark (h : Frontier succ root (x :: stack) seen) (hys : succ x = some ys) :
    Frontier succ root (ys ++ stack) (x :: seen) := by
  have hstay : ∀ {y}, y ∈ seen ∨ y ∈ x :: stack → y ∈ x :: seen ∨ y ∈ ys ++ stack := by
    rintro y (hy | hy)
    · exact .inl (List.mem_cons_of_mem _ hy)
    · rcases List.mem_cons.mp hy with rfl | hy
      · exact .inl List.mem_cons_self
      · exact .inr (List.mem_append_right _ hy)
  refine ⟨fun z hz => ?_, hstay h.root_mem, fun z hz => ?_⟩
  · rcases List.mem_cons.mp hz with rfl | hz
    · exact ⟨ys, hys, fun y hy => .inr (List.mem_append_left _ hy)⟩
    · obtain ⟨zs, hzs, hnext⟩ := h.leads z hz
      exact ⟨zs, hzs, fun y hy => hstay (hnext y hy)⟩
  · have hx := h.reached x (.inr List.mem_cons_self)
    rcases hz with hz | hz
    · rcases List.mem_cons.mp hz with rfl | hz
      · exact hx
      · exact h.reached z (.inl hz)
    · rcases List.mem_append.mp hz with hz | hz
      · exact hx.tail ⟨ys, hys, hz⟩
      · exact h.reached z (.inr (List.mem_cons_of_mem _ hz))

end Frontier

variable (g : Graph α δ)

/-- One step, with what it carries. -/
def Graph.Step (p q : α × δ) : Prop :=
  (p.1 ∈ g.nodes ∧ g.leaf p.1 = false) ∧ q.1 ∈ g.succ p.1 ∧ q.2 = g.carry p.1 p.2

/-- One step between nodes, whatever it carries. -/
def Graph.Edge (x y : α) : Prop := (x ∈ g.nodes ∧ g.leaf x = false) ∧ y ∈ g.succ x ∧ y ∈ g.nodes

/-- A set of nodes with no leaf, that leads nowhere else. -/
structure Barren (B : α → Prop) : Prop where
  leaf : ∀ x, B x → g.leaf x = false
  closed : ∀ x y, B x → g.Edge x y → B y

/-- The same leaves out, and the same marks off `B`. -/
def AgreeOff (B : α → Prop) (v w : Visited α δ) : Prop := v.out = w.out ∧ ∀ x, ¬ B x → (x ∈ v.seen ↔ x ∈ w.seen)

theorem AgreeOff.trans {B : α → Prop} {u v w : Visited α δ} (h : AgreeOff B u v) (h' : AgreeOff B v w) : AgreeOff B u w :=
  ⟨h.1.trans h'.1, fun x hx => (h.2 x hx).trans (h'.2 x hx)⟩

theorem AgreeOff.symm {B : α → Prop} {v w : Visited α δ} (h : AgreeOff B v w) : AgreeOff B w v :=
  ⟨h.1.symm, fun x hx => (h.2 x hx).symm⟩

theorem AgreeOff.mark {B : α → Prop} {v v' : Visited α δ} (h : AgreeOff B v v') (x : α) : AgreeOff B ⟨x :: v.seen, v.out⟩ ⟨x :: v'.seen, v'.out⟩ := by
  refine ⟨h.1, fun y hy => ?_⟩
  simp only [List.mem_cons, h.2 y hy]

variable [DecidableEq α]

/-- Visits a node that is not marked, and all that it leads to. -/
def visit : Nat → α → δ → Visited α δ → Visited α δ
  | 0, _, _, v => v
  | fuel + 1, x, d, v =>
    if x ∈ g.nodes ∧ x ∉ v.seen then
      if g.leaf x then ⟨x :: v.seen, v.out ++ [(x, d)]⟩
      else (g.succ x).foldl (fun v y => visit fuel y (g.carry x d) v) ⟨x :: v.seen, v.out⟩
    else v

/-- Visits one root after another. -/
def visitAll (fuel : Nat) (roots : List (α × δ)) (v : Visited α δ) : Visited α δ :=
  roots.foldl (fun v r => visit g fuel r.1 r.2 v) v

/-- The nodes that are not marked. -/
def unmarked (v : Visited α δ) : Nat := (g.nodes.filter fun x => x ∉ v.seen).card

variable {g} {fuel : Nat} {x y : α} {d : δ} {v v' : Visited α δ} {roots : List (α × δ)} {B : α → Prop}

theorem visitAll_cons (r : α × δ) : visitAll g fuel (r :: roots) v = visitAll g fuel roots (visit g fuel r.1 r.2 v) := rfl

theorem visitAll_append (roots roots' : List (α × δ)) :
    visitAll g fuel (roots ++ roots') v = visitAll g fuel roots' (visitAll g fuel roots v) := List.foldl_append

theorem visit_of_not (h : ¬ (x ∈ g.nodes ∧ x ∉ v.seen)) : visit g fuel x d v = v := by
  cases fuel with
  | zero => rfl
  | succ fuel => rw [visit, if_neg h]

theorem visit_leaf (h : x ∈ g.nodes ∧ x ∉ v.seen) (hleaf : g.leaf x = true) :
    visit g (fuel + 1) x d v = ⟨x :: v.seen, v.out ++ [(x, d)]⟩ := by
  rw [visit, if_pos h, if_pos hleaf]

theorem visit_inner (h : x ∈ g.nodes ∧ x ∉ v.seen) (hleaf : g.leaf x = false) :
    visit g (fuel + 1) x d v =
      visitAll g fuel ((g.succ x).map fun y => (y, g.carry x d)) ⟨x :: v.seen, v.out⟩ := by
  rw [visit, if_pos h, if_neg (by simp [hleaf]), visitAll, List.foldl_map]

/-- What every visit of a root preserves, all of them do. -/
theorem visitAll_induct {P : Visited α δ → Prop} (hvisit : ∀ r ∈ roots, ∀ v, P v → P (visit g fuel r.1 r.2 v))
    (hv : P v) : P (visitAll g fuel roots v) := by
  induction roots generalizing v with
  | nil => exact hv
  | cons r roots ih =>
    exact ih (fun r' hr' => hvisit r' (List.mem_cons_of_mem _ hr')) (hvisit r List.mem_cons_self v hv)

/-! ### Marks and leaves are only added -/

theorem extends_visit (fuel : Nat) (x : α) (d : δ) (v : Visited α δ) : Extends v (visit g fuel x d v) := by
  induction fuel generalizing x d v with
  | zero => exact .refl v
  | succ fuel ih =>
    by_cases h : x ∈ g.nodes ∧ x ∉ v.seen
    · rcases hleaf : g.leaf x with - | -
      · rw [visit_inner h hleaf]
        have hmark : Extends v ⟨x :: v.seen, v.out⟩ := ⟨fun y hy => List.mem_cons_of_mem _ hy, List.prefix_rfl⟩
        exact visitAll_induct (P := Extends v) (fun r _ w hw => hw.trans (ih r.1 r.2 w)) hmark
      · rw [visit_leaf h hleaf]
        exact ⟨fun y hy => List.mem_cons_of_mem _ hy, List.prefix_append _ _⟩
    · rw [visit_of_not h]
      exact .refl v

theorem extends_visitAll (fuel : Nat) (roots : List (α × δ)) (v : Visited α δ) :
    Extends v (visitAll g fuel roots v) :=
  visitAll_induct (P := Extends v) (fun r _ w hw => hw.trans (extends_visit fuel r.1 r.2 w)) (.refl v)

theorem leavesOut_visit (fuel : Nat) (x : α) (d : δ) (hv : LeavesOut g v) : LeavesOut g (visit g fuel x d v) := by
  induction fuel generalizing x d v with
  | zero => exact hv
  | succ fuel ih =>
    by_cases h : x ∈ g.nodes ∧ x ∉ v.seen
    · rcases hleaf : g.leaf x with - | -
      · rw [visit_inner h hleaf]
        exact visitAll_induct (P := LeavesOut g) (fun r _ w hw => ih r.1 r.2 hw) (hv.mark hleaf)
      · rw [visit_leaf h hleaf]
        intro y
        have hy := hv y
        by_cases hxy : y = x
        · subst hxy
          simp [hleaf]
        · simp [hxy, hy]
    · rw [visit_of_not h]
      exact hv

theorem leavesOut_visitAll (fuel : Nat) (roots : List (α × δ)) (hv : LeavesOut g v) :
    LeavesOut g (visitAll g fuel roots v) :=
  visitAll_induct (P := LeavesOut g) (fun r _ _ hw => leavesOut_visit fuel r.1 r.2 hw) hv

/-- What is marked stays within what its edges do not leave. -/
theorem visit_seen {C : α → Prop} (hC : ∀ x y, C x → g.Edge x y → C y) (fuel : Nat) (hx : C x) (d : δ)
    (hv : ∀ y ∈ v.seen, C y) : ∀ y ∈ (visit g fuel x d v).seen, C y := by
  induction fuel generalizing x d v with
  | zero => exact hv
  | succ fuel ih =>
    by_cases h : x ∈ g.nodes ∧ x ∉ v.seen
    · have hmark : ∀ y ∈ x :: v.seen, C y := by
        intro y hy
        rcases List.mem_cons.mp hy with rfl | hy
        · exact hx
        · exact hv y hy
      rcases hleaf : g.leaf x with - | -
      · rw [visit_inner h hleaf]
        refine visitAll_induct (P := fun w => ∀ y ∈ w.seen, C y) (fun r hr w hw => ?_) hmark
        obtain ⟨y, hy, rfl⟩ := List.mem_map.mp hr
        by_cases hnode : y ∈ g.nodes
        · exact ih (hC x y hx ⟨⟨h.1, hleaf⟩, hy, hnode⟩) _ hw
        · rwa [visit_of_not fun hcon => hnode hcon.1]
      · rwa [visit_leaf h hleaf]
    · rwa [visit_of_not h]

/-! ### What is put out was reached -/

/-- A visit puts out leaves that its root reaches, behind those before. -/
theorem visit_out (fuel : Nat) (x : α) (d : δ) (v : Visited α δ) :
    ∃ new, (visit g fuel x d v).out = v.out ++ new ∧ ∀ o ∈ new, ReflTransGen g.Step (x, d) o := by
  induction fuel generalizing x d v with
  | zero => exact ⟨[], (List.append_nil _).symm, fun _ ho => absurd ho List.not_mem_nil⟩
  | succ fuel ih =>
    by_cases h : x ∈ g.nodes ∧ x ∉ v.seen
    · rcases hleaf : g.leaf x with - | -
      · rw [visit_inner h hleaf]
        refine visitAll_induct
          (P := fun w => ∃ new, w.out = v.out ++ new ∧ ∀ o ∈ new, ReflTransGen g.Step (x, d) o)
          (fun r hr w hw => ?_) ⟨[], (List.append_nil _).symm, fun _ ho => absurd ho List.not_mem_nil⟩
        obtain ⟨y, hy, rfl⟩ := List.mem_map.mp hr
        obtain ⟨new, hout, hnew⟩ := hw
        obtain ⟨new', hout', hnew'⟩ := ih y (g.carry x d) w
        refine ⟨new ++ new', by rw [hout', hout, List.append_assoc], fun o ho => ?_⟩
        rcases List.mem_append.mp ho with ho | ho
        · exact hnew o ho
        · exact (hnew' o ho).head ⟨⟨h.1, hleaf⟩, hy, rfl⟩
      · rw [visit_leaf h hleaf]
        refine ⟨[(x, d)], rfl, fun o ho => ?_⟩
        rw [List.mem_singleton.mp ho]
    · rw [visit_of_not h]
      exact ⟨[], (List.append_nil _).symm, fun _ ho => absurd ho List.not_mem_nil⟩

/-- **Every leaf put out was reached from a root**, with what the way there carries. -/
theorem visitAll_sound (fuel : Nat) (roots : List (α × δ)) (v : Visited α δ) :
    ∀ o ∈ (visitAll g fuel roots v).out, o ∈ v.out ∨ ∃ r ∈ roots, ReflTransGen g.Step r o := by
  refine visitAll_induct (P := fun w => ∀ o ∈ w.out, o ∈ v.out ∨ ∃ r ∈ roots, ReflTransGen g.Step r o)
    (fun r hr w hw o ho => ?_) fun o ho => .inl ho
  obtain ⟨new, hout, hnew⟩ := visit_out (g := g) fuel r.1 r.2 w
  rw [hout] at ho
  rcases List.mem_append.mp ho with ho | ho
  · exact hw o ho
  · exact .inr ⟨r, hr, hnew o ho⟩

/-- **The order of the roots is the order of what they reach**, in a relation that holds within each of them. -/
theorem visitAll_pairwise {R : α × δ → α × δ → Prop} (fuel : Nat) (roots : List (α × δ)) (v : Visited α δ)
    (hself : ∀ r ∈ roots, ∀ o o', ReflTransGen g.Step r o → ReflTransGen g.Step r o' → R o o')
    (hcross : roots.Pairwise fun r r' => ∀ o o', ReflTransGen g.Step r o → ReflTransGen g.Step r' o' → R o o')
    (hbefore : ∀ o ∈ v.out, ∀ r ∈ roots, ∀ o', ReflTransGen g.Step r o' → R o o') (hv : v.out.Pairwise R) :
    (visitAll g fuel roots v).out.Pairwise R := by
  induction roots generalizing v with
  | nil => exact hv
  | cons r roots ih =>
    obtain ⟨new, hout, hnew⟩ := visit_out (g := g) fuel r.1 r.2 v
    rw [List.pairwise_cons] at hcross
    refine ih _ (fun r' hr' => hself r' (List.mem_cons_of_mem _ hr')) hcross.2 (fun o ho r' hr' o' ho' => ?_) ?_
    · rw [hout] at ho
      rcases List.mem_append.mp ho with ho | ho
      · exact hbefore o ho r' (List.mem_cons_of_mem _ hr') o' ho'
      · exact hcross.1 r' hr' o o' (hnew o ho) ho'
    · rw [hout]
      refine List.pairwise_append.mpr ⟨hv, ?_, fun o ho o' ho' => hbefore o ho r List.mem_cons_self o' (hnew o' ho')⟩
      exact List.pairwise_of_forall_mem_list fun o ho o' ho' => hself r List.mem_cons_self o o' (hnew o ho) (hnew o' ho')

/-! ### All that can be reached is marked -/

theorem unmarked_le (h : Extends v v') : unmarked g v' ≤ unmarked g v := by
  refine Finset.card_le_card fun z hz => ?_
  obtain ⟨hz, hnot⟩ := Finset.mem_filter.mp hz
  exact Finset.mem_filter.mpr ⟨hz, fun hseen => hnot (h.seen z hseen)⟩

theorem unmarked_lt (h : x ∈ g.nodes ∧ x ∉ v.seen) (out : List (α × δ)) : unmarked g ⟨x :: v.seen, out⟩ < unmarked g v := by
  refine Finset.card_lt_card ⟨fun z hz => ?_, fun hsub => ?_⟩
  · obtain ⟨hz, hnot⟩ := Finset.mem_filter.mp hz
    exact Finset.mem_filter.mpr ⟨hz, fun hseen => hnot (List.mem_cons_of_mem _ hseen)⟩
  · have hx := hsub (Finset.mem_filter.mpr h)
    exact (Finset.mem_filter.mp hx).2 List.mem_cons_self

/-- What has been marked since leads to marked nodes only. -/
def ClosedSince (g : Graph α δ) (v v' : Visited α δ) : Prop :=
  ∀ z ∈ v'.seen, z ∉ v.seen → ∀ y, g.Edge z y → y ∈ v'.seen

theorem ClosedSince.trans {v'' : Visited α δ} (h : ClosedSince g v v') (h' : ClosedSince g v' v'')
    (hext : Extends v' v'') : ClosedSince g v v'' := by
  intro z hz hnot y hedge
  by_cases hseen : z ∈ v'.seen
  · exact hext.seen y (h z hseen hnot y hedge)
  · exact h' z hz hseen y hedge

/-- Visiting marks the roots, and what it marks leads to marked nodes only. -/
def Completes (g : Graph α δ) (roots : List (α × δ)) (v v' : Visited α δ) : Prop :=
  (∀ r ∈ roots, r.1 ∈ g.nodes → r.1 ∈ v'.seen) ∧ ClosedSince g v v'

theorem visitAll_completes_of (fuel : Nat)
    (hvisit : ∀ x d v, unmarked g v < fuel → Completes g [(x, d)] v (visit g fuel x d v)) (roots : List (α × δ))
    (v : Visited α δ) (hfuel : unmarked g v < fuel) : Completes g roots v (visitAll g fuel roots v) := by
  induction roots generalizing v with
  | nil => exact ⟨fun r hr => absurd hr List.not_mem_nil, fun z hz hnot => absurd hz hnot⟩
  | cons r roots ih =>
    have hext := extends_visit (g := g) fuel r.1 r.2 v
    have hrest := extends_visitAll (g := g) fuel roots (visit g fuel r.1 r.2 v)
    obtain ⟨hroot, hclosed⟩ := hvisit r.1 r.2 v hfuel
    obtain ⟨hroots, hcloseds⟩ := ih _ (Nat.lt_of_le_of_lt (unmarked_le hext) hfuel)
    refine ⟨fun r' hr' hnode => ?_, hclosed.trans hcloseds hrest⟩
    rcases List.mem_cons.mp hr' with rfl | hr'
    · exact hrest.seen _ (hroot _ List.mem_cons_self hnode)
    · exact hroots r' hr' hnode

theorem visit_completes (fuel : Nat) (x : α) (d : δ) (v : Visited α δ) (hfuel : unmarked g v < fuel) :
    Completes g [(x, d)] v (visit g fuel x d v) := by
  induction fuel generalizing x d v with
  | zero => exact absurd hfuel (Nat.not_lt_zero _)
  | succ fuel ih =>
    by_cases h : x ∈ g.nodes ∧ x ∉ v.seen
    · rcases hleaf : g.leaf x with - | -
      · rw [visit_inner h hleaf]
        have hlt := unmarked_lt h v.out
        obtain ⟨hroots, hclosed⟩ := visitAll_completes_of fuel ih ((g.succ x).map fun y => (y, g.carry x d))
          ⟨x :: v.seen, v.out⟩ (by omega)
        have hmark := (extends_visitAll (g := g) fuel ((g.succ x).map fun y => (y, g.carry x d))
          ⟨x :: v.seen, v.out⟩).seen x List.mem_cons_self
        refine ⟨fun r hr _ => by rw [List.mem_singleton.mp hr]; exact hmark, fun z hz hnot y hedge => ?_⟩
        by_cases hzx : z = x
        · subst hzx
          exact hroots (y, g.carry z d) (List.mem_map.mpr ⟨y, hedge.2.1, rfl⟩) hedge.2.2
        · refine hclosed z hz (fun hseen => ?_) y hedge
          rcases List.mem_cons.mp hseen with heq | hseen
          · exact hzx heq
          · exact hnot hseen
      · rw [visit_leaf h hleaf]
        refine ⟨fun r hr _ => by rw [List.mem_singleton.mp hr]; exact List.mem_cons_self, fun z hz hnot y hedge => ?_⟩
        rcases List.mem_cons.mp hz with rfl | hz
        · rw [hedge.1.2] at hleaf
          cases hleaf
        · exact absurd hz hnot
    · rw [visit_of_not h]
      refine ⟨fun r hr hnode => ?_, fun z hz hnot => absurd hz hnot⟩
      rw [List.mem_singleton.mp hr] at hnode ⊢
      exact not_not.mp (not_and.mp h hnode)

theorem visitAll_completes (fuel : Nat) (roots : List (α × δ)) (v : Visited α δ) (hfuel : unmarked g v < fuel) :
    Completes g roots v (visitAll g fuel roots v) :=
  visitAll_completes_of fuel (visit_completes fuel) roots v hfuel

theorem unmarked_none : unmarked g Visited.none = g.nodes.card := by
  simp [unmarked, Visited.none]

/-- **Every leaf that a root reaches is put out**, by then from that root or one before it. -/
theorem visitAll_complete (fuel : Nat) (hfuel : g.nodes.card < fuel) (before after : List (α × δ)) {r : α × δ}
    (hr : r.1 ∈ g.nodes) {z : α} (hreach : ReflTransGen g.Edge r.1 z) (hleaf : g.leaf z = true) :
    ∃ d, (z, d) ∈ (visitAll g fuel (before ++ r :: after) Visited.none).out ∧
      ∃ r' ∈ before ++ [r], ReflTransGen g.Step r' (z, d) := by
  have hsplit : before ++ r :: after = (before ++ [r]) ++ after := by simp
  rw [hsplit, visitAll_append]
  obtain ⟨hroots, hclosed⟩ := visitAll_completes fuel (before ++ [r]) Visited.none (by rwa [unmarked_none])
  have hmark : ∀ z, ReflTransGen g.Edge r.1 z → z ∈ (visitAll g fuel (before ++ [r]) Visited.none).seen := by
    intro z hreach
    induction hreach with
    | refl => exact hroots r (by simp) hr
    | tail _ hedge ih => exact hclosed _ ih (by simp [Visited.none]) _ hedge
  obtain ⟨d, hd⟩ := (leavesOut_visitAll fuel (before ++ [r]) leavesOut_none z).mpr ⟨hmark z hreach, hleaf⟩
  refine ⟨d, (extends_visitAll fuel after _).out.subset hd, ?_⟩
  rcases visitAll_sound fuel (before ++ [r]) Visited.none (z, d) hd with hnone | hfrom
  · exact absurd hnone List.not_mem_nil
  · exact hfrom

/-! ### Marks that make no difference -/

/-- From inside a barren set nothing is put out. -/
theorem visit_barren (hB : Barren g B) (fuel : Nat) (hx : B x) (d : δ) (v : Visited α δ) :
    AgreeOff B v (visit g fuel x d v) := by
  induction fuel generalizing x d v with
  | zero => exact ⟨rfl, fun _ _ => Iff.rfl⟩
  | succ fuel ih =>
    by_cases h : x ∈ g.nodes ∧ x ∉ v.seen
    · have hleaf := hB.leaf x hx
      rw [visit_inner h hleaf]
      refine visitAll_induct (P := AgreeOff B v) (fun r hr w hw => hw.trans ?_) ⟨rfl, fun y hy => ?_⟩
      · obtain ⟨y, hy, rfl⟩ := List.mem_map.mp hr
        by_cases hnode : y ∈ g.nodes
        · exact ih (hB.closed x y hx ⟨⟨h.1, hleaf⟩, hy, hnode⟩) _ w
        · rw [visit_of_not fun hcon => hnode hcon.1]
          exact ⟨rfl, fun _ _ => Iff.rfl⟩
      · have hne : y ≠ x := fun heq => hy (heq ▸ hx)
        simp [hne]
    · rw [visit_of_not h]
      exact ⟨rfl, fun _ _ => Iff.rfl⟩

/-- Where visits go, and from where the marks in doubt put out nothing, what is put out does not depend on them. -/
theorem visit_agree_of {C : α → Prop} (hC : ∀ x y, C x → g.Edge x y → C y)
    (hB : ∀ x, C x → B x → ∀ fuel d v, AgreeOff B v (visit g fuel x d v)) (fuel : Nat) (hx : C x) (d : δ)
    (h : AgreeOff B v v') : AgreeOff B (visit g fuel x d v) (visit g fuel x d v') := by
  induction fuel generalizing x d v v' with
  | zero => exact h
  | succ fuel ih =>
    by_cases hxB : B x
    · exact (hB x hx hxB _ d v).symm.trans (h.trans (hB x hx hxB _ d v'))
    · have hsame : (x ∈ g.nodes ∧ x ∉ v.seen) ↔ (x ∈ g.nodes ∧ x ∉ v'.seen) := by rw [h.2 x hxB]
      by_cases hnew : x ∈ g.nodes ∧ x ∉ v.seen
      · rcases hleaf : g.leaf x with - | -
        · rw [visit_inner hnew hleaf, visit_inner (hsame.mp hnew) hleaf]
          have hmark := h.mark x
          have hsucc : ∀ r ∈ (g.succ x).map fun y => (y, g.carry x d), r.1 ∈ g.nodes → C r.1 := by
            intro r hr hnode
            obtain ⟨y, hy, rfl⟩ := List.mem_map.mp hr
            exact hC x y hx ⟨⟨hnew.1, hleaf⟩, hy, hnode⟩
          generalize ((g.succ x).map fun y => (y, g.carry x d)) = roots at hsucc ⊢
          generalize Visited.mk (x :: v.seen) v.out = w at hmark ⊢
          generalize Visited.mk (x :: v'.seen) v'.out = w' at hmark ⊢
          induction roots generalizing w w' with
          | nil => exact hmark
          | cons r roots ihroots =>
            refine ihroots (fun r' hr' => hsucc r' (List.mem_cons_of_mem _ hr')) _ _ ?_
            show AgreeOff B (visit g fuel r.1 r.2 w) (visit g fuel r.1 r.2 w')
            by_cases hnode : r.1 ∈ g.nodes
            · exact ih (hsucc r List.mem_cons_self hnode) r.2 hmark
            · rwa [visit_of_not fun hcon => hnode hcon.1, visit_of_not fun hcon => hnode hcon.1]
        · rw [visit_leaf hnew hleaf, visit_leaf (hsame.mp hnew) hleaf]
          refine ⟨by rw [h.1], fun y hy => ?_⟩
          simp only [List.mem_cons, h.2 y hy]
      · rw [visit_of_not hnew, visit_of_not fun hcon => hnew (hsame.mpr hcon)]
        exact h

/-- **Marks on a barren set change nothing of what is put out.** -/
theorem visit_agree (hB : Barren g B) (fuel : Nat) (x : α) (d : δ) (h : AgreeOff B v v') :
    AgreeOff B (visit g fuel x d v) (visit g fuel x d v') :=
  visit_agree_of (C := fun _ => True) (fun _ _ _ _ => trivial) (fun _ _ hx fuel d v => visit_barren hB fuel hx d v) fuel
    trivial d h

/-- **Marks that visits do not come to change nothing either.** -/
theorem visit_agree_away {C : α → Prop} (hC : ∀ x y, C x → g.Edge x y → C y) (fuel : Nat) (hx : C x) (d : δ)
    (h : AgreeOff (fun y => ¬ C y) v v') : AgreeOff (fun y => ¬ C y) (visit g fuel x d v) (visit g fuel x d v') :=
  visit_agree_of hC (fun _ hy hnot => absurd hy hnot) fuel hx d h

/-- More fuel than there are unmarked nodes makes no difference. -/
theorem visit_fuel {fuel' : Nat} (x : α) (d : δ) (v : Visited α δ) (hfuel : unmarked g v < fuel)
    (hfuel' : unmarked g v < fuel') : visit g fuel x d v = visit g fuel' x d v := by
  induction fuel generalizing fuel' x d v with
  | zero => exact absurd hfuel (Nat.not_lt_zero _)
  | succ fuel ih =>
    obtain ⟨fuel', rfl⟩ := Nat.exists_eq_succ_of_ne_zero (Nat.ne_of_gt (Nat.zero_lt_of_lt hfuel'))
    by_cases h : x ∈ g.nodes ∧ x ∉ v.seen
    · rcases hleaf : g.leaf x with - | -
      · rw [visit_inner h hleaf, visit_inner h hleaf]
        have hlt := unmarked_lt h v.out
        have hroom : unmarked g ⟨x :: v.seen, v.out⟩ < fuel ∧ unmarked g ⟨x :: v.seen, v.out⟩ < fuel' := by omega
        generalize ((g.succ x).map fun y => (y, g.carry x d)) = roots
        generalize Visited.mk (x :: v.seen) v.out = w at hroom
        induction roots generalizing w with
        | nil => rfl
        | cons r roots ihroots =>
          have hle : unmarked g (visit g fuel' r.1 r.2 w) ≤ unmarked g w := unmarked_le (extends_visit fuel' r.1 r.2 w)
          rw [visitAll_cons, visitAll_cons, ih r.1 r.2 w hroom.1 hroom.2]
          exact ihroots _ ⟨Nat.lt_of_le_of_lt hle hroom.1, Nat.lt_of_le_of_lt hle hroom.2⟩
      · rw [visit_leaf h hleaf, visit_leaf h hleaf]
    · rw [visit_of_not h, visit_of_not h]

/-- Where nothing is put out, all that was marked is barren. -/
theorem barren_of_out_eq_nil (fuel : Nat) (hfuel : g.nodes.card < fuel) (roots : List (α × δ))
    (hout : (visitAll g fuel roots Visited.none).out = []) :
    Barren g (· ∈ (visitAll g fuel roots Visited.none).seen) := by
  refine ⟨fun x hx => ?_, fun x y hx hedge => ?_⟩
  · by_contra hleaf
    obtain ⟨d, hd⟩ := (leavesOut_visitAll fuel roots leavesOut_none x).mpr ⟨hx, by simpa using hleaf⟩
    rw [hout] at hd
    cases hd
  · exact (visitAll_completes fuel roots Visited.none (by rwa [unmarked_none])).2 x hx (by simp [Visited.none]) y hedge

/-! ## Exploring with a stack -/

/-- The nodes that are reached from the stack, the latest first; none where one of them has no successors to give. -/
def explore (succ : α → Option (List α)) : Nat → List α → List α → Option (List α)
  | _, [], seen => some seen
  | 0, _ :: _, _ => none
  | fuel + 1, x :: stack, seen =>
    if x ∈ seen then explore succ fuel stack seen
    else
      match succ x with
      | none => none
      | some ys => explore succ fuel (ys ++ stack) (x :: seen)

section

variable (succ : α → Option (List α)) (nodes : Finset α) (width : Nat)

/-- How much there is left to do. -/
def todo (stack seen : List α) : Nat := (width + 1) * (nodes.filter fun x => x ∉ seen).card + stack.length

variable {succ nodes width}

variable (nodes width) in
theorem todo_drop (x : α) (stack seen : List α) : todo nodes width stack seen < todo nodes width (x :: stack) seen := by
  unfold todo
  rw [List.length_cons]
  omega

theorem todo_mark {x : α} (hx : x ∈ nodes) {seen : List α} (hnew : x ∉ seen) (stack : List α) {ys : List α}
    (hwidth : ys.length ≤ width) : todo nodes width (ys ++ stack) (x :: seen) < todo nodes width (x :: stack) seen := by
  have hlt : (nodes.filter fun z => z ∉ x :: seen).card < (nodes.filter fun z => z ∉ seen).card := by
    refine Finset.card_lt_card ⟨fun z hz => ?_, fun hsub => ?_⟩
    · obtain ⟨hz, hnot⟩ := Finset.mem_filter.mp hz
      exact Finset.mem_filter.mpr ⟨hz, fun hseen => hnot (List.mem_cons_of_mem _ hseen)⟩
    · exact (Finset.mem_filter.mp (hsub (Finset.mem_filter.mpr ⟨hx, hnew⟩))).2 List.mem_cons_self
  have hmul := Nat.mul_le_mul_left (width + 1) (Nat.succ_le_of_lt hlt)
  rw [Nat.succ_eq_add_one, Nat.mul_add, Nat.mul_one] at hmul
  unfold todo
  rw [List.length_append, List.length_cons]
  omega

/-- From a stack that frames what is marked, exploring answers for the root. -/
theorem explored_of_frontier (hnodes : ∀ x ys, succ x = some ys → x ∈ nodes ∧ ys.length ≤ width) (root : α) (fuel : Nat)
    (stack seen : List α) (hfuel : todo nodes width stack seen ≤ fuel) (hfrontier : Frontier succ root stack seen) :
    Explored succ root (explore succ fuel stack seen) := by
  induction fuel generalizing stack seen with
  | zero =>
    cases stack with
    | nil => exact hfrontier.explored
    | cons x stack => exact absurd (todo_drop nodes width x stack seen) (by omega)
  | succ fuel ih =>
    cases stack with
    | nil => exact hfrontier.explored
    | cons x stack =>
      rw [explore]
      split
      next hseen =>
        have hdrop := todo_drop nodes width x stack seen
        exact ih stack seen (by omega) (hfrontier.drop hseen)
      next hnew =>
        split
        next hnone => exact ⟨x, hfrontier.reached x (.inr List.mem_cons_self), hnone⟩
        next ys hys =>
          obtain ⟨hx, hwidth⟩ := hnodes x ys hys
          have hmark := todo_mark hx hnew stack hwidth
          exact ih (ys ++ stack) (x :: seen) (by omega) (hfrontier.mark hys)

/-- **Exploring finds all that the root reaches**, or that a node it reaches has no successors to give. -/
theorem explore_spec (hnodes : ∀ x ys, succ x = some ys → x ∈ nodes ∧ ys.length ≤ width) (root : α) {fuel : Nat}
    (hfuel : (width + 1) * nodes.card + 1 ≤ fuel) : Explored succ root (explore succ fuel [root] []) := by
  refine explored_of_frontier hnodes root fuel [root] [] ?_ (.start root)
  simpa [todo] using hfuel

end

end SlateOS.Foundation.DepthFirst
