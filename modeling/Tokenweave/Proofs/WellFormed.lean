import Mathlib
import Tokenweave.Proofs.Arena
/-!
# Well-formed parse trees

A parse tree is well formed when its child lists and parent links agree — every child of `x`
has parent `x`, and a node with parent `y` occurs exactly once among the children of `y` — its
parent links have no cycle, and its root has no parent (`ParseTree.WellFormed`).

In a well-formed tree the walk up the parent links from any node stops within as many steps as
the tree has nodes: each node the walk reaches is a parent, so lies below the size, and no node
is reached twice, so a longer walk would find more nodes than there are
(`WellFormed.parent_top_size`). Hence `isAttached`, which asks whether that walk ends at the
root, says exactly that the root reaches the node by child edges
(`WellFormed.isAttached_iff`). The tree of any parse is well formed (`ofParsed_wellFormed`):
there a parent always comes after its children.
-/

set_option autoImplicit false

namespace Tokenweave.ParseTree

/-- `p` is the parent of `c`. -/
def ParentOf (t : ParseTree) (c p : Nat) : Prop := t.parent c = some p

/-- A well-formed tree: child lists and parent links agree, parent links have no cycle, and the
root has no parent. -/
structure WellFormed (t : ParseTree) : Prop where
  parent_of_mem : ∀ x c, c ∈ t.children x → t.parent c = some x
  count_of_parent : ∀ c y, t.parent c = some y → (t.children y).count c = 1
  acyclic : ∀ x, ¬ Relation.TransGen t.ParentOf x x
  root_parent : t.parent t.root = none

variable {t : ParseTree}

theorem entry_of_size_le {h : Nat} (hh : t.size ≤ h) : t.entry h = default := by
  simp [entry, Array.getElem?_eq_none (show t.entries.size ≤ h from hh)]

theorem parent_of_size_le {h : Nat} (hh : t.size ≤ h) : t.parent h = none := by
  simp [parent, entry_of_size_le hh]

theorem children_of_size_le {h : Nat} (hh : t.size ≤ h) : t.children h = [] := by
  simp [children, entry_of_size_le hh]

/-- A node that has children lies in the tree. -/
theorem lt_size_of_mem_children {x c : Nat} (hc : c ∈ t.children x) : x < t.size := by
  by_contra hx
  rw [children_of_size_le (Nat.le_of_not_lt hx)] at hc
  exact List.not_mem_nil hc

/-- A node that has a parent lies in the tree. -/
theorem lt_size_of_parent {c p : Nat} (hp : t.parent c = some p) : c < t.size := by
  by_contra hc
  rw [parent_of_size_le (Nat.le_of_not_lt hc)] at hp
  cases hp

/-- Nodes with different parents are different. -/
theorem ne_of_parent_ne {a b x y : Nat} (ha : t.parent a = some x) (hb : t.parent b = some y)
    (hxy : x ≠ y) : a ≠ b := by
  rintro rfl
  exact hxy (Option.some.inj (ha.symm.trans hb))

/-- A node with a parent is not one without. -/
theorem ne_of_parent_eq_none {a b x : Nat} (ha : t.parent a = some x) (hb : t.parent b = none) :
    a ≠ b := by
  rintro rfl
  rw [hb] at ha
  cases ha

/-- A node without a parent is the parent of nothing. -/
theorem not_transGen_of_parent_eq_none {x y : Nat} (hx : t.parent x = none) :
    ¬ Relation.TransGen t.ParentOf x y := by
  intro h
  obtain ⟨z, hz, -⟩ := Relation.TransGen.head'_iff.mp h
  rw [ParentOf, hx] at hz
  cases hz

namespace WellFormed

variable (hwf : t.WellFormed)
include hwf

theorem mem_children_iff {y c : Nat} : c ∈ t.children y ↔ t.parent c = some y :=
  ⟨hwf.parent_of_mem y c,
    fun hp => List.count_pos_iff.mp (by rw [hwf.count_of_parent c y hp]; omega)⟩

/-- A parent lies in the tree. -/
theorem parent_lt_size {c p : Nat} (hp : t.parent c = some p) : p < t.size :=
  lt_size_of_mem_children ((hwf.mem_children_iff).mpr hp)

/-- No node is its own parent. -/
theorem ne_of_parent {c p : Nat} (hp : t.parent c = some p) : c ≠ p := by
  rintro rfl
  exact hwf.acyclic c (.single hp)

/-- A node is not the parent of its parent. -/
theorem parent_ne_of_parent {c p : Nat} (hp : t.parent c = some p) : t.parent p ≠ some c :=
  fun hpc => hwf.acyclic c (.tail (.single hp) hpc)

/-- A node is among the children of its own parent only. -/
theorem not_mem_children_of_parent {c x y : Nat} (hc : t.parent c = some x) (hxy : x ≠ y) :
    c ∉ t.children y := fun hm =>
  hxy (Option.some.inj (hc.symm.trans ((hwf.mem_children_iff).mp hm)))

/-- Child lists hold each node at most once. -/
theorem nodup_children (y : Nat) : (t.children y).Nodup := by
  refine List.nodup_iff_count_le_one.mpr fun c => ?_
  by_cases hc : c ∈ t.children y
  · rw [hwf.count_of_parent c y (hwf.parent_of_mem y c hc)]
  · rw [List.count_eq_zero_of_not_mem hc]
    omega

end WellFormed

/-! ### The walk up the parent links -/

theorem top_succ_of_parent {x p : Nat} (hx : t.parent x = some p) (i : Nat) :
    t.top x (i + 1) = t.top p i := by
  simp only [top, hx]

theorem top_succ_of_parent_eq_none {x : Nat} (hx : t.parent x = none) (i : Nat) :
    t.top x (i + 1) = x := by
  simp only [top, hx]

/-- One more step of the walk moves to the parent, if there is one. -/
theorem top_succ (x : Nat) : ∀ i, t.top x (i + 1) = (t.parent (t.top x i)).getD (t.top x i)
  | 0 => by
    simp only [top]
    cases t.parent x <;> rfl
  | i + 1 => by
    cases hx : t.parent x with
    | none =>
      rw [top_succ_of_parent_eq_none hx, top_succ_of_parent_eq_none hx, hx, Option.getD_none]
    | some p => rw [top_succ_of_parent hx, top_succ_of_parent hx, top_succ p i]

theorem reflTransGen_top (x : Nat) : ∀ i, Relation.ReflTransGen t.ParentOf x (t.top x i)
  | 0 => .refl
  | i + 1 => by
    rw [top_succ]
    cases hp : t.parent (t.top x i) with
    | none => exact reflTransGen_top x i
    | some p => exact (reflTransGen_top x i).tail hp

/-- Once the walk reaches a node without a parent it stays there. -/
theorem top_stable {x : Nat} {i : Nat} (hi : t.parent (t.top x i) = none) :
    ∀ j, i ≤ j → t.top x j = t.top x i := by
  intro j hj
  induction j, hj using Nat.le_induction with
  | base => rfl
  | succ j _ ih => rw [top_succ, ih, hi, Option.getD_none]

/-- Two ends of the walk up from one node, nodes without a parent, are the same node. -/
theorem eq_of_parent_eq_none {x a b : Nat} (ha : Relation.ReflTransGen t.ParentOf x a)
    (hpa : t.parent a = none) (hb : Relation.ReflTransGen t.ParentOf x b)
    (hpb : t.parent b = none) : a = b := by
  induction ha using Relation.ReflTransGen.head_induction_on with
  | refl =>
    rcases hb.cases_head with rfl | ⟨c, hc, -⟩
    · rfl
    · rw [ParentOf, hpa] at hc
      cases hc
  | head hxy _ ih =>
    rcases hb.cases_head with rfl | ⟨c, hc, hcb⟩
    · rw [ParentOf, hpb] at hxy
      cases hxy
    · rw [ParentOf, hxy] at hc
      cases hc
      exact ih hcb

namespace WellFormed

variable (hwf : t.WellFormed)
include hwf

/-- The walk up from any node reaches a node without a parent within as many steps as the tree
has nodes. Otherwise the nodes it reaches after the first are `size + 1` parents, all below the
size, and two of them coincide, which closes a cycle. -/
theorem parent_top_size (x : Nat) : t.parent (t.top x t.size) = none := by
  by_contra hne
  -- Every step up to the size moves to a parent.
  have hmoves : ∀ i ≤ t.size, t.ParentOf (t.top x i) (t.top x (i + 1)) := by
    intro i hi
    cases hp : t.parent (t.top x i) with
    | none => exact absurd (by rw [top_stable hp t.size hi, hp]) hne
    | some p => rw [ParentOf, top_succ, hp, Option.getD_some]
  have hchain : ∀ i j, i < j → j ≤ t.size + 1 →
      Relation.TransGen t.ParentOf (t.top x i) (t.top x j) := by
    intro i j hij hj
    induction j, hij using Nat.le_induction with
    | base => exact .single (hmoves i (by omega))
    | succ j hij ih => exact (ih (by omega)).tail (hmoves j (by omega))
  -- The nodes reached in steps 1 to size + 1 are distinct and below the size.
  have hmaps :
      Set.MapsTo (t.top x) (Finset.Icc 1 (t.size + 1) : Set Nat) (Finset.range t.size) := by
    intro i hi
    simp only [Finset.coe_Icc, Set.mem_Icc] at hi
    obtain ⟨j, rfl⟩ : ∃ j, i = j + 1 := ⟨i - 1, by omega⟩
    exact Finset.mem_range.mpr (hwf.parent_lt_size (hmoves j (by omega)))
  have hinj : Set.InjOn (t.top x) (Finset.Icc 1 (t.size + 1) : Set Nat) := by
    intro i hi j hj heq
    simp only [Finset.coe_Icc, Set.mem_Icc] at hi hj
    by_contra hne
    rcases Nat.lt_or_gt_of_ne hne with hlt | hlt
    · exact hwf.acyclic _ (heq ▸ hchain i j hlt hj.2)
    · exact hwf.acyclic _ (heq ▸ hchain j i hlt hi.2)
  have hcard := Finset.card_le_card_of_injOn (t.top x) hmaps hinj
  simp at hcard

/-- A node is attached exactly when the root reaches it by child edges. -/
theorem isAttached_iff (x : Nat) :
    t.isAttached x = true ↔ Relation.ReflTransGen (ChildEdge t.entries) t.root x := by
  have hend : t.top x (t.size + 1) = t.top x t.size :=
    top_stable (hwf.parent_top_size x) _ (Nat.le_succ _)
  -- Child edges are parent links read backwards.
  have hswap : ∀ a b, Relation.ReflTransGen t.ParentOf a b ↔
      Relation.ReflTransGen (ChildEdge t.entries) b a := by
    intro a b
    rw [← Relation.reflTransGen_swap]
    constructor
    · exact Relation.ReflTransGen.mono (fun c d hcd => (hwf.mem_children_iff).mpr hcd) _ _
    · exact Relation.ReflTransGen.mono (fun c d hcd => (hwf.mem_children_iff).mp hcd) _ _
  rw [isAttached, hend, beq_iff_eq, ← hswap]
  constructor
  · intro htop
    exact htop ▸ reflTransGen_top x t.size
  · intro hroot
    exact eq_of_parent_eq_none (reflTransGen_top x t.size) (hwf.parent_top_size x) hroot
      hwf.root_parent

end WellFormed

/-! ### Trees of parses -/

variable {s : String} {q : Parsed}

/-- In the tree of a parse a node comes before its parent. -/
theorem ofParsed_lt_of_parent {c p : Nat} (hp : (ofParsed s q).parent c = some p) : c < p := by
  have hc := (ofParsed_parent_eq_some_iff p c).mp hp
  obtain ⟨_, _, hall⟩ := ofParsed_children_built (lt_size_of_mem_children hc)
  exact ((BuiltAll.le _ hall).2 c hc).2

/-- The tree of a parse is well formed. -/
theorem ofParsed_wellFormed (s : String) (q : Parsed) : (ofParsed s q).WellFormed where
  parent_of_mem x c hc := (ofParsed_parent_eq_some_iff x c).mpr hc
  count_of_parent c y hp := by
    have hc := (ofParsed_parent_eq_some_iff y c).mp hp
    obtain ⟨_, _, hall⟩ := ofParsed_children_built (lt_size_of_mem_children hc)
    exact List.count_eq_one_of_mem (BuiltAll.nodup _ hall) hc
  acyclic x hx := by
    -- Handles grow along parent links.
    have hlt : ∀ a b, Relation.TransGen (ofParsed s q).ParentOf a b → a < b := by
      intro a b hab
      induction hab with
      | single h => exact ofParsed_lt_of_parent h
      | tail _ h ih => exact lt_trans ih (ofParsed_lt_of_parent h)
    exact lt_irrefl x (hlt x x hx)
  root_parent := ofParsed_parent_root

end Tokenweave.ParseTree
