import Tokenweave.Proofs.Walks
/-!
# Stack walks are the recursive traversals

Main statement (`walks_are_traversals`): in a well-formed tree, for every node `n`,

* `descendants n .rootFirst` is the pre-order of the subtrees under `n` (`PreOrder`), and
  `descendants n .leafFirst` their post-order (`PostOrder`), though the latter walk only ever
  takes nodes in right-to-left pre-order and reverses what it took;
* `leaves n` is the pre-order of the subtree of `n`, `n` first, cut down to the nodes without
  children;
* `firstByName n k`, a walk of its own that stops early, finds the first node named `k` in
  `descendants n .rootFirst`;
* `allByName` and `allByNames` filter `descendants` by name, the latter once for each distinct
  requested name, in the order the names are first requested.

Each walk is read against its traversal the same way: a walk whose stack starts with a forest,
given at least as much fuel as the forest has nodes, takes the forest's traversal off the stack
and hands the rest of the stack to the rest of the fuel (`PreOrder.preWalk`,
`PreOrder.leavesWalk`, and `PostOrder.rightWalk` from the walks over ordered trees). A
well-formed tree is no deeper than its size (`WellFormed.shallow`), so every forest in it has a
pre-order (`exists_preOrder`) and a post-order of the same nodes (`PreOrder.exists_postOrder`);
the nodes under `n` are distinct nodes of the tree, so the fuel of every walk suffices.
-/

set_option autoImplicit false

namespace Tokenweave.ParseTree

open Relation

variable {t : ParseTree}

/-! ### Pre-order -/

/-- `PreOrder t cs L`: `L` lists the nodes of the subtrees of `cs`, the subtrees left to right,
and each node before the nodes under it. -/
inductive PreOrder (t : ParseTree) : List Handle → List Handle → Prop
  | nil : PreOrder t [] []
  | cons {c : Handle} {cs L₁ L₂ : List Handle} : PreOrder t (t.children c) L₁ →
      PreOrder t cs L₂ → PreOrder t (c :: cs) (c :: (L₁ ++ L₂))

/-- A forest whose trees are at most `d` levels deep has a pre-order. -/
theorem exists_preOrder (d : Nat) :
    ∀ cs : List Handle, (∀ c ∈ cs, t.Shallow d c) → ∃ L, PreOrder t cs L := by
  -- Induction on the depth, and inside it on the forest.
  induction d with
  | zero =>
    intro cs hcs
    induction cs with
    | nil => exact ⟨[], .nil⟩
    | cons c cs ih =>
      have hleaf : t.children c = [] := hcs c List.mem_cons_self
      obtain ⟨L₂, h₂⟩ := ih fun c' hc' => hcs c' (List.mem_cons_of_mem _ hc')
      exact ⟨_, .cons (by rw [hleaf]; exact .nil) h₂⟩
  | succ d ihd =>
    intro cs hcs
    induction cs with
    | nil => exact ⟨[], .nil⟩
    | cons c cs ih =>
      obtain ⟨L₁, h₁⟩ := ihd (t.children c) (hcs c List.mem_cons_self)
      obtain ⟨L₂, h₂⟩ := ih fun c' hc' => hcs c' (List.mem_cons_of_mem _ hc')
      exact ⟨_, .cons h₁ h₂⟩

/-- The pre-order and the post-order of a forest list the same nodes. -/
theorem PreOrder.exists_postOrder {cs L : List Handle} (h : PreOrder t cs L) :
    ∃ M, PostOrder t cs M ∧ L.Perm M := by
  induction h with
  | nil => exact ⟨[], .nil, .refl _⟩
  | @cons c cs L₁ L₂ _ _ ih₁ ih₂ =>
    obtain ⟨M₁, h₁, p₁⟩ := ih₁
    obtain ⟨M₂, h₂, p₂⟩ := ih₂
    exact ⟨M₁ ++ c :: M₂, .cons h₁ h₂, ((p₁.append p₂).cons c).trans List.perm_middle.symm⟩

/-- The pre-order under a node of a well-formed tree lists every node below it, once. -/
theorem PreOrder.nodup_mem_iff (hwf : t.WellFormed) {n : Handle} {L : List Handle}
    (h : PreOrder t (t.children n) L) :
    L.Nodup ∧ ∀ y, y ∈ L ↔ TransGen (ChildEdge t.entries) n y := by
  obtain ⟨M, hM, hperm⟩ := h.exists_postOrder
  refine ⟨hperm.nodup_iff.mpr (hM.nodup hwf n (fun _ hc => hc) (hwf.nodup_children n)),
    fun y => ?_⟩
  rw [hperm.mem_iff, hM.mem_iff, TransGen.head'_iff]
  rfl

/-- The pre-order under a node of a well-formed tree holds no more nodes than the tree. -/
theorem PreOrder.length_le_size (hwf : t.WellFormed) {n : Handle} {L : List Handle}
    (h : PreOrder t (t.children n) L) : L.length ≤ t.size := by
  obtain ⟨hnd, hmem⟩ := h.nodup_mem_iff hwf
  exact length_le_size_of_nodup hnd fun y hy => hwf.lt_size_of_transGen ((hmem y).mp hy)

/-- In a well-formed tree the subtrees under every node have a pre-order. -/
theorem WellFormed.exists_preOrder (hwf : t.WellFormed) (n : Handle) :
    ∃ L, PreOrder t (t.children n) L :=
  ParseTree.exists_preOrder t.size _ fun c _ => hwf.shallow c

/-! ### The walks -/

theorem preWalk_nil (k : Nat) (out : List Handle) : t.preWalk k [] out = out.reverse := by
  cases k <;> rfl

/-- The walk of `descendants _ .rootFirst` takes the subtrees of `cs` in pre-order. -/
theorem PreOrder.preWalk {cs L : List Handle} (h : PreOrder t cs L) :
    ∀ (k : Nat) (rest out : List Handle),
      t.preWalk (k + L.length) (cs ++ rest) out = t.preWalk k rest (L.reverse ++ out) := by
  induction h with
  | nil => intro k rest out; rfl
  | @cons c cs L₁ L₂ _ _ ih₁ ih₂ =>
    intro k rest out
    have hlen : k + (c :: (L₁ ++ L₂)).length = (k + L₂.length + L₁.length) + 1 := by
      simp only [List.length_cons, List.length_append]
      omega
    rw [hlen, List.cons_append]
    show t.preWalk (k + L₂.length + L₁.length) (t.children c ++ (cs ++ rest)) (c :: out) = _
    rw [ih₁, ih₂]
    simp

/-- The walk of `leaves` takes the nodes of the subtrees of `cs` that have no children, in
pre-order: a node with children only gives way to them. -/
theorem PreOrder.leavesWalk {cs L : List Handle} (h : PreOrder t cs L) :
    ∀ (k : Nat) (rest out : List Handle),
      t.leavesWalk (k + L.length) (cs ++ rest) out =
        t.leavesWalk k rest ((L.filter t.isLeaf).reverse ++ out) := by
  induction h with
  | nil => intro k rest out; rfl
  | @cons c cs L₁ L₂ h₁ _ ih₁ ih₂ =>
    intro k rest out
    have hlen : k + (c :: (L₁ ++ L₂)).length = (k + L₂.length + L₁.length) + 1 := by
      simp only [List.length_cons, List.length_append]
      omega
    rw [hlen, List.cons_append]
    cases hc : t.children c with
    | nil =>
      -- A node without children is a leaf, and the pre-order under it is empty.
      rw [hc] at h₁
      cases h₁
      have hleaf : t.isLeaf c = true := by simp [isLeaf, hc]
      rw [List.length_nil, Nat.add_zero, leavesWalk_leaf hc, List.nil_append, ih₂]
      simp [hleaf]
    | cons d ds =>
      have hinner : t.isLeaf c = false := by simp [isLeaf, hc]
      rw [leavesWalk_inner hc, ← List.cons_append, ← hc, ih₁, ih₂]
      simp [hinner]

/-- The walk of `descendants` collects what it takes on top of what it was given. -/
theorem preWalk_out (k : Nat) : ∀ (stack out : List Handle),
    t.preWalk k stack out = out.reverse ++ t.preWalk k stack [] := by
  induction k with
  | zero => intro stack out; simp [ParseTree.preWalk]
  | succ k ih =>
    intro stack out
    cases stack with
    | nil => simp [ParseTree.preWalk]
    | cons h rest =>
      simp only [ParseTree.preWalk]
      rw [ih _ (h :: out), ih _ [h]]
      simp

/-- The search of `firstByName` stops at the first named node of the pre-order walk with the
same fuel. -/
theorem firstWalk_eq_find? (name : String) (k : Nat) : ∀ stack : List Handle,
    t.firstWalk name k stack = (t.preWalk k stack []).find? (t.isNamed name) := by
  induction k with
  | zero => intro stack; rfl
  | succ k ih =>
    intro stack
    cases stack with
    | nil => rfl
    | cons h rest =>
      simp only [firstWalk, ParseTree.preWalk]
      rw [preWalk_out k _ [h], ih]
      by_cases hn : t.isNamed name h = true
      · simp [hn]
      · simp [hn]

/-! ### The queries -/

/-- The nodes under a node of a well-formed tree, root first, are their pre-order. -/
theorem preOrder_descendants (hwf : t.WellFormed) (n : Handle) :
    PreOrder t (t.children n) (t.descendants n .rootFirst) := by
  obtain ⟨L, hL⟩ := hwf.exists_preOrder n
  have hlen := hL.length_le_size hwf
  obtain ⟨k, hk⟩ : ∃ k, t.size + 1 = k + L.length := ⟨t.size + 1 - L.length, by omega⟩
  have hwalk : t.descendants n .rootFirst = L := by
    simp only [descendants, hk]
    rw [← List.append_nil (t.children n), hL.preWalk k [] [], preWalk_nil]
    simp
  rw [hwalk]
  exact hL

/-- The nodes under a node of a well-formed tree, leaf first, are their post-order. -/
theorem postOrder_descendants (hwf : t.WellFormed) (n : Handle) :
    PostOrder t (t.children n) (t.descendants n .leafFirst) := by
  obtain ⟨L, hL⟩ := hwf.exists_preOrder n
  obtain ⟨M, hM, hperm⟩ := hL.exists_postOrder
  have hlen : M.length ≤ t.size := hperm.length_eq ▸ hL.length_le_size hwf
  obtain ⟨k, hk⟩ : ∃ k, t.size + 1 = k + M.length := ⟨t.size + 1 - M.length, by omega⟩
  have hwalk : t.descendants n .leafFirst = M := by
    simp only [descendants, hk]
    rw [← List.append_nil (t.children n).reverse, hM.rightWalk k [] [], rightWalk_nil]
    simp
  rw [hwalk]
  exact hM

/-- The leaves under a node of a well-formed tree are the childless nodes of its subtree, in
pre-order. -/
theorem leaves_eq_filter (hwf : t.WellFormed) (n : Handle) :
    t.leaves n = (n :: t.descendants n .rootFirst).filter t.isLeaf := by
  have hn : PreOrder t [n] (n :: (t.descendants n .rootFirst ++ [])) :=
    .cons (preOrder_descendants hwf n) .nil
  have hlen := (preOrder_descendants hwf n).length_le_size hwf
  obtain ⟨k, hk⟩ : ∃ k, t.size + 1 = k + (n :: (t.descendants n .rootFirst ++ [])).length :=
    ⟨t.size - (t.descendants n .rootFirst).length, by
      simp only [List.append_nil, List.length_cons]; omega⟩
  rw [leaves, hk, ← List.append_nil [n], hn.leavesWalk k [] [], leavesWalk_nil]
  simp

/-- `firstByName` finds the first node of the pre-order with the name asked for. -/
theorem firstByName_eq_find? (n : Handle) (name : String) :
    t.firstByName n name = (t.descendants n .rootFirst).find? (t.isNamed name) :=
  firstWalk_eq_find? name _ _

/-- In a well-formed tree the stack walks of the queries are the recursive traversals: the nodes
under `n` root first in pre-order and leaf first in post-order, the leaves of `n` in pre-order,
the first node of a name in pre-order, and the nodes of a name in either order, once for each
distinct requested name in the order of first request. -/
theorem walks_are_traversals (hwf : t.WellFormed) (n : Handle) :
    PreOrder t (t.children n) (t.descendants n .rootFirst) ∧
      PostOrder t (t.children n) (t.descendants n .leafFirst) ∧
      t.leaves n = (n :: t.descendants n .rootFirst).filter t.isLeaf ∧
      (∀ name, t.firstByName n name = (t.descendants n .rootFirst).find? (t.isNamed name)) ∧
      (∀ o name, t.allByName n o name = (t.descendants n o).filter (t.isNamed name)) ∧
      (∀ o names, t.allByNames n o names =
        names.eraseDups.map fun name => (name, t.allByName n o name)) :=
  ⟨preOrder_descendants hwf n, postOrder_descendants hwf n, leaves_eq_filter hwf n,
    firstByName_eq_find? n, fun _ _ => rfl, fun _ _ => rfl⟩

/-- A list over `a,b;c`: `item`, `sep`, `item`, an unnamed `;`, a `group` holding an `item`,
and an empty `gap`. -/
def listParse : Parsed :=
  .mk 0 (some "list") 0 5 [.mk 0 (some "item") 0 1 [], .mk 0 (some "sep") 1 2 [],
    .mk 0 (some "item") 2 3 [], .mk 0 none 3 4 [],
    .mk 0 (some "group") 4 5 [.mk 0 (some "item") 4 5 []], .mk 0 (some "gap") 5 5 []]

/-- The tree of `listParse`. -/
def listTree : ParseTree := ofParsed "a,b;c" listParse

/-- The walks of the queries from the root of the list are its traversals. -/
theorem listTree_walks_are_traversals :
    listTree.WellFormed ∧
      (PreOrder listTree (listTree.children 7) (listTree.descendants 7 .rootFirst) ∧
        PostOrder listTree (listTree.children 7) (listTree.descendants 7 .leafFirst) ∧
        listTree.leaves 7 = (7 :: listTree.descendants 7 .rootFirst).filter listTree.isLeaf ∧
        (∀ name, listTree.firstByName 7 name =
          (listTree.descendants 7 .rootFirst).find? (listTree.isNamed name)) ∧
        (∀ o name, listTree.allByName 7 o name =
          (listTree.descendants 7 o).filter (listTree.isNamed name)) ∧
        (∀ o names, listTree.allByNames 7 o names =
          names.eraseDups.map fun name => (name, listTree.allByName 7 o name))) :=
  ⟨ofParsed_wellFormed _ _, walks_are_traversals (ofParsed_wellFormed _ _) 7⟩

/-- Leaf first, the `item` of the group comes before the group; the root is node 7. -/
example : listTree.root = 7 ∧ (listTree.descendants 7).map listTree.name =
    [some "item", some "sep", some "item", none, some "item", some "group", some "gap"] := by
  decide

end Tokenweave.ParseTree
