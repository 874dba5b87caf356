import Tokenweave.Proofs.Produces
import Tokenweave.Proofs.Backtracking
/-!
# The tree of a match

Backtracking leaves no garbage. Every visit of the matcher only appends to the arena it builds
in: one that does not match leaves the arena as it found it, and one that matches appends exactly
the subtree of the node it gives, that node last, and changes no node it did not append
(`backtracking_leaves_no_garbage`, from `Matching.buildNode_ok`).

So the tree of a successful match holds nothing but the parse: failed alternatives leave no node
behind. Its nodes are laid out as the matcher appends them, children first, so the subtree of
each node is one block of handles that ends with the node itself, and the root, last of all, is
above every node. Parent links are the child lists read backwards and the root has none.

Each node carries the grammar node that built it and that node's name, except that a choice
hands on the node of the alternative that won, naming it after itself when it has no name of
its own: the name is that of the innermost named choice passed through (`Grammar.Passes`). The
root was built by a call of the node matched, and each child by a call of a child edge of its
parent's grammar node.

Everything is read off the parse (`Produces`) and the layout of the arena built from it
(`Built`, `matchAt_tree_shape`). Main statement: `backtracking_leaves_no_garbage`.
-/

set_option autoImplicit false

namespace Tokenweave

/-- `g.Passes a b name`: a match of node `a` of `g` gives a tree node built by grammar node `b`
and named `name`. A node other than a choice builds its own tree node under its own name; a
choice hands on the tree node of the alternative that won, which takes the choice's name if it
has none. -/
inductive Grammar.Passes (g : Grammar) : NodeId → NodeId → Option String → Prop
  | self {a nd} : g.get? a = some nd → (∀ alternatives, nd.shape ≠ .choice alternatives) →
      g.Passes a a nd.name
  | choice {a nd alternatives alt b name} : g.get? a = some nd →
      nd.shape = .choice alternatives → alt ∈ alternatives → g.Passes alt b name →
      g.Passes a b (name.or nd.name)

namespace Parsed

@[simp] theorem node_mk {n : NodeId} {name : Option String} {start stop : Nat}
    {cs : List Parsed} : (Parsed.mk n name start stop cs).node = n := rfl

@[simp] theorem name_mk {n : NodeId} {name : Option String} {start stop : Nat}
    {cs : List Parsed} : (Parsed.mk n name start stop cs).name = name := rfl

@[simp] theorem children_mk {n : NodeId} {name : Option String} {start stop : Nat}
    {cs : List Parsed} : (Parsed.mk n name start stop cs).children = cs := rfl

@[simp] theorem node_inherit (p : Parsed) (name : Option String) :
    (p.inherit name).node = p.node := by
  unfold inherit
  split <;> rfl

@[simp] theorem children_inherit (p : Parsed) (name : Option String) :
    (p.inherit name).children = p.children := by
  unfold inherit
  split <;> rfl

/-- Inheriting a name keeps a name the parse has. -/
@[simp] theorem name_inherit (p : Parsed) (name : Option String) :
    (p.inherit name).name = p.name.or name := by
  unfold inherit
  split
  · rfl
  · rename_i h
    obtain ⟨n, _ | nm, a, b, cs⟩ := p
    · exact absurd rfl (h n a b cs)
    · rfl

end Parsed

section Produced

variable {g : Grammar} {s : String}

/-- The shape of a node that builds a parse without parts is no choice. -/
theorem Shape.Covers.ne_choice {sh : Shape} {p q : Nat} (h : sh.Covers s p q)
    (alternatives : List NodeId) : sh ≠ .choice alternatives := by
  rintro rfl
  exact h

/-- The node and name of a parse are those a match of its node passes on. -/
theorem Produces.passes : ∀ {a : NodeId} {p : Nat} {q : Parsed}, Produces g s a p q →
    g.Passes a q.node q.name
  | _, _, _, .leaf hnd hcov => .self hnd hcov.ne_choice
  | _, _, _, .seq hnd hsh _ => .self hnd fun _ => by rw [hsh]; exact Shape.noConfusion
  | _, _, _, .choice hnd hsh halt h => by
    rw [Parsed.node_inherit, Parsed.name_inherit]
    exact .choice hnd hsh halt h.passes
  | _, _, _, .oneOrMore hnd hsh _ _ => .self hnd fun _ => by rw [hsh]; exact Shape.noConfusion
  | _, _, _, .optional hnd hsh _ => .self hnd fun _ => by rw [hsh]; exact Shape.noConfusion

/-- Parts of a parse that follow each other are produced by the nodes asked for them. -/
theorem ProducesAll.mem : ∀ {ids : List NodeId} {p : Nat} {cs : List Parsed} {q : Nat},
    ProducesAll g s ids p cs q → ∀ c ∈ cs, ∃ a ∈ ids, ∃ p', Produces g s a p' c
  | _, _, _, _, .nil, _, hc => absurd hc List.not_mem_nil
  | _, _, _, _, .cons h hrest, c, hc => by
    rcases List.mem_cons.mp hc with rfl | hc
    · exact ⟨_, List.mem_cons_self, _, h⟩
    · obtain ⟨a, ha, p', h'⟩ := hrest.mem c hc
      exact ⟨a, List.mem_cons_of_mem _ ha, p', h'⟩

/-- Each part of a parse is produced by a child edge of the grammar node that built it. -/
theorem Produces.child : ∀ {a : NodeId} {p : Nat} {q : Parsed}, Produces g s a p q →
    ∀ c ∈ q.children, ∃ b ∈ g.children q.node, ∃ p', Produces g s b p' c
  | _, _, _, .leaf .., _, hc => absurd hc List.not_mem_nil
  | _, _, _, .seq hnd hsh hall, c, hc => by
    simp only [Grammar.children, Parsed.node_mk, hnd, hsh, Shape.children]
    exact hall.mem c hc
  | _, _, _, .choice _ _ _ h, c, hc => by
    rw [Parsed.node_inherit]
    rw [Parsed.children_inherit] at hc
    exact h.child c hc
  | _, _, _, .oneOrMore hnd hsh _ hall, c, hc => by
    obtain ⟨b, hb, p', h⟩ := hall.mem c hc
    rw [List.eq_of_mem_replicate hb] at h
    simp only [Grammar.children, Parsed.node_mk, hnd, hsh, Shape.children]
    exact ⟨_, List.mem_singleton_self _, p', h⟩
  | _, _, _, .optional hnd hsh h, c, hc => by
    rw [Parsed.children_mk, List.mem_singleton] at hc
    subst hc
    simp only [Grammar.children, Parsed.node_mk, hnd, hsh, Shape.children]
    exact ⟨_, List.mem_singleton_self _, _, h⟩

end Produced

/-- The tree of a successful match is the parse and nothing else: the subtree of every node is
the block of handles that ends with it, the root is last and reaches every node, parent links
are the child lists read backwards, the root has no parent, and every node carries the grammar
node and name that the call that built it passes on. -/
theorem matchAt_tree_shape {g : Grammar} {n : NodeId} {s : String} {p : Nat} {limits : Limits}
    {traced : Bool} {o : Outcome} {q : Parsed} (h : (matchAt g n s p limits traced).result = .ok o)
    (hq : o.parsed = some q) :
    let t := ParseTree.ofParsed s q
    t.size = t.root + 1 ∧
      (∀ x < t.size, ∃ lo ≤ x, ∀ y,
        Relation.ReflTransGen (ChildEdge t.entries) x y ↔ lo ≤ y ∧ y ≤ x) ∧
      (∀ x < t.size, Relation.ReflTransGen (ChildEdge t.entries) t.root x) ∧
      (∀ x c, t.parent c = some x ↔ c ∈ t.children x) ∧
      t.parent t.root = none ∧
      g.Passes n (t.entry t.root).node (t.entry t.root).name ∧
      ∀ x < t.size, ∀ c ∈ t.children x,
        ∃ b ∈ g.children (t.entry x).node, g.Passes b (t.entry c).node (t.entry c).name := by
  intro t
  have hprod := produces_of_matchAt h hq
  obtain ⟨hb, hsize⟩ := ParseTree.ofParsed_built s q
  -- Every node is built from a part of the parse that some call produced.
  have every : ∀ x < t.size,
      ∃ lo up q', Built t.entries lo up x q' ∧ ∃ a p', Produces g s a p' q' :=
    fun x hx => ParseTree.ofParsed_every (P := fun q' => ∃ a p', Produces g s a p' q')
      (fun _ ⟨_, _, h'⟩ c hc => by
        obtain ⟨b, -, p', hc'⟩ := h'.child c hc
        exact ⟨b, p', hc'⟩)
      ⟨n, p, hprod⟩ hx
  refine ⟨hsize, fun x hx => ?_, fun x hx => ParseTree.ofParsed_reaches hx,
    ParseTree.ofParsed_parent_eq_some_iff, ParseTree.ofParsed_parent_root, ?_, ?_⟩
  · obtain ⟨lo, _, _, hb', -⟩ := every x hx
    exact ⟨lo, Built.le _ hb', hb'.reaches_iff⟩
  · obtain ⟨hnode, hname, -⟩ := ParseTree.entry_of_built hb
    rw [hnode, hname]
    exact hprod.passes
  · intro x hx c hc
    obtain ⟨_, _, q', hb', a, p', hq'⟩ := every x hx
    obtain ⟨hnode, -, -, -, hall⟩ := ParseTree.entry_of_built hb'
    obtain ⟨_, c', hc', hbc⟩ := BuiltAll.built_of_mem _ hall c hc
    obtain ⟨hnodec, hnamec, -⟩ := ParseTree.entry_of_built hbc
    obtain ⟨b, hbmem, _, hprodc⟩ := hq'.child c' hc'
    rw [hnode, hnodec, hnamec]
    exact ⟨b, hbmem, hprodc.passes⟩

/-- Two characters under the choice `item`: a digit and a letter, named `tagged`, or else two
digits, unnamed. -/
def taggedPair : Grammar :=
  { nodes := #[{ shape := .choice [1, 4], name := some "item" },
      { shape := .seq [2, 3], name := some "tagged" }, { shape := .charRange '0' '9' false },
      { shape := .charRange 'a' 'z' false }, { shape := .seq [2, 2] }] }

/-- The parse of `42` by `taggedPair`: the unnamed pair of digits, named after the choice. -/
def taggedPairParse : Parsed :=
  .mk 4 (some "item") 0 2 [.mk 2 none 0 1 [], .mk 2 none 1 2 []]

/-- Backtracking leaves no garbage. A visit of any node, from any progress and any arena,
only appends to the arena: when it does not match, the arena is as it was, and when it matches,
the nodes it appended are exactly the subtree of the node it gives, which is the last of them.
So the tree of a successful match is the parse and nothing else: the subtree of every node is
the block of handles that ends with it, the root is last and reaches every node, parent links
are the child lists read backwards, the root has no parent, and every node carries the grammar
node and name that the visit that built it passes on. -/
theorem backtracking_leaves_no_garbage :
    (∀ (m : Matching) (depth : Nat) (id : NodeId) (pos : Nat) (σ σ' : Progress)
        (b b' : TreeBuilder) (r : Option (Handle × Nat)),
      ((m.buildNode depth id pos).run b).run σ = .ok (r, b') σ' →
        (r = none → b' = b) ∧ ∀ h e, r = some (h, e) → b.AppendsSubtree b' h) ∧
    ∀ (g : Grammar) (n : NodeId) (s : String) (p : Nat) (limits : Limits) (traced : Bool)
      (o : TreeOutcome) (mt : Matched),
      (matchTree g n s p limits traced).result = .ok o → o.matched = some mt →
        let t := mt.tree
        t.size = t.root + 1 ∧
          (∀ x < t.size, ∃ lo ≤ x, ∀ y,
            Relation.ReflTransGen (ChildEdge t.entries) x y ↔ lo ≤ y ∧ y ≤ x) ∧
          (∀ x < t.size, Relation.ReflTransGen (ChildEdge t.entries) t.root x) ∧
          (∀ x c, t.parent c = some x ↔ c ∈ t.children x) ∧
          t.parent t.root = none ∧
          g.Passes n (t.entry t.root).node (t.entry t.root).name ∧
          ∀ x < t.size, ∀ c ∈ t.children x,
            ∃ b ∈ g.children (t.entry x).node, g.Passes b (t.entry c).node (t.entry c).name := by
  refine ⟨fun m depth id pos σ σ' b b' r hrun => ?_, fun g n s p limits traced o mt h hmt => ?_⟩
  · obtain ⟨r₀, -, hlay⟩ := Matching.buildNode_ok hrun
    exact TreeBuilder.layout_frame hlay
  · -- The tree of the match is the parse that `matchAt` finds, laid out.
    rw [matchTree_eq] at h
    generalize hres : (matchAt g n s p limits traced).result = res at h
    rcases res with e | o₀
    · cases h
    · cases h
      obtain ⟨q, hq, rfl⟩ := Option.map_eq_some_iff.mp hmt
      exact matchAt_tree_shape hres hq

/-- On `42`: the visit of the choice tries the tagged form, which matches a digit and then fails
on `2`, and cuts the digit away; the choice leaves the three nodes of the pair of digits, the
pair last and named `item`, and the tree of the match is that pair. -/
theorem taggedPair_leaves_no_garbage :
    let m : Matching := ⟨taggedPair, "42", false⟩
    let t := ParseTree.ofParsed "42" taggedPairParse
    ((m.buildNode 256 0 0).run {}).run ⟨100, 0, 0, []⟩ =
        .ok (some (2, 2), ⟨t.entries⟩) ⟨93, 1, 0, []⟩ ∧
      (some (2, 2) = none → (⟨t.entries⟩ : TreeBuilder) = {}) ∧
      (∀ h e, some (2, 2) = some (h, e) → ({} : TreeBuilder).AppendsSubtree ⟨t.entries⟩ h) ∧
      (matchTree taggedPair 0 "42" 0).result = .ok ⟨some ⟨t, 2⟩, 1⟩ ∧
      t.size = t.root + 1 ∧
        (∀ x < t.size, ∃ lo ≤ x, ∀ y,
          Relation.ReflTransGen (ChildEdge t.entries) x y ↔ lo ≤ y ∧ y ≤ x) ∧
        (∀ x < t.size, Relation.ReflTransGen (ChildEdge t.entries) t.root x) ∧
        (∀ x c, t.parent c = some x ↔ c ∈ t.children x) ∧
        t.parent t.root = none ∧
        taggedPair.Passes 0 (t.entry t.root).node (t.entry t.root).name ∧
        ∀ x < t.size, ∀ c ∈ t.children x, ∃ b ∈ taggedPair.children (t.entry x).node,
          taggedPair.Passes b (t.entry c).node (t.entry c).name :=
  have hvisit := backtracking_leaves_no_garbage.1 ⟨taggedPair, "42", false⟩ 256 0 0
    ⟨100, 0, 0, []⟩ ⟨93, 1, 0, []⟩ {} _ _ rfl
  ⟨rfl, hvisit.1, hvisit.2, rfl,
    backtracking_leaves_no_garbage.2 taggedPair 0 "42" 0 {} false _ _ rfl rfl⟩

end Tokenweave
