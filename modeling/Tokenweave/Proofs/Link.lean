import Tokenweave.Proofs.Aliases
import Tokenweave.Proofs.Reachable
/-!
# Linking references

`Rules.link` walks the graph from the root with a stack, and when it first takes a node it points
each of the node's edges into a reference at the body that reference stands for. The edges are
rewritten in place while the walk reads the same graph, and the walk goes on along the rewritten
edges. This module says what the walk amounts to, with no mention of its stack:

* `linkTarget r g c`: where an edge into `c` ends up, the end of the chain of aliases for a
  reference that reaches a body and `c` itself otherwise; `linkView r g` is the whole graph with
  every edge pointed at its target.
* `linkOrder r g root`: the order in which the walk takes nodes, depth first from the root over
  the linked graph, the last child first (the walk pushes children in order and pops the last).
* `Dangles r g c`: the edge into `c` cannot be linked, because `c` is a reference whose chain of
  aliases ends at a name no rule defines.

Main statement (`link_complete_and_exact`): once no chain of aliases loops, and the root is not
itself a reference, a successful `link` leaves no reference reachable from the root, points each
edge of a reachable node at what `resolve` gives for it (and keeps every other edge), and keeps
every node the root does not reach; and `link` fails exactly when some node in its order has an
edge that dangles, naming the undefined rule of the first such edge met.

The proof runs the walk alongside the stack walk of `Grammar.reachable` over the mirrored linked
graph (`linkWalk_ok`, `linkWalk_error`). Between steps the graph being edited is the original with
the linked view laid over the nodes already taken (`Overlay`); a step that takes a node rewrites
exactly that node's edges (`linkEdges_ok`), or stops at its first dangling edge
(`linkEdges_error`).
-/

set_option autoImplicit false

namespace Tokenweave

namespace Shape

theorem children_withChildren {s : Shape} {cs : List NodeId} (h : cs.length = s.children.length) :
    (s.withChildren cs).children = cs := by
  cases s with
  | seq | choice => rfl
  | oneOrMore | optional | notFollowedBy =>
    obtain ⟨c, rfl⟩ := List.length_eq_one_iff.mp h
    rfl
  | literal | charSet | charRange | endOfInput | ref =>
    exact (List.length_eq_zero_iff.mp h).symm

theorem withChildren_children (s : Shape) : s.withChildren s.children = s := by
  cases s <;> rfl

theorem withChildren_withChildren {s : Shape} {cs cs' : List NodeId}
    (h : cs.length = s.children.length) (h' : cs'.length = s.children.length) :
    (s.withChildren cs).withChildren cs' = s.withChildren cs' := by
  cases s with
  | seq | choice => rfl
  | oneOrMore | optional | notFollowedBy =>
    obtain ⟨c, rfl⟩ := List.length_eq_one_iff.mp h
    obtain ⟨c', rfl⟩ := List.length_eq_one_iff.mp h'
    rfl
  | literal | charSet | charRange | endOfInput | ref => rfl

/-- Replacing edges never makes or unmakes a reference. -/
@[simp] theorem withChildren_eq_ref {s : Shape} {cs : List NodeId} {n : String} :
    s.withChildren cs = .ref n ↔ s = .ref n := by
  cases s <;> simp [withChildren]

end Shape

namespace Grammar

/-- The graph with each node's child edges in reverse order. -/
def mirror (g : Grammar) : Grammar :=
  { nodes := g.nodes.map fun nd => { nd with shape := nd.shape.withChildren nd.shape.children.reverse } }

theorem get?_setChild (g : Grammar) (id i c x : NodeId) :
    (g.setChild id i c).get? x =
      if id = x then (g.get? x).map fun nd => { nd with shape := nd.shape.setChild i c }
      else g.get? x := by
  simp [setChild, get?, Array.getElem?_modify]

@[simp] theorem size_setChild (g : Grammar) (id i c : NodeId) : (g.setChild id i c).size = g.size := by
  simp [setChild, size]

@[simp] theorem size_mirror (g : Grammar) : g.mirror.size = g.size := by
  simp [mirror, size]

theorem children_eq_of_get? {g : Grammar} {x : NodeId} {nd : Node} (h : g.get? x = some nd) :
    g.children x = nd.shape.children := by
  simp [children, h]

theorem children_eq_nil {g : Grammar} {x : NodeId} (h : g.get? x = none) : g.children x = [] := by
  simp [children, h]

theorem get?_eq_none {g : Grammar} {x : NodeId} (h : g.size ≤ x) : g.get? x = none := by
  simp [get?, size] at h ⊢
  exact h

theorem get?_mirror (g : Grammar) (x : NodeId) : g.mirror.get? x =
    (g.get? x).map fun nd => { nd with shape := nd.shape.withChildren nd.shape.children.reverse } := by
  simp [mirror, get?]

theorem children_mirror (g : Grammar) (x : NodeId) : g.mirror.children x = (g.children x).reverse := by
  cases h : g.get? x with
  | none => rw [children_eq_nil (by rw [get?_mirror, h]; rfl), children_eq_nil h, List.reverse_nil]
  | some nd =>
    rw [children_eq_of_get? (by rw [get?_mirror, h]; rfl), children_eq_of_get? h]
    exact Shape.children_withChildren List.length_reverse

/-- A listed node is reachable. -/
theorem reaches_of_mem_reachable {g : Grammar} {r x : NodeId} (hx : x ∈ g.reachable r) :
    Reaches g r x := by
  obtain ⟨out, hs⟩ := Search.exists_out g [] [r]
  rw [reachable_of_search hs, List.mem_reverse] at hx
  rcases hs.sound x hx with hx | ⟨z, hz, hreach⟩
  · exact absurd hx List.not_mem_nil
  · obtain rfl := List.mem_singleton.mp hz
    exact hreach

/-- The walk behind `reachable` puts what it had taken before, oldest first, ahead of the rest. -/
theorem reachableWalk_append (g : Grammar) (unvisited stack order pre : List NodeId) :
    g.reachableWalk unvisited stack (order ++ pre) =
      pre.reverse ++ g.reachableWalk unvisited stack order := by
  induction unvisited, stack, order using reachableWalk.induct g with
  | case1 unvisited order => simp [reachableWalk]
  | case2 unvisited order id rest hid ih =>
    rw [reachableWalk, dif_pos hid, reachableWalk, dif_pos hid, ← List.cons_append, ih]
  | case3 unvisited order id rest hid ih =>
    rw [reachableWalk, dif_neg hid, reachableWalk, dif_neg hid, ih]

/-- Taking a node not yet taken lists it, then what the walk takes after it. -/
theorem reachableWalk_cons_of_mem (g : Grammar) {unvisited rest : List NodeId} {id : NodeId}
    (hid : id ∈ unvisited) : g.reachableWalk unvisited (id :: rest) [] =
      id :: g.reachableWalk (unvisited.erase id) (g.children id ++ rest) [] := by
  rw [reachableWalk, dif_pos hid, ← List.nil_append [id], reachableWalk_append]
  rfl

theorem reachableWalk_cons_of_not_mem (g : Grammar) {unvisited rest : List NodeId} {id : NodeId}
    (hid : id ∉ unvisited) : g.reachableWalk unvisited (id :: rest) [] =
      g.reachableWalk unvisited rest [] := by
  rw [reachableWalk, dif_neg hid]

end Grammar

namespace Dialect.Rules

/-- Where linking points an edge into `c`: for a reference, the body its chain of aliases ends
at, if it ends at one; any other edge stays where it is. -/
def linkTarget (r : Rules) (g : Grammar) (c : NodeId) : NodeId :=
  match g.shape? c with
  | some (.ref n) =>
    match r.resolve g n rootName with
    | .ok b => b
    | .error _ => c
  | _ => c

/-- A node with its child edges pointed at their link targets. -/
def linkNode (r : Rules) (g : Grammar) (nd : Node) : Node :=
  { nd with shape := nd.shape.withChildren (nd.shape.children.map (r.linkTarget g)) }

/-- The graph with every edge pointed at its link target. -/
def linkView (r : Rules) (g : Grammar) : Grammar :=
  { nodes := g.nodes.map (r.linkNode g) }

/-- The order in which `link` takes nodes: depth first from the root over the linked graph, the
last child first. -/
def linkOrder (r : Rules) (g : Grammar) (root : NodeId) : List NodeId :=
  (r.linkView g).mirror.reachable root

/-- An edge into `c` cannot be linked: `c` is a reference whose chain of aliases ends at the name
`M`, which no rule defines. -/
def DanglesAt (r : Rules) (g : Grammar) (c : NodeId) (M : String) : Prop :=
  ∃ n k u v, g.shape? c = some (.ref n) ∧ r.Resolves g k n u (.error (.undefinedRule M v))

/-- An edge into `c` cannot be linked. -/
def Dangles (r : Rules) (g : Grammar) (c : NodeId) : Prop := ∃ M, r.DanglesAt g c M

/-- Linking makes the edge `c` into the edge `c'`: a reference into the body `resolve` gives for
it, from whichever rule it is used in, and any other edge into itself. -/
def Relinks (r : Rules) (g : Grammar) (c c' : NodeId) : Prop :=
  match g.shape? c with
  | some (.ref n) => ∀ u, r.resolve g n u = .ok c'
  | _ => c' = c

/-- Two graphs with the same references at the same places. -/
def SameRefs (g g' : Grammar) : Prop :=
  ∀ b n, g.shape? b = some (.ref n) ↔ g'.shape? b = some (.ref n)

variable {r : Rules} {g : Grammar}

/-! ## The outcome of a chain of aliases -/

/-- A chain of aliases ends at a body that is not a reference, or at an undefined name. -/
theorem Resolves.outcome {k : Nat} {n u : String} {o : Except GrammarError NodeId}
    (h : r.Resolves g k n u o) :
    (∃ b, o = .ok b ∧ ∀ t, g.shape? b ≠ some (.ref t)) ∨ ∃ M v, o = .error (.undefinedRule M v) := by
  induction h with
  | undefined => exact .inr ⟨_, _, rfl⟩
  | body _ hb => exact .inl ⟨_, rfl, hb⟩
  | aliased _ _ _ ih => exact ih

/-- Where a chain ends does not depend on the rule it was used in. -/
theorem Resolves.ok_user {k : Nat} {n u : String} {b : NodeId} (h : r.Resolves g k n u (.ok b))
    (u' : String) : r.Resolves g k n u' (.ok b) := by
  cases h with
  | body hn hb => exact .body hn hb
  | aliased hn ht h => exact .aliased hn ht h

theorem Resolves.undefined_user {k : Nat} {n u M v : String}
    (h : r.Resolves g k n u (.error (.undefinedRule M v))) (u' : String) :
    ∃ v', r.Resolves g k n u' (.error (.undefinedRule M v')) := by
  cases h with
  | undefined hn => exact ⟨u', .undefined hn⟩
  | aliased hn ht h => exact ⟨v, .aliased hn ht h⟩

/-- `resolve` reads no more of the graph than where its references are. -/
theorem resolveSteps_congr {g' : Grammar} (h : SameRefs g g') :
    ∀ (steps : Nat) (n u : String), r.resolveSteps g steps n u = r.resolveSteps g' steps n u
  | 0, _, _ => rfl
  | steps + 1, n, u => by
    cases hn : r.get? n with
    | none => simp [resolveSteps, hn]
    | some b =>
      by_cases hb : ∃ t, g.shape? b = some (.ref t)
      · obtain ⟨t, ht⟩ := hb
        simp [resolveSteps, hn, ht, (h b t).mp ht, resolveSteps_congr h steps t n]
      · have hb' : ∀ t, g.shape? b ≠ some (.ref t) := fun t h => hb ⟨t, h⟩
        have hb'' : ∀ t, g'.shape? b ≠ some (.ref t) := fun t h' => hb' t ((h b t).mpr h')
        simp only [resolveSteps, hn]

theorem resolve_congr {g' : Grammar} (h : SameRefs g g') (n u : String) :
    r.resolve g n u = r.resolve g' n u :=
  resolveSteps_congr h _ n u

section Checked

variable (hc : r.checkAliases g = .ok ())
include hc

/-- A reference that does not dangle resolves, from any rule, to its link target, which is not a
reference. -/
theorem resolve_of_not_dangles {c : NodeId} {n : String} (hcn : g.shape? c = some (.ref n))
    (hnd : ¬ r.Dangles g c) (u : String) :
    r.resolve g n u = .ok (r.linkTarget g c) ∧ ∀ t, g.shape? (r.linkTarget g c) ≠ some (.ref t) := by
  obtain ⟨k, -, hres⟩ := resolve_resolves hc n u
  rcases hres.outcome with ⟨b, hb, hbr⟩ | ⟨M, v, hv⟩
  · obtain ⟨k', -, hres'⟩ := resolve_resolves hc n rootName
    have hroot : r.resolve g n rootName = .ok b :=
      ((hb ▸ hres).ok_user rootName |>.unique hres').2.symm
    have htarget : r.linkTarget g c = b := by simp [linkTarget, hcn, hroot]
    rw [htarget]
    exact ⟨hb, hbr⟩
  · exact absurd ⟨M, n, k, u, v, hcn, hv ▸ hres⟩ hnd

/-- A dangling reference fails to resolve, from any rule, naming the undefined end of its chain. -/
theorem resolve_of_danglesAt {c : NodeId} {n M : String} (hcn : g.shape? c = some (.ref n))
    (hd : r.DanglesAt g c M) (u : String) : ∃ v, r.resolve g n u = .error (.undefinedRule M v) := by
  obtain ⟨n', k, u₀, v₀, hcn', hres₀⟩ := hd
  rw [hcn, Option.some.injEq, Shape.ref.injEq] at hcn'
  subst hcn'
  obtain ⟨v, hres⟩ := hres₀.undefined_user u
  obtain ⟨k', -, hres'⟩ := resolve_resolves hc n u
  exact ⟨v, (hres.unique hres').2.symm⟩

/-- The link target of an edge that does not dangle is not a reference. -/
theorem linkTarget_not_ref {c : NodeId} (hnd : ¬ r.Dangles g c) (t : String) :
    g.shape? (r.linkTarget g c) ≠ some (.ref t) := by
  by_cases hcr : ∃ n, g.shape? c = some (.ref n)
  · obtain ⟨n, hcn⟩ := hcr
    exact (resolve_of_not_dangles hc hcn hnd rootName).2 t
  · have hcr' : ∀ n, g.shape? c ≠ some (.ref n) := fun n h => hcr ⟨n, h⟩
    have : r.linkTarget g c = c := by simp only [linkTarget]
    rw [this]
    exact hcr' t

/-- An edge that does not dangle is relinked to its target. -/
theorem relinks_linkTarget {c : NodeId} (hnd : ¬ r.Dangles g c) :
    r.Relinks g c (r.linkTarget g c) := by
  unfold Relinks
  split
  · rename_i n hcn
    exact fun u => (resolve_of_not_dangles hc hcn hnd u).1
  · -- `hcr` rules out the reference branch of `linkTarget`.
    rename_i hcr
    simp only [linkTarget]

end Checked

/-! ## One node's edges -/

theorem SameRefs.trans {g₁ g₂ g₃ : Grammar} (h₁ : SameRefs g₁ g₂) (h₂ : SameRefs g₂ g₃) :
    SameRefs g₁ g₃ :=
  fun b n => (h₁ b n).trans (h₂ b n)

/-- Pointing an edge elsewhere makes or unmakes no reference. -/
theorem sameRefs_setChild (g : Grammar) (id i c : NodeId) : SameRefs (g.setChild id i c) g := by
  intro b n
  simp only [Grammar.shape?, Grammar.get?_setChild]
  split
  · cases g.get? b <;> simp [Shape.setChild]
  · rfl

theorem linkEdges_cons_ref {owner n : String} {id i c b : NodeId} {cs : List NodeId}
    {acc : List (NodeId × String)} (hcn : g.shape? c = some (.ref n))
    (hres : r.resolve g n owner = .ok b) :
    r.linkEdges owner id i (c :: cs) g acc =
      r.linkEdges owner id (i + 1) cs (g.setChild id i b) ((b, (r.ownerOf b).getD owner) :: acc) := by
  simp [linkEdges, hcn, hres, bind, Except.bind, pure, Except.pure]

theorem linkEdges_cons_ref_error {owner n : String} {id i c : NodeId} {cs : List NodeId}
    {acc : List (NodeId × String)} {e : GrammarError} (hcn : g.shape? c = some (.ref n))
    (hres : r.resolve g n owner = .error e) : r.linkEdges owner id i (c :: cs) g acc = .error e := by
  simp [linkEdges, hcn, hres, bind, Except.bind]

theorem linkEdges_cons_other {owner : String} {id i c : NodeId} {cs : List NodeId}
    {acc : List (NodeId × String)} (hcr : ∀ n, g.shape? c ≠ some (.ref n)) :
    r.linkEdges owner id i (c :: cs) g acc =
      r.linkEdges owner id (i + 1) cs g ((c, (r.ownerOf c).getD owner) :: acc) := by
  simp [linkEdges, bind, Except.bind, pure, Except.pure]

theorem linkTarget_of_not_ref {c : NodeId} (hcr : ∀ n, g.shape? c ≠ some (.ref n)) :
    r.linkTarget g c = c := by
  simp only [linkTarget]

section Edges

variable {g₀ : Grammar} (hc : r.checkAliases g₀ = .ok ())
include hc

/-- Linking the edges `cs` of node `id`, after the edges `done`: when none of them dangles, the
node's edges from there on are pointed at their targets and nothing else changes; the targets go
on the walk, in order. -/
theorem linkEdges_ok (owner : String) (id : NodeId) :
    ∀ (cs done : List NodeId) (g : Grammar) (nd : Node) (acc : List (NodeId × String)),
      SameRefs g g₀ → g.get? id = some nd → nd.shape.children = done ++ cs →
      (∀ c ∈ cs, ¬ r.Dangles g₀ c) →
      ∃ g' next, r.linkEdges owner id done.length cs g acc = .ok (g', next) ∧
        g'.get? id =
          some { nd with shape := nd.shape.withChildren (done ++ cs.map (r.linkTarget g₀)) } ∧
        (∀ x, x ≠ id → g'.get? x = g.get? x) ∧
        next.map Prod.fst = (acc.map Prod.fst).reverse ++ cs.map (r.linkTarget g₀)
  | [], done, g, nd, acc, _, hid, hch, _ => by
    refine ⟨g, acc.reverse, rfl, ?_, fun _ _ => rfl, by simp⟩
    rw [hid, List.map_nil, ← hch, Shape.withChildren_children]
  | c :: cs, done, g, nd, acc, hsame, hid, hch, hnd => by
    have hlen : (done ++ [r.linkTarget g₀ c]).length = done.length + 1 := by simp
    -- After this edge, the node's edges read `done`, the new target, then `cs`.
    have step : ∀ (g₁ : Grammar) (nd₁ : Node), SameRefs g₁ g₀ → g₁.get? id = some nd₁ →
        nd₁.shape.children = (done ++ [r.linkTarget g₀ c]) ++ cs →
        nd₁.shape = nd.shape.withChildren nd₁.shape.children → nd₁.name = nd.name →
        (∀ x, x ≠ id → g₁.get? x = g.get? x) → ∀ acc₁, acc₁.map Prod.fst = r.linkTarget g₀ c ::
          acc.map Prod.fst →
        ∃ g' next, r.linkEdges owner id (done.length + 1) cs g₁ acc₁ = .ok (g', next) ∧
          g'.get? id =
            some { nd with shape := nd.shape.withChildren (done ++ (c :: cs).map (r.linkTarget g₀)) } ∧
          (∀ x, x ≠ id → g'.get? x = g.get? x) ∧
          next.map Prod.fst = (acc.map Prod.fst).reverse ++ (c :: cs).map (r.linkTarget g₀) := by
      intro g₁ nd₁ hsame₁ hid₁ hch₁ hshape₁ hname₁ hrest₁ acc₁ hacc₁
      obtain ⟨g', next, hrun, hid', hrest', hnext⟩ :=
        linkEdges_ok owner id cs (done ++ [r.linkTarget g₀ c]) g₁ nd₁ acc₁ hsame₁ hid₁ hch₁
          fun c' hc' => hnd c' (List.mem_cons_of_mem _ hc')
      refine ⟨g', next, hlen ▸ hrun, ?_, fun x hx => (hrest' x hx).trans (hrest₁ x hx), ?_⟩
      · rw [hid']
        have hlen₁ : (done ++ (c :: cs).map (r.linkTarget g₀)).length = nd.shape.children.length := by
          simp [hch]
        have hlen₂ : nd₁.shape.children.length = nd.shape.children.length := by
          simp [hch, hch₁]
        rw [hshape₁, Shape.withChildren_withChildren hlen₂ (by simp [hch]), Option.some.injEq]
        cases nd₁
        cases nd
        simp_all
      · rw [hnext, hacc₁]
        simp
    by_cases hcr : ∃ n, g₀.shape? c = some (.ref n)
    · obtain ⟨n, hcn⟩ := hcr
      have hres := resolve_of_not_dangles hc hcn (hnd c List.mem_cons_self) owner
      rw [linkEdges_cons_ref ((hsame c n).mpr hcn) ((resolve_congr hsame n owner).trans hres.1)]
      refine step _ { nd with shape := nd.shape.setChild done.length (r.linkTarget g₀ c) }
        ((sameRefs_setChild _ _ _ _).trans hsame) (by simp [Grammar.get?_setChild, hid]) ?_ ?_ rfl
        (fun x hx => by simp [Grammar.get?_setChild, Ne.symm hx]) _ rfl
      · simp only [Shape.setChild]
        rw [Shape.children_withChildren (by simp), hch]
        simp
      · simp only [Shape.setChild]
        rw [Shape.children_withChildren (by simp)]
    · have hcr' : ∀ n, g₀.shape? c ≠ some (.ref n) := fun n h => hcr ⟨n, h⟩
      have htc : r.linkTarget g₀ c = c := linkTarget_of_not_ref hcr'
      rw [linkEdges_cons_other fun n h => hcr' n ((hsame c n).mp h)]
      exact step g nd hsame hid (by rw [hch, htc]; simp) (Shape.withChildren_children _).symm rfl
        (fun _ _ => rfl) _ (by simp [htc])

/-- Linking the edges of a node stops at the first edge that dangles, with the undefined name its
chain ends at. -/
theorem linkEdges_error (owner : String) (id : NodeId) {c : NodeId} {M : String}
    (cs₂ : List NodeId) (hd : r.DanglesAt g₀ c M) :
    ∀ (cs₁ : List NodeId) (i : Nat) (g : Grammar) (acc : List (NodeId × String)),
      SameRefs g g₀ → (∀ c' ∈ cs₁, ¬ r.Dangles g₀ c') →
      ∃ v, r.linkEdges owner id i (cs₁ ++ c :: cs₂) g acc = .error (.undefinedRule M v)
  | [], i, g, acc, hsame, _ => by
    have ⟨n, _, _, _, hcn, _⟩ := hd
    obtain ⟨v, hres⟩ := resolve_of_danglesAt hc hcn hd owner
    exact ⟨v, linkEdges_cons_ref_error ((hsame c n).mpr hcn)
      ((resolve_congr hsame n owner).trans hres)⟩
  | c' :: cs₁, i, g, acc, hsame, hnd => by
    have hnd' : ∀ c'' ∈ cs₁, ¬ r.Dangles g₀ c'' := fun c'' h => hnd c'' (List.mem_cons_of_mem _ h)
    by_cases hcr : ∃ n, g₀.shape? c' = some (.ref n)
    · obtain ⟨n, hcn⟩ := hcr
      have hres := resolve_of_not_dangles hc hcn (hnd c' List.mem_cons_self) owner
      rw [List.cons_append, linkEdges_cons_ref ((hsame c' n).mpr hcn)
        ((resolve_congr hsame n owner).trans hres.1)]
      exact linkEdges_error owner id cs₂ hd cs₁ _ _ _ ((sameRefs_setChild _ _ _ _).trans hsame) hnd'
    · have hcr' : ∀ n, g₀.shape? c' ≠ some (.ref n) := fun n h => hcr ⟨n, h⟩
      rw [List.cons_append, linkEdges_cons_other fun n h => hcr' n ((hsame c' n).mp h)]
      exact linkEdges_error owner id cs₂ hd cs₁ _ _ _ hsame hnd'

end Edges

/-! ## The walk -/

/-- The graph as `link` leaves it between steps: the nodes of `unvisited` as they were, every other
node as in the linked view. -/
def Overlay (r : Rules) (g₀ : Grammar) (unvisited : List NodeId) (g : Grammar) : Prop :=
  ∀ x, g.get? x = if x ∈ unvisited then g₀.get? x else (r.linkView g₀).get? x

theorem get?_linkView (x : NodeId) : (r.linkView g).get? x = (g.get? x).map (r.linkNode g) := by
  simp [linkView, Grammar.get?]

@[simp] theorem size_linkView : (r.linkView g).size = g.size := by
  simp [linkView, Grammar.size]

theorem children_linkView (x : NodeId) :
    (r.linkView g).children x = (g.children x).map (r.linkTarget g) := by
  cases h : g.get? x with
  | none =>
    rw [Grammar.children_eq_nil (by rw [get?_linkView, h]; rfl), Grammar.children_eq_nil h]
    rfl
  | some nd =>
    rw [Grammar.children_eq_of_get? (by rw [get?_linkView, h]; rfl), Grammar.children_eq_of_get? h]
    exact Shape.children_withChildren (List.length_map _)

theorem sameRefs_linkView : SameRefs (r.linkView g) g := by
  intro b n
  simp only [Grammar.shape?, get?_linkView]
  cases g.get? b <;> simp [linkNode]

/-- Between steps, the graph has the references of the original. -/
theorem Overlay.sameRefs {g₀ : Grammar} {unvisited : List NodeId} (h : r.Overlay g₀ unvisited g) :
    SameRefs g g₀ := by
  intro b n
  simp only [Grammar.shape?, h b]
  split
  · rfl
  · exact sameRefs_linkView b n

/-- A node not yet taken still has its original edges. -/
theorem Overlay.get?_of_mem {g₀ : Grammar} {unvisited : List NodeId} (h : r.Overlay g₀ unvisited g)
    {x : NodeId} (hx : x ∈ unvisited) : g.get? x = g₀.get? x := by
  rw [h x, if_pos hx]

section Walk

variable {g₀ : Grammar} (hc : r.checkAliases g₀ = .ok ())
include hc

/-- Taking a new node from the stack: its edges are linked when none of them dangles, and the
graph is then the overlay with that node taken too; the nodes pushed are its linked children,
last child on top. -/
theorem linkEdges_take (owner : String) {unvisited : List NodeId} {id : NodeId}
    (hnd : unvisited.Nodup) (hlt : ∀ x ∈ unvisited, x < g₀.size) (hI : r.Overlay g₀ unvisited g)
    (hid : id ∈ unvisited) (hno : ∀ c ∈ g₀.children id, ¬ r.Dangles g₀ c) :
    ∃ g' next, r.linkEdges owner id 0 (g.children id) g [] = .ok (g', next) ∧
      r.Overlay g₀ (unvisited.erase id) g' ∧
      (next.reverse.map Prod.fst) = (r.linkView g₀).mirror.children id := by
  obtain ⟨nd, hnd₀⟩ : ∃ nd, g₀.get? id = some nd :=
    Option.isSome_iff_exists.mp (by simpa [Grammar.get?, Grammar.size] using hlt id hid)
  have hget : g.get? id = some nd := (hI.get?_of_mem hid).trans hnd₀
  have hch : g.children id = g₀.children id := by
    rw [Grammar.children_eq_of_get? hget, Grammar.children_eq_of_get? hnd₀]
  obtain ⟨g', next, hrun, hid', hrest, hnext⟩ := linkEdges_ok hc owner id (g₀.children id) []
    g nd [] hI.sameRefs hget (by rw [Grammar.children_eq_of_get? hnd₀, List.nil_append]) (hch ▸ hno)
  refine ⟨g', next, hch ▸ hrun, fun x => ?_, ?_⟩
  · by_cases hx : x = id
    · subst hx
      rw [if_neg (hnd.not_mem_erase), hid', get?_linkView, hnd₀, Grammar.children_eq_of_get? hnd₀]
      rfl
    · rw [hrest x hx, hI x]
      simp only [hnd.mem_erase_iff, ne_eq, hx, not_false_eq_true, true_and]
  · rw [List.map_reverse, hnext, Grammar.children_mirror, children_linkView]
    simp

/-- The walk of `link`, when no node it takes has a dangling edge: it succeeds, and leaves the
linked view on every node it took and the original elsewhere. The nodes it takes are those of
the stack walk of `reachable` over the mirrored linked view. -/
theorem linkWalk_ok : ∀ (unvisited : List NodeId) (stack : List (NodeId × String)) (g : Grammar),
    unvisited.Nodup → (∀ x ∈ unvisited, x < g₀.size) → r.Overlay g₀ unvisited g →
    (∀ x ∈ (r.linkView g₀).mirror.reachableWalk unvisited (stack.map Prod.fst) [],
      ∀ c ∈ g₀.children x, ¬ r.Dangles g₀ c) →
    ∃ g', r.linkWalk unvisited stack g = .ok g' ∧ ∀ x, g'.get? x =
      if x ∈ unvisited ∧ x ∉ (r.linkView g₀).mirror.reachableWalk unvisited (stack.map Prod.fst) []
      then g₀.get? x else (r.linkView g₀).get? x := by
  intro unvisited stack g
  induction unvisited, stack, g using linkWalk.induct r with
  | case1 unvisited g =>
    intro _ _ hI _
    refine ⟨g, by rw [linkWalk], fun x => ?_⟩
    simp [Grammar.reachableWalk, hI x]
  | case2 unvisited g id owner rest hid e hedge =>
    intro hnd hlt hI hno
    rw [List.map_cons, Grammar.reachableWalk_cons_of_mem _ hid] at hno
    obtain ⟨g', next, hrun, -⟩ :=
      linkEdges_take hc owner hnd hlt hI hid (hno id List.mem_cons_self)
    rw [hrun] at hedge
    cases hedge
  | case3 unvisited g id owner rest hid g₁ next hedge ih =>
    intro hnd hlt hI hno
    rw [List.map_cons, Grammar.reachableWalk_cons_of_mem _ hid] at hno ⊢
    obtain ⟨g₁', next', hrun, hI₁, hnext⟩ :=
      linkEdges_take hc owner hnd hlt hI hid (hno id List.mem_cons_self)
    rw [hrun, Except.ok.injEq, Prod.mk.injEq] at hedge
    obtain ⟨rfl, rfl⟩ := hedge
    have hstack : (next'.reverse ++ rest).map Prod.fst =
        (r.linkView g₀).mirror.children id ++ rest.map Prod.fst := by
      rw [List.map_append, hnext]
    rw [hstack] at ih
    obtain ⟨g', hrun', hg'⟩ := ih (hnd.erase id) (fun x hx => hlt x (List.mem_of_mem_erase hx))
      hI₁ (fun x hx => hno x (List.mem_cons_of_mem _ hx))
    refine ⟨g', by rw [linkWalk, dif_pos hid, hrun]; exact hrun', fun x => ?_⟩
    rw [hg' x]
    by_cases hx : x = id
    · simp [hx, hnd.not_mem_erase]
    · simp [hx, hnd.mem_erase_iff]
  | case4 unvisited g id owner rest hid ih =>
    intro hnd hlt hI hno
    rw [List.map_cons, Grammar.reachableWalk_cons_of_not_mem _ hid] at hno ⊢
    obtain ⟨g', hrun, hg'⟩ := ih hnd hlt hI hno
    exact ⟨g', by rw [linkWalk, dif_neg hid]; exact hrun, hg'⟩

/-- The walk of `link` stops at the first node it takes that has a dangling edge, with the
undefined name of that node's first dangling edge. -/
theorem linkWalk_error {c : NodeId} {M : String} {cs₁ cs₂ : List NodeId} (hd : r.DanglesAt g₀ c M)
    (hnd₁ : ∀ c' ∈ cs₁, ¬ r.Dangles g₀ c') :
    ∀ (unvisited : List NodeId) (stack : List (NodeId × String)) (g : Grammar),
    unvisited.Nodup → (∀ x ∈ unvisited, x < g₀.size) → r.Overlay g₀ unvisited g →
    ∀ pre x post, (r.linkView g₀).mirror.reachableWalk unvisited (stack.map Prod.fst) [] =
      pre ++ x :: post → (∀ y ∈ pre, ∀ c ∈ g₀.children y, ¬ r.Dangles g₀ c) →
      g₀.children x = cs₁ ++ c :: cs₂ →
    ∃ v, r.linkWalk unvisited stack g = .error (.undefinedRule M v) := by
  intro unvisited stack g
  induction unvisited, stack, g using linkWalk.induct r with
  | case1 unvisited g =>
    intro _ _ _ pre x post horder
    simp [Grammar.reachableWalk] at horder
  | case2 unvisited g id owner rest hid e hedge =>
    intro hnd hlt hI pre x post horder hpre hx
    rw [List.map_cons, Grammar.reachableWalk_cons_of_mem _ hid] at horder
    cases pre with
    | nil =>
      -- The node with the dangling edge is the one taken now.
      obtain ⟨rfl, -⟩ := List.cons.inj horder
      have hch : g.children id = cs₁ ++ c :: cs₂ := by
        rw [← hx, Grammar.children, Grammar.children, hI.get?_of_mem hid]
      obtain ⟨v, hv⟩ := linkEdges_error hc owner id cs₂ hd cs₁ 0 g []
        hI.sameRefs hnd₁
      rw [hch, hv] at hedge
      cases hedge
      exact ⟨v, by rw [linkWalk, dif_pos hid, hch, hv]⟩
    | cons y pre =>
      obtain ⟨rfl, -⟩ := List.cons.inj horder
      obtain ⟨g', next, hrun, -⟩ :=
        linkEdges_take hc owner hnd hlt hI hid (hpre id List.mem_cons_self)
      rw [hrun] at hedge
      cases hedge
  | case3 unvisited g id owner rest hid g₁ next hedge ih =>
    intro hnd hlt hI pre x post horder hpre hx
    rw [List.map_cons, Grammar.reachableWalk_cons_of_mem _ hid] at horder
    cases pre with
    | nil =>
      obtain ⟨rfl, -⟩ := List.cons.inj horder
      have hch : g.children id = cs₁ ++ c :: cs₂ := by
        rw [← hx, Grammar.children, Grammar.children, hI.get?_of_mem hid]
      obtain ⟨v, hv⟩ := linkEdges_error hc owner id cs₂ hd cs₁ 0 g []
        hI.sameRefs hnd₁
      rw [hch, hv] at hedge
      cases hedge
    | cons y pre =>
      obtain ⟨rfl, horder'⟩ := List.cons.inj horder
      obtain ⟨g₁', next', hrun, hI₁, hnext⟩ :=
        linkEdges_take hc owner hnd hlt hI hid (hpre id List.mem_cons_self)
      rw [hrun, Except.ok.injEq, Prod.mk.injEq] at hedge
      obtain ⟨rfl, rfl⟩ := hedge
      have hstack : (next'.reverse ++ rest).map Prod.fst =
          (r.linkView g₀).mirror.children id ++ rest.map Prod.fst := by
        rw [List.map_append, hnext]
      obtain ⟨v, hv⟩ := ih (hnd.erase id) (fun x hx => hlt x (List.mem_of_mem_erase hx)) hI₁ pre x
        post (hstack ▸ horder') (fun z hz => hpre z (List.mem_cons_of_mem _ hz)) hx
      exact ⟨v, by rw [linkWalk, dif_pos hid, hrun]; exact hv⟩
  | case4 unvisited g id owner rest hid ih =>
    intro hnd hlt hI pre x post horder hpre hx
    rw [List.map_cons, Grammar.reachableWalk_cons_of_not_mem _ hid] at horder
    obtain ⟨v, hv⟩ := ih hnd hlt hI pre x post horder hpre hx
    exact ⟨v, by rw [linkWalk, dif_neg hid]; exact hv⟩

end Walk

/-! ## Linking from the root -/

/-- The first element of a list with a property, with none before it. -/
theorem exists_first_of_exists {α : Type} {P : α → Prop} : ∀ {l : List α}, (∃ x ∈ l, P x) →
    ∃ pre x post, l = pre ++ x :: post ∧ (∀ y ∈ pre, ¬ P y) ∧ P x
  | [], ⟨_, hx, _⟩ => absurd hx List.not_mem_nil
  | a :: l, ⟨x, hx, hPx⟩ => by
    by_cases ha : P a
    · exact ⟨[], a, l, rfl, by simp, ha⟩
    · have hl : ∃ x ∈ l, P x := by
        rcases List.mem_cons.mp hx with rfl | hx
        · exact absurd hPx ha
        · exact ⟨x, hx, hPx⟩
      obtain ⟨pre, y, post, rfl, hpre, hy⟩ := exists_first_of_exists hl
      refine ⟨a :: pre, y, post, rfl, fun z hz => ?_, hy⟩
      rcases List.mem_cons.mp hz with rfl | hz
      · exact ha
      · exact hpre z hz

/-- The edge into `c` is the first dangling edge met in `order`, and its chain ends at the
undefined name `M`: no node before its node in `order` has a dangling edge, and no edge before it
in its node does. -/
def FirstDangling (r : Rules) (g : Grammar) (order : List NodeId) (c : NodeId) (M : String) :
    Prop :=
  ∃ pre x post cs₁ cs₂, order = pre ++ x :: post ∧
    (∀ y ∈ pre, ∀ c' ∈ g.children y, ¬ r.Dangles g c') ∧ g.children x = cs₁ ++ c :: cs₂ ∧
    (∀ c' ∈ cs₁, ¬ r.Dangles g c') ∧ r.DanglesAt g c M

theorem exists_firstDangling {order : List NodeId}
    (h : ∃ x ∈ order, ∃ c ∈ g.children x, r.Dangles g c) : ∃ c M, r.FirstDangling g order c M := by
  obtain ⟨pre, x, post, hsplit, hpre, hx⟩ := exists_first_of_exists h
  obtain ⟨cs₁, c, cs₂, hcs, hcs₁, M, hM⟩ := exists_first_of_exists hx
  refine ⟨c, M, pre, x, post, cs₁, cs₂, hsplit, fun y hy c' hc' hd => hpre y hy ⟨c', hc', hd⟩, hcs,
    hcs₁, hM⟩

theorem linkOrder_eq (root : NodeId) (owner : String) : r.linkOrder g root =
    (r.linkView g).mirror.reachableWalk (List.range g.size) ([(root, owner)].map Prod.fst) [] := by
  simp [linkOrder, Grammar.reachable]

theorem lt_size_of_mem_linkOrder {root x : NodeId} (hx : x ∈ r.linkOrder g root) : x < g.size := by
  simpa using Grammar.lt_size_of_mem_reachable hx

/-- Before the walk, no node has been taken. -/
theorem overlay_range : r.Overlay g (List.range g.size) g := by
  intro x
  by_cases hx : x < g.size
  · simp [hx]
  · rw [if_neg (by simpa using hx), get?_linkView, Grammar.get?_eq_none (Nat.le_of_not_lt hx)]
    rfl

section Linked

variable {root : NodeId} (hc : r.checkAliases g = .ok ())
include hc

/-- `link` fails with the undefined name of the first dangling edge met. -/
theorem link_error_of_firstDangling {c : NodeId} {M : String}
    (h : r.FirstDangling g (r.linkOrder g root) c M) :
    ∃ v, r.link g root = .error (.undefinedRule M v) := by
  obtain ⟨pre, x, post, cs₁, cs₂, hsplit, hpre, hx, hcs₁, hM⟩ := h
  rw [linkOrder_eq root ((r.ownerOf root).getD rootName)] at hsplit
  exact linkWalk_error hc hM hcs₁ _ _ g List.nodup_range (fun x hx => List.mem_range.mp hx)
    overlay_range pre x post hsplit hpre hx

/-- When no node in the order has a dangling edge, `link` succeeds, and leaves the linked view on
the nodes of the order and the original graph elsewhere. -/
theorem link_ok_of_no_dangles (h : ∀ x ∈ r.linkOrder g root, ∀ c ∈ g.children x, ¬ r.Dangles g c) :
    ∃ g', r.link g root = .ok g' ∧ ∀ x, g'.get? x =
      if x ∈ r.linkOrder g root then (r.linkView g).get? x else g.get? x := by
  obtain ⟨g', hrun, hg'⟩ := linkWalk_ok hc _ _ g List.nodup_range
    (fun x hx => List.mem_range.mp hx) overlay_range
    (by rw [← linkOrder_eq root ((r.ownerOf root).getD rootName)]; exact h)
  rw [← linkOrder_eq root ((r.ownerOf root).getD rootName)] at hg'
  refine ⟨g', hrun, fun x => ?_⟩
  rw [hg' x]
  by_cases hO : x ∈ r.linkOrder g root
  · rw [if_neg fun h => h.2 hO, if_pos hO]
  · rw [if_neg hO]
    by_cases hx : x < g.size
    · rw [if_pos ⟨List.mem_range.mpr hx, hO⟩]
    · rw [if_neg fun h => hx (List.mem_range.mp h.1), get?_linkView,
        Grammar.get?_eq_none (Nat.le_of_not_lt hx)]
      rfl

/-- What a successful `link` leaves: no node in the order has a dangling edge, the nodes of the
order carry the linked view, and every other node is as it was. -/
theorem link_ok {g' : Grammar} (h : r.link g root = .ok g') :
    (∀ x ∈ r.linkOrder g root, ∀ c ∈ g.children x, ¬ r.Dangles g c) ∧
    ∀ x, g'.get? x = if x ∈ r.linkOrder g root then (r.linkView g).get? x else g.get? x := by
  have hno : ∀ x ∈ r.linkOrder g root, ∀ c ∈ g.children x, ¬ r.Dangles g c := by
    intro x hx c hcx hd
    obtain ⟨c', M, hfirst⟩ := exists_firstDangling ⟨x, hx, c, hcx, hd⟩
    obtain ⟨v, hv⟩ := link_error_of_firstDangling hc hfirst
    rw [h] at hv
    cases hv
  obtain ⟨g'', h', hg''⟩ := link_ok_of_no_dangles hc hno
  rw [h, Except.ok.injEq] at h'
  exact ⟨hno, h' ▸ hg''⟩

end Linked

section Result

variable {root : NodeId} {g' : Grammar}
  (hg' : ∀ x, g'.get? x = if x ∈ r.linkOrder g root then (r.linkView g).get? x else g.get? x)
include hg'

theorem sameRefs_of_linked : SameRefs g' g := by
  intro b n
  simp only [Grammar.shape?, hg' b]
  split
  · exact sameRefs_linkView b n
  · rfl

theorem children_linked_of_mem {x : NodeId} (hx : x ∈ r.linkOrder g root) :
    g'.children x = (g.children x).map (r.linkTarget g) := by
  rw [← children_linkView]
  simp [Grammar.children, hg' x, hx]

/-- What the linked graph reaches from the root is in the order, or no node at all. -/
theorem mem_linkOrder_of_reaches {x : NodeId} (h : Grammar.Reaches g' root x) :
    x ∈ r.linkOrder g root ∨ g.size ≤ x := by
  induction h with
  | refl =>
    by_cases hr : root < g.size
    · exact .inl (Grammar.mem_reachable_self (by simpa using hr))
    · exact .inr (Nat.le_of_not_lt hr)
  | @child b c _ hcb ih =>
    rcases ih with hb | hb
    · rw [children_linked_of_mem hg' hb, ← children_linkView] at hcb
      have hcm : c ∈ (r.linkView g).mirror.children b := by
        rw [Grammar.children_mirror]
        exact List.mem_reverse.mpr hcb
      by_cases hcs : c < g.size
      · exact .inl (Grammar.reachable_closed hb hcm (by simpa using hcs))
      · exact .inr (Nat.le_of_not_lt hcs)
    · have hnone : g'.get? b = none := by
        rw [hg' b, if_neg fun hO => absurd (lt_size_of_mem_linkOrder hO) (Nat.not_lt.mpr hb)]
        exact Grammar.get?_eq_none hb
      rw [Grammar.children_eq_nil hnone] at hcb
      exact absurd hcb List.not_mem_nil

/-- Every node of the order is reachable in the linked graph. -/
theorem reaches_of_mem_linkOrder {x : NodeId} (hx : x ∈ r.linkOrder g root) :
    Grammar.Reaches g' root x := by
  have key : ∀ y, Grammar.Reaches (r.linkView g).mirror root y →
      Grammar.Reaches g' root y ∧ (y ∈ r.linkOrder g root ∨ g.size ≤ y) := by
    intro y hy
    induction hy with
    | refl =>
      refine ⟨.refl _, ?_⟩
      by_cases hr : root < g.size
      · exact .inl (Grammar.mem_reachable_self (by simpa using hr))
      · exact .inr (Nat.le_of_not_lt hr)
    | @child b c _ hcb ih =>
      obtain ⟨hreach, hb⟩ := ih
      -- A node with a child is a node, so it was taken.
      have hbO : b ∈ r.linkOrder g root := by
        rcases hb with hb | hb
        · exact hb
        · have hnone : (r.linkView g).mirror.get? b = none :=
            Grammar.get?_eq_none (by simpa using hb)
          rw [Grammar.children_eq_nil hnone] at hcb
          exact absurd hcb List.not_mem_nil
      have hcb' : c ∈ g'.children b := by
        rw [children_linked_of_mem hg' hbO, ← children_linkView]
        rw [Grammar.children_mirror] at hcb
        exact List.mem_reverse.mp hcb
      refine ⟨.child hreach hcb', ?_⟩
      by_cases hcs : c < g.size
      · exact .inl (Grammar.reachable_closed hbO hcb (by simpa using hcs))
      · exact .inr (Nat.le_of_not_lt hcs)
  exact (key x (Grammar.reaches_of_mem_reachable hx)).1

end Result

/-- Reference linking is complete and exact. Once no chain of aliases loops, and the root is not a
reference: a successful `link` leaves no reference reachable from the root; each edge of a node
reachable from the root is what `resolve` gives for the old edge when that was a reference, and
the old edge otherwise; and every node the root does not reach is as it was. `link` fails exactly
when a node in its order has a dangling edge, and then with the undefined name that the chain of
the first dangling edge met ends at. -/
theorem link_complete_and_exact (r : Rules) (g : Grammar) (root : NodeId)
    (hroot : ∀ n, g.shape? root ≠ some (.ref n)) (hc : r.checkAliases g = .ok ()) :
    (∀ g', r.link g root = .ok g' →
      (∀ x, Grammar.Reaches g' root x → ∀ n, g'.shape? x ≠ some (.ref n)) ∧
      (∀ x, Grammar.Reaches g' root x → List.Forall₂ (r.Relinks g) (g.children x) (g'.children x)) ∧
      (∀ x, ¬ Grammar.Reaches g' root x → g'.get? x = g.get? x)) ∧
    ((∃ e, r.link g root = .error e) ↔ ∃ x ∈ r.linkOrder g root, ∃ c ∈ g.children x, r.Dangles g c) ∧
    (∀ e, r.link g root = .error e →
      ∃ c M u, r.FirstDangling g (r.linkOrder g root) c M ∧ e = .undefinedRule M u) := by
  have herror : ∀ e, r.link g root = .error e →
      ∃ c M u, r.FirstDangling g (r.linkOrder g root) c M ∧ e = .undefinedRule M u := by
    intro e he
    -- Were no edge in the order dangling, `link` would have succeeded.
    by_cases hd : ∃ x ∈ r.linkOrder g root, ∃ c ∈ g.children x, r.Dangles g c
    · obtain ⟨c, M, hfirst⟩ := exists_firstDangling hd
      obtain ⟨v, hv⟩ := link_error_of_firstDangling hc hfirst
      rw [he, Except.error.injEq] at hv
      exact ⟨c, M, v, hfirst, hv⟩
    · obtain ⟨g', hok, -⟩ := link_ok_of_no_dangles hc fun x hx c hcx hdc => hd ⟨x, hx, c, hcx, hdc⟩
      rw [he] at hok
      cases hok
  refine ⟨fun g' hlink => ?_, ⟨fun ⟨e, he⟩ => ?_, fun hd => ?_⟩, herror⟩
  · obtain ⟨hno, hg'⟩ := link_ok hc hlink
    have hsame := sameRefs_of_linked hg'
    refine ⟨fun x hx n hxn => ?_, fun x hx => ?_, fun x hx => ?_⟩
    · -- The root is no reference, and every other reachable node is a link target.
      cases hx with
      | refl => exact hroot n ((hsame root n).mp hxn)
      | @child b _ hb hxb =>
        have hbO : b ∈ r.linkOrder g root := by
          rcases mem_linkOrder_of_reaches hg' hb with hbO | hbs
          · exact hbO
          · have hnone : g'.get? b = none := by
              rw [hg' b, if_neg fun hO => absurd (lt_size_of_mem_linkOrder hO) (Nat.not_lt.mpr hbs)]
              exact Grammar.get?_eq_none hbs
            rw [Grammar.children_eq_nil hnone] at hxb
            exact absurd hxb List.not_mem_nil
        rw [children_linked_of_mem hg' hbO] at hxb
        obtain ⟨c, hc', rfl⟩ := List.mem_map.mp hxb
        exact linkTarget_not_ref hc (hno b hbO c hc') n ((hsame _ n).mp hxn)
    · rcases mem_linkOrder_of_reaches hg' hx with hxO | hxs
      · rw [children_linked_of_mem hg' hxO, List.forall₂_map_right_iff, List.forall₂_same]
        exact fun c hcx => relinks_linkTarget hc (hno x hxO c hcx)
      · have hnone : g.get? x = none := Grammar.get?_eq_none hxs
        have hnone' : g'.get? x = none := by
          rw [hg' x, if_neg fun hO => absurd (lt_size_of_mem_linkOrder hO) (Nat.not_lt.mpr hxs)]
          exact hnone
        rw [Grammar.children_eq_nil hnone, Grammar.children_eq_nil hnone']
        exact .nil
    · rw [hg' x, if_neg fun hO => hx (reaches_of_mem_linkOrder hg' hO)]
  · obtain ⟨c, M, -, ⟨pre, x, post, cs₁, cs₂, hsplit, -, hx, -, hM⟩, -⟩ := herror e he
    exact ⟨x, by simp [hsplit], c, by simp [hx], M, hM⟩
  · obtain ⟨c, M, hfirst⟩ := exists_firstDangling hd
    obtain ⟨v, hv⟩ := link_error_of_firstDangling hc hfirst
    exact ⟨_, hv⟩

/-- Rules `root ::= a "x"`, `a ::= b` and `b ::= "y"`, lowered: the root's sequence refers to `a`,
which is an alias of `b`. -/
def aliasedPair : Grammar :=
  { nodes := #[{ shape := .seq [1, 3], name := some "root" }, { shape := .ref "a" },
      { shape := .ref "b" }, { shape := .literal "x" }, { shape := .literal "y", name := some "b" }] }

/-- The rule table of `aliasedPair`. -/
def aliasedPairRules : Rules := { entries := [("root", 0), ("a", 2), ("b", 4)] }

/-- The statement on `aliasedPair` from its root. -/
theorem aliasedPair_link_complete :
    (∀ n, aliasedPair.shape? 0 ≠ some (.ref n)) ∧
    aliasedPairRules.checkAliases aliasedPair = .ok () ∧
    ((∀ g', aliasedPairRules.link aliasedPair 0 = .ok g' →
      (∀ x, Grammar.Reaches g' 0 x → ∀ n, g'.shape? x ≠ some (.ref n)) ∧
      (∀ x, Grammar.Reaches g' 0 x →
        List.Forall₂ (aliasedPairRules.Relinks aliasedPair) (aliasedPair.children x) (g'.children x)) ∧
      (∀ x, ¬ Grammar.Reaches g' 0 x → g'.get? x = aliasedPair.get? x)) ∧
    ((∃ e, aliasedPairRules.link aliasedPair 0 = .error e) ↔
      ∃ x ∈ aliasedPairRules.linkOrder aliasedPair 0, ∃ c ∈ aliasedPair.children x,
        aliasedPairRules.Dangles aliasedPair c) ∧
    (∀ e, aliasedPairRules.link aliasedPair 0 = .error e →
      ∃ c M u, aliasedPairRules.FirstDangling aliasedPair (aliasedPairRules.linkOrder aliasedPair 0) c M ∧
        e = .undefinedRule M u)) :=
  have hroot : ∀ n, aliasedPair.shape? 0 ≠ some (.ref n) := fun n h => by cases h
  have hc : aliasedPairRules.checkAliases aliasedPair = .ok () := by decide
  ⟨hroot, hc, link_complete_and_exact aliasedPairRules aliasedPair 0 hroot hc⟩

end Dialect.Rules

end Tokenweave
