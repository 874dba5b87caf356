import Tokenweave.Grammar.Search
/-!
# Reachable nodes are the depth-first search

Main statement (`reachable_eq_depthFirst`): in a grammar whose child ids are nodes, the list
`reachable g r` from a node `r` is the one outcome of the recursive depth-first search from
`r`, read oldest first; it lists each node once, and it lists exactly the nodes reachable from
`r`. The stack walk marks a node when it takes it from the stack, not when it puts it there,
and may hold stale copies of a node; the statement says that this changes nothing.

The proof runs the walk alongside the search (`reachableWalk_of_search`) and reads the three
parts off the search's own laws.
-/

namespace Tokenweave.Grammar

/-- The walk from `r` lists, oldest first, what the search from `r` sees. -/
theorem reachable_of_search {g : Grammar} {r : NodeId} {out : List NodeId}
    (hs : Search g [] [r] out) : g.reachable r = out.reverse := by
  have h := reachableWalk_of_search hs []
  rw [pending_nil, List.append_nil] at h
  rw [reachable, h, reachableWalk]

/-- Every node listed is a node of the grammar. -/
theorem lt_size_of_mem_reachable {g : Grammar} {r x : NodeId} (hx : x ∈ g.reachable r) :
    x < g.size := by
  obtain ⟨out, hs⟩ := Search.exists_out g [] [r]
  rw [reachable_of_search hs, List.mem_reverse] at hx
  exact hs.lt_size x hx List.not_mem_nil

/-- The children of a listed node are listed, when they are nodes. -/
theorem reachable_closed {g : Grammar} {r x c : NodeId} (hx : x ∈ g.reachable r)
    (hc : c ∈ g.children x) (hlt : c < g.size) : c ∈ g.reachable r := by
  obtain ⟨out, hs⟩ := Search.exists_out g [] [r]
  rw [reachable_of_search hs, List.mem_reverse] at hx ⊢
  exact hs.closed_of_lt x hx List.not_mem_nil c hc hlt

/-- A node is listed among the nodes reachable from it. -/
theorem mem_reachable_self {g : Grammar} {r : NodeId} (hr : r < g.size) : r ∈ g.reachable r := by
  obtain ⟨out, hs⟩ := Search.exists_out g [] [r]
  rw [reachable_of_search hs, List.mem_reverse]
  exact hs.covers r List.mem_cons_self hr

/-- In a grammar whose child ids are nodes, `reachable g r` is the depth-first search from `r`,
lists no node twice, and lists exactly the nodes reachable from `r`. -/
theorem reachable_eq_depthFirst (g : Grammar) (r : NodeId) (hg : g.InRange) (hr : r < g.size) :
    (∀ out, Search g [] [r] out ↔ out = (g.reachable r).reverse) ∧ (g.reachable r).Nodup ∧
      ∀ x, x ∈ g.reachable r ↔ Reaches g r x := by
  obtain ⟨out, hs⟩ := Search.exists_out g [] [r]
  have hw := reachable_of_search hs
  refine ⟨fun out' => ⟨fun h' => ?_, fun h' => ?_⟩, ?_, fun x => ?_⟩
  · rw [hw, List.reverse_reverse]
    exact (hs.unique h').symm
  · rw [h', hw, List.reverse_reverse]
    exact hs
  · rw [hw]
    exact List.pairwise_reverse.mpr ((hs.nodup List.nodup_nil).imp fun hab => Ne.symm hab)
  · rw [hw, List.mem_reverse]
    constructor
    · intro hx
      rcases hs.sound x hx with hx | ⟨z, hz, hreach⟩
      · exact absurd hx List.not_mem_nil
      · rw [List.mem_singleton] at hz
        subst hz
        exact hreach
    · intro hreach
      induction hreach with
      | refl => exact hs.covers r List.mem_cons_self hr
      | child _ hc ih => exact hs.closed hg _ ih List.not_mem_nil _ hc

/-- A grammar of three nodes: the sequence of an optional end of input and the end of input
itself, so that the end of input is reached twice. -/
def sharedEnd : Grammar :=
  { nodes := #[{ shape := .seq [1, 2], name := none }, { shape := .optional 2, name := none },
      { shape := .endOfInput, name := none }] }

/-- The statement at the sequence of `sharedEnd`. -/
theorem reachable_sharedEnd : sharedEnd.InRange ∧ 0 < sharedEnd.size ∧
    ((∀ out, Search sharedEnd [] [0] out ↔ out = (sharedEnd.reachable 0).reverse) ∧
      (sharedEnd.reachable 0).Nodup ∧ ∀ x, x ∈ sharedEnd.reachable 0 ↔ Reaches sharedEnd 0 x) :=
  ⟨by decide, by decide, reachable_eq_depthFirst sharedEnd 0 (by decide) (by decide)⟩

end Tokenweave.Grammar
