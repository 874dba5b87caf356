import Tokenweave.Grammar.Basic
/-!
# Reachable nodes

`Grammar.reachable g root` lists every node that can be reached from `root` along child edges,
each once, in depth-first pre-order with children visited left to right.

It is computed with a stack: a node is marked when it is taken from the stack rather than when
it is put there, so the stack may hold stale copies of a node, which are skipped when they come
up. Children go on the stack last child first, so the leftmost child is taken next. The walk
ends because every step either takes a node off the list of unvisited nodes or shortens the
stack.

`Grammar.owners` walks the graph the same way and gives each node its owner: its own name, or
else the owner of the node through which it was first reached. Analyses use the owner to say
which rule a problem belongs to.
-/

namespace Tokenweave.Grammar

/-- The stack walk behind `reachable`: `unvisited` holds the nodes not yet taken, `order` the
nodes taken so far, newest first. -/
def reachableWalk (g : Grammar) (unvisited : List NodeId) (stack : List NodeId)
    (order : List NodeId) : List NodeId :=
  match stack with
  | [] => order.reverse
  | id :: rest =>
    if _h : id ∈ unvisited then
      reachableWalk g (unvisited.erase id) (g.children id ++ rest) (id :: order)
    else reachableWalk g unvisited rest order
termination_by (unvisited.length, stack.length)
decreasing_by
  · have := List.length_erase_of_mem _h
    have := List.length_pos_of_mem _h
    exact Prod.Lex.left _ _ (by omega)
  · exact Prod.Lex.right _ (by simp)

/-- Every node reachable from `root`, each once, in depth-first pre-order. -/
def reachable (g : Grammar) (root : NodeId) : List NodeId :=
  reachableWalk g (List.range g.size) [root] []

/-- The stack walk behind `owners`: each stack entry carries the owner inherited from the node
that put it there. -/
def ownersWalk (g : Grammar) (unvisited : List NodeId)
    (stack : List (NodeId × Option String)) (owners : Array (Option String)) :
    Array (Option String) :=
  match stack with
  | [] => owners
  | (id, inherited) :: rest =>
    if _h : id ∈ unvisited then
      let owner := (g.nameOf id).or inherited
      ownersWalk g (unvisited.erase id) ((g.children id).map (·, owner) ++ rest)
        (owners.set! id owner)
    else ownersWalk g unvisited rest owners
termination_by (unvisited.length, stack.length)
decreasing_by
  · have := List.length_erase_of_mem _h
    have := List.length_pos_of_mem _h
    exact Prod.Lex.left _ _ (by omega)
  · exact Prod.Lex.right _ (by simp)

/-- The owner of every node, indexed by node: its own name, or the owner of the node through
which the walk from `root` first reached it. Nodes not reached have none. -/
def owners (g : Grammar) (root : NodeId) : Array (Option String) :=
  ownersWalk g (List.range g.size) [(root, none)] (Array.replicate g.size none)

end Tokenweave.Grammar
