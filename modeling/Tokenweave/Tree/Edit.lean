import Tokenweave.Tree.Basic
/-!
# Editing parse trees

Structural edits splice child lists and parent links and never remove a node from the array, so
every handle stays valid and a detached node can still be read or put back:

* `remove h` detaches `h` from its parent (the root is left as it is);
* `liftChildren h` puts the children of `h` in its place in its parent's children and detaches
  `h`, now without children (again the root is left as it is);
* `replaceWith h (.node o)` detaches `o` and puts it in the place of `h`, which is detached; when
  `h` has no parent, `o` becomes the root. `replaceWith h (.payload id)` attaches grammar node `id`
  to `h` and changes nothing else;
* `setValue h v` makes `v` the value of `h`;
* `cull h filters` visits the nodes under `h` children first and deletes, lifts or keeps each by
  the first filter that matches it. `h` itself is never culled.

Filters look only at a node's name and span, which no edit changes, so a node is judged the
same whenever it is judged.
-/

namespace Tokenweave

/-- What `replaceWith` puts in place of a node. -/
inductive Replacement where
  /-- Another node of the same tree takes the place of the node. -/
  | node (h : Handle)
  /-- The node stays and carries the grammar node `id`. -/
  | payload (id : NodeId)
  deriving Repr, DecidableEq

/-- What happens to a node that a filter picks. -/
inductive Strategy where
  /-- The node stays; later filters are not asked. -/
  | keep
  /-- The node and everything under it is detached. -/
  | deleteAll
  /-- The node's children take its place, and the node is detached. -/
  | liftChildren
  deriving Repr, DecidableEq, Inhabited

/-- Which nodes a filter picks. -/
inductive Pick where
  /-- Nodes whose name is one of `names`. -/
  | named (names : List String)
  /-- Nodes without a name. -/
  | unnamed
  /-- Nodes whose span is empty. -/
  | empty
  deriving Repr, DecidableEq

/-- A filter for `cull`: which nodes, and what happens to them. -/
structure Filter where
  pick : Pick
  strategy : Strategy
  deriving Repr, DecidableEq

namespace ParseTree

/-- Change one node. -/
def modifyEntry (t : ParseTree) (h : Handle) (f : Entry → Entry) : ParseTree :=
  { t with entries := t.entries.modify h f }

/-- Detach `h` from its parent. -/
def remove (t : ParseTree) (h : Handle) : ParseTree :=
  match t.parent h with
  | none => t
  | some p =>
    (t.modifyEntry p fun e => { e with children := e.children.filter (· != h) }).modifyEntry h
      fun e => { e with parent := none }

/-- `xs` with the first `h` replaced by the list `ys`. -/
def spliceAt (xs : List Handle) (h : Handle) (ys : List Handle) : List Handle :=
  match xs.idxOf? h with
  | some i => xs.take i ++ ys ++ xs.drop (i + 1)
  | none => xs

/-- Put the children of `h` in its place and detach it. -/
def liftChildren (t : ParseTree) (h : Handle) : ParseTree :=
  match t.parent h with
  | none => t
  | some p =>
    let cs := t.children h
    let t := t.modifyEntry h fun e => { e with children := [] }
    let t := cs.foldl (fun t c => t.modifyEntry c fun e => { e with parent := some p }) t
    let t := t.modifyEntry p fun e => { e with children := spliceAt e.children h cs }
    t.modifyEntry h fun e => { e with parent := none }

/-- Replace `h` by another node, or attach a payload to it. -/
def replaceWith (t : ParseTree) (h : Handle) : Replacement → ParseTree
  | .payload id => t.modifyEntry h fun e => { e with payload := some id }
  | .node o =>
    if o == h then t
    else
      let t := t.remove o
      match t.parent h with
      | some p =>
        let t := t.modifyEntry p fun e => { e with children := spliceAt e.children h [o] }
        let t := t.modifyEntry o fun e => { e with parent := some p }
        t.modifyEntry h fun e => { e with parent := none }
      | none => { t with root := o }

/-- Make `v` the value of `h`. -/
def setValue (t : ParseTree) (h : Handle) (v : String) : ParseTree :=
  t.modifyEntry h fun e => { e with value := some v }

/-- Whether a filter picks node `h`. -/
def picks (t : ParseTree) (h : Handle) : Pick → Bool
  | .named names => match t.name h with
    | some n => names.contains n
    | none => false
  | .unnamed => (t.name h).isNone
  | .empty => (t.entry h).start == (t.entry h).stop

/-- The strategy of the first filter that picks `h`, or `keep`. -/
def strategyFor (t : ParseTree) (filters : List Filter) (h : Handle) : Strategy :=
  match filters.find? (fun f => t.picks h f.pick) with
  | some f => f.strategy
  | none => .keep

/-- Cull under `h`, at most `depth` levels deep: each child of `h` in turn (as the children were
before any of them was culled) is culled itself, then judged. -/
def cullAt (filters : List Filter) : Nat → ParseTree → Handle → ParseTree
  | 0, t, _ => t
  | depth + 1, t, h =>
    (t.children h).foldl (fun t c =>
      let t := cullAt filters depth t c
      match t.strategyFor filters c with
      | .keep => t
      | .deleteAll => t.remove c
      | .liftChildren => t.liftChildren c) t

/-- Cull the nodes under `h` by `filters`. A subtree is at most as deep as the tree has nodes. -/
def cull (t : ParseTree) (h : Handle) (filters : List Filter) : ParseTree :=
  cullAt filters (t.size + 1) t h

end ParseTree

end Tokenweave
