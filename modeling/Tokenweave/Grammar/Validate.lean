import Tokenweave.Grammar.Nullable
/-!
# Grammars that always stop

A backtracking matcher can run forever on finite input in two ways: a repetition whose body
succeeds without consuming anything, and a cycle of nodes that enters itself again at the same
position (left recursion). `Grammar.validate` looks for both, and for rules never linked, on the
part of the graph reachable from a root, before any input is seen.

The checks run in a fixed order and the first finding is reported: an unlinked rule first (the
first in pre-order), then a nullable repetition (the first in pre-order), then left recursion.

Left recursion is a cycle of entry edges. A node enters, at its own start position, each child it
may try before consuming anything: the parts of a sequence up to and including the first part
that is not nullable, every alternative of a choice, and the body of a repetition, an optional
or a negation. The search is a depth-first walk with three marks, in which reaching a node that
is still active closes a cycle.
-/

namespace Tokenweave

/-- Why a grammar cannot be used for matching. -/
inductive Defect where
  /-- A repetition whose body can succeed on empty input, in the named rule. -/
  | nullableRepeat (rule : String)
  /-- Rules that reach themselves without consuming input, in the order they are entered. -/
  | leftRecursion (chain : List String)
  /-- A rule name that was never linked to a body. -/
  | unresolvedReference (name : String)
  deriving Repr, DecidableEq

/-- The report for a defect. -/
def Defect.message : Defect → String
  | .nullableRepeat rule => "repetition in `" ++ rule ++ "` can match empty input"
  | .leftRecursion chain => "left recursion: " ++ " -> ".intercalate chain
  | .unresolvedReference name => "unresolved reference to `" ++ name ++ "`"

/-- The children a shape may enter at its own start position. -/
def Shape.entryEdges (nul : NodeId → Bool) : Shape → List NodeId
  | .seq parts =>
    let lead := parts.takeWhile nul
    lead ++ (parts.drop lead.length).take 1
  | .choice alternatives => alternatives
  | .oneOrMore body => [body]
  | .optional body => [body]
  | .notFollowedBy body => [body]
  | _ => []

/-- The first result that `f` finds along a list, threading a state through the tries. -/
def firstSome {α β σ : Type} (f : α → σ → Option β × σ) : List α → σ → Option β × σ
  | [], s => (none, s)
  | a :: as, s =>
    match f a s with
    | (some b, s') => (some b, s')
    | (none, s') => firstSome f as s'

namespace Grammar

/-- Progress of the left-recursion search at one node. -/
inductive Mark where
  | fresh
  | active
  | done
  deriving Repr, DecidableEq, Inhabited

/-- The children node `id` may enter at its start position. -/
def entryEdges (g : Grammar) (nul : Array Bool) (id : NodeId) : List NodeId :=
  match g.shape? id with
  | some s => s.entryEdges (marked nul)
  | none => []

/-- The cycle closed by reaching the active node `id`: the active path (newest first) from `id`
on, oldest first, followed by `id` again. -/
def closeCycle (path : List NodeId) (id : NodeId) : Option (List NodeId) :=
  if path.contains id then some (id :: ((path.takeWhile (· != id)).reverse ++ [id])) else none

/-- The search from one node. Each level of nesting makes one more node active, so the
number of nodes plus one levels always suffice; `depth` bounds them. -/
def visitEntries (g : Grammar) (nul : Array Bool) :
    Nat → NodeId → Array Mark × List NodeId → Option (List NodeId) × (Array Mark × List NodeId)
  | 0, _, st => (none, st)
  | depth + 1, id, (marks, path) =>
    match marks[id]?.getD .done with
    | .done => (none, (marks, path))
    | .active => (closeCycle path id, (marks, path))
    | .fresh =>
      match firstSome (visitEntries g nul depth) (g.entryEdges nul id)
          (marks.set! id .active, id :: path) with
      | (some cycle, st) => (some cycle, st)
      | (none, (marks', path')) => (none, (marks'.set! id .done, path'.drop 1))

/-- A cycle of entry edges among the nodes of `order`, if there is one: the first found when the
search starts from each node of `order` in turn. -/
def findLeftRecursion (g : Grammar) (order : List NodeId) (nul : Array Bool) :
    Option (List NodeId) :=
  (firstSome (g.visitEntries nul (g.size + 1)) order (Array.replicate g.size .fresh, [])).1

/-- The rule a node belongs to, for reports. -/
def ownerName (owners : Array (Option String)) (id : NodeId) : String :=
  ((owners[id]?).join).getD "<anonymous>"

/-- The rule names along a cycle: its named nodes, or its owner twice when fewer than two
nodes of the cycle are named. -/
def cycleChain (g : Grammar) (owners : Array (Option String)) (cycle : List NodeId) :
    List String :=
  let names := cycle.filterMap g.nameOf
  if names.length < 2 then
    let owner := ownerName owners (cycle.headD 0)
    [owner, owner]
  else names

/-- The first unlinked rule among `order`. -/
def firstUnresolved (g : Grammar) (order : List NodeId) : Option String :=
  order.findSome? fun id =>
    match g.shape? id with
    | some (.ref name) => some name
    | _ => none

/-- The first repetition among `order` whose body is nullable. -/
def firstNullableRepeat (g : Grammar) (order : List NodeId) (nul : Array Bool) :
    Option NodeId :=
  order.find? fun id =>
    match g.shape? id with
    | some (.oneOrMore body) => marked nul body
    | _ => false

/-- Check the graph reachable from `root`: no unlinked rule, no nullable repetition, no left
recursion, reported in that order. -/
def validate (g : Grammar) (root : NodeId) : Except Defect Unit :=
  let order := g.reachable root
  let owners := g.owners root
  match g.firstUnresolved order with
  | some name => .error (.unresolvedReference name)
  | none =>
    let nul := g.nullable order
    match g.firstNullableRepeat order nul with
    | some id => .error (.nullableRepeat (ownerName owners id))
    | none =>
      match g.findLeftRecursion order nul with
      | some cycle => .error (.leftRecursion (g.cycleChain owners cycle))
      | none => .ok ()

end Grammar

end Tokenweave
