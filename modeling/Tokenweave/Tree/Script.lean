import Tokenweave.Tree.Edit
import Tokenweave.Tree.Query
import Tokenweave.Tree.Printer
import Tokenweave.Tree.Json
/-!
# Edit scripts over a parse tree

A script is a list of steps, each acting on one node of a tree: an edit, which changes the tree,
or a query, which reads it. A session holds the tree and the marks made so far; a mark is a
name for a handle and keeps naming the same node after the node is detached.

A step finds its node by an address: the root of the tree as it is now, a path of child
positions from that root, or a mark. A path that leaves the tree, or a mark never made, is an
address error, and the step changes nothing.

Nodes are reported as descriptors: name, value, span and the path from the current root, which
is absent for a node that the root no longer reaches.

A node can take the place of another only if it is not above it: putting an ancestor under
its own descendant would tie the tree into a loop, so such a step is refused and the tree is
left as it was.
-/

namespace Tokenweave

/-- Where a step of a script acts. -/
inductive Address where
  /-- The root of the tree as it is now. -/
  | root
  /-- Child positions, one per level, starting at the current root. -/
  | path (steps : List Nat)
  /-- The node named by an earlier mark. -/
  | mark (label : String)
  deriving Repr, DecidableEq

/-- Why an address names no node. -/
inductive AddressError where
  /-- The node reached so far has no child at this position. -/
  | noChild (index : Nat)
  /-- No mark of this name was made. -/
  | unknownMark (label : String)
  deriving Repr, DecidableEq

/-- The text of an address error. -/
def AddressError.message : AddressError → String
  | .noChild index => "no child " ++ toString index
  | .unknownMark label => "unknown mark `" ++ label ++ "`"

/-- Why a step was refused. In every case the session is left as it was. -/
inductive StepError where
  /-- An address in the step names no node. -/
  | address (e : AddressError)
  /-- The replacement is a proper ancestor of the node it would replace. -/
  | ancestorReplacement
  deriving Repr, DecidableEq

/-- The text of a refused step. -/
def StepError.message : StepError → String
  | .address e => e.message
  | .ancestorReplacement => "replacement is an ancestor"

/-- A span of a tree given by hand that no node can have: reversed, past the end of the
source, or with an end off a character boundary. -/
structure BadSpan where
  start : Nat
  stop : Nat
  deriving Repr, DecidableEq

/-- The text of a bad span. -/
def BadSpan.message (b : BadSpan) : String :=
  "bad span " ++ toString b.start ++ ".." ++ toString b.stop

/-- One step of a script. The node it acts on is given beside it, as an address. -/
inductive Step where
  /-- Name the node `label`. -/
  | mark (label : String)
  | remove
  | liftChildren
  /-- Put the node at `other` in the place of the node. -/
  | replaceWith (other : Address)
  | setPayload (id : NodeId)
  | setValue (value : String)
  | cull (filters : List Filter)
  | splitChildren (delimiter : String)
  | joinLeaves (separator : String)
  | leaves
  | descendants (order : Order)
  | allByNames (names : List String) (order : Order)
  | allByName (name : String) (order : Order)
  | firstByName (name : String)
  | childByName (name : String)
  /-- Report the node, its parent and its place in the tree. -/
  | info
  | print (spans values : Bool)
  | json (pretty : Bool)
  deriving Repr

/-- A node as a step reports it. -/
structure Descriptor where
  name : Option String
  value : String
  start : Nat
  stop : Nat
  /-- Child positions from the current root; none when the root does not reach the node. -/
  path : Option (List Nat)
  deriving Repr, DecidableEq

/-- What `info` reports about a node. -/
structure NodeInfo where
  node : Descriptor
  parent : Option Descriptor
  children : Nat
  isLeaf : Bool
  isAttached : Bool
  payload : Option NodeId
  isRoot : Bool
  deriving Repr, DecidableEq

/-- The answer of a step. -/
inductive Answer where
  /-- An edit: nothing to report. -/
  | done
  | node (d : Descriptor)
  | found (d : Option Descriptor)
  | nodes (ds : List Descriptor)
  | groups (gs : List (List Descriptor))
  /-- The nodes found for each name, in order of first mention. -/
  | byName (gs : List (String × List Descriptor))
  | text (s : String)
  | info (i : NodeInfo)
  deriving Repr

mutual
/-- The first node of a parse, parents before children, whose span cannot be a span of
`source`. -/
def Parsed.badSpan? (source : String) : Parsed → Option BadSpan
  | .mk _ _ start stop cs =>
    if ParseTree.validSpan source start stop then Parsed.badSpanIn? source cs
    else some ⟨start, stop⟩

/-- The first bad span among several parses, in order. -/
def Parsed.badSpanIn? (source : String) : List Parsed → Option BadSpan
  | [] => none
  | p :: ps =>
    match Parsed.badSpan? source p with
    | some b => some b
    | none => Parsed.badSpanIn? source ps
end

namespace ParseTree

/-- The tree of a parse given by hand, unless one of its spans is bad. -/
def ofSpans (source : String) (p : Parsed) : Except BadSpan ParseTree :=
  match p.badSpan? source with
  | some b => .error b
  | none => .ok (ParseTree.ofParsed source p)

/-- The child positions that lead from the root down to `h`, collected from `h` upwards. A root
that was itself moved under another node leads nowhere. -/
def pathUp (t : ParseTree) : Nat → Handle → List Nat → Option (List Nat)
  | steps, h, acc =>
    if h == t.root then if (t.parent h).isNone then some acc else none
    else
      match steps, t.parent h with
      | 0, _ => none
      | _, none => none
      | steps + 1, some p =>
        match (t.children p).idxOf? h with
        | some i => t.pathUp steps p (i :: acc)
        | none => none

/-- The child positions that lead from the root down to `h`, when the root reaches it. -/
def pathOf (t : ParseTree) (h : Handle) : Option (List Nat) :=
  t.pathUp (t.size + 1) h []

/-- The node reached from `h` by following child positions. -/
def follow (t : ParseTree) (h : Handle) : List Nat → Except AddressError Handle
  | [] => .ok h
  | i :: rest =>
    match (t.children h)[i]? with
    | some c => t.follow c rest
    | none => .error (.noChild i)

/-- How a step reports node `h`. -/
def describe (t : ParseTree) (h : Handle) : Descriptor :=
  let e := t.entry h
  { name := e.name, value := t.value h, start := e.start, stop := e.stop, path := t.pathOf h }

/-- What `info` reports about node `h`. -/
def infoOf (t : ParseTree) (h : Handle) : NodeInfo :=
  { node := t.describe h
    parent := (t.parent h).map t.describe
    children := (t.children h).length
    isLeaf := t.isLeaf h
    isAttached := t.isAttached h
    payload := t.payload h
    isRoot := h == t.root }

end ParseTree

/-- A tree being edited by a script, and the marks made so far, the latest first. -/
structure Session where
  tree : ParseTree
  marks : List (String × Handle) := []
  deriving Repr

namespace Session

/-- The node an address names. -/
def resolve (s : Session) : Address → Except AddressError Handle
  | .root => .ok s.tree.root
  | .path steps => s.tree.follow s.tree.root steps
  | .mark label =>
    match s.marks.lookup label with
    | some h => .ok h
    | none => .error (.unknownMark label)

/-- The same session with a new tree. -/
def edit (s : Session) (t : ParseTree) : Answer × Session :=
  (.done, { s with tree := t })

/-- Run one step on node `h`. -/
def apply (s : Session) (h : Handle) : Step → Except StepError (Answer × Session)
  | .mark label => .ok (.node (s.tree.describe h), { s with marks := (label, h) :: s.marks })
  | .remove => .ok (s.edit (s.tree.remove h))
  | .liftChildren => .ok (s.edit (s.tree.liftChildren h))
  | .replaceWith other =>
    match s.resolve other with
    | .error e => .error (.address e)
    | .ok o =>
      if s.tree.isAncestor o h then .error .ancestorReplacement
      else .ok (s.edit (s.tree.replaceWith h (.node o)))
  | .setPayload id => .ok (s.edit (s.tree.replaceWith h (.payload id)))
  | .setValue value => .ok (s.edit (s.tree.setValue h value))
  | .cull filters => .ok (s.edit (s.tree.cull h filters))
  | .splitChildren delimiter =>
    .ok (.groups ((s.tree.splitChildren h delimiter).map (·.map s.tree.describe)), s)
  | .joinLeaves separator => .ok (.text (s.tree.joinLeaves h separator), s)
  | .leaves => .ok (.nodes ((s.tree.leaves h).map s.tree.describe), s)
  | .descendants order => .ok (.nodes ((s.tree.descendants h order).map s.tree.describe), s)
  | .allByNames names order =>
    .ok (.byName ((s.tree.allByNames h order names).map fun (n, hs) =>
      (n, hs.map s.tree.describe)), s)
  | .allByName name order =>
    .ok (.nodes ((s.tree.allByName h order name).map s.tree.describe), s)
  | .firstByName name => .ok (.found ((s.tree.firstByName h name).map s.tree.describe), s)
  | .childByName name => .ok (.found ((s.tree.childByName h name).map s.tree.describe), s)
  | .info => .ok (.info (s.tree.infoOf h), s)
  | .print spans values => .ok (.text (s.tree.printFrom h spans values), s)
  | .json pretty => .ok (.text (s.tree.jsonText h pretty), s)

/-- Run one step at an address. -/
def run (s : Session) (a : Address) (step : Step) : Except StepError (Answer × Session) :=
  match s.resolve a with
  | .error e => .error (.address e)
  | .ok h => s.apply h step

end Session

end Tokenweave
