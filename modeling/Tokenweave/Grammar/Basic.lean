/-!
# Grammar graphs

A grammar is a graph of parsing expressions kept in an array: node `i` of the graph is entry `i`
of the array, and an expression names its sub-expressions by their indices. Nodes can therefore
be shared, and the graph can contain cycles: a rule that refers to itself is a node whose
descendants lead back to it.

Every node may carry a name. A rule's body carries the rule's name, and the names travel into
the parse trees that matching builds. Names that begin with an apostrophe label literals and
are never treated as rules of their own.

An index that points past the end of the array names no node; the operations of this library
read such a node as absent and never fail on it.
-/

namespace Tokenweave

/-- Index of a node inside a grammar graph. -/
abbrev NodeId := Nat

/-- What one node of a grammar graph matches. -/
inductive Shape where
  /-- Exactly this text. -/
  | literal (text : String)
  /-- One character that is among `members`, or not among them when `negate` is set. -/
  | charSet (members : List Char) (negate : Bool)
  /-- One character between `lo` and `hi` inclusive, or outside them when `negate` is set. -/
  | charRange (lo hi : Char) (negate : Bool)
  /-- All parts in order. -/
  | seq (parts : List NodeId)
  /-- The first alternative that matches. -/
  | choice (alternatives : List NodeId)
  /-- The body, greedily, at least once. -/
  | oneOrMore (body : NodeId)
  /-- The body once, or nothing. -/
  | optional (body : NodeId)
  /-- Nothing, provided the body does not match here. -/
  | notFollowedBy (body : NodeId)
  /-- Nothing, provided the input has ended. -/
  | endOfInput
  /-- A rule named but not yet linked to its body. -/
  | ref (rule : String)
  deriving Repr, Inhabited, DecidableEq

namespace Shape

/-- Members of a character class in the order they were first written, each once. -/
def classMembers (chars : String) : List Char :=
  chars.toList.foldl (fun acc c => if acc.contains c then acc else acc ++ [c]) []

/-- A character class over the characters of a text. -/
def charClass (chars : String) (negate : Bool) : Shape :=
  .charSet (classMembers chars) negate

/-- Whether a one-character node takes the character `c`. Other shapes take no character. -/
def accepts : Shape → Char → Bool
  | .charSet members negate, c => members.contains c != negate
  | .charRange lo hi negate, c => (decide (lo ≤ c ∧ c ≤ hi)) != negate
  | _, _ => false

/-- Child edges, in order. -/
def children : Shape → List NodeId
  | .seq parts => parts
  | .choice alternatives => alternatives
  | .oneOrMore body => [body]
  | .optional body => [body]
  | .notFollowedBy body => [body]
  | _ => []

/-- The same shape with its child edges replaced, in order. Edges beyond the given list are
kept, and a shape without children is unchanged. -/
def withChildren : Shape → List NodeId → Shape
  | .seq _, cs => .seq cs
  | .choice _, cs => .choice cs
  | .oneOrMore b, cs => .oneOrMore (cs.headD b)
  | .optional b, cs => .optional (cs.headD b)
  | .notFollowedBy b, cs => .notFollowedBy (cs.headD b)
  | s, _ => s

/-- The same shape with child edge `i` pointing at `c`; other edges are kept. -/
def setChild (s : Shape) (i : Nat) (c : NodeId) : Shape :=
  s.withChildren (s.children.set i c)

/-- The word for the shape used in dumps, traces and reports. -/
def label : Shape → String
  | .literal _ => "Literal"
  | .charSet .. => "CharSet"
  | .charRange .. => "CharRange"
  | .seq _ => "Sequence"
  | .choice _ => "Choice"
  | .oneOrMore _ => "Repeat"
  | .optional _ => "Optional"
  | .notFollowedBy _ => "Negation"
  | .endOfInput => "EndOfInput"
  | .ref _ => "Reference"

/-- Whether the node is a rule not yet linked. -/
def isRef : Shape → Bool
  | .ref _ => true
  | _ => false

end Shape

/-- One node of a grammar graph: what it matches and an optional name. -/
structure Node where
  shape : Shape
  name : Option String := none
  deriving Repr, Inhabited, DecidableEq

/-- A grammar graph: node `i` is entry `i` of `nodes`. -/
structure Grammar where
  nodes : Array Node := #[]
  deriving Repr, Inhabited

namespace Grammar

/-- The number of nodes. -/
def size (g : Grammar) : Nat := g.nodes.size

/-- The node with index `id`, if there is one. -/
def get? (g : Grammar) (id : NodeId) : Option Node := g.nodes[id]?

/-- The shape of node `id`, if there is such a node. -/
def shape? (g : Grammar) (id : NodeId) : Option Shape := (g.get? id).map Node.shape

/-- The name of node `id`, if it has one. -/
def nameOf (g : Grammar) (id : NodeId) : Option String := (g.get? id).bind Node.name

/-- Child edges of node `id`, in order; none for an absent node. -/
def children (g : Grammar) (id : NodeId) : List NodeId :=
  match g.get? id with
  | some n => n.shape.children
  | none => []

/-- Append an unnamed node; its index is the old size. -/
def add (g : Grammar) (s : Shape) : Grammar × NodeId :=
  ({ nodes := g.nodes.push { shape := s } }, g.nodes.size)

/-- Give node `id` a name, replacing any it had. -/
def setName (g : Grammar) (id : NodeId) (name : String) : Grammar :=
  { nodes := g.nodes.modify id fun n => { n with name := some name } }

/-- Replace the child edges of node `id`. -/
def setChildren (g : Grammar) (id : NodeId) (cs : List NodeId) : Grammar :=
  { nodes := g.nodes.modify id fun n => { n with shape := n.shape.withChildren cs } }

/-- Point child edge `i` of node `id` at `c`. -/
def setChild (g : Grammar) (id : NodeId) (i : Nat) (c : NodeId) : Grammar :=
  { nodes := g.nodes.modify id fun n => { n with shape := n.shape.setChild i c } }

/-- Append a node and give it a name. -/
def addNamed (g : Grammar) (s : Shape) (name : String) : Grammar × NodeId :=
  let (g, id) := g.add s
  (g.setName id name, id)

/-- The number of child edges in the whole graph. -/
def edgeCount (g : Grammar) : Nat :=
  g.nodes.foldl (fun k n => k + n.shape.children.length) 0

/-- Whether every child edge and `root` point at nodes of the graph. -/
def InRange (g : Grammar) : Prop :=
  ∀ id < g.size, ∀ c ∈ g.children id, c < g.size

instance (g : Grammar) : Decidable g.InRange :=
  inferInstanceAs (Decidable (∀ id < g.size, ∀ c ∈ g.children id, c < g.size))

end Grammar

end Tokenweave
