import Tokenweave.Tree.Basic
/-!
# Building a tree node by node

While matching, the tree is built in an arena, one node at a time: a node is appended once it
has matched, after the nodes of its children, and becomes their parent. An attempt that fails is
taken back by cutting the arena to the length it had before the attempt began (a checkpoint), so
only attempts that succeed leave nodes behind. A choice hands on the node of the alternative
that won, naming it after itself when it has no name of its own.

Pushing a whole parse (`ParseTree.pushParsed`) appends its nodes in the same order, children
first, each by `interior` (`ParseTree.pushParsed_mk`).
-/

namespace Tokenweave

/-- The arena of a tree being built. -/
structure TreeBuilder where
  nodes : Array Entry := #[]
  deriving Repr, Inhabited

namespace TreeBuilder

/-- How many nodes the arena holds: the length a later `truncate` can return to. -/
def checkpoint (b : TreeBuilder) : Nat := b.nodes.size

/-- Drop every node appended since `checkpoint`. -/
def truncate (b : TreeBuilder) (checkpoint : Nat) : TreeBuilder := ⟨b.nodes.take checkpoint⟩

/-- Append a node over `start`..`stop` with the given children, which take it as their parent,
and give its handle. A leaf is a node appended without children. -/
def interior (b : TreeBuilder) (node : NodeId) (name : Option String) (start stop : Nat)
    (children : List Handle) : TreeBuilder × Handle :=
  let h := b.nodes.size
  let nodes := children.foldl (fun a c => a.modify c fun e => { e with parent := some h }) b.nodes
  (⟨nodes.push { node, name, start, stop, children }⟩, h)

/-- Give node `h` the name `name` if it has none. -/
def inheritName (b : TreeBuilder) (h : Handle) (name : Option String) : TreeBuilder :=
  ⟨b.nodes.modify h fun e => { e with name := e.name.or name }⟩

/-- The tree over `source` with root `root`. -/
def finish (b : TreeBuilder) (source : String) (root : Handle) : ParseTree :=
  { source, entries := b.nodes, root }

/-- Push the nodes of a parse, children first, and give the handle of its root. -/
def push (b : TreeBuilder) (q : Parsed) : TreeBuilder × Handle :=
  (⟨(ParseTree.pushParsed q b.nodes).1⟩, (ParseTree.pushParsed q b.nodes).2)

/-- Push the nodes of several parses in order, and give the handles of their roots. -/
def pushAll (b : TreeBuilder) (cs : List Parsed) : TreeBuilder × List Handle :=
  (⟨(ParseTree.pushAll cs b.nodes).1⟩, (ParseTree.pushAll cs b.nodes).2)

@[simp] theorem pushAll_nil (b : TreeBuilder) : b.pushAll [] = (b, []) := rfl

/-- Pushing parses one after another pushes the first and then the rest after it. -/
theorem pushAll_cons (b : TreeBuilder) (q : Parsed) (cs : List Parsed) :
    b.pushAll (q :: cs) =
      (((b.push q).1.pushAll cs).1, (b.push q).2 :: ((b.push q).1.pushAll cs).2) := rfl

/-- Pushing a parse pushes its parts and appends its root over them. -/
theorem push_mk (b : TreeBuilder) (n : NodeId) (name : Option String) (start stop : Nat)
    (cs : List Parsed) :
    b.push (.mk n name start stop cs) =
      (b.pushAll cs).1.interior n name start stop (b.pushAll cs).2 := rfl

end TreeBuilder

end Tokenweave
