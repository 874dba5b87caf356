import Tokenweave.Match.Basic
import Tokenweave.Text.Position
/-!
# Parse trees

A parse tree keeps its nodes in an array and addresses them by handles (indices into the
array). Every node knows its parent, so structural edits are splices of child lists that leave
every handle valid: a node taken out of the tree stays in the array, detached, and can still be
read and put back.

Each node records the grammar node that produced it, its name, the byte span of the source it
covers, and optionally a value that replaces the spanned text, and a payload: a grammar node
attached to it by a compiler that lowers the tree.

The matcher builds its tree node by node in an arena (`TreeBuilder`). A tree can also be laid
out from a whole parse (`ofParsed`), children before their parent, in the order the matcher
appends them.
-/

namespace Tokenweave

/-- Handle of a node in a parse tree. -/
abbrev Handle := Nat

/-- One node of a parse tree. -/
structure Entry where
  /-- The grammar node that produced this node. -/
  node : NodeId
  name : Option String
  start : Nat
  stop : Nat
  /-- A value set by an edit, reported instead of the spanned text. -/
  value : Option String := none
  children : List Handle := []
  parent : Option Handle := none
  /-- A grammar node attached to this node. -/
  payload : Option NodeId := none
  deriving Repr, Inhabited, DecidableEq

/-- A parse tree over `source`: nodes in an array and the handle of the root. -/
structure ParseTree where
  source : String
  entries : Array Entry
  root : Handle
  deriving Repr, Inhabited

namespace ParseTree

/-- The number of nodes, attached or not. -/
def size (t : ParseTree) : Nat := t.entries.size

/-- The node with handle `h`, if there is one. -/
def get? (t : ParseTree) (h : Handle) : Option Entry := t.entries[h]?

/-- The node with handle `h`; an empty detached node when there is none. -/
def entry (t : ParseTree) (h : Handle) : Entry := t.entries[h]?.getD default

/-- The name of a node. -/
def name (t : ParseTree) (h : Handle) : Option String := (t.entry h).name

/-- The children of a node, in order. -/
def children (t : ParseTree) (h : Handle) : List Handle := (t.entry h).children

/-- The parent of a node, unless it is detached or the root. -/
def parent (t : ParseTree) (h : Handle) : Option Handle := (t.entry h).parent

/-- The grammar node attached to a node. -/
def payload (t : ParseTree) (h : Handle) : Option NodeId := (t.entry h).payload

/-- Whether a node has no children. -/
def isLeaf (t : ParseTree) (h : Handle) : Bool := (t.children h).isEmpty

/-- The value of a node: the value set by an edit, or else the source text of its span. -/
def value (t : ParseTree) (h : Handle) : String :=
  let e := t.entry h
  e.value.getD (Text.slice t.source e.start e.stop)

/-- The topmost node above `h` by parent links. Parent links never form a cycle in a tree
built or edited by this library, so the size of the tree plus one steps always reach the top. -/
def top (t : ParseTree) (h : Handle) : Nat → Handle
  | 0 => h
  | steps + 1 =>
    match t.parent h with
    | some p => t.top p steps
    | none => h

/-- Whether a node can still be reached from the root: the top above it is the root. -/
def isAttached (t : ParseTree) (h : Handle) : Bool :=
  t.top h (t.size + 1) == t.root

/-- Whether `a` is a proper ancestor of `h` by parent links. -/
def isAncestor (t : ParseTree) (a h : Handle) : Bool :=
  go (t.parent h) (t.size + 1)
where
  go : Option Handle → Nat → Bool
    | none, _ => false
    | some _, 0 => false
    | some p, steps + 1 => p == a || go (t.parent p) steps

/-- Whether a span of `source` can be a node's span: in order, inside the text, and with both
ends on character boundaries. -/
def validSpan (source : String) (start stop : Nat) : Bool :=
  start ≤ stop && stop ≤ source.utf8ByteSize && Text.isBoundary source start &&
    Text.isBoundary source stop

mutual
/-- Append the nodes of a parse to `arr`, children first, and give the handle of its root. -/
def pushParsed : Parsed → Array Entry → Array Entry × Handle
  | .mk node name start stop cs, arr =>
    let (arr, hs) := pushAll cs arr
    let h := arr.size
    let arr := hs.foldl (fun a c => a.modify c fun e => { e with parent := some h }) arr
    (arr.push { node, name, start, stop, children := hs }, h)

/-- Append the nodes of several parses in order, and give the handles of their roots. -/
def pushAll : List Parsed → Array Entry → Array Entry × List Handle
  | [], arr => (arr, [])
  | p :: ps, arr =>
    let (arr, h) := pushParsed p arr
    let (arr, hs) := pushAll ps arr
    (arr, h :: hs)
end

/-- The parse tree of a parse of `source`. -/
def ofParsed (source : String) (p : Parsed) : ParseTree :=
  let (entries, root) := pushParsed p #[]
  { source, entries, root }

end ParseTree

end Tokenweave
