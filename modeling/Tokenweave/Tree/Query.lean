import Tokenweave.Tree.Basic
/-!
# Looking things up in a parse tree

Queries walk a subtree with a stack and never change the tree:

* `descendants h .rootFirst` lists the nodes under `h` (not `h` itself) in pre-order, and
  `descendants h .leafFirst` in post-order; the latter is computed as the reverse of the
  right-to-left pre-order;
* `leaves h` lists the nodes without children under `h`, left to right, and `h` itself when it has
  no children; `joinLeaves` joins their values;
* `firstByName`, `allByName` and `allByNames` find named descendants, and `childByName` a named
  child; `splitChildren` groups the children between delimiters.

A subtree of a tree holds at most all of its nodes, so every walk finishes within the size of
the tree plus one steps.
-/

namespace Tokenweave

/-- The order in which descendants are listed. -/
inductive Order where
  /-- Post-order: the nodes under a node before the node. -/
  | leafFirst
  /-- Pre-order: a node before the nodes under it. -/
  | rootFirst
  deriving Repr, DecidableEq, Inhabited

namespace ParseTree

/-- Pre-order walk: the stack has the next node first, and a node's children go on it leftmost
first. -/
def preWalk (t : ParseTree) : Nat → List Handle → List Handle → List Handle
  | 0, _, out => out.reverse
  | _ + 1, [], out => out.reverse
  | steps + 1, h :: rest, out => t.preWalk steps (t.children h ++ rest) (h :: out)

/-- Right-to-left pre-order walk: a node's children go on the stack rightmost first. -/
def rightWalk (t : ParseTree) : Nat → List Handle → List Handle → List Handle
  | 0, _, out => out.reverse
  | _ + 1, [], out => out.reverse
  | steps + 1, h :: rest, out => t.rightWalk steps ((t.children h).reverse ++ rest) (h :: out)

/-- The nodes under `h`, not `h` itself, in the given order. -/
def descendants (t : ParseTree) (h : Handle) (order : Order := .leafFirst) : List Handle :=
  match order with
  | .rootFirst => t.preWalk (t.size + 1) (t.children h) []
  | .leafFirst => (t.rightWalk (t.size + 1) (t.children h).reverse []).reverse

/-- The walk behind `leaves`: a node with children is replaced on the stack by them. -/
def leavesWalk (t : ParseTree) : Nat → List Handle → List Handle → List Handle
  | 0, _, out => out.reverse
  | _ + 1, [], out => out.reverse
  | steps + 1, h :: rest, out =>
    match t.children h with
    | [] => t.leavesWalk steps rest (h :: out)
    | cs => t.leavesWalk steps (cs ++ rest) out

/-- The nodes without children under `h`, left to right; `h` itself when it has none. -/
def leaves (t : ParseTree) (h : Handle) : List Handle :=
  t.leavesWalk (t.size + 1) [h] []

/-- The values of the leaves under `h`, joined by `sep`. -/
def joinLeaves (t : ParseTree) (h : Handle) (sep : String) : String :=
  sep.intercalate ((t.leaves h).map t.value)

/-- Whether node `h` is named `name`. -/
def isNamed (t : ParseTree) (name : String) (h : Handle) : Bool :=
  t.name h == some name

/-- The nodes under `h` named `name`, in the given order. -/
def allByName (t : ParseTree) (h : Handle) (order : Order) (name : String) : List Handle :=
  (t.descendants h order).filter (t.isNamed name)

/-- For each distinct name of `names`, in order of first mention, the nodes under `h` with that
name, in the given order. -/
def allByNames (t : ParseTree) (h : Handle) (order : Order) (names : List String) :
    List (String × List Handle) :=
  let found := t.descendants h order
  names.eraseDups.map fun n => (n, found.filter (t.isNamed n))

/-- The pre-order walk that stops at the first node named `name`. -/
def firstWalk (t : ParseTree) (name : String) : Nat → List Handle → Option Handle
  | 0, _ => none
  | _ + 1, [] => none
  | steps + 1, h :: rest =>
    if t.isNamed name h then some h else t.firstWalk name steps (t.children h ++ rest)

/-- The first node under `h` named `name`, in pre-order. -/
def firstByName (t : ParseTree) (h : Handle) (name : String) : Option Handle :=
  t.firstWalk name (t.size + 1) (t.children h)

/-- The first child of `h` named `name`. -/
def childByName (t : ParseTree) (h : Handle) (name : String) : Option Handle :=
  (t.children h).find? (t.isNamed name)

/-- The children of `h` in groups: a child named `delim` ends a group and is left out. There is
always at least one group. -/
def splitChildren (t : ParseTree) (h : Handle) (delim : String) : List (List Handle) :=
  let (done, current) := (t.children h).foldl (fun (acc : List (List Handle) × List Handle) c =>
    if t.isNamed delim c then (acc.2.reverse :: acc.1, []) else (acc.1, c :: acc.2)) ([], [])
  (current.reverse :: done).reverse

end ParseTree

end Tokenweave
