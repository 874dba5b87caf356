import Tokenweave.Tree.Basic
import Tokenweave.Text.Palette
/-!
# Printing parse trees

A printed tree has one line per node of a subtree, in pre-order: two spaces per level below the
starting node, the node's name (or `_`), its byte span when spans are asked for, and, for a node
without children when values are asked for, its value quoted. Every line ends with a newline.

The printer walks the subtree with a stack of nodes and their depths, putting children on the
stack so that the leftmost is taken next. A subtree holds at most all nodes of the tree, so the
size of the tree plus one steps always finish the walk.
-/

namespace Tokenweave.ParseTree

/-- The printed line of node `h` at `depth` levels below the starting node. -/
def printLine (t : ParseTree) (pal : Palette) (spans values : Bool) (h : Handle)
    (depth : Nat) : String :=
  let e := t.entry h
  let head := String.join (List.replicate depth "  ") ++ pal.name ++ e.name.getD "_" ++ pal.reset
  let span :=
    if spans then " " ++ pal.dim ++ "[" ++ toString e.start ++ ".." ++ toString e.stop ++ "]" ++
      pal.reset
    else ""
  let val :=
    if values && t.isLeaf h then " " ++ pal.text ++ Text.quote (t.value h) ++ pal.reset else ""
  head ++ span ++ val ++ "\n"

/-- The stack walk of the printer: each stack entry is a node and its depth. -/
def printWalk (t : ParseTree) (pal : Palette) (spans values : Bool) :
    Nat → List (Handle × Nat) → String → String
  | 0, _, out => out
  | _ + 1, [], out => out
  | steps + 1, (h, depth) :: rest, out =>
    printWalk t pal spans values steps ((t.children h).map (·, depth + 1) ++ rest)
      (out ++ t.printLine pal spans values h depth)

/-- The subtree under `start`, printed. -/
def printFrom (t : ParseTree) (start : Handle) (spans : Bool) (values : Bool := true)
    (pal : Palette := .plain) : String :=
  t.printWalk pal spans values (t.size + 1) [(start, 0)] ""

/-- The whole tree, printed. -/
def print (t : ParseTree) (spans : Bool) (pal : Palette := .plain) : String :=
  t.printFrom t.root spans true pal

end Tokenweave.ParseTree
