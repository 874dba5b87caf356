import Tokenweave.Tree.Basic
import Tokenweave.Text.Json
/-!
# Parse trees as JSON

The JSON view of a subtree is an object per node with the members `name` (left out when the node
has none), `value`, `start`, `end`, and `children` (left out when there are none), in that order.
A subtree is at most as deep as the tree has nodes, which bounds the recursion.
-/

namespace Tokenweave.ParseTree

open Text.Json in
/-- The JSON view of the subtree under `h`, at most `depth` levels deep. -/
def jsonAt (t : ParseTree) : Nat → Handle → Value
  | 0, _ => .obj []
  | depth + 1, h =>
    let e := t.entry h
    let named := match e.name with
      | some n => [("name", Value.str n)]
      | none => []
    let kids := match e.children with
      | [] => []
      | cs => [("children", Value.arr (cs.map (t.jsonAt depth)))]
    .obj (named ++ [("value", .str (t.value h)), ("start", .nat e.start), ("end", .nat e.stop)] ++
      kids)

/-- The JSON view of the subtree under `h`. -/
def json (t : ParseTree) (h : Handle) : Text.Json.Value :=
  t.jsonAt (t.size + 1) h

/-- The subtree under `h` as JSON text, pretty or compact. -/
def jsonText (t : ParseTree) (h : Handle) (pretty : Bool) : String :=
  (t.json h).render pretty

end Tokenweave.ParseTree
