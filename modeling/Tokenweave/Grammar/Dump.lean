import Tokenweave.Grammar.Basic
import Tokenweave.Text.Escape
/-!
# Grammar text of a graph

`Grammar.dump g root` writes the graph reachable from `root` back as grammar text, one line
`name ::= body` per rule. The root comes first; after it, every named node met while writing a
body becomes a rule of its own, in the order the nodes were met (breadth first), and each is
written once. Names that begin with an apostrophe label literals and are written inline.

Bodies use the dialect's operators with the fewest parentheses: a choice binds loosest, then a
sequence, then the operators `+`, `*`, `?` and `!`, and atoms bind tightest. An optional
repetition of an unnamed body is written with `*`.

Writing a body follows unnamed nodes inline, so it stops only on graphs in which every cycle
passes through a node with a rule name. `depth` bounds the nesting: a chain of inline nodes
longer than the graph repeats a node, which only a cycle of unnamed nodes can make.
-/

namespace Tokenweave.Grammar

/-- How tightly a written expression binds; a smaller rank needs parentheses in a tighter place. -/
abbrev Rank := Nat

/-- Ranks of written expressions: a choice, a sequence, a prefix or suffix operator, an atom. -/
def rankChoice : Rank := 0
def rankSeq : Rank := 1
def rankUnary : Rank := 2
def rankAtom : Rank := 3

/-- The spelling of one character inside a character class. -/
def classChar : Char → String
  | ']' => "\\]"
  | '\\' => "\\\\"
  | '-' => "\\-"
  | '^' => "\\^"
  | '\n' => "\\n"
  | '\t' => "\\t"
  | '\r' => "\\r"
  | c => c.toString

/-- The mark of a negated class. -/
def caret (negate : Bool) : String := if negate then "^" else ""

/-- A written expression, its rank, and the named nodes met while writing it, in order. -/
abbrev Written := (String × Rank) × List NodeId

/-- Write a child where at least rank `least` is needed, adding parentheses otherwise. -/
def writeAt (sub : NodeId → Bool → Written) (id : NodeId) (least : Rank) : String × List NodeId :=
  let ((text, rank), met) := sub id false
  ((if rank < least then "(" ++ text ++ ")" else text), met)

/-- Write children in order, joined by `sep`. -/
def writeAll (sub : NodeId → Bool → Written) (ids : List NodeId) (least : Rank) (sep : String) :
    String × List NodeId :=
  let parts := ids.map fun id => writeAt sub id least
  (sep.intercalate (parts.map Prod.fst), (parts.map Prod.snd).flatten)

/-- Write one shape, writing children with `sub`. -/
def writeShape (g : Grammar) (sub : NodeId → Bool → Written) : Shape → Written
  | .literal text => ((Text.quote text, rankAtom), [])
  | .charSet members negate =>
    (("[" ++ caret negate ++ String.join (members.map classChar) ++ "]", rankAtom), [])
  | .charRange lo hi negate =>
    (("[" ++ caret negate ++ classChar lo ++ "-" ++ classChar hi ++ "]", rankAtom), [])
  | .seq parts =>
    let (text, met) := writeAll sub parts rankUnary " "
    ((text, rankSeq), met)
  | .choice alternatives =>
    let (text, met) := writeAll sub alternatives rankSeq " | "
    ((text, rankChoice), met)
  | .optional body =>
    match g.get? body with
    | some { shape := .oneOrMore inner, name := none } =>
      let (text, met) := writeAt sub inner rankAtom
      ((text ++ "*", rankUnary), met)
    | _ =>
      let (text, met) := writeAt sub body rankAtom
      ((text ++ "?", rankUnary), met)
  | .oneOrMore body =>
    let (text, met) := writeAt sub body rankAtom
    ((text ++ "+", rankUnary), met)
  | .notFollowedBy body =>
    let (text, met) := writeAt sub body rankAtom
    (("!" ++ text, rankUnary), met)
  | .endOfInput => (("EOF", rankAtom), [])
  | .ref rule => ((rule, rankAtom), [])

/-- Write node `id`. Below the top, a node with a rule name is written as that name and noted
as met. -/
def write (g : Grammar) : Nat → NodeId → Bool → Written
  | 0, _, _ => (("", rankAtom), [])
  | depth + 1, id, top =>
    match g.get? id with
    | none => (("", rankAtom), [])
    | some node =>
      match node.name with
      | some name =>
        if !top && !name.startsWith "'" then ((name, rankAtom), [id])
        else g.writeShape (g.write depth) node.shape
      | none => g.writeShape (g.write depth) node.shape

/-- The rule lines for the nodes waiting in `queue`, each node written once. Every line
writes a different node, so the number of nodes plus one lines bound the loop. -/
def dumpLines (g : Grammar) : Nat → List NodeId → List NodeId → String → String
  | 0, _, _, out => out
  | lines + 1, queue, written, out =>
    match queue.dropWhile written.contains with
    | [] => out
    | id :: rest =>
      let name := (g.nameOf id).getD "<anonymous>"
      let ((body, _), met) := g.write (g.size + 1) id true
      g.dumpLines lines (rest ++ met) (id :: written) (out ++ name ++ " ::= " ++ body ++ "\n")

/-- The graph reachable from `root` as grammar text, one rule per line. -/
def dump (g : Grammar) (root : NodeId) : String :=
  g.dumpLines (g.size + 1) [root] [] ""

end Tokenweave.Grammar
