import Tokenweave.Grammar.Validate
import Tokenweave.Match.Build
/-!
# Lexers

A lexer is a grammar together with a root node, checked once (`Grammar.validate`) so that
matching from the root always stops, and limits for each match. Tokenizing matches the root
against the whole input from its start and gives the parse tree, or says why the input was
rejected:

* `noMatch`: the root did not match; the position is the furthest failure;
* `incomplete`: the root matched only a prefix; the position is the furthest failure or the end
  of the prefix, whichever is further;
* `fault`: the matcher could not finish.

Each rejection carries a description of the input at its position, at most twenty characters.
-/

namespace Tokenweave

/-- A checked grammar with its root, and the limits of each match. -/
structure Lexer where
  grammar : Grammar
  root : NodeId
  limits : Limits := {}

/-- Why input was rejected by a lexer. -/
inductive Rejection where
  /-- The root did not match; `position` is the furthest failure. -/
  | noMatch (position : Nat) (found : String)
  /-- The root matched the first `consumed` bytes only. -/
  | incomplete (consumed position : Nat) (found : String)
  /-- The matcher could not finish. -/
  | fault (f : Fault)
  deriving Repr, DecidableEq

namespace Rejection

/-- The report for a rejection. -/
def message : Rejection → String
  | .noMatch position found =>
    "no match: unexpected " ++ found ++ " at position " ++ toString position
  | .incomplete consumed position found =>
    "input not fully consumed: matched " ++ toString consumed ++ " bytes, unexpected " ++ found ++
      " at position " ++ toString position
  | .fault f => f.message

/-- The offset a rejection points at, when it has one. -/
def position? : Rejection → Option Nat
  | .noMatch position _ => some position
  | .incomplete _ position _ => some position
  | .fault f => f.position?

end Rejection

namespace Lexer

/-- Characters of input shown when describing where input was rejected. -/
def contextChars : Nat := 20

/-- A lexer for `g` from `root`, once the graph reachable from `root` passes the checks. -/
def new (g : Grammar) (root : NodeId) : Except Defect Lexer := do
  g.validate root
  pure { grammar := g, root }

/-- The same lexer with other limits. -/
def withLimits (lx : Lexer) (limits : Limits) : Lexer := { lx with limits }

/-- Judge the answer of a match of the whole input. -/
def judge (input : String) : Except Fault TreeOutcome → Except Rejection ParseTree
  | .error f => .error (.fault f)
  | .ok ⟨none, furthest⟩ =>
    .error (.noMatch furthest (Text.describeAt input furthest contextChars))
  | .ok ⟨some m, furthest⟩ =>
    if m.stop < input.utf8ByteSize then
      let position := max furthest m.stop
      .error (.incomplete m.stop position (Text.describeAt input position contextChars))
    else .ok m.tree

/-- Tokenize `input`, also giving the events of the match when `traced`. -/
def run (lx : Lexer) (input : String) (traced : Bool := false) :
    Except Rejection ParseTree × List Event :=
  let r := matchTree lx.grammar lx.root input 0 lx.limits traced
  (judge input r.result, r.events)

/-- Tokenize `input`. -/
def tokenize (lx : Lexer) (input : String) : Except Rejection ParseTree :=
  (lx.run input).1

end Lexer

end Tokenweave
