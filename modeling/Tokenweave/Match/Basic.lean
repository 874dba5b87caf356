import Tokenweave.Grammar.Basic
/-!
# What a match produces

Matching a grammar node against text at a byte offset gives one of three answers: a parse (the
node matched, up to some end offset), no parse (the node does not match there), or a fault (the
matcher could not finish: it ran out of fuel or depth, reached an unlinked rule, or met a
repetition that succeeds without consuming input).

A parse records, for each node that took part in the successful match, the grammar node that
produced it, its name, the span of text it covers, and the parses of its parts in order.

Matching also reports events, in the order they happen: a node is entered, succeeds or fails,
and a choice moves on to its next alternative. Traces are written from these events.
-/

namespace Tokenweave

/-- Limits on one match: `fuel` node visits in all, and nesting at most `depth` deep. -/
structure Limits where
  fuel : Nat := 100000000
  depth : Nat := 256
  deriving Repr, DecidableEq, Inhabited

/-- Why a match could not finish. -/
inductive Fault where
  /-- Every node visit costs one unit of fuel, and none was left. -/
  | fuelExhausted
  /-- Matching nested deeper than the depth limit. -/
  | depthExceeded
  /-- Matching reached a rule that was never linked to its body. -/
  | unresolvedReference (name : String)
  /-- A repetition's body succeeded at `position` without consuming input. -/
  | nonAdvancingRepeat (position : Nat)
  deriving Repr, DecidableEq

/-- The report for a fault. -/
def Fault.message : Fault → String
  | .fuelExhausted => "runtime execution limit exceeded"
  | .depthExceeded => "runtime recursion limit exceeded"
  | .unresolvedReference name => "unresolved reference to `" ++ name ++ "` reached during matching"
  | .nonAdvancingRepeat position =>
    "repetition at position " ++ toString position ++ " matched without consuming input"

/-- The offset a fault points at, when it has one. -/
def Fault.position? : Fault → Option Nat
  | .nonAdvancingRepeat position => some position
  | _ => none

/-- The parse of a successful match: the grammar node that produced it, its name, the byte span
`start`..`stop` it covers, and the parses of its parts in order. -/
inductive Parsed where
  | mk (node : NodeId) (name : Option String) (start stop : Nat) (children : List Parsed)
  deriving Repr, Inhabited

namespace Parsed

/-- The grammar node that produced the parse. -/
def node : Parsed → NodeId
  | .mk n _ _ _ _ => n

/-- The name of the parse. -/
def name : Parsed → Option String
  | .mk _ n _ _ _ => n

/-- Where the parse begins. -/
def start : Parsed → Nat
  | .mk _ _ s _ _ => s

/-- Where the parse ends. -/
def stop : Parsed → Nat
  | .mk _ _ _ e _ => e

/-- The parses of the parts. -/
def children : Parsed → List Parsed
  | .mk _ _ _ _ cs => cs

/-- The same parse, named `name` if it had no name. -/
def inherit (p : Parsed) (name : Option String) : Parsed :=
  match p with
  | .mk n none s e cs => .mk n name s e cs
  | p => p

end Parsed

/-- Something that happened during a match. -/
inductive Event where
  /-- Node `node` is tried at `position`. -/
  | enter (node : NodeId) (position : Nat)
  /-- Node `node` matched `start`..`stop`. -/
  | success (node : NodeId) (start stop : Nat)
  /-- Node `node` failed at `position`. -/
  | failure (node : NodeId) (position : Nat)
  /-- Choice `choice` moves on to its next alternative at `position`. -/
  | backtrack (choice : NodeId) (position : Nat)
  deriving Repr, DecidableEq

/-- The answer of a match that finished: the parse, if the node matched, and the furthest
offset at which a terminal was tried and failed outside negative lookahead (never less than
the starting offset). -/
structure Outcome where
  parsed : Option Parsed
  furthest : Nat
  deriving Repr

end Tokenweave
