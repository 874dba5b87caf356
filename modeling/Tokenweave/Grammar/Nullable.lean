import Tokenweave.Grammar.Reachable
/-!
# Nullable nodes

A node is nullable when it can succeed without consuming input. The analysis is the least
solution of one equation per node over a list of nodes (in practice the nodes reachable from a
root): an empty literal, an optional, a negation and the end of input are nullable; a character
class, a range, a non-empty literal and an unlinked rule are not; a sequence is nullable when all
its parts are, a choice when one alternative is, a repetition when its body is.

The solution is reached by rounds that walk the list in order and mark every node whose equation
already holds, using the marks made earlier in the same round. A round that marks nothing ends
the iteration. Every other round marks at least one more node of the list, so the length of the
list plus one rounds always suffice.
-/

namespace Tokenweave

/-- The nullable equation of one shape, reading the nullability of children from `nul`. -/
def Shape.nullableBy (nul : NodeId → Bool) : Shape → Bool
  | .literal text => text.isEmpty
  | .charSet .. => false
  | .charRange .. => false
  | .ref _ => false
  | .seq parts => parts.all nul
  | .choice alternatives => alternatives.any nul
  | .oneOrMore body => nul body
  | .optional _ => true
  | .notFollowedBy _ => true
  | .endOfInput => true

namespace Grammar

/-- Whether node `id` is marked nullable; an absent node is not. -/
def marked (nul : Array Bool) (id : NodeId) : Bool := nul[id]?.getD false

/-- One round over `order`: marks each node whose equation holds, and reports whether any node
was newly marked. -/
def nullableRound (g : Grammar) (order : List NodeId) (nul : Array Bool) : Array Bool × Bool :=
  order.foldl (fun (acc : Array Bool × Bool) id =>
    if marked acc.1 id then acc
    else match g.shape? id with
      | some s => if s.nullableBy (marked acc.1) then (acc.1.set! id true, true) else acc
      | none => acc) (nul, false)

/-- At most `rounds` rounds, stopping at the first round that marks nothing. -/
def nullableRounds (g : Grammar) (order : List NodeId) : Nat → Array Bool → Array Bool
  | 0, nul => nul
  | rounds + 1, nul =>
    match g.nullableRound order nul with
    | (nul', true) => g.nullableRounds order rounds nul'
    | (nul', false) => nul'

/-- Nullability of every node, indexed by node, solved over `order`; nodes outside `order`
are not nullable. -/
def nullable (g : Grammar) (order : List NodeId) : Array Bool :=
  g.nullableRounds order (order.length + 1) (Array.replicate g.size false)

end Grammar

end Tokenweave
