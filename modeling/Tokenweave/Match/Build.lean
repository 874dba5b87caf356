import Tokenweave.Match.Run
import Tokenweave.Tree.Builder
/-!
# Matching builds the tree

The matcher builds the parse tree as it goes, in an arena (`TreeBuilder`) kept beside its
progress. Each visit notes the arena's length before it matches and cuts the arena back to it
when the node does not match, so a failed attempt leaves nothing behind; a negation cuts it back
in any case, since nothing its body matched is kept. A literal, a character, the end of input and
a negation that holds append a leaf; a sequence, a repetition and an optional append a node over
the nodes of their parts; a choice appends nothing of its own and names the node of the
alternative that won after itself when that node has no name.

`matchTree` runs a match from a character boundary and gives the tree of a successful match,
rooted at the node the visit of the root gave, with the offset where the match ends. Fuel, depth,
faults, the furthest failure and the events are those of `matchAt`, step for step.
-/

namespace Tokenweave

/-- A step of matching that builds tree nodes in an arena as it goes. -/
abbrev BuildM := StateT TreeBuilder MatchM

namespace Matching

/-- Fail at `pos` with nothing built, moving the furthest failure as `failAt` does. -/
def missAt (pos : Nat) : BuildM (Option (Handle × Nat)) := do
  let _ ← (failAt pos : MatchM (Option Parsed))
  pure none

/-- Append the node of a match of `id` over `start`..`stop` with the given children, and give
its handle and the end of the match. -/
def appendNode (id : NodeId) (name : Option String) (start stop : Nat) (children : List Handle) :
    BuildM (Option (Handle × Nat)) := do
  let built := (← get).interior id name start stop children
  set built.1
  pure (some (built.2, stop))

/-- Match one character at `pos` with a class or range shape. -/
def buildChar (m : Matching) (s : Shape) (id : NodeId) (name : Option String) (pos : Nat) :
    BuildM (Option (Handle × Nat)) :=
  match Text.charAt? m.input pos with
  | some c => if s.accepts c then appendNode id name pos (pos + c.utf8Size) [] else missAt pos
  | none => missAt pos

/-- Match parts one after another from `here`, with the handles of the parts matched so far in
`acc`, newest first. Gives the end and the handles of all parts. -/
def buildParts (sub : NodeId → Nat → BuildM (Option (Handle × Nat))) :
    List NodeId → Nat → List Handle → BuildM (Option (Nat × List Handle))
  | [], here, acc => pure (some (here, acc.reverse))
  | c :: cs, here, acc => do
    match ← sub c here with
    | none => pure none
    | some hit => buildParts sub cs hit.2 (hit.1 :: acc)

/-- Try alternatives in order at `pos`; every alternative after the first is announced as a
backtrack of `choice`. -/
def buildAlternatives (m : Matching) (sub : NodeId → Nat → BuildM (Option (Handle × Nat)))
    (choice : NodeId) (pos : Nat) : Bool → List NodeId → BuildM (Option (Handle × Nat))
  | _, [] => pure none
  | first, a :: as => do
    if !first then m.note (.backtrack choice pos)
    match ← sub a pos with
    | some hit => pure (some hit)
    | none => m.buildAlternatives sub choice pos false as

/-- Match `body` again and again from `here`, with the handles of the matches so far in `acc`,
newest first, and at most `attempts` more attempts. Gives the end and the handles of all
matches. -/
def buildRepeats (sub : NodeId → Nat → BuildM (Option (Handle × Nat))) (body : NodeId) :
    Nat → Nat → List Handle → BuildM (Nat × List Handle)
  | 0, here, acc => pure (here, acc.reverse)
  | attempts + 1, here, acc => do
    match ← sub body here with
    | none => pure (here, acc.reverse)
    | some hit =>
      if hit.2 = here then throw (.nonAdvancingRepeat here)
      else buildRepeats sub body attempts hit.2 (hit.1 :: acc)

/-- Match node `id`, of shape `s` and name `name`, at `pos`, matching children with `sub`. -/
def buildShape (m : Matching) (sub : NodeId → Nat → BuildM (Option (Handle × Nat)))
    (id : NodeId) (name : Option String) (pos : Nat) : Shape → BuildM (Option (Handle × Nat))
  | .literal text =>
    if Text.occursAt m.input pos text then appendNode id name pos (pos + text.utf8ByteSize) []
    else missAt pos
  | s@(.charSet ..) => m.buildChar s id name pos
  | s@(.charRange ..) => m.buildChar s id name pos
  | .seq parts => do
    match ← buildParts sub parts pos [] with
    | some (stop, hs) => appendNode id name pos stop hs
    | none => pure none
  | .choice alternatives => do
    match ← m.buildAlternatives sub id pos true alternatives with
    | some hit =>
      modify (·.inheritName hit.1 name)
      pure (some hit)
    | none => pure none
  | .oneOrMore body => do
    let (stop, hs) ← buildRepeats sub body (m.input.utf8ByteSize - pos + 1) pos []
    if hs.isEmpty then pure none else appendNode id name pos stop hs
  | .optional body => do
    match ← sub body pos with
    | some hit => appendNode id name pos hit.2 [hit.1]
    | none => appendNode id name pos pos []
  | .notFollowedBy body => do
    let checkpoint := (← get).checkpoint
    (modify fun s => { s with lookahead := s.lookahead + 1 } : MatchM PUnit)
    let r ← sub body pos
    (modify fun s => { s with lookahead := s.lookahead - 1 } : MatchM PUnit)
    modify (·.truncate checkpoint)
    match r with
    | some _ => pure none
    | none => appendNode id name pos pos []
  | .endOfInput =>
    if pos = m.input.utf8ByteSize then appendNode id name pos pos [] else missAt pos
  | .ref rule => throw (.unresolvedReference rule)

/-- Visit node `id` at `pos` with `depth` levels of nesting left: pay fuel, check the depth,
match, and record the entry and its result. A visit that does not match cuts the arena back to
the length it had when the visit began. An absent node does not match. -/
def buildNode (m : Matching) : Nat → NodeId → Nat → BuildM (Option (Handle × Nat))
  | depth, id, pos => do
    spend
    match depth with
    | 0 => throw .depthExceeded
    | depth + 1 =>
      m.note (.enter id pos)
      let checkpoint := (← get).checkpoint
      let r ← match m.grammar.get? id with
        | some node => m.buildShape (m.buildNode depth) id node.name pos node.shape
        | none => pure none
      match r with
      | some hit => m.note (.success id pos hit.2)
      | none =>
        modify (·.truncate checkpoint)
        m.note (.failure id pos)
      pure r

end Matching

/-- A successful match: its tree, and the offset just past the match. -/
structure Matched where
  tree : ParseTree
  stop : Nat

/-- The answer of a match that finished: its tree, if the node matched, and the furthest offset
at which a terminal was tried and failed outside negative lookahead. -/
structure TreeOutcome where
  matched : Option Matched
  furthest : Nat

/-- A finished run of the matcher with its tree: its answer and the events it recorded, in
order. -/
structure TreeRun where
  result : Except Fault TreeOutcome
  events : List Event

/-- Match node `root` of `g` against `input` at byte offset `pos`, building the tree. An offset
that is not a character boundary never matches, and its furthest failure is the offset
itself. -/
def matchTree (g : Grammar) (root : NodeId) (input : String) (pos : Nat) (limits : Limits := {})
    (traced : Bool := false) : TreeRun :=
  if !Text.isBoundary input pos then { result := .ok ⟨none, pos⟩, events := [] }
  else
    let m : Matching := ⟨g, input, traced⟩
    match ((m.buildNode limits.depth root pos).run {}).run ⟨limits.fuel, pos, 0, []⟩ with
    | .ok (r, b) s =>
      { result := .ok ⟨r.map fun hit => ⟨b.finish input hit.1, hit.2⟩, s.furthest⟩,
        events := s.events.reverse }
    | .error e s => { result := .error e, events := s.events.reverse }

end Tokenweave
