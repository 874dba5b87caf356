import Tokenweave.Match.Basic
import Tokenweave.Text.Position
/-!
# The matcher

`matchAt g root input pos limits` matches node `root` of grammar `g` against `input` at byte
offset `pos` by recursive descent with ordered choice:

* a literal matches when the input continues with its text, a character class or range when the
  next character is one it takes, and the end of input when nothing is left;
* a sequence matches its parts one after another; a choice takes the first alternative that
  matches, and the winner takes the choice's name when it has none of its own;
* a repetition matches its body as often as it can, at least once, and a body that succeeds
  without consuming input is a fault; an optional matches its body or nothing;
* a negation matches nothing when its body does not match, and fails when it does;
* an unlinked rule is a fault.

Every node visit costs one unit of fuel and is refused when none is left; a visit nested deeper
than the depth limit is refused too. The matcher records the furthest offset at which a literal,
a character or the end of input was tried and failed, except inside a negation, where failure is
what is hoped for.

The recursion is on the depth left, and a repetition makes at most one more attempt than there
are bytes left, because every attempt but the last consumes at least one byte.

This matcher gives the parse as a value. The lexer runs `matchTree` (`Match/Build`), which takes
the same steps and builds the tree of the parse in an arena as it goes.
-/

namespace Tokenweave

/-- What a match reads: the grammar, the input, and whether events are recorded. -/
structure Matching where
  grammar : Grammar
  input : String
  traced : Bool

/-- What a match changes as it goes: fuel left, the furthest failure so far, how many
negations are open, and the events so far, newest first. -/
structure Progress where
  fuel : Nat
  furthest : Nat
  lookahead : Nat
  events : List Event

/-- A step of matching: it changes the progress and may stop with a fault. -/
abbrev MatchM := EStateM Fault Progress

namespace Matching

/-- Pay one unit of fuel for a node visit. -/
def spend : MatchM Unit := do
  let s ← get
  if s.fuel = 0 then throw .fuelExhausted
  set { s with fuel := s.fuel - 1 }

/-- Record an event, when events are recorded. -/
def note (m : Matching) (e : Event) : MatchM Unit :=
  if m.traced then modify fun s => { s with events := e :: s.events } else pure ()

/-- Fail at `pos`, moving the furthest failure there unless a negation is open. -/
def failAt (pos : Nat) : MatchM (Option Parsed) := do
  modify fun s => if s.lookahead = 0 then { s with furthest := max s.furthest pos } else s
  pure none

/-- Match parts one after another from `here`, with the parts matched so far in `acc`, newest
first. Gives the end and the parses of all parts. -/
def matchParts (sub : NodeId → Nat → MatchM (Option Parsed)) :
    List NodeId → Nat → List Parsed → MatchM (Option (Nat × List Parsed))
  | [], here, acc => pure (some (here, acc.reverse))
  | c :: cs, here, acc => do
    match ← sub c here with
    | none => pure none
    | some p => matchParts sub cs p.stop (p :: acc)

/-- Try alternatives in order at `pos`; every alternative after the first is announced as a
backtrack of `choice`. -/
def matchAlternatives (m : Matching) (sub : NodeId → Nat → MatchM (Option Parsed))
    (choice : NodeId) (pos : Nat) : Bool → List NodeId → MatchM (Option Parsed)
  | _, [] => pure none
  | first, a :: as => do
    if !first then m.note (.backtrack choice pos)
    match ← sub a pos with
    | some p => pure (some p)
    | none => matchAlternatives m sub choice pos false as

/-- Match `body` again and again from `here`, with the matches so far in `acc`, newest first, and
at most `attempts` more attempts. Gives the end and the parses of all matches. -/
def matchRepeats (sub : NodeId → Nat → MatchM (Option Parsed)) (body : NodeId) :
    Nat → Nat → List Parsed → MatchM (Nat × List Parsed)
  | 0, here, acc => pure (here, acc.reverse)
  | attempts + 1, here, acc => do
    match ← sub body here with
    | none => pure (here, acc.reverse)
    | some p =>
      if p.stop = here then throw (.nonAdvancingRepeat here)
      else matchRepeats sub body attempts p.stop (p :: acc)

/-- Match one character at `pos` with a class or range shape. -/
def matchChar (m : Matching) (s : Shape) (id : NodeId) (name : Option String) (pos : Nat) :
    MatchM (Option Parsed) :=
  match Text.charAt? m.input pos with
  | some c =>
    if s.accepts c then pure (some (.mk id name pos (pos + c.utf8Size) [])) else failAt pos
  | none => failAt pos

/-- Match node `id`, of shape `s` and name `name`, at `pos`, matching children with `sub`. -/
def matchShape (m : Matching) (sub : NodeId → Nat → MatchM (Option Parsed)) (id : NodeId)
    (name : Option String) (pos : Nat) : Shape → MatchM (Option Parsed)
  | .literal text =>
    if Text.occursAt m.input pos text then
      pure (some (.mk id name pos (pos + text.utf8ByteSize) []))
    else failAt pos
  | s@(.charSet ..) => m.matchChar s id name pos
  | s@(.charRange ..) => m.matchChar s id name pos
  | .seq parts => do
    match ← matchParts sub parts pos [] with
    | some (stop, cs) => pure (some (.mk id name pos stop cs))
    | none => pure none
  | .choice alternatives => do
    match ← m.matchAlternatives sub id pos true alternatives with
    | some p => pure (some (p.inherit name))
    | none => pure none
  | .oneOrMore body => do
    let (stop, cs) ← matchRepeats sub body (m.input.utf8ByteSize - pos + 1) pos []
    if cs.isEmpty then pure none else pure (some (.mk id name pos stop cs))
  | .optional body => do
    match ← sub body pos with
    | some p => pure (some (.mk id name pos p.stop [p]))
    | none => pure (some (.mk id name pos pos []))
  | .notFollowedBy body => do
    modify fun s => { s with lookahead := s.lookahead + 1 }
    let r ← sub body pos
    modify fun s => { s with lookahead := s.lookahead - 1 }
    match r with
    | some _ => pure none
    | none => pure (some (.mk id name pos pos []))
  | .endOfInput =>
    if pos = m.input.utf8ByteSize then pure (some (.mk id name pos pos [])) else failAt pos
  | .ref rule => throw (.unresolvedReference rule)

/-- Visit node `id` at `pos` with `depth` levels of nesting left: pay fuel, check the depth,
match, and record the entry and its result. An absent node does not match. -/
def matchNode (m : Matching) : Nat → NodeId → Nat → MatchM (Option Parsed)
  | depth, id, pos => do
    spend
    match depth with
    | 0 => throw .depthExceeded
    | depth + 1 =>
      m.note (.enter id pos)
      let r ← match m.grammar.get? id with
        | some node => m.matchShape (m.matchNode depth) id node.name pos node.shape
        | none => pure none
      match r with
      | some p => m.note (.success id pos p.stop)
      | none => m.note (.failure id pos)
      pure r

end Matching

/-- A finished run of the matcher: its answer and the events it recorded, in order. The events
are recorded also when the run stops with a fault. -/
structure Run where
  result : Except Fault Outcome
  events : List Event

/-- Match node `root` of `g` against `input` at byte offset `pos`. An offset that is not a
character boundary never matches, and its furthest failure is the offset itself. -/
def matchAt (g : Grammar) (root : NodeId) (input : String) (pos : Nat) (limits : Limits := {})
    (traced : Bool := false) : Run :=
  if !Text.isBoundary input pos then { result := .ok ⟨none, pos⟩, events := [] }
  else
    let m : Matching := ⟨g, input, traced⟩
    match (m.matchNode limits.depth root pos).run ⟨limits.fuel, pos, 0, []⟩ with
    | .ok r s => { result := .ok ⟨r, s.furthest⟩, events := s.events.reverse }
    | .error e s => { result := .error e, events := s.events.reverse }

end Tokenweave
