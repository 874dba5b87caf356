import Tokenweave.Match.Basic
import Tokenweave.Text.Position
import Tokenweave.Text.Palette
/-!
# Traces

A trace is the event list of a match written as indented lines, one per visited node, in the
order the nodes were entered. A node's line is written when it is entered, as
`label @position`, and its result is added to the same line when it finishes: ` -> end` or
` failed`. Lines are indented by two spaces for every enclosing node that has a line of its own.

How much is shown depends on the verbosity:

* `normal` shows only named nodes;
* `verbose` shows every node, the text a node matched after its end, and a line each time a
  choice moves on to its next alternative;
* `veryVerbose` also shows, on entry, the next twelve characters of input after `»`.

A node is labelled by its name, an unnamed literal by its quoted text, and any other node by the
word for its shape.
-/

namespace Tokenweave

/-- How much a trace shows. -/
inductive Verbosity where
  | normal
  | verbose
  | veryVerbose
  deriving Repr, DecidableEq, Inhabited

/-- Verbosity from a count of `-v` flags. -/
def Verbosity.ofCount : Nat → Verbosity
  | 0 => .normal
  | 1 => .verbose
  | _ => .veryVerbose

/-- Whether the verbosity is above `normal`. -/
def Verbosity.isVerbose : Verbosity → Bool
  | .normal => false
  | _ => true

/-- What a trace is written for: the grammar, the input, how much to show, and the colours. -/
structure Tracer where
  grammar : Grammar
  source : String
  verbosity : Verbosity
  palette : Palette := .plain

/-- A trace being written: the lines so far, and for every node entered and not yet finished,
newest first, the index of its line or none when it has no line. -/
structure TraceLog where
  lines : Array String := #[]
  opened : List (Option Nat) := []

namespace Tracer

/-- Whether node `id` gets a line. -/
def visible (tr : Tracer) (id : NodeId) : Bool :=
  tr.verbosity.isVerbose || (tr.grammar.nameOf id).isSome

/-- Two spaces for every open node that has a line. -/
def indent (log : TraceLog) : String :=
  String.join (List.replicate (log.opened.filter Option.isSome).length "  ")

/-- The label of node `id`. -/
def label (tr : Tracer) (id : NodeId) : String :=
  let pal := tr.palette
  match tr.grammar.get? id with
  | some { name := some n, .. } => pal.name ++ n ++ pal.reset
  | some { shape := .literal text, name := none } => pal.text ++ Text.quote text ++ pal.reset
  | some { shape := s, name := none } => pal.dim ++ s.label ++ pal.reset
  | none => ""

/-- The input between two offsets, at most forty characters of it, quoted. -/
def snippet (tr : Tracer) (start stop : Nat) : String :=
  let shown := String.ofList ((Text.slice tr.source start stop).toList.take 40)
  " " ++ tr.palette.text ++ Text.quote shown ++ tr.palette.reset

/-- The offset twelve characters after `pos`, or the end of the input if it is nearer. -/
def ahead (tr : Tracer) (pos : Nat) : Nat :=
  let rest := (Text.slice tr.source pos tr.source.utf8ByteSize).toList
  if rest.length > 12 then pos + (String.ofList (rest.take 12)).utf8ByteSize
  else tr.source.utf8ByteSize

/-- Finish the newest open node, adding `suffix` to its line if it has one. -/
def close (log : TraceLog) (suffix : String) : TraceLog :=
  match log.opened with
  | [] => log
  | some i :: rest => { lines := log.lines.modify i (· ++ suffix), opened := rest }
  | none :: rest => { log with opened := rest }

/-- The trace after one more event. -/
def step (tr : Tracer) (log : TraceLog) : Event → TraceLog
  | .enter id pos =>
    if tr.visible id then
      let line := indent log ++ tr.label id ++ " @" ++ toString pos
      let line := match tr.verbosity with
        | .veryVerbose =>
          line ++ " " ++ tr.palette.dim ++ "»" ++ tr.palette.reset ++ tr.snippet pos (tr.ahead pos)
        | _ => line
      { lines := log.lines.push line, opened := some log.lines.size :: log.opened }
    else { log with opened := none :: log.opened }
  | .success _ start stop =>
    let matched := if tr.verbosity.isVerbose && stop > start then tr.snippet start stop else ""
    close log (" -> " ++ toString stop ++ matched)
  | .failure _ _ => close log (" " ++ tr.palette.dim ++ "failed" ++ tr.palette.reset)
  | .backtrack choice pos =>
    if tr.verbosity.isVerbose then
      let line := indent log ++ tr.palette.dim ++ "backtrack " ++ tr.label choice ++ " @" ++
        toString pos ++ tr.palette.reset
      { log with lines := log.lines.push line }
    else log

/-- The lines of the trace of an event list. -/
def lines (tr : Tracer) (events : List Event) : List String :=
  (events.foldl tr.step {}).lines.toList

end Tracer

end Tokenweave
