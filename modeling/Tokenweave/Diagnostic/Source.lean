import Tokenweave.Text.Position
import Tokenweave.Text.Width
/-!
# Source lines and where a span falls in them

A report shows the lines of its source that a span touches. The source is cut into lines at each
newline; a carriage return just before a newline belongs to the line ending, and a final newline
starts no further line. An empty source has one empty line.

A byte offset is placed on the line whose bytes, line ending included, contain it, or on the last
line when none does. Its column is counted twice: in characters, for the location written after
the file name, and in display columns, for the marks drawn under the line.

A span whose ends fall on different lines is drawn over several lines: a mark where it opens,
a mark where it closes, and a bar joining them down the left side. Between the two, up to four
lines after the opening are shown, except trailing ones that hold nothing but blanks or a lone
bracket, and the line just before the closing one is shown too when it holds more than that.
-/

namespace Tokenweave.Diagnostic

open Text

/-- One line of a source: its text without the ending, its number (from one), the byte offsets
of its start and of the end of its line ending, and the length of the ending. -/
structure SourceLine where
  text : String
  number : Nat
  start : Nat
  stop : Nat
  ending : Nat
  deriving Repr, Inhabited

/-- The lines of pieces of a source split at newlines, numbered from `number`, the first one
starting at byte `start`. -/
def linesOf : List String → Nat → Nat → List SourceLine
  | [], _, _ => []
  | [last], number, start =>
    if last.isEmpty then [] else [⟨last, number, start, start + last.utf8ByteSize, 0⟩]
  | p :: rest, number, start =>
    let next := start + p.utf8ByteSize + 1
    let line : SourceLine :=
      if p.endsWith "\r" then ⟨String.ofList p.toList.dropLast, number, start, next, 2⟩
      else ⟨p, number, start, next, 1⟩
    line :: linesOf rest (number + 1) next

/-- The lines of a source. -/
def sourceLines (source : String) : List SourceLine :=
  if source.isEmpty then [⟨"", 1, 0, 0, 0⟩] else linesOf (source.splitOn "\n") 1 0

/-- A place in a source: its line number, its column in characters and in display columns
(both from zero), and its byte offset. -/
structure Loc where
  line : Nat
  char : Nat
  display : Nat
  byte : Nat
  deriving Repr, DecidableEq, Inhabited

/-- The line a byte offset is placed on. -/
def lineAt (lines : List SourceLine) (pos : Nat) : SourceLine :=
  (lines.find? fun l => l.start ≤ pos && pos < l.stop).getD (lines.getLast?.getD default)

/-- The characters of a line before a byte offset. -/
def before (l : SourceLine) (pos : Nat) : List Char :=
  (Text.slice l.text 0 (min (pos - l.start) l.text.utf8ByteSize)).toList

/-- The places of both ends of a span. An end on a later line than the start that falls
past the text of its line, in the line ending, is counted one column further. -/
def spanLocs (lines : List SourceLine) (start stop : Nat) : Loc × Loc :=
  let first := lineAt lines start
  let pre := before first start
  let past := if start - first.start > first.text.utf8ByteSize then 1 else 0
  let lo : Loc := ⟨first.number, pre.length + past, widthOf pre, start⟩
  if start == stop then (lo, lo)
  else
    let last := lineAt lines stop
    let pre := before last stop
    let hi : Loc := ⟨last.number, pre.length, widthOf pre, stop⟩
    if lo.line != hi.line && stop - last.start > last.text.utf8ByteSize then
      (lo, { hi with char := hi.char + 1, display := hi.display + 1 })
    else (lo, hi)

/-- How a mark sits on a line: a span within the line, the opening or the closing of a span over
several lines (at a depth counted from the left), or a line that such a span passes through. -/
inductive Reach where
  | single
  | opens (depth : Nat)
  | closes (depth : Nat)
  | passes (depth : Nat)
  deriving Repr, DecidableEq, Inhabited

/-- A mark on one line: how it sits, its columns (in characters and display columns) where it
starts and ends, and its label. -/
structure Mark where
  reach : Reach
  startChar : Nat := 0
  startCol : Nat := 0
  endChar : Nat := 0
  endCol : Nat := 0
  label : Option String := none
  deriving Repr, Inhabited

/-- The text of line `number`, if the source has it. -/
def textOf (lines : List SourceLine) (number : Nat) : Option String :=
  (lines.find? (·.number == number)).map (·.text)

/-- Whether a line has more than blanks, a comment or a lone bracket. -/
def hasContent (s : String) : Bool :=
  let t := trimSpace s
  !(t.startsWith "//" && !(t.startsWith "///" || t.startsWith "//!")) &&
    !(["", "\x7b", "\x7d", "(", ")", "[", "]"].contains t)

/-- The marks of a span from `lo` to `hi`, with their line numbers, in line order. -/
def marks (lines : List SourceLine) (lo hi : Loc) (label : String) : List (Nat × Mark) :=
  if lo.line == hi.line then
    let mark : Mark :=
      { reach := .single, startChar := lo.char, startCol := lo.display, endChar := hi.char,
        endCol := hi.display, label := some label }
    [(lo.line, mark)]
  else
    let opening : Mark :=
      { reach := .opens 1, startChar := lo.char, startCol := lo.display, endChar := lo.char + 1,
        endCol := lo.display + 1 }
    let middle := min (lo.line + 4) hi.line
    let shown := fun (n : Nat) => ((textOf lines n).map hasContent).getD false
    let upTo := match ((List.range' lo.line (middle - lo.line)).reverse.find? shown) with
      | some n => n + 1
      | none => lo.line
    let passing := (List.range' (lo.line + 1) (upTo - (lo.line + 1))).map
      fun n => (n, ({ reach := .passes 1 } : Mark))
    let lineEnd := hi.line - 1
    let endEmpty := ((textOf lines lineEnd).map (!hasContent ·)).getD false
    let late := if middle < lineEnd && !endEmpty then [(lineEnd, ({ reach := .passes 1 } : Mark))]
      else []
    let closing : Mark :=
      { reach := .closes 1, startChar := hi.char - 1, startCol := hi.display - 1,
        endChar := hi.char, endCol := hi.display, label := some label }
    (lo.line, opening) :: passing ++ late ++ [(hi.line, closing)]

end Tokenweave.Diagnostic
