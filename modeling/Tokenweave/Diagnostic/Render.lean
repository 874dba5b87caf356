import Tokenweave.Diagnostic.Basic
import Tokenweave.Diagnostic.Canvas
import Tokenweave.Diagnostic.Source
import Tokenweave.Diagnostic.Margin
/-!
# Drawing a report

A report is drawn as:

    error: MESSAGE
     --> PATH:LINE:COLUMN
      |
    LINE | SOURCE TEXT
      |    ^^^ LABEL

A message of several lines continues under its first line, indented past `error: `; tabs and
control characters in it are shown as in source lines.

The location line appears only when a path is given; its column counts characters from one. Line
numbers are right-aligned in a gutter as wide as the number of the line the span ends on, and the
source text starts three columns after it. A span that ends just after a line break ends, for the
gutter, on the line the break closes; the next line is still shown, and its number may overflow
the gutter. An empty span is widened to the character under it, and a span at the end of the
source points just past its last character.

A span over several lines is drawn with an opening mark (`_` run to a `^`, or `/` when the
first characters of the shown line, as many as the display columns before the start, are all
white space), a `|` bar down the left side, and a closing mark with the label; the source text
then moves two more columns right. Runs of skipped lines are shown as `...`, and a single skipped
line is shown in full.

Long lines are shown through the window of `Margin`. Leading blanks count toward it only up to
the leftmost mark, so a mark on blanks keeps them in view. When a span on one line is wider than
twice the room, its middle is hidden once everything is drawn: the cells from a third of the room
past the first mark to a third of the room before the end of the marks are cut out of the source
row and the mark row and replaced by `...`. The cut is made in cells, not display columns, so on
a line of wide characters the source row keeps more text than the marks cover, and a source row
that ends before the cut is left whole.
-/

namespace Tokenweave.Diagnostic

open Text

/-- Columns fixed for one drawing: where the gutter bar stands (two columns left of
`widthOffset`), where source text starts, the window onto long lines, and, for a span too wide to
show whole, how many cells of its marks are kept at each end around the hidden middle. -/
structure Layout where
  widthOffset : Nat
  codeOffset : Nat
  margin : Margin
  keep : Option Nat := none

/-- The canvas column of display column `p` of a line whose first `left` columns are cut off. -/
def Layout.column (ly : Layout) (left p : Nat) : Nat :=
  ly.codeOffset + p - left

/-- The characters that fit in `room` display columns, and the columns they take. -/
def takeWidth : List Char → Nat → Nat → List Char × Nat
  | [], _, taken => ([], taken)
  | c :: cs, room, taken =>
    if taken + charWidth c > room then ([], taken)
    else
      let (rest, total) := takeWidth cs room (taken + charWidth c)
      (c :: rest, total)

/-- The characters of a line from display column `left` on: characters are dropped while the
columns dropped so far are fewer than `left`, so a character that starts before the cut and ends
after it is dropped too. -/
def dropColumns : List Char → Nat → List Char
  | [], _ => []
  | c :: cs, left => if 0 < left then dropColumns cs (left - charWidth c) else c :: cs

/-- How many leading characters it takes to fill at least `n` columns, and the columns they
fill. -/
def coverWidth : List Char → Nat → Nat → Nat × Nat
  | [], _, filled => (0, filled)
  | c :: cs, n, filled =>
    if filled + charWidth c ≥ n then (1, filled + charWidth c)
    else
      let (k, w) := coverWidth cs n (filled + charWidth c)
      (k + 1, w)

/-- Draw a source line, as shown, with its number, at `row`. Gives the number of display
columns cut off on the left, by which marks move: a character that straddles the cut counts whole,
and the ellipsis drawn over the start of the cut line does not move them. -/
def drawLine (ly : Layout) (cv : Canvas) (shown : String) (number row : Nat) : Canvas × Nat :=
  let chars := shown.toList
  let len := widthOf chars
  let left := ly.margin.left len
  let right := ly.margin.right len
  let rest := dropColumns chars left
  let code := (takeWidth rest (right - left) 0).1
  let (k, w) := coverWidth code 3 0
  let (cv, cells) :=
    if ly.margin.cutLeft then
      let cv := cv.puts row ly.codeOffset "..." .gutter
      (cv.puts row (ly.codeOffset + w) (String.ofList (code.drop k)) .plain, w + (code.length - k))
    else (cv.puts row ly.codeOffset (String.ofList code) .plain, code.length)
  let cv := if ly.margin.cutRight len then
      let (k, _) := coverWidth code.reverse 3 0
      cv.puts row (ly.codeOffset + cells - k) "..." .gutter
    else cv
  let digits := toString number
  let numbered := String.ofList (List.replicate (ly.widthOffset - 3 - digits.length) ' ') ++ digits
  let cv := cv.puts row 0 numbered .gutter
  (cv.putc row (ly.widthOffset - 2) '|' .gutter, len - widthOf rest)

/-- Draw the same character on the columns `from`..`to` of a row. -/
def drawRun (cv : Canvas) (row : Nat) (cols : List Nat) (c : Char) : Canvas :=
  cols.foldl (fun cv col => cv.putc row col c .mark) cv

/-- The depth of an opening or closing mark. -/
def Reach.depth? : Reach → Option Nat
  | .opens d => some d
  | .closes d => some d
  | _ => none

/-- Draw the marks of a line that is not passed through, on the row below the source row `row`;
`left` is the number of display columns cut off on the left. -/
def drawMark (ly : Layout) (cv : Canvas) (row left : Nat) (m : Mark) : Canvas :=
  let below := row + 1
  let cv := cv.putc below (ly.widthOffset - 2) '|' .gutter
  let point := ly.column left m.startCol
  let cv := match m.reach.depth? with
    | some d => drawRun cv below (List.range' (ly.widthOffset + d) (point - (ly.widthOffset + d))) '_'
    | none => cv
  let cv := match m.reach with
    | .opens d => cv.putc below (ly.widthOffset + d - 1) ' ' .mark
    | .closes d => (cv.putc row (ly.widthOffset + d - 1) '|' .mark).putc below
        (ly.widthOffset + d - 1) '|' .mark
    | _ => cv
  let cv := match m.label with
    | some l => cv.puts below (ly.column left (if m.endCol == 0 then 2 else m.endCol + 1)) l .mark
    | none => cv
  let cols := List.range' m.startCol (m.endCol - m.startCol)
  let cv := drawRun cv below (cols.map (ly.column left)) '^'
  match m.reach.depth? with
  | some _ => cv.putc below point '^' .mark
  | none => cv

/-- Draw a marked source line and its marks; gives the depths of spans it opens or closes. -/
def drawMarked (ly : Layout) (cv : Canvas) (line : SourceLine) (m : Mark) : Canvas × List Nat :=
  let shown := showLine line.text
  let row := cv.height
  let (cv, left) := drawLine ly cv shown line.number row
  match m.reach with
  | .passes _ => (cv, [])
  | .opens d =>
    if (shown.toList.take m.startCol).all isSpace then
      (cv.putc row (ly.widthOffset + d - 1) '/' .mark, [d])
    else (drawMark ly cv row left m, [d])
  | .closes d => (drawMark ly cv row left m, [d])
  | .single =>
    let cv := drawMark ly cv row left m
    match ly.keep with
    | some n =>
      let start := ly.column left m.startCol + n
      let stop := ly.column left m.endCol - n
      ((cv.elide row start stop).elide (row + 1) start stop, [])
    | none => (cv, [])

/-- Draw the bar of each open span on a row. -/
def drawBars (ly : Layout) (cv : Canvas) (row : Nat) (depths : List Nat) : Canvas :=
  depths.foldl (fun cv d => cv.putc row (ly.widthOffset + d - 1) '|' .mark) cv

/-- Draw the marked lines in order, with the depths of the spans open above them, and what lies
between consecutive marked lines. -/
def drawBody (ly : Layout) (lines : List SourceLine) :
    List (SourceLine × Mark) → List Nat → Canvas → Canvas
  | [], _, cv => cv
  | (line, m) :: rest, active, cv =>
    let top := cv.height
    let (cv, depths) := drawMarked ly cv line m
    let ongoing := active.filter (!depths.contains ·)
    let added := depths.filter (!active.contains ·)
    let cv := (List.range' top (cv.height - top)).foldl (fun cv r => drawBars ly cv r ongoing) cv
    let opened := match m.reach with
      | .opens d => [d]
      | _ => []
    let cv := match rest with
      | (next, _) :: _ =>
        if next.number - line.number > 2 then
          let r := cv.height
          drawBars ly (cv.puts r 0 "..." .gutter) r (ongoing ++ opened)
        else if next.number - line.number == 2 then
          let r := cv.height
          let text := (textOf lines (line.number + 1)).getD ""
          drawBars ly (drawLine ly cv (showLine text) (next.number - 1) r).1 r (ongoing ++ opened)
        else cv
      | [] => cv
    drawBody ly lines rest (ongoing ++ added) cv

/-- Leading blanks of a line that has something else. -/
def leadingBlanks (s : String) : Option Nat :=
  if s.toList.all isSpace then none
  else some ((s.toList.takeWhile isSpace).foldl (fun n c => n + if c == '\t' then 4 else 1) 0)

/-- The report drawn against `source`, with the location line when `path` is given, coloured
when `colored`. -/
def render (d : Diagnostic) (source : String) (path : Option String) (colored : Bool) : String :=
  let len := source.utf8ByteSize
  let start := min d.start len
  let stop :=
    if d.stop > start then min d.stop len
    else match charAt? source start with
      | some c => start + c.utf8Size
      | none => start
  let lines := sourceLines source
  let (lo, hi) := spanLocs lines start stop
  let hi := if lo.display == hi.display && lo.line == hi.line then
      { hi with display := hi.display + 1 }
    else hi
  let marked := (marks lines lo hi d.label).filterMap fun (n, m) =>
    (lines.find? (·.number == n)).map (·, m)
  let upto := (slice source 0 stop).toList
  let breaks := upto.count '\n' - (if upto.getLast? == some '\n' then 1 else 0)
  let numWidth := (toString (1 + breaks)).length
  let widthOffset := numWidth + 3
  let codeOffset := if lo.line == hi.line then widthOffset else widthOffset + 2
  let texts := marked.map (·.1.text)
  let cols := marked.flatMap fun (_, m) => [m.startCol, m.endCol]
  let spanLeft := cols.min?.getD 0
  let whitespace := min ((texts.filterMap leadingBlanks).min?.getD 0) spanLeft
  let labelRight := (marked.map fun (_, m) =>
    m.endCol + (m.label.map (widthOf ·.toList + 1)).getD 0).max?.getD 0
  let longest := (texts.map fun t => widthOf (showLine t).toList).max?.getD 0
  let margin := Margin.make whitespace spanLeft (cols.max?.getD 0) labelRight (140 - codeOffset)
    longest
  let keep :=
    if lo.line == hi.line && hi.display - lo.display > 2 * margin.columnWidth then
      some (margin.columnWidth / 3)
    else none
  let ly : Layout := ⟨widthOffset, codeOffset, margin, keep⟩
  let title := (showLine d.message).splitOn "\n"
  let cv : Canvas := ({} : Canvas).puts 0 0 "error" .level
  let cv := cv.append 0 (": " ++ title.headD "") .emphasis
  let cv := (title.drop 1).foldl (fun (cv : Canvas) l =>
    let r := cv.height
    (cv.puts r 0 "       " .plain).append r l .emphasis) cv
  let top := cv.height
  let (cv, row) := match path with
    | some p =>
      ((cv.puts top numWidth "--> " .gutter).append top
        (p ++ ":" ++ toString lo.line ++ ":" ++ toString (lo.char + 1)) .plain, top + 1)
    | none => (cv, top)
  let cv := cv.putc row (numWidth + 1) '|' .gutter
  (drawBody ly lines marked [] cv).render colored

end Tokenweave.Diagnostic
