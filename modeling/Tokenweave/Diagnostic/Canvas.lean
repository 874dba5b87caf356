/-!
# A canvas of characters

Error reports are drawn on a canvas: rows of cells, each holding one character and the ink it is
drawn with. Drawing outside the rows or columns drawn so far extends the canvas with blank cells.
A cell holds one character whatever its display width, as a terminal buffer does. A run of cells
can be cut out of a row and replaced by an ellipsis, which moves the cells after it left.

The canvas becomes text row by row. In plain text the ink is dropped. In coloured text each run
of cells with the same ink escape starts with that escape and ends with the reset escape; blank
cells left between drawings have no ink.
-/

namespace Tokenweave.Diagnostic

/-- What a cell is drawn as: the default, the gutter (line numbers, separators, arrows), the
marks under source text and their labels, the level of a report, or emphasised text. -/
inductive Ink where
  | plain
  | gutter
  | mark
  | level
  | emphasis
  deriving Repr, DecidableEq, Inhabited

/-- The terminal escape that starts text of an ink. -/
def Ink.escape : Ink → String
  | .plain => ""
  | .gutter => "\x1b[1m\x1b[94m"
  | .mark => "\x1b[1m\x1b[91m"
  | .level => "\x1b[1m\x1b[91m"
  | .emphasis => "\x1b[1m"

/-- Rows of cells. -/
structure Canvas where
  rows : Array (Array (Char × Ink)) := #[]
  deriving Inhabited

namespace Canvas

/-- The number of rows. -/
def height (cv : Canvas) : Nat := cv.rows.size

/-- A row padded with blank cells up to `n` cells. -/
def padRow (row : Array (Char × Ink)) (n : Nat) : Array (Char × Ink) :=
  row ++ Array.replicate (n - row.size) (' ', Ink.plain)

/-- Draw one character at `row`, `col`. -/
def putc (cv : Canvas) (row col : Nat) (c : Char) (ink : Ink) : Canvas :=
  let rows := cv.rows ++ Array.replicate (row + 1 - cv.rows.size) #[]
  { rows := rows.modify row fun r => (padRow r (col + 1)).set! col (c, ink) }

/-- Draw a text from `row`, `col` on, one cell per character. -/
def puts (cv : Canvas) (row col : Nat) (s : String) (ink : Ink) : Canvas :=
  (s.toList.foldl (fun (acc : Canvas × Nat) c => (acc.1.putc row acc.2 c ink, acc.2 + 1))
    (cv, col)).1

/-- Draw a text after the last cell of `row`. -/
def append (cv : Canvas) (row : Nat) (s : String) (ink : Ink) : Canvas :=
  cv.puts row ((cv.rows[row]?.map Array.size).getD 0) s ink

/-- Replace the cells `start`..`stop` of `row` by an ellipsis in gutter ink, closing the gap; a
row that does not reach `stop` is left as it is, so only rows drawn that far lose their middle. -/
def elide (cv : Canvas) (row start stop : Nat) : Canvas :=
  match cv.rows[row]? with
  | some r =>
    if start < stop && stop ≤ r.size then
      let dots := ("...".toList.map fun c => (c, Ink.gutter)).toArray
      { rows := cv.rows.set! row (r.extract 0 start ++ dots ++ r.extract stop r.size) }
    else cv
  | none => cv

/-- One row as text, with escapes when `colored`. -/
def rowText (colored : Bool) (row : Array (Char × Ink)) : String :=
  if !colored then String.ofList (row.toList.map Prod.fst)
  else
    let (out, current) := row.foldl (fun (acc : String × String) (c, ink) =>
      let (out, current) := acc
      let esc := ink.escape
      if esc == current then (out.push c, current)
      else
        let out := if current.isEmpty then out else out ++ "\x1b[0m"
        ((out ++ esc).push c, esc)) ("", "")
    if current.isEmpty then out else out ++ "\x1b[0m"

/-- The canvas as text: its rows, joined by newlines. -/
def render (cv : Canvas) (colored : Bool) : String :=
  "\n".intercalate (cv.rows.toList.map (rowText colored))

end Canvas

end Tokenweave.Diagnostic
