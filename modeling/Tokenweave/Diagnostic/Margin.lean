/-!
# The window onto long lines

A report is at most 140 columns wide. When the shown lines are longer than the room left after
the gutter, a window of them is shown and a cut is marked by an ellipsis. The window is chosen
in this order of preference:

1. drop leading blanks when there are more than twenty (keeping sixteen);
2. if still too wide, start at the leading blanks, when the marks and labels then fit;
3. else centre the marks and their labels;
4. else place the marks two fifths into the window;
5. else show the marks alone.

Positions are display columns, padded by six columns on both sides to leave room for the
ellipsis.
-/

namespace Tokenweave.Diagnostic

/-- The window onto the shown lines. -/
structure Margin where
  whitespaceLeft : Nat
  spanLeft : Nat
  spanRight : Nat
  labelRight : Nat
  computedLeft : Nat
  computedRight : Nat
  columnWidth : Nat
  deriving Repr, Inhabited

namespace Margin

/-- Columns of padding around the marks, room for an ellipsis. -/
def padding : Nat := 6

/-- Choose the window: `whitespace` leading blanks common to the lines, the leftmost and
rightmost mark columns, the rightmost column of a label, the room for code, and the longest
line. -/
def make (whitespace spanLeft spanRight labelRight columnWidth maxLineLen : Nat) : Margin :=
  let ws := whitespace - padding
  let sl := spanLeft - padding
  let sr := spanRight + padding
  let lr := labelRight + padding
  let left := if ws > 20 then ws - 16 else 0
  let right := max maxLineLen left
  let (left, right) :=
    if right - left > columnWidth then
      if ws ≤ lr && lr - ws ≤ columnWidth then (ws, ws + columnWidth)
      else if lr - sl ≤ columnWidth then
        let pad := (columnWidth - (lr - sl)) / 2
        (sl - pad, sl - pad + columnWidth)
      else if sr - sl ≤ columnWidth then
        let pad := (columnWidth - (sr - sl)) / 5 * 2
        (sl - pad, sl - pad + columnWidth)
      else (sl, sr)
    else (left, right)
  ⟨ws, sl, sr, lr, left, right, columnWidth⟩

/-- Whether the window cuts off the start of lines. -/
def cutLeft (m : Margin) : Bool := m.computedLeft > 0

/-- Where the window starts on a line of `len` columns. -/
def left (m : Margin) (len : Nat) : Nat := min m.computedLeft len

/-- Where the window ends on a line of `len` columns. -/
def right (m : Margin) (len : Nat) : Nat :=
  if len - m.computedLeft ≤ m.columnWidth then len else min len m.computedRight

/-- Whether the window cuts off the end of a line of `len` columns. -/
def cutRight (m : Margin) (len : Nat) : Bool := m.right len < len

end Margin

end Tokenweave.Diagnostic
