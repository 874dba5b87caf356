import Tokenweave.Text.Escape
/-!
# Byte offsets into text

Positions in this library are byte offsets into the UTF-8 encoding of a text, as a matcher
reports them; line and column numbers are for people and count characters. This module holds
the few reading operations on offsets that everything else is written with: the character at an
offset, whether an offset lies between two characters, the text between two offsets, and the
two human descriptions of an offset (`lineCol` and `describeAt`).
-/

namespace Tokenweave.Text

/-- Length of a text in bytes. -/
abbrev byteSize (s : String) : Nat := s.utf8ByteSize

/-- The character that begins at byte offset `p`, when `p` lies inside the text. -/
def charAt? (s : String) (p : Nat) : Option Char :=
  if p < s.utf8ByteSize then some (String.Pos.Raw.get s ⟨p⟩) else none

/-- Whether byte offset `p` lies between two characters, or at either end of the text. -/
def isBoundary (s : String) (p : Nat) : Bool :=
  String.Pos.Raw.isValid s ⟨p⟩

/-- The text between two byte offsets. -/
def slice (s : String) (a b : Nat) : String :=
  String.Pos.Raw.extract s ⟨a⟩ ⟨b⟩

/-- Whether `t` occurs in `s` starting at byte offset `p`: the text between `p` and as many bytes
further as `t` has is `t`, and both ends lie between characters. Text is only ever read from a
character boundary, so an offset inside a character holds no text. -/
def occursAt (s : String) (p : Nat) (t : String) : Bool :=
  isBoundary s p && isBoundary s (p + t.utf8ByteSize) && slice s p (p + t.utf8ByteSize) == t

/-- The greatest character boundary at or below `p`. -/
def floorBoundary (s : String) : Nat → Nat
  | 0 => 0
  | p + 1 => if isBoundary s (p + 1) then p + 1 else floorBoundary s p

/-- An offset made safe to read at: clamped to the end, then moved back onto a boundary. -/
def settle (s : String) (p : Nat) : Nat :=
  floorBoundary s (min p s.utf8ByteSize)

/-- One-based line and column of a byte offset. The column counts characters since the last
newline; an offset past the end counts as the end. -/
def lineCol (s : String) (offset : Nat) : Nat × Nat :=
  let before := (slice s 0 (settle s offset)).toList
  (before.count '\n' + 1, (before.reverse.takeWhile (fun c => c != '\n')).length + 1)

/-- A short description of what stands at an offset: the rest of its line, at most `maxChars`
characters of it and an ellipsis when there is more, quoted; a bare newline when the line is
empty; and `end of input` when nothing is left. -/
def describeAt (s : String) (offset maxChars : Nat) : String :=
  let rest := (slice s (settle s offset) s.utf8ByteSize).toList
  if rest.isEmpty then "end of input"
  else
    let line := rest.takeWhile (fun c => c != '\n')
    let line := if line.isEmpty then ['\n'] else line
    let more := if line.length > maxChars then "..." else ""
    "\"" ++ escape (String.ofList (line.take maxChars)) ++ more ++ "\""

end Tokenweave.Text
