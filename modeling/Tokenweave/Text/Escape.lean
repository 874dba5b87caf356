/-!
# Quoted text

How the library spells a piece of text between double quotes: a quote and a backslash take a
backslash in front, and newline, tab and carriage return take their short escapes. Every other
character, control characters included, is written as it is.

The same spelling is used by the tree printer, the tracer, error descriptions and the grammar
dump, so a literal printed by the dump reads back as the same literal.
-/

namespace Tokenweave.Text

/-- The spelling of one character between double quotes. -/
def escapeChar : Char → String
  | '"' => "\\\""
  | '\\' => "\\\\"
  | '\n' => "\\n"
  | '\t' => "\\t"
  | '\r' => "\\r"
  | c => c.toString

/-- Text as it is spelled between double quotes, one character at a time. -/
def escape (s : String) : String :=
  String.join (s.toList.map escapeChar)

/-- Text between double quotes, quotes included. -/
def quote (s : String) : String :=
  "\"" ++ escape s ++ "\""

end Tokenweave.Text
