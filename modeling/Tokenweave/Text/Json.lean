/-!
# JSON documents

The JSON values this library writes, and the two ways it writes them: compact, with no blanks at
all, and pretty, with one member or element per line, indented by two spaces per level, and a
blank after each colon. In strings, a quote, a backslash and the control characters are escaped:
backspace, form feed, newline, carriage return and tab by their short escapes, the others as
`\u00` and two lowercase hexadecimal digits. Every other character is written as it is.
-/

namespace Tokenweave.Text.Json

/-- A JSON value; the members of an object keep their order. -/
inductive Value where
  | null
  | bool (b : Bool)
  | nat (n : Nat)
  | str (s : String)
  | arr (items : List Value)
  | obj (members : List (String × Value))
  deriving Repr, Inhabited

/-- A hexadecimal digit, lowercase. -/
def hexDigit (n : Nat) : Char :=
  if n < 10 then Char.ofNat (48 + n) else Char.ofNat (87 + n)

/-- The spelling of one character inside a JSON string. -/
def escapeChar (c : Char) : String :=
  match c with
  | '"' => "\\\""
  | '\\' => "\\\\"
  | '\n' => "\\n"
  | '\r' => "\\r"
  | '\t' => "\\t"
  | '\x08' => "\\b"
  | '\x0c' => "\\f"
  | c =>
    if c.toNat < 32 then
      "\\u00" ++ (hexDigit (c.toNat / 16)).toString ++ (hexDigit (c.toNat % 16)).toString
    else c.toString

/-- A JSON string literal. -/
def quoted (s : String) : String :=
  "\"" ++ String.join (s.toList.map escapeChar) ++ "\""

mutual
/-- A value written compactly. -/
def Value.compact : Value → String
  | .null => "null"
  | .bool b => if b then "true" else "false"
  | .nat n => toString n
  | .str s => quoted s
  | .arr items => "[" ++ compactItems items ++ "]"
  | .obj members => "\x7b" ++ compactMembers members ++ "\x7d"

/-- Elements written compactly, separated by commas. -/
def compactItems : List Value → String
  | [] => ""
  | [v] => v.compact
  | v :: vs => v.compact ++ "," ++ compactItems vs

/-- Members written compactly, separated by commas. -/
def compactMembers : List (String × Value) → String
  | [] => ""
  | [(k, v)] => quoted k ++ ":" ++ v.compact
  | (k, v) :: ms => quoted k ++ ":" ++ v.compact ++ "," ++ compactMembers ms
end

/-- Two spaces per level. -/
def indent (level : Nat) : String := String.join (List.replicate level "  ")

mutual
/-- A value written pretty, its inner lines indented for `level`. -/
def Value.pretty (level : Nat) : Value → String
  | .arr [] => "[]"
  | .obj [] => "\x7b\x7d"
  | .arr items => "[\n" ++ prettyItems (level + 1) items ++ "\n" ++ indent level ++ "]"
  | .obj members => "\x7b\n" ++ prettyMembers (level + 1) members ++ "\n" ++ indent level ++ "\x7d"
  | v => v.compact

/-- Elements written pretty, one per line. -/
def prettyItems (level : Nat) : List Value → String
  | [] => ""
  | [v] => indent level ++ v.pretty level
  | v :: vs => indent level ++ v.pretty level ++ ",\n" ++ prettyItems level vs

/-- Members written pretty, one per line. -/
def prettyMembers (level : Nat) : List (String × Value) → String
  | [] => ""
  | [(k, v)] => indent level ++ quoted k ++ ": " ++ v.pretty level
  | (k, v) :: ms => indent level ++ quoted k ++ ": " ++ v.pretty level ++ ",\n" ++
    prettyMembers level ms
end

/-- A value written pretty, from the outermost level. -/
def Value.render (v : Value) (pretty : Bool) : String :=
  if pretty then v.pretty 0 else v.compact

end Tokenweave.Text.Json
