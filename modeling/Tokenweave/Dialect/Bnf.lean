import Tokenweave.Grammar.Basic
/-!
# The grammar notation, as a grammar

Grammars are written in a BNF notation, and that notation is itself given here as a grammar
graph, built node by node. Its shape, in its own notation:

    grammar   ::= gap sentence* EOF
    sentence  ::= word gap "::=" gap statement gap
    statement ::= element (pipeOpt | spaceOpt)*
    pipeOpt   ::= gap "|" gap !(word gap "::=") element
    spaceOpt  ::= gap !(word gap "::=") element
    element   ::= token | nested
    token     ::= "!"? atom [+*?]?
    nested    ::= "!"? "(" gap statement gap ")" [+*?]?
    atom      ::= string | chargroup | charset | eof | word

where a gap is any mix of whitespace and `#` comments running to the end of a line. Strings and
character classes take backslash escapes.

The names of the nodes are what lowering looks for in the parse tree, and unnamed nodes are
scaffolding, removed right after parsing. The exact structure matters beyond the language it
accepts: fuel and depth are spent per node visit, so a dialect limit stops at the same place only
on the same graph.
-/

namespace Tokenweave.Dialect

/-- Building a grammar one node at a time. -/
abbrev Build := StateM Grammar

/-- Add an unnamed node. -/
def node (s : Shape) : Build NodeId :=
  modifyGet fun g => let (g, id) := g.add s; (id, g)

/-- Name a node and give it back. -/
def named (id : NodeId) (name : String) : Build NodeId := do
  modify (·.setName id name)
  pure id

/-- The characters of a word. -/
def wordChars : String := "ABCDEFGHIJKLMNOPQRSTUVWXYZabcdefghijklmnopqrstuvwxyz0123456789_"

/-- The notation's graph, built; gives the root. -/
def build : Build NodeId := do
  let wordChar ← node (.charClass wordChars false)
  let word ← named (← node (.oneOrMore wordChar)) "word"
  -- layout: whitespace and comments, in any mix
  let space ← node (.charClass " \t\r\n" false)
  let whitespace ← named (← node (.oneOrMore space)) "whitespace"
  let hash ← node (.literal "#")
  let lineChar ← node (.charClass "\n" true)
  let line ← node (.optional (← node (.oneOrMore lineChar)))
  let comment ← named (← node (.seq [hash, line])) "comment"
  let blank ← node (.choice [whitespace, comment])
  let gap ← node (.optional (← node (.oneOrMore blank)))
  -- escapes
  let escape ← named (← node (.literal "\\")) "escape"
  let anyChar ← named (← node (.charClass "" true)) "anyChar"
  let escapeSequence ← named (← node (.seq [escape, anyChar])) "escapeSequence"
  -- strings
  let quote ← node (.literal "\"")
  let strChar ← named (← node (.charClass "\"\\" true)) "strChar"
  let strPiece ← node (.choice [escapeSequence, strChar])
  let strBody ← named (← node (.oneOrMore strPiece)) "strOpt"
  let strOpt ← named (← node (.optional strBody)) "strOpt"
  let string ← named (← node (.seq [quote, strOpt, quote])) "string"
  -- character classes
  let opening ← node (.literal "[")
  let closing ← node (.literal "]")
  let caret ← named (← node (.literal "^")) "^"
  let negated ← named (← node (.optional caret)) "modifiers"
  let setChar ← named (← node (.charClass "]\\" true)) "setChar"
  let setPiece ← node (.choice [escapeSequence, setChar])
  let setBody ← named (← node (.oneOrMore setPiece)) "setOpt"
  let setOpt ← named (← node (.optional setBody)) "setOpt"
  let charset ← named (← node (.seq [opening, negated, setOpt, closing])) "charset"
  -- character ranges
  let rangeChar ← named (← node (.charClass "]\\-" true)) "rangeChar"
  let rangePiece ← node (.choice [escapeSequence, rangeChar])
  let rangeStart ← named (← node (.seq [rangePiece])) "rangeStart"
  let rangeEnd ← named (← node (.seq [rangePiece])) "rangeEnd"
  let dash ← node (.literal "-")
  let chargroup ←
    named (← node (.seq [opening, negated, rangeStart, dash, rangeEnd, closing])) "chargroup"
  -- the end of input is written EOF, but a longer word is still a rule name
  let eofWord ← node (.literal "EOF")
  let wordEnds ← node (.notFollowedBy wordChar)
  let eof ← named (← node (.seq [eofWord, wordEnds])) "eof"
  let atom ← node (.choice [string, chargroup, charset, eof, word])
  -- operators around an atom or a group
  let bang ← named (← node (.literal "!")) "!"
  let before ← named (← node (.optional bang)) "modifiers"
  let modifier ← named (← node (.charClass "+*?" false)) "modifier"
  let after ← named (← node (.optional modifier)) "modifiers"
  let token ← named (← node (.seq [before, atom, after])) "token"
  -- groups hold statements, which hold groups: a placeholder until the statement exists
  let pending ← node (.ref "statement")
  let lparen ← node (.literal "(")
  let rparen ← node (.literal ")")
  let nested ← named (← node (.seq [before, lparen, gap, pending, gap, rparen, after])) "nested"
  let element ← node (.choice [token, nested])
  let define ← named (← node (.literal "::=")) "::="
  let head ← node (.seq [word, gap, define])
  let notHead ← node (.notFollowedBy head)
  let pipe ← named (← node (.literal "|")) "|"
  let pipeOpt ← named (← node (.seq [gap, pipe, gap, notHead, element])) "pipeOpt"
  let spaceOpt ← named (← node (.seq [gap, notHead, element])) "spaceOpt"
  let continuation ← node (.choice [pipeOpt, spaceOpt])
  let statementOpt ← named (← node (.seq [continuation])) "statementOpt"
  let continuations ← named (← node (.oneOrMore statementOpt)) "statementList"
  let continuations ← named (← node (.optional continuations)) "statementList"
  let statement ← named (← node (.seq [element, continuations])) "statement"
  modify fun g => g.setChildren nested ((g.children nested).map fun e =>
    if e == pending then statement else e)
  let sentence ← named (← node (.seq [word, gap, define, gap, statement, gap])) "sentence"
  let sentences ← named (← node (.oneOrMore sentence)) "statementList"
  let sentences ← named (← node (.optional sentences)) "statementList"
  let finish ← node .endOfInput
  named (← node (.seq [gap, sentences, finish])) "grammar"

/-- The grammar graph of the notation, and its root. -/
def bnf : Grammar × NodeId :=
  let (root, g) := build.run {}
  (g, root)

end Tokenweave.Dialect
