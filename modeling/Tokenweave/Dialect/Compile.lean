import Tokenweave.Dialect.Bnf
import Tokenweave.Dialect.Lower
import Tokenweave.Lexer
import Tokenweave.Tree.Edit
/-!
# Compiling grammar text

Grammar text is compiled in four steps:

1. parse it with the lexer of the notation, and strip the parse tree: delete every node that
   matched nothing, every unnamed node, whitespace, comments and the `::=` marks, and splice the
   operator slots and list wrappers into their parents;
2. lower the tree to a graph and a rule table;
3. check the chains of aliases, find the root rule's body, and link the references reachable
   from it;
4. check the graph reachable from the root (`Grammar.validate`) and make the lexer.

The limits of step 1 bound the work spent on the text itself; a failure there is reported as a
fault, and any other failure to parse at the position where the text stopped matching.
-/

namespace Tokenweave.Dialect

/-- The lexer of the notation, with the given limits. The notation's graph passes the checks of
`Grammar.validate`. -/
def lexer (limits : Limits := {}) : Lexer :=
  { grammar := bnf.1, root := bnf.2, limits }

/-- Filters that strip the parse of grammar text down to what lowering reads. -/
def stripFilters : List Filter :=
  [⟨.empty, .deleteAll⟩, ⟨.unnamed, .deleteAll⟩,
    ⟨.named ["whitespace", "::=", "comment"], .deleteAll⟩,
    ⟨.named ["modifiers", "statementList"], .liftChildren⟩]

/-- The grammar error for text the notation's lexer rejected. -/
def rejected (source : String) : Rejection → GrammarError
  | .fault f => .runtime f
  | .noMatch pos _ | .incomplete _ pos _ =>
    let (line, column) := Text.lineCol source pos
    .unexpected line column pos (Text.describeAt source pos 20)

/-- Parse grammar text and strip the tree. -/
def parse (source : String) (limits : Limits := {}) : Except GrammarError ParseTree :=
  match (lexer limits).tokenize source with
  | .error r => .error (rejected source r)
  | .ok t => .ok (t.cull t.root stripFilters)

/-- Compile grammar text to a lexer. -/
def compile (source : String) (limits : Limits := {}) : Except GrammarError Lexer := do
  let t ← parse source limits
  let (g, rules) ← lower t
  rules.checkAliases g
  let root ← rules.root g
  let g ← rules.link g root
  match Lexer.new g root with
  | .ok lx => pure lx
  | .error d => throw (.configuration d)

/-- The lines of a text: split at each newline, a carriage return just before a newline dropped,
and no empty last line after a final newline. -/
def lines (text : String) : List String :=
  let pieces := text.splitOn "\n"
  let ended := pieces.dropLast.map fun p =>
    if p.endsWith "\r" then String.ofList (p.toList.dropLast) else p
  let last := pieces.getLast?.getD ""
  if last.isEmpty then ended else ended ++ [last]

/-- Text with its line endings made newlines and no final newline. -/
def normalizeLines (text : String) : String :=
  "\n".intercalate (lines text)

end Tokenweave.Dialect
