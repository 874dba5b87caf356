import Tokenweave.Cli.Parse
import Tokenweave.Match.Trace
/-!
# The commands of the tokenizer tool

The tool has four commands: `check` compiles a grammar and reports what is wrong with it,
`tokenize` runs a grammar over an input and prints the tree, `trace` prints every step of that
run, and `dump` prints the grammar as compiled.

Every command accepts every parameter; those it has no use for are hidden from its help and
ignored. A grammar is given as a file (`-` for standard input) or inline with `-g`; an input as
a second file or inline with `-s`. With `-g`, a single file names the input.

A command line becomes a `Request`: the command and the settings it uses.
-/

namespace Tokenweave.Cli

namespace Params

/-- The grammar file, positional. -/
def grammarPath : Param :=
  { id := "grammar_path", valueName := "GRAMMAR", reader := .path,
    help := "Grammar file, or - for stdin" }

/-- The grammar, inline. -/
def grammarText : Param :=
  { id := "grammar_text", short := some 'g', long := some "grammar", valueName := "TEXT",
    help := "Inline grammar text" }

/-- The input file, positional. -/
def inputPath : Param :=
  { id := "input_path", valueName := "INPUT", reader := .path,
    help := "Input file, or - for stdin" }

/-- The input, inline. -/
def inputText : Param :=
  { id := "input_text", short := some 's', long := some "source", valueName := "TEXT",
    help := "Inline input text" }

/-- When to colour the output. -/
def color : Param :=
  { id := "color", long := some "color", valueName := "WHEN", default := some "auto",
    reader := .oneOf ["auto", "always", "never"], help := "Colorize output" }

/-- Show the spans of tree nodes. -/
def spans : Param :=
  { id := "spans", long := some "spans", action := .flag, help := "Show byte spans of tree nodes" }

/-- Print the tree as JSON. -/
def json : Param :=
  { id := "json", long := some "json", action := .flag, help := "Print the parse tree as JSON" }

/-- Print the JSON on one line. -/
def compact : Param :=
  { id := "compact", long := some "compact", action := .flag, requires := ["json"],
    help := "Print JSON on a single line" }

/-- How much of the trace to show. -/
def verbose : Param :=
  { id := "verbose", short := some 'v', action := .count,
    help := "Verbosity level (-v for verbose, -vv for very verbose)" }

/-- How many node visits a run may make. -/
def fuel : Param :=
  { id := "fuel", long := some "fuel", valueName := "N", default := some "100000000",
    reader := .count32, help := "Execution fuel limit (node visits)" }

/-- The same parameter, hidden from help. -/
def hide (p : Param) : Param := { p with hidden := true }

end Params

open Params in
/-- Compile a grammar and report what is wrong with it. -/
def checkCommand : Command where
  name := "check"
  about := "Validate a grammar"
  usage := "bnflex check <GRAMMAR>\n  bnflex check -g <TEXT>"
  afterHelp := some ("EXAMPLES:\n" ++
    "  bnflex check json.bnf                    # silent when valid\n" ++
    "  bnflex check -g 'root ::= \"a\" | \"b\"'     # inline grammar")
  params := [grammarPath, grammarText, color, hide inputPath, hide inputText, hide spans,
    hide json, hide compact, hide verbose, hide fuel]

open Params in
/-- Run a grammar over an input and print the tree. -/
def tokenizeCommand : Command where
  name := "tokenize"
  about := "Tokenize input and print the parse tree"
  usage := "bnflex tokenize <GRAMMAR> <INPUT>\n  bnflex tokenize <GRAMMAR> -s <TEXT>\n" ++
    "  bnflex tokenize -g <TEXT> <INPUT>"
  afterHelp := some ("EXAMPLES:\n" ++
    "  bnflex tokenize json.bnf data.json           # indented tree\n" ++
    "  bnflex tokenize json.bnf data.json --spans   # with byte spans\n" ++
    "  bnflex tokenize json.bnf - --json < a.json   # JSON tree from stdin\n" ++
    "  bnflex tokenize -g 'root ::= [0-9]+' -s 42   # all inline")
  params := [grammarPath, inputPath, grammarText, inputText, spans, json, compact, fuel, color,
    hide verbose]

open Params in
/-- Print every step of a run. -/
def traceCommand : Command where
  name := "trace"
  about := "Trace grammar matching for debugging"
  usage := "bnflex trace <GRAMMAR> <INPUT>\n  bnflex trace <GRAMMAR> -s <TEXT> [-v|-vv]"
  afterHelp := some ("EXAMPLES:\n" ++
    "  bnflex trace json.bnf -s '[1]'          # named nodes only\n" ++
    "  bnflex trace json.bnf -s '[1]' -vv      # every node, with lookahead\n" ++
    "  bnflex trace json.bnf big.json --fuel 10000")
  params := [grammarPath, inputPath, grammarText, inputText, verbose, fuel, color, hide spans,
    hide json, hide compact]

open Params in
/-- Print the grammar as compiled. -/
def dumpCommand : Command where
  name := "dump"
  about := "Show the compiled grammar graph"
  usage := "bnflex dump <GRAMMAR>\n  bnflex dump -g <TEXT>"
  params := [grammarPath, grammarText, color, hide inputPath, hide inputText, hide spans,
    hide json, hide compact, hide verbose, hide fuel]

/-- The tool. -/
def tool : Program where
  name := "bnflex"
  about := "Compile BNF grammars into tokenizers and run them"
  commands := [checkCommand, tokenizeCommand, traceCommand, dumpCommand]

/-- When output is coloured. -/
inductive ColorChoice where
  /-- When both outputs go to a terminal. -/
  | auto
  | always
  | never
  deriving Repr, DecidableEq

/-- Where a run takes its grammar and its input from. -/
structure Sources where
  grammarPath : Option String := none
  grammarText : Option String := none
  inputPath : Option String := none
  inputText : Option String := none
  deriving Repr, DecidableEq

/-- How a tree is printed. -/
structure TreeFormat where
  spans : Bool
  json : Bool
  compact : Bool
  deriving Repr, DecidableEq

/-- A command with the settings it uses. -/
inductive Request where
  | check (src : Sources) (color : ColorChoice)
  | tokenize (src : Sources) (format : TreeFormat) (fuel : Nat) (color : ColorChoice)
  | trace (src : Sources) (verbosity : Verbosity) (fuel : Nat) (color : ColorChoice)
  | dump (src : Sources) (color : ColorChoice)
  deriving Repr

namespace Request

/-- The colour setting of a command line. -/
def colorOf (m : Matches) : ColorChoice :=
  match m.text? "color" with
  | some "always" => .always
  | some "never" => .never
  | _ => .auto

/-- The fuel of a command line. -/
def fuelOf (m : Matches) : Nat := (m.number? "fuel").getD 100000000

/-- The grammar of a command line, and for commands that read an input, the input: with an
inline grammar, a single file names the input. -/
def sourcesOf (m : Matches) (shift : Bool) : Sources :=
  let grammarText := m.text? "grammar_text"
  let grammarPath := m.text? "grammar_path"
  let inputPath := m.text? "input_path"
  let moved := shift && grammarText.isSome && grammarPath.isSome && inputPath.isNone
  { grammarText
    grammarPath := if moved then none else grammarPath
    inputPath := if moved then grammarPath else inputPath
    inputText := if shift then m.text? "input_text" else none }

/-- The request of a command line. -/
def ofMatches (c : Command) (m : Matches) : Request :=
  match c.name with
  | "tokenize" =>
    .tokenize (sourcesOf m true) ⟨m.has "spans", m.has "json", m.has "compact"⟩ (fuelOf m)
      (colorOf m)
  | "trace" => .trace (sourcesOf m true) (Verbosity.ofCount (m.count "verbose")) (fuelOf m)
      (colorOf m)
  | "dump" => .dump (sourcesOf m false) (colorOf m)
  | _ => .check (sourcesOf m false) (colorOf m)

/-- The sources of a request. -/
def sources : Request → Sources
  | .check s _ | .tokenize s _ _ _ | .trace s _ _ _ | .dump s _ => s

end Request

end Tokenweave.Cli
