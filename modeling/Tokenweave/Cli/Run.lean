import Tokenweave.Cli.Commands
import Tokenweave.Dialect.Compile
import Tokenweave.Diagnostic.Render
import Tokenweave.Tree.Printer
import Tokenweave.Tree.Json
import Tokenweave.Grammar.Dump
/-!
# Running the tool

A run reads its grammar and input, compiles the grammar, and writes to standard output and
standard error; its outcome is those two texts and an exit code. The world a run sees is a
`Host`: standard input, the files it may read, and whether its outputs are terminals.

Exit codes: 0 for success and for help that was asked for, 1 for a grammar or an input that is
wrong, 2 for a command line that is wrong and for a run stopped by its limits.

Loading takes inline text before a file. A grammar's lines are joined by newlines, so a final
newline and the carriage returns before newlines are dropped; an input is taken as it is.
Standard input can be read once, so grammar and input cannot both come from it.
-/

namespace Tokenweave.Cli

/-- What a run sees of the world. -/
structure Host where
  /-- The text of standard input, or the reason it cannot be read. -/
  stdin : Except String String := .ok ""
  /-- The text of a file, or the reason it cannot be read. -/
  read : String → Except String String
  /-- Whether standard output and standard error both go to a terminal. -/
  terminal : Bool := false

/-- What a run leaves behind. -/
structure Outcome where
  code : Nat
  stdout : String := ""
  stderr : String := ""
  deriving Repr, DecidableEq

/-- Why a grammar or an input could not be loaded. -/
inductive LoadError where
  | missingGrammar
  | missingInput
  | stdinTwice
  | unreadable (path reason : String)
  deriving Repr, DecidableEq

/-- The text of a load error. -/
def LoadError.message : LoadError → String
  | .missingGrammar => "grammar is required: use a positional argument or -g/--grammar"
  | .missingInput => "input is required: use a positional argument or -s/--source"
  | .stdinTwice => "grammar and input cannot both be read from stdin"
  | .unreadable path reason => "failed to read '" ++ path ++ "': " ++ reason

/-- A grammar and the name diagnostics show for it. -/
structure GrammarText where
  text : String
  origin : Option String
  deriving Repr, DecidableEq

namespace Host

/-- Whether colours are used. -/
def colored (host : Host) : ColorChoice → Bool
  | .always => true
  | .never => false
  | .auto => host.terminal

/-- Read a file, `-` being standard input. -/
def load (host : Host) (path : String) : Except LoadError String :=
  if path == "-" then host.stdin.mapError (.unreadable "<stdin>")
  else
    match host.read path with
    | .ok text => .ok text
    | .error reason => .error (.unreadable path reason)

/-- Load the grammar of a run. -/
def grammar (host : Host) (src : Sources) : Except LoadError GrammarText :=
  match src.grammarText, src.grammarPath with
  | some text, _ => .ok ⟨Dialect.normalizeLines text, none⟩
  | none, none => .error .missingGrammar
  | none, some path => do
    let text ← host.load path
    pure ⟨Dialect.normalizeLines text, some (if path == "-" then "<stdin>" else path)⟩

/-- Load the input of a run. -/
def input (host : Host) (src : Sources) : Except LoadError String :=
  match src.inputText, src.inputPath with
  | some text, _ => .ok text
  | none, none => .error .missingInput
  | none, some path =>
    if path == "-" && src.grammarPath == some "-" then .error .stdinTwice
    else host.load path

end Host

namespace Outcome

/-- A run that failed while loading. -/
def unloaded (e : LoadError) : Outcome := { code := 1, stderr := "error: " ++ e.message ++ "\n" }

/-- A run whose grammar does not compile. -/
def uncompiled (g : GrammarText) (e : GrammarError) (colored : Bool) : Outcome :=
  let text := match Diagnostic.ofGrammarError? e with
    | some d => d.render g.text g.origin colored
    | none => "error: " ++ e.message
  { code := if e matches .runtime _ then 2 else 1, stderr := text ++ "\n" }

/-- A run whose input was refused, reported against the input. -/
def refused (r : Rejection) (input : String) (origin : Option String) (colored : Bool)
    (stdout : String := "") : Outcome :=
  let origin := origin.map fun p => if p == "-" then "<stdin>" else p
  { code := if r matches .fault _ then 2 else 1, stdout,
    stderr := (Diagnostic.ofRejection r).render input origin colored ++ "\n" }

end Outcome

/-- Load the grammar and compile it, then go on with the lexer. -/
def withLexer (host : Host) (src : Sources) (colored : Bool) (k : Lexer → Outcome) :
    Outcome :=
  match host.grammar src with
  | .error e => .unloaded e
  | .ok g =>
    match Dialect.compile g.text with
    | .error e => .uncompiled g e colored
    | .ok lx => k lx

/-- Load the grammar and the input and compile the grammar, then go on. -/
def withInput (host : Host) (src : Sources) (colored : Bool) (k : Lexer → String → Outcome) :
    Outcome :=
  match host.grammar src with
  | .error e => .unloaded e
  | .ok g =>
    match host.input src with
    | .error e => .unloaded e
    | .ok input =>
      match Dialect.compile g.text with
      | .error e => .uncompiled g e colored
      | .ok lx => k lx input

namespace Request

/-- Run a request. -/
def run (host : Host) : Request → Outcome
  | .check src color => withLexer host src (host.colored color) fun _ => { code := 0 }
  | .dump src color =>
    withLexer host src (host.colored color) fun lx => { code := 0, stdout := lx.grammar.dump lx.root }
  | .tokenize src format fuel color =>
    let colored := host.colored color
    withInput host src colored fun lx input =>
      match (lx.withLimits { fuel }).tokenize input with
      | .error r => .refused r input src.inputPath colored
      | .ok t =>
        if format.json then { code := 0, stdout := t.jsonText t.root (!format.compact) ++ "\n" }
        else { code := 0, stdout := t.printFrom t.root format.spans true (Palette.choose colored) }
  | .trace src verbosity fuel color =>
    let colored := host.colored color
    withInput host src colored fun lx input =>
      let (result, events) := (lx.withLimits { fuel }).run input true
      let tracer : Tracer :=
        { grammar := lx.grammar, source := input, verbosity, palette := Palette.choose colored }
      let out := String.join ((tracer.lines events).map (· ++ "\n"))
      match result with
      | .ok _ => { code := 0, stdout := out }
      | .error (.fault f) => { code := 2, stdout := out, stderr := "runtime error: " ++ f.message ++ "\n" }
      | .error r => .refused r input src.inputPath colored out

end Request

/-- What a stop of the command line leaves behind. -/
def Stop.outcome : Stop → Outcome
  | .help text => { code := 0, stdout := text }
  | .helpInstead text => { code := 2, stderr := text }
  | .error e hint => { code := 2, stderr := e.render hint }

/-- Read a command line against the tool. -/
def request (args : List String) : Except Stop Request :=
  (tool.parse args).map fun (c, m) => Request.ofMatches c m

/-- The files a request may read, standard input aside. -/
def Request.files (r : Request) : List String :=
  let src := r.sources
  let grammar := if src.grammarText.isSome then [] else src.grammarPath.toList
  let input := if src.inputText.isSome then [] else src.inputPath.toList
  (grammar ++ input).filter (· != "-")

/-- Whether a request may read standard input. -/
def Request.readsStdin (r : Request) : Bool :=
  r.sources.grammarPath == some "-" || r.sources.inputPath == some "-"

/-- Run the tool on a command line. -/
def runTool (host : Host) (args : List String) : Outcome :=
  match request args with
  | .error s => s.outcome
  | .ok r => r.run host

end Tokenweave.Cli
