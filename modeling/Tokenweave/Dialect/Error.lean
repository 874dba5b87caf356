import Tokenweave.Grammar.Validate
import Tokenweave.Match.Basic
/-!
# Why grammar text does not compile

Each cause of failure is a constructor; the wording of its report is in `GrammarError.message`.
-/

namespace Tokenweave

/-- Why grammar text did not compile. -/
inductive GrammarError where
  /-- The text does not follow the notation: at `position` (line and column for people),
  where `found` stands. -/
  | unexpected (line column position : Nat) (found : String)
  /-- No rule is called `root`. -/
  | missingRoot
  /-- Rules that only stand for each other and never reach a body. -/
  | circularReference (chain : List String)
  /-- A rule name with no definition, and the rule it was used in. -/
  | undefinedRule (name referencedFrom : String)
  /-- A rule defined twice. -/
  | duplicateRule (name : String)
  /-- A range whose first character comes after its last. -/
  | invalidRange (lo hi : Char)
  /-- The compiled graph could match forever. -/
  | configuration (d : Defect)
  /-- Parsing the text itself ran into a limit. -/
  | runtime (f : Fault)
  /-- The text could not be read. -/
  | unreadable (path reason : String)
  deriving Repr, DecidableEq

/-- The report for a grammar error. -/
def GrammarError.message : GrammarError → String
  | .unexpected line column _ found =>
    "syntax error at " ++ toString line ++ ":" ++ toString column ++ ": unexpected " ++ found
  | .missingRoot => "grammar has no `root` rule"
  | .circularReference chain => "circular reference: " ++ " -> ".intercalate chain
  | .undefinedRule name referencedFrom =>
    "undefined rule `" ++ name ++ "` referenced from `" ++ referencedFrom ++ "`"
  | .duplicateRule name => "rule `" ++ name ++ "` is defined more than once"
  | .invalidRange lo hi =>
    "invalid range: `" ++ lo.toString ++ "` is after `" ++ hi.toString ++ "`"
  | .configuration d => d.message
  | .runtime f => "grammar could not be parsed: " ++ f.message
  | .unreadable path reason => "failed to read " ++ path ++ ": " ++ reason

end Tokenweave
