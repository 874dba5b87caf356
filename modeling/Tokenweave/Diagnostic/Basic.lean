import Tokenweave.Lexer
import Tokenweave.Dialect.Error
/-!
# Error reports

A report is an error message together with a span of a source that it points at and a label
written under the span. Rejected input and grammar text that does not follow the notation are
reported this way; the other grammar errors have no position and no report.
-/

namespace Tokenweave

/-- An error message pointing at the bytes `start`..`stop` of a source, with a label for the
span. -/
structure Diagnostic where
  message : String
  start : Nat
  stop : Nat
  label : String
  deriving Repr, DecidableEq

namespace Diagnostic

/-- A report whose label repeats its message. -/
def error (start stop : Nat) (message : String) : Diagnostic :=
  ⟨message, start, stop, message⟩

/-- The same report with another label. -/
def withLabel (d : Diagnostic) (label : String) : Diagnostic := { d with label }

/-- The report of rejected input, at its position (the start, for faults without one). -/
def ofRejection (r : Rejection) : Diagnostic :=
  match r with
  | .noMatch pos found =>
    (error pos pos "input does not match the grammar").withLabel ("unexpected " ++ found)
  | .incomplete _ pos found =>
    (error pos pos "input not fully consumed").withLabel ("unexpected " ++ found)
  | .fault f =>
    let pos := r.position?.getD 0
    (error pos pos f.message).withLabel "matching stopped here"

/-- The report of a grammar error that points into the grammar text. -/
def ofGrammarError? : GrammarError → Option Diagnostic
  | .unexpected _ _ pos found =>
    some ((error pos pos "invalid grammar syntax").withLabel ("unexpected " ++ found))
  | _ => none

end Diagnostic

end Tokenweave
