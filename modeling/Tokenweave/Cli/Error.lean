/-!
# Command-line errors

An error of the command line is one line saying what is wrong, then, each after a blank line,
any tips, the usage of the command where it helps, and a pointer to `--help`:

```
error: unexpected argument '-1' found

  tip: to pass '-1' as a value, use '-- -1'

Usage: tool run <FILE>

For more information, try '--help'.
```

Values, arguments and words are quoted with single quotes. Errors about one value (a bad
number, a word not in the list) carry no usage, since the usage would not help.
-/

namespace Tokenweave.Cli

/-- A known word offered in place of an unknown one. -/
inductive Offer where
  /-- A similar argument of the same command. -/
  | argument (name : String)
  /-- A similar argument of another command that is named later on the line. -/
  | inCommand (command name : String)
  deriving Repr, DecidableEq

/-- What is wrong with a command line. -/
inductive UsageError where
  /-- An argument that no parameter accepts. `valueTip` offers passing it after `--`. -/
  | unknownArgument (arg : String) (offer : Option Offer) (valueTip : Bool) (usage : String)
  /-- A word where a command was expected, with the similar command names. -/
  | unknownCommand (word : String) (similar : List String) (usage : String)
  /-- A command name after `--`, where it cannot be a command. -/
  | commandAfterEscape (word : String) (usage : String)
  /-- A value that is not one of the allowed words, or is empty where a value is required. -/
  | invalidValue (param value : String) (allowed : List String) (offer : Option String)
  /-- A value that a reader refused for a reason. -/
  | refusedValue (param value reason : String)
  /-- A parameter given twice that may be given once. -/
  | repeated (param : String) (usage : String)
  /-- A value attached to a flag, which takes none. -/
  | unexpectedValue (param value : String) (usage : String)
  /-- Parameters that must be given and were not. -/
  | missing (params : List String) (usage : String)
  deriving Repr, DecidableEq

namespace UsageError

/-- The first line, without the leading `error: `. -/
def headline : UsageError → String
  | .unknownArgument arg _ _ _ => "unexpected argument '" ++ arg ++ "' found"
  | .unknownCommand word _ _ => "unrecognized subcommand '" ++ word ++ "'"
  | .commandAfterEscape word _ => "unexpected argument '" ++ word ++ "' found"
  | .invalidValue param value allowed _ =>
    let head :=
      if value.isEmpty then "a value is required for '" ++ param ++ "' but none was supplied"
      else "invalid value '" ++ value ++ "' for '" ++ param ++ "'"
    if allowed.isEmpty then head
    else head ++ "\n  [possible values: " ++ ", ".intercalate allowed ++ "]"
  | .refusedValue param value reason =>
    "invalid value '" ++ value ++ "' for '" ++ param ++ "': " ++ reason
  | .repeated param _ => "the argument '" ++ param ++ "' cannot be used multiple times"
  | .unexpectedValue param value _ =>
    "unexpected value '" ++ value ++ "' for '" ++ param ++ "' found; no more were expected"
  | .missing params _ =>
    "the following required arguments were not provided:" ++
      String.join (params.map ("\n  " ++ ·))

/-- The quoted list of offered words. -/
def quoteAll (words : List String) : String := ", ".intercalate (words.map fun w => "'" ++ w ++ "'")

/-- The tips, each a line of its own. -/
def tips : UsageError → List String
  | .unknownArgument arg offer valueTip _ =>
    let offered := match offer with
      | some (.argument name) => ["a similar argument exists: '" ++ name ++ "'"]
      | _ => []
    let passing := if valueTip then ["to pass '" ++ arg ++ "' as a value, use '-- " ++ arg ++ "'"]
      else []
    let elsewhere := match offer with
      | some (.inCommand command name) => ["'" ++ command ++ " " ++ name ++ "' exists"]
      | _ => []
    offered ++ passing ++ elsewhere
  | .unknownCommand _ similar _ =>
    match similar with
    | [] => []
    | [w] => ["a similar subcommand exists: '" ++ w ++ "'"]
    | ws => ["some similar subcommands exist: " ++ quoteAll ws]
  | .commandAfterEscape word _ =>
    ["subcommand '" ++ word ++ "' exists; to use it, remove the '--' before it"]
  | .invalidValue _ _ _ (some w) => ["a similar value exists: '" ++ w ++ "'"]
  | _ => []

/-- The usage lines shown with the error, if any. -/
def usage? : UsageError → Option String
  | .unknownArgument _ _ _ u | .unknownCommand _ _ u | .commandAfterEscape _ u
  | .repeated _ u | .unexpectedValue _ _ u | .missing _ u => some u
  | .invalidValue .. | .refusedValue .. => none

/-- The whole error text; `hint` adds the pointer to `--help`. -/
def render (e : UsageError) (hint : Bool := true) : String :=
  let tips := match e.tips with
    | [] => ""
    | ts => "\n" ++ String.join (ts.map ("\n  tip: " ++ ·))
  let usage := match e.usage? with
    | some u => "\n\nUsage: " ++ u
    | none => ""
  "error: " ++ e.headline ++ tips ++ usage ++
    (if hint then "\n\nFor more information, try '--help'.\n" else "\n")

end UsageError

end Tokenweave.Cli
