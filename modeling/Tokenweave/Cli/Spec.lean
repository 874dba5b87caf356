/-!
# Declaring a command line

A program is a name, a one-line description and a list of commands; a command is a name, a
description, its usage lines, an optional closing text for its help, and its parameters.

A parameter is a positional argument, a flag or an option. What the parser does when it meets
one is decided by its `Action` alone: store a value, note that the flag was given, count how
often it was given, or stop and print help. A value text is checked by its `Reader` when it is
stored. A hidden parameter is accepted like any other and left out of the help.

The help parameter (`-h`, `--help`) is part of every command and of the program itself, and is
not declared.
-/

namespace Tokenweave.Cli

/-- What giving a parameter does. -/
inductive Action where
  /-- Store one value. -/
  | store
  /-- Note that the flag was given; giving it twice is an error. -/
  | flag
  /-- Count how often the flag was given. -/
  | count
  /-- Stop and print the help. -/
  | help
  /-- Collect any number of values. -/
  | collect
  deriving Repr, DecidableEq

/-- How the text of a value is read. -/
inductive Reader where
  /-- Any text, the empty text included. -/
  | text
  /-- A file path: any text but the empty one. -/
  | path
  /-- One of a fixed list of words. -/
  | oneOf (words : List String)
  /-- A decimal number from 0 to 4294967295. -/
  | count32
  deriving Repr, DecidableEq

/-- One parameter of a command. A parameter with neither a short nor a long name is
positional. -/
structure Param where
  id : String
  short : Option Char := none
  long : Option String := none
  /-- The name of the value in help and errors. -/
  valueName : String := ""
  action : Action := .store
  reader : Reader := .text
  help : String
  hidden : Bool := false
  /-- The value assumed when the parameter is not given, as help shows it. -/
  default : Option String := none
  /-- Parameters that must be given too when this one is. -/
  requires : List String := []
  deriving Repr

namespace Param

/-- Whether the parameter is positional. -/
def isPositional (p : Param) : Bool := p.short.isNone && p.long.isNone

/-- Whether the parameter takes a value. -/
def takesValue (p : Param) : Bool := p.action == .store || p.action == .collect

/-- What follows the name: the value name in angle brackets for an option, `...` for a
counted flag. A positional argument is optional and shows its value name in brackets, followed
by `...` when it collects many values. -/
def suffix (p : Param) : String :=
  if p.isPositional then
    "[" ++ p.valueName ++ "]" ++ (if p.action == .collect then "..." else "")
  else if p.takesValue then " <" ++ p.valueName ++ ">"
  else if p.action == .count then "..."
  else ""

/-- The parameter as help and errors name it: its long name, or else its short name, and the
suffix. -/
def display (p : Param) : String :=
  let head := match p.long, p.short with
    | some l, _ => "--" ++ l
    | none, some c => "-" ++ c.toString
    | none, none => ""
  head ++ p.suffix

/-- The help parameter of every command. -/
def helpFlag : Param :=
  { id := "help", short := some 'h', long := some "help", action := .help, help := "Print help" }

end Param

/-- One command of a program. -/
structure Command where
  name : String
  about : String
  /-- The usage lines, as written after `Usage: `. -/
  usage : String
  /-- Text closing the help. -/
  afterHelp : Option String := none
  /-- The declared parameters, in order; the help flag comes after them. -/
  params : List Param
  /-- Whether the command has the help flag. -/
  helpFlag : Bool := true
  deriving Repr

namespace Command

/-- All parameters, the help flag last. -/
def allParams (c : Command) : List Param :=
  if c.helpFlag then c.params ++ [Param.helpFlag] else c.params

/-- The positional parameters, in order. -/
def positionals (c : Command) : List Param := c.params.filter Param.isPositional

/-- The parameter with this long name. -/
def findLong? (c : Command) (name : String) : Option Param :=
  c.allParams.find? (·.long == some name)

/-- The parameter with this short name. -/
def findShort? (c : Command) (ch : Char) : Option Param :=
  c.allParams.find? (·.short == some ch)

/-- The long names, in order. -/
def longNames (c : Command) : List String := c.allParams.filterMap (·.long)

/-- The parameter with this id. -/
def find? (c : Command) (id : String) : Option Param := c.allParams.find? (·.id == id)

end Command

/-- A program: a name, a description and its commands. Besides its commands a program has the
command `help`, which prints the help of the program or of one of its commands. -/
structure Program where
  name : String
  about : String
  commands : List Command
  deriving Repr

namespace Program

/-- The usage line of the program. -/
def usage (p : Program) : String := p.name ++ " <COMMAND>"

/-- The usage line of the program with an argument shown as given. -/
def usageWith (p : Program) (arg : String) : String := p.name ++ " " ++ arg ++ " <COMMAND>"

/-- The description of the `help` command. -/
def helpAbout : String := "Print this message or the help of the given subcommand(s)"

/-- The command `help`, which takes the names of commands whose help to print. -/
def helpCommand (p : Program) : Command where
  name := "help"
  about := helpAbout
  usage := p.name ++ " help [COMMAND]..."
  params := [
    { id := "subcommand"
      valueName := "COMMAND"
      action := .collect
      help := "Print help for the subcommand(s)" }]
  helpFlag := false

/-- The names of all commands, `help` last. -/
def commandNames (p : Program) : List String := p.commands.map (·.name) ++ ["help"]

/-- The command of this name, `help` included. -/
def find? (p : Program) (name : String) : Option Command :=
  if name == "help" then some p.helpCommand else p.commands.find? (·.name == name)

end Program

end Tokenweave.Cli
