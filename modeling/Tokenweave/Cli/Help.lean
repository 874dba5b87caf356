import Tokenweave.Cli.Spec
/-!
# Help texts

The help of a command is its description, its usage, a section for the positional arguments
and one for the other parameters, and the closing text; blank lines separate them. Hidden
parameters are left out. The help of a program lists its commands in place of the arguments.

In a section each parameter has one line: two spaces, the parameter, then its help text in a
column shared by the section, two spaces right of the widest entry. An option without a short
name is indented as if it had one, so long names line up. The help text ends with the default
value and the allowed words, if the parameter has them. Lines are never wrapped.
-/

namespace Tokenweave.Cli

namespace Param

/-- The help text with the default value and the allowed words. -/
def helpWithValues (p : Param) : String :=
  let default := match p.default with
    | some d => if p.takesValue then ["[default: " ++ d ++ "]"] else []
    | none => []
  let words := match p.reader with
    | .oneOf ws => ["[possible values: " ++ ", ".intercalate ws ++ "]"]
    | _ => []
  let extra := " ".intercalate (default ++ words)
  if extra.isEmpty then p.help
  else if p.help.isEmpty then extra
  else p.help ++ " " ++ extra

/-- The width an option claims in its section: its name and suffix and room for a short
name. Only options with a value or a long name claim room; a bare short flag fits anyway. -/
def claim (p : Param) : Option Nat :=
  if p.isPositional then some p.display.length
  else if p.takesValue || p.long.isSome || p.short.isNone then some (p.display.length + 4)
  else none

/-- The parameter as the help lists it: short and long name, then the suffix. -/
def listed (p : Param) : String :=
  if p.isPositional then p.display
  else
    let short := match p.short, p.long with
      | some c, _ => "-" ++ c.toString
      | none, some _ => "    "
      | none, none => ""
    let long := match p.long with
      | some l => (if p.short.isSome then ", " else "") ++ "--" ++ l
      | none => ""
    short ++ long ++ p.suffix

/-- The line of the parameter in a section whose widest entry is `widest`. -/
def helpLine (p : Param) (widest : Nat) : String :=
  let listed := p.listed
  let column := widest + 4
  "  " ++ listed ++ "".pushn ' ' (column - 2 - listed.length) ++ p.helpWithValues

end Param

/-- A section of parameters under a heading. -/
def helpSection (heading : String) (ps : List Param) : String :=
  let widest := ps.foldl (fun w p => max w ((p.claim).getD 0)) 2
  heading ++ ":\n" ++ "\n".intercalate (ps.map (·.helpLine widest))

/-- Finish a help text: no trailing blanks, one final newline. -/
def finish (text : String) : String := (text.trimAsciiEnd.toString) ++ "\n"

/-- The help of a command. -/
def Command.helpText (c : Command) : String :=
  let shown := c.allParams.filter (!·.hidden)
  let args := shown.filter Param.isPositional
  let opts := shown.filter (!·.isPositional)
  let sections := (if args.isEmpty then [] else [helpSection "Arguments" args]) ++
    (if opts.isEmpty then [] else [helpSection "Options" opts])
  let after := match c.afterHelp with
    | some a => "\n\n" ++ a
    | none => ""
  finish (c.about ++ "\n\nUsage: " ++ c.usage ++ "\n\n" ++ "\n\n".intercalate sections ++ after)

/-- The help of a program. -/
def Program.helpText (p : Program) : String :=
  let entries := p.commands.map (fun c => (c.name, c.about)) ++ [("help", Program.helpAbout)]
  let widest := entries.foldl (fun w e => max w e.1.length) 2
  let lines := entries.map fun (n, a) => "  " ++ n ++ "".pushn ' ' (widest + 2 - n.length) ++ a
  finish (p.about ++ "\n\nUsage: " ++ p.usage ++ "\n\nCommands:\n" ++ "\n".intercalate lines ++
    "\n\n" ++ helpSection "Options" [Param.helpFlag])

end Tokenweave.Cli
