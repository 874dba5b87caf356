import Tokenweave.Cli.Help
import Tokenweave.Cli.Error
import Tokenweave.Cli.Similar
import Tokenweave.Cli.Number
/-!
# Reading a command line

The first word names the command; the words after it are read against the command's
parameters, left to right:

* `--` makes every later word positional;
* `--name` or `--name=value` is a long parameter, `-abc` a cluster of short ones, where a short
  option takes the rest of the cluster (without a leading `=`) or else the next word as its
  value;
* any other word is the value an option waits for, or else the next positional argument.

A parameter's values are stored, and checked by its reader, only when the next parameter is
met or the line ends, so an error about a value shows up at that point; an unknown argument
is reported before the values still waiting. Giving a parameter twice is an error, except for
counted flags. The help flag stops reading and prints the help, as does the command `help`.
When the line ends, every parameter that a given one requires must have been given too.
-/

namespace Tokenweave.Cli

/-- What was given for a parameter. -/
inductive Given where
  | text (s : String)
  | number (n : Nat)
  | flag
  | count (n : Nat)
  deriving Repr, DecidableEq

/-- The parameters a command line gave, by id, in the order they were stored. -/
structure Matches where
  given : List (String × Given) := []
  deriving Repr

namespace Matches

/-- Whether a parameter was given. -/
def has (m : Matches) (id : String) : Bool := (m.given.lookup id).isSome

/-- The text given for a parameter. -/
def text? (m : Matches) (id : String) : Option String :=
  match m.given.lookup id with
  | some (.text s) => some s
  | _ => none

/-- The number given for a parameter. -/
def number? (m : Matches) (id : String) : Option Nat :=
  match m.given.lookup id with
  | some (.number n) => some n
  | _ => none

/-- How often a counted flag was given. -/
def count (m : Matches) (id : String) : Nat :=
  match m.given.lookup id with
  | some (.count n) => n
  | _ => 0

end Matches

/-- Why reading a command line stopped without a command to run. -/
inductive Stop where
  /-- Help was asked for: it goes to standard output, and the program succeeds. -/
  | help (text : String)
  /-- Nothing was asked for: the help goes to standard error, and the program fails. -/
  | helpInstead (text : String)
  /-- The command line is wrong; `hint` points to `--help`, when the command has it. -/
  | error (e : UsageError) (hint : Bool := true)
  deriving Repr, DecidableEq

/-- Reading the words of one command. -/
structure Scan where
  found : Matches := {}
  /-- A parameter met, with the values it has so far, not yet stored. -/
  pending : Option (Param × List String) := none
  /-- Whether the pending option still waits for its value. -/
  waiting : Bool := false
  /-- How many positional arguments were taken. -/
  position : Nat := 0
  /-- Whether `--` was met. -/
  escaped : Bool := false
  deriving Repr

/-- Read a value by a parameter's reader. -/
def Param.read (p : Param) (v : String) : Except UsageError Given :=
  match p.reader with
  | .text => .ok (.text v)
  | .path => if v.isEmpty then .error (.invalidValue p.display "" [] none) else .ok (.text v)
  | .oneOf words =>
    if words.contains v then .ok (.text v)
    else .error (.invalidValue p.display v words (mostSimilar? v words))
  | .count32 =>
    match readSigned v with
    | .error e => .error (.refusedValue p.display v e.message)
    | .ok i =>
      if 0 ≤ i ∧ i ≤ countLimit then .ok (.number i.toNat)
      else
        .error (.refusedValue p.display (toString i)
          (toString i ++ " is not in 0..=" ++ toString countLimit))

namespace Scan

/-- Record what was given for a parameter. -/
def put (s : Scan) (id : String) (g : Given) : Scan :=
  { s with found := { given := s.found.given ++ [(id, g)] } }

/-- Store a parameter with its values. -/
def store (c : Command) (s : Scan) (p : Param) (values : List String) : Except Stop Scan :=
  match p.action with
  | .help => .error (.help c.helpText)
  | .count =>
    let n := min 255 (s.found.count p.id + 1)
    .ok ({ s with found := { given := s.found.given.filter (·.1 != p.id) } }.put p.id (.count n))
  | .flag =>
    if s.found.has p.id then .error (.error (.repeated p.display c.usage))
    else .ok (s.put p.id .flag)
  | .store | .collect =>
    match values with
    | [] =>
      let words := match p.reader with
        | .oneOf ws => ws
        | _ => []
      .error (.error (.invalidValue p.display "" words none))
    | v :: _ =>
      if s.found.has p.id then .error (.error (.repeated p.display c.usage))
      else
        match p.read v with
        | .ok g => .ok (s.put p.id g)
        | .error e => .error (.error e)

/-- Store the pending parameter, if there is one. -/
def settle (c : Command) (s : Scan) : Except Stop Scan :=
  match s.pending with
  | none => .ok s
  | some (p, values) => store c { s with pending := none, waiting := false } p values

/-- Meet a parameter that is complete: store the pending one, then this one. -/
def give (c : Command) (s : Scan) (p : Param) (values : List String) : Except Stop Scan := do
  store c (← settle c s) p values

/-- Meet an option that waits for its value. -/
def expect (c : Command) (s : Scan) (p : Param) : Except Stop Scan := do
  let s ← settle c s
  pure { s with pending := some (p, []), waiting := true }

/-- An argument no parameter accepts. -/
def unknown (c : Command) (arg : String) (offer : Option Offer) (valueTip : Bool) : Stop :=
  .error (.unknownArgument arg offer valueTip c.usage)

/-- Read a cluster of short parameters. -/
def shorts (c : Command) (s : Scan) : List Char → Except Stop Scan
  | [] => .ok s
  | ch :: rest =>
    match c.findShort? ch with
    | none => .error (unknown c ("-" ++ ch.toString) none (!c.positionals.isEmpty))
    | some p =>
      if p.takesValue then
        match rest with
        | [] => expect c s p
        | '=' :: v => give c s p [String.ofList v]
        | v => give c s p [String.ofList v]
      else do
        shorts c (← give c s p []) rest

/-- Read a long parameter, given as `--name` or `--name=value`. -/
def long (c : Command) (s : Scan) (name : String) (value : Option String) : Except Stop Scan :=
  match c.findLong? name with
  | none =>
    match mostSimilar? name c.longNames with
    | some l => .error (unknown c ("--" ++ name) (some (.argument ("--" ++ l))) false)
    | none => .error (unknown c ("--" ++ name) none (!c.positionals.isEmpty))
  | some p =>
    if p.takesValue then
      match value with
      | some v => give c s p [v]
      | none => expect c s p
    else
      match value with
      | some v => .error (.error (.unexpectedValue p.display v c.usage))
      | none => give c s p []

/-- Split `name=value` at the first `=`. -/
def splitValue (body : String) : String × Option String :=
  match body.toList.idxOf? '=' with
  | some i => (String.ofList (body.toList.take i), some (String.ofList (body.toList.drop (i + 1))))
  | none => (body, none)

/-- Read one word. -/
def word (c : Command) (s : Scan) (w : String) : Except Stop Scan :=
  if !s.escaped && w == "--" then .ok { s with escaped := true }
  else if !s.escaped && w.startsWith "--" then
    let (name, value) := splitValue (w.drop 2).toString
    long c s name value
  else if !s.escaped && w.startsWith "-" && w != "-" then shorts c s (w.drop 1).toString.toList
  else if !s.escaped && s.waiting then
    match s.pending with
    | some (p, values) => .ok { s with pending := some (p, values ++ [w]), waiting := false }
    | none => .ok s
  else
    match c.positionals[s.position]? with
    | some p => do
      let s ← settle c s
      pure { s with pending := some (p, [w]), position := s.position + 1 }
    | none => .error (unknown c w none false)

/-- Read all words. -/
def words (c : Command) : Scan → List String → Except Stop Scan
  | s, [] => .ok s
  | s, w :: rest => do words c (← word c s w) rest

end Scan

/-- The ids of the parameters that given ones require and that were not given, in the order
of the parameters. -/
def Command.missing (c : Command) (m : Matches) : List String :=
  let wanted := (c.allParams.filter (m.has ·.id)).flatMap (·.requires)
  (c.allParams.filter fun p => wanted.contains p.id && !m.has p.id).map (·.display)

/-- Read the words after a command's name. -/
def Command.parse (c : Command) (args : List String) : Except Stop Matches := do
  let s ← Scan.words c {} args
  let s ← Scan.settle c s
  match c.missing s.found with
  | [] => pure s.found
  | ms => throw (.error (.missing ms c.usage))

namespace Program

/-- The command `help`: follow the names to a command and print its help. -/
def helpFor (p : Program) : List String → Stop
  | [] => .help p.helpText
  | name :: rest =>
    match p.find? name with
    | none => .error (.unknownCommand name [] p.usage)
    | some c =>
      match rest with
      | [] => .help c.helpText
      | w :: _ => .error (.unknownCommand w [] c.usage) c.helpFlag

/-- An unknown long parameter before the command: offer the program's own, which the usage
then shows as given, or else a long parameter of the command named earliest among the later
words. -/
def unknownLong (p : Program) (name : String) (later : List String) : Stop :=
  match mostSimilar? name ["help"] with
  | some l =>
    .error (.unknownArgument ("--" ++ name) (some (.argument ("--" ++ l))) false
      (p.usageWith ("--" ++ l)))
  | none =>
    let offers := p.commands.filterMap fun c =>
      match mostSimilar? name c.longNames, later.idxOf? c.name with
      | some l, some i => some (i, c.name, l)
      | _, _ => none
    let best := offers.foldl (fun (b : Option (Nat × String × String)) o =>
      match b with
      | some x => if o.1 < x.1 then some o else some x
      | none => some o) none
    match best with
    | some (_, c, l) => .error (.unknownArgument ("--" ++ name) (some (.inCommand c ("--" ++ l))) false p.usage)
    | none => .error (.unknownArgument ("--" ++ name) none false p.usage)

/-- Read words before the command's name. -/
def parseFrom (p : Program) (escaped : Bool) : List String → Except Stop (Command × Matches)
  | [] => .error (.helpInstead p.helpText)
  | w :: rest =>
    if !escaped && w == "help" then .error (p.helpFor rest)
    else if !escaped && (p.find? w).isSome then
      match p.find? w with
      | some c => do pure (c, ← c.parse rest)
      | none => .error (.helpInstead p.helpText)
    else if !escaped && w == "--" then p.parseFrom true rest
    else if !escaped && w.startsWith "--" then
      let (name, value) := Scan.splitValue (w.drop 2).toString
      if name == "help" then
        match value with
        | some v => .error (.error (.unexpectedValue "--help" v (p.usageWith "--help")))
        | none => .error (.help p.helpText)
      else .error (p.unknownLong name rest)
    else if !escaped && w.startsWith "-" && w != "-" then
      match (w.drop 1).toString.toList with
      | 'h' :: _ => .error (.help p.helpText)
      | ch :: _ => .error (.error (.unknownArgument ("-" ++ ch.toString) none false p.usage))
      | [] => .error (.helpInstead p.helpText)
    else if escaped && (p.find? w).isSome then .error (.error (.commandAfterEscape w p.usage))
    else .error (.error (.unknownCommand w (similar w p.commandNames) p.usage))

/-- Read a command line: the command it names and what it gave, or why it stopped. -/
def parse (p : Program) (args : List String) : Except Stop (Command × Matches) :=
  p.parseFrom false args

end Program

end Tokenweave.Cli
