import Tokenweave.Dialect.Rules
import Tokenweave.Tree.Edit
import Tokenweave.Tree.Query
/-!
# Lowering a parsed grammar to a graph

The parse tree of grammar text, once culled, is turned into a grammar graph and a rule table by
passes over the tree, each over the nodes it works on, gathered once, children first:

1. escapes: the backslash of each escape gets an empty value, and an escaped `n`, `t` or `r`
   becomes a newline, tab or carriage return; any other escaped character stands for itself;
2. flattening: every `statementOpt` wrapper is spliced into its statement;
3. atoms: every token becomes a grammar node (a literal, a class, a range, the end of input or a
   reference, wrapped by its operators), attached to the token as its payload;
4. rules: in each sentence the groups are folded, innermost first, and then the body. A body that
   is a bare reference stays unnamed, as an alias; any other body takes the rule's name.

Folding a statement splits its elements at `|` into alternatives; an alternative of one element is
that element and of several a sequence, and several alternatives make a choice.

Every rule name gets one shared reference node; linking the rules later replaces the references.
A non-empty literal is named by its text after an apostrophe, so that it shows in parse trees.
The operators bind as written in the notation: `+`, `*` and `?` bind tighter than `!`.
-/

namespace Tokenweave.Dialect

/-- The state of lowering: the tree being taken apart, the graph being built, the reference
node of every rule name met so far, and the rules defined so far. -/
structure Lowering where
  tree : ParseTree
  grammar : Grammar := {}
  refs : List (String × NodeId) := []
  rules : Rules := {}

/-- A step of lowering, which may fail. -/
abbrev LowerM := StateT Lowering (Except GrammarError)

namespace Lowering

/-- Add a node to the graph. -/
def addNode (s : Shape) : LowerM NodeId :=
  modifyGet fun st => let (g, id) := st.grammar.add s; (id, { st with grammar := g })

/-- Name a node of the graph. -/
def nameNode (id : NodeId) (name : String) : LowerM Unit :=
  modify fun st => { st with grammar := st.grammar.setName id name }

/-- Edit the tree. -/
def edit (f : ParseTree → ParseTree) : LowerM Unit :=
  modify fun st => { st with tree := f st.tree }

/-- The tree as it stands. -/
def current : LowerM ParseTree := do pure (← get).tree

/-- A node of the tree that does not have the shape the notation promises, reported at the
start of its span. -/
def malformed {α : Type} (h : Handle) : LowerM α := do
  let t ← current
  let pos := (t.entry h).start
  let (line, column) := Text.lineCol t.source pos
  throw (.unexpected line column pos (Text.describeAt t.source pos 20))

/-- The character an escaped character stands for, when it is not itself. -/
def escaped : String → Option String
  | "n" => some "\n"
  | "t" => some "\t"
  | "r" => some "\r"
  | _ => none

/-- Pass 1 on one escape sequence. -/
def resolveEscape (sequence : Handle) : LowerM Unit := do
  if let some marker := (← current).childByName sequence "escape" then
    edit (·.setValue marker "")
  if let some c := (← current).childByName sequence "anyChar" then
    if let some v := escaped ((← current).value c) then
      edit (·.setValue c v)

/-- Pass 2 on one `statementOpt` wrapper. -/
def flatten (opt : Handle) : LowerM Unit := do
  if let some first := ((← current).children opt).head? then
    edit (·.liftChildren first)
  edit (·.liftChildren opt)

/-- The text under a child of `h` named `name`, its leaves joined; empty when there is none. -/
def childText (h : Handle) (name : String) : LowerM String := do
  let t ← current
  pure (match t.childByName h name with
    | some b => t.joinLeaves b ""
    | none => "")

/-- A string atom: a literal, named after its text unless the text is empty. -/
def lowerString (atom : Handle) : LowerM NodeId := do
  let text ← childText atom "strOpt"
  let id ← addNode (.literal text)
  if !text.isEmpty then nameNode id ("'" ++ text)
  pure id

/-- A character class atom. -/
def lowerCharset (atom : Handle) : LowerM NodeId := do
  let negate := ((← current).childByName atom "^").isSome
  addNode (.charClass (← childText atom "setOpt") negate)

/-- A range atom; its first character must not come after its last. -/
def lowerChargroup (atom : Handle) : LowerM NodeId := do
  let t ← current
  let negate := (t.childByName atom "^").isSome
  let bound := fun (name : String) =>
    (t.childByName atom name).bind fun b => (t.joinLeaves b "").toList.head?
  match bound "rangeStart", bound "rangeEnd" with
  | some lo, some hi =>
    if lo > hi then throw (.invalidRange lo hi)
    addNode (.charRange lo hi negate)
  | _, _ => malformed atom

/-- The shared reference node of the rule named by a word. -/
def reference (word : Handle) : LowerM NodeId := do
  let name := (← current).value word
  match ((← get).refs.find? (·.1 == name)) with
  | some (_, id) => pure id
  | none =>
    let id ← addNode (.ref name)
    modify fun st => { st with refs := st.refs ++ [(name, id)] }
    pure id

/-- Wrap a node by the operators written at `site`: first `+`, `*` or `?`, then `!`. -/
def applyOperators (node site : Handle) : LowerM NodeId := do
  let t ← current
  let node ← match t.childByName site "modifier" with
    | some m =>
      match t.value m with
      | "+" => addNode (.oneOrMore node)
      | "*" => do addNode (.optional (← addNode (.oneOrMore node)))
      | "?" => addNode (.optional node)
      | _ => pure node
    | none => pure node
  if (t.childByName site "!").isSome then addNode (.notFollowedBy node) else pure node

/-- Names of the atoms a token can hold. -/
def atomNames : List String := ["string", "charset", "chargroup", "eof", "word"]

/-- Pass 3 on one token: its grammar node. -/
def lowerToken (token : Handle) : LowerM NodeId := do
  let t ← current
  match (t.children token).find? (fun c => match t.name c with
      | some n => atomNames.contains n
      | none => false) with
  | none => malformed token
  | some atom =>
    let node ← match t.name atom with
      | some "string" => lowerString atom
      | some "charset" => lowerCharset atom
      | some "chargroup" => lowerChargroup atom
      | some "eof" => addNode .endOfInput
      | _ => reference atom
    applyOperators node token

/-- Fold a statement into one grammar node: alternatives split at `|`, each one element or a
sequence, and several alternatives a choice. -/
def fold (statement : Handle) : LowerM NodeId := do
  edit (·.cull statement [⟨.named ["statement"], .liftChildren⟩])
  let t ← current
  let mut alternatives := #[]
  for group in t.splitChildren statement "|" do
    let mut elements := #[]
    for e in group do
      match t.payload e with
      | some id => elements := elements.push id
      | none => malformed e
    let alternative ← match elements.toList with
      | [single] => pure single
      | es => addNode (.seq es)
    alternatives := alternatives.push alternative
  match alternatives.toList with
  | [single] => pure single
  | alts => addNode (.choice alts)

/-- Pass 4 on one sentence: fold its groups and its body, and define the rule. -/
def lowerSentence (sentence : Handle) : LowerM Unit := do
  let t ← current
  let some word := t.childByName sentence "word" | malformed sentence
  let name := t.value word
  for group in t.allByName sentence .leafFirst "nested" do
    let some statement := (← current).childByName group "statement" | malformed group
    let body ← fold statement
    let node ← applyOperators body group
    edit (·.replaceWith group (.payload node))
  let some statement := (← current).childByName sentence "statement" | malformed sentence
  let body ← fold statement
  let isAlias := ((← get).grammar.shape? body).any Shape.isRef
  if !isAlias then nameNode body name
  let st ← get
  match st.rules.define name body with
  | .ok rules => set { st with rules }
  | .error e => throw e

/-- Names of the nodes the passes work on. -/
def passTargets : List String := ["escapeSequence", "statementOpt", "token", "sentence"]

/-- All passes, in order. -/
def run : LowerM Unit := do
  let t ← current
  let targets := t.allByNames t.root .leafFirst passTargets
  let take := fun (name : String) => ((targets.find? (·.1 == name)).map (·.2)).getD []
  for h in take "escapeSequence" do resolveEscape h
  for h in take "statementOpt" do flatten h
  for h in take "token" do
    let node ← lowerToken h
    edit (·.replaceWith h (.payload node))
  for h in take "sentence" do lowerSentence h

end Lowering

/-- Lower a culled parse tree of grammar text to a graph and its rules. -/
def lower (t : ParseTree) : Except GrammarError (Grammar × Rules) := do
  let (_, st) ← Lowering.run.run { tree := t }
  pure (st.grammar, st.rules)

end Tokenweave.Dialect
