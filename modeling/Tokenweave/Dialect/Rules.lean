import Tokenweave.Dialect.Error
import Tokenweave.Grammar.Basic
/-!
# Rules

The rule table maps rule names to their bodies, in the order the rules were defined. A rule whose
body is a bare reference to another rule is an alias. Linking makes the graph executable: every
edge into a reference is pointed at the body the reference stands for, so rules can refer to
each other and to themselves.

* `checkAliases` follows each rule's chain of aliases and reports the first chain that comes back
  to a name already on it; a chain that ends in an undefined name is left to `resolve`.
* `resolve` follows the chain of aliases from a name to the first body that is not a reference.
  Once no chain comes back on itself, a chain visits every rule at most once, so the number of
  rules plus one steps always reach its end.
* `root` is the body the rule `root` resolves to.
* `link` walks the graph from the root, as the reachable walk does, and points every edge into a
  reference at the body it resolves to. The rule a node belongs to, for reports, is the rule
  whose body it is, or else the rule of the node through which it was reached.
-/

namespace Tokenweave.Dialect

/-- Rule names and their bodies, in the order of definition. -/
structure Rules where
  entries : List (String × NodeId) := []
  deriving Repr

namespace Rules

/-- The name of the rule every grammar starts from. -/
def rootName : String := "root"

/-- The body of the rule `name`. -/
def get? (r : Rules) (name : String) : Option NodeId :=
  (r.entries.find? (·.1 == name)).map (·.2)

/-- Add a rule; a name may be defined once only. -/
def define (r : Rules) (name : String) (body : NodeId) : Except GrammarError Rules :=
  if (r.get? name).isSome then .error (.duplicateRule name)
  else .ok { entries := r.entries ++ [(name, body)] }

/-- The rule whose body is `id`; when several rules share a body, the last defined. -/
def ownerOf (r : Rules) (id : NodeId) : Option String :=
  (r.entries.reverse.find? (·.2 == id)).map (·.1)

/-- Follow one chain of aliases from the body `current`, with the names met so far in `chain`.
Each step that goes on adds a defined name not yet on the chain, so `steps` of the number of
rules plus one suffice. -/
def followAliases (r : Rules) (g : Grammar) : Nat → List String → NodeId → Except GrammarError Unit
  | 0, _, _ => .ok ()
  | steps + 1, chain, current =>
    match g.shape? current with
    | some (.ref target) =>
      if chain.contains target then .error (.circularReference (chain ++ [target]))
      else match r.get? target with
        | some next => r.followAliases g steps (chain ++ [target]) next
        | none => .ok ()
    | _ => .ok ()

/-- Reject chains of aliases that come back on themselves, the first rule's chain first. -/
def checkAliases (r : Rules) (g : Grammar) : Except GrammarError Unit :=
  r.entries.forM fun (name, body) => r.followAliases g (r.entries.length + 1) [name] body

/-- Follow aliases from rule `name`, used in rule `user`, at most `steps` times. -/
def resolveSteps (r : Rules) (g : Grammar) : Nat → String → String → Except GrammarError NodeId
  | 0, name, user => .error (.undefinedRule name user)
  | steps + 1, name, user =>
    match r.get? name with
    | none => .error (.undefinedRule name user)
    | some body =>
      match g.shape? body with
      | some (.ref target) => r.resolveSteps g steps target name
      | _ => .ok body

/-- The body that rule `name`, used in rule `user`, stands for: the end of its chain of aliases. -/
def resolve (r : Rules) (g : Grammar) (name user : String) : Except GrammarError NodeId :=
  r.resolveSteps g (r.entries.length + 1) name user

/-- The body the rule `root` stands for. -/
def root (r : Rules) (g : Grammar) : Except GrammarError NodeId :=
  match r.get? rootName with
  | none => .error .missingRoot
  | some body =>
    match g.shape? body with
    | some (.ref target) => r.resolve g target rootName
    | _ => .ok body

/-- Point the child edges `cs` of node `id`, from edge `i` on, at what they stand for, and give
each new target with the rule it belongs to, in order. -/
def linkEdges (r : Rules) (owner : String) (id : NodeId) :
    Nat → List NodeId → Grammar → List (NodeId × String) →
      Except GrammarError (Grammar × List (NodeId × String))
  | _, [], g, acc => .ok (g, acc.reverse)
  | i, c :: cs, g, acc => do
    let (g, target) ← match g.shape? c with
      | some (.ref name) => do
        let target ← r.resolve g name owner
        pure (g.setChild id i target, target)
      | _ => pure (g, c)
    r.linkEdges owner id (i + 1) cs g ((target, (r.ownerOf target).getD owner) :: acc)

/-- The walk of `link`: nodes are taken from a stack with the rule they belong to, and a node's
edges are linked when it is first taken. -/
def linkWalk (r : Rules) (unvisited : List NodeId) (stack : List (NodeId × String))
    (g : Grammar) : Except GrammarError Grammar :=
  match stack with
  | [] => .ok g
  | (id, owner) :: rest =>
    if _h : id ∈ unvisited then
      match r.linkEdges owner id 0 (g.children id) g [] with
      | .error e => .error e
      | .ok (g', next) => r.linkWalk (unvisited.erase id) (next.reverse ++ rest) g'
    else r.linkWalk unvisited rest g
termination_by (unvisited.length, stack.length)
decreasing_by
  · have := List.length_erase_of_mem _h
    have := List.length_pos_of_mem _h
    exact Prod.Lex.left _ _ (by omega)
  · exact Prod.Lex.right _ (by simp)

/-- Point every edge reachable from `root` that leads into a reference at what it stands for. -/
def link (r : Rules) (g : Grammar) (root : NodeId) : Except GrammarError Grammar :=
  r.linkWalk (List.range g.size) [(root, (r.ownerOf root).getD rootName)] g

end Rules

end Tokenweave.Dialect
