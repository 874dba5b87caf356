import Tokenweave.Proofs.Lowering.Descending
import Tokenweave.Proofs.Link
import Tokenweave.Dialect.Compile
/-!
# Compiled grammars dump in finitely many steps

`dump` writes a node inline unless it has a rule name, so its recursion finishes when every
cycle of the graph passes through a node with a rule name (`Grammar.RuleCycles`). Compiled
grammars are of that kind. Lowering builds a graph whose edges all point to earlier nodes
(`Dialect.lower_descending`); linking then points each reference at the body its chain of
aliases ends at, a node that is not a reference and so one that lowering named after its rule.
An edge that climbs the order of the nodes thus always leads into a node with a rule name, and
the order is a ranking that every other edge descends (`Grammar.ruleCycles_of_rank`).

Main statements: `Dialect.compile_ruleCycles`, and `Grammar.dump_rules_once`, which gathers what
`dump` does on such graphs.
-/

set_option autoImplicit false

namespace Tokenweave

namespace Dialect.Rules

variable {r : Rules} {g : Grammar}

/-- A chain of aliases that ends well ends at the body of a defined rule. -/
theorem Resolves.defined {k : Nat} {n u : String} {b : NodeId} (h : r.Resolves g k n u (.ok b)) :
    ∃ m, r.get? m = some b := by
  generalize ho : (Except.ok b : Except GrammarError NodeId) = o at h
  induction h with
  | undefined => cases ho
  | @body m _ b' hb _ =>
    cases ho
    exact ⟨m, hb⟩
  | aliased _ _ _ ih => exact ih ho

theorem any_isRef_eq_false {o : Option Shape} (h : ∀ t, o ≠ some (.ref t)) :
    o.any Shape.isRef = false := by
  rcases o with _ | s
  · rfl
  · cases s <;> simp_all [Shape.isRef]

/-- Linking points an edge at itself or at the body of a rule, a node that is not a reference. -/
theorem linkTarget_eq_or_body (hc : r.checkAliases g = .ok ()) (c : NodeId) :
    r.linkTarget g c = c ∨
      ∃ e ∈ r.entries, e.2 = r.linkTarget g c ∧ (g.shape? e.2).any Shape.isRef = false := by
  unfold linkTarget
  split
  · rename_i n _
    split
    · rename_i b hb
      obtain ⟨k, -, hres⟩ := resolve_resolves hc n rootName
      rw [hb] at hres
      obtain ⟨m, hm⟩ := hres.defined
      rcases hres.outcome with ⟨b', hb', hbr⟩ | ⟨M, v, hv⟩
      · cases hb'
        exact .inr ⟨(m, b), mem_entries_of_get? hm, rfl, any_isRef_eq_false hbr⟩
      · cases hv
    · exact .inl rfl
  · exact .inl rfl

/-- Linking with no reference in the graph leaves it as it is. -/
theorem link_of_no_refs {root : NodeId} (hc : r.checkAliases g = .ok ())
    (hno : ∀ c n, g.shape? c ≠ some (.ref n)) : r.link g root = .ok g := by
  have hnd : ∀ x ∈ r.linkOrder g root, ∀ c ∈ g.children x, ¬ r.Dangles g c :=
    fun _ _ c _ ⟨_, n, _, _, _, hcn, _⟩ => hno c n hcn
  obtain ⟨g', hlink, hg'⟩ := link_ok_of_no_dangles hc hnd
  have hview : ∀ x, (r.linkView g).get? x = g.get? x := by
    intro x
    rw [get?_linkView]
    cases hx : g.get? x with
    | none => rfl
    | some nd =>
      -- every child is its own link target, so the node keeps its shape
      have htarget : r.linkTarget g = id := funext fun c => linkTarget_of_not_ref (hno c)
      simp [linkNode, htarget, Shape.withChildren_children]
  have hsame : g' = g := by
    obtain ⟨nodes'⟩ := g'
    obtain ⟨nodes⟩ := g
    rw [Grammar.mk.injEq]
    apply Array.ext_getElem?
    intro x
    have hx := hg' x
    rw [hview x] at hx
    simpa [Grammar.get?] using hx
  rw [hlink, hsame]

section Linked

variable {root : NodeId} {g' : Grammar}
  (hg' : ∀ x, g'.get? x = if x ∈ r.linkOrder g root then (r.linkView g).get? x else g.get? x)
include hg'

theorem nameOf_linked (x : NodeId) : g'.nameOf x = g.nameOf x := by
  simp only [Grammar.nameOf, hg' x]
  split
  · rw [get?_linkView]
    cases g.get? x <;> rfl
  · rfl

/-- In the linked graph, an edge into a node without a rule name points to an earlier node, when
the edges before linking did and every rule body that is not a reference had a rule name. -/
theorem linked_bare_lt (hc : r.checkAliases g = .ok ())
    (hedges : ∀ x, ∀ c ∈ g.children x, c < x)
    (hbodies : ∀ e ∈ r.entries, (g.shape? e.2).any Shape.isRef = false → g.ruleNamed e.2 = true)
    {x c : NodeId} (hcx : c ∈ g'.children x) (hbare : g'.ruleNamed c = false) : c < x := by
  have hnamed : g'.ruleNamed c = g.ruleNamed c := by
    simp only [Grammar.ruleNamed, nameOf_linked hg' c]
  rw [hnamed] at hbare
  by_cases hx : x ∈ r.linkOrder g root
  · rw [children_linked_of_mem hg' hx, List.mem_map] at hcx
    obtain ⟨c₀, hc₀, rfl⟩ := hcx
    rcases linkTarget_eq_or_body hc c₀ with heq | ⟨e, he, hce, hnotref⟩
    · rw [heq]
      exact hedges x c₀ hc₀
    · -- a relinked edge leads into a rule's body, which has a rule name
      rw [← hce, hbodies e he hnotref] at hbare
      cases hbare
  · have hsame : g'.children x = g.children x := by simp [Grammar.children, hg' x, hx]
    rw [hsame] at hcx
    exact hedges x c hcx

end Linked

end Dialect.Rules

/-- A lexer made well holds the graph and the root it was made from. -/
theorem Lexer.new_eq_ok {g : Grammar} {root : NodeId} {lx : Lexer} (h : Lexer.new g root = .ok lx) :
    lx.grammar = g ∧ lx.root = root := by
  unfold Lexer.new at h
  cases hv : g.validate root with
  | error d =>
    rw [hv] at h
    cases h
  | ok u =>
    rw [hv] at h
    cases h
    exact ⟨rfl, rfl⟩

namespace Dialect

/-- The stages of a compilation that ends well: the lexer holds the linked graph and the root. -/
theorem compile_stages {source : String} {limits : Limits} {lx : Tokenweave.Lexer}
    (h : compile source limits = .ok lx) :
    ∃ t g rules, parse source limits = .ok t ∧ lower t = .ok (g, rules) ∧
      rules.checkAliases g = .ok () ∧ rules.root g = .ok lx.root ∧
      rules.link g lx.root = .ok lx.grammar := by
  unfold compile at h
  cases hp : parse source limits with
  | error e =>
    rw [hp] at h
    cases h
  | ok t =>
  simp only [hp, bind, Except.bind] at h
  cases hl : lower t with
  | error e =>
    rw [hl] at h
    cases h
  | ok gr =>
  obtain ⟨g, rules⟩ := gr
  simp only [hl] at h
  cases hc : rules.checkAliases g with
  | error e =>
    rw [hc] at h
    cases h
  | ok u =>
  cases u
  simp only [hc] at h
  cases hr : rules.root g with
  | error e =>
    rw [hr] at h
    cases h
  | ok root =>
  simp only [hr] at h
  cases hlink : rules.link g root with
  | error e =>
    rw [hlink] at h
    cases h
  | ok g' =>
  simp only [hlink] at h
  cases hnew : Tokenweave.Lexer.new g' root with
  | error d =>
    rw [hnew] at h
    cases h
  | ok lx' =>
  rw [hnew] at h
  cases h
  obtain ⟨hg, hroot⟩ := Lexer.new_eq_ok hnew
  rw [hg, hroot]
  exact ⟨t, g, rules, rfl, hl, hc, hr, hlink⟩

/-- The stages before linking, from one run of them that ends well with the nodes `nodes` and the
root `root`. -/
theorem prelink_stages (source : String) (limits : Limits) (nodes : Array Node) (root : NodeId)
    (h : (do
      let t ← parse source limits
      let lowered ← lower t
      lowered.2.checkAliases lowered.1
      let root ← lowered.2.root lowered.1
      pure (lowered.1.nodes, root) : Except GrammarError _).toOption = some (nodes, root)) :
    ∃ t rules, parse source limits = .ok t ∧ lower t = .ok ({ nodes }, rules) ∧
      rules.checkAliases { nodes } = .ok () ∧ rules.root { nodes } = .ok root := by
  cases hp : parse source limits with
  | error e =>
    rw [hp] at h
    cases h
  | ok t =>
  simp only [hp, bind, Except.bind] at h
  cases hl : lower t with
  | error e =>
    rw [hl] at h
    cases h
  | ok lowered =>
  obtain ⟨⟨nodes'⟩, rules⟩ := lowered
  simp only [hl] at h
  cases hc : rules.checkAliases { nodes := nodes' } with
  | error e =>
    rw [hc] at h
    cases h
  | ok u =>
  cases u
  simp only [hc] at h
  cases hr : rules.root { nodes := nodes' } with
  | error e =>
    rw [hr] at h
    cases h
  | ok root' =>
  simp only [hr, pure, Except.pure, Except.toOption, Option.some.injEq, Prod.mk.injEq] at h
  obtain ⟨rfl, rfl⟩ := h
  exact ⟨t, rules, rfl, hl, hc, hr⟩

/-- Every cycle of a compiled grammar passes through a node with a rule name. -/
theorem compile_ruleCycles {source : String} {limits : Limits} {lx : Tokenweave.Lexer}
    (h : compile source limits = .ok lx) : lx.grammar.RuleCycles lx.root := by
  obtain ⟨t, g, rules, hp, hl, hc, -, hlink⟩ := compile_stages h
  obtain ⟨hw, hpay⟩ := parse_wordsPlain hp
  obtain ⟨hedges, hbodies⟩ := lower_descending hw hpay hl
  obtain ⟨-, hg'⟩ := Rules.link_ok hc hlink
  -- the nodes' own order ranks them
  exact Grammar.ruleCycles_of_rank id fun _ _ _ hy hbare =>
    Rules.linked_bare_lt hg' hc hedges (fun e he => (hbodies e he).2) hy hbare

end Dialect

namespace Grammar

/-- What `dump` does. When every cycle through the part of the graph that `r` reaches passes
through a node with a rule name, the recursion of `write` from each node of that part finishes
within the levels `dump` gives it, and more levels write the same. The lines are those of a
breadth-first discovery from `r`: one for `r` and one for each node with a rule name met, each
once, in the order first met. Every compiled grammar has its cycles pass through rule names. -/
theorem dump_rules_once (g : Grammar) (r : NodeId) :
    (g.RuleCycles r → ∀ x ∈ g.reachable r, ∀ top, g.Finishes (g.size + 1) x top ∧
      ∀ k, g.size + 1 ≤ k → g.write k x top = g.write (g.size + 1) x top) ∧
    (g.Discovers r (g.emitted (g.size + 1) [r] []) ∧
      (∀ y ∈ g.emitted (g.size + 1) [r] [], y = r ∨ (g.ruleNamed y = true ∧ y ∈ g.reachable r)) ∧
      g.dump r = String.join ((g.emitted (g.size + 1) [r] []).map g.ruleLine)) ∧
    ∀ (source : String) (limits : Limits) (lx : Lexer),
      Dialect.compile source limits = .ok lx → lx.grammar.RuleCycles lx.root := by
  refine ⟨fun hcyc x hx top => ?_, dump_discovers g r, fun _ _ _ h => Dialect.compile_ruleCycles h⟩
  have hfin := finishes_of_ruleCycles hcyc hx top
  exact ⟨hfin, fun _ hk => hfin.write_eq hk⟩

/-- The grammar of the single rule `root ::= "a"`. -/
def literalRoot : Grammar := { nodes := #[{ shape := .literal "a", name := some "root" }] }

/-- The text `root ::= "a"` compiles to `literalRoot`, whose cycles pass through rule names and
whose root's line finishes. -/
theorem literalRoot_dump_rules :
    Dialect.compile "root ::= \"a\"" {} = .ok { grammar := literalRoot, root := 0 } ∧
      literalRoot.RuleCycles 0 ∧ literalRoot.Finishes (literalRoot.size + 1) 0 true := by
  -- the stages before linking evaluate
  obtain ⟨t, rules, hp, hl, hc, hr⟩ := Dialect.prelink_stages "root ::= \"a\"" {} literalRoot.nodes 0
    (by set_option maxRecDepth 20000 in decide +kernel)
  -- no node is a reference, so linking leaves the graph as it is
  have hlink : rules.link literalRoot 0 = .ok literalRoot :=
    Dialect.Rules.link_of_no_refs hc fun c n hcn => by
      rcases c with _ | c <;> simp [literalRoot, Grammar.shape?, Grammar.get?] at hcn
  have hvalid : literalRoot.validate 0 = .ok () := by
    have hreach : literalRoot.reachable 0 = [0] := by
      simp [literalRoot, Grammar.reachable, Grammar.reachableWalk, Grammar.size, Grammar.children,
        Grammar.get?, Shape.children]
    unfold Grammar.validate
    rw [hreach]
    rfl
  have hlx : Dialect.compile "root ::= \"a\"" {} = .ok { grammar := literalRoot, root := 0 } := by
    simp only [Dialect.compile, hp, bind, Except.bind, hl, hc, hr, hlink, Lexer.new, hvalid]
    rfl
  have hcyc := (dump_rules_once literalRoot 0).2.2 _ _ _ hlx
  exact ⟨hlx, hcyc, ((dump_rules_once literalRoot 0).1 hcyc 0
    (mem_reachable_self (by decide)) true).1⟩

end Grammar

end Tokenweave
