import Tokenweave.Proofs.Cull
import Tokenweave.Proofs.MatchTree
import Tokenweave.Proofs.Tiling
/-!
# What stripping leaves of a parse

`t.cull t.root fs` strips the tree `t` of a parse: each node is kept, deleted with what is under
it, or lifted so that what it leaves takes its place, by the first filter of `fs` that picks it by
its name and span. Which nodes can stand under a node afterwards is then a question about the
grammar alone: every node of the tree carries the grammar node that built it, and, when no choice
of the grammar has a name, that grammar node's name.

The questions are checks on the grammar, computed with fuel and answering `false` when the fuel
runs out, so that a `true` answer holds whatever the fuel was:

* `Grammar.allPassed`: every grammar node whose tree node a match of a node hands on, through
  choices, passes a test;
* `Grammar.consumes`: every match of a node consumes input;
* `Grammar.allLeft`: every node that stripping can leave under a tree node built by a node passes
  a test;
* `Grammar.keepsPart` and `Grammar.keepsAll`: a part of a sequence, or every part, always leaves
  a tree node that is kept.

`ParseOf g t` gathers what the tree of a parse offers these checks, and the tree of every parse
by a grammar with unnamed choices offers it (`parseOf_ofParsed`). Main statements:
`ParseOf.allLeft_sound`, `ParseOf.keepsPart_sound` and `ParseOf.keepsAll_sound`, about the child
lists that culling leaves (`ParseTree.Culled`), and `culled_of_reaches`, which says that the
stripped tree has such a child list at every node it reaches.
-/

set_option autoImplicit false

namespace Tokenweave

open Relation

/-! ### Judging by name and emptiness -/

/-- Whether a filter's pick takes a node with name `name` whose span is empty or not. -/
def Pick.takes : Pick → Option String → Bool → Bool
  | .named names, name, _ => match name with
    | some n => names.contains n
    | none => false
  | .unnamed, name, _ => name.isNone
  | .empty, _, isEmpty => isEmpty

namespace Strategy

/-- The strategy that the first of the filters `fs` to take a node named `name`, empty or not,
gives it; `keep` when none does. -/
def judged (fs : List Filter) (name : Option String) (empty : Bool) : Strategy :=
  match fs.find? (fun f => f.pick.takes name empty) with
  | some f => f.strategy
  | none => .keep

/-- Whether `fs` keep some node named `name`, empty or not. -/
def mayKeep (fs : List Filter) (name : Option String) : Bool :=
  judged fs name false == .keep || judged fs name true == .keep

/-- Whether `fs` lift some node named `name`, empty or not. -/
def mayLift (fs : List Filter) (name : Option String) : Bool :=
  judged fs name false == .liftChildren || judged fs name true == .liftChildren

theorem mayKeep_of_judged {fs : List Filter} {name : Option String} {empty : Bool}
    (h : judged fs name empty = .keep) : mayKeep fs name = true := by
  cases empty <;> simp [mayKeep, h]

theorem mayLift_of_judged {fs : List Filter} {name : Option String} {empty : Bool}
    (h : judged fs name empty = .liftChildren) : mayLift fs name = true := by
  cases empty <;> simp [mayLift, h]

end Strategy

/-- Filters judge a node by its name and by whether its span is empty. -/
theorem ParseTree.strategyFor_eq_judged (t : ParseTree) (fs : List Filter) (x : Handle) :
    t.strategyFor fs x =
      Strategy.judged fs (t.name x) ((t.entry x).start == (t.entry x).stop) := by
  have hpick : (fun f : Filter => t.picks x f.pick) =
      fun f => f.pick.takes (t.name x) ((t.entry x).start == (t.entry x).stop) := by
    funext f
    rcases f with ⟨pick, _⟩
    cases pick <;> rfl
  -- split on the first filter that takes the node, so that both matches reduce
  cases hf : fs.find? (fun f => f.pick.takes (t.name x) ((t.entry x).start == (t.entry x).stop)) <;>
    simp only [ParseTree.strategyFor, Strategy.judged, hpick, hf]

/-! ### Checks on a grammar -/

namespace Grammar

variable (g : Grammar)

/-- Whether no choice of `g` has a name: a choice then hands on its alternative's tree node as
it is. -/
def choicesUnnamed : Bool :=
  g.nodes.all fun nd => match nd.shape with
    | .choice _ => nd.name.isNone
    | _ => true

/-- Whether `P` holds of every grammar node whose tree node a match of `b` can hand on: `b`
itself, or for a choice what its alternatives hand on. -/
def allPassed (P : NodeId → Bool) : Nat → NodeId → Bool
  | 0, _ => false
  | fuel + 1, b =>
    match g.shape? b with
    | some (.choice alternatives) => alternatives.all (allPassed P fuel)
    | _ => P b

/-- Whether every match of node `k` consumes input, as its shape shows: a literal that is not
empty, a class or a range does, a sequence does when one of its parts does, a choice when all of
its alternatives do, and a repetition when its body does. -/
def consumes : Nat → NodeId → Bool
  | 0, _ => false
  | fuel + 1, k =>
    match g.shape? k with
    | some (.literal text) => !text.isEmpty
    | some (.charSet ..) | some (.charRange ..) => true
    | some (.seq parts) => parts.any (consumes fuel)
    | some (.choice alternatives) => alternatives.all (consumes fuel)
    | some (.oneOrMore body) => consumes fuel body
    | _ => false

/-- Whether every node that stripping by `fs` can leave under a tree node built by `k` passes
`P`. The tree children of such a node come from the child edges of `k`, through choices; each is
kept, or lifted so that what it leaves stands in its place, or deleted. -/
def allLeft (fs : List Filter) (P : NodeId → Bool) : Nat → NodeId → Bool
  | 0, _ => false
  | fuel + 1, k => (g.children k).all (g.allPassed (fun c =>
      (!Strategy.mayKeep fs (g.nameOf c) || P c) &&
        (!Strategy.mayLift fs (g.nameOf c) || allLeft fs P fuel c)) fuel)

/-- Whether a match of `b` always leaves a tree node that `fs` keep and that passes `Q`: what it
hands on is named so that `fs` keep it when it is not empty, consumes input, and passes `Q`. -/
def alwaysKept (fs : List Filter) (Q : NodeId → Bool) (fuel : Nat) (b : NodeId) : Bool :=
  g.allPassed (fun c =>
    Strategy.judged fs (g.nameOf c) false == .keep && g.consumes fuel c && Q c) fuel b

/-- Whether `k` is a sequence with a part that always leaves a kept tree node passing `Q`. -/
def keepsPart (fs : List Filter) (Q : NodeId → Bool) (fuel : Nat) (k : NodeId) : Bool :=
  match g.shape? k with
  | some (.seq parts) => parts.any (g.alwaysKept fs Q fuel)
  | _ => false

/-- Whether `k` is a sequence of `n` parts that all always leave a kept tree node. -/
def keepsAll (fs : List Filter) (fuel n : Nat) (k : NodeId) : Bool :=
  match g.shape? k with
  | some (.seq parts) => parts.length == n && parts.all (g.alwaysKept fs (fun _ => true) fuel)
  | _ => false

variable {g}

theorem name_eq_none_of_choice (hg : g.choicesUnnamed = true) {k : NodeId} {nd : Node}
    {alternatives : List NodeId} (hk : g.get? k = some nd) (hsh : nd.shape = .choice alternatives) :
    nd.name = none := by
  obtain ⟨hlt, hget⟩ := Array.getElem?_eq_some_iff.mp hk
  have hall := Array.all_eq_true.mp hg k hlt
  rw [hget, hsh] at hall
  simpa using hall

/-- With unnamed choices, the name a match hands on is that of the grammar node that built the
tree node. -/
theorem Passes.name_eq (hg : g.choicesUnnamed = true) {a b : NodeId} {name : Option String}
    (h : g.Passes a b name) : name = g.nameOf b := by
  induction h with
  | self hnd _ => simp [nameOf, hnd]
  | choice hnd hsh _ _ ih => rw [name_eq_none_of_choice hg hnd hsh, Option.or_none, ih]

theorem allPassed_sound {P : NodeId → Bool} {a b : NodeId} {name : Option String}
    (h : g.Passes a b name) : ∀ {fuel}, g.allPassed P fuel a = true → P b = true := by
  induction h with
  | self hnd hne =>
    intro fuel hP
    cases fuel with
    | zero => simp [allPassed] at hP
    | succ fuel =>
      rename_i nd
      simp only [allPassed, shape?, hnd, Option.map_some] at hP
      split at hP
      · rename_i alternatives hsh
        exact absurd (Option.some.inj hsh) (hne alternatives)
      · exact hP
  | choice hnd hsh halt _ ih =>
    intro fuel hP
    cases fuel with
    | zero => simp [allPassed] at hP
    | succ fuel =>
      simp only [allPassed, shape?, hnd, Option.map_some, hsh, List.all_eq_true] at hP
      exact ih (hP _ halt)

end Grammar

/-! ### What a match consumes -/

section Consumes

variable {g : Grammar} {s : String}

theorem Parsed.inherit_none (q : Parsed) : q.inherit none = q := by
  unfold Parsed.inherit
  split <;> rfl

/-- With unnamed choices, a parse is produced by the grammar node it carries. -/
theorem Produces.self (hg : g.choicesUnnamed = true) :
    ∀ {a : NodeId} {p : Nat} {q : Parsed}, Produces g s a p q → Produces g s q.node p q
  | _, _, _, h@(.leaf ..) => h
  | _, _, _, h@(.seq ..) => h
  | _, _, _, .choice hnd hsh _ h => by
    rw [Grammar.name_eq_none_of_choice hg hnd hsh, Parsed.inherit_none]
    exact h.self hg
  | _, _, _, h@(.oneOrMore ..) => h
  | _, _, _, h@(.optional ..) => h

/-- A node that produces a parse is a node of the grammar. -/
theorem Produces.lt_size {a : NodeId} {p : Nat} {q : Parsed} (h : Produces g s a p q) :
    a < g.size := by
  have hget : ∃ nd, g.get? a = some nd := by
    cases h with
    | leaf hnd => exact ⟨_, hnd⟩
    | seq hnd => exact ⟨_, hnd⟩
    | choice hnd => exact ⟨_, hnd⟩
    | oneOrMore hnd => exact ⟨_, hnd⟩
    | optional hnd => exact ⟨_, hnd⟩
  obtain ⟨_, hnd⟩ := hget
  exact (Array.getElem?_eq_some_iff.mp hnd).1

theorem Produces.le_stop {a : NodeId} {p : Nat} {q : Parsed} (h : Produces g s a p q) :
    p ≤ q.stop := by
  have hle := Parsed.Tiled.le q h.tiled
  rwa [h.start_eq] at hle

theorem ProducesAll.le {ids : List NodeId} {p : Nat} {cs : List Parsed} {q : Nat}
    (h : ProducesAll g s ids p cs q) : p ≤ q := by
  induction cs generalizing ids p with
  | nil =>
    cases h
    exact Nat.le_refl _
  | cons c cs ih =>
    cases h with
    | cons hc rest => exact Nat.le_trans hc.le_stop (ih rest)

/-- Parts that follow each other consume input when one of them always does. -/
theorem ProducesAll.lt_of_mem : ∀ {ids : List NodeId} {p : Nat} {cs : List Parsed} {q : Nat},
    ProducesAll g s ids p cs q → ∀ a ∈ ids, (∀ p' r, Produces g s a p' r → p' < r.stop) → p < q
  | _, _, _, _, .nil, _, ha, _ => absurd ha List.not_mem_nil
  | _, _, _, _, .cons h rest, a, ha, hcons => by
    rcases List.mem_cons.mp ha with rfl | ha
    · exact Nat.lt_of_lt_of_le (hcons _ _ h) rest.le
    · exact Nat.lt_of_le_of_lt h.le_stop (rest.lt_of_mem a ha hcons)

/-- What `consumes` says of a node holds of every match of it. -/
theorem Grammar.consumes_sound : ∀ {fuel : Nat} {a : NodeId} {p : Nat} {q : Parsed},
    g.consumes fuel a = true → Produces g s a p q → p < q.stop
  | 0, _, _, _, hc, _ => by simp [Grammar.consumes] at hc
  | fuel + 1, _, p, _, hc, h => by
    cases h with
    | @leaf id nd _ q hnd hcov =>
      simp only [Grammar.consumes, Grammar.shape?, hnd, Option.map_some] at hc
      show p < q
      cases hsh : nd.shape with
      | literal text =>
        rw [hsh] at hc hcov
        obtain ⟨-, rfl⟩ := hcov
        have hne : text.utf8ByteSize ≠ 0 := by simpa [String.isEmpty] using hc
        omega
      | charSet members negate =>
        rw [hsh] at hcov
        obtain ⟨c, -, -, rfl⟩ := Shape.charEnd_eq_some hcov
        have := Char.utf8Size_pos c
        omega
      | charRange lo hi negate =>
        rw [hsh] at hcov
        obtain ⟨c, -, -, rfl⟩ := Shape.charEnd_eq_some hcov
        have := Char.utf8Size_pos c
        omega
      | seq parts =>
        rw [hsh] at hc hcov
        obtain ⟨rfl, -⟩ := hcov
        simp at hc
      | choice alternatives => rw [hsh] at hcov; exact hcov.elim
      | oneOrMore body => rw [hsh] at hcov; exact hcov.elim
      | ref rule => rw [hsh] at hcov; exact hcov.elim
      | optional body | notFollowedBy body | endOfInput => rw [hsh] at hc; simp at hc
    | seq hnd hsh hall =>
      simp only [Grammar.consumes, Grammar.shape?, hnd, Option.map_some, hsh,
        List.any_eq_true] at hc
      obtain ⟨a, ha, hca⟩ := hc
      exact hall.lt_of_mem a ha fun _ _ h' => Grammar.consumes_sound hca h'
    | choice hnd hsh halt h' =>
      simp only [Grammar.consumes, Grammar.shape?, hnd, Option.map_some, hsh,
        List.all_eq_true] at hc
      rw [Parsed.stop_inherit]
      exact Grammar.consumes_sound (hc _ halt) h'
    | oneOrMore hnd hsh hne hall =>
      simp only [Grammar.consumes, Grammar.shape?, hnd, Option.map_some, hsh] at hc
      refine hall.lt_of_mem _ (List.mem_replicate.mpr ⟨?_, rfl⟩) fun _ _ h' =>
        Grammar.consumes_sound hc h'
      exact fun h => hne (List.length_eq_zero_iff.mp h)
    | optional hnd hsh _ =>
      simp [Grammar.consumes, Grammar.shape?, hnd, hsh] at hc

end Consumes

/-! ### The tree of a parse -/

/-- What the tree `t` of a parse by `g` offers about each of its nodes: its name is that of the
grammar node that built it, its children are what the child edges of that grammar node hand on
(one for one and in order for a sequence), and it spans input when its grammar node always
consumes some. -/
structure ParseOf (g : Grammar) (t : ParseTree) : Prop where
  wellFormed : t.WellFormed
  root_lt : t.root < t.size
  node_lt : ∀ x < t.size, (t.entry x).node < g.size
  name_eq : ∀ x < t.size, t.name x = g.nameOf (t.entry x).node
  passes : ∀ x < t.size, ∀ c ∈ t.children x,
    ∃ b ∈ g.children (t.entry x).node, ∃ name, g.Passes b (t.entry c).node name
  parts : ∀ x < t.size, ∀ parts, g.shape? (t.entry x).node = some (.seq parts) →
    List.Forall₂ (fun c b => ∃ name, g.Passes b (t.entry c).node name) (t.children x) parts
  spans : ∀ x < t.size, ∀ fuel, g.consumes fuel (t.entry x).node = true →
    (t.entry x).start < (t.entry x).stop

section OfParsed

variable {g : Grammar} {s : String} {t : ParseTree}

/-- The roots of built parts are handed on by the nodes that produced the parts, one for one. -/
theorem BuiltAll.forall₂_passes :
    ∀ {ids : List NodeId} {p : Nat} {cs : List Parsed} {q lo : Nat} {up : Option Nat}
      {hs : List Nat} {hi : Nat},
      ProducesAll g s ids p cs q → BuiltAll t.entries lo up hs cs hi →
      List.Forall₂ (fun c b => ∃ name, g.Passes b (t.entry c).node name) hs ids
  | _, _, _, _, _, _, [], _, .nil, _ => .nil
  | _, _, _, _, _, _, _ :: _, _, .nil, hb => hb.elim
  | _, _, _, _, _, _, [], _, .cons .., hb => hb.elim
  | _, _, _, _, _, _, _ :: _, _, .cons h rest, ⟨hb, hbs⟩ =>
    .cons ⟨_, (ParseTree.entry_of_built hb).1 ▸ h.passes⟩ (BuiltAll.forall₂_passes rest hbs)

/-- The children of a tree node built by a sequence are handed on by its parts, one for one. -/
theorem Produces.forall₂_parts {k : NodeId} {p : Nat} {q : Parsed} (h : Produces g s k p q)
    {parts : List NodeId} (hsh : g.shape? k = some (.seq parts)) {lo : Nat} {up : Option Nat}
    {hs : List Nat} {hi : Nat} (hall : BuiltAll t.entries lo up hs q.children hi) :
    List.Forall₂ (fun c b => ∃ name, g.Passes b (t.entry c).node name) hs parts := by
  cases h with
  | leaf hnd hcov =>
    simp only [Grammar.shape?, hnd, Option.map_some, Option.some.injEq] at hsh
    rw [hsh] at hcov
    obtain ⟨rfl, -⟩ := hcov
    cases hs with
    | nil => exact .nil
    | cons _ _ => exact hall.elim
  | seq hnd hsh' hparts =>
    simp only [Grammar.shape?, hnd, Option.map_some, hsh', Option.some.injEq,
      Shape.seq.injEq] at hsh
    subst hsh
    exact BuiltAll.forall₂_passes hparts hall
  | choice hnd hsh' => simp [Grammar.shape?, hnd, hsh'] at hsh
  | oneOrMore hnd hsh' => simp [Grammar.shape?, hnd, hsh'] at hsh
  | optional hnd hsh' => simp [Grammar.shape?, hnd, hsh'] at hsh

/-- The tree of a parse by a grammar whose choices are unnamed is a tree of a parse by it. -/
theorem parseOf_ofParsed (hg : g.choicesUnnamed = true) {a : NodeId} {p : Nat} {q : Parsed}
    (h : Produces g s a p q) : ParseOf g (ParseTree.ofParsed s q) := by
  -- Every node is built from a part of the parse, produced by the grammar node it carries.
  have every : ∀ x < (ParseTree.ofParsed s q).size, ∃ lo up q',
      Built (ParseTree.ofParsed s q).entries lo up x q' ∧ ∃ p', Produces g s q'.node p' q' :=
    fun x hx => ParseTree.ofParsed_every (P := fun q' => ∃ p', Produces g s q'.node p' q')
      (fun _ ⟨_, h'⟩ c hc => by
        obtain ⟨_, -, p', hc'⟩ := h'.child c hc
        exact ⟨p', hc'.self hg⟩) ⟨p, h.self hg⟩ hx
  refine ⟨ParseTree.ofParsed_wellFormed s q,
    (ParseTree.ofParsed_built s q).2 ▸ Nat.lt_succ_self _, ?_, ?_, ?_, ?_, ?_⟩
  · intro x hx
    obtain ⟨_, _, q', hb, _, hq'⟩ := every x hx
    rw [(ParseTree.entry_of_built hb).1]
    exact hq'.lt_size
  · intro x hx
    obtain ⟨_, _, q', hb, _, hq'⟩ := every x hx
    obtain ⟨hnode, hname, -⟩ := ParseTree.entry_of_built hb
    rw [ParseTree.name, hname, hnode]
    exact hq'.passes.name_eq hg
  · intro x hx c hc
    obtain ⟨_, _, q', hb, _, hq'⟩ := every x hx
    obtain ⟨hnode, -, -, -, hall⟩ := ParseTree.entry_of_built hb
    obtain ⟨_, c', hc', hbc⟩ := BuiltAll.built_of_mem _ hall c hc
    obtain ⟨b, hbmem, _, hprodc⟩ := hq'.child c' hc'
    rw [hnode, (ParseTree.entry_of_built hbc).1]
    exact ⟨b, hbmem, _, hprodc.passes⟩
  · intro x hx parts hsh
    obtain ⟨_, _, q', hb, _, hq'⟩ := every x hx
    obtain ⟨hnode, -, -, -, hall⟩ := ParseTree.entry_of_built hb
    rw [hnode] at hsh
    exact hq'.forall₂_parts hsh hall
  · intro x hx fuel hc
    obtain ⟨_, _, q', hb, p', hq'⟩ := every x hx
    obtain ⟨hnode, -, hstart, hstop, -⟩ := ParseTree.entry_of_built hb
    rw [hnode] at hc
    rw [hstart, hstop, hq'.start_eq]
    exact Grammar.consumes_sound hc hq'

end OfParsed

/-! ### Child lists that culling leaves -/

namespace ParseTree

variable {t : ParseTree} {fs : List Filter}

/-- A kept node stays among what its list leaves. -/
theorem Culled.mem_of_keep {cs L : List Nat} (hL : Culled t fs cs L) {c : Nat} (hc : c ∈ cs)
    (hk : t.strategyFor fs c = .keep) : c ∈ L := by
  induction hL with
  | nil => exact absurd hc List.not_mem_nil
  | keep _ _ ih =>
    rcases List.mem_cons.mp hc with rfl | hc
    · exact List.mem_cons_self
    · exact List.mem_cons_of_mem _ (ih hc)
  | delete hd _ ih =>
    rcases List.mem_cons.mp hc with rfl | hc
    · rw [hk] at hd
      cases hd
    · exact ih hc
  | lift hl _ _ _ ih =>
    rcases List.mem_cons.mp hc with rfl | hc
    · rw [hk] at hl
      cases hl
    · exact List.mem_append_right _ (ih hc)

/-- A list whose nodes are all kept leaves itself. -/
theorem Culled.eq_of_keep {cs L : List Nat} (hL : Culled t fs cs L)
    (hk : ∀ c ∈ cs, t.strategyFor fs c = .keep) : L = cs := by
  induction hL with
  | nil => rfl
  | keep _ _ ih => rw [ih fun c hc => hk c (List.mem_cons_of_mem _ hc)]
  | delete hd _ _ =>
    rw [hk _ List.mem_cons_self] at hd
    cases hd
  | lift hl _ _ _ _ =>
    rw [hk _ List.mem_cons_self] at hl
    cases hl

/-- A node the stripped tree reaches from its root was reached before, is the root or was kept,
and holds what its old children leave. -/
theorem culled_of_reaches (hwf : t.WellFormed) {x : Nat}
    (hx : ReflTransGen (ChildEdge (t.cull t.root fs).entries) t.root x) :
    ReflTransGen (ChildEdge t.entries) t.root x ∧ (x = t.root ∨ t.strategyFor fs x = .keep) ∧
      Culled t fs (t.children x) ((t.cull t.root fs).children x) := by
  have hc := cull_prunes hwf t.root fs
  rcases reflTransGen_iff_eq_or_transGen.mp hx with rfl | hx
  · exact ⟨.refl, .inl rfl, hc.children⟩
  · obtain ⟨hbelow, hkeep⟩ := hc.kept_below hx
    have hs := hc.below x hbelow
    rw [hc.relinked.strategyFor_eq] at hkeep
    simp only [Settled, hkeep] at hs
    exact ⟨hbelow.to_reflTransGen, .inr hkeep, hs⟩

end ParseTree

/-! ### The checks hold of the stripped tree -/

namespace ParseOf

variable {g : Grammar} {t : ParseTree} {fs : List Filter}

private theorem exists_of_forall₂_right {α β : Type} {R : α → β → Prop} :
    ∀ {l₁ : List α} {l₂ : List β}, List.Forall₂ R l₁ l₂ → ∀ b ∈ l₂, ∃ a ∈ l₁, R a b
  | _, _, .nil, _, hb => absurd hb List.not_mem_nil
  | _, _, .cons hab rest, b, hb => by
    rcases List.mem_cons.mp hb with rfl | hb
    · exact ⟨_, List.mem_cons_self, hab⟩
    · obtain ⟨a, ha, hr⟩ := exists_of_forall₂_right rest b hb
      exact ⟨a, List.mem_cons_of_mem _ ha, hr⟩

private theorem exists_of_forall₂_left {α β : Type} {R : α → β → Prop} :
    ∀ {l₁ : List α} {l₂ : List β}, List.Forall₂ R l₁ l₂ → ∀ a ∈ l₁, ∃ b ∈ l₂, R a b
  | _, _, .nil, _, ha => absurd ha List.not_mem_nil
  | _, _, .cons hab rest, a, ha => by
    rcases List.mem_cons.mp ha with rfl | ha
    · exact ⟨_, List.mem_cons_self, hab⟩
    · obtain ⟨b, hb, hr⟩ := exists_of_forall₂_left rest a ha
      exact ⟨b, List.mem_cons_of_mem _ hb, hr⟩

theorem lt_size_of_mem (ht : ParseOf g t) {x c : Nat} (hc : c ∈ t.children x) : c < t.size :=
  ParseTree.lt_size_of_parent (ht.wellFormed.parent_of_mem x c hc)

/-- A node that a check says a match leaves kept, and that spans input, is kept. -/
theorem keep_of_alwaysKept (ht : ParseOf g t) {c : Nat} (hc : c < t.size) {b : NodeId}
    {name : Option String} (hpass : g.Passes b (t.entry c).node name) {Q : NodeId → Bool}
    {fuel : Nat} (hk : g.alwaysKept fs Q fuel b = true) :
    t.strategyFor fs c = .keep ∧ Q (t.entry c).node = true := by
  have hcheck := Grammar.allPassed_sound hpass hk
  simp only [Bool.and_eq_true, beq_iff_eq] at hcheck
  obtain ⟨⟨hjudged, hcons⟩, hQ⟩ := hcheck
  have hspan := ht.spans c hc fuel hcons
  refine ⟨?_, hQ⟩
  rw [ParseTree.strategyFor_eq_judged, ht.name_eq c hc,
    show ((t.entry c).start == (t.entry c).stop) = false from by simp; omega]
  exact hjudged

/-- Every node that culling leaves under a node of the tree passes what `allLeft` checked of the
grammar node that built it. -/
theorem allLeft_sound (ht : ParseOf g t) {P : NodeId → Bool} (fuel : Nat) :
    ∀ {x : Nat}, x < t.size → g.allLeft fs P fuel (t.entry x).node = true →
      ∀ {L : List Nat}, ParseTree.Culled t fs (t.children x) L →
        ∀ c ∈ L, P (t.entry c).node = true := by
  induction fuel with
  | zero => intro x _ hleft; simp [Grammar.allLeft] at hleft
  | succ fuel ih =>
    intro x hx hleft
    -- Each old child is kept, deleted or lifted as the check of its child edge foresaw.
    have hchild : ∀ y ∈ t.children x,
        (Strategy.mayKeep fs (t.name y) = true → P (t.entry y).node = true) ∧
          (Strategy.mayLift fs (t.name y) = true →
            g.allLeft fs P fuel (t.entry y).node = true) := by
      intro y hy
      obtain ⟨b, hb, _, hpass⟩ := ht.passes x hx y hy
      simp only [Grammar.allLeft, List.all_eq_true] at hleft
      have hcheck := Grammar.allPassed_sound hpass (hleft b hb)
      simp only [Bool.and_eq_true, Bool.or_eq_true, Bool.not_eq_true'] at hcheck
      rw [ht.name_eq y (ht.lt_size_of_mem hy)]
      obtain ⟨hk, hl⟩ := hcheck
      exact ⟨fun h => hk.resolve_left (by simp [h]), fun h => hl.resolve_left (by simp [h])⟩
    intro L hL
    suffices key : ∀ {cs L : List Nat}, ParseTree.Culled t fs cs L → cs ⊆ t.children x →
        ∀ c ∈ L, P (t.entry c).node = true from key hL (List.Subset.refl _)
    intro cs L hL hsub
    induction hL with
    | nil => intro c hc; exact absurd hc List.not_mem_nil
    | @keep c _ _ hk _ ihrest =>
      intro c' hc'
      rcases List.mem_cons.mp hc' with rfl | hc'
      · rw [ParseTree.strategyFor_eq_judged] at hk
        exact (hchild c' (hsub List.mem_cons_self)).1 (Strategy.mayKeep_of_judged hk)
      · exact ihrest (fun y hy => hsub (List.mem_cons_of_mem _ hy)) c' hc'
    | delete _ _ ihrest => exact ihrest fun y hy => hsub (List.mem_cons_of_mem _ hy)
    | @lift c _ _ _ hl hkids _ _ ihrest =>
      intro c' hc'
      rcases List.mem_append.mp hc' with hc' | hc'
      · -- What a lifted child leaves passes the check of the lifted child's grammar node.
        have hy := hsub List.mem_cons_self
        rw [ParseTree.strategyFor_eq_judged] at hl
        exact ih (ht.lt_size_of_mem hy) ((hchild c hy).2 (Strategy.mayLift_of_judged hl))
          hkids c' hc'
      · exact ihrest (fun y hy => hsub (List.mem_cons_of_mem _ hy)) c' hc'

/-- A part of a sequence that always leaves a kept node passing `Q` leaves one under every node
the sequence built. -/
theorem keepsPart_sound (ht : ParseOf g t) {x : Nat} (hx : x < t.size) {Q : NodeId → Bool}
    {fuel : Nat} (hk : g.keepsPart fs Q fuel (t.entry x).node = true) {L : List Nat}
    (hL : ParseTree.Culled t fs (t.children x) L) : ∃ c ∈ L, Q (t.entry c).node = true := by
  unfold Grammar.keepsPart at hk
  split at hk
  · rename_i parts hsh
    obtain ⟨b, hb, hkb⟩ := List.any_eq_true.mp hk
    obtain ⟨c, hc, _, hpass⟩ := exists_of_forall₂_right (ht.parts x hx parts hsh) b hb
    obtain ⟨hkeep, hQ⟩ := ht.keep_of_alwaysKept (ht.lt_size_of_mem hc) hpass hkb
    exact ⟨c, hL.mem_of_keep hc hkeep, hQ⟩
  · cases hk

/-- A sequence of `n` parts that all always leave kept nodes keeps its `n` children as they
were. -/
theorem keepsAll_sound (ht : ParseOf g t) {x : Nat} (hx : x < t.size) {fuel n : Nat}
    (hk : g.keepsAll fs fuel n (t.entry x).node = true) {L : List Nat}
    (hL : ParseTree.Culled t fs (t.children x) L) : L = t.children x ∧ L.length = n := by
  unfold Grammar.keepsAll at hk
  split at hk
  · rename_i parts hsh
    simp only [Bool.and_eq_true, beq_iff_eq, List.all_eq_true] at hk
    obtain ⟨hlen, hall⟩ := hk
    have hparts := ht.parts x hx parts hsh
    have hL' : L = t.children x := hL.eq_of_keep fun c hc => by
      obtain ⟨b, hb, _, hpass⟩ := exists_of_forall₂_left hparts c hc
      exact (ht.keep_of_alwaysKept (ht.lt_size_of_mem hc) hpass (hall b hb)).1
    exact ⟨hL', by rw [hL', hparts.length_eq, hlen]⟩
  · cases hk

end ParseOf

end Tokenweave
