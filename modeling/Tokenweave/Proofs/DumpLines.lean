import Tokenweave.Grammar.Dump
import Tokenweave.Proofs.Reachable
import Mathlib.Logic.Relation
import Mathlib.Data.List.Perm.Subperm
import Mathlib.Data.List.TakeWhile
import Mathlib.Data.List.Nodup
/-!
# Writing a graph back as rules

`Grammar.dump` writes the graph reachable from a root as rule lines. Two loops do the work: the
recursion of `write`, which writes a node's shape and follows every child inline unless it has
a rule name (a name that does not begin with an apostrophe), and the queue of `dumpLines`, which
writes one line for each node met by name.

* `write` is given `g.size + 1` levels. The levels suffice when every cycle through the part of
  the graph that the root reaches passes through a node with a rule name (`RuleCycles`): a chain
  of nested nodes written inline then never repeats a node below the top (`finishes_of_ruleCycles`),
  so the recursion finishes within the levels (`Finishes`) and more levels write the same text
  (`Finishes.write_eq`).
* The lines are those of a breadth-first discovery (`dump_discovers`): the root first, then every
  node met by name, each once, in the order they were first met, until no node met is left
  without its line.

A graph whose cycles all pass through a node with a rule name is one in which the edges into
nodes without such a name never climb a ranking (`ruleCycles_of_rank`); compiled grammars are of
this kind, with the nodes' own order as the ranking.
-/

set_option autoImplicit false

namespace Tokenweave.Grammar

open Relation

variable {g : Grammar}

/-- Whether node `id` has a rule name: a name that does not begin with an apostrophe. Below the
top, `write` writes such a node by its name. -/
def ruleNamed (g : Grammar) (id : NodeId) : Bool :=
  match g.nameOf id with
  | some name => !name.startsWith "'"
  | none => false

/-- Whether `write` writes node `id` by its shape: on top whenever the node exists, and below the
top when it has no rule name. -/
def expands (g : Grammar) (id : NodeId) (top : Bool) : Bool :=
  (g.get? id).isSome && (top || !g.ruleNamed id)

/-- The nodes `write` writes inside a node of shape `s`: its children, except that an unnamed
repetition under an optional is written as a starred body, so its body is written instead. -/
def writeChildren (g : Grammar) : Shape → List NodeId
  | .optional body =>
    match g.get? body with
    | some { shape := .oneOrMore inner, name := none } => [inner]
    | _ => [body]
  | s => s.children

/-- An edge into a node without a rule name: `write` follows such an edge inline. -/
def BareEdge (g : Grammar) (x y : NodeId) : Prop :=
  y ∈ g.children x ∧ g.ruleNamed y = false

/-- Every cycle through a node that `r` reaches passes through a node with a rule name: no
closed path of edges into nodes without one starts at such a node. -/
def RuleCycles (g : Grammar) (r : NodeId) : Prop :=
  ∀ x ∈ g.reachable r, ¬ TransGen g.BareEdge x x

/-- The recursion of `write` from `id` finishes within `k` levels: a node that is not expanded
takes one level, and an expanded one a level more than the nodes written inside it. -/
inductive Finishes (g : Grammar) : Nat → NodeId → Bool → Prop
  | stop {k : Nat} {id : NodeId} {top : Bool} : g.expands id top = false → g.Finishes (k + 1) id top
  | expand {k : Nat} {id : NodeId} {top : Bool} {node : Node} : g.get? id = some node →
      g.expands id top = true → (∀ c ∈ g.writeChildren node.shape, g.Finishes k c false) →
      g.Finishes (k + 1) id top

/-! ## One level of `write` -/

theorem ruleNamed_iff {id : NodeId} :
    g.ruleNamed id = true ↔ ∃ node name, g.get? id = some node ∧ node.name = some name ∧
      name.startsWith "'" = false := by
  unfold ruleNamed nameOf
  cases hn : g.get? id with
  | none => simp
  | some node =>
    cases hname : node.name with
    | none => simp [hname]
    | some name => simp [hname]

theorem write_of_expands {d : Nat} {id : NodeId} {top : Bool} {node : Node}
    (hn : g.get? id = some node) (he : g.expands id top = true) :
    g.write (d + 1) id top = g.writeShape (g.write d) node.shape := by
  simp only [expands, hn, Option.isSome_some, Bool.true_and, Bool.or_eq_true, Bool.not_eq_true'] at he
  simp only [write, hn]
  split
  · rename_i name hname
    have hr : g.ruleNamed id = !name.startsWith "'" := by simp [ruleNamed, nameOf, hn, hname]
    rcases he with rfl | he
    · simp
    · rw [he] at hr
      simp [← hr]
  · rfl

theorem write_of_not_expands {d : Nat} {id : NodeId} {top : Bool} (he : g.expands id top = false) :
    g.write (d + 1) id top = g.write 1 id top := by
  cases hn : g.get? id with
  | none => simp [write, hn]
  | some node =>
    simp only [expands, hn, Option.isSome_some, Bool.true_and, Bool.or_eq_false_iff,
      Bool.not_eq_false'] at he
    obtain ⟨rfl, hr⟩ := he
    obtain ⟨node', name, hn', hname, hstart⟩ := ruleNamed_iff.mp hr
    rw [hn] at hn'
    cases hn'
    simp only [write, hn, hname, hstart, Bool.not_false, Bool.and_self, ↓reduceIte]

/-- Below the top a node that is not expanded is met by name, if it exists. -/
theorem write_met_of_not_expands {d : Nat} {id y : NodeId} {top : Bool}
    (he : g.expands id top = false) (hy : y ∈ (g.write (d + 1) id top).2) :
    y = id ∧ g.ruleNamed id = true ∧ id < g.size := by
  cases hn : g.get? id with
  | none => simp [write, hn] at hy
  | some node =>
    simp only [expands, hn, Option.isSome_some, Bool.true_and, Bool.or_eq_false_iff,
      Bool.not_eq_false'] at he
    obtain ⟨rfl, hr⟩ := he
    have hlt : id < g.size := by
      simp only [get?, Array.getElem?_eq_some_iff] at hn
      exact hn.1
    revert hr hy
    simp only [ruleNamed, nameOf, hn, Option.bind_some, write]
    split <;> simp_all

/-! ## Writing a shape -/

theorem writeAll_congr {sub sub' : NodeId → Bool → Written} {ids : List NodeId} {least : Rank}
    {sep : String} (h : ∀ c ∈ ids, sub c false = sub' c false) :
    writeAll sub ids least sep = writeAll sub' ids least sep := by
  have hparts : ids.map (fun id => writeAt sub id least) = ids.map (fun id => writeAt sub' id least) :=
    List.map_congr_left fun c hc => by simp [writeAt, h c hc]
  simp only [writeAll, hparts]

theorem mem_writeAll_met {sub : NodeId → Bool → Written} {ids : List NodeId} {least : Rank}
    {sep : String} {y : NodeId} (hy : y ∈ (writeAll sub ids least sep).2) :
    ∃ c ∈ ids, y ∈ (sub c false).2 := by
  simp only [writeAll, List.map_map, List.mem_flatten, List.mem_map, Function.comp] at hy
  obtain ⟨_, ⟨c, hc, rfl⟩, hy⟩ := hy
  exact ⟨c, hc, by simpa [writeAt] using hy⟩

/-- A shape is written from what its written children give, nothing else. -/
theorem writeShape_congr {sub sub' : NodeId → Bool → Written} {s : Shape}
    (h : ∀ c ∈ g.writeChildren s, sub c false = sub' c false) :
    g.writeShape sub s = g.writeShape sub' s := by
  cases s with
  | seq parts =>
    simp only [writeChildren, Shape.children] at h
    simp only [writeShape, writeAll_congr h]
  | choice alternatives =>
    simp only [writeChildren, Shape.children] at h
    simp only [writeShape, writeAll_congr h]
  | optional body =>
    simp only [writeChildren] at h
    simp only [writeShape]
    split <;> simp_all [writeAt]
  | oneOrMore body => simp [writeShape, writeAt, h body (by simp [writeChildren, Shape.children])]
  | notFollowedBy body =>
    simp [writeShape, writeAt, h body (by simp [writeChildren, Shape.children])]
  | _ => rfl

/-- What is met writing a shape is met writing one of its written children. -/
theorem mem_writeShape_met {sub : NodeId → Bool → Written} {s : Shape} {y : NodeId}
    (hy : y ∈ (g.writeShape sub s).2) : ∃ c ∈ g.writeChildren s, y ∈ (sub c false).2 := by
  cases s with
  | seq parts =>
    simp only [writeShape] at hy
    simpa [writeChildren, Shape.children] using mem_writeAll_met hy
  | choice alternatives =>
    simp only [writeShape] at hy
    simpa [writeChildren, Shape.children] using mem_writeAll_met hy
  | optional body =>
    simp only [writeShape] at hy
    simp only [writeChildren]
    split at hy <;> simp_all [writeAt]
  | oneOrMore body => simpa [writeShape, writeAt, writeChildren, Shape.children] using hy
  | notFollowedBy body => simpa [writeShape, writeAt, writeChildren, Shape.children] using hy
  | _ => simp [writeShape] at hy

/-! ## Enough levels -/

/-- Once the recursion of `write` finishes within `k` levels, more levels write the same. -/
theorem Finishes.write_eq {k : Nat} {id : NodeId} {top : Bool} (h : g.Finishes k id top) :
    ∀ {k' : Nat}, k ≤ k' → g.write k' id top = g.write k id top := by
  induction h with
  | stop he =>
    intro k' hk
    obtain ⟨d, rfl⟩ : ∃ d, k' = d + 1 := ⟨k' - 1, by omega⟩
    exact (write_of_not_expands he).trans (write_of_not_expands he).symm
  | expand hn he _ ih =>
    intro k' hk
    obtain ⟨d, rfl⟩ : ∃ d, k' = d + 1 := ⟨k' - 1, by omega⟩
    rw [write_of_expands hn he, write_of_expands hn he]
    exact writeShape_congr fun c hc => ih c hc (by omega)

theorem ruleNamed_of_name_none {b : NodeId} {node : Node} (hb : g.get? b = some node)
    (hname : node.name = none) : g.ruleNamed b = false := by
  simp [ruleNamed, nameOf, hb, hname]

theorem lt_size_of_get? {x : NodeId} {node : Node} (hn : g.get? x = some node) : x < g.size := by
  simp only [get?, Array.getElem?_eq_some_iff] at hn
  exact hn.1

theorem lt_size_of_mem_children {x y : NodeId} (hy : y ∈ g.children x) : x < g.size := by
  cases hn : g.get? x with
  | none => simp [children, hn] at hy
  | some node => exact lt_size_of_get? hn

/-- A node written inside another is its child, or the child of an unnamed repetition that is
its child. -/
theorem writeChild_edge {x c : NodeId} {node : Node} (hn : g.get? x = some node)
    (hc : c ∈ g.writeChildren node.shape) :
    c ∈ g.children x ∨ ∃ b body, g.get? b = some body ∧ body.name = none ∧ b ∈ g.children x ∧
      c ∈ g.children b := by
  have hchildren : g.children x = node.shape.children := by simp [children, hn]
  rw [hchildren]
  cases hs : node.shape with
  | optional body =>
    rw [hs] at hc
    simp only [writeChildren] at hc
    split at hc
    · rename_i inner hb
      refine .inr ⟨body, _, hb, rfl, by simp [Shape.children], ?_⟩
      simpa [children, hb, Shape.children] using hc
    · exact .inl (by simpa [Shape.children] using hc)
  | _ => rw [hs] at hc; exact .inl (by simpa [writeChildren] using hc)

/-- Writing inline from a node to a node written inside it, when that node has no rule name,
follows edges into nodes without one. -/
theorem bare_of_writeChild {x c : NodeId} {node : Node} (hn : g.get? x = some node)
    (hc : c ∈ g.writeChildren node.shape) (hcr : g.ruleNamed c = false) :
    TransGen g.BareEdge x c := by
  rcases writeChild_edge hn hc with hxc | ⟨b, body, hb, hname, hxb, hbc⟩
  · exact .single ⟨hxc, hcr⟩
  · exact .tail (.single ⟨hxb, ruleNamed_of_name_none hb hname⟩) ⟨hbc, hcr⟩

theorem reachable_of_writeChild {r x c : NodeId} {node : Node} (hx : x ∈ g.reachable r)
    (hn : g.get? x = some node) (hc : c ∈ g.writeChildren node.shape) (hcs : c < g.size) :
    c ∈ g.reachable r := by
  rcases writeChild_edge hn hc with hxc | ⟨b, body, hb, -, hxb, hbc⟩
  · exact reachable_closed hx hxc hcs
  · exact reachable_closed (reachable_closed hx hxb (lt_size_of_get? hb)) hbc hcs

/-- Below the top, `write` finishes within the levels left as long as the nodes it is inside,
`path`, are distinct nodes and closed a cycle of edges into unnamed nodes with the current node
whenever it has no rule name: a node of the path cannot come again below itself. -/
theorem finishes_below {r : NodeId} (hcyc : g.RuleCycles r) :
    ∀ (k : Nat) (x : NodeId) (path : List NodeId), (x < g.size → x ∈ g.reachable r) →
      path.Nodup → (∀ y ∈ path, y < g.size) →
      (g.ruleNamed x = false → ∀ y ∈ path, TransGen g.BareEdge y x) →
      g.size + 1 ≤ k + path.length → g.Finishes k x false
  | 0, _, path, _, hnd, hlt, _, hk => by
    -- a path of distinct nodes is no longer than the graph
    have hlen := (List.Nodup.subperm hnd fun y hy => List.mem_range.mpr (hlt y hy)).length_le
    simp only [List.length_range] at hlen
    omega
  | k + 1, x, path, hx, hnd, hlt, hpath, hk => by
    cases he : g.expands x false with
    | false => exact .stop he
    | true =>
      obtain ⟨node, hn⟩ : ∃ node, g.get? x = some node :=
        Option.isSome_iff_exists.mp (by simp only [expands, Bool.and_eq_true] at he; exact he.1)
      have hxr : g.ruleNamed x = false := by simpa [expands, hn] using he
      have hxs := lt_size_of_get? hn
      have hxp : x ∉ path := fun hmem => hcyc x (hx hxs) (hpath hxr x hmem)
      refine .expand hn he fun c hc => ?_
      refine finishes_below hcyc k c (x :: path)
        (fun hcs => reachable_of_writeChild (hx hxs) hn hc hcs) (List.nodup_cons.mpr ⟨hxp, hnd⟩)
        (by simpa [hxs] using hlt) (fun hcr y hy => ?_) (by simp only [List.length_cons]; omega)
      have hxc := bare_of_writeChild hn hc hcr
      rcases List.mem_cons.mp hy with rfl | hy
      · exact hxc
      · exact (hpath hxr y hy).trans hxc

/-- When every cycle through the part of the graph that `r` reaches passes through a node with a
rule name, the recursion of `write` from any node of that part finishes within the levels
`dump` gives it. -/
theorem finishes_of_ruleCycles {r x : NodeId} (hcyc : g.RuleCycles r) (hx : x ∈ g.reachable r)
    (top : Bool) : g.Finishes (g.size + 1) x top := by
  have hxs := lt_size_of_mem_reachable hx
  cases top with
  | false => exact finishes_below hcyc _ x [] (fun _ => hx) List.nodup_nil (by simp) (by simp) (by simp)
  | true =>
    cases he : g.expands x true with
    | false => exact .stop he
    | true =>
      obtain ⟨node, hn⟩ : ∃ node, g.get? x = some node :=
        Option.isSome_iff_exists.mp (by simp only [expands, Bool.and_eq_true] at he; exact he.1)
      -- on top the node is written whatever its name, and the path below starts with it
      refine .expand hn he fun c hc => finishes_below hcyc _ c [x]
        (fun hcs => reachable_of_writeChild hx hn hc hcs) (by simp) (by simp [hxs])
        (fun hcr y hy => ?_) (by simp)
      rw [List.mem_singleton.mp hy]
      exact bare_of_writeChild hn hc hcr

/-- A ranking of the nodes that every edge into a node without a rule name descends leaves every
cycle a node with a rule name. -/
theorem ruleCycles_of_rank {r : NodeId} (f : NodeId → Nat)
    (hf : ∀ x ∈ g.reachable r, ∀ y ∈ g.children x, g.ruleNamed y = false → f y < f x) :
    g.RuleCycles r := by
  -- along a path of such edges from a node `r` reaches, the rank only goes down
  have hdown : ∀ a b, TransGen g.BareEdge a b → a ∈ g.reachable r →
      f b < f a ∧ (b < g.size → b ∈ g.reachable r) := by
    intro a b hab
    induction hab using TransGen.head_induction_on with
    | @single a hab =>
      intro ha
      exact ⟨hf a ha b hab.1 hab.2, fun hbs => reachable_closed ha hab.1 hbs⟩
    | @head a c hac hcb ih =>
      intro ha
      have hcs : c < g.size := by
        obtain ⟨d, hcd, -⟩ := TransGen.head'_iff.mp hcb
        exact lt_size_of_mem_children hcd.1
      obtain ⟨hlt, hb⟩ := ih (reachable_closed ha hac.1 hcs)
      exact ⟨Nat.lt_trans hlt (hf a ha c hac.1 hac.2), hb⟩
  intro x hx hxx
  exact Nat.lt_irrefl _ (hdown x x hxx hx).1

/-! ## The queue of rules -/

/-- The nodes met by name writing the line of node `id`, in the order they were met. -/
def met (g : Grammar) (id : NodeId) : List NodeId := (g.write (g.size + 1) id true).2

/-- The line `dump` writes for node `id`. -/
def ruleLine (g : Grammar) (id : NodeId) : String :=
  (g.nameOf id).getD "<anonymous>" ++ " ::= " ++ (g.write (g.size + 1) id true).1.1 ++ "\n"

/-- The nodes `dumpLines` writes a line for, in order. -/
def emitted (g : Grammar) : Nat → List NodeId → List NodeId → List NodeId
  | 0, _, _ => []
  | lines + 1, queue, written =>
    match queue.dropWhile written.contains with
    | [] => []
    | id :: rest => id :: g.emitted lines (rest ++ g.met id) (id :: written)

/-- The order in which a breadth-first discovery from `r` writes its lines: each node is the
first node of the queue (the root, then what the lines so far met, in order) without a line yet,
and the discovery stops when every node the queue holds has its line. -/
structure Discovers (g : Grammar) (r : NodeId) (E : List NodeId) : Prop where
  nodup : E.Nodup
  first : ∀ k < E.length,
    (r :: (E.take k).flatMap g.met).find? (fun y => !(E.take k).contains y) = E[k]?
  closed : ∀ y ∈ r :: E.flatMap g.met, y ∈ E

/-- A breadth-first discovery has one order only: the queue decides each next node from the
lines before it, and stops once it holds none without a line. -/
theorem Discovers.unique {r : NodeId} {E E' : List NodeId} (h : g.Discovers r E)
    (h' : g.Discovers r E') : E = E' := by
  -- the two orders agree on every prefix
  have hprefix : ∀ k, E.take k = E'.take k := by
    intro k
    induction k with
    | zero => simp
    | succ k ih =>
      rw [List.take_add_one, List.take_add_one, ih]
      by_cases hk : k < E.length <;> by_cases hk' : k < E'.length
      · rw [← h.first k hk, ← h'.first k hk', ih]
      · -- the other order ended: it holds everything its queue met, so nothing is left here
        have hall : E'.take k = E' := List.take_of_length_le (by omega)
        have hnone := h.first k hk
        rw [ih, hall, List.find?_eq_none.mpr fun y hy => by simpa using h'.closed y hy] at hnone
        simp [List.getElem?_eq_getElem hk] at hnone
      · have hall : E.take k = E := List.take_of_length_le (by omega)
        have hnone := h'.first k hk'
        rw [← ih, hall, List.find?_eq_none.mpr fun y hy => by simpa using h.closed y hy] at hnone
        simp [List.getElem?_eq_getElem hk'] at hnone
      · simp [List.getElem?_eq_none (Nat.le_of_not_lt hk), List.getElem?_eq_none (Nat.le_of_not_lt hk')]
  have hE := hprefix (max E.length E'.length)
  rwa [List.take_of_length_le (by omega), List.take_of_length_le (by omega)] at hE

theorem dumpLines_eq : ∀ (n : Nat) (queue written : List NodeId) (out : String),
    g.dumpLines n queue written out =
      out ++ String.join ((g.emitted n queue written).map g.ruleLine)
  | 0, _, _, out => by simp [dumpLines, emitted]
  | n + 1, queue, written, out => by
    simp only [dumpLines, emitted]
    cases h : queue.dropWhile written.contains with
    | nil => simp
    | cons id rest =>
      simp only
      rw [dumpLines_eq n]
      simp [ruleLine, met, String.append_assoc]

/-- What `write` meets by name has a rule name and is reached from where it started. -/
theorem mem_write_met : ∀ (k : Nat) (x : NodeId) (top : Bool) (y : NodeId),
    y ∈ (g.write k x top).2 →
      g.ruleNamed y = true ∧ x < g.size ∧ ∀ r, x ∈ g.reachable r → y ∈ g.reachable r
  | 0, _, _, _, hy => by simp [write] at hy
  | k + 1, x, top, y, hy => by
    cases he : g.expands x top with
    | false =>
      obtain ⟨rfl, hr, hxs⟩ := write_met_of_not_expands he hy
      exact ⟨hr, hxs, fun _ hx => hx⟩
    | true =>
      obtain ⟨node, hn⟩ : ∃ node, g.get? x = some node :=
        Option.isSome_iff_exists.mp (by simp only [expands, Bool.and_eq_true] at he; exact he.1)
      rw [write_of_expands hn he] at hy
      obtain ⟨c, hc, hyc⟩ := mem_writeShape_met hy
      obtain ⟨hr, hcs, hreach⟩ := mem_write_met k c false y hyc
      exact ⟨hr, lt_size_of_get? hn,
        fun r hx => hreach r (reachable_of_writeChild hx hn hc hcs)⟩

/-- A list of distinct nodes, each the root or a node of the graph, that is longer than the graph
holds every node of the graph. -/
theorem mem_of_length_le {r n z : Nat} {w : List Nat} (hnd : w.Nodup)
    (hw : ∀ y ∈ w, y = r ∨ y < n) (hlen : n + 1 ≤ w.length) (hz : z = r ∨ z < n) : z ∈ w := by
  by_cases hr : r < n
  · have hsub : w ⊆ List.range n := fun y hy => List.mem_range.mpr (by rcases hw y hy with rfl | h <;> omega)
    have := (hnd.subperm hsub).length_le
    simp only [List.length_range] at this
    omega
  · have hS : (r :: List.range n).Nodup := List.nodup_cons.mpr ⟨by simpa using hr, List.nodup_range⟩
    have hsub : w ⊆ r :: List.range n := fun y hy => by
      rcases hw y hy with rfl | h
      · exact List.mem_cons_self
      · exact List.mem_cons_of_mem _ (List.mem_range.mpr h)
    have hperm := (hnd.subperm hsub).perm_of_length_le (by simpa using hlen)
    exact hperm.mem_iff.mpr (by rcases hz with rfl | h <;> simp [*])

theorem find?_of_dropWhile {p : Nat → Bool} : ∀ {l rest : List Nat} {x : Nat},
    l.dropWhile p = x :: rest → l.find? (fun y => !p y) = some x
  | [], _, _, h => by simp at h
  | y :: l, rest, x, h => by
    by_cases hy : p y = true
    · rw [List.dropWhile_cons_of_pos hy] at h
      simp [hy, find?_of_dropWhile h]
    · rw [List.dropWhile_cons_of_neg hy] at h
      cases h
      simp [hy]

/-- What the queue of `dumpLines` holds between two lines: after what already has its line,
exactly what the root and the lines written so far met, in order; every node on the way is the
root or a node with a rule name that the root reaches, and the lines so far are of distinct
nodes. -/
structure Queued (g : Grammar) (r : NodeId) (queue written : List NodeId) : Prop where
  holds : ∃ pre, r :: written.reverse.flatMap g.met = pre ++ queue ∧ ∀ y ∈ pre, y ∈ written
  nodup : written.Nodup
  named : ∀ y ∈ written ++ queue, y = r ∨ (g.ruleNamed y = true ∧ y ∈ g.reachable r)

namespace Queued

variable {r : NodeId} {queue written : List NodeId}

theorem init : g.Queued r [r] [] :=
  ⟨⟨[], by simp, by simp⟩, List.nodup_nil, by simp⟩

/-- The next line is for the first node of the queue without a line. -/
theorem find? {id : NodeId} {rest : List NodeId} (h : g.Queued r queue written)
    (hd : queue.dropWhile written.contains = id :: rest) :
    (r :: written.reverse.flatMap g.met).find? (fun y => !written.reverse.contains y) = some id := by
  obtain ⟨pre, hpre, hin⟩ := h.holds
  rw [hpre, List.find?_append]
  have hnone : pre.find? (fun y => !written.reverse.contains y) = none :=
    List.find?_eq_none.mpr fun y hy => by simp [hin y hy]
  rw [hnone, Option.none_or]
  simpa using find?_of_dropWhile hd

/-- Writing the line of the first node without one keeps the queue as it should be. -/
theorem step {id : NodeId} {rest : List NodeId} (h : g.Queued r queue written)
    (hd : queue.dropWhile written.contains = id :: rest) :
    g.Queued r (rest ++ g.met id) (id :: written) := by
  obtain ⟨pre, hpre, hin⟩ := h.holds
  obtain ⟨skipped, hskipped⟩ : ∃ l, l = queue.takeWhile written.contains := ⟨_, rfl⟩
  have hsplit := List.takeWhile_append_dropWhile (p := written.contains) (l := queue)
  rw [hd, ← hskipped] at hsplit
  have hid : id ∈ queue := by rw [← hsplit]; simp
  have hnew : id ∉ written := by
    have := List.head?_dropWhile_not written.contains queue
    simpa [hd] using this
  -- the node and the nodes skipped before it join what is behind the queue's front
  refine ⟨⟨pre ++ skipped ++ [id], ?_, ?_⟩,
    List.nodup_cons.mpr ⟨hnew, h.nodup⟩, ?_⟩
  · rw [List.reverse_cons, List.flatMap_append, ← List.cons_append, hpre, ← hsplit]
    simp
  · intro y hy
    simp only [List.mem_append, List.mem_singleton] at hy
    rcases hy with (hy | hy) | rfl
    · exact List.mem_cons_of_mem _ (hin y hy)
    · have hall := List.all_eq_true.mp (hskipped ▸ List.all_takeWhile) y hy
      exact List.mem_cons_of_mem _ (by simpa using hall)
    · exact List.mem_cons_self
  · intro y hy
    have hidn := h.named id (List.mem_append_right _ hid)
    simp only [List.mem_append, List.mem_cons] at hy
    rcases hy with (rfl | hy) | hy | hy
    · exact hidn
    · exact h.named y (List.mem_append_left _ hy)
    · exact h.named y (List.mem_append_right _ (by rw [← hsplit]; simp [hy]))
    · -- a node met writing the line has a rule name and is reached through the node
      obtain ⟨hr, hids, hreach⟩ := mem_write_met _ _ _ _ hy
      refine .inr ⟨hr, hreach r ?_⟩
      rcases hidn with rfl | ⟨-, hidr⟩
      · exact mem_reachable_self hids
      · exact hidr

/-- When no node of the queue is without a line, everything met has its line. -/
theorem closed_of_nil (h : g.Queued r queue written) (hd : queue.dropWhile written.contains = []) :
    ∀ y ∈ r :: written.reverse.flatMap g.met, y ∈ written := by
  obtain ⟨pre, hpre, hin⟩ := h.holds
  rw [hpre]
  intro y hy
  rcases List.mem_append.mp hy with hy | hy
  · exact hin y hy
  · simpa using List.dropWhile_eq_nil_iff.mp hd y hy

/-- Lines for more nodes than the graph has leave none without its line. -/
theorem closed_of_length (h : g.Queued r queue written) (hlen : g.size + 1 ≤ written.length) :
    ∀ y ∈ r :: written.reverse.flatMap g.met, y ∈ written := by
  obtain ⟨pre, hpre, hin⟩ := h.holds
  -- every node on the way is the root or a node of the graph
  have hnode : ∀ y ∈ written ++ queue, y = r ∨ y < g.size := fun y hy =>
    (h.named y hy).imp_right fun hy => lt_size_of_mem_reachable hy.2
  intro y hy
  rw [hpre] at hy
  rcases List.mem_append.mp hy with hy | hy
  · exact hin y hy
  · exact mem_of_length_le h.nodup (fun y hy => hnode y (List.mem_append_left _ hy)) hlen
      (hnode y (List.mem_append_right _ hy))

end Queued

/-- The run of the queue: from a queue as it should be, the lines to come are distinct new
nodes, each the first of the queue without a line, every one the root or a node with a rule name
that the root reaches, and once the levels run out or the queue has none without a line,
everything met has its line. -/
theorem emitted_spec (r : NodeId) : ∀ (n : Nat) (queue written : List NodeId),
    g.Queued r queue written → ∀ E, E = written.reverse ++ g.emitted n queue written →
      E.Nodup ∧ (∀ y ∈ E, y = r ∨ (g.ruleNamed y = true ∧ y ∈ g.reachable r)) ∧
      (∀ k, written.length ≤ k → k < E.length →
        (r :: (E.take k).flatMap g.met).find? (fun y => !(E.take k).contains y) = E[k]?) ∧
      (g.size + 1 ≤ n + written.length → ∀ y ∈ r :: E.flatMap g.met, y ∈ E)
  | 0, queue, written, hq, E, hE => by
    simp only [emitted, List.append_nil] at hE
    subst hE
    refine ⟨List.nodup_reverse.mpr hq.nodup, fun y hy => hq.named y (by simp_all),
      fun k hk hkE => by simp at hkE; omega, fun hlen => ?_⟩
    simpa using hq.closed_of_length (by simpa using hlen)
  | n + 1, queue, written, hq, E, hE => by
    cases hd : queue.dropWhile written.contains with
    | nil =>
      simp only [emitted, hd, List.append_nil] at hE
      subst hE
      refine ⟨List.nodup_reverse.mpr hq.nodup, fun y hy => hq.named y (by simp_all),
        fun k hk hkE => by simp at hkE; omega, fun _ => ?_⟩
      simpa using hq.closed_of_nil hd
    | cons id rest =>
      have hE' : E = (id :: written).reverse ++ g.emitted n (rest ++ g.met id) (id :: written) := by
        rw [hE]
        simp [emitted, hd]
      obtain ⟨hnd, hnamed, hfirst, hclosed⟩ := emitted_spec r n _ _ (hq.step hd) E hE'
      refine ⟨hnd, hnamed, fun k hk hkE => ?_, fun hlen => hclosed (by simp; omega)⟩
      rcases Nat.lt_or_ge k (written.length + 1) with hk' | hk'
      · -- the line just written: the lines before it are those written so far
        obtain rfl : k = written.length := by omega
        have htake : E.take written.length = written.reverse := by
          rw [hE']
          simp
        rw [htake, hq.find? hd, hE']
        simp
      · exact hfirst k (by simpa using hk') hkE

/-- `dump` writes the lines of a breadth-first discovery from the root: one line for the root and
one for each node with a rule name that the lines met, each once, in the order first met. -/
theorem dump_discovers (g : Grammar) (r : NodeId) :
    g.Discovers r (g.emitted (g.size + 1) [r] []) ∧
      (∀ y ∈ g.emitted (g.size + 1) [r] [], y = r ∨ (g.ruleNamed y = true ∧ y ∈ g.reachable r)) ∧
      g.dump r = String.join ((g.emitted (g.size + 1) [r] []).map g.ruleLine) := by
  obtain ⟨hnd, hnamed, hfirst, hclosed⟩ :=
    emitted_spec r (g.size + 1) [r] [] Queued.init _ (List.nil_append _).symm
  exact ⟨⟨hnd, fun k hk => hfirst k (Nat.zero_le k) hk, hclosed (by simp)⟩, hnamed,
    by simp [dump, dumpLines_eq]⟩

end Tokenweave.Grammar
