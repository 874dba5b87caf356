import Tokenweave.Proofs.Lowering.Passes
import Tokenweave.Proofs.DumpLines
/-!
# Lowering builds descending graphs

Lowering adds a graph node only once its children are in the graph, so every child edge of the
graph it builds points to an earlier node. The edges that lead back up, and so close cycles,
come later, from linking, and each of them leads into the body of a rule, which lowering names
after the rule. A rule's name is a word of the notation, whose characters are letters, digits
and underscores: it never begins with an apostrophe, so each such body has a rule name.

The facts are invariants of the state of lowering (`Descending`): the graph's edges descend,
every node the tree or the table of references holds is in the graph, the body of every rule
that is not an alias has a rule name, and every `word` of the tree reads a plain word. The steps
of lowering keep them, told by partial triples (`Keeps`): a step that ends well, from a state
with the invariant, ends in a state with it. Failures need no care here: a grammar lowered is a
grammar whose lowering ended well.

Main statements: `parse_wordsPlain` (the words of grammar text, as parsed) and
`lower_descending` (what lowering returns).
-/

set_option autoImplicit false

namespace Tokenweave

/-! ## Words and payloads of a tree -/

namespace ParseTree

variable {t u : ParseTree}

/-- Every node named `word` reads a text that does not begin with an apostrophe. -/
def WordsPlain (t : ParseTree) : Prop :=
  ∀ h, t.name h = some "word" → (t.value h).startsWith "'" = false

/-- Every payload the tree carries is a node below `n`. -/
def PayloadsBelow (t : ParseTree) (n : Nat) : Prop :=
  ∀ h id, t.payload h = some id → id < n

theorem PayloadsBelow.mono {n m : Nat} (h : t.PayloadsBelow n) (hnm : n ≤ m) : t.PayloadsBelow m :=
  fun x id hx => Nat.lt_of_lt_of_le (h x id hx) hnm

theorem Relinked.wordsPlain (hr : Relinked t u) (hs : u.source = t.source) (h : t.WordsPlain) :
    u.WordsPlain := by
  intro x hx
  rw [hr.value_eq hs]
  exact h x (by rwa [← hr.name_eq])

theorem Relinked.payloadsBelow {n : Nat} (hr : Relinked t u) (h : t.PayloadsBelow n) :
    u.PayloadsBelow n := by
  intro x id hx
  exact h x id (by rwa [← Dialect.Relinked.payload_eq hr])

theorem relinked_cullAt (fs : List Filter) :
    ∀ (d : Nat) (t : ParseTree) (h : Handle), Relinked t (cullAt fs d t h)
  | 0, t, _ => Relinked.refl t
  | d + 1, t, h => by
    rw [cullAt]
    generalize t.children h = cs
    induction cs generalizing t with
    | nil => exact Relinked.refl t
    | cons c cs ih =>
      rw [List.foldl_cons]
      refine Relinked.trans ?_ (ih _)
      dsimp only
      have hc := relinked_cullAt fs d t c
      split
      · exact hc
      · exact hc.trans (relinked_remove c)
      · exact hc.trans (relinked_liftChildren c)

theorem relinked_cull (h : Handle) (fs : List Filter) : Relinked t (t.cull h fs) :=
  relinked_cullAt fs _ t h

theorem payload_setValue (x y : Handle) (v : String) : (t.setValue x v).payload y = t.payload y := by
  simp only [setValue, payload, entry, modifyEntry, Array.getElem?_modify]
  split
  · cases t.entries[y]? <;> rfl
  · rfl

/-- Setting the value of a node that is not a word keeps the words plain. -/
theorem WordsPlain.setValue {x : Handle} {v : String} (h : t.WordsPlain)
    (hx : t.name x ≠ some "word") : (t.setValue x v).WordsPlain := by
  intro y hy
  rw [(Dialect.retouched_setValue x v).name] at hy
  rcases Dialect.value_setValue x y v with hv | ⟨-, rfl⟩
  · rw [hv]
    exact h y hy
  · exact absurd hy hx

theorem PayloadsBelow.setValue {n : Nat} {x : Handle} {v : String} (h : t.PayloadsBelow n) :
    (t.setValue x v).PayloadsBelow n := by
  intro y id hy
  rw [payload_setValue] at hy
  exact h y id hy

theorem WordsPlain.setPayload {x : Handle} {id : NodeId} (h : t.WordsPlain) :
    (t.replaceWith x (.payload id)).WordsPlain := by
  intro y hy
  rw [Dialect.value_setPayload]
  exact h y (by rwa [(Dialect.retouched_setPayload x id).name] at hy)

theorem PayloadsBelow.setPayload {n : Nat} {x : Handle} {id : NodeId} (h : t.PayloadsBelow n)
    (hid : id < n) : (t.replaceWith x (.payload id)).PayloadsBelow n := by
  intro y id' hy
  by_cases hyx : y = x
  · subst hyx
    have hlt : y < t.size := by
      by_contra hge
      have hnone : (t.replaceWith y (.payload id)).payload y = none := by
        simp [replaceWith, payload, entry, modifyEntry, Array.getElem?_modify,
          Array.getElem?_eq_none (Nat.le_of_not_lt hge)]
        rfl
      rw [hnone] at hy
      cases hy
    rw [Dialect.payload_setPayload_self hlt] at hy
    cases hy
    exact hid
  · rw [Dialect.payload_setPayload_of_ne hyx] at hy
    exact h y id' hy

end ParseTree

/-! ## The words of grammar text -/

namespace Dialect

set_option maxRecDepth 100000 in
/-- The notation's words are one or more word characters. -/
theorem bnf_word : ∀ k < bnf.1.size, bnf.1.nameOf k = some "word" →
    (match bnf.1.shape? k with
      | some (.oneOrMore wc) => decide (bnf.1.shape? wc = some (Shape.charClass wordChars false))
      | _ => false) = true := by
  decide +kernel

theorem apostrophe_not_wordChar : '\'' ∉ Shape.classMembers wordChars := by
  decide +kernel

/-- A text that starts with a word character does not start with an apostrophe. -/
theorem startsWith_apostrophe_of_wordChar {c : Char} {rest : String}
    (hc : c ∈ Shape.classMembers wordChars) : (String.singleton c ++ rest).startsWith "'" = false := by
  have hne : c ≠ '\'' := fun h => apostrophe_not_wordChar (h ▸ hc)
  simp [Ne.symm hne]

/-- A parse by a node of one or more word characters reads a word character first. -/
theorem Produces.word_head {s : String} {k : NodeId} {p : Nat} {q : Parsed}
    (hk : k < bnf.1.size) (hname : bnf.1.nameOf k = some "word") (h : Produces bnf.1 s k p q) :
    ∃ c, Text.charAt? s p = some c ∧ c ∈ Shape.classMembers wordChars ∧ p + c.utf8Size ≤ q.stop := by
  -- the node repeats one node, a class of word characters
  have hword : ∀ nd, bnf.1.get? k = some nd → ∃ wc, nd.shape = .oneOrMore wc ∧
      bnf.1.shape? wc = some (Shape.charClass wordChars false) := by
    intro nd hnd
    have hcheck := bnf_word k hk hname
    rw [Grammar.shape?, hnd, Option.map_some] at hcheck
    revert hcheck
    cases nd.shape <;> simp
  cases h with
  | leaf hnd hcov =>
    obtain ⟨wc, hsh, -⟩ := hword _ hnd
    rw [hsh] at hcov
    exact hcov.elim
  | seq hnd hsh _ => obtain ⟨wc, hsh', -⟩ := hword _ hnd; rw [hsh] at hsh'; cases hsh'
  | choice hnd hsh _ _ => obtain ⟨wc, hsh', -⟩ := hword _ hnd; rw [hsh] at hsh'; cases hsh'
  | optional hnd hsh _ => obtain ⟨wc, hsh', -⟩ := hword _ hnd; rw [hsh] at hsh'; cases hsh'
  | oneOrMore hnd hsh hne hall =>
    obtain ⟨wc, hsh', hwc⟩ := hword _ hnd
    rw [hsh] at hsh'
    rw [Shape.oneOrMore.inj hsh'] at hall
    obtain ⟨c₁, cs, rfl⟩ := List.exists_cons_of_ne_nil hne
    rw [List.length_cons, List.replicate_succ] at hall
    cases hall with
    | cons hfirst hrest =>
      have hstop := hrest.le
      -- the first repetition is one character of the class
      rw [Grammar.shape?, Option.map_eq_some_iff] at hwc
      obtain ⟨nd, hnd', hsh''⟩ := hwc
      cases hfirst with
      | leaf hnd₁ hcov =>
        rw [hnd₁] at hnd'
        cases hnd'
        rw [hsh'', Shape.charClass, Shape.Covers] at hcov
        obtain ⟨c, hc, hacc, hend⟩ := Shape.charEnd_eq_some hcov
        refine ⟨c, hc, by simpa [Shape.accepts] using hacc, ?_⟩
        simp only [Parsed.stop_mk] at hend hstop ⊢
        omega
      | seq hnd₁ hsh₁ _ => rw [hnd₁] at hnd'; cases hnd'; rw [hsh''] at hsh₁; cases hsh₁
      | choice hnd₁ hsh₁ _ _ => rw [hnd₁] at hnd'; cases hnd'; rw [hsh''] at hsh₁; cases hsh₁
      | oneOrMore hnd₁ hsh₁ _ _ => rw [hnd₁] at hnd'; cases hnd'; rw [hsh''] at hsh₁; cases hsh₁
      | optional hnd₁ hsh₁ _ => rw [hnd₁] at hnd'; cases hnd'; rw [hsh''] at hsh₁; cases hsh₁

open ParseTree in
/-- The stripped parse of grammar text carries no payload, and reads a plain word at every node
named `word`. -/
theorem parse_wordsPlain {source : String} {limits : Limits} {t : ParseTree}
    (h : parse source limits = .ok t) : t.WordsPlain ∧ t.PayloadsBelow 0 := by
  unfold parse at h
  split at h
  · cases h
  · rename_i t₀ htok
    cases h
    obtain ⟨o, q, hmatch, hq, rfl⟩ := Lexer.tokenize_eq_ok htok
    simp only [lexer] at hmatch
    have hprod := produces_of_matchAt hmatch hq
    have ht := parseOf_ofParsed bnf_choicesUnnamed hprod
    have hr := relinked_cull (t := ofParsed source q) (ofParsed source q).root stripFilters
    refine ⟨hr.wordsPlain (source_cull _ _ _) fun x hx => ?_, hr.payloadsBelow fun x id hx => ?_⟩
    · have hxs : x < (ofParsed source q).size := by
        by_contra hge
        rw [name, entry_of_size_le (Nat.le_of_not_lt hge)] at hx
        cases hx
      -- the node was built from a part of the parse that its grammar node produced
      obtain ⟨_, _, q', hb, p', hq'⟩ := ofParsed_every
        (P := fun q' => ∃ p', Produces bnf.1 source q'.node p' q')
        (fun _ hq' c hc => by
          obtain ⟨_, h'⟩ := hq'
          obtain ⟨_, -, p', hc'⟩ := h'.child c hc
          exact ⟨p', hc'.self bnf_choicesUnnamed⟩) ⟨0, hprod.self bnf_choicesUnnamed⟩ hxs
      obtain ⟨hnode, -, hstart, hstop, -⟩ := entry_of_built hb
      rw [ht.name_eq x hxs, hnode] at hx
      obtain ⟨c, hc, hmem, hle⟩ := Produces.word_head (hnode ▸ ht.node_lt x hxs) hx hq'
      rw [← hq'.start_eq] at hc hle
      obtain ⟨-, hvalid⟩ := matchAt_tree_spans hmatch hq x hxs
      simp only [validSpan, Bool.and_eq_true, decide_eq_true_eq, hstart, hstop] at hvalid
      obtain ⟨⟨⟨-, -⟩, hbstart⟩, hbstop⟩ := hvalid
      obtain ⟨hbc, hslice⟩ := Text.isBoundary_of_charAt hbstart hc
      rw [value_ofParsed hxs, hstart, hstop,
        ← Text.slice_append hbstart hbc hbstop (Nat.le_add_right _ _) hle, hslice]
      exact startsWith_apostrophe_of_wordChar hmem
    · -- no node of the parse carries a payload
      have hnone : (ofParsed source q).payload x = none := by
        by_cases hxs : x < (ofParsed source q).size
        · obtain ⟨_, _, q', hb, -⟩ :=
            ofParsed_every (P := fun _ => True) (fun _ _ _ _ => trivial) trivial hxs
          obtain ⟨hs, he, -⟩ := hb.entry
          simp [payload, entry, he]
        · rw [payload, entry_of_size_le (Nat.le_of_not_lt hxs)]
          rfl
      rw [hnone] at hx
      cases hx

end Dialect

/-! ## Adding and naming graph nodes -/

namespace Grammar

variable {g : Grammar}

theorem get?_add (s : Shape) (x : NodeId) :
    (g.add s).1.get? x = if x = g.size then some { shape := s } else g.get? x := by
  by_cases h : x = g.nodes.size <;> simp [add, get?, size, Array.getElem?_push, h]

@[simp] theorem size_add (s : Shape) : (g.add s).1.size = g.size + 1 := by
  simp [add, size]

theorem get?_setName (id : NodeId) (name : String) (x : NodeId) :
    (g.setName id name).get? x =
      if id = x then (g.get? x).map fun n => { n with name := some name } else g.get? x := by
  simp [setName, get?, Array.getElem?_modify]

@[simp] theorem size_setName (id : NodeId) (name : String) : (g.setName id name).size = g.size := by
  simp [setName, size]

theorem children_add_self (s : Shape) : (g.add s).1.children g.size = s.children := by
  simp [children, get?_add]

theorem children_add_of_ne {s : Shape} {x : NodeId} (hx : x ≠ g.size) :
    (g.add s).1.children x = g.children x := by
  simp [children, get?_add, hx]

/-- Adding a node leaves every node before it as it was. -/
theorem get?_add_of_lt {s : Shape} {x : NodeId} (hx : x < g.size) : (g.add s).1.get? x = g.get? x := by
  rw [get?_add, if_neg (Nat.ne_of_lt hx)]

theorem shape?_setName (id : NodeId) (name : String) (x : NodeId) :
    (g.setName id name).shape? x = g.shape? x := by
  by_cases h : id = x
  · subst h
    cases hx : g.get? id <;> simp [shape?, get?_setName, hx]
  · simp [shape?, get?_setName, h]

theorem children_setName (id : NodeId) (name : String) (x : NodeId) :
    (g.setName id name).children x = g.children x := by
  by_cases h : id = x
  · subst h
    cases hx : g.get? id <;> simp [children, get?_setName, hx]
  · simp [children, get?_setName, h]

/-- A node named by a name without an apostrophe in front has a rule name. -/
theorem ruleNamed_setName_self {id : NodeId} {name : String} (hid : id < g.size)
    (hname : name.startsWith "'" = false) : (g.setName id name).ruleNamed id = true := by
  obtain ⟨node, hn⟩ : ∃ node, g.get? id = some node := ⟨_, Array.getElem?_eq_getElem hid⟩
  simp [ruleNamed, nameOf, get?_setName, hn, hname]

theorem ruleNamed_setName_of_ne {id x : NodeId} {name : String} (hx : id ≠ x) :
    (g.setName id name).ruleNamed x = g.ruleNamed x := by
  simp [ruleNamed, nameOf, get?_setName, hx]

end Grammar

namespace Dialect.Lowering

variable {α β : Type}

/-- What lowering keeps: every edge of the graph points to an earlier node, every node the tree
or the table of references holds is in the graph, the body of every rule is in the graph and
has a rule name unless the rule is an alias, and every word of the tree is plain. -/
structure Descending (st : Lowering) : Prop where
  edges : ∀ x, ∀ c ∈ st.grammar.children x, c < x
  payloads : st.tree.PayloadsBelow st.grammar.size
  refs : ∀ p ∈ st.refs, p.2 < st.grammar.size
  bodies : ∀ e ∈ st.rules.entries, e.2 < st.grammar.size ∧
    ((st.grammar.shape? e.2).any Shape.isRef = false → st.grammar.ruleNamed e.2 = true)
  words : st.tree.WordsPlain

namespace Descending

variable {st : Lowering}

/-- A node added after its children keeps the graph descending. -/
theorem add {s : Shape} (h : Descending st) (hs : ∀ c ∈ s.children, c < st.grammar.size) :
    Descending { st with grammar := (st.grammar.add s).1 } := by
  refine ⟨fun x c hc => ?_, h.payloads.mono (by simp), fun p hp => ?_, fun e he => ?_, h.words⟩
  · by_cases hx : x = st.grammar.size
    · subst hx
      rw [Grammar.children_add_self] at hc
      exact hs c hc
    · rw [Grammar.children_add_of_ne hx] at hc
      exact h.edges x c hc
  · simpa using Nat.lt_succ_of_lt (h.refs p hp)
  · obtain ⟨hlt, hnamed⟩ := h.bodies e he
    have hshape : (st.grammar.add s).1.shape? e.2 = st.grammar.shape? e.2 := by
      simp [Grammar.shape?, Grammar.get?_add_of_lt hlt]
    have hrule : (st.grammar.add s).1.ruleNamed e.2 = st.grammar.ruleNamed e.2 := by
      simp [Grammar.ruleNamed, Grammar.nameOf, Grammar.get?_add_of_lt hlt]
    refine ⟨by simpa using Nat.lt_succ_of_lt hlt, fun hr => ?_⟩
    rw [hrule]
    exact hnamed (hshape ▸ hr)

/-- Naming a node keeps the invariant when the name is a rule name or the node is no rule's
body. -/
theorem setName {id : NodeId} {name : String} (h : Descending st)
    (hname : name.startsWith "'" = false ∨ ∀ e ∈ st.rules.entries, e.2 ≠ id) :
    Descending { st with grammar := st.grammar.setName id name } := by
  refine ⟨fun x c hc => h.edges x c (by rwa [Grammar.children_setName] at hc),
    by simpa using h.payloads, fun p hp => by simpa using h.refs p hp, fun e he => ?_, h.words⟩
  obtain ⟨hlt, hnamed⟩ := h.bodies e he
  refine ⟨by simpa using hlt, fun hr => ?_⟩
  rw [Grammar.shape?_setName] at hr
  by_cases hid : id = e.2
  · rcases hname with hname | hnot
    · subst hid
      exact Grammar.ruleNamed_setName_self hlt hname
    · exact absurd hid.symm (hnot e he)
  · rw [Grammar.ruleNamed_setName_of_ne hid]
    exact hnamed hr

/-- An edit that keeps the words plain and the payloads in the graph keeps the invariant. -/
theorem edit {f : ParseTree → ParseTree} (h : Descending st) (hw : (f st.tree).WordsPlain)
    (hp : (f st.tree).PayloadsBelow st.grammar.size) : Descending { st with tree := f st.tree } :=
  ⟨h.edges, hp, h.refs, h.bodies, hw⟩

end Descending

/-! ## Partial triples -/

/-- From a state satisfying `P`, if the step `x` ends well, its answer and state satisfy `Q`. -/
def Keeps (P : Lowering → Prop) (x : LowerM α) (Q : α → Lowering → Prop) : Prop :=
  ∀ st, P st → ∀ a st', x.run st = .ok (a, st') → Q a st'

variable {P P' : Lowering → Prop} {Q Q' : α → Lowering → Prop} {x : LowerM α}

theorem Keeps.conseq (h : Keeps P x Q) (hP : ∀ st, P' st → P st) (hQ : ∀ a st, Q a st → Q' a st) :
    Keeps P' x Q' :=
  fun st hst a st' hrun => hQ a st' (h st (hP st hst) a st' hrun)

/-- A triple holds from a state that satisfies more. -/
theorem Keeps.strengthen {R : Lowering → Prop} (h : Keeps P x Q) : Keeps (fun st => P st ∧ R st) x Q :=
  h.conseq (fun _ h => h.1) fun _ _ h => h

theorem Keeps.pure {a : α} (h : ∀ st, P st → Q a st) : Keeps P (pure a) Q := by
  intro st hst a' st' hrun
  simp only [StateT.run_pure] at hrun
  cases hrun
  exact h st hst

theorem Keeps.bind {R : β → Lowering → Prop} {f : α → LowerM β} (hx : Keeps P x Q)
    (hf : ∀ a, Keeps (Q a) (f a) R) : Keeps P (x >>= f) R := by
  intro st hst b st'' hrun
  simp only [StateT.run_bind] at hrun
  cases hx' : x.run st with
  | error e =>
    rw [hx'] at hrun
    cases hrun
  | ok r =>
    rw [hx'] at hrun
    exact hf r.1 r.2 (hx st hst r.1 r.2 hx') b st'' hrun

/-- A step that fails never ends well. -/
theorem keeps_throw {e : GrammarError} : Keeps P (throw e : LowerM α) Q := by
  intro st _ a st' hrun
  cases hrun

theorem keeps_malformed {h : Handle} : Keeps P (malformed h : LowerM α) Q := by
  unfold malformed
  intro st _ a st' hrun
  simp only [StateT.run_bind, current, StateT.run_get, pure_bind] at hrun
  cases hrun

/-- A step with a known run. -/
theorem keeps_of_run {f : Lowering → α × Lowering} (hrun : ∀ st, x.run st = .ok (f st))
    (h : ∀ st, P st → Q (f st).1 (f st).2) : Keeps P x Q := by
  intro st hst a st' hx
  rw [hrun st] at hx
  have hq := h st hst
  rwa [Except.ok.inj hx] at hq

theorem keeps_modify {f : Lowering → Lowering} {R : Unit → Lowering → Prop}
    (h : ∀ st, P st → R () (f st)) : Keeps P (modify f : LowerM Unit) R :=
  keeps_of_run (f := fun st => ((), f st)) (fun _ => rfl) h

theorem keeps_get : Keeps P (get : LowerM Lowering) (fun a st => P st ∧ a = st) :=
  keeps_of_run (f := fun st => (st, st)) (fun _ => rfl) fun _ h => ⟨h, rfl⟩

/-- A step that starts by reading the tree may assume which tree it read. -/
theorem Keeps.read {f : ParseTree → LowerM α} (h : ∀ t, Keeps (fun st => P st ∧ st.tree = t) (f t) Q) :
    Keeps P (current >>= f) Q := by
  intro st hst a st' hrun
  simp only [current, StateT.run_bind, StateT.run_get, pure_bind] at hrun
  exact h st.tree st ⟨hst, rfl⟩ a st' hrun

/-- The loop rule: an invariant indexed by the elements already done and the loop's state, kept
by every pass of the body, which goes on. -/
theorem Keeps.forIn {γ : Type} (xs : List γ) (I : List γ → β → Lowering → Prop)
    {f : γ → β → LowerM (ForInStep β)}
    (hf : ∀ pre c post b, xs = pre ++ c :: post →
      Keeps (I pre b) (f c b) (fun r st => ∃ b', r = .yield b' ∧ I (pre ++ [c]) b' st)) (b : β) :
    Keeps (I [] b) (ForIn.forIn xs b f) (fun b' => I xs b') := by
  suffices h : ∀ rest pre, pre ++ rest = xs → ∀ b,
      Keeps (I pre b) (ForIn.forIn rest b f) (fun b' => I xs b') from h xs [] rfl b
  intro rest
  induction rest with
  | nil =>
    intro pre hpre b
    rw [List.append_nil] at hpre
    subst hpre
    exact Keeps.pure fun _ h => h
  | cons c rest ih =>
    intro pre hpre b
    rw [List.forIn_cons]
    refine (hf pre c rest b hpre.symm).bind fun r => ?_
    cases r with
    | done b' => exact fun _ ⟨_, h, _⟩ => by cases h
    | yield b' =>
      refine (ih (pre ++ [c]) (by rw [List.append_assoc]; exact hpre) b').conseq ?_ fun _ _ h => h
      rintro st ⟨_, h, hI⟩
      cases h
      exact hI

/-! ## The steps of lowering -/

/-- The invariant, in a graph of at least `n` nodes. -/
def Grown (n : Nat) (st : Lowering) : Prop := Descending st ∧ n ≤ st.grammar.size

theorem Grown.mono {n m : Nat} {st : Lowering} (h : Grown n st) (hmn : m ≤ n) : Grown m st :=
  ⟨h.1, Nat.le_trans hmn h.2⟩

variable {n : Nat}

/-- A node added after its children is the last node, after every rule's body. -/
theorem keeps_addNode (s : Shape) :
    Keeps (fun st => Grown n st ∧ ∀ c ∈ s.children, c < st.grammar.size) (addNode s)
      (fun id st => Grown n st ∧ st.grammar.size = id + 1 ∧ ∀ e ∈ st.rules.entries, e.2 < id) := by
  refine keeps_of_run (f := fun st => (st.grammar.size, { st with grammar := (st.grammar.add s).1 }))
    (fun _ => rfl) fun st ⟨⟨hd, hn⟩, hs⟩ => ⟨⟨hd.add hs, ?_⟩, by simp, fun e he => (hd.bodies e he).1⟩
  simpa using Nat.le_succ_of_le hn

/-- A step that adds one node whose children are in the graph answers a node of the graph. -/
theorem keeps_addNode_lt (s : Shape) :
    Keeps (fun st => Grown n st ∧ ∀ c ∈ s.children, c < st.grammar.size) (addNode s)
      (fun id st => Grown n st ∧ id < st.grammar.size) :=
  (keeps_addNode s).conseq (fun _ h => h) fun _ _ h => ⟨h.1, by rw [h.2.1]; exact Nat.lt_succ_self _⟩

/-- A node without children, added to the graph. -/
theorem keeps_addNode_leaf {R : Lowering → Prop} (s : Shape) (hs : s.children = []) :
    Keeps (fun st => Grown n st ∧ R st) (addNode s) (fun id st => Grown n st ∧ id < st.grammar.size) :=
  (keeps_addNode_lt s).conseq (fun _ h => ⟨h.1, by simp [hs]⟩) fun _ _ h => h

theorem keeps_nameNode (id : NodeId) (name : String) :
    Keeps (fun st => Grown n st ∧ (name.startsWith "'" = false ∨ ∀ e ∈ st.rules.entries, e.2 ≠ id))
      (nameNode id name) (fun _ => Grown n) :=
  keeps_modify fun _ ⟨⟨hd, hn⟩, hname⟩ => ⟨hd.setName hname, by simpa using hn⟩

theorem keeps_edit {f : ParseTree → ParseTree} :
    Keeps (fun st => Grown n st ∧ (f st.tree).WordsPlain ∧
      (f st.tree).PayloadsBelow st.grammar.size) (edit f) (fun _ => Grown n) :=
  keeps_modify fun _ ⟨⟨hd, hn⟩, hw, hp⟩ => ⟨hd.edit hw hp, hn⟩

/-- Setting the value of a node that is not a word. -/
theorem keeps_setValue {x : Handle} {v : String} :
    Keeps (fun st => Grown n st ∧ st.tree.name x ≠ some "word") (edit (·.setValue x v))
      (fun _ => Grown n) :=
  keeps_edit.conseq (fun _ ⟨h, hx⟩ => ⟨h, h.1.words.setValue hx, h.1.payloads.setValue⟩)
    fun _ _ h => h

/-- Attaching a node of the graph to a node of the tree. -/
theorem keeps_setPayload {x : Handle} {id : NodeId} :
    Keeps (fun st => Grown n st ∧ id < st.grammar.size) (edit (·.replaceWith x (.payload id)))
      (fun _ => Grown n) :=
  keeps_edit.conseq (fun _ ⟨h, hid⟩ => ⟨h, h.1.words.setPayload, h.1.payloads.setPayload hid⟩)
    fun _ _ h => h

/-- Relinking the tree without touching its nodes' labels. -/
theorem keeps_relink {f : ParseTree → ParseTree} (hf : ∀ t, ParseTree.Relinked t (f t))
    (hs : ∀ t, (f t).source = t.source) : Keeps (Grown n) (edit f) (fun _ => Grown n) :=
  keeps_edit.conseq (fun st h => ⟨h, (hf st.tree).wordsPlain (hs _) h.1.words,
    (hf st.tree).payloadsBelow h.1.payloads⟩) fun _ _ h => h

/-- Setting the value of a child found by a name other than `word`. -/
theorem keeps_setValue_child {t : ParseTree} {x c : Handle} {name v : String}
    (hc : t.childByName x name = some c) (hn : name ≠ "word") :
    Keeps (fun st => Grown n st ∧ st.tree = t) (edit (·.setValue c v)) (fun _ => Grown n) :=
  keeps_setValue.conseq (fun st hst => ⟨hst.1, by
    rw [hst.2, (ParseTree.childByName_eq_some hc).2]
    simpa using hn⟩) fun _ _ h => h

/-- Resolving an escape sets the values of its marker and of the character escaped. -/
theorem keeps_resolveEscape (h : Handle) : Keeps (Grown n) (resolveEscape h) (fun _ => Grown n) := by
  unfold resolveEscape
  refine Keeps.read fun t => ?_
  split
  case' h_1 marker hm => refine (keeps_setValue_child hm (by decide)).bind fun _ => ?_
  case' h_2 => refine Keeps.conseq (P := Grown n) ?_ (fun _ h => h.1) fun _ _ h => h
  -- in both cases the escaped character next, which is no word either
  all_goals
    refine Keeps.read fun t' => ?_
    split
    · rename_i c hc
      refine Keeps.read fun t'' => ?_
      split
      · exact (keeps_setValue_child hc (by decide)).conseq (fun _ hst => hst.1) fun _ _ h => h
      · exact Keeps.pure fun _ h => h.1.1
    · exact Keeps.pure fun _ h => h.1

/-- The invariant in a graph of at least `n` nodes that holds node `id`. -/
theorem grown_max_iff (m k : Nat) {st : Lowering} :
    Grown (max m (k + 1)) st ↔ Grown m st ∧ k < st.grammar.size := by
  simp only [Grown, Nat.max_le, Nat.add_one_le_iff, and_assoc]

theorem keeps_flatten (o : Handle) : Keeps (Grown n) (flatten o) (fun _ => Grown n) := by
  unfold flatten
  have hlift : ∀ h, Keeps (Grown n) (edit (·.liftChildren h)) (fun _ => Grown n) := fun h =>
    keeps_relink (fun _ => ParseTree.relinked_liftChildren h) fun t => ParseTree.source_liftChildren t h
  refine Keeps.read fun t => ?_
  split
  · exact (hlift _).strengthen.bind fun _ => hlift _
  · exact (hlift _).strengthen

theorem keeps_childText (h : Handle) (name : String) :
    Keeps P (childText h name) (fun _ => P) :=
  Keeps.read fun _ => Keeps.pure fun _ h => h.1

/-- A string atom adds a literal, named after its text: the node is new, so no rule's body. -/
theorem keeps_lowerString (atom : Handle) :
    Keeps (Grown n) (lowerString atom) (fun id st => Grown n st ∧ id < st.grammar.size) := by
  unfold lowerString
  refine (keeps_childText _ _).bind fun text => ?_
  refine ((keeps_addNode (n := n) (.literal text)).conseq (fun _ h => ⟨h, by simp [Shape.children]⟩)
    fun _ _ h => h).bind fun id => ?_
  split
  · refine ((keeps_nameNode (n := max n (id + 1)) _ _).conseq
      (fun st ⟨h, hsize, hbodies⟩ => ⟨(grown_max_iff n id).mpr ⟨h, hsize ▸ Nat.lt_succ_self id⟩,
        .inr fun e he => Nat.ne_of_lt (hbodies e he)⟩) fun _ _ h => h).bind fun _ => ?_
    exact Keeps.pure fun _ h => (grown_max_iff n id).mp h
  · exact Keeps.pure fun _ ⟨h, hsize, _⟩ => ⟨h, hsize ▸ Nat.lt_succ_self id⟩

theorem keeps_lowerCharset (atom : Handle) :
    Keeps (Grown n) (lowerCharset atom) (fun id st => Grown n st ∧ id < st.grammar.size) := by
  unfold lowerCharset
  exact Keeps.read fun _ => (keeps_childText _ _).bind fun _ => keeps_addNode_leaf _ rfl

theorem keeps_lowerChargroup (atom : Handle) :
    Keeps (Grown n) (lowerChargroup atom) (fun id st => Grown n st ∧ id < st.grammar.size) := by
  unfold lowerChargroup
  refine Keeps.read fun t => ?_
  dsimp only
  split
  · split
    · exact keeps_throw.bind fun _ => keeps_addNode_leaf (R := fun _ => True) _ rfl
    · exact keeps_addNode_leaf _ rfl
  · exact keeps_malformed

/-- Two triples of one step hold together. -/
theorem Keeps.and {P' : Lowering → Prop} {Q' : α → Lowering → Prop} (h : Keeps P x Q)
    (h' : Keeps P' x Q') : Keeps (fun st => P st ∧ P' st) x (fun a st => Q a st ∧ Q' a st) :=
  fun st hst a st' hrun => ⟨h st hst.1 a st' hrun, h' st hst.2 a st' hrun⟩

/-- Adding a node leaves the tree alone and keeps the nodes already in the graph. -/
theorem keeps_addNode_below (s : Shape) (t : ParseTree) (acc : List NodeId) :
    Keeps (fun st => st.tree = t ∧ ∀ a ∈ acc, a < st.grammar.size) (addNode s)
      (fun _ st => st.tree = t ∧ ∀ a ∈ acc, a < st.grammar.size) :=
  keeps_of_run (f := fun st => (st.grammar.size, { st with grammar := (st.grammar.add s).1 }))
    (fun _ => rfl) fun _ ⟨ht, hacc⟩ => ⟨ht, fun a ha => by simpa using Nat.lt_succ_of_lt (hacc a ha)⟩

/-- A node whose only child is `c`, added once `c` is in the graph. -/
theorem keeps_addNode_over {c : NodeId} (s : Shape) (hs : s.children = [c]) :
    Keeps (fun st => Grown n st ∧ c < st.grammar.size) (addNode s)
      (fun id st => Grown n st ∧ id < st.grammar.size) :=
  (keeps_addNode_lt s).conseq (fun _ h => ⟨h.1, by simpa [hs] using h.2⟩) fun _ _ h => h

/-- A reference is the one already made for its name, or a new node that the table records. -/
theorem keeps_reference (word : Handle) :
    Keeps (Grown n) (reference word) (fun id st => Grown n st ∧ id < st.grammar.size) := by
  unfold reference
  refine Keeps.read fun _ => keeps_get.bind fun s => ?_
  split
  · rename_i id hfind
    refine Keeps.pure ?_
    rintro st ⟨⟨h, -⟩, rfl⟩
    exact ⟨h, h.1.refs _ (List.mem_of_find?_eq_some hfind)⟩
  · refine ((keeps_addNode (.ref _)).conseq (fun _ h => ⟨h.1.1, by simp [Shape.children]⟩)
      fun _ _ h => h).bind fun id => ?_
    refine (keeps_modify (R := fun _ st => Grown n st ∧ id < st.grammar.size) ?_).bind
      fun _ => Keeps.pure fun _ h => h
    rintro st ⟨⟨hd, hn⟩, hsize, -⟩
    have hid : id < st.grammar.size := hsize ▸ Nat.lt_succ_self id
    refine ⟨⟨⟨hd.edges, hd.payloads, fun p hp => ?_, hd.bodies, hd.words⟩, hn⟩, hid⟩
    rcases List.mem_append.mp hp with hp | hp
    · exact hd.refs p hp
    · rw [List.mem_singleton] at hp
      rw [hp]
      exact hid

/-- The operators wrap a node of the graph in new nodes above it. -/
theorem keeps_applyOperators (node site : Handle) :
    Keeps (fun st => Grown n st ∧ node < st.grammar.size) (applyOperators node site)
      (fun id st => Grown n st ∧ id < st.grammar.size) := by
  unfold applyOperators
  refine Keeps.read fun t => ?_
  have hnot : ∀ node, Keeps (fun st => Grown n st ∧ node < st.grammar.size)
      (if (t.childByName site "!").isSome = true then addNode (.notFollowedBy node) else pure node)
      (fun id st => Grown n st ∧ id < st.grammar.size) := by
    intro node
    split
    · exact keeps_addNode_over _ rfl
    · exact Keeps.pure fun _ h => h
  have hwrap : ∀ s : Shape, s.children = [node] →
      Keeps (fun st => (Grown n st ∧ node < st.grammar.size) ∧ st.tree = t) (addNode s)
        (fun id st => Grown n st ∧ id < st.grammar.size) :=
    fun s hs => (keeps_addNode_over s hs).strengthen
  dsimp only
  split
  · split
    · exact (hwrap _ rfl).bind hnot
    · exact ((hwrap _ rfl).bind fun _ => keeps_addNode_over _ rfl).bind hnot
    · exact (hwrap _ rfl).bind hnot
    · exact (Keeps.pure fun _ h => h.1).bind hnot
  · exact (Keeps.pure fun _ h => h.1).bind hnot

/-- A token becomes the node of its atom, wrapped by its operators. -/
theorem keeps_lowerToken (token : Handle) :
    Keeps (Grown n) (lowerToken token) (fun id st => Grown n st ∧ id < st.grammar.size) := by
  unfold lowerToken
  refine Keeps.read fun t => ?_
  split
  · exact keeps_malformed
  · -- every atom answers a node of the graph, which the operators then wrap
    have hops := fun node => keeps_applyOperators (n := n) node token
    dsimp only
    split
    · exact (keeps_lowerString _).strengthen.bind hops
    · exact (keeps_lowerCharset _).strengthen.bind hops
    · exact (keeps_lowerChargroup _).strengthen.bind hops
    · exact (keeps_addNode_leaf _ rfl).bind hops
    · exact (keeps_reference _).strengthen.bind hops

/-- Folding reads the payloads of a statement's elements, nodes of the graph, and adds at most
a sequence for each alternative and a choice above them. -/
theorem keeps_fold (statement : Handle) :
    Keeps (Grown n) (fold statement) (fun id st => Grown n st ∧ id < st.grammar.size) := by
  unfold fold
  refine (keeps_relink (fun _ => ParseTree.relinked_cull _ _)
    fun t => ParseTree.source_cull t _ _).bind fun _ => Keeps.read fun t => ?_
  dsimp only
  -- neither loop changes the tree, whose payloads are nodes of the graph; every node collected
  -- stays in the graph
  refine Keeps.bind ((Keeps.forIn _ (fun _ alts st => Grown n st ∧ st.tree = t ∧
      ∀ a ∈ alts.toList, a < st.grammar.size) (fun pre g post alts _ => ?_) _).conseq
      (fun _ h => ⟨h.1, h.2, by simp⟩) fun _ _ h => h) fun alts => ?_
  · refine Keeps.bind ((Keeps.forIn _ (fun _ els st => (Grown n st ∧ st.tree = t ∧
        ∀ a ∈ alts.toList, a < st.grammar.size) ∧ ∀ x ∈ els.toList, x < st.grammar.size)
        (fun pre' e post' els _ => ?_) _).conseq (fun _ h => ⟨h, by simp⟩) fun _ _ h => h)
        fun els => ?_
    · split
      · rename_i id hid
        refine Keeps.pure fun st ⟨⟨h, ht, halts⟩, hels⟩ => ⟨_, rfl, ⟨h, ht, halts⟩, ?_⟩
        have hlt : id < st.grammar.size := h.1.payloads e id (ht ▸ hid)
        intro x hx
        rw [Array.toList_push, List.mem_append, List.mem_singleton] at hx
        rcases hx with hx | rfl
        · exact hels x hx
        · exact hlt
      · exact keeps_malformed
    · -- the alternative, an element read or a new sequence of them, joins those collected
      have hpush : ∀ a, Keeps (fun st => (Grown n st ∧ st.tree = t ∧
          ∀ a ∈ alts.toList, a < st.grammar.size) ∧ a < st.grammar.size)
          (pure (ForInStep.yield (alts.push a))) (fun r st => ∃ b', r = .yield b' ∧
            Grown n st ∧ st.tree = t ∧ ∀ a ∈ b'.toList, a < st.grammar.size) := by
        intro a
        refine Keeps.pure fun st ⟨⟨h, ht, halts⟩, ha⟩ => ⟨_, rfl, h, ht, fun x hx => ?_⟩
        rw [Array.toList_push, List.mem_append, List.mem_singleton] at hx
        rcases hx with hx | rfl
        · exact halts x hx
        · exact ha
      split
      · rename_i single hs
        exact (Keeps.pure fun _ ⟨h, hels⟩ => ⟨h, hels single (by simp [hs])⟩).bind hpush
      · refine (((keeps_addNode (.seq _)).and (keeps_addNode_below (.seq _) t alts.toList)).conseq
          ?_ fun id st ⟨⟨h, hsize, _⟩, ht, halts⟩ =>
            ⟨⟨h, ht, halts⟩, hsize ▸ Nat.lt_succ_self id⟩).bind hpush
        rintro st ⟨⟨h, ht, halts⟩, hels⟩
        exact ⟨⟨h, fun c hc => hels c (by simpa [Shape.children] using hc)⟩, ht, halts⟩
  · split
    · rename_i single hs
      exact Keeps.pure fun _ ⟨h, _, halts⟩ => ⟨h, halts single (by simp [hs])⟩
    · exact (keeps_addNode_lt _).conseq (fun _ ⟨h, _, halts⟩ =>
        ⟨h, fun c hc => halts c (by simpa [Shape.children] using hc)⟩) fun _ _ h => h

/-- A fact that every state before the step gives may be assumed. -/
theorem Keeps.assume {R : Prop} (h : ∀ st, P st → R) (hk : R → Keeps P x Q) : Keeps P x Q :=
  fun st hst => hk (h st hst) st hst

/-- Naming a rule's body after a plain word gives it a rule name. -/
theorem keeps_nameRule {body : NodeId} {name : String} (hname : name.startsWith "'" = false) :
    Keeps (fun st => Grown n st ∧ body < st.grammar.size) (nameNode body name)
      (fun _ st => Grown n st ∧ body < st.grammar.size ∧ st.grammar.ruleNamed body = true) :=
  keeps_modify fun _ ⟨⟨hd, hn⟩, hlt⟩ => ⟨⟨hd.setName (.inl hname), by simpa using hn⟩,
    by simpa using hlt, Grammar.ruleNamed_setName_self hlt hname⟩

/-- Recording a rule whose body, unless an alias, has a rule name. -/
theorem keeps_defineRule {name : String} {body : NodeId} :
    Keeps (fun st => Grown n st ∧ body < st.grammar.size ∧
        ((st.grammar.shape? body).any Shape.isRef = false → st.grammar.ruleNamed body = true))
      (get >>= fun st : Lowering => match st.rules.define name body with
        | .ok rules => set { st with rules } | .error e => throw e) (fun _ => Grown n) := by
  refine keeps_get.bind fun s => ?_
  split
  · rename_i rules hdef
    have hentries : rules.entries = s.rules.entries ++ [(name, body)] := by
      unfold Rules.define at hdef
      split at hdef
      · cases hdef
      · cases hdef
        rfl
    refine keeps_of_run (f := fun _ => ((), { s with rules })) (fun _ => rfl) ?_
    rintro st ⟨⟨⟨hd, hn⟩, hlt, hnamed⟩, rfl⟩
    refine ⟨⟨hd.edges, hd.payloads, hd.refs, fun e he => ?_, hd.words⟩, hn⟩
    rw [hentries, List.mem_append, List.mem_singleton] at he
    rcases he with he | rfl
    · exact hd.bodies e he
    · exact ⟨hlt, hnamed⟩
  · exact keeps_throw

/-- A sentence folds its groups and its body, names a body that is not an alias after the rule,
and records the rule. -/
theorem keeps_lowerSentence (sentence : Handle) :
    Keeps (Grown n) (lowerSentence sentence) (fun _ => Grown n) := by
  unfold lowerSentence
  refine Keeps.read fun t => ?_
  split
  · rename_i word hword
    -- the rule's name is a word of the tree, so it is plain
    refine Keeps.assume (R := (t.value word).startsWith "'" = false)
      (fun st ⟨h, ht⟩ => by
        subst ht
        exact h.1.words word (ParseTree.childByName_eq_some hword).2) fun hplain => ?_
    dsimp only
    refine Keeps.bind ((Keeps.forIn _ (fun _ _ => Grown n) (fun pre g post _ _ => ?_) _).conseq
      (fun _ h => h.1) fun _ _ h => h) fun _ => ?_
    · -- a group is folded, wrapped by its operators, and its node attached to the tree
      refine Keeps.read fun _ => ?_
      split
      · refine (keeps_fold _).strengthen.bind fun body => ?_
        refine (keeps_applyOperators body g).bind fun node => ?_
        refine keeps_setPayload.bind fun _ => ?_
        exact Keeps.pure fun _ h => ⟨_, rfl, h⟩
      · exact keeps_malformed.bind fun _ => Keeps.pure fun _ h => ⟨_, rfl, h⟩
    · refine Keeps.read fun _ => ?_
      split
      · refine (keeps_fold _).strengthen.bind fun body => ?_
        refine keeps_get.bind fun s => ?_
        split
        · exact ((keeps_nameRule hplain).conseq (fun _ ⟨h, _⟩ => h)
            fun _ _ h => ⟨h.1, h.2.1, fun _ => h.2.2⟩).bind fun _ => keeps_defineRule
        · -- an alias stays unnamed: its body is a reference
          rename_i halias
          refine keeps_defineRule.conseq ?_ fun _ _ h => h
          rintro st ⟨⟨h, hlt⟩, rfl⟩
          refine ⟨h, hlt, fun hr => ?_⟩
          rw [hr] at halias
          exact absurd rfl halias
      · exact keeps_malformed
  · exact keeps_malformed

/-- A loop whose every pass keeps an invariant. -/
theorem Keeps.forIn_const {γ : Type} (xs : List γ) {f : γ → PUnit → LowerM (ForInStep PUnit)}
    (hf : ∀ c b, Keeps P (f c b) (fun r st => ∃ b', r = .yield b' ∧ P st)) :
    Keeps P (ForIn.forIn xs ⟨⟩ f) (fun _ => P) :=
  Keeps.forIn xs (fun _ _ => P) (fun _ c _ b _ => hf c b) ⟨⟩

/-- Every pass of lowering keeps the invariant. -/
theorem keeps_run : Keeps (Grown n) run (fun _ => Grown n) := by
  unfold run
  refine Keeps.read fun t => ?_
  dsimp only
  refine (Keeps.forIn_const _ fun h _ => ?_).strengthen.bind
    fun _ => ?_
  · exact (keeps_resolveEscape h).bind fun _ => Keeps.pure fun _ h => ⟨_, rfl, h⟩
  refine (Keeps.forIn_const _ fun h _ => ?_).bind fun _ => ?_
  · exact (keeps_flatten h).bind fun _ => Keeps.pure fun _ h => ⟨_, rfl, h⟩
  refine (Keeps.forIn_const _ fun h _ => ?_).bind fun _ => ?_
  · refine (keeps_lowerToken h).bind fun node => keeps_setPayload.bind fun _ => ?_
    exact Keeps.pure fun _ h => ⟨_, rfl, h⟩
  refine (Keeps.forIn_const _ fun h _ => ?_).bind fun _ => Keeps.pure fun _ h => h
  exact (keeps_lowerSentence h).bind fun _ => Keeps.pure fun _ h => ⟨_, rfl, h⟩

end Dialect.Lowering

namespace Dialect

/-- What lowering returns, from a tree whose words are plain and that carries no payload: a
graph whose edges descend, and a rule table of nodes of the graph whose bodies, aliases apart,
have rule names. -/
theorem lower_descending {t : ParseTree} {g : Grammar} {rules : Rules} (hw : t.WordsPlain)
    (hp : t.PayloadsBelow 0) (h : lower t = .ok (g, rules)) :
    (∀ x, ∀ c ∈ g.children x, c < x) ∧ ∀ e ∈ rules.entries, e.2 < g.size ∧
      ((g.shape? e.2).any Shape.isRef = false → g.ruleNamed e.2 = true) := by
  unfold lower at h
  have hinit : Lowering.Grown 0 { tree := t } :=
    ⟨⟨fun x c hc => by simp [Grammar.children, Grammar.get?] at hc, hp, fun _ hp => (by cases hp),
      fun _ he => (by cases he), hw⟩, Nat.zero_le _⟩
  cases hrun : Lowering.run.run { tree := t } with
  | error e =>
    rw [hrun] at h
    cases h
  | ok r =>
    obtain ⟨⟨⟩, st⟩ := r
    rw [hrun] at h
    cases h
    have hd := (Lowering.keeps_run { tree := t } hinit () st hrun).1
    exact ⟨hd.edges, hd.bodies⟩

end Dialect

end Tokenweave
