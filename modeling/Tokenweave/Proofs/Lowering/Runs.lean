import Tokenweave.Dialect.Lower
import Tokenweave.Proofs.Walks
/-!
# Triples for the steps of lowering

Lowering a tree of grammar text may fail in three ways: a range written with its ends out of
order, a rule defined twice, or a node that lacks what the notation promises it (`malformed`).
The first two are answers about the grammar and are `Benign`; the third says the tree was not a
tree of the notation.

`Runs P x Q` says that the step `x`, from a state whose tree satisfies `P`, either ends with an
answer `a` and a tree that satisfies `Q a`, or fails benignly. Every property of lowering below is
a precondition on the tree alone: the graph, the rule table and the references are built on the
side and never read back by a step that could fail.

The rules are those of a program logic: `Runs.pure`, `Runs.bind`, `Runs.conseq`, `Runs.read` for a
step that starts by reading the tree, and a loop rule `Runs.forIn` whose invariant is indexed by
the part of the list already done. Each step of lowering then gets one spec: `Quiet` steps
(building graph nodes, naming them, reading the tree) never fail and leave the tree alone, and
`runs_resolveEscape`, `runs_flatten`, `runs_lowerToken`, `runs_fold` and `runs_defineRule` say
what the others need and do.
-/

namespace Tokenweave

/-- The errors lowering may end with on a tree of grammar text: a range whose first character
comes after its last, and a rule defined twice. -/
def GrammarError.Benign : GrammarError → Prop
  | .invalidRange _ _ => True
  | .duplicateRule _ => True
  | _ => False

/-- Defining a rule fails only when the name is taken. -/
theorem Dialect.Rules.define_error {r : Rules} {name : String} {body : NodeId}
    {e : GrammarError} (h : r.define name body = .error e) : e = .duplicateRule name := by
  unfold Rules.define at h
  split at h
  · cases h
    rfl
  · cases h

namespace Dialect.Lowering

variable {α β : Type}

/-- How a run ends, read through its tree: an answer and a tree satisfying `Q`, or a benign
failure. -/
def Ends (Q : α → ParseTree → Prop) : Except GrammarError (α × Lowering) → Prop
  | .ok (a, st) => Q a st.tree
  | .error e => e.Benign

/-- From a state whose tree satisfies `P`, the step `x` ends as `Q` says or fails benignly. -/
def Runs (P : ParseTree → Prop) (x : LowerM α) (Q : α → ParseTree → Prop) : Prop :=
  ∀ st : Lowering, P st.tree → Ends Q (x.run st)

variable {P P' : ParseTree → Prop} {Q Q' : α → ParseTree → Prop} {x : LowerM α}

theorem Runs.conseq (h : Runs P x Q) (hP : ∀ t, P' t → P t) (hQ : ∀ a t, Q a t → Q' a t) :
    Runs P' x Q' := by
  intro st hst
  have hx := h st (hP _ hst)
  revert hx
  cases x.run st with
  | error e => exact id
  | ok r => exact hQ r.1 r.2.tree

theorem Runs.pure {a : α} (h : ∀ t, P t → Q a t) : Runs P (pure a) Q :=
  fun _ hst => h _ hst

theorem Runs.bind {R : β → ParseTree → Prop} {f : α → LowerM β} (hx : Runs P x Q)
    (hf : ∀ a, Runs (Q a) (f a) R) : Runs P (x >>= f) R := by
  intro st hst
  have h1 := hx st hst
  simp only [StateT.run_bind]
  revert h1
  cases x.run st with
  | error e => exact id
  | ok r => exact hf r.1 r.2

/-- A step whose precondition cannot hold runs as anything. -/
theorem Runs.absurd (h : ∀ t, ¬ P t) : Runs P x Q :=
  fun _ hst => (h _ hst).elim

theorem runs_throw {e : GrammarError} (he : e.Benign) : Runs P (throw e : LowerM α) Q :=
  fun _ _ => he

theorem runs_edit {R : Unit → ParseTree → Prop} {f : ParseTree → ParseTree}
    (h : ∀ t, P t → R () (f t)) : Runs P (edit f) R :=
  fun _ hst => h _ hst

/-- The loop rule: an invariant indexed by the elements already done, kept by every pass of the
body, and every pass goes on. -/
theorem Runs.forIn {γ : Type} (xs : List γ) (I : List γ → ParseTree → Prop)
    {f : γ → β → LowerM (ForInStep β)}
    (hf : ∀ pre c post b, xs = pre ++ c :: post →
      Runs (I pre) (f c b) (fun r t => (∃ b', r = .yield b') ∧ I (pre ++ [c]) t)) (b : β) :
    Runs (I []) (ForIn.forIn xs b f) (fun _ => I xs) := by
  -- the loop over what is left, from the invariant of what is done
  suffices h : ∀ rest pre, pre ++ rest = xs → ∀ b,
      Runs (I pre) (ForIn.forIn rest b f) (fun _ => I xs)
    from h xs [] rfl b
  intro rest
  induction rest with
  | nil =>
    intro pre hpre b
    rw [List.append_nil] at hpre
    subst hpre
    exact Runs.pure fun _ h => h
  | cons c rest ih =>
    intro pre hpre b
    rw [List.forIn_cons]
    refine (hf pre c rest b hpre.symm).bind fun r => ?_
    cases r with
    | done b' => exact Runs.absurd fun _ ⟨⟨_, h⟩, _⟩ => by cases h
    | yield b' =>
      exact (ih (pre ++ [c]) (by rw [List.append_assoc]; exact hpre) b').conseq
        (fun _ h => h.2) fun _ _ h => h

/-- A step that starts by reading the tree may assume the precondition of the tree it read, and
that the tree does not change until it edits it. -/
theorem Runs.read {f : ParseTree → LowerM α} (h : ∀ t, P t → Runs (fun T => T = t) (f t) Q) :
    Runs P (current >>= f) Q :=
  fun st hst => h st.tree hst st rfl

/-- A step may be run from each tree of its precondition in turn. -/
theorem Runs.fix (h : ∀ t, P t → Runs (fun T => T = t) x Q) : Runs P x Q :=
  fun st hst => h st.tree hst st rfl

/-- A loop body that runs `x` and goes on. -/
theorem Runs.yield {b : β} {R : ParseTree → Prop} (h : Runs P x fun _ => R) :
    Runs P (x >>= fun _ => Pure.pure (ForInStep.yield b))
      (fun r t => (∃ b', r = ForInStep.yield b') ∧ R t) :=
  h.bind fun _ => Runs.pure fun _ ht => ⟨⟨_, rfl⟩, ht⟩

/-! ### Quiet steps -/

/-- A quiet step never fails and leaves the tree as it is. -/
def Quiet (x : LowerM α) : Prop :=
  ∀ st : Lowering, ∃ a st', x.run st = .ok (a, st') ∧ st'.tree = st.tree

theorem Quiet.runs (h : Quiet x) (hQ : ∀ a t, P t → Q a t) : Runs P x Q := by
  intro st hst
  obtain ⟨a, st', hrun, htree⟩ := h st
  rw [hrun]
  show Q a st'.tree
  rw [htree]
  exact hQ a _ hst

theorem quiet_pure (a : α) : Quiet (pure a : LowerM α) :=
  fun st => ⟨a, st, rfl, rfl⟩

theorem Quiet.bind {f : α → LowerM β} (hx : Quiet x) (hf : ∀ a, Quiet (f a)) : Quiet (x >>= f) := by
  intro st
  obtain ⟨a, st', hrun, htree⟩ := hx st
  obtain ⟨b, st'', hrun', htree'⟩ := hf a st'
  refine ⟨b, st'', ?_, htree'.trans htree⟩
  simp only [StateT.run_bind, hrun]
  exact hrun'

theorem quiet_get : Quiet (get : LowerM Lowering) :=
  fun st => ⟨st, st, rfl, rfl⟩

theorem quiet_current : Quiet current :=
  quiet_get.bind fun _ => quiet_pure _

theorem quiet_addNode (s : Shape) : Quiet (addNode s) :=
  fun _ => ⟨_, _, rfl, rfl⟩

theorem quiet_nameNode (id : NodeId) (name : String) : Quiet (nameNode id name) :=
  fun _ => ⟨_, _, rfl, rfl⟩

theorem quiet_childText (h : Handle) (name : String) : Quiet (childText h name) :=
  quiet_current.bind fun _ => quiet_pure _

theorem quiet_lowerString (atom : Handle) : Quiet (lowerString atom) := by
  unfold lowerString
  refine (quiet_childText _ _).bind fun text => (quiet_addNode _).bind fun id => ?_
  split
  · exact (quiet_nameNode _ _).bind fun _ => quiet_pure _
  · exact quiet_pure _

theorem quiet_lowerCharset (atom : Handle) : Quiet (lowerCharset atom) :=
  quiet_current.bind fun _ => (quiet_childText _ _).bind fun _ => quiet_addNode _

theorem quiet_modify {f : Lowering → Lowering} (hf : ∀ st, (f st).tree = st.tree) :
    Quiet (modify f : LowerM Unit) :=
  fun st => ⟨(), f st, rfl, hf st⟩

theorem quiet_reference (word : Handle) : Quiet (reference word) := by
  unfold reference
  refine quiet_current.bind fun t => quiet_get.bind fun st => ?_
  split
  · exact quiet_pure _
  · exact (quiet_addNode _).bind fun id =>
      (quiet_modify (f := fun st => { st with refs := st.refs ++ [(t.value word, id)] })
        fun _ => rfl).bind fun _ => quiet_pure id

theorem quiet_applyOperators (node site : Handle) : Quiet (applyOperators node site) := by
  unfold applyOperators
  refine quiet_current.bind fun t => ?_
  -- the negation, written last, wraps whatever the repeat operator built
  have hnot : ∀ node, Quiet (if (t.childByName site "!").isSome = true then
      addNode (.notFollowedBy node) else pure node) := by
    intro node
    split
    · exact quiet_addNode _
    · exact quiet_pure _
  dsimp only
  split
  · split
    · exact (quiet_addNode _).bind hnot
    · exact (quiet_addNode _).bind fun _ => (quiet_addNode _).bind hnot
    · exact (quiet_addNode _).bind hnot
    · exact (quiet_pure _).bind hnot
  · exact (quiet_pure _).bind hnot

/-! ### Steps that need the tree to have a shape -/

/-- A range reads the text of its two bounds; it fails benignly when they are out of order. -/
theorem runs_lowerChargroup (atom : Handle)
    (hP : ∀ t, P t → ∀ n ∈ ["rangeStart", "rangeEnd"],
      ∃ b, t.childByName atom n = some b ∧ t.joinLeaves b "" ≠ "") :
    Runs P (lowerChargroup atom) (fun _ => P) := by
  unfold lowerChargroup
  refine Runs.read fun t ht => ?_
  -- each bound is the first character of a text that is not empty
  have hbound : ∀ n ∈ ["rangeStart", "rangeEnd"], ∃ c,
      ((t.childByName atom n).bind fun b => (t.joinLeaves b "").toList.head?) = some c := by
    intro n hn
    obtain ⟨b, hb, hne⟩ := hP t ht n hn
    obtain ⟨c, cs, hcs⟩ := List.exists_cons_of_ne_nil (mt String.toList_eq_nil_iff.mp hne)
    exact ⟨c, by rw [hb, Option.bind_some, hcs, List.head?_cons]⟩
  obtain ⟨lo, hlo⟩ := hbound "rangeStart" (by simp)
  obtain ⟨hi, hhi⟩ := hbound "rangeEnd" (by simp)
  dsimp only
  rw [hlo, hhi]
  dsimp only
  split
  · exact Runs.bind (Q := fun _ T => T = t) (runs_throw trivial) fun _ =>
      (quiet_addNode _).runs fun _ _ h => h ▸ ht
  · exact (quiet_addNode _).runs fun _ _ h => h ▸ ht

/-- A token reads a child that is an atom, and, for a range, the text of both bounds. -/
theorem runs_lowerToken (k : Handle)
    (hP : ∀ t, P t → (∃ c ∈ t.children k, ∃ n ∈ atomNames, t.name c = some n) ∧
      ∀ c ∈ t.children k, t.name c = some "chargroup" → ∀ n ∈ ["rangeStart", "rangeEnd"],
        ∃ b, t.childByName c n = some b ∧ t.joinLeaves b "" ≠ "") :
    Runs P (lowerToken k) (fun _ => P) := by
  unfold lowerToken
  refine Runs.read fun t ht => ?_
  obtain ⟨⟨c, hc, n, hn, hcn⟩, hgroup⟩ := hP t ht
  split
  · -- the atom child is found
    rename_i hnone
    have := List.find?_eq_none.mp hnone c hc
    simp [hcn, hn] at this
  · rename_i atom hsome
    have hatom := List.mem_of_find?_eq_some hsome
    have hops : ∀ node, Runs (fun T => T = t) (applyOperators node k) (fun _ => P) :=
      fun node => (quiet_applyOperators node k).runs fun _ _ h => h ▸ ht
    dsimp only
    split
    · exact ((quiet_lowerString atom).runs fun _ _ h => h).bind hops
    · exact ((quiet_lowerCharset atom).runs fun _ _ h => h).bind hops
    · rename_i hname
      exact (runs_lowerChargroup (P := fun T => T = t) atom fun _ h => h ▸ hgroup atom hatom hname).bind
        hops
    · exact ((quiet_addNode _).runs fun _ _ h => h).bind hops
    · exact ((quiet_reference atom).runs fun _ _ h => h).bind hops

/-- Resolving an escape sets the value of its marker to the empty text, and that of the escaped
character to a newline, tab or carriage return or not at all: nothing else changes. -/
theorem runs_resolveEscape (h : Handle) {I : ParseTree → Prop}
    (hI : ∀ t x v, I t → (t.name x = some "escape" ∨ v ≠ "") → I (t.setValue x v)) :
    Runs I (resolveEscape h) (fun _ => I) := by
  unfold resolveEscape
  refine Runs.read fun t ht => ?_
  dsimp only
  split
  case' h_1 marker hmarker =>
    have hname := (ParseTree.childByName_eq_some hmarker).2
    refine Runs.bind (Q := fun _ => I) (runs_edit fun _ h => h ▸ hI t marker "" ht (.inl hname))
      fun _ => ?_
  case' h_2 => refine Runs.conseq (P := I) ?_ (fun _ h => h ▸ ht) fun _ _ h => h
  -- in both cases, the escaped character next
  all_goals
    refine Runs.read fun t' ht' => ?_
    split
    · rename_i c _
      refine Runs.read fun t'' ht'' => ?_
      subst ht''
      split
      · rename_i v hv
        have hne : v ≠ "" := by
          unfold escaped at hv
          split at hv <;> cases hv <;> decide
        exact runs_edit fun _ h => h ▸ hI t'' c v ht' (.inr hne)
      · exact Runs.pure fun _ h => h ▸ ht'
    · exact Runs.pure fun _ h => h ▸ ht'

/-- Flattening a wrapper of one child lifts the child's children into the wrapper, and then the
wrapper's into its parent. -/
theorem runs_flatten (o : Handle) {Q : Unit → ParseTree → Prop}
    (hP : ∀ t, P t → ∃ w, t.children o = [w] ∧ Q () ((t.liftChildren w).liftChildren o)) :
    Runs P (flatten o) Q := by
  unfold flatten
  refine Runs.read fun t ht => ?_
  obtain ⟨w, hw, hq⟩ := hP t ht
  dsimp only
  rw [hw, List.head?_cons]
  exact Runs.bind (Q := fun _ T => T = t.liftChildren w) (runs_edit fun _ h => h ▸ rfl)
    fun _ => runs_edit fun _ h => h ▸ hq

/-- The filters a statement is culled by before it is folded: a statement inside it gives way to
its elements. -/
def unwrapStatements : List Filter := [⟨.named ["statement"], .liftChildren⟩]

/-- Folding a statement culls it and reads the payload of each element between the bars; the
alternatives and sequences it builds are graph nodes only. -/
theorem runs_fold (s : Handle) {Q : NodeId → ParseTree → Prop}
    (hP : ∀ t, P t →
      (∀ e ∈ (t.cull s unwrapStatements).children s,
        (t.cull s unwrapStatements).isNamed "|" e = false →
          (t.cull s unwrapStatements).payload e ≠ none) ∧
      ∀ id, Q id (t.cull s unwrapStatements)) :
    Runs P (fold s) Q := by
  unfold fold
  refine Runs.bind (Q := fun _ T => ∃ t, P t ∧ T = t.cull s unwrapStatements)
    (runs_edit fun t ht => ⟨t, ht, rfl⟩) fun _ => Runs.read fun c ⟨t, ht, hc⟩ => ?_
  obtain ⟨hpay, hq⟩ := hP t ht
  rw [← hc] at hpay hq
  dsimp only
  -- neither loop changes the tree, and every element read has a payload
  refine Runs.bind (Runs.forIn _ (fun _ T => T = c) (fun pre g post _ hg => ?_) _) fun alts => ?_
  · refine Runs.bind (Runs.forIn _ (fun _ T => T = c) (fun pre' e post' _ he => ?_) _)
      fun els => ?_
    · have hmem := ParseTree.mem_splitChildren (t := c) (hg ▸ List.mem_append_right pre
        List.mem_cons_self) (he ▸ List.mem_append_right pre' List.mem_cons_self)
      split
      · exact Runs.pure fun _ h => ⟨⟨_, rfl⟩, h⟩
      · rename_i hnone
        exact absurd hnone (hpay e hmem.1 hmem.2)
    · split
      · exact Runs.pure fun _ h => ⟨⟨_, rfl⟩, h⟩
      · exact ((quiet_addNode _).runs fun _ _ h => h).bind fun _ => Runs.pure fun _ h => ⟨⟨_, rfl⟩, h⟩
  · split
    · exact Runs.pure fun _ h => h ▸ hq _
    · exact (quiet_addNode _).runs fun _ _ h => h ▸ hq _

/-- Defining a rule leaves the tree alone, and fails only as a rule defined twice. -/
theorem runs_defineRule {name : String} {body : NodeId} :
    Runs P (get >>= fun st : Lowering => match st.rules.define name body with
      | .ok rules => set { st with rules } | .error e => throw e) (fun _ => P) := by
  intro st hst
  cases hd : st.rules.define name body with
  | ok rules =>
    simp only [StateT.run_bind, StateT.run_get, pure_bind, hd]
    exact hst
  | error e =>
    simp only [StateT.run_bind, StateT.run_get, pure_bind, hd]
    show e.Benign
    rw [Rules.define_error hd]
    trivial

end Dialect.Lowering

end Tokenweave
