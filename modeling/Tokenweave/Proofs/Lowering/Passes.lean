import Tokenweave.Proofs.Lowering.Runs
import Tokenweave.Proofs.Lowering.Shape
/-!
# Lowering grammar text meets no malformed node

Every text that `parse` accepts lowers to a grammar and its rules, or fails with a range whose
ends are out of order or a rule defined twice (`lower_parsed_benign`): lowering never reports a
node that lacks what the notation promises.

The proof follows the passes of `run`, each a loop over nodes gathered from the stripped tree `u`
before the first pass, children first, with an invariant over the nodes done:

1. escapes only set values, so the tree stays a `Notation` tree with the links and names of `u`;
2. flattening (`Flattening`): the tree stays a `Notation` tree, every option done has left the
   root's reach, and every other node the root reached still is, unless an option held it;
3. atoms (`AtomsDone`): every token done carries a graph node, and nothing else changes but
   payloads; after it the tree is `Atomized`;
4. rules (`FoldedUnder`): the tree changes only below the sentences done, and within a sentence
   only below the groups done, each of which carries a graph node. A statement, when it is folded,
   still holds the elements it held after pass 3: tokens, and groups below it that come earlier in
   the children-first order, so each element carries a graph node when `fold` reads it.
-/

set_option autoImplicit false

namespace Tokenweave.Dialect

namespace Lowering

open Relation ParseTree

variable {u t T : ParseTree}

/-- Each pass takes the nodes below the root with its name, children first. -/
theorem targets_eq (t : ParseTree) {n : String} (hn : n ∈ passTargets) :
    (((t.allByNames t.root .leafFirst passTargets).find? (·.1 == n)).map (·.2)).getD [] =
      t.allByName t.root .leafFirst n := by
  simp only [passTargets, List.mem_cons, List.not_mem_nil, or_false] at hn
  rcases hn with rfl | rfl | rfl | rfl <;> rfl

/-! ### Pass 1: escapes -/

/-- Resolving an escape keeps the notation's shape and the links and names of `u`. -/
theorem runs_resolveEscape_retouched (h : Handle) :
    Runs (fun t => Notation t ∧ Retouched u t) (resolveEscape h)
      (fun _ t => Notation t ∧ Retouched u t) := by
  refine runs_resolveEscape h fun t x v ⟨hn, hr⟩ hxv => ?_
  have hr' : Retouched t (t.setValue x v) := retouched_setValue x v
  refine ⟨hn.retouch hr' fun y hy => ?_, hr.trans hr'⟩
  rw [hr'.name] at hy
  rcases value_setValue x y v with hv | ⟨hv, rfl⟩
  · rw [hv]
    exact hn.chars y hy
  · rw [hv]
    rcases hxv with hx | hv'
    · rw [hx] at hy
      exact absurd hy (by decide)
    · exact hv'

/-! ### Pass 2: flattening -/

/-- The tree in pass 2, with the options `pre` flattened. -/
structure Flattening (u : ParseTree) (pre : List Handle) (t : ParseTree) : Prop where
  shape : Notation t
  shrinks : Shrinks u t
  root : t.root = u.root
  name : ∀ x, t.name x = u.name x
  /-- Every node the root reached is reached still, but the options done and what they held. -/
  kept : ∀ y, ReflTransGen (ChildEdge u.entries) u.root y → u.name y ≠ some "pipeOpt" →
    u.name y ≠ some "spaceOpt" → y ∉ pre → ReflTransGen (ChildEdge t.entries) t.root y
  /-- Every option done is out of the root's reach. -/
  gone : ∀ o ∈ pre, ¬ ReflTransGen (ChildEdge t.entries) t.root o

theorem Flattening.init (hn : Notation t) (hr : Retouched u t) : Flattening u [] t where
  shape := hn
  shrinks := shrinks_of_children hr.children
  root := hr.root
  name := hr.name
  kept _ hy _ _ _ := hr.reach_iff.mpr hy
  gone _ h := absurd h List.not_mem_nil

/-- Flattening an option the root reaches keeps the invariant of pass 2, with the option done. -/
theorem runs_flatten_step {pre : List Handle} {o : Handle}
    (ho : ReflTransGen (ChildEdge u.entries) u.root o) (hname : u.name o = some "statementOpt")
    (hpre : o ∉ pre) :
    Runs (Flattening u pre) (flatten o) (fun _ => Flattening u (pre ++ [o])) := by
  refine runs_flatten o fun t ht => ?_
  have hn := ht.shape
  have hot := ht.kept o ho (by rw [hname]; decide) (by rw [hname]; decide) hpre
  have hname' : t.name o = some "statementOpt" := (ht.name o).trans hname
  obtain ⟨w, hw⟩ := (hn.shaped o hot).single "statementOpt" (by decide) hname'
  obtain ⟨nw, hwn, hwheld⟩ := (hn.shaped o hot).held w (hw ▸ List.mem_singleton_self w)
  rw [hname'] at hwheld
  have hwf₁ := hn.wellFormed.liftChildren w
  have hr : Relinked t ((t.liftChildren w).liftChildren o) :=
    (relinked_liftChildren w).trans (relinked_liftChildren o)
  have hs : Shrinks t ((t.liftChildren w).liftChildren o) :=
    (shrinks_liftChildren hn.wellFormed w).trans (shrinks_liftChildren hwf₁ o)
  refine ⟨w, hw, hn.flatten hot hname' hw, ht.shrinks.trans hs, by simp [ht.root],
    fun x => (hr.name_eq x).trans (ht.name x), fun y hy hpipe hspace hy' => ?_,
    fun o' ho' => ?_⟩
  · rw [List.mem_append, not_or, List.mem_singleton] at hy'
    refine hn.reach_flatten (ht.kept y hy hpipe hspace hy'.1) hy'.2 ?_
    -- what the option held is a `pipeOpt` or a `spaceOpt`
    rintro rfl
    rw [← ht.name, hwn] at hpipe hspace
    simp only [heldNames, List.mem_cons, List.not_mem_nil, or_false] at hwheld
    rcases hwheld with rfl | rfl
    · exact hpipe rfl
    · exact hspace rfl
  · rcases List.mem_append.mp ho' with ho' | ho'
    · intro hreach
      have h₀ := hs.reflTransGen hreach
      rw [root_liftChildren, root_liftChildren] at h₀
      exact ht.gone o' ho' h₀
    · rw [List.mem_singleton] at ho'
      subst ho'
      exact hn.not_reach_flatten hot hname' hw (.inl rfl)

/-- A node the root reaches, named other than `grammar`, is gathered by the pass of its name. -/
theorem mem_allByName_of_reach (hu : Notation u) {y : Handle} {n : String}
    (hy : ReflTransGen (ChildEdge u.entries) u.root y) (hname : u.name y = some n)
    (hne : n ≠ "grammar") : y ∈ u.allByName u.root .leafFirst n :=
  (mem_allByName hu.wellFormed hu.ordered).mpr
    ⟨(reflTransGen_iff_eq_or_transGen.mp hy).resolve_left (hu.ne_root hname hne), hname⟩

/-- After pass 2 no option is left in the root's reach. -/
theorem Flattening.flat (hu : Notation u) {t : ParseTree}
    (ht : Flattening u (u.allByName u.root .leafFirst "statementOpt") t) {y : Handle}
    (hy : ReflTransGen (ChildEdge t.entries) t.root y) : t.name y ≠ some "statementOpt" := by
  intro hname
  have hy₀ : ReflTransGen (ChildEdge u.entries) u.root y := by
    have := ht.shrinks.reflTransGen hy
    rwa [ht.root] at this
  rw [ht.name] at hname
  -- an option the root reaches was done
  exact ht.gone y (mem_allByName_of_reach hu hy₀ hname (by decide)) hy

/-- After pass 2 every node below the root named other than an option or what an option holds is
still in the root's reach. -/
theorem Flattening.kept_named (hu : Notation u) {t : ParseTree}
    (ht : Flattening u (u.allByName u.root .leafFirst "statementOpt") t) {x : Handle} {n : String}
    (hx : x ∈ u.allByName u.root .leafFirst n) (hn : n ∉ ["statementOpt", "pipeOpt", "spaceOpt"]) :
    ReflTransGen (ChildEdge t.entries) t.root x ∧ t.name x = some n := by
  obtain ⟨hbelow, hname⟩ := (mem_allByName hu.wellFormed hu.ordered).mp hx
  simp only [List.mem_cons, List.not_mem_nil, or_false, not_or] at hn
  refine ⟨ht.kept x hbelow.to_reflTransGen (by rw [hname]; simpa using hn.2.1)
    (by rw [hname]; simpa using hn.2.2) fun hxO => ?_, (ht.name x).trans hname⟩
  have hopt := ((mem_allByName hu.wellFormed hu.ordered).mp hxO).2
  rw [hname, Option.some.injEq] at hopt
  exact hn.1 hopt

/-! ### Pass 3: atoms -/

/-- The tree in pass 3, with the tokens `pre` lowered. -/
structure AtomsDone (t : ParseTree) (pre : List Handle) (T : ParseTree) : Prop where
  shape : Notation T
  retouched : Retouched t T
  lowered : ∀ k ∈ pre, T.payload k ≠ none

theorem AtomsDone.init (hn : Notation t) : AtomsDone t [] t :=
  ⟨hn, .refl t, fun _ h => absurd h List.not_mem_nil⟩

/-- Lowering a token the root reaches fails only benignly and leaves the tree alone. -/
theorem runs_lowerToken_step {pre : List Handle} {k : Handle}
    (hk : ReflTransGen (ChildEdge t.entries) t.root k) (hname : t.name k = some "token") :
    Runs (AtomsDone t pre) (lowerToken k) (fun _ => AtomsDone t pre) :=
  runs_lowerToken k fun _ hT =>
    hT.shape.tokenReady (hT.retouched.reach_iff.mpr hk) ((hT.retouched.name k).trans hname)

/-- Attaching its graph node to a token of the tree does it. -/
theorem AtomsDone.setPayload {pre : List Handle} (hT : AtomsDone t pre T) {k : Handle}
    (hk : k < T.size) (id : NodeId) : AtomsDone t (pre ++ [k]) (T.replaceWith k (.payload id)) := by
  have hr : Retouched T (T.replaceWith k (.payload id)) := retouched_setPayload k id
  refine ⟨hT.shape.retouch hr fun y hy => ?_, hT.retouched.trans hr, fun k' hk' => ?_⟩
  · rw [value_setPayload]
    exact hT.shape.chars y (hr.name y ▸ hy)
  · by_cases hkk : k' = k
    · rw [hkk, payload_setPayload_self hk]
      exact Option.some_ne_none id
    · rw [payload_setPayload_of_ne hkk]
      exact hT.lowered k' ((List.mem_append.mp hk').resolve_right (by simpa using hkk))

/-- What pass 4 needs of the tree: the notation's shape, no option in the root's reach, and a graph
node on every token the root reaches. -/
structure Atomized (t : ParseTree) : Prop where
  shape : Notation t
  flat : ∀ y, ReflTransGen (ChildEdge t.entries) t.root y → t.name y ≠ some "statementOpt"
  lowered : ∀ k, ReflTransGen (ChildEdge t.entries) t.root k → t.name k = some "token" →
    t.payload k ≠ none

/-- After pass 3 the tree is atomized. -/
theorem atomized_of_passes (hu : Notation u) {t₂ t₃ : ParseTree}
    (h₂ : Flattening u (u.allByName u.root .leafFirst "statementOpt") t₂)
    (h₃ : AtomsDone t₂ (u.allByName u.root .leafFirst "token") t₃) : Atomized t₃ where
  shape := h₃.shape
  flat y hy := by
    rw [h₃.retouched.name]
    exact h₂.flat hu (h₃.retouched.reach_iff.mp hy)
  lowered k hk hname := by
    have hk₀ : ReflTransGen (ChildEdge u.entries) u.root k := by
      have := h₂.shrinks.reflTransGen (h₃.retouched.reach_iff.mp hk)
      rwa [h₂.root] at this
    rw [h₃.retouched.name, h₂.name] at hname
    -- a token the root reaches was done
    exact h₃.lowered k (mem_allByName_of_reach hu hk₀ hname (by decide))

/-! ### Pass 4: rules -/

/-- `T` is `t` with statements folded below the nodes `tops`: links changed only strictly below
them, names kept, and payloads only added. -/
structure FoldedUnder (t : ParseTree) (tops : List Handle) (T : ParseTree) : Prop where
  wellFormed : T.WellFormed
  shrinks : Shrinks t T
  size : T.size = t.size
  name : ∀ x, T.name x = t.name x
  payload : ∀ x, t.payload x ≠ none → T.payload x ≠ none
  frame : ∀ y, (∀ g ∈ tops, ¬ TransGen (ChildEdge t.entries) g y) → T.children y = t.children y

theorem FoldedUnder.init (hwf : t.WellFormed) : FoldedUnder t [] t :=
  ⟨hwf, .refl t, rfl, fun _ => rfl, fun _ h => h, fun _ _ => rfl⟩

/-- Culling a statement below `g` changes links below `g` only. -/
theorem FoldedUnder.cull {tops : List Handle} (h : FoldedUnder t tops T) {g st : Handle}
    (hg : TransGen (ChildEdge t.entries) g st) (fs : List Filter) :
    FoldedUnder t (tops ++ [g]) (T.cull st fs) := by
  have hc := cull_prunes h.wellFormed st fs
  refine ⟨h.wellFormed.cull st fs, h.shrinks.trans (shrinks_cull h.wellFormed st fs),
    (size_cull T st fs).trans h.size, fun x => (hc.relinked.name_eq x).trans (h.name x),
    fun x hx => by rw [Relinked.payload_eq hc.relinked]; exact h.payload x hx, fun y hy => ?_⟩
  have hy' : ∀ g' ∈ tops, ¬ TransGen (ChildEdge t.entries) g' y :=
    fun g' hg' => hy g' (List.mem_append_left _ hg')
  -- `y` is not below the statement, which is below `g`
  have hout : ¬ ReflTransGen (ChildEdge T.entries) st y := fun hsy =>
    hy g (List.mem_append_right _ (List.mem_singleton_self g))
      (hg.trans_left (h.shrinks.reflTransGen hsy))
  rw [children, hc.outside y hout]
  exact h.frame y hy'

/-- Attaching a graph node changes no link. -/
theorem FoldedUnder.setPayload {tops : List Handle} (h : FoldedUnder t tops T) (g : Handle)
    (id : NodeId) : FoldedUnder t tops (T.replaceWith g (.payload id)) := by
  have hr : Retouched T (T.replaceWith g (.payload id)) := retouched_setPayload g id
  refine ⟨h.wellFormed.of_links (fun x => ⟨hr.parent x, hr.children x⟩) hr.root,
    h.shrinks.trans (shrinks_of_children hr.children), (size_modifyEntry T g _).trans h.size,
    fun x => (hr.name x).trans (h.name x), fun x hx => payload_setPayload_ne_none (h.payload x hx) id,
    fun y hy => (hr.children y).trans (h.frame y hy)⟩

/-- Folding below the nodes under `s`, in a tree folded below other nodes, folds below `s`. -/
theorem FoldedUnder.trans {t₀ : ParseTree} {pre tops : List Handle} {s : Handle}
    (h₁ : FoldedUnder t₀ pre t) (h₂ : FoldedUnder t tops T)
    (hs : ∀ g ∈ tops, ReflTransGen (ChildEdge t.entries) s g) :
    FoldedUnder t₀ (pre ++ [s]) T where
  wellFormed := h₂.wellFormed
  shrinks := h₁.shrinks.trans h₂.shrinks
  size := h₂.size.trans h₁.size
  name x := (h₂.name x).trans (h₁.name x)
  payload x hx := h₂.payload x (h₁.payload x hx)
  frame y hy := by
    have hys := hy s (List.mem_append_right _ (List.mem_singleton_self s))
    rw [h₂.frame y fun g hg hgy => hys (h₁.shrinks.transGen (TransGen.trans_right (hs g hg) hgy)),
      h₁.frame y fun s' hs' => hy s' (List.mem_append_left _ hs')]

/-- A statement of an atomized tree whose elements are as they were, each group among them with a
graph node: culling it keeps its elements, and folding it reads a graph node for every element
between the bars. -/
theorem Atomized.foldReady {t₀ : ParseTree} (hA : Atomized t₀) {st : Handle}
    (hst : ReflTransGen (ChildEdge t₀.entries) t₀.root st) (hname : t₀.name st = some "statement")
    (hwf : T.WellFormed) (hch : T.children st = t₀.children st) (hnames : ∀ x, T.name x = t₀.name x)
    (hpay : ∀ x, t₀.payload x ≠ none → T.payload x ≠ none)
    (hgroups : ∀ c ∈ t₀.children st, t₀.name c = some "nested" → T.payload c ≠ none) :
    ∀ e ∈ (T.cull st unwrapStatements).children st,
      (T.cull st unwrapStatements).isNamed "|" e = false →
        (T.cull st unwrapStatements).payload e ≠ none := by
  have hc := cull_prunes hwf st unwrapStatements
  -- each element is a token, a group, a bar or an option
  have helem : ∀ c ∈ t₀.children st, t₀.name c = some "token" ∨ t₀.name c = some "nested" ∨
      t₀.name c = some "statementOpt" ∨ t₀.name c = some "|" := by
    intro c hc'
    obtain ⟨n, hcn, hmem⟩ := (hA.shape.shaped st hst).held c hc'
    rw [hname] at hmem
    simp only [heldNames, List.mem_cons, List.not_mem_nil, or_false] at hmem
    rw [hcn]
    rcases hmem with rfl | rfl | rfl | rfl <;> simp
  -- no element is a statement, so culling keeps them all
  have hkeep : ∀ c ∈ T.children st, T.strategyFor unwrapStatements c = .keep := by
    intro c hc'
    rw [hch] at hc'
    rw [strategyFor_eq_judged, hnames]
    rcases helem c hc' with h | h | h | h <;>
      simp [h, Strategy.judged, unwrapStatements, Pick.takes]
  have hL := hc.children.eq_of_keep hkeep
  intro e he hbar
  rw [hL, hch] at he
  rw [Relinked.payload_eq hc.relinked]
  rcases helem e he with h | h | h | h
  · exact hpay e (hA.lowered e (hst.tail he) h)
  · exact hgroups e he h
  · exact absurd h (hA.flat e (hst.tail he))
  · rw [isNamed, hc.relinked.name_eq, hnames, h] at hbar
    exact absurd hbar (by decide)

/-- A child that the notation requires, found by name in a tree with the same children and
names. -/
theorem childByName_required {t₀ : ParseTree} (hn : Notation t₀) {x : Handle}
    (hx : ReflTransGen (ChildEdge t₀.entries) t₀.root x) {n : String}
    (hreq : [n] ∈ requiredNames (t₀.name x)) (hch : T.children x = t₀.children x)
    (hnames : ∀ y, T.name y = t₀.name y) :
    ∃ c, T.childByName x n = some c ∧ c ∈ t₀.children x ∧ t₀.name c = some n := by
  obtain ⟨c, hc, m, hm, hcm⟩ := (hn.shaped x hx).required [n] hreq
  rw [List.mem_singleton] at hm
  subst hm
  obtain ⟨c', hc'⟩ := exists_childByName (hch ▸ hc) ((hnames c).trans hcm)
  obtain ⟨hc'x, hc'n⟩ := childByName_eq_some hc'
  exact ⟨c', hc', hch ▸ hc'x, (hnames c').symm.trans hc'n⟩

/-- The statement held by a group or a sentence of an atomized tree, when the node and its
children are as they were and the groups among the statement's elements carry their graph nodes:
folding it reads a graph node for every element between the bars. -/
theorem Atomized.statementReady {t₀ : ParseTree} (hA : Atomized t₀) {x : Handle}
    (hx : ReflTransGen (ChildEdge t₀.entries) t₀.root x)
    (hreq : ["statement"] ∈ requiredNames (t₀.name x)) (hwf : T.WellFormed)
    (hch : ∀ y, y = x ∨ y ∈ t₀.children x → T.children y = t₀.children y)
    (hnames : ∀ y, T.name y = t₀.name y) (hpay : ∀ y, t₀.payload y ≠ none → T.payload y ≠ none)
    (hgroups : ∀ st ∈ t₀.children x, ∀ c ∈ t₀.children st, t₀.name c = some "nested" →
      T.payload c ≠ none) :
    ∃ st, T.childByName x "statement" = some st ∧ st ∈ t₀.children x ∧
      ∀ e ∈ (T.cull st unwrapStatements).children st,
        (T.cull st unwrapStatements).isNamed "|" e = false →
          (T.cull st unwrapStatements).payload e ≠ none := by
  obtain ⟨st, hst, hstx, hstname⟩ :=
    childByName_required hA.shape hx (n := "statement") hreq (hch x (.inl rfl)) hnames
  exact ⟨st, hst, hstx, hA.foldReady (hx.tail hstx) hstname hwf (hch st (.inr hstx)) hnames hpay
    (hgroups st hstx)⟩

/-! #### The order of the groups -/

/-- The second of two nodes in order after a head comes from the tail. -/
theorem mem_of_pair_sublist_cons {x y z : Handle} {l : List Handle}
    (h : [x, y].Sublist (z :: l)) : y ∈ l := by
  rcases List.sublist_cons_iff.mp h with h | ⟨r, hr, hrl⟩
  · exact h.subset (by simp)
  · cases hr
    exact hrl.subset (List.mem_singleton_self y)

/-- In a list without repeats, what comes before `g` is in the part before `g`. -/
theorem mem_pre_of_sublist {pre post : List Handle} {a g : Handle}
    (hnd : (pre ++ g :: post).Nodup) (hs : [a, g].Sublist (pre ++ g :: post)) : a ∈ pre := by
  have hg := not_mem_of_nodup_middle hnd
  obtain ⟨r₁, r₂, heq, h₁, h₂⟩ := List.sublist_append_iff.mp hs
  match r₁, heq with
  | [], heq =>
    rw [List.nil_append] at heq
    subst heq
    exact absurd (mem_of_pair_sublist_cons h₂) hg.2
  | [a'], heq =>
    cases heq
    exact h₁.subset (List.mem_singleton_self a)
  | [a', g'], heq =>
    cases heq
    exact absurd (h₁.subset (by simp)) hg.1

/-- In a list without repeats, what comes after `g` is not in the part before `g`. -/
theorem not_mem_pre_of_sublist {pre post : List Handle} {g b : Handle}
    (hnd : (pre ++ g :: post).Nodup) (hs : [g, b].Sublist (pre ++ g :: post)) : b ∉ pre := by
  intro hb
  rw [List.nodup_append] at hnd
  obtain ⟨r₁, r₂, heq, h₁, h₂⟩ := List.sublist_append_iff.mp hs
  match r₁, heq with
  | [], heq =>
    rw [List.nil_append] at heq
    subst heq
    exact hnd.2.2 b hb b (List.mem_cons_of_mem g (mem_of_pair_sublist_cons h₂)) rfl
  | [g'], heq =>
    cases heq
    exact hnd.2.2 g (h₁.subset (List.mem_singleton_self g)) g List.mem_cons_self rfl
  | [g', b'], heq =>
    cases heq
    exact hnd.2.2 g (h₁.subset (by simp)) g List.mem_cons_self rfl

/-! #### One sentence -/

/-- Lowering a sentence of an atomized tree, once the tree is folded below other nodes that are
not above anything of the sentence, folds below the sentence too. Its groups are folded children
first, so that when a statement is folded each group it holds carries its graph node. -/
theorem runs_lowerSentence {t₃ : ParseTree} (hA : Atomized t₃) {pre : List Handle} {s : Handle}
    (hs : ReflTransGen (ChildEdge t₃.entries) t₃.root s) (hname : t₃.name s = some "sentence")
    (hfresh : ∀ y, ReflTransGen (ChildEdge t₃.entries) s y →
      ∀ s' ∈ pre, ¬ TransGen (ChildEdge t₃.entries) s' y) :
    Runs (FoldedUnder t₃ pre) (lowerSentence s) (fun _ => FoldedUnder t₃ (pre ++ [s])) := by
  unfold lowerSentence
  refine Runs.read fun t ht => ?_
  have hwf := ht.wellFormed
  have ho : t.Ordered := ht.shrinks.ordered hA.shape.ordered
  -- below the sentence the tree is as pass 3 left it
  have hkeep : ∀ y, ReflTransGen (ChildEdge t₃.entries) s y → t.children y = t₃.children y :=
    fun y hy => ht.frame y (hfresh y hy)
  have hdown : ∀ {y}, TransGen (ChildEdge t.entries) s y → ReflTransGen (ChildEdge t₃.entries) s y :=
    fun hy => (ht.shrinks.transGen hy).to_reflTransGen
  -- a node below the sentence that no group done is or is above keeps, with its children, what
  -- pass 3 left
  have hnear : ∀ {pre' : List Handle} {T : ParseTree}, FoldedUnder t pre' T → ∀ {x : Handle},
      ReflTransGen (ChildEdge t₃.entries) s x →
      (∀ g ∈ pre', ¬ ReflTransGen (ChildEdge t.entries) g x) →
      ∀ y, y = x ∨ y ∈ t₃.children x → T.children y = t₃.children y := by
    intro pre' T hT x hsx hx y hy
    rcases hy with rfl | hy
    · exact (hT.frame y fun g hg hgy => hx g hg hgy.to_reflTransGen).trans (hkeep y hsx)
    · have hy' : y ∈ t.children x := (hkeep x hsx).symm ▸ hy
      refine (hT.frame y fun g hg hgy => ?_).trans (hkeep y (hsx.tail hy))
      rcases hwf.eq_or_transGen_of_child hy' hgy with rfl | hgx
      · exact hx g hg .refl
      · exact hx g hg hgx.to_reflTransGen
  -- a grandchild below the sentence is one in the tree the sentence starts from
  have hgrand : ∀ {x st c : Handle}, ReflTransGen (ChildEdge t₃.entries) s x →
      st ∈ t₃.children x → c ∈ t₃.children st → TransGen (ChildEdge t.entries) x c := by
    intro x st c hsx hst hc
    have hst' : st ∈ t.children x := (hkeep x hsx).symm ▸ hst
    have hc' : c ∈ t.children st := (hkeep st (hsx.tail hst)).symm ▸ hc
    exact (TransGen.single hst').tail hc'
  obtain ⟨word, hword, -⟩ := childByName_required hA.shape hs (n := "word")
    (by rw [hname]; simp [requiredNames]) (hkeep s .refl) ht.name
  rw [hword]
  dsimp only
  -- the groups, children first, each folded and given its graph node
  refine Runs.bind (Q := fun _ T => FoldedUnder t (t.allByName s .leafFirst "nested") T ∧
      ∀ g ∈ t.allByName s .leafFirst "nested", T.payload g ≠ none)
    ((Runs.forIn _ (fun pre' T => FoldedUnder t pre' T ∧ ∀ g ∈ pre', T.payload g ≠ none)
      (fun pre' G post' _ hG => ?_) _).conseq
      (fun T hT => by subst hT; exact ⟨FoldedUnder.init hwf, fun _ h => absurd h List.not_mem_nil⟩)
      fun _ _ h => h) fun _ => ?_
  · have hGL : G ∈ t.allByName s .leafFirst "nested" := hG ▸ List.mem_append_right pre' List.mem_cons_self
    obtain ⟨hsG, hGname⟩ := (mem_allByName hwf ho).mp hGL
    have hnd : (pre' ++ G :: post').Nodup := hG ▸ nodup_allByName hwf ho s "nested"
    -- a group done is not above `G`, and a group below `G` is done
    have habove : ∀ g ∈ pre', ¬ TransGen (ChildEdge t.entries) g G := fun g hg hgG =>
      not_mem_pre_of_sublist hnd (hG ▸ allByName_sublist_of_below hwf ho
        (hG ▸ List.mem_append_left _ hg) hgG hGname) hg
    have hbelow : ∀ c, TransGen (ChildEdge t.entries) G c → t.name c = some "nested" → c ∈ pre' :=
      fun c hGc hcn => mem_pre_of_sublist hnd (hG ▸ allByName_sublist_of_below hwf ho hGL hGc hcn)
    refine Runs.read fun T hT => ?_
    have hsG₃ := hdown hsG
    have hnotG : ∀ g ∈ pre', ¬ ReflTransGen (ChildEdge t.entries) g G := fun g hg hgG =>
      (reflTransGen_iff_eq_or_transGen.mp hgG).elim
        (fun h => (not_mem_of_nodup_middle hnd).1 (h ▸ hg)) (habove g hg)
    obtain ⟨st, hst, hstG, hready⟩ := hA.statementReady (hs.trans hsG₃)
      (by rw [← ht.name, hGname]; simp [requiredNames]) hT.1.wellFormed (hnear hT.1 hsG₃ hnotG)
      (fun x => (hT.1.name x).trans (ht.name x)) (fun x hx => hT.1.payload x (ht.payload x hx))
      fun st hst c hc hcn => hT.2 c (hbelow c (hgrand hsG₃ hst hc) ((ht.name c).trans hcn))
    rw [hst]
    dsimp only
    have hstG' : st ∈ t.children G := (hkeep G hsG₃).symm ▸ hstG
    refine Runs.bind (Q := fun _ T' => T' = T.cull st unwrapStatements)
      (runs_fold st fun _ h => by subst h; exact ⟨hready, fun _ => rfl⟩) fun body => ?_
    refine Runs.bind ((quiet_applyOperators body G).runs fun _ _ h => h) fun node => ?_
    refine Runs.yield (runs_edit fun _ h => h ▸ ⟨?_, ?_⟩)
    · exact (hT.1.cull (.single hstG') _).setPayload G node
    · intro g hg
      rcases List.mem_append.mp hg with hg | hg
      · refine payload_setPayload_ne_none ?_ node
        rw [Relinked.payload_eq (cull_prunes hT.1.wellFormed st unwrapStatements).relinked]
        exact hT.2 g hg
      · rw [List.mem_singleton] at hg
        subst hg
        have hlt : g < (T.cull st unwrapStatements).size := by
          rw [size_cull, hT.1.size]
          exact hwf.lt_size_of_transGen hsG
        rw [payload_setPayload_self hlt]
        exact Option.some_ne_none node
  · -- the body: every group below the sentence is done, and none is the sentence or above it
    refine Runs.read fun T hT => ?_
    have hgroups : ∀ g ∈ t.allByName s .leafFirst "nested", TransGen (ChildEdge t.entries) s g :=
      fun g hg => ((mem_allByName hwf ho).mp hg).1
    have hnots : ∀ g ∈ t.allByName s .leafFirst "nested", ¬ ReflTransGen (ChildEdge t.entries) g s :=
      fun g hg hgs => hwf.not_transGen_childEdge_self s ((hgroups g hg).trans_left hgs)
    obtain ⟨st, hst, hsts, hready⟩ := hA.statementReady hs (by rw [hname]; simp [requiredNames])
      hT.1.wellFormed (hnear hT.1 .refl hnots) (fun x => (hT.1.name x).trans (ht.name x))
      (fun x hx => hT.1.payload x (ht.payload x hx)) fun st hst c hc hcn =>
        hT.2 c ((mem_allByName hwf ho).mpr ⟨hgrand .refl hst hc, (ht.name c).trans hcn⟩)
    rw [hst]
    dsimp only
    have hsts' : st ∈ t.children s := (hkeep s .refl).symm ▸ hsts
    have hfolded : FoldedUnder t₃ (pre ++ [s]) (T.cull st unwrapStatements) :=
      ht.trans (hT.1.cull (.single hsts') _) fun g hg => by
        rcases List.mem_append.mp hg with hg | hg
        · exact (hgroups g hg).to_reflTransGen
        · rw [List.mem_singleton] at hg
          rw [hg]
    refine Runs.bind (Q := fun _ T' => FoldedUnder t₃ (pre ++ [s]) T')
      (runs_fold st fun _ h => by subst h; exact ⟨hready, fun _ => hfolded⟩) fun body => ?_
    -- naming the body and defining the rule leave the tree alone
    refine Runs.bind (quiet_get.runs fun _ _ h => h) fun _ => ?_
    split
    · exact ((quiet_nameNode _ _).runs fun _ _ h => h).bind fun _ => runs_defineRule
    · exact runs_defineRule

/-! ### All passes -/

/-- Lowering a `Notation` tree fails only benignly. -/
theorem runs_run (hu : Notation u) : Runs (fun T => T = u) run (fun _ _ => True) := by
  have hwf := hu.wellFormed
  have ho := hu.ordered
  unfold run
  refine Runs.read fun t ht => ?_
  subst ht
  dsimp only
  rw [targets_eq t (by decide : "escapeSequence" ∈ passTargets),
    targets_eq t (by decide : "statementOpt" ∈ passTargets),
    targets_eq t (by decide : "token" ∈ passTargets),
    targets_eq t (by decide : "sentence" ∈ passTargets)]
  -- pass 1: escapes
  refine Runs.bind ((Runs.forIn _ (fun _ T => Notation T ∧ Retouched t T)
    (fun _ h _ _ _ => (runs_resolveEscape_retouched h).yield) _).conseq
    (fun T hT => by subst hT; exact ⟨hu, .refl T⟩) fun _ _ h => h) fun _ => ?_
  -- pass 2: flattening
  refine Runs.bind ((Runs.forIn _ (Flattening t) (fun pre o post _ hO => ?_) _).conseq
    (fun T hT => Flattening.init hT.1 hT.2) fun _ _ h => h) fun _ => ?_
  · obtain ⟨hbelow, hname⟩ := (mem_allByName hwf ho).mp (hO ▸ List.mem_append_right pre List.mem_cons_self)
    have hpre := (not_mem_of_nodup_middle (hO ▸ nodup_allByName hwf ho t.root "statementOpt")).1
    exact (runs_flatten_step hbelow.to_reflTransGen hname hpre).yield
  -- pass 3: atoms, over the tree that pass 2 left
  refine Runs.fix fun t₂ h₂ => ?_
  refine Runs.bind ((Runs.forIn _ (AtomsDone t₂) (fun pre k post _ hK => ?_) _).conseq
    (fun T hT => by subst hT; exact AtomsDone.init h₂.shape) fun _ _ h => h) fun _ => ?_
  · obtain ⟨hk₂, hname₂⟩ := h₂.kept_named hu (hK ▸ List.mem_append_right pre List.mem_cons_self)
      (by decide)
    refine (runs_lowerToken_step hk₂ hname₂).bind fun node => ?_
    refine Runs.yield (runs_edit fun T hT => hT.setPayload ?_ node)
    -- a token hangs from a parent, so it is a node of the tree
    obtain ⟨p, -, hkp⟩ :=
      exists_parent_of_reach h₂.shape.wellFormed hk₂ (h₂.shape.ne_root hname₂ (by decide))
    exact lt_size_of_parent ((hT.retouched.parent k).trans hkp)
  -- pass 4: rules, over the tree that pass 3 left
  refine Runs.fix fun t₃ h₃ => ?_
  have hA := atomized_of_passes hu h₂ h₃
  have hsent : ∀ x ∈ t.allByName t.root .leafFirst "sentence",
      ReflTransGen (ChildEdge t₃.entries) t₃.root x ∧ t₃.name x = some "sentence" := by
    intro x hx
    obtain ⟨hx₂, hname⟩ := h₂.kept_named hu hx (by decide)
    exact ⟨h₃.retouched.reach_iff.mpr hx₂, (h₃.retouched.name x).trans hname⟩
  refine ((Runs.forIn _ (FoldedUnder t₃) (fun pre s post _ hS => ?_) _).conseq
    (fun T hT => by subst hT; exact FoldedUnder.init hA.shape.wellFormed)
    fun _ _ _ => trivial).bind fun _ => Runs.pure fun _ _ => trivial
  have hnd := hS ▸ nodup_allByName hwf ho t.root "sentence"
  obtain ⟨hs₃, hname₃⟩ := hsent s (hS ▸ List.mem_append_right pre List.mem_cons_self)
  refine (runs_lowerSentence hA hs₃ hname₃ fun y hy s' hs' => ?_).yield
  -- the sentences done are other sentences, and nothing lies below two of them
  obtain ⟨hs'₃, hname'₃⟩ := hsent s' (hS ▸ List.mem_append_left _ hs')
  exact hA.shape.not_below_two_sentences hs₃ hname₃ hs'₃ hname'₃
    (fun h => (not_mem_of_nodup_middle hnd).1 (h ▸ hs')) hy

end Lowering

/-- Lowering a tree of the notation ends with a grammar and its rules, or fails with a range whose
ends are out of order or with a rule defined twice. -/
theorem lower_benign {u : ParseTree} (hu : Notation u) :
    (∃ g r, lower u = .ok (g, r)) ∨ (∃ lo hi, lower u = .error (.invalidRange lo hi)) ∨
      ∃ name, lower u = .error (.duplicateRule name) := by
  have hrun := Lowering.runs_run hu { tree := u } rfl
  unfold lower
  revert hrun
  cases Lowering.run.run { tree := u } with
  | ok r =>
    intro _
    exact .inl ⟨r.2.grammar, r.2.rules, rfl⟩
  | error e =>
    intro he
    cases e with
    | invalidRange lo hi => exact .inr (.inl ⟨lo, hi, rfl⟩)
    | duplicateRule name => exact .inr (.inr ⟨name, rfl⟩)
    | _ => exact he.elim

/-- Every text that parses as grammar text lowers to a grammar and its rules, or fails with a range
whose ends are out of order or with a rule defined twice: never with a malformed node. -/
theorem lower_parsed_benign {source : String} {limits : Limits} {t : ParseTree}
    (h : parse source limits = .ok t) :
    (∃ g r, lower t = .ok (g, r)) ∨ (∃ lo hi, lower t = .error (.invalidRange lo hi)) ∨
      ∃ name, lower t = .error (.duplicateRule name) := by
  have hu := parse_notation h
  exact lower_benign hu

set_option maxRecDepth 20000 in
/-- A range written backwards parses, and lowering it fails benignly. -/
theorem backwardsRange_lowers_benign : ∃ t, parse "digit ::= [9-0]" = .ok t ∧
    ((∃ g r, lower t = .ok (g, r)) ∨ (∃ lo hi, lower t = .error (.invalidRange lo hi)) ∨
      ∃ name, lower t = .error (.duplicateRule name)) := by
  have hok : (parse "digit ::= [9-0]").toBool = true := by decide +kernel
  cases hp : parse "digit ::= [9-0]" with
  | error e =>
    rw [hp] at hok
    cases hok
  | ok t => exact ⟨t, rfl, lower_parsed_benign hp⟩

end Tokenweave.Dialect
