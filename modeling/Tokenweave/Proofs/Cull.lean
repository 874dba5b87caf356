import Tokenweave.Proofs.Subtrees
/-!
# Culling prunes

`cull t n fs` walks the children of `n` as they were before any of them was touched; each child
is culled first and judged after, by the first filter of `fs` that picks it. Judged `keep` it
stays, `deleteAll` detaches it with what culling left under it, and `liftChildren` puts what is
left under it in its place and detaches it with no children.

What comes out is stated without the walk. `Culled t fs cs cs'` says which list `cs'` the nodes
`cs` of `t` leave in their parent's child list: a kept node stays, a deleted one goes, and a
lifted one gives way to what its own children leave. `CulledUnder t u fs n` says that `u` is `t`
pruned under `n` that way: `n` keeps its place, the child list of every node below `n` is what
its old children leave, the nodes deleted or lifted are detached, nothing outside the subtree
of `n` changes, and no name, span, value or payload changes anywhere. In a well-formed tree
culling does exactly that (`cull_prunes`), and what it leaves it leaves for good
(`cull_idempotent`): filters judge a node by its name and span, which culling never changes,
so every node still under `n` afterwards was judged `keep`, and a second cull keeps them all.

The walk is followed by a fold invariant (`CullFold`): after the children `pre` of `n`,
what `pre` leaves heads the child list of `n`, every node below `pre` is settled, and all
else is as it was. Culling a child `c` works only below `c`, which shares no node with the
subtrees already done (`WellFormed.disjoint_of_siblings`); `Judging` is the state once `c`
is culled, and each of the three judgements takes it to the invariant for `pre ++ [c]`.
-/

set_option autoImplicit false

namespace Tokenweave.ParseTree

open Relation

variable {t u v : ParseTree} {fs : List Filter}

/-! ### Pruning, stated without the walk -/

/-- `Culled t fs cs cs'`: culling the nodes `cs` of `t` by `fs` leaves `cs'` in their place. A
kept node stays, a deleted node goes, and a lifted node gives way to what its own children
leave. -/
inductive Culled (t : ParseTree) (fs : List Filter) : List Nat → List Nat → Prop
  | nil : Culled t fs [] []
  | keep {c : Nat} {cs rest : List Nat} : t.strategyFor fs c = .keep → Culled t fs cs rest →
      Culled t fs (c :: cs) (c :: rest)
  | delete {c : Nat} {cs rest : List Nat} : t.strategyFor fs c = .deleteAll →
      Culled t fs cs rest → Culled t fs (c :: cs) rest
  | lift {c : Nat} {cs lifted rest : List Nat} : t.strategyFor fs c = .liftChildren →
      Culled t fs (t.children c) lifted → Culled t fs cs rest →
      Culled t fs (c :: cs) (lifted ++ rest)

/-- What culling leaves of a node below the culled one: a kept node holds what its children
leave; a deleted node holds it too, detached; a lifted node is detached with no children. -/
def Settled (t u : ParseTree) (fs : List Filter) (x : Nat) : Prop :=
  match t.strategyFor fs x with
  | .keep => Culled t fs (t.children x) (u.children x)
  | .deleteAll => Culled t fs (t.children x) (u.children x) ∧ u.parent x = none
  | .liftChildren => u.children x = [] ∧ u.parent x = none

/-- `u` is `t` pruned under `n` by `fs`. -/
structure CulledUnder (t u : ParseTree) (fs : List Filter) (n : Nat) : Prop where
  /-- Parent links and child lists agree. -/
  wellFormed : u.WellFormed
  /-- Only links change: names, spans, values and payloads stay. -/
  relinked : Relinked t u
  root : u.root = t.root
  /-- Nothing outside the subtree of `n` changes. -/
  outside : ∀ x, ¬ ReflTransGen (ChildEdge t.entries) n x → u.entry x = t.entry x
  /-- `n` keeps its place. -/
  parent : u.parent n = t.parent n
  /-- `n` holds what its children leave. -/
  children : Culled t fs (t.children n) (u.children n)
  /-- Every node below `n` is settled by its own judgement. -/
  below : ∀ x, TransGen (ChildEdge t.entries) n x → Settled t u fs x

theorem Culled.append {cs cs' L L' : List Nat} (hL : Culled t fs cs L)
    (hL' : Culled t fs cs' L') : Culled t fs (cs ++ cs') (L ++ L') := by
  induction hL with
  | nil => exact hL'
  | keep hs _ ih => exact .keep hs ih
  | delete hs _ ih => exact .delete hs ih
  | lift hs hl _ _ ih =>
    rw [List.append_assoc]
    exact .lift hs hl ih

/-- What a list of nodes leaves is determined by the tree and the filters. -/
theorem Culled.unique {cs L L' : List Nat} (hL : Culled t fs cs L) (hL' : Culled t fs cs L') :
    L = L' := by
  induction hL generalizing L' with
  | nil =>
    cases hL'
    rfl
  | keep hs _ ih =>
    cases hL' with
    | keep _ hrest => rw [ih hrest]
    | delete hs' _ => rw [hs] at hs'; cases hs'
    | lift hs' _ _ => rw [hs] at hs'; cases hs'
  | delete hs _ ih =>
    cases hL' with
    | keep hs' _ => rw [hs] at hs'; cases hs'
    | delete _ hrest => exact ih hrest
    | lift hs' _ _ => rw [hs] at hs'; cases hs'
  | lift hs _ _ ihl ihr =>
    cases hL' with
    | keep hs' _ => rw [hs] at hs'; cases hs'
    | delete hs' _ => rw [hs] at hs'; cases hs'
    | lift _ hl hrest => rw [ihl hl, ihr hrest]

/-- Every node left is kept, and lies below one of the nodes culled. -/
theorem Culled.kept_below {cs L : List Nat} (hL : Culled t fs cs L) {y : Nat} (hy : y ∈ L) :
    t.strategyFor fs y = .keep ∧ ∃ c ∈ cs, ReflTransGen (ChildEdge t.entries) c y := by
  induction hL with
  | nil => cases hy
  | @keep c cs rest hs _ ih =>
    rcases List.mem_cons.mp hy with rfl | hy
    · exact ⟨hs, y, List.mem_cons_self, .refl⟩
    · obtain ⟨hk, c', hc', hy'⟩ := ih hy
      exact ⟨hk, c', List.mem_cons_of_mem c hc', hy'⟩
  | @delete c cs rest _ _ ih =>
    obtain ⟨hk, c', hc', hy'⟩ := ih hy
    exact ⟨hk, c', List.mem_cons_of_mem c hc', hy'⟩
  | @lift c cs lifted rest _ _ _ ihl ihr =>
    rcases List.mem_append.mp hy with hy | hy
    · obtain ⟨hk, c', hc', hy'⟩ := ihl hy
      exact ⟨hk, c, List.mem_cons_self, ReflTransGen.head hc' hy'⟩
    · obtain ⟨hk, c', hc', hy'⟩ := ihr hy
      exact ⟨hk, c', List.mem_cons_of_mem c hc', hy'⟩

/-- Pruning read in a relinked tree whose child lists agree below the nodes culled. -/
theorem Culled.of_relinked (hr : Relinked t u) {cs L : List Nat} (hL : Culled u fs cs L)
    (heq : ∀ c ∈ cs, ∀ x, ReflTransGen (ChildEdge t.entries) c x →
      u.children x = t.children x) :
    Culled t fs cs L := by
  induction hL with
  | nil => exact .nil
  | @keep c cs rest hs _ ih =>
    rw [hr.strategyFor_eq] at hs
    exact .keep hs (ih fun c' hc' => heq c' (List.mem_cons_of_mem c hc'))
  | @delete c cs rest hs _ ih =>
    rw [hr.strategyFor_eq] at hs
    exact .delete hs (ih fun c' hc' => heq c' (List.mem_cons_of_mem c hc'))
  | @lift c cs lifted rest hs _ _ ihl ihr =>
    rw [hr.strategyFor_eq] at hs
    have hc : u.children c = t.children c := heq c List.mem_cons_self c .refl
    -- The children of a lifted node are the same in both trees, and so is what lies below them.
    have hl := ihl fun c' hc' x hx => by
      rw [hc] at hc'
      exact heq c List.mem_cons_self x (ReflTransGen.head hc' hx)
    rw [hc] at hl
    exact .lift hs hl (ihr fun c' hc' => heq c' (List.mem_cons_of_mem c hc'))

/-- A settled node stays settled while its child list stays and no edit attaches a detached
node. -/
theorem Settled.of_links {x : Nat} (hs : Settled t u fs x) (hc : v.children x = u.children x)
    (hp : u.parent x = none → v.parent x = none) : Settled t v fs x := by
  cases hst : t.strategyFor fs x <;> simp only [Settled, hst, hc] at hs ⊢
  · exact hs
  · exact ⟨hs.1, hp hs.2⟩
  · exact ⟨hs.1, hp hs.2⟩

theorem Settled.of_entry_eq {x : Nat} (hs : Settled t u fs x) (he : v.entry x = u.entry x) :
    Settled t v fs x :=
  hs.of_links (congrArg Entry.children he) fun hp => (congrArg Entry.parent he).trans hp

/-- Settledness read in a relinked tree whose child lists agree below the node. -/
theorem Settled.of_relinked (hr : Relinked t u) {x : Nat}
    (heq : ∀ y, ReflTransGen (ChildEdge t.entries) x y → u.children y = t.children y)
    (hs : Settled u v fs x) : Settled t v fs x := by
  have hcul : ∀ {L}, Culled u fs (u.children x) L → Culled t fs (t.children x) L := by
    intro L hL
    rw [heq x .refl] at hL
    exact hL.of_relinked hr fun c hc y hy => heq y (ReflTransGen.head hc hy)
  cases hst : t.strategyFor fs x <;> simp only [Settled, hr.strategyFor_eq, hst] at hs ⊢
  · exact hcul hs
  · exact ⟨hcul hs.1, hs.2⟩
  · exact hs

/-- A node is settled with everything below it once each of its children is. -/
theorem settled_append {pre : List Nat} {c : Nat}
    (hpre : ∀ c' ∈ pre, ∀ x, ReflTransGen (ChildEdge t.entries) c' x → Settled t u fs x)
    (hc : Settled t u fs c) (hbelow : ∀ x, TransGen (ChildEdge t.entries) c x → Settled t u fs x) :
    ∀ c' ∈ pre ++ [c], ∀ x, ReflTransGen (ChildEdge t.entries) c' x → Settled t u fs x := by
  intro c' hc' x hx
  rcases List.mem_append.mp hc' with hc' | hc'
  · exact hpre c' hc' x hx
  · rw [List.mem_singleton] at hc'
    subst hc'
    rcases reflTransGen_iff_eq_or_transGen.mp hx with rfl | hx
    · exact hc
    · exact hbelow x hx

/-! ### The lists edits leave -/

/-- A child list holds each child once. -/
theorem not_mem_of_nodup_middle {L R : List Nat} {c : Nat} (hnd : (L ++ c :: R).Nodup) :
    c ∉ L ∧ c ∉ R := by
  have hnd' := List.nodup_middle.mp hnd
  rw [List.nodup_cons, List.mem_append, not_or] at hnd'
  exact hnd'.1

theorem filter_ne_middle {L R : List Nat} {c : Nat} (hL : c ∉ L) (hR : c ∉ R) :
    (L ++ c :: R).filter (· != c) = L ++ R := by
  have hkeep : ∀ {l : List Nat}, c ∉ l → l.filter (· != c) = l := fun hl =>
    List.filter_eq_self.mpr fun a ha => bne_iff_ne.mpr fun hac => hl (hac ▸ ha)
  rw [List.filter_append, List.filter_cons_of_neg (by simp), hkeep hL, hkeep hR]

theorem spliceAt_middle {L R K : List Nat} {c : Nat} (hL : c ∉ L) :
    spliceAt (L ++ c :: R) c K = L ++ K ++ R := by
  have hi : (L ++ c :: R).idxOf? c = some L.length := by
    rw [List.idxOf?_eq_some_iff]
    refine ⟨by simp, by simp, fun j hj => ?_⟩
    rw [List.getElem_append_left hj]
    exact fun hjc => hL (hjc ▸ List.getElem_mem hj)
  simp [spliceAt, hi]

/-- Removing a node attaches no detached node. -/
theorem WellFormed.parent_remove_eq_none (hwf : t.WellFormed) {c x : Nat}
    (hx : t.parent x = none) : (t.remove c).parent x = none := by
  by_cases hxc : x = c
  · subst hxc
    exact hwf.parent_remove_self x
  · rw [hwf.parent_remove_of_ne hxc]
    exact hx

/-- Lifting the children of a node attaches no detached node. -/
theorem WellFormed.parent_liftChildren_eq_none (hwf : t.WellFormed) {c x : Nat}
    (hx : t.parent x = none) : (t.liftChildren c).parent x = none := by
  cases hp : t.parent c with
  | none => rwa [liftChildren_of_parent_eq_none hp]
  | some p =>
    have hxc : x ∉ t.children c := fun hxc => by
      rw [hwf.mem_children_iff, hx] at hxc
      cases hxc
    rw [parent_liftChildren hp hwf, if_neg hxc, hx, ite_self]

/-! ### Siblings -/

section Siblings

variable {h c : Nat} {pre rest : List Nat} (hcs : t.children h = pre ++ c :: rest)
include hcs

theorem mem_children_of_eq_middle : c ∈ t.children h := by
  rw [hcs]
  simp

theorem mem_children_of_mem_pre {c' : Nat} (hc' : c' ∈ pre) : c' ∈ t.children h := by
  rw [hcs]
  simp [hc']

/-- Nodes below a child of `h` before `c` are not below `c`. -/
theorem not_below_of_below_pre (hwf : t.WellFormed) {c' x : Nat} (hc' : c' ∈ pre)
    (hx : ReflTransGen (ChildEdge t.entries) c' x) : ¬ ReflTransGen (ChildEdge t.entries) c x := by
  have hnd : (pre ++ c :: rest).Nodup := by
    rw [← hcs]
    exact hwf.nodup_children h
  have hne : c' ≠ c := fun hc'c => (not_mem_of_nodup_middle hnd).1 (hc'c ▸ hc')
  exact hwf.disjoint_of_siblings (mem_children_of_mem_pre hcs hc') (mem_children_of_eq_middle hcs)
    hne hx

end Siblings

/-! ### The walk -/

/-- Culling under `h` part way: the children `pre` of `h` are culled and judged, the children
`rest` are still to come. -/
structure CullFold (t u : ParseTree) (fs : List Filter) (h : Nat) (pre rest : List Nat) :
    Prop where
  wellFormed : u.WellFormed
  relinked : Relinked t u
  root : u.root = t.root
  parent : u.parent h = t.parent h
  children : ∃ L, Culled t fs pre L ∧ u.children h = L ++ rest
  settled : ∀ c ∈ pre, ∀ x, ReflTransGen (ChildEdge t.entries) c x → Settled t u fs x
  outside : ∀ x, x ≠ h → (∀ c ∈ pre, ¬ ReflTransGen (ChildEdge t.entries) c x) →
    u.entry x = t.entry x

/-- Culling under `h` once the child `c`, after the children `pre`, is culled under but not yet
judged. -/
structure Judging (t u : ParseTree) (fs : List Filter) (h : Nat) (pre : List Nat) (c : Nat)
    (rest : List Nat) : Prop where
  wellFormed : u.WellFormed
  relinked : Relinked t u
  root : u.root = t.root
  parent : u.parent h = t.parent h
  parent_child : u.parent c = some h
  children : ∃ L, Culled t fs pre L ∧ u.children h = L ++ c :: rest
  culled : Culled t fs (t.children c) (u.children c)
  settled : ∀ c' ∈ pre, ∀ x, ReflTransGen (ChildEdge t.entries) c' x → Settled t u fs x
  below : ∀ x, TransGen (ChildEdge t.entries) c x → Settled t u fs x
  outside : ∀ x, x ≠ h → (∀ c' ∈ pre ++ [c], ¬ ReflTransGen (ChildEdge t.entries) c' x) →
    u.entry x = t.entry x

variable {h c : Nat} {pre rest : List Nat}

theorem CullFold.init (hwf : t.WellFormed) : CullFold t t fs h [] (t.children h) where
  wellFormed := hwf
  relinked := .refl t
  root := rfl
  parent := rfl
  children := ⟨[], .nil, rfl⟩
  settled := fun _ hc => nomatch hc
  outside := fun _ _ _ => rfl

theorem CullFold.culledUnder (hF : CullFold t u fs h (t.children h) []) :
    CulledUnder t u fs h where
  wellFormed := hF.wellFormed
  relinked := hF.relinked
  root := hF.root
  parent := hF.parent
  children := by
    obtain ⟨L, hL, hu⟩ := hF.children
    rw [hu, List.append_nil]
    exact hL
  below := fun x hx => by
    obtain ⟨c, hc, hcx⟩ := TransGen.head'_iff.mp hx
    exact hF.settled c hc x hcx
  outside := fun x hx => by
    refine hF.outside x (fun hxh => hx ?_) fun c hc hcx => hx (ReflTransGen.head hc hcx)
    rw [hxh]

/-- The nodes below the child being culled are as they were. -/
theorem CullFold.entry_below (hwf : t.WellFormed) (hF : CullFold t u fs h pre (c :: rest))
    (hcs : t.children h = pre ++ c :: rest) {x : Nat}
    (hx : ReflTransGen (ChildEdge t.entries) c x) : u.entry x = t.entry x :=
  hF.outside x (hwf.ne_of_below_child (mem_children_of_eq_middle hcs) hx)
    fun _ hc' hc'x => not_below_of_below_pre hcs hwf hc' hc'x hx

/-- Culling under the next child works below it only. -/
theorem CullFold.judging (hwf : t.WellFormed) (hF : CullFold t u fs h pre (c :: rest))
    (hcs : t.children h = pre ++ c :: rest) {u₁ : ParseTree} (hu₁ : CulledUnder u u₁ fs c) :
    Judging t u₁ fs h pre c rest := by
  have hcmem : c ∈ t.children h := mem_children_of_eq_middle hcs
  have hch : ∀ x, ReflTransGen (ChildEdge t.entries) c x → u.children x = t.children x :=
    fun x hx => congrArg Entry.children (hF.entry_below hwf hcs hx)
  -- Below `c` the two trees have the same child edges, so what culling in `u` leaves alone is
  -- read in `t`.
  have hout : ∀ x, ¬ ReflTransGen (ChildEdge t.entries) c x → u₁.entry x = u.entry x :=
    fun x hx => hu₁.outside x fun hux => hx (reflTransGen_childEdge_of_children_eq hch hux)
  have hhu : u₁.entry h = u.entry h := hout h (hwf.not_below_child hcmem)
  exact {
    wellFormed := hu₁.wellFormed
    relinked := hF.relinked.trans hu₁.relinked
    root := hu₁.root.trans hF.root
    parent := (congrArg Entry.parent hhu).trans hF.parent
    parent_child := by
      rw [hu₁.parent]
      exact (congrArg Entry.parent (hF.entry_below hwf hcs .refl)).trans
        ((hwf.mem_children_iff).mp hcmem)
    children := by
      obtain ⟨L, hL, hu⟩ := hF.children
      exact ⟨L, hL, (congrArg Entry.children hhu).trans hu⟩
    culled := by
      have hc := hu₁.children
      rw [hch c .refl] at hc
      exact hc.of_relinked hF.relinked fun c' hc' x hx => hch x (ReflTransGen.head hc' hx)
    settled := fun c' hc' x hx =>
      (hF.settled c' hc' x hx).of_entry_eq (hout x (not_below_of_below_pre hcs hwf hc' hx))
    below := fun x hx =>
      (hu₁.below x (transGen_childEdge_of_children_eq hch hx)).of_relinked hF.relinked
        fun y hy => hch y (hx.to_reflTransGen.trans hy)
    outside := fun x hxh hx => by
      rw [hout x (hx c (by simp)), hF.outside x hxh fun c' hc' => hx c' (by simp [hc'])] }

/-- An edit that changes the child lists of `h` and `c` only, and attaches no detached node,
keeps settled what is settled below the children before `c` and strictly below `c`. -/
theorem Judging.settled_edit (hwf : t.WellFormed) (hcs : t.children h = pre ++ c :: rest)
    (hJ : Judging t u fs h pre c rest)
    (hch : ∀ x, x ≠ h → x ≠ c → v.children x = u.children x)
    (hpar : ∀ x, u.parent x = none → v.parent x = none) :
    (∀ c' ∈ pre, ∀ x, ReflTransGen (ChildEdge t.entries) c' x → Settled t v fs x) ∧
      ∀ x, TransGen (ChildEdge t.entries) c x → Settled t v fs x := by
  refine ⟨fun c' hc' x hx => ?_, fun x hx => ?_⟩
  · have hxc : x ≠ c := fun hxc => not_below_of_below_pre hcs hwf hc' hx (by rw [hxc])
    have hxh : x ≠ h := hwf.ne_of_below_child (mem_children_of_mem_pre hcs hc') hx
    exact (hJ.settled c' hc' x hx).of_links (hch x hxh hxc) (hpar x)
  · have hxh : x ≠ h := hwf.ne_of_below_child (mem_children_of_eq_middle hcs) hx.to_reflTransGen
    exact (hJ.below x hx).of_links (hch x hxh (hwf.ne_of_transGen hx)) (hpar x)

/-- The child being judged is in the child list of `h` once, and it is not `h`. -/
theorem Judging.children_apart (hJ : Judging t u fs h pre c rest) :
    h ≠ c ∧ ∃ L, Culled t fs pre L ∧ u.children h = L ++ c :: rest ∧ c ∉ L ∧ c ∉ rest := by
  obtain ⟨L, hL, hu⟩ := hJ.children
  have hnd := hJ.wellFormed.nodup_children h
  rw [hu] at hnd
  exact ⟨(hJ.wellFormed.ne_of_parent hJ.parent_child).symm, L, hL, hu, not_mem_of_nodup_middle hnd⟩

theorem Judging.keep (hJ : Judging t u fs h pre c rest) (hs : t.strategyFor fs c = .keep) :
    CullFold t u fs h (pre ++ [c]) rest where
  wellFormed := hJ.wellFormed
  relinked := hJ.relinked
  root := hJ.root
  parent := hJ.parent
  children := by
    obtain ⟨L, hL, hu⟩ := hJ.children
    exact ⟨L ++ [c], hL.append (.keep hs .nil), by rw [hu, List.append_assoc]; rfl⟩
  settled := settled_append hJ.settled (by simp only [Settled, hs]; exact hJ.culled) hJ.below
  outside := hJ.outside

theorem Judging.delete (hwf : t.WellFormed) (hcs : t.children h = pre ++ c :: rest)
    (hJ : Judging t u fs h pre c rest) (hs : t.strategyFor fs c = .deleteAll) :
    CullFold t (u.remove c) fs h (pre ++ [c]) rest := by
  have hwfu := hJ.wellFormed
  have hp := hJ.parent_child
  have hpl : h < u.size := hwfu.parent_lt_size hp
  obtain ⟨hhc, L, hL, hu, hcL, hcR⟩ := hJ.children_apart
  have hch : ∀ x, x ≠ h → (u.remove c).children x = u.children x := fun x hxh => by
    rw [children_remove hp hpl, if_neg hxh]
  obtain ⟨hpre, hbelow⟩ :=
    hJ.settled_edit hwf hcs (fun x hxh _ => hch x hxh) fun _ => hwfu.parent_remove_eq_none
  exact {
    wellFormed := hwfu.remove c
    relinked := hJ.relinked.trans (relinked_remove c)
    root := (root_remove c).trans hJ.root
    parent := (hwfu.parent_remove_of_ne hhc).trans hJ.parent
    children := ⟨L ++ [], hL.append (.delete hs .nil), by
      rw [children_remove hp hpl, if_pos rfl, hu, filter_ne_middle hcL hcR, List.append_nil]⟩
    settled := by
      refine settled_append hpre ?_ hbelow
      simp only [Settled, hs]
      exact ⟨(hch c hhc.symm).symm ▸ hJ.culled, hwfu.parent_remove_self c⟩
    outside := fun x hxh hx => by
      have hxc : x ≠ c := fun hxc => hx c (by simp) (by rw [hxc])
      rw [(relinked_remove c).entry_eq (hch x hxh) (hwfu.parent_remove_of_ne hxc)]
      exact hJ.outside x hxh hx }

theorem Judging.lift (hwf : t.WellFormed) (hcs : t.children h = pre ++ c :: rest)
    (hJ : Judging t u fs h pre c rest) (hs : t.strategyFor fs c = .liftChildren) :
    CullFold t (u.liftChildren c) fs h (pre ++ [c]) rest := by
  have hwfu := hJ.wellFormed
  have hp := hJ.parent_child
  obtain ⟨hhc, L, hL, hu, hcL, -⟩ := hJ.children_apart
  have hch : ∀ x, x ≠ h → x ≠ c → (u.liftChildren c).children x = u.children x :=
    fun x hxh hxc => by rw [children_liftChildren hp hwfu, if_neg hxc, if_neg hxh]
  -- The lifted nodes are what culling left under `c`, all from below `c`.
  have hlifted : ∀ x ∈ u.children c, ReflTransGen (ChildEdge t.entries) c x := fun x hx => by
    obtain ⟨_, c', hc', hx'⟩ := hJ.culled.kept_below hx
    exact ReflTransGen.head hc' hx'
  obtain ⟨hpre, hbelow⟩ := hJ.settled_edit hwf hcs hch fun _ => hwfu.parent_liftChildren_eq_none
  exact {
    wellFormed := hwfu.liftChildren c
    relinked := hJ.relinked.trans (relinked_liftChildren c)
    root := (root_liftChildren c).trans hJ.root
    parent := by
      have hhl : h ∉ u.children c := fun hh =>
        hwf.not_below_child (mem_children_of_eq_middle hcs) (hlifted h hh)
      rw [parent_liftChildren hp hwfu, if_neg hhc, if_neg hhl]
      exact hJ.parent
    children := ⟨L ++ (u.children c ++ []), hL.append (.lift hs hJ.culled .nil), by
      rw [children_liftChildren hp hwfu, if_neg hhc, if_pos rfl, hu, spliceAt_middle hcL]
      simp only [List.append_nil, List.append_assoc]⟩
    settled := by
      refine settled_append hpre ?_ hbelow
      simp only [Settled, hs]
      rw [children_liftChildren hp hwfu, parent_liftChildren hp hwfu, if_pos rfl, if_pos rfl]
      exact ⟨rfl, rfl⟩
    outside := fun x hxh hx => by
      have hxc : ¬ ReflTransGen (ChildEdge t.entries) c x := hx c (by simp)
      have hxc' : x ≠ c := fun hxc' => hxc (by rw [hxc'])
      have hxl : x ∉ u.children c := fun hxl => hxc (hlifted x hxl)
      have hpx : (u.liftChildren c).parent x = u.parent x := by
        rw [parent_liftChildren hp hwfu, if_neg hxc', if_neg hxl]
      rw [(relinked_liftChildren c).entry_eq (hch x hxh hxc') hpx]
      exact hJ.outside x hxh hx }

/-- A fold over the children of `h` that extends the invariant by one child at each step
prunes under `h`. -/
theorem CullFold.foldl {f : ParseTree → Nat → ParseTree}
    (hstep : ∀ u pre c rest, t.children h = pre ++ c :: rest → CullFold t u fs h pre (c :: rest) →
      CullFold t (f u c) fs h (pre ++ [c]) rest) :
    ∀ rest pre u, t.children h = pre ++ rest → CullFold t u fs h pre rest →
      CullFold t (rest.foldl f u) fs h (t.children h) []
  | [], pre, u, hcs, hF => by
    rw [List.append_nil] at hcs
    rw [List.foldl_nil, hcs]
    exact hF
  | c :: rest, pre, u, hcs, hF => by
    rw [List.foldl_cons]
    refine CullFold.foldl hstep rest (pre ++ [c]) (f u c) ?_ (hstep u pre c rest hcs hF)
    rw [hcs, List.append_assoc]
    rfl

/-- Culling `d` levels deep prunes under `h` when no path down from `h` is longer. -/
theorem cullAt_culledUnder (fs : List Filter) : ∀ (d : Nat) {t : ParseTree} {h : Nat},
    t.WellFormed → t.Shallow d h → CulledUnder t (cullAt fs d t h) fs h
  | 0, t, h, hwf, hs => by
    have hnil : t.children h = [] := hs
    have hF : CullFold t t fs h [] (t.children h) := CullFold.init hwf
    refine CullFold.culledUnder ?_
    rw [hnil] at hF ⊢
    exact hF
  | d + 1, t, h, hwf, hs => by
    rw [cullAt]
    refine (CullFold.foldl (fun u pre c rest hcs hF => ?_) (t.children h) [] t rfl
      (CullFold.init hwf)).culledUnder
    -- Below `c` nothing has changed yet, so `c` is as shallow in `u` as it was in `t`.
    have hsc : u.Shallow d c := (hs c (mem_children_of_eq_middle hcs)).of_children_eq
      fun x hx => congrArg Entry.children (hF.entry_below hwf hcs hx)
    have hJ := hF.judging hwf hcs (cullAt_culledUnder fs d hF.wellFormed hsc)
    dsimp only
    rw [hJ.relinked.strategyFor_eq]
    cases hst : t.strategyFor fs c with
    | keep => exact hJ.keep hst
    | deleteAll => exact hJ.delete hwf hcs hst
    | liftChildren => exact hJ.lift hwf hcs hst

/-- Culling a well-formed tree under `n` prunes it there: `n` keeps its place, the child list
of `n` and of every node below it is what its old children leave by their judgements, the nodes
deleted or lifted are detached (a deleted node with what culling left under it, a lifted one
with nothing), and nothing outside the subtree of `n` changes. -/
theorem cull_prunes (hwf : t.WellFormed) (n : Nat) (fs : List Filter) :
    CulledUnder t (t.cull n fs) fs n :=
  cullAt_culledUnder fs (t.size + 1) hwf (hwf.shallow n).succ

/-- A parse of `a,b`: a row of two cells around a comma, each cell over an unnamed token. In its
tree the tokens are the nodes 0 and 3, the cells 1 and 4, the comma 2 and the row 5. -/
def rowParse : Parsed :=
  .mk 0 (some "row") 0 3
    [.mk 0 (some "cell") 0 1 [.mk 0 none 0 1 []], .mk 0 (some "comma") 1 2 [],
      .mk 0 (some "cell") 2 3 [.mk 0 none 2 3 []]]

/-- Drop the commas, and put the contents of each cell in its place. -/
def rowFilters : List Filter :=
  [⟨.named ["comma"], .deleteAll⟩, ⟨.named ["cell"], .liftChildren⟩]

/-- Culling the row leaves the two tokens under it. -/
theorem row_cull_prunes :
    (ofParsed "a,b" rowParse).WellFormed ∧
      CulledUnder (ofParsed "a,b" rowParse) ((ofParsed "a,b" rowParse).cull 5 rowFilters)
        rowFilters 5 ∧
      ((ofParsed "a,b" rowParse).cull 5 rowFilters).children 5 = [0, 3] :=
  ⟨ofParsed_wellFormed _ _, cull_prunes (ofParsed_wellFormed _ _) 5 rowFilters, by decide⟩

/-! ### Culling twice -/

/-- Culling leaves a tree alone when every node below is kept. -/
theorem cullAt_of_keep : ∀ (d : Nat) {u : ParseTree} {h : Nat},
    (∀ x, TransGen (ChildEdge u.entries) h x → u.strategyFor fs x = .keep) → cullAt fs d u h = u
  | 0, _, _, _ => rfl
  | d + 1, u, h, hkeep => by
    rw [cullAt]
    have hsub : ∀ c ∈ u.children h, cullAt fs d u c = u ∧ u.strategyFor fs c = .keep :=
      fun c hc => ⟨cullAt_of_keep d fun x hx => hkeep x (TransGen.head hc hx), hkeep c (.single hc)⟩
    -- Each child is left as it is and judged kept, so no step of the fold changes the tree.
    generalize u.children h = cs at hsub ⊢
    induction cs with
    | nil => rfl
    | cons c cs ih =>
      obtain ⟨hcull, hk⟩ := hsub c List.mem_cons_self
      rw [List.foldl_cons]
      simp only [hcull, hk]
      exact ih fun c' hc' => hsub c' (List.mem_cons_of_mem c hc')

/-- Below a node pruned under, every node was below it before and is kept. -/
theorem CulledUnder.kept_below {n : Nat} (hc : CulledUnder t u fs n) {x : Nat}
    (hx : TransGen (ChildEdge u.entries) n x) :
    TransGen (ChildEdge t.entries) n x ∧ u.strategyFor fs x = .keep := by
  induction hx with
  | @single x hnx =>
    obtain ⟨hk, c, hcn, hcx⟩ := hc.children.kept_below hnx
    exact ⟨TransGen.head' hcn hcx, (hc.relinked.strategyFor_eq fs x).trans hk⟩
  | @tail y x _ hyx ih =>
    obtain ⟨hny, hky⟩ := ih
    rw [hc.relinked.strategyFor_eq] at hky
    -- A kept node holds what its old children leave, all of them kept and from below it.
    have hsy := hc.below y hny
    simp only [Settled, hky] at hsy
    obtain ⟨hk, c, hcy, hcx⟩ := hsy.kept_below hyx
    exact ⟨hny.trans (TransGen.head' hcy hcx), (hc.relinked.strategyFor_eq fs x).trans hk⟩

/-- Culling a well-formed tree twice under one node with the same filters culls it once. -/
theorem cull_idempotent (hwf : t.WellFormed) (n : Nat) (fs : List Filter) :
    (t.cull n fs).cull n fs = t.cull n fs :=
  cullAt_of_keep _ fun _ hx =>
    ((cullAt_culledUnder fs (t.size + 1) hwf (hwf.shallow n).succ).kept_below hx).2

theorem row_cull_idempotent :
    (ofParsed "a,b" rowParse).WellFormed ∧
      ((ofParsed "a,b" rowParse).cull 5 rowFilters).cull 5 rowFilters =
        (ofParsed "a,b" rowParse).cull 5 rowFilters :=
  ⟨ofParsed_wellFormed _ _, cull_idempotent (ofParsed_wellFormed _ _) 5 rowFilters⟩

end Tokenweave.ParseTree
