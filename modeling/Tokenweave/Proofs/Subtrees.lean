import Tokenweave.Proofs.Edits
/-!
# Subtrees of well-formed trees

The facts about the nodes below a node of a well-formed tree that culling relies on.

* Child edges are parent links read backwards (`WellFormed.reflTransGen_childEdge_iff`), so
  going down never comes back (`WellFormed.not_transGen_childEdge_self`), a node is not below
  its own children (`WellFormed.not_below_child`), and the subtrees of two different children of
  one node share no node (`WellFormed.disjoint_of_siblings`): walking up from a node meets only
  one of them, since each node has one parent.
* `Shallow t d h` says that no path down from `h` has more than `d` child edges, which is what
  a recursion `d` levels deep needs to reach every node below `h`. In a well-formed tree every
  node is shallow for the size of the tree (`WellFormed.shallow`): a longer path down would be
  a walk up that has not reached the top after `size` steps.
* `Relinked t u` says that `u` is `t` with only parent links and child lists changed; every
  structural edit relinks (`relinked_remove`, `relinked_liftChildren`), so names, spans,
  values and payloads survive every edit, and with them the judgement of every filter
  (`Relinked.strategyFor_eq`).
-/

set_option autoImplicit false

namespace Tokenweave.ParseTree

open Relation

variable {t u v : ParseTree}

/-! ### Paths down a well-formed tree -/

namespace WellFormed

variable (hwf : t.WellFormed)
include hwf

/-- Going down child edges is going up parent links backwards. -/
theorem reflTransGen_childEdge_iff {x y : Nat} :
    ReflTransGen (ChildEdge t.entries) x y ↔ ReflTransGen t.ParentOf y x := by
  rw [← reflTransGen_swap]
  constructor
  · exact ReflTransGen.mono (fun a b hab => (hwf.mem_children_iff).mp hab) _ _
  · exact ReflTransGen.mono (fun a b hab => (hwf.mem_children_iff).mpr hab) _ _

theorem not_transGen_childEdge_self (x : Nat) : ¬ TransGen (ChildEdge t.entries) x x := by
  intro hx
  have hup : TransGen (Function.swap t.ParentOf) x x :=
    TransGen.mono (fun _ _ hab => (hwf.mem_children_iff).mp hab) x x hx
  exact hwf.acyclic x (transGen_swap.mp hup)

/-- A node is not below its own children. -/
theorem not_below_child {h c : Nat} (hc : c ∈ t.children h) :
    ¬ ReflTransGen (ChildEdge t.entries) c h :=
  fun hch => hwf.not_transGen_childEdge_self h (TransGen.head' hc hch)

/-- A node below a child of `h` is not `h`. -/
theorem ne_of_below_child {h c x : Nat} (hc : c ∈ t.children h)
    (hx : ReflTransGen (ChildEdge t.entries) c x) : x ≠ h := by
  rintro rfl
  exact hwf.not_below_child hc hx

/-- A node below `c` by at least one edge is not `c`. -/
theorem ne_of_transGen {c x : Nat} (hx : TransGen (ChildEdge t.entries) c x) : x ≠ c := by
  rintro rfl
  exact hwf.not_transGen_childEdge_self x hx

/-- Of two different nodes with one parent, neither is above the other. -/
theorem not_parentOf_path_of_siblings {h c c' : Nat} (hc : t.parent c = some h)
    (hc' : t.parent c' = some h) (hne : c ≠ c') : ¬ ReflTransGen t.ParentOf c c' := by
  intro hpath
  rcases hpath.cases_head with rfl | ⟨d, hcd, hdc'⟩
  · exact hne rfl
  · -- The walk up from `c` goes through `h`, and from `h` on to `c'`, which lies below `h`.
    have hd : d = h := Option.some.inj (hcd.symm.trans hc)
    subst hd
    exact hwf.acyclic c' (TransGen.head' hc' hdc')

/-- The subtrees of two different children of one node share no node. -/
theorem disjoint_of_siblings {h c c' x : Nat} (hc : c ∈ t.children h) (hc' : c' ∈ t.children h)
    (hne : c ≠ c') (hx : ReflTransGen (ChildEdge t.entries) c x) :
    ¬ ReflTransGen (ChildEdge t.entries) c' x := by
  intro hx'
  have hunique : Relator.RightUnique t.ParentOf := fun a b b' hab hab' =>
    Option.some.inj (hab.symm.trans hab')
  have hup := (hwf.reflTransGen_childEdge_iff).mp hx
  have hup' := (hwf.reflTransGen_childEdge_iff).mp hx'
  have hpc := (hwf.mem_children_iff).mp hc
  have hpc' := (hwf.mem_children_iff).mp hc'
  rcases ReflTransGen.total_of_right_unique hunique hup hup' with hcc' | hc'c
  · exact hwf.not_parentOf_path_of_siblings hpc hpc' hne hcc'
  · exact hwf.not_parentOf_path_of_siblings hpc' hpc (Ne.symm hne) hc'c

end WellFormed

/-- Where the child lists of `u` agree with those of `t` below `h`, a node below `h` in `u` is
below `h` in `t`, and a node strictly below `h` in `t` is strictly below it in `u`. -/
theorem reflTransGen_childEdge_of_children_eq {h x : Nat}
    (heq : ∀ y, ReflTransGen (ChildEdge t.entries) h y → u.children y = t.children y)
    (hx : ReflTransGen (ChildEdge u.entries) h x) : ReflTransGen (ChildEdge t.entries) h x := by
  induction hx with
  | refl => exact .refl
  | @tail y z _ hyz ih =>
    have hyz' : z ∈ t.children y := by
      rw [← heq y ih]
      exact hyz
    exact ih.tail hyz'

theorem transGen_childEdge_of_children_eq {h x : Nat}
    (heq : ∀ y, ReflTransGen (ChildEdge t.entries) h y → u.children y = t.children y)
    (hx : TransGen (ChildEdge t.entries) h x) : TransGen (ChildEdge u.entries) h x := by
  induction hx with
  | @single z hhx =>
    have hhx' : z ∈ u.children h := by
      rw [heq h .refl]
      exact hhx
    exact .single hhx'
  | @tail y z hy hyz ih =>
    have hyz' : z ∈ u.children y := by
      rw [heq y hy.to_reflTransGen]
      exact hyz
    exact ih.tail hyz'

/-! ### Depth -/

/-- No path down from `h` has more than `d` child edges. -/
def Shallow (t : ParseTree) : Nat → Nat → Prop
  | 0, h => t.children h = []
  | d + 1, h => ∀ c ∈ t.children h, t.Shallow d c

theorem Shallow.of_children_eq : ∀ {d h : Nat}, t.Shallow d h →
    (∀ x, ReflTransGen (ChildEdge t.entries) h x → u.children x = t.children x) → u.Shallow d h
  | 0, h, hs, heq => by
    show u.children h = []
    rw [heq h .refl]
    exact hs
  | d + 1, h, hs, heq => fun c hc => by
    rw [heq h .refl] at hc
    exact Shallow.of_children_eq (hs c hc) fun x hx => heq x (ReflTransGen.head hc hx)

/-- If some path down from `h` has more than `d` child edges, then from the far end of it a walk
of `d` steps up ends at a child of `h`. -/
theorem exists_top_of_not_shallow (hwf : t.WellFormed) :
    ∀ (d h : Nat), ¬ t.Shallow d h → ∃ x, t.parent (t.top x d) = some h
  | 0, h, hs => by
    obtain ⟨c, hc⟩ := List.exists_mem_of_ne_nil _ hs
    exact ⟨c, (hwf.mem_children_iff).mp hc⟩
  | d + 1, h, hs => by
    simp only [Shallow, not_forall] at hs
    obtain ⟨c, hc, hcs⟩ := hs
    obtain ⟨x, hx⟩ := exists_top_of_not_shallow hwf d c hcs
    refine ⟨x, ?_⟩
    rw [top_succ, hx, Option.getD_some]
    exact (hwf.mem_children_iff).mp hc

/-- In a well-formed tree no path down has more edges than the tree has nodes. -/
theorem WellFormed.shallow (hwf : t.WellFormed) (h : Nat) : t.Shallow t.size h := by
  by_contra hs
  obtain ⟨x, hx⟩ := exists_top_of_not_shallow hwf t.size h hs
  rw [hwf.parent_top_size x] at hx
  cases hx

theorem Shallow.succ : ∀ {d h : Nat}, t.Shallow d h → t.Shallow (d + 1) h
  | 0, h, hs => fun c hc => by
    rw [show t.children h = [] from hs] at hc
    exact absurd hc List.not_mem_nil
  | _ + 1, _, hs => fun c hc => Shallow.succ (hs c hc)

/-! ### Edits change only links -/

/-- `u` is `t` with only parent links and child lists changed. -/
def Relinked (t u : ParseTree) : Prop :=
  ∀ x, u.entry x = { t.entry x with children := u.children x, parent := u.parent x }

theorem Relinked.refl (t : ParseTree) : Relinked t t := fun _ => rfl

theorem Relinked.trans (htu : Relinked t u) (huv : Relinked u v) : Relinked t v := by
  intro x
  rw [huv x, htu x]

/-- A node whose links are the same in a tree relinked from `t` is the node of `t`. -/
theorem Relinked.entry_eq (hr : Relinked t u) {x : Nat} (hc : u.children x = t.children x)
    (hp : u.parent x = t.parent x) : u.entry x = t.entry x := by
  rw [hr x, hc, hp]
  rfl

theorem Relinked.name_eq (hr : Relinked t u) (x : Nat) : u.name x = t.name x := by
  simp only [name, hr x]

/-- Filters judge a node alike before and after edits. -/
theorem Relinked.strategyFor_eq (hr : Relinked t u) (fs : List Filter) (x : Nat) :
    u.strategyFor fs x = t.strategyFor fs x := by
  have hpicks : ∀ p, u.picks x p = t.picks x p := by
    intro p
    cases p <;> simp only [picks, hr.name_eq, hr x]
  simp only [strategyFor, hpicks]

/-- Changing the links of one node relinks. -/
theorem relinked_modifyEntry {h : Nat} {f : Entry → Entry}
    (hf : ∀ e, f e = { e with children := (f e).children, parent := (f e).parent }) :
    Relinked t (t.modifyEntry h f) := by
  intro x
  simp only [children, parent, entry, modifyEntry, Array.getElem?_modify]
  split
  · cases t.entries[x]? with
    | none => rfl
    | some e => exact hf e
  · rfl

theorem relinked_remove (h : Nat) : Relinked t (t.remove h) := by
  cases hp : t.parent h with
  | none => rw [remove_of_parent_eq_none hp]; exact Relinked.refl t
  | some p =>
    rw [remove_of_parent hp]
    exact (relinked_modifyEntry fun _ => rfl).trans (relinked_modifyEntry fun _ => rfl)

theorem relinked_foldl_reparent (p : Nat) : ∀ (cs : List Nat) (t : ParseTree),
    Relinked t (cs.foldl (fun t c => t.modifyEntry c fun e => { e with parent := some p }) t)
  | [], t => Relinked.refl t
  | c :: cs, t => by
    rw [List.foldl_cons]
    exact (relinked_modifyEntry fun _ => rfl).trans (relinked_foldl_reparent p cs _)

theorem relinked_liftChildren (h : Nat) : Relinked t (t.liftChildren h) := by
  cases hp : t.parent h with
  | none => rw [liftChildren_of_parent_eq_none hp]; exact Relinked.refl t
  | some p =>
    rw [liftChildren_of_parent hp]
    exact (((relinked_modifyEntry fun _ => rfl).trans (relinked_foldl_reparent p _ _)).trans
      (relinked_modifyEntry fun _ => rfl)).trans (relinked_modifyEntry fun _ => rfl)

end Tokenweave.ParseTree
