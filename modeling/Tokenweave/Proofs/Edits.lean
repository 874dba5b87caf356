import Tokenweave.Proofs.WellFormed
import Tokenweave.Tree.Edit
/-!
# Edits keep trees well formed

Removing a node, lifting its children into its place, setting a value or a payload, putting
another node in its place and culling all keep a tree well formed, and so, at every point of a
run of edits, a node is attached exactly when the root reaches it (`edits_keep_wellFormed`).

Putting a node in the place of another has two conditions. The node put in place must not be
above the node it replaces, or its new parent would be one of its descendants and the parent
links would close a loop; edit scripts refuse such a step. And it must not be the root while
the node it replaces has a parent: removing the root from its parent changes nothing, since the
root has none, so the root is moved under that parent and stops being attached. That can happen
only when the node replaced lies in a detached subtree (`replaceWith_root_breaks_wellFormed`).

Each edit is a few changes of single entries. For each, the parent links and child lists after
it are stated once (`parent_remove`, `children_liftChildren`, …); the proofs that it keeps a
tree well formed only read those. Cycles are ruled out by relating each new parent link to a
chain of old ones (`acyclic_of_lift`), and for a replacement by following a path through the
one new link (`acyclic_of_relink`).
-/

set_option autoImplicit false

namespace Tokenweave.ParseTree

variable {t : ParseTree}

/-! ### Changing one entry -/

@[simp] theorem size_modifyEntry (t : ParseTree) (h : Nat) (f : Entry → Entry) :
    (t.modifyEntry h f).size = t.size :=
  Array.size_modify

@[simp] theorem root_modifyEntry (t : ParseTree) (h : Nat) (f : Entry → Entry) :
    (t.modifyEntry h f).root = t.root := rfl

theorem entry_modifyEntry {h : Nat} (hh : h < t.size) (f : Entry → Entry) (x : Nat) :
    (t.modifyEntry h f).entry x = if x = h then f (t.entry x) else t.entry x := by
  simp only [entry, modifyEntry, Array.getElem?_modify]
  by_cases hx : x = h
  · subst hx
    simp [Array.getElem?_eq_getElem hh]
  · simp [Ne.symm hx, hx]

/-- A change that keeps parent links and child lists keeps them in the tree. -/
theorem links_modifyEntry_of {h : Nat} {f : Entry → Entry}
    (hf : ∀ e, (f e).parent = e.parent ∧ (f e).children = e.children) (x : Nat) :
    (t.modifyEntry h f).parent x = t.parent x ∧ (t.modifyEntry h f).children x = t.children x := by
  simp only [parent, children, entry, modifyEntry, Array.getElem?_modify]
  split
  · cases t.entries[x]? with
    | none => exact ⟨rfl, rfl⟩
    | some e => exact hf e
  · exact ⟨rfl, rfl⟩

/-! ### What each edit does to the links -/

@[simp] theorem root_remove (h : Nat) : (t.remove h).root = t.root := by
  unfold remove
  split <;> rfl

@[simp] theorem size_remove (h : Nat) : (t.remove h).size = t.size := by
  unfold remove
  split <;> simp

theorem remove_of_parent_eq_none {h : Nat} (hp : t.parent h = none) : t.remove h = t := by
  simp [remove, hp]

section Remove

variable {h p : Nat} (hp : t.parent h = some p)
include hp

theorem remove_of_parent : t.remove h =
    (t.modifyEntry p fun e => { e with children := e.children.filter (· != h) }).modifyEntry h
      fun e => { e with parent := none } := by
  simp only [remove, hp]

variable (hpl : p < t.size)
include hpl

theorem parent_remove (x : Nat) :
    (t.remove h).parent x = if x = h then none else t.parent x := by
  have hh : h < t.size := lt_size_of_parent hp
  rw [remove_of_parent hp]
  simp only [parent, entry_modifyEntry, size_modifyEntry, hh, hpl]
  split_ifs <;> rfl

theorem children_remove (x : Nat) :
    (t.remove h).children x =
      if x = p then (t.children p).filter (· != h) else t.children x := by
  have hh : h < t.size := lt_size_of_parent hp
  rw [remove_of_parent hp]
  simp only [children, entry_modifyEntry, size_modifyEntry, hh, hpl]
  split_ifs with h₁ h₂ <;> subst_vars <;> rfl

end Remove

theorem liftChildren_of_parent_eq_none {h : Nat} (hp : t.parent h = none) :
    t.liftChildren h = t := by
  simp [liftChildren, hp]

/-- Give each of `cs` the parent `p`. -/
theorem entry_foldl_reparent (p : Nat) : ∀ (cs : List Nat) (t : ParseTree),
    (∀ c ∈ cs, c < t.size) → ∀ x,
      (cs.foldl (fun t c => t.modifyEntry c fun e => { e with parent := some p }) t).entry x =
        if x ∈ cs then { t.entry x with parent := some p } else t.entry x
  | [], t, _, x => by simp
  | c :: cs, t, hcs, x => by
    have hrest : ∀ c' ∈ cs, c' < (t.modifyEntry c fun e => { e with parent := some p }).size := by
      intro c' hc'
      rw [size_modifyEntry]
      exact hcs c' (List.mem_cons_of_mem c hc')
    rw [List.foldl_cons, entry_foldl_reparent p cs _ hrest x,
      entry_modifyEntry (hcs c List.mem_cons_self)]
    by_cases hxc : x = c <;> by_cases hxs : x ∈ cs <;> simp [hxc, hxs]

theorem size_foldl_reparent (p : Nat) : ∀ (cs : List Nat) (t : ParseTree),
    (cs.foldl (fun t c => t.modifyEntry c fun e => { e with parent := some p }) t).size = t.size
  | [], _ => rfl
  | c :: cs, t => by rw [List.foldl_cons, size_foldl_reparent p cs, size_modifyEntry]

theorem root_foldl_reparent (p : Nat) : ∀ (cs : List Nat) (t : ParseTree),
    (cs.foldl (fun t c => t.modifyEntry c fun e => { e with parent := some p }) t).root = t.root
  | [], _ => rfl
  | c :: cs, t => by rw [List.foldl_cons, root_foldl_reparent p cs, root_modifyEntry]

@[simp] theorem root_liftChildren (h : Nat) : (t.liftChildren h).root = t.root := by
  unfold liftChildren
  split
  · rfl
  · simp [root_foldl_reparent]

@[simp] theorem size_liftChildren (h : Nat) : (t.liftChildren h).size = t.size := by
  unfold liftChildren
  split
  · rfl
  · simp [size_foldl_reparent]

section LiftChildren

variable {h p : Nat} (hp : t.parent h = some p)
include hp

theorem liftChildren_of_parent : t.liftChildren h =
    (((t.children h).foldl (fun t c => t.modifyEntry c fun e => { e with parent := some p })
        (t.modifyEntry h fun e => { e with children := [] })).modifyEntry p
      fun e => { e with children := spliceAt e.children h (t.children h) }).modifyEntry h
      fun e => { e with parent := none } := by
  simp only [liftChildren, hp]

variable (hwf : t.WellFormed)
include hwf

theorem parent_liftChildren (x : Nat) :
    (t.liftChildren h).parent x =
      if x = h then none else if x ∈ t.children h then some p else t.parent x := by
  have hh : h < t.size := lt_size_of_parent hp
  have hpl : p < t.size := hwf.parent_lt_size hp
  have hph : p ≠ h := (hwf.ne_of_parent hp).symm
  have hpcs : p ∉ t.children h := fun hpc =>
    hwf.parent_ne_of_parent hp ((hwf.mem_children_iff).mp hpc)
  have hcs : ∀ c ∈ t.children h, c < (t.modifyEntry h fun e => { e with children := [] }).size :=
    fun c hc => by
      rw [size_modifyEntry]
      exact lt_size_of_parent ((hwf.mem_children_iff).mp hc)
  rw [liftChildren_of_parent hp]
  simp only [parent, entry_modifyEntry, size_modifyEntry, size_foldl_reparent,
    entry_foldl_reparent _ _ _ hcs, hh, hpl]
  by_cases hxh : x = h <;> by_cases hxc : x ∈ t.children h <;> by_cases hxp : x = p <;>
    simp_all

theorem children_liftChildren (x : Nat) :
    (t.liftChildren h).children x =
      if x = h then [] else if x = p then spliceAt (t.children p) h (t.children h)
      else t.children x := by
  have hh : h < t.size := lt_size_of_parent hp
  have hpl : p < t.size := hwf.parent_lt_size hp
  have hph : p ≠ h := (hwf.ne_of_parent hp).symm
  have hcs : ∀ c ∈ t.children h, c < (t.modifyEntry h fun e => { e with children := [] }).size :=
    fun c hc => by
      rw [size_modifyEntry]
      exact lt_size_of_parent ((hwf.mem_children_iff).mp hc)
  rw [liftChildren_of_parent hp]
  -- The lifted children are read before any change; name them so that unfolding leaves them.
  generalize t.children h = cs at hcs ⊢
  simp only [children, entry_modifyEntry, size_modifyEntry, size_foldl_reparent,
    entry_foldl_reparent _ _ _ hcs, hh, hpl]
  by_cases hxh : x = h <;> by_cases hxp : x = p <;> simp_all [apply_ite Entry.children]

end LiftChildren

theorem replaceWith_self (h : Nat) : t.replaceWith h (.node h) = t := by
  simp [replaceWith]

/-- Put `o` in the place of `h` among the children of `p`, the parent of `h`: the links a
replacement sets once `o` is out of its old place. -/
def relink (u : ParseTree) (h o p : Nat) : ParseTree :=
  ((u.modifyEntry p fun e => { e with children := spliceAt e.children h [o] }).modifyEntry o
    fun e => { e with parent := some p }).modifyEntry h fun e => { e with parent := none }

@[simp] theorem root_relink (u : ParseTree) (h o p : Nat) : (u.relink h o p).root = u.root := rfl

section Relink

variable {u : ParseTree} {h o p : Nat} (hol : o < u.size) (hp : u.parent h = some p)
  (hpl : p < u.size)
include hol hp hpl

theorem parent_relink (x : Nat) :
    (u.relink h o p).parent x = if x = h then none else if x = o then some p else u.parent x := by
  have hh : h < u.size := lt_size_of_parent hp
  simp only [relink, parent, entry_modifyEntry, size_modifyEntry, hh, hol, hpl]
  by_cases hxh : x = h <;> by_cases hxo : x = o <;> by_cases hxp : x = p <;> simp_all

theorem children_relink (x : Nat) :
    (u.relink h o p).children x = if x = p then spliceAt (u.children p) h [o] else u.children x := by
  have hh : h < u.size := lt_size_of_parent hp
  simp only [relink, children, entry_modifyEntry, size_modifyEntry, hh, hol, hpl]
  by_cases hxh : x = h <;> by_cases hxo : x = o <;> by_cases hxp : x = p <;> simp_all

end Relink

theorem replaceWith_of_parent {h o p : Nat} (hoh : o ≠ h) (hp : (t.remove o).parent h = some p) :
    t.replaceWith h (.node o) = (t.remove o).relink h o p := by
  simp [replaceWith, relink, hoh, hp]

theorem replaceWith_of_parent_eq_none {h o : Nat} (hoh : o ≠ h)
    (hp : (t.remove o).parent h = none) :
    t.replaceWith h (.node o) = { t.remove o with root := o } := by
  simp [replaceWith, hoh, hp]

/-! ### Splicing a child list -/

/-- Splicing `ys` in for an `h` of `xs` keeps the other members and adds `ys`. -/
theorem spliceAt_perm {xs ys : List Nat} {h : Nat} (hh : h ∈ xs) :
    (spliceAt xs h ys).Perm (ys ++ xs.erase h) := by
  obtain ⟨i, hi⟩ : ∃ i, xs.idxOf? h = some i :=
    Option.isSome_iff_exists.mp (List.isSome_idxOf?.mpr hh)
  simp only [spliceAt, hi, List.erase_eq_eraseIdx, List.eraseIdx_eq_take_drop_succ,
    ← List.append_assoc]
  exact List.perm_append_comm.append_right _

theorem mem_spliceAt {xs ys : List Nat} {h c : Nat} (hh : h ∈ xs) :
    c ∈ spliceAt xs h ys ↔ c ∈ ys ∨ c ∈ xs.erase h := by
  rw [(spliceAt_perm hh).mem_iff, List.mem_append]

theorem count_spliceAt {xs ys : List Nat} {h c : Nat} (hh : h ∈ xs) :
    (spliceAt xs h ys).count c = ys.count c + (xs.erase h).count c := by
  rw [(spliceAt_perm hh).count_eq, List.count_append]

/-! ### Cycles -/

/-- Parent links that each follow a chain of old ones close no cycle. -/
theorem acyclic_of_lift {t' : ParseTree}
    (hlift : ∀ a b, t'.ParentOf a b → Relation.TransGen t.ParentOf a b)
    (hacyc : ∀ x, ¬ Relation.TransGen t.ParentOf x x) :
    ∀ x, ¬ Relation.TransGen t'.ParentOf x x :=
  fun x hx => hacyc x (Relation.TransGen.closed hlift x x hx)

/-- Linking `o` under `p`, the parent of `h`, closes no cycle when every other link is an old
one and `o` was not above `h`: a cycle through the new link would lead from `p` back up to `o`
along old links. -/
theorem acyclic_of_relink {R R' : Nat → Nat → Prop} {o p h : Nat}
    (hold : ∀ a b, R' a b → a ≠ o → R a b) (hnew : ∀ b, R' o b → b = p) (hhp : R h p)
    (hho : ¬ Relation.TransGen R h o) (hacyc : ∀ x, ¬ Relation.TransGen R x x) :
    ∀ x, ¬ Relation.TransGen R' x x := by
  -- A new path is an old one, or reaches `o` along old links and leaves `p` along old links.
  have paths : ∀ a b, Relation.ReflTransGen R' a b → Relation.ReflTransGen R a b ∨
      (Relation.ReflTransGen R a o ∧ Relation.ReflTransGen R p b) := by
    intro a b hab
    induction hab with
    | refl => exact .inl .refl
    | @tail c b _ hcb ih =>
      by_cases hco : c = o
      · subst hco
        have hb := hnew b hcb
        subst hb
        rcases ih with hac | ⟨hao, -⟩
        · exact .inr ⟨hac, .refl⟩
        · exact .inr ⟨hao, .refl⟩
      · rcases ih with hac | ⟨hao, hpc⟩
        · exact .inl (hac.tail (hold c b hcb hco))
        · exact .inr ⟨hao, hpc.tail (hold c b hcb hco)⟩
  intro x hx
  obtain ⟨y, hxy, hyx⟩ := Relation.TransGen.head'_iff.mp hx
  by_cases hxo : x = o
  · subst hxo
    have hy := hnew y hxy
    subst hy
    have hpo : Relation.ReflTransGen R y x := by
      rcases paths y x hyx with hpo | ⟨hpo, -⟩ <;> exact hpo
    exact hho (Relation.TransGen.head' hhp hpo)
  · have hxy' := hold x y hxy hxo
    rcases paths y x hyx with hyx' | ⟨hyo, hpx⟩
    · exact hacyc x (Relation.TransGen.head' hxy' hyx')
    · exact hho (Relation.TransGen.head' hhp (hpx.trans (Relation.ReflTransGen.head hxy' hyo)))

/-! ### Each edit keeps a tree well formed -/

namespace WellFormed

variable (hwf : t.WellFormed)
include hwf

theorem remove (h : Nat) : (t.remove h).WellFormed := by
  cases hp : t.parent h with
  | none => rwa [remove_of_parent_eq_none hp]
  | some p =>
    have hpl := hwf.parent_lt_size hp
    have hpar := parent_remove hp hpl
    have hch := children_remove hp hpl
    refine ⟨fun x c hc => ?_, fun c y hy => ?_, acyclic_of_lift (fun a b hab => .single ?_)
      hwf.acyclic, ?_⟩
    · -- `h` leaves the children of `p`; every other child keeps its parent.
      rw [hch] at hc
      rw [hpar]
      by_cases hxp : x = p
      · subst hxp
        rw [if_pos rfl, List.mem_filter, bne_iff_ne] at hc
        rw [if_neg hc.2]
        exact hwf.parent_of_mem _ _ hc.1
      · rw [if_neg hxp] at hc
        have hcx := hwf.parent_of_mem _ _ hc
        rw [if_neg (ne_of_parent_ne hcx hp hxp)]
        exact hcx
    · rw [hpar] at hy
      split_ifs at hy with hch'
      rw [hch]
      split_ifs with hyp
      · subst hyp
        rw [List.count_filter (by simpa using hch')]
        exact hwf.count_of_parent c _ hy
      · exact hwf.count_of_parent c y hy
    · rw [ParentOf, hpar] at hab
      split_ifs at hab
      exact hab
    · rw [hpar, root_remove]
      split_ifs
      · rfl
      · exact hwf.root_parent

theorem liftChildren (h : Nat) : (t.liftChildren h).WellFormed := by
  cases hp : t.parent h with
  | none => rwa [liftChildren_of_parent_eq_none hp]
  | some p =>
    have hpar := parent_liftChildren hp hwf
    have hch := children_liftChildren hp hwf
    have hph : p ≠ h := (hwf.ne_of_parent hp).symm
    have hhp : h ∈ t.children p := (hwf.mem_children_iff).mpr hp
    have hcs : ∀ c, c ∈ t.children h ↔ t.parent c = some h := fun c => hwf.mem_children_iff
    refine ⟨fun x c hc => ?_, fun c y hy => ?_, acyclic_of_lift (fun a b hab => ?_) hwf.acyclic,
      ?_⟩
    · -- The children of `h` now sit under `p`; every other child keeps its parent.
      rw [hch] at hc
      rw [hpar]
      by_cases hxh : x = h
      · rw [if_pos hxh] at hc
        exact absurd hc List.not_mem_nil
      rw [if_neg hxh] at hc
      by_cases hxp : x = p
      · subst hxp
        rw [if_pos rfl, mem_spliceAt hhp] at hc
        rcases hc with hc | hc
        · have hch' : c ≠ h := fun hch' => hwf.ne_of_parent ((hcs c).mp hc) hch'
          rw [if_neg hch', if_pos hc]
        · rw [(hwf.nodup_children x).mem_erase_iff] at hc
          have hcx := hwf.parent_of_mem _ _ hc.2
          rw [if_neg hc.1, if_neg (hwf.not_mem_children_of_parent hcx hph)]
          exact hcx
      · rw [if_neg hxp] at hc
        have hcx := hwf.parent_of_mem _ _ hc
        rw [if_neg (ne_of_parent_ne hcx hp hxp), if_neg (hwf.not_mem_children_of_parent hcx hxh)]
        exact hcx
    · rw [hpar] at hy
      by_cases hch' : c = h
      · rw [if_pos hch'] at hy
        cases hy
      rw [if_neg hch'] at hy
      rw [hch]
      by_cases hcn : c ∈ t.children h
      · -- A lifted child occurs once among the children of `h` and not among those of `p`.
        rw [if_pos hcn] at hy
        cases hy
        rw [if_neg hph, if_pos rfl, count_spliceAt hhp]
        have hone := hwf.count_of_parent c h ((hcs c).mp hcn)
        have hnot : c ∉ (t.children p).erase h := fun hm =>
          hwf.not_mem_children_of_parent ((hcs c).mp hcn) (Ne.symm hph) (List.mem_of_mem_erase hm)
        rw [List.count_eq_zero_of_not_mem hnot, hone]
      · rw [if_neg hcn] at hy
        have hyh : y ≠ h := fun hyh => hcn ((hcs c).mpr (hyh ▸ hy))
        rw [if_neg hyh]
        by_cases hyp : y = p
        · subst hyp
          rw [if_pos rfl, count_spliceAt hhp, List.count_eq_zero_of_not_mem hcn,
            List.count_erase_of_ne hch', hwf.count_of_parent c _ hy]
        · rw [if_neg hyp]
          exact hwf.count_of_parent c y hy
    · -- A lifted child's new parent is its grandparent.
      rw [ParentOf, hpar] at hab
      by_cases hah : a = h
      · rw [if_pos hah] at hab
        cases hab
      rw [if_neg hah] at hab
      by_cases hac : a ∈ t.children h
      · rw [if_pos hac] at hab
        cases hab
        exact .tail (.single ((hcs a).mp hac)) hp
      · rw [if_neg hac] at hab
        exact .single hab
    · have hrh : t.root ≠ h := (ne_of_parent_eq_none hp hwf.root_parent).symm
      have hrc : t.root ∉ t.children h := fun hrc => by
        rw [hcs, hwf.root_parent] at hrc
        cases hrc
      rw [hpar, root_liftChildren, if_neg hrh, if_neg hrc]
      exact hwf.root_parent

/-- Removing a node leaves it without a parent. -/
theorem parent_remove_self (o : Nat) : (t.remove o).parent o = none := by
  cases hp : t.parent o with
  | none => rwa [remove_of_parent_eq_none hp]
  | some q => rw [parent_remove hp (hwf.parent_lt_size hp), if_pos rfl]

/-- Removing a node changes no other node's parent. -/
theorem parent_remove_of_ne {o x : Nat} (hx : x ≠ o) : (t.remove o).parent x = t.parent x := by
  cases hp : t.parent o with
  | none => rw [remove_of_parent_eq_none hp]
  | some q => rw [parent_remove hp (hwf.parent_lt_size hp), if_neg hx]

theorem parentOf_remove {o a b : Nat} (hab : (t.remove o).ParentOf a b) : t.ParentOf a b := by
  by_cases hao : a = o
  · subst hao
    rw [ParentOf, hwf.parent_remove_self] at hab
    cases hab
  · rwa [ParentOf, hwf.parent_remove_of_ne hao] at hab

/-- Putting `o` in the place of `h` keeps a tree well formed when `o` is a node of the tree, is
not above `h`, and is not the root unless `h` has no parent. -/
theorem replaceWith_node {h o : Nat} (hol : o < t.size)
    (hanc : ¬ Relation.TransGen t.ParentOf h o) (hroot : o = t.root → t.parent h = none) :
    (t.replaceWith h (.node o)).WellFormed := by
  by_cases hoh : o = h
  · subst hoh
    rwa [replaceWith_self]
  have hwf₁ := hwf.remove o
  have hpo : (t.remove o).parent o = none := hwf.parent_remove_self o
  have hph : (t.remove o).parent h = t.parent h := hwf.parent_remove_of_ne (Ne.symm hoh)
  cases hp : (t.remove o).parent h with
  | none =>
    rw [replaceWith_of_parent_eq_none hoh hp]
    exact ⟨hwf₁.parent_of_mem, hwf₁.count_of_parent, hwf₁.acyclic, hpo⟩
  | some p =>
    have hpl := hwf₁.parent_lt_size hp
    have hol₁ : o < (t.remove o).size := by rwa [size_remove]
    have hpt : t.parent h = some p := hph ▸ hp
    rw [replaceWith_of_parent hoh hp]
    have hpar := parent_relink hol₁ hp hpl
    have hch := children_relink hol₁ hp hpl
    have hhp : h ∈ (t.remove o).children p := (hwf₁.mem_children_iff).mpr hp
    have hon : o ∉ (t.remove o).children p := fun hm => by
      rw [hwf₁.mem_children_iff, hpo] at hm
      cases hm
    refine ⟨fun x c hc => ?_, fun c y hy => ?_, ?_, ?_⟩
    · -- `o` takes the place of `h` among the children of `p`.
      rw [hch] at hc
      rw [hpar]
      by_cases hxp : x = p
      · subst hxp
        rw [if_pos rfl, mem_spliceAt hhp, List.mem_singleton] at hc
        rcases hc with rfl | hc
        · rw [if_neg hoh, if_pos rfl]
        · rw [(hwf₁.nodup_children x).mem_erase_iff] at hc
          have hcx := hwf₁.parent_of_mem _ _ hc.2
          rw [if_neg hc.1, if_neg (ne_of_parent_eq_none hcx hpo)]
          exact hcx
      · rw [if_neg hxp] at hc
        have hcx := hwf₁.parent_of_mem _ _ hc
        rw [if_neg (ne_of_parent_ne hcx hp hxp), if_neg (ne_of_parent_eq_none hcx hpo)]
        exact hcx
    · rw [hpar] at hy
      by_cases hch' : c = h
      · rw [if_pos hch'] at hy
        cases hy
      rw [if_neg hch'] at hy
      rw [hch]
      by_cases hco : c = o
      · rw [if_pos hco] at hy
        cases hy
        subst hco
        rw [if_pos rfl, count_spliceAt hhp, List.count_singleton_self,
          List.count_eq_zero_of_not_mem (fun hm => hon (List.mem_of_mem_erase hm))]
      · rw [if_neg hco] at hy
        by_cases hyp : y = p
        · subst hyp
          rw [if_pos rfl, count_spliceAt hhp, List.count_singleton, List.count_erase_of_ne hch',
            hwf₁.count_of_parent c _ hy]
          simp [Ne.symm hco]
        · rw [if_neg hyp]
          exact hwf₁.count_of_parent c y hy
    · -- A cycle would run through the new link from `o` to `p`, so `o` would be above `h`.
      refine @acyclic_of_relink (t.remove o).ParentOf _ o p h (fun a b hab hao => ?_)
        (fun b hb => ?_) hp (fun hT => hanc (Relation.TransGen.mono (fun a b => hwf.parentOf_remove)
          h o hT)) hwf₁.acyclic
      · rw [ParentOf, hpar] at hab
        by_cases hah : a = h
        · rw [if_pos hah] at hab
          cases hab
        rwa [if_neg hah, if_neg hao] at hab
      · rw [ParentOf, hpar, if_neg hoh, if_pos rfl] at hb
        exact (Option.some.inj hb).symm
    · have hro : t.root ≠ o := fun hro => by
        rw [hroot hro.symm] at hpt
        cases hpt
      rw [hpar, root_relink, root_remove]
      by_cases hrh : t.root = h
      · rw [if_pos hrh]
      · rw [if_neg hrh, if_neg hro, ← root_remove o]
        exact hwf₁.root_parent

/-- A change that keeps every parent link, child list and the root keeps a tree well formed. -/
theorem of_links {t' : ParseTree}
    (hl : ∀ x, t'.parent x = t.parent x ∧ t'.children x = t.children x) (hr : t'.root = t.root) :
    t'.WellFormed where
  parent_of_mem x c hc := by
    rw [(hl c).1]
    exact hwf.parent_of_mem x c ((hl x).2 ▸ hc)
  count_of_parent c y hy := by
    rw [(hl y).2]
    exact hwf.count_of_parent c y ((hl c).1 ▸ hy)
  acyclic := acyclic_of_lift (fun a b hab => .single (by
    show t.parent a = some b
    rw [← (hl a).1]
    exact hab)) hwf.acyclic
  root_parent := by rw [hr, (hl t.root).1, hwf.root_parent]

theorem setValue (h : Nat) (v : String) : (t.setValue h v).WellFormed :=
  hwf.of_links (links_modifyEntry_of fun _ => ⟨rfl, rfl⟩) rfl

theorem setPayload (h : Nat) (id : NodeId) : (t.replaceWith h (.payload id)).WellFormed :=
  hwf.of_links (links_modifyEntry_of fun _ => ⟨rfl, rfl⟩) rfl

end WellFormed

/-- Culling keeps a tree well formed: each node judged is kept, removed or has its children
lifted, each time in a well-formed tree. -/
theorem WellFormed.cullAt (filters : List Filter) :
    ∀ (depth : Nat) {t : ParseTree} (h : Nat), t.WellFormed →
      (ParseTree.cullAt filters depth t h).WellFormed
  | 0, _, _, hwf => hwf
  | depth + 1, t, h, hwf => by
    rw [ParseTree.cullAt]
    -- The children judged are those `h` had at the start; the fold keeps the tree well formed.
    generalize t.children h = cs
    induction cs generalizing t with
    | nil => exact hwf
    | cons c cs ih =>
      rw [List.foldl_cons]
      apply ih
      have hcull := WellFormed.cullAt filters depth c hwf
      dsimp only
      split
      · exact hcull
      · exact hcull.remove c
      · exact hcull.liftChildren c

theorem WellFormed.cull (hwf : t.WellFormed) (h : Nat) (filters : List Filter) :
    (t.cull h filters).WellFormed :=
  WellFormed.cullAt filters _ h hwf

/-! ### Runs of edits -/

/-- One edit of a tree: a node removed, its children lifted into its place, a value or a payload
set, the nodes under it culled, or another node of the tree put in its place: one that is not
above it, and is not the root unless the node replaced has no parent. -/
inductive Edit : ParseTree → ParseTree → Prop
  | remove (t : ParseTree) (h : Nat) : Edit t (t.remove h)
  | liftChildren (t : ParseTree) (h : Nat) : Edit t (t.liftChildren h)
  | setValue (t : ParseTree) (h : Nat) (v : String) : Edit t (t.setValue h v)
  | setPayload (t : ParseTree) (h : Nat) (id : NodeId) : Edit t (t.replaceWith h (.payload id))
  | replace (t : ParseTree) (h o : Nat) : o < t.size → ¬ Relation.TransGen t.ParentOf h o →
      (o = t.root → t.parent h = none) → Edit t (t.replaceWith h (.node o))
  | cull (t : ParseTree) (h : Nat) (filters : List Filter) : Edit t (t.cull h filters)

theorem WellFormed.edit {t' : ParseTree} (hwf : t.WellFormed) : Edit t t' → t'.WellFormed
  | .remove _ h => hwf.remove h
  | .liftChildren _ h => hwf.liftChildren h
  | .setValue _ h v => hwf.setValue h v
  | .setPayload _ h id => hwf.setPayload h id
  | .replace _ _ _ hol hanc hroot => hwf.replaceWith_node hol hanc hroot
  | .cull _ h filters => hwf.cull h filters

/-- Every run of edits from a well-formed tree keeps it well formed, and at every point a node
is attached exactly when the root reaches it by child edges. -/
theorem edits_keep_wellFormed {t t' : ParseTree} (hwf : t.WellFormed)
    (hrun : Relation.ReflTransGen Edit t t') :
    t'.WellFormed ∧
      ∀ x, t'.isAttached x = true ↔ Relation.ReflTransGen (ChildEdge t'.entries) t'.root x := by
  have hwf' : t'.WellFormed := by
    induction hrun with
    | refl => exact hwf
    | tail _ hstep ih => exact ih.edit hstep
  exact ⟨hwf', hwf'.isAttached_iff⟩

/-- A parse of `ab`: the root `r` over `a`, which holds `b` and `c`. In its tree `b`, `c`, `a`
and `r` are the nodes 0 to 3. -/
def abParse : Parsed :=
  .mk 0 (some "r") 0 2 [.mk 0 (some "a") 0 2 [.mk 0 (some "b") 0 1 [], .mk 0 (some "c") 1 2 []]]

/-- The statement on the tree of `ab`: `a` has its children lifted under the root, and then the
root is replaced by `b`, which becomes the root. -/
theorem ab_lift_then_replace_root :
    (ofParsed "ab" abParse).WellFormed ∧
      Relation.ReflTransGen Edit (ofParsed "ab" abParse)
        (((ofParsed "ab" abParse).liftChildren 2).replaceWith 3 (.node 0)) ∧
      ((((ofParsed "ab" abParse).liftChildren 2).replaceWith 3 (.node 0)).WellFormed ∧
        ∀ x, (((ofParsed "ab" abParse).liftChildren 2).replaceWith 3 (.node 0)).isAttached x = true ↔
          Relation.ReflTransGen
            (ChildEdge (((ofParsed "ab" abParse).liftChildren 2).replaceWith 3 (.node 0)).entries)
            (((ofParsed "ab" abParse).liftChildren 2).replaceWith 3 (.node 0)).root x) := by
  have hwf := ofParsed_wellFormed "ab" abParse
  have hrun : Relation.ReflTransGen Edit (ofParsed "ab" abParse)
      (((ofParsed "ab" abParse).liftChildren 2).replaceWith 3 (.node 0)) :=
    .tail (.single (.liftChildren _ 2))
      (.replace _ 3 0 (by decide) (not_transGen_of_parent_eq_none (by decide)) (by decide))
  exact ⟨hwf, hrun, edits_keep_wellFormed hwf hrun⟩

/-- The tree of `ab` with `a` detached: `b` and `c` still hang under `a`. -/
def abDetached : ParseTree := (ofParsed "ab" abParse).remove 2

/-- Putting the root in the place of `b`, which lies in the detached subtree under `a`, moves
the root under `a`: the tree is no longer well formed, and its root is not attached. -/
theorem replaceWith_root_breaks_wellFormed :
    abDetached.WellFormed ∧ abDetached.root < abDetached.size ∧
      ¬ Relation.TransGen abDetached.ParentOf 0 abDetached.root ∧
      (abDetached.replaceWith 0 (.node abDetached.root)).parent abDetached.root = some 2 ∧
      ¬ (abDetached.replaceWith 0 (.node abDetached.root)).WellFormed ∧
      (abDetached.replaceWith 0 (.node abDetached.root)).isAttached abDetached.root = false := by
  have hroot : (abDetached.replaceWith 0 (.node abDetached.root)).parent abDetached.root = some 2 := by
    decide
  refine ⟨(ofParsed_wellFormed "ab" abParse).remove 2, by decide, fun hT => ?_, hroot,
    fun hwf => ?_, by decide⟩
  · -- Above `b` there is only `a`, which is detached.
    obtain ⟨b, hb, hbr⟩ := Relation.TransGen.head'_iff.mp hT
    have h02 : abDetached.parent 0 = some 2 := by decide
    have hb2 : b = 2 := Option.some.inj (hb.symm.trans h02)
    subst hb2
    rcases hbr.cases_head with h23 | ⟨c, hc, -⟩
    · exact absurd h23 (by decide)
    · have h2 : abDetached.parent 2 = none := by decide
      rw [ParentOf, h2] at hc
      cases hc
  · have hsame : (abDetached.replaceWith 0 (.node abDetached.root)).root = abDetached.root := by
      decide
    have := hwf.root_parent
    rw [hsame, hroot] at this
    cases this

end Tokenweave.ParseTree
