import Tokenweave.Proofs.Cull
import Tokenweave.Proofs.Tiling
/-!
# Walks over well-formed trees

The queries of `Tree/Query.lean` walk a subtree with a stack and fuel. In a well-formed tree
whose children come before their parents in the array (`Ordered`) they list what their names
promise. Trees of parses are ordered, and every edit keeps it so, because no edit makes a path
that was not there before (`Shrinks`: liftChildren puts grandchildren where their parent was,
and culling keeps only nodes from below).

* `descendants t h .leafFirst` is the post-order of the subtrees under `h` (`PostOrder`,
  `descendants_leafFirst`): every node under `h` once, each after every node under it;
* `childByName` finds a child of that name when there is one, `splitChildren` groups children
  that are no delimiters, and `leaves` of a node with a single child reads the leaves one or two
  levels down.
-/

set_option autoImplicit false

namespace Tokenweave.ParseTree

open Relation

variable {t t' t'' : ParseTree}

theorem childEdge_iff {y c : Handle} : ChildEdge t.entries y c ↔ c ∈ t.children y := Iff.rfl

/-- A node the root of a well-formed tree reaches through a child of `h` lies in the tree. -/
theorem WellFormed.lt_size_of_below (hwf : t.WellFormed) {h c y : Handle}
    (hc : c ∈ t.children h) (hy : ReflTransGen (ChildEdge t.entries) c y) : y < t.size := by
  induction hy with
  | refl => exact lt_size_of_parent (hwf.parent_of_mem h c hc)
  | tail _ hzy => exact lt_size_of_parent (hwf.parent_of_mem _ _ hzy)

/-- A list of distinct nodes of a tree is no longer than the tree. -/
theorem length_le_size_of_nodup {L : List Handle} (hnd : L.Nodup) (hlt : ∀ y ∈ L, y < t.size) :
    L.length ≤ t.size := by
  have hsub : L ⊆ List.range t.size := fun y hy => List.mem_range.mpr (hlt y hy)
  simpa using (hnd.subperm hsub).length_le

/-! ### Children before parents, and edits that make no new path -/

/-- Every child has a smaller handle than its parent, as in the tree of a parse. -/
def Ordered (t : ParseTree) : Prop := ∀ x c, c ∈ t.children x → c < x

theorem Ordered.lt_of_transGen (ho : t.Ordered) {x y : Handle}
    (h : TransGen (ChildEdge t.entries) x y) : y < x := by
  induction h with
  | single hxy => exact ho _ _ hxy
  | tail _ hyz ih => exact Nat.lt_trans (ho _ _ hyz) ih

theorem ordered_ofParsed (s : String) (q : Parsed) : (ofParsed s q).Ordered :=
  fun x c hc => ofParsed_lt_of_parent ((ofParsed_parent_eq_some_iff x c).mpr hc)

/-- Every child edge of `t'` is a path of `t`: `t'` detaches nodes of `t`, or puts nodes in the
place of their ancestors, and makes no path that `t` did not have. -/
def Shrinks (t t' : ParseTree) : Prop :=
  ∀ a b, ChildEdge t'.entries a b → TransGen (ChildEdge t.entries) a b

theorem Shrinks.refl (t : ParseTree) : Shrinks t t := fun _ _ h => .single h

theorem Shrinks.transGen (hs : Shrinks t t') {a b : Handle}
    (h : TransGen (ChildEdge t'.entries) a b) : TransGen (ChildEdge t.entries) a b := by
  induction h with
  | single hab => exact hs _ _ hab
  | tail _ hbc ih => exact ih.trans (hs _ _ hbc)

theorem Shrinks.reflTransGen (hs : Shrinks t t') {a b : Handle}
    (h : ReflTransGen (ChildEdge t'.entries) a b) : ReflTransGen (ChildEdge t.entries) a b := by
  rcases reflTransGen_iff_eq_or_transGen.mp h with rfl | h
  · exact .refl
  · exact (hs.transGen h).to_reflTransGen

theorem Shrinks.trans (h₁ : Shrinks t t') (h₂ : Shrinks t' t'') : Shrinks t t'' :=
  fun _ _ hab => h₁.transGen (h₂ _ _ hab)

theorem Shrinks.ordered (hs : Shrinks t t') (ho : t.Ordered) : t'.Ordered :=
  fun x c hc => ho.lt_of_transGen (hs x c hc)

theorem shrinks_of_children (h : ∀ x, t'.children x = t.children x) : Shrinks t t' :=
  fun a b hab => .single (by rw [childEdge_iff, ← h]; exact hab)

theorem shrinks_liftChildren (hwf : t.WellFormed) (h : Handle) : Shrinks t (t.liftChildren h) := by
  intro a b hab
  rw [childEdge_iff] at hab
  cases hp : t.parent h with
  | none =>
    rw [liftChildren_of_parent_eq_none hp] at hab
    exact .single hab
  | some p =>
    rw [children_liftChildren hp hwf] at hab
    split_ifs at hab with hah hap
    · cases hab
    · -- The parent now holds the children of `h` in its place.
      subst hap
      have hh : h ∈ t.children a := (hwf.mem_children_iff).mpr hp
      rcases (mem_spliceAt hh).mp hab with hb | hb
      · exact .tail (.single hh) hb
      · exact .single (List.mem_of_mem_erase hb)
    · exact .single hab

theorem shrinks_cull (hwf : t.WellFormed) (n : Handle) (fs : List Filter) :
    Shrinks t (t.cull n fs) := by
  have hc := cull_prunes hwf n fs
  intro a b hab
  rw [childEdge_iff] at hab
  by_cases hna : ReflTransGen (ChildEdge t.entries) n a
  · -- Under `n`, a node holds what its old children left, or nothing once lifted.
    have hheld : Culled t fs (t.children a) ((t.cull n fs).children a) ∨
        (t.cull n fs).children a = [] := by
      rcases reflTransGen_iff_eq_or_transGen.mp hna with rfl | hbelow
      · exact .inl hc.children
      · have hs := hc.below a hbelow
        unfold Settled at hs
        split at hs
        · exact .inl hs
        · exact .inl hs.1
        · exact .inr hs.1
    rcases hheld with hL | hnil
    · obtain ⟨-, c, hc', hcb⟩ := hL.kept_below hab
      exact TransGen.head' hc' hcb
    · rw [hnil] at hab
      cases hab
  · have hentry := hc.outside a hna
    exact .single (by rw [childEdge_iff, children, ← hentry]; exact hab)

/-! ### Edits keep the text -/

@[simp] theorem source_modifyEntry (t : ParseTree) (h : Handle) (f : Entry → Entry) :
    (t.modifyEntry h f).source = t.source := rfl

@[simp] theorem source_remove (t : ParseTree) (h : Handle) : (t.remove h).source = t.source := by
  unfold remove
  split <;> rfl

@[simp] theorem source_liftChildren (t : ParseTree) (h : Handle) :
    (t.liftChildren h).source = t.source := by
  have hfold : ∀ (cs : List Handle) (p : Handle) (u : ParseTree),
      (cs.foldl (fun t c => t.modifyEntry c fun e => { e with parent := some p }) u).source =
        u.source := by
    intro cs p
    induction cs with
    | nil => intro u; rfl
    | cons c cs ih => intro u; rw [List.foldl_cons, ih]; rfl
  unfold liftChildren
  split
  · rfl
  · simp only [source_modifyEntry, hfold]

theorem source_cullAt (fs : List Filter) :
    ∀ (d : Nat) (t : ParseTree) (h : Handle), (cullAt fs d t h).source = t.source
  | 0, _, _ => rfl
  | d + 1, t, h => by
    rw [cullAt]
    generalize t.children h = cs
    induction cs generalizing t with
    | nil => rfl
    | cons c cs ih =>
      rw [List.foldl_cons, ih]
      dsimp only
      split <;> simp [source_cullAt fs d]

@[simp] theorem source_cull (t : ParseTree) (h : Handle) (fs : List Filter) :
    (t.cull h fs).source = t.source :=
  source_cullAt fs _ t h

theorem size_cullAt (fs : List Filter) :
    ∀ (d : Nat) (t : ParseTree) (h : Handle), (cullAt fs d t h).size = t.size
  | 0, _, _ => rfl
  | d + 1, t, h => by
    rw [cullAt]
    generalize t.children h = cs
    induction cs generalizing t with
    | nil => rfl
    | cons c cs ih =>
      rw [List.foldl_cons, ih]
      dsimp only
      split <;> simp [size_cullAt fs d]

@[simp] theorem size_cull (t : ParseTree) (h : Handle) (fs : List Filter) :
    (t.cull h fs).size = t.size :=
  size_cullAt fs _ t h

/-- Relinking over the same text leaves every value as it was. -/
theorem Relinked.value_eq (hr : Relinked t t') (hs : t'.source = t.source) (x : Handle) :
    t'.value x = t.value x := by
  simp only [value, hr x, hs]

/-! ### Post-order -/

/-- `PostOrder t cs L`: `L` lists the nodes of the subtrees of `cs`, the subtrees left to right,
and each node after the nodes under it. -/
inductive PostOrder (t : ParseTree) : List Handle → List Handle → Prop
  | nil : PostOrder t [] []
  | cons {c : Handle} {cs L₁ L₂ : List Handle} : PostOrder t (t.children c) L₁ →
      PostOrder t cs L₂ → PostOrder t (c :: cs) (L₁ ++ c :: L₂)

theorem rightWalk_nil (k : Nat) (out : List Handle) : t.rightWalk k [] out = out.reverse := by
  cases k <;> rfl

theorem rightWalk_cons (k : Nat) (h : Handle) (rest out : List Handle) :
    t.rightWalk (k + 1) (h :: rest) out = t.rightWalk k ((t.children h).reverse ++ rest) (h :: out) :=
  rfl

/-- The stack walk behind `descendants` takes the subtrees of `cs` last first, each from the top
with its children last first: the nodes it takes, read backwards, are their post-order. -/
theorem PostOrder.rightWalk {cs L : List Handle} (h : PostOrder t cs L) :
    ∀ (k : Nat) (rest out : List Handle),
      t.rightWalk (k + L.length) (cs.reverse ++ rest) out = t.rightWalk k rest (L ++ out) := by
  induction h with
  | nil => intro k rest out; rfl
  | @cons c cs L₁ L₂ _ _ ih₁ ih₂ =>
    intro k rest out
    have hlen : k + (L₁ ++ c :: L₂).length = (k + L₁.length + 1) + L₂.length := by
      simp only [List.length_append, List.length_cons]
      omega
    rw [hlen, List.reverse_cons, List.append_assoc, List.singleton_append, ih₂, rightWalk_cons,
      ih₁]
    simp

/-- In an ordered tree every forest has its post-order. -/
theorem Ordered.exists_postOrder (ho : t.Ordered) (n : Nat) :
    ∀ cs : List Handle, (∀ c ∈ cs, c < n) → ∃ L, PostOrder t cs L := by
  induction n with
  | zero =>
    intro cs hcs
    cases cs with
    | nil => exact ⟨[], .nil⟩
    | cons c _ => exact absurd (hcs c List.mem_cons_self) (Nat.not_lt_zero _)
  | succ n ih =>
    intro cs hcs
    induction cs with
    | nil => exact ⟨[], .nil⟩
    | cons c cs ihcs =>
      have hc := hcs c List.mem_cons_self
      obtain ⟨L₁, h₁⟩ := ih (t.children c) fun c' hc' =>
        Nat.lt_of_lt_of_le (ho c c' hc') (Nat.le_of_lt_succ hc)
      obtain ⟨L₂, h₂⟩ := ihcs fun c' hc' => hcs c' (List.mem_cons_of_mem _ hc')
      exact ⟨_, .cons h₁ h₂⟩

/-- The post-order of a forest lists exactly the nodes its trees reach. -/
theorem PostOrder.mem_iff {cs L : List Handle} (h : PostOrder t cs L) {y : Handle} :
    y ∈ L ↔ ∃ c ∈ cs, ReflTransGen (ChildEdge t.entries) c y := by
  induction h with
  | nil => simp
  | @cons c cs L₁ L₂ _ _ ih₁ ih₂ =>
    simp only [List.mem_append, List.mem_cons, ih₁, ih₂, exists_eq_or_imp]
    constructor
    · rintro (⟨c', hc', hy⟩ | rfl | ⟨c', hc', hy⟩)
      · exact .inl (.head hc' hy)
      · exact .inl .refl
      · exact .inr ⟨c', hc', hy⟩
    · rintro (hy | ⟨c', hc', hy⟩)
      · rcases reflTransGen_iff_eq_or_transGen.mp hy with rfl | hy
        · exact .inr (.inl rfl)
        · obtain ⟨d, hcd, hdy⟩ := TransGen.head'_iff.mp hy
          exact .inl ⟨d, hcd, hdy⟩
      · exact .inr (.inr ⟨c', hc', hy⟩)

/-- The post-order of distinct siblings in a well-formed tree lists each node once. -/
theorem PostOrder.nodup (hwf : t.WellFormed) {cs L : List Handle} (h : PostOrder t cs L) :
    ∀ p, (∀ c ∈ cs, c ∈ t.children p) → cs.Nodup → L.Nodup := by
  induction h with
  | nil => intro _ _ _; exact List.nodup_nil
  | @cons c cs L₁ L₂ h₁ h₂ ih₁ ih₂ =>
    intro p hcs hnd
    have hc := hcs c List.mem_cons_self
    obtain ⟨hcnot, hndcs⟩ := List.nodup_cons.mp hnd
    -- Apart from `c` itself, the nodes of `L₂` lie under siblings of `c`, those of `L₁` under `c`.
    have hapart : ∀ y, ReflTransGen (ChildEdge t.entries) c y → y ∉ L₂ := by
      intro y hy hy₂
      obtain ⟨c', hc', hy'⟩ := h₂.mem_iff.mp hy₂
      exact hwf.disjoint_of_siblings hc (hcs c' (List.mem_cons_of_mem _ hc'))
        (fun hcc => hcnot (hcc ▸ hc')) hy hy'
    have hunder : ∀ y ∈ L₁, TransGen (ChildEdge t.entries) c y := by
      intro y hy
      obtain ⟨d, hd, hdy⟩ := h₁.mem_iff.mp hy
      exact TransGen.head' hd hdy
    refine List.nodup_append.mpr ⟨ih₁ c (fun _ hd => hd) (hwf.nodup_children c),
      List.nodup_cons.mpr ⟨hapart c .refl, ih₂ p (fun c' hc' => hcs c' (List.mem_cons_of_mem _ hc'))
        hndcs⟩, ?_⟩
    intro y hy z hz hyz
    subst hyz
    rcases List.mem_cons.mp hz with rfl | hz
    · exact hwf.not_transGen_childEdge_self _ (hunder _ hy)
    · exact hapart y (hunder y hy).to_reflTransGen hz

/-- In post-order a node comes after every node under it. -/
theorem PostOrder.sublist_of_below {cs L : List Handle} (h : PostOrder t cs L) {y z : Handle}
    (hz : z ∈ L) (hyz : TransGen (ChildEdge t.entries) z y) : [y, z].Sublist L := by
  induction h with
  | nil => cases hz
  | @cons c cs L₁ L₂ h₁ _ ih₁ ih₂ =>
    rcases List.mem_append.mp hz with hz | hz
    · exact (ih₁ hz).trans (List.sublist_append_left _ _)
    · rcases List.mem_cons.mp hz with rfl | hz
      · -- `y` is under `z`, so it comes in the post-order of the children of `z`.
        obtain ⟨d, hd, hdy⟩ := TransGen.head'_iff.mp hyz
        have hy : y ∈ L₁ := h₁.mem_iff.mpr ⟨d, hd, hdy⟩
        exact (List.singleton_sublist.mpr hy).append
          (List.singleton_sublist.mpr List.mem_cons_self)
      · exact List.sublist_append_of_sublist_right ((ih₂ hz).cons _)

/-- In a well-formed ordered tree, the nodes under `h` listed leaf first are the post-order of
the subtrees of its children. -/
theorem descendants_leafFirst (hwf : t.WellFormed) (ho : t.Ordered) (h : Handle) :
    ∃ L, PostOrder t (t.children h) L ∧ t.descendants h .leafFirst = L := by
  obtain ⟨L, hL⟩ := ho.exists_postOrder h (t.children h) (fun c hc => ho h c hc)
  refine ⟨L, hL, ?_⟩
  -- The walk takes each node of `L` once, and they are fewer than the fuel.
  have hlen : L.length ≤ t.size := by
    refine length_le_size_of_nodup (hL.nodup hwf h (fun _ hc => hc) (hwf.nodup_children h))
      fun y hy => ?_
    obtain ⟨c, hc, hcy⟩ := hL.mem_iff.mp hy
    exact hwf.lt_size_of_below hc hcy
  obtain ⟨k, hk⟩ : ∃ k, t.size + 1 = k + L.length := ⟨t.size + 1 - L.length, by omega⟩
  simp only [descendants, hk]
  rw [← List.append_nil (t.children h).reverse, hL.rightWalk k [] [], rightWalk_nil]
  simp

/-! ### Picking from child lists -/

/-- The descendants of `h`, children first, are the nodes below `h`. -/
theorem mem_descendants_leafFirst (hwf : t.WellFormed) (ho : t.Ordered) {h y : Handle} :
    y ∈ t.descendants h .leafFirst ↔ TransGen (ChildEdge t.entries) h y := by
  obtain ⟨L, hL, heq⟩ := descendants_leafFirst hwf ho h
  rw [heq, hL.mem_iff, TransGen.head'_iff]
  rfl

theorem nodup_descendants_leafFirst (hwf : t.WellFormed) (ho : t.Ordered) (h : Handle) :
    (t.descendants h .leafFirst).Nodup := by
  obtain ⟨L, hL, heq⟩ := descendants_leafFirst hwf ho h
  rw [heq]
  exact hL.nodup hwf h (fun _ hc => hc) (hwf.nodup_children h)

theorem mem_allByName (hwf : t.WellFormed) (ho : t.Ordered) {h y : Handle} {n : String} :
    y ∈ t.allByName h .leafFirst n ↔ TransGen (ChildEdge t.entries) h y ∧ t.name y = some n := by
  rw [allByName, List.mem_filter, mem_descendants_leafFirst hwf ho, isNamed, beq_iff_eq]

theorem nodup_allByName (hwf : t.WellFormed) (ho : t.Ordered) (h : Handle) (n : String) :
    (t.allByName h .leafFirst n).Nodup :=
  (nodup_descendants_leafFirst hwf ho h).filter _

/-- Of two nodes named alike below `h`, the lower comes first. -/
theorem allByName_sublist_of_below (hwf : t.WellFormed) (ho : t.Ordered) {h y z : Handle}
    {n : String} (hz : z ∈ t.allByName h .leafFirst n) (hzy : TransGen (ChildEdge t.entries) z y)
    (hy : t.name y = some n) : [y, z].Sublist (t.allByName h .leafFirst n) := by
  obtain ⟨L, hL, heq⟩ := descendants_leafFirst hwf ho h
  rw [allByName, heq] at hz ⊢
  have hzL := (List.mem_filter.mp hz)
  have hsub := (hL.sublist_of_below hzL.1 hzy).filter (t.isNamed n)
  rwa [List.filter_cons_of_pos (by simp [isNamed, hy]), List.filter_cons_of_pos hzL.2,
    List.filter_nil] at hsub

theorem childByName_eq_some {h c : Handle} {n : String} (hc : t.childByName h n = some c) :
    c ∈ t.children h ∧ t.name c = some n := by
  unfold childByName at hc
  exact ⟨List.mem_of_find?_eq_some hc, by simpa [isNamed] using List.find?_some hc⟩

theorem exists_childByName {h c : Handle} {n : String} (hc : c ∈ t.children h)
    (hn : t.name c = some n) : ∃ c', t.childByName h n = some c' := by
  unfold childByName
  cases hf : (t.children h).find? (t.isNamed n) with
  | none => exact absurd (List.find?_eq_none.mp hf c hc) (by simp [isNamed, hn])
  | some c' => exact ⟨c', rfl⟩

/-- The groups of `splitChildren` hold children that are no delimiters. -/
theorem mem_splitChildren {h : Handle} {delim : String} {group : List Handle} {e : Handle}
    (hg : group ∈ t.splitChildren h delim) (he : e ∈ group) :
    e ∈ t.children h ∧ t.isNamed delim e = false := by
  let P : Handle → Prop := fun e => e ∈ t.children h ∧ t.isNamed delim e = false
  -- The fold keeps every member of a finished or current group a child that is no delimiter.
  have hfold : ∀ (cs : List Handle) (acc : List (List Handle) × List Handle), cs ⊆ t.children h →
      (∀ g ∈ acc.1, ∀ e ∈ g, P e) → (∀ e ∈ acc.2, P e) →
      let r := cs.foldl (fun (acc : List (List Handle) × List Handle) c =>
        if t.isNamed delim c then (acc.2.reverse :: acc.1, []) else (acc.1, c :: acc.2)) acc
      (∀ g ∈ r.1, ∀ e ∈ g, P e) ∧ (∀ e ∈ r.2, P e) := by
    intro cs
    induction cs with
    | nil => intro acc _ h₁ h₂; exact ⟨h₁, h₂⟩
    | cons c cs ih =>
      intro acc hsub h₁ h₂
      rw [List.foldl_cons]
      apply ih _ (fun y hy => hsub (List.mem_cons_of_mem _ hy))
      · split
        · intro g hg e he
          rcases List.mem_cons.mp hg with rfl | hg
          · exact h₂ e (List.mem_reverse.mp he)
          · exact h₁ g hg e he
        · exact h₁
      · split
        · intro e he
          cases he
        · rename_i hdelim
          intro e he
          rcases List.mem_cons.mp he with rfl | he
          · exact ⟨hsub List.mem_cons_self, by simpa using hdelim⟩
          · exact h₂ e he
  obtain ⟨h₁, h₂⟩ := hfold (t.children h) ([], []) (List.Subset.refl _) (by simp) (by simp)
  unfold splitChildren at hg
  simp only [List.mem_reverse, List.mem_cons] at hg
  rcases hg with rfl | hg
  · exact h₂ e (List.mem_reverse.mp he)
  · exact h₁ group hg e he

/-! ### Leaves one or two levels down -/

theorem leavesWalk_leaves {cs : List Handle} (hcs : ∀ c ∈ cs, t.children c = []) :
    ∀ (k : Nat) (rest out : List Handle),
      t.leavesWalk (k + cs.length) (cs ++ rest) out = t.leavesWalk k rest (cs.reverse ++ out) := by
  induction cs with
  | nil => intro k rest out; rfl
  | cons c cs ih =>
    intro k rest out
    rw [List.length_cons, show k + (cs.length + 1) = (k + cs.length) + 1 by omega,
      List.cons_append, leavesWalk_leaf (hcs c List.mem_cons_self),
      ih (fun c' hc' => hcs c' (List.mem_cons_of_mem _ hc'))]
    simp

/-- The leaves under a node whose one child is a leaf are that child. -/
theorem leaves_of_leaf_child {b c : Handle} (hb : t.children b = [c]) (hc : t.children c = []) :
    t.leaves b = [c] := by
  have hsize : 0 < t.size :=
    Nat.lt_of_le_of_lt (Nat.zero_le b) (lt_size_of_mem_children (hb ▸ List.mem_singleton_self c))
  obtain ⟨k, hk⟩ : ∃ k, t.size + 1 = k + 2 := ⟨t.size - 1, by omega⟩
  rw [leaves, hk, leavesWalk_inner hb, List.append_nil, leavesWalk_leaf hc, leavesWalk_nil]
  rfl

/-- The leaves under a node whose one child holds leaves only are those leaves. -/
theorem leaves_of_flat_child (hwf : t.WellFormed) {b c : Handle} (hb : t.children b = [c])
    (hne : t.children c ≠ []) (hcs : ∀ d ∈ t.children c, t.children d = []) :
    t.leaves b = t.children c := by
  -- `c` and the leaves under it are distinct nodes of the tree, so the fuel reaches them all.
  have hlen : (c :: t.children c).length ≤ t.size := by
    refine length_le_size_of_nodup (List.nodup_cons.mpr ⟨fun hcc => ?_, hwf.nodup_children c⟩)
      fun y hy => ?_
    · exact hwf.ne_of_parent (hwf.parent_of_mem c c hcc) rfl
    · rcases List.mem_cons.mp hy with rfl | hy
      · exact lt_size_of_parent (hwf.parent_of_mem b y (hb ▸ List.mem_singleton_self y))
      · exact lt_size_of_parent (hwf.parent_of_mem c y hy)
  obtain ⟨k, hk⟩ : ∃ k, t.size + 1 = k + (t.children c).length + 2 :=
    ⟨t.size + 1 - (t.children c).length - 2, by simp only [List.length_cons] at hlen; omega⟩
  obtain ⟨d, ds, hds⟩ := List.exists_cons_of_ne_nil hne
  rw [leaves, hk, leavesWalk_inner hb, List.append_nil, leavesWalk_inner hds, ← hds,
    leavesWalk_leaves hcs k [] [], leavesWalk_nil]
  simp

/-! ### What the root reaches -/

/-- Of two nodes above a third, one is above the other: each node has one parent. -/
theorem WellFormed.reflTransGen_total (hwf : t.WellFormed) {a b y : Handle}
    (ha : ReflTransGen (ChildEdge t.entries) a y) (hb : ReflTransGen (ChildEdge t.entries) b y) :
    ReflTransGen (ChildEdge t.entries) a b ∨ ReflTransGen (ChildEdge t.entries) b a := by
  induction ha with
  | refl => exact .inr hb
  | @tail z y haz hzy ih =>
    rcases ReflTransGen.cases_tail hb with rfl | ⟨z', hbz', hz'y⟩
    · exact .inl (haz.tail hzy)
    · -- the last edges into `y` leave its one parent
      have hz : z' = z := Option.some.inj
        ((hwf.parent_of_mem _ _ hz'y).symm.trans (hwf.parent_of_mem _ _ hzy))
      exact ih (hz ▸ hbz')

/-- A path to a child passes through its parent. -/
theorem WellFormed.eq_or_transGen_of_child (hwf : t.WellFormed) {g p c : Handle}
    (hc : c ∈ t.children p) (h : TransGen (ChildEdge t.entries) g c) :
    g = p ∨ TransGen (ChildEdge t.entries) g p := by
  obtain ⟨z, hgz, hzc⟩ := TransGen.tail'_iff.mp h
  have hz : z = p := Option.some.inj ((hwf.parent_of_mem z c hzc).symm.trans (hwf.parent_of_mem p c hc))
  subst hz
  exact (reflTransGen_iff_eq_or_transGen.mp hgz).imp_left Eq.symm

theorem WellFormed.lt_size_of_transGen (hwf : t.WellFormed) {a y : Handle}
    (h : TransGen (ChildEdge t.entries) a y) : y < t.size := by
  obtain ⟨c, hac, hcy⟩ := TransGen.head'_iff.mp h
  exact hwf.lt_size_of_below hac hcy

/-- A node without a parent that is not the root is out of the root's reach. -/
theorem WellFormed.not_reach_of_parent_eq_none (hwf : t.WellFormed) {h : Handle}
    (hp : t.parent h = none) (hr : h ≠ t.root) : ¬ ReflTransGen (ChildEdge t.entries) t.root h := by
  intro hreach
  rcases ReflTransGen.cases_tail hreach with hrh | ⟨z, -, hzh⟩
  · exact hr hrh
  · rw [hwf.parent_of_mem _ _ hzh] at hp
    cases hp

/-- Lifting the children of `h` leaves `h` out of the root's reach. -/
theorem WellFormed.not_reach_liftChildren (hwf : t.WellFormed) {h p : Handle}
    (hp : t.parent h = some p) :
    ¬ ReflTransGen (ChildEdge (t.liftChildren h).entries) (t.liftChildren h).root h := by
  refine (hwf.liftChildren h).not_reach_of_parent_eq_none ?_ ?_
  · rw [parent_liftChildren hp hwf, if_pos rfl]
  · rw [root_liftChildren]
    exact ne_of_parent_eq_none hp hwf.root_parent

/-- Lifting the children of `h` keeps in the root's reach every node but `h`: a child of `h`
hangs from the parent of `h` instead. -/
theorem WellFormed.reach_liftChildren (hwf : t.WellFormed) {h y : Handle}
    (hy : ReflTransGen (ChildEdge t.entries) t.root y) (hne : y ≠ h) :
    ReflTransGen (ChildEdge (t.liftChildren h).entries) (t.liftChildren h).root y := by
  cases hp : t.parent h with
  | none => rwa [liftChildren_of_parent_eq_none hp]
  | some p =>
    rw [root_liftChildren]
    have hchildren := children_liftChildren hp hwf
    have hph : h ∈ t.children p := (hwf.mem_children_iff).mpr hp
    -- the induction also carries the parent of `h`, reached when `h` is
    suffices H : ∀ y, ReflTransGen (ChildEdge t.entries) t.root y →
        (y ≠ h → ReflTransGen (ChildEdge (t.liftChildren h).entries) t.root y) ∧
        (y = h → ReflTransGen (ChildEdge (t.liftChildren h).entries) t.root p) from
      (H y hy).1 hne
    intro y hy
    induction hy with
    | refl =>
      have hrh : t.root ≠ h := (ne_of_parent_eq_none hp hwf.root_parent).symm
      exact ⟨fun _ => .refl, fun e => absurd e hrh⟩
    | @tail z y _ hzy ih =>
      have hzy' : y ∈ t.children z := hzy
      refine ⟨fun hyh => ?_, fun hyh => ?_⟩
      · by_cases hzh : z = h
        · -- a child of `h` is now a child of `p`
          subst hzh
          refine (ih.2 rfl).tail ?_
          rw [childEdge_iff, hchildren, if_neg (hwf.ne_of_parent hp).symm, if_pos rfl]
          exact (mem_spliceAt hph).mpr (.inl hzy')
        · refine (ih.1 hzh).tail ?_
          rw [childEdge_iff, hchildren, if_neg hzh]
          split_ifs with hzp
          · subst hzp
            exact (mem_spliceAt hph).mpr (.inr ((List.mem_erase_of_ne hyh).mpr hzy'))
          · exact hzy'
      · subst hyh
        have hzp : z = p := Option.some.inj ((hwf.parent_of_mem _ _ hzy').symm.trans hp)
        subst hzp
        exact ih.1 (hwf.ne_of_parent hp).symm

end Tokenweave.ParseTree
