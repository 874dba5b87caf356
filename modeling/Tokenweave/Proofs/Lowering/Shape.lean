import Tokenweave.Proofs.Notation
/-!
# The notation's shape under the edits of lowering

Lowering edits the stripped tree of grammar text as it goes. This module says which of those
edits keep the tree a `Notation` tree, and what a shaped tree offers the steps that read it.

* `Retouched t t'`: the edit kept the root, every link and every name, and changed values or
  payloads only. Resolving escapes and attaching graph nodes are such edits; they keep the
  notation as long as no character is left empty (`Notation.retouch`).
* Flattening a `statementOpt` the root reaches keeps the notation (`Notation.flatten`): its
  statement holds what the option held, and only the option and its child leave the root's
  reach (`Notation.reach_flatten`).
* A token the root reaches has an atom, and a range atom two bounds with some text each
  (`Notation.tokenReady`); a sentence hangs from the root (`Notation.sentence_child_root`).
-/

set_option autoImplicit false

namespace Tokenweave

open Relation ParseTree

theorem String.join_ne_empty {l : List String} {s : String} (hs : s ∈ l) (hne : s ≠ "") :
    String.join l ≠ "" := by
  intro h
  have hnil := congrArg String.toList h
  rw [String.toList_join, String.toList_empty, List.flatMap_eq_nil_iff] at hnil
  exact hne (String.toList_eq_nil_iff.mp (hnil s hs))

namespace Dialect

variable {t t' : ParseTree}

/-! ### Edits of values and payloads -/

/-- `t'` has the root, links and names of `t`; values and payloads may differ. -/
structure Retouched (t t' : ParseTree) : Prop where
  root : t'.root = t.root
  parent : ∀ x, t'.parent x = t.parent x
  children : ∀ x, t'.children x = t.children x
  name : ∀ x, t'.name x = t.name x

theorem Retouched.refl (t : ParseTree) : Retouched t t := ⟨rfl, fun _ => rfl, fun _ => rfl, fun _ => rfl⟩

theorem Retouched.trans {t'' : ParseTree} (h₁ : Retouched t t') (h₂ : Retouched t' t'') :
    Retouched t t'' :=
  ⟨h₂.root.trans h₁.root, fun x => (h₂.parent x).trans (h₁.parent x),
    fun x => (h₂.children x).trans (h₁.children x), fun x => (h₂.name x).trans (h₁.name x)⟩

theorem retouched_modifyEntry {h : Handle} {f : Entry → Entry}
    (hf : ∀ e, (f e).parent = e.parent ∧ (f e).children = e.children ∧ (f e).name = e.name) :
    Retouched t (t.modifyEntry h f) := by
  refine ⟨rfl, fun x => ?_, fun x => ?_, fun x => ?_⟩ <;>
  · simp only [parent, children, name, entry, modifyEntry, Array.getElem?_modify]
    split
    · cases t.entries[x]? with
      | none => rfl
      | some e => simp [hf e]
    · rfl

theorem retouched_setValue (h : Handle) (v : String) : Retouched t (t.setValue h v) :=
  retouched_modifyEntry fun _ => ⟨rfl, rfl, rfl⟩

theorem retouched_setPayload (h : Handle) (id : NodeId) :
    Retouched t (t.replaceWith h (.payload id)) :=
  retouched_modifyEntry fun _ => ⟨rfl, rfl, rfl⟩

theorem value_setValue (x y : Handle) (v : String) :
    (t.setValue x v).value y = t.value y ∨ (t.setValue x v).value y = v ∧ y = x := by
  by_cases hyx : y = x
  · subst hyx
    by_cases hy : y < t.size
    · exact .inr ⟨by simp [setValue, value, entry_modifyEntry hy], rfl⟩
    · have hnone : t.entries[y]? = none := Array.getElem?_eq_none (Nat.le_of_not_lt hy)
      left
      simp [setValue, value, entry, modifyEntry, Array.getElem?_modify, hnone]
  · left
    simp [setValue, value, entry, modifyEntry, Array.getElem?_modify, Ne.symm hyx]

theorem value_setPayload (h x : Handle) (id : NodeId) :
    (t.replaceWith h (.payload id)).value x = t.value x := by
  simp only [replaceWith, value, entry, modifyEntry, Array.getElem?_modify]
  split
  · cases t.entries[x]? <;> rfl
  · rfl

theorem payload_setPayload_self {h : Handle} (hh : h < t.size) (id : NodeId) :
    (t.replaceWith h (.payload id)).payload h = some id := by
  simp [replaceWith, payload, entry_modifyEntry hh]

theorem payload_setPayload_of_ne {h x : Handle} (hx : x ≠ h) (id : NodeId) :
    (t.replaceWith h (.payload id)).payload x = t.payload x := by
  simp [replaceWith, payload, entry, modifyEntry, Array.getElem?_modify, Ne.symm hx]

theorem payload_setPayload_ne_none {h x : Handle} (hx : t.payload x ≠ none) (id : NodeId) :
    (t.replaceWith h (.payload id)).payload x ≠ none := by
  by_cases hxh : x = h
  · subst hxh
    have hlt : x < t.size := by
      by_contra hge
      exact hx (by rw [payload, entry_of_size_le (Nat.le_of_not_lt hge)]; rfl)
    rw [payload_setPayload_self hlt]
    exact Option.some_ne_none id
  · rw [payload_setPayload_of_ne hxh]
    exact hx

theorem Relinked.payload_eq (hr : Relinked t t') (x : Handle) : t'.payload x = t.payload x := by
  simp only [payload, hr x]

theorem Retouched.childEdge_eq (hr : Retouched t t') : ChildEdge t'.entries = ChildEdge t.entries := by
  funext a b
  exact propext (by rw [childEdge_iff, childEdge_iff, hr.children])

theorem Retouched.reach_iff (hr : Retouched t t') {y : Handle} :
    ReflTransGen (ChildEdge t'.entries) t'.root y ↔ ReflTransGen (ChildEdge t.entries) t.root y := by
  rw [hr.childEdge_eq, hr.root]

theorem Shaped.of_children_eq {x : Handle} (hs : Shaped t x) (hc : t'.children x = t.children x)
    (hn : ∀ y, t'.name y = t.name y) : Shaped t' x where
  held c hc' := by
    rw [hn, hn]
    exact hs.held c (hc ▸ hc')
  required need hneed := by
    rw [hn] at hneed
    obtain ⟨c, hc', n, hn', hcn⟩ := hs.required need hneed
    exact ⟨c, hc ▸ hc', n, hn', (hn c).trans hcn⟩
  single n hn' hxn := by
    rw [hc]
    exact hs.single n hn' ((hn x).symm.trans hxn)

/-- An edit of values and payloads keeps the notation's shape, as long as it leaves no character
empty. -/
theorem Notation.retouch (hn : Notation t) (hr : Retouched t t')
    (hc : ∀ x, (t'.name x).any charNames.contains → t'.value x ≠ "") : Notation t' where
  wellFormed := hn.wellFormed.of_links (fun x => ⟨hr.parent x, hr.children x⟩) hr.root
  ordered x c hc' := hn.ordered x c (hr.children x ▸ hc')
  root := by rw [hr.root, hr.name]; exact hn.root
  shaped x hx := (hn.shaped x (hr.reach_iff.mp hx)).of_children_eq (hr.children x) hr.name
  chars := hc

/-! ### Where nodes hang -/

/-- A `statementOpt` sits in a statement. -/
theorem heldNames_statementOpt {n : Option String} (h : "statementOpt" ∈ heldNames n) :
    n = some "statement" := by
  unfold heldNames at h
  split at h <;> simp_all

/-- What an option holds, a statement may hold itself. -/
theorem heldNames_statementOpt_below :
    ∀ n ∈ heldNames (some "statementOpt"), ∀ m ∈ heldNames (some n),
      m ∈ heldNames (some "statement") := by
  decide

/-- A node named other than `grammar` is not the root. -/
theorem Notation.ne_root (hn : Notation t) {x : Handle} {n : String} (hx : t.name x = some n)
    (hne : n ≠ "grammar") : x ≠ t.root :=
  fun h => hne (Option.some.inj (hx.symm.trans (by rw [h]; exact hn.root)))

/-- A node the root reaches, other than the root, hangs from a node the root reaches. -/
theorem exists_parent_of_reach (hwf : t.WellFormed) {x : Handle}
    (hx : ReflTransGen (ChildEdge t.entries) t.root x) (hne : x ≠ t.root) :
    ∃ p, ReflTransGen (ChildEdge t.entries) t.root p ∧ t.parent x = some p := by
  rcases ReflTransGen.cases_tail hx with h | ⟨p, hp, hpx⟩
  · exact absurd h hne
  · exact ⟨p, hp, hwf.parent_of_mem p x hpx⟩

/-- The root is the only grammar the root reaches. -/
theorem Notation.eq_root_of_grammar (hn : Notation t) {x : Handle}
    (hx : ReflTransGen (ChildEdge t.entries) t.root x) (hname : t.name x = some "grammar") :
    x = t.root := by
  by_contra hne
  obtain ⟨p, hp, hpx⟩ := exists_parent_of_reach hn.wellFormed hx hne
  obtain ⟨n, hxn, hmem⟩ := (hn.shaped p hp).held x ((hn.wellFormed.mem_children_iff).mpr hpx)
  rw [hname, Option.some.injEq] at hxn
  exact grammar_not_mem_heldNames _ (hxn ▸ hmem)

/-- A sentence hangs from the root. -/
theorem Notation.sentence_child_root (hn : Notation t) {s : Handle}
    (hs : ReflTransGen (ChildEdge t.entries) t.root s) (hname : t.name s = some "sentence") :
    t.parent s = some t.root := by
  obtain ⟨p, hp, hps⟩ := exists_parent_of_reach hn.wellFormed hs (hn.ne_root hname (by decide))
  obtain ⟨n, hsn, hmem⟩ := (hn.shaped p hp).held s ((hn.wellFormed.mem_children_iff).mpr hps)
  rw [hname, Option.some.injEq] at hsn
  rw [hps, hn.eq_root_of_grammar hp (heldNames_sentence (hsn ▸ hmem))]

/-- Only the root is above a sentence. -/
theorem Notation.eq_root_of_above_sentence (hn : Notation t) {s x : Handle}
    (hs : ReflTransGen (ChildEdge t.entries) t.root s) (hname : t.name s = some "sentence")
    (hx : TransGen (ChildEdge t.entries) x s) : x = t.root := by
  have hwf := hn.wellFormed
  obtain ⟨z, hxz, hzs⟩ := TransGen.tail'_iff.mp hx
  have hz : z = t.root := Option.some.inj
    ((hwf.parent_of_mem z s hzs).symm.trans (hn.sentence_child_root hs hname))
  subst hz
  rcases ReflTransGen.cases_tail hxz with h | ⟨w, -, hw⟩
  · exact h.symm
  · have := hwf.parent_of_mem w _ hw
    rw [hwf.root_parent] at this
    cases this

/-- No node lies below two sentences. -/
theorem Notation.not_below_two_sentences (hn : Notation t) {s s' y : Handle}
    (hs : ReflTransGen (ChildEdge t.entries) t.root s) (hname : t.name s = some "sentence")
    (hs' : ReflTransGen (ChildEdge t.entries) t.root s') (hname' : t.name s' = some "sentence")
    (hne : s' ≠ s) (hy : ReflTransGen (ChildEdge t.entries) s y) :
    ¬ TransGen (ChildEdge t.entries) s' y := by
  intro hy'
  -- one of the two sentences would be above the other, and so be the root
  have hroot : ∀ a b, t.name a = some "sentence" → t.name b = some "sentence" →
      ReflTransGen (ChildEdge t.entries) t.root b → a ≠ b →
      ¬ ReflTransGen (ChildEdge t.entries) a b := by
    intro a b ha hb hbr hab hrel
    rcases reflTransGen_iff_eq_or_transGen.mp hrel with h | h
    · exact hab h.symm
    · rw [hn.eq_root_of_above_sentence hbr hb h, hn.root] at ha
      exact absurd ha (by decide)
  rcases hn.wellFormed.reflTransGen_total hy'.to_reflTransGen hy with h | h
  · exact hroot s' s hname' hname hs hne h
  · exact hroot s s' hname hname' hs' (Ne.symm hne) h

/-! ### Flattening an option -/

/-- Flattening keeps in the root's reach every node but the option and its child. -/
theorem Notation.reach_flatten (hn : Notation t) {o w y : Handle} (hy : ReflTransGen (ChildEdge t.entries) t.root y)
    (hyo : y ≠ o) (hyw : y ≠ w) :
    ReflTransGen (ChildEdge ((t.liftChildren w).liftChildren o).entries)
      ((t.liftChildren w).liftChildren o).root y :=
  (hn.wellFormed.liftChildren w).reach_liftChildren (hn.wellFormed.reach_liftChildren hy hyw) hyo

section Flatten

variable {o w : Handle} (hn : Notation t) (ho : ReflTransGen (ChildEdge t.entries) t.root o)
  (hname : t.name o = some "statementOpt") (hw : t.children o = [w])
include hn ho hname hw

/-- An option hangs from a statement, which it still hangs from once its one child is lifted. -/
theorem Notation.flatten_parent :
    ∃ p, ReflTransGen (ChildEdge t.entries) t.root p ∧ t.parent o = some p ∧
      t.name p = some "statement" ∧ t.parent w = some o ∧ (t.liftChildren w).parent o = some p := by
  have hwf := hn.wellFormed
  obtain ⟨p, hp, hop⟩ := exists_parent_of_reach hwf ho (hn.ne_root hname (by decide))
  obtain ⟨n, hon, hmem⟩ := (hn.shaped p hp).held o ((hwf.mem_children_iff).mpr hop)
  rw [hname, Option.some.injEq] at hon
  have hwo : t.parent w = some o := hwf.parent_of_mem o w (hw ▸ List.mem_singleton_self w)
  refine ⟨p, hp, hop, heldNames_statementOpt (hon ▸ hmem), hwo, ?_⟩
  have how : o ∉ t.children w := fun h => hwf.parent_ne_of_parent hwo (hwf.parent_of_mem w o h)
  rw [parent_liftChildren hwo hwf, if_neg (hwf.ne_of_parent hwo).symm, if_neg how, hop]

/-- Flattening leaves the option and its child out of the root's reach. -/
theorem Notation.not_reach_flatten {y : Handle} (hy : y = o ∨ y = w) :
    ¬ ReflTransGen (ChildEdge ((t.liftChildren w).liftChildren o).entries)
      ((t.liftChildren w).liftChildren o).root y := by
  obtain ⟨p, -, -, -, hwo, hop₁⟩ := hn.flatten_parent ho hname hw
  have hwf₁ := hn.wellFormed.liftChildren w
  rcases hy with rfl | rfl
  · exact hwf₁.not_reach_liftChildren hop₁
  · intro h
    have h₁ := (shrinks_liftChildren hwf₁ o).reflTransGen h
    rw [root_liftChildren] at h₁
    exact hn.wellFormed.not_reach_liftChildren hwo h₁

/-- Flattening an option keeps the notation's shape: its statement holds what the option held. -/
theorem Notation.flatten : Notation ((t.liftChildren w).liftChildren o) := by
  obtain ⟨p, hp, hop, hpname, hwo, hop₁⟩ := hn.flatten_parent ho hname hw
  have hwf := hn.wellFormed
  have hwf₁ := hwf.liftChildren w
  have hr : Relinked t ((t.liftChildren w).liftChildren o) :=
    (relinked_liftChildren w).trans (relinked_liftChildren o)
  have hs : Shrinks t ((t.liftChildren w).liftChildren o) :=
    (shrinks_liftChildren hwf w).trans (shrinks_liftChildren hwf₁ o)
  have hpw : p ≠ w := fun h => hwf.parent_ne_of_parent hop (h ▸ hwo)
  have hpo : p ≠ o := (hwf.ne_of_parent hop).symm
  -- the child lists after both lifts
  have hchildren : ∀ x, ((t.liftChildren w).liftChildren o).children x =
      if x = o then [] else if x = p then spliceAt (t.children p) o (t.children w)
      else if x = w then [] else t.children x := by
    intro x
    have hwo' : w ≠ o := hwf.ne_of_parent hwo
    have hsw : spliceAt [w] w (t.children w) = t.children w := by
      simpa using spliceAt_middle (L := []) (R := []) (K := t.children w) (List.not_mem_nil (a := w))
    simp only [children_liftChildren hop₁ hwf₁, children_liftChildren hwo hwf, hw, hsw]
    split_ifs <;> simp_all
  refine ⟨hwf₁.liftChildren o, hs.ordered hn.ordered, ?_, fun x hx => ?_, fun x hx => ?_⟩
  · rw [root_liftChildren, root_liftChildren, hr.name_eq]
    exact hn.root
  · have hx₀ : ReflTransGen (ChildEdge t.entries) t.root x := by
      have := hs.reflTransGen hx
      rwa [root_liftChildren, root_liftChildren] at this
    have hxo : x ≠ o := fun h => hn.not_reach_flatten ho hname hw (.inl rfl) (h ▸ hx)
    have hxw : x ≠ w := fun h => hn.not_reach_flatten ho hname hw (.inr rfl) (h ▸ hx)
    by_cases hxp : x = p
    · -- the statement holds what the option held, all of it allowed in a statement
      rw [hxp]
      have hom : o ∈ t.children p := (hwf.mem_children_iff).mpr hop
      have hwm : w ∈ t.children o := hw ▸ List.mem_singleton_self w
      obtain ⟨nw, hwn, hwheld⟩ := (hn.shaped o ho).held w hwm
      rw [hname] at hwheld
      refine ⟨fun c hc => ?_, fun need hneed => ?_, fun n hn' hpn => ?_⟩
      · rw [hchildren, if_neg hpo, if_pos rfl, mem_spliceAt hom] at hc
        rw [hr.name_eq, hr.name_eq, hpname]
        rcases hc with hc | hc
        · obtain ⟨m, hcm, hmem⟩ := (hn.shaped w (ho.tail hwm)).held c hc
          rw [hwn] at hmem
          exact ⟨m, hcm, heldNames_statementOpt_below nw hwheld m hmem⟩
        · have hheld := (hn.shaped p hp).held c (List.mem_of_mem_erase hc)
          rwa [hpname] at hheld
      · rw [hr.name_eq, hpname] at hneed
        simp [requiredNames] at hneed
      · rw [hr.name_eq, hpname, Option.some.injEq] at hpn
        subst hpn
        simp [singleNames] at hn'
    · refine (hn.shaped x hx₀).of_children_eq ?_ hr.name_eq
      rw [hchildren, if_neg hxo, if_neg hxp, if_neg hxw]
  · rw [hr.value_eq (by simp)]
    rw [hr.name_eq] at hx
    exact hn.chars x hx

end Flatten

/-! ### What a token offers -/

/-- A node whose name holds nothing is a leaf. -/
theorem Shaped.children_eq_nil {x : Handle} (hs : Shaped t x) (h : heldNames (t.name x) = []) :
    t.children x = [] := by
  rw [List.eq_nil_iff_forall_not_mem]
  intro c hc
  obtain ⟨n, -, hmem⟩ := hs.held c hc
  rw [h] at hmem
  exact List.not_mem_nil hmem

theorem joinLeaves_ne_empty {b d : Handle} (hd : d ∈ t.leaves b) (hv : t.value d ≠ "") :
    t.joinLeaves b "" ≠ "" := by
  rw [joinLeaves, Text.intercalate_empty]
  exact String.join_ne_empty (List.mem_map_of_mem hd) hv

/-- The bound of a range has some text: a character, or an escape of one. -/
theorem Notation.joinLeaves_bound_ne_empty (hn : Notation t) {b : Handle}
    (hb : ReflTransGen (ChildEdge t.entries) t.root b) {n : String}
    (hbn : t.name b = some n) (hn' : n ∈ ["rangeStart", "rangeEnd"]) :
    t.joinLeaves b "" ≠ "" := by
  obtain ⟨c, hc⟩ := (hn.shaped b hb).single n (by simp at hn'; rcases hn' with rfl | rfl <;> decide) hbn
  have hcm : c ∈ t.children b := hc ▸ List.mem_singleton_self c
  have hcr := hb.tail hcm
  have hsc := hn.shaped c hcr
  obtain ⟨m, hcn, hmem⟩ := (hn.shaped b hb).held c hcm
  have hheld : heldNames (some n) = ["escapeSequence", "rangeChar"] := by
    simp at hn'
    rcases hn' with rfl | rfl <;> rfl
  rw [hbn, hheld] at hmem
  simp only [List.mem_cons, List.not_mem_nil, or_false] at hmem
  rcases hmem with rfl | rfl
  · -- an escape: its leaves are its marker and the escaped character
    have hleaf : ∀ d ∈ t.children c, t.children d = [] := by
      intro d hd
      obtain ⟨k, hdk, hk⟩ := hsc.held d hd
      rw [hcn] at hk
      refine (hn.shaped d (hcr.tail hd)).children_eq_nil ?_
      simp only [heldNames] at hk
      simp only [List.mem_cons, List.not_mem_nil, or_false] at hk
      rcases hk with rfl | rfl <;> rw [hdk] <;> rfl
    obtain ⟨d, hd, k, hk, hdk⟩ := hsc.required ["anyChar"] (by rw [hcn]; simp [requiredNames])
    have hne : t.children c ≠ [] := List.ne_nil_of_mem hd
    refine joinLeaves_ne_empty (d := d) ?_ (hn.chars d ?_)
    · rw [leaves_of_flat_child hn.wellFormed hc hne hleaf]
      exact hd
    · simp at hk
      rw [hdk, hk]
      decide
  · -- a character
    have hleaf : t.children c = [] := hsc.children_eq_nil (by rw [hcn]; rfl)
    refine joinLeaves_ne_empty (d := c) ?_ (hn.chars c ?_)
    · rw [leaves_of_leaf_child hc hleaf]
      exact List.mem_singleton_self c
    · rw [hcn]
      decide

/-- A token the root reaches has an atom, and a range atom has two bounds with some text. -/
theorem Notation.tokenReady (hn : Notation t) {k : Handle}
    (hk : ReflTransGen (ChildEdge t.entries) t.root k) (hname : t.name k = some "token") :
    (∃ c ∈ t.children k, ∃ n ∈ Lowering.atomNames, t.name c = some n) ∧
      ∀ c ∈ t.children k, t.name c = some "chargroup" → ∀ n ∈ ["rangeStart", "rangeEnd"],
        ∃ b, t.childByName c n = some b ∧ t.joinLeaves b "" ≠ "" := by
  refine ⟨(hn.shaped k hk).required _ (by rw [hname]; simp [requiredNames]), ?_⟩
  intro c hc hcn n hn'
  have hcr := hk.tail hc
  obtain ⟨b', hb'c, m, hm, hb'm⟩ := (hn.shaped c hcr).required [n] (by
    rw [hcn]
    simp at hn'
    rcases hn' with rfl | rfl <;> simp [requiredNames])
  rw [List.mem_singleton] at hm
  subst hm
  obtain ⟨b, hb⟩ := exists_childByName hb'c hb'm
  obtain ⟨hbc, hbn⟩ := childByName_eq_some hb
  exact ⟨b, hb, hn.joinLeaves_bound_ne_empty (hcr.tail hbc) hbn hn'⟩

end Dialect

end Tokenweave
