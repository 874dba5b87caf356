import Tokenweave.Proofs.Nullable
import Tokenweave.Grammar.Validate
/-!
# A search that finds no left recursion ranks the entry edges

Main statement (`exists_entryRank`): when `Grammar.findLeftRecursion` finds no cycle among a list
of nodes closed under child edges, the entry edges among them admit a rank, between one and the
length of the list, that every entry edge lowers. This is what the matcher's depth bound is built
on: at one offset, nesting can only follow entry edges, so it is at most as deep as the rank.

The rank comes from the search itself: a node is finished only after every node it enters has
been, so the order in which nodes are finished, read backwards, is a topological order of the
entry edges. The proof carries a list of the finished nodes, newest first, beside the search's
marks (`SearchInv`): the marks say done exactly of the finished nodes and active exactly of the
nodes on the path, and every finished node enters only nodes finished before it
(`EntryOrdered`). A visit that reports no cycle keeps this and finishes the node it visits
(`visitEntries_none`). The depth given to the search never runs out, because each level of
nesting makes one more node active and there are only so many nodes.
-/

set_option autoImplicit false

namespace Tokenweave

/-! ## Entry edges -/

/-- A sequence enters each part that only nullable parts precede. -/
theorem Shape.mem_entryEdges_seq {nul : NodeId → Bool} {pre post : List NodeId} {c : NodeId}
    (hpre : ∀ y ∈ pre, nul y = true) : c ∈ (Shape.seq (pre ++ c :: post)).entryEdges nul := by
  simp only [Shape.entryEdges]
  rw [List.takeWhile_append_of_pos hpre]
  by_cases hc : nul c = true
  · simp [List.takeWhile_cons_of_pos hc]
  · simp [List.takeWhile_cons_of_neg hc]

namespace Grammar

variable {g : Grammar} {nul : Array Bool}

theorem mem_children_of_mem_entryEdges {x y : NodeId} (h : y ∈ g.entryEdges nul x) :
    y ∈ g.children x := by
  unfold entryEdges at h
  unfold children
  cases hx : g.get? x with
  | none => simp [shape?, hx] at h
  | some nd =>
    simp only [shape?, hx, Option.map_some] at h
    cases hs : nd.shape with
    | seq parts =>
      rw [hs] at h
      simp only [Shape.entryEdges, List.mem_append] at h
      show y ∈ nd.shape.children
      rw [hs]
      rcases h with h | h
      · exact (List.takeWhile_sublist _).subset h
      · exact List.mem_of_mem_drop (List.mem_of_mem_take h)
    | _ => simp_all [Shape.entryEdges, Shape.children]

theorem entryEdges_of_get? {x : NodeId} {nd : Node} (h : g.get? x = some nd) :
    g.entryEdges nul x = nd.shape.entryEdges (marked nul) := by
  simp [entryEdges, shape?, h]

/-- Every finished node enters only nodes finished before it (later in the list). -/
def EntryOrdered (g : Grammar) (nul : Array Bool) : List NodeId → Prop
  | [] => True
  | x :: rest => (∀ y ∈ g.entryEdges nul x, y < g.size → y ∈ rest) ∧ EntryOrdered g nul rest

theorem EntryOrdered.mem_of_entry {F : List NodeId} (hF : EntryOrdered g nul F) {x y : NodeId}
    (hx : x ∈ F) (hy : y ∈ g.entryEdges nul x) (hlt : y < g.size) : y ∈ F := by
  induction F with
  | nil => exact absurd hx List.not_mem_nil
  | cons z F ih =>
    rcases List.mem_cons.mp hx with rfl | hx
    · exact List.mem_cons_of_mem _ (hF.1 y hy hlt)
    · exact List.mem_cons_of_mem _ (ih hF.2 hx)

/-- The rank of `x` in a list of finished nodes, newest first: one for the oldest, the length of
the list for the newest, and nought for a node not in it. -/
def finishRank : List NodeId → NodeId → Nat
  | [], _ => 0
  | y :: F, x => if x = y then F.length + 1 else finishRank F x

theorem finishRank_le : ∀ (F : List NodeId) (x : NodeId), finishRank F x ≤ F.length
  | [], _ => Nat.le_refl _
  | y :: F, x => by
    unfold finishRank
    split
    · simp
    · have := finishRank_le F x
      simp only [List.length_cons]
      omega

theorem one_le_finishRank : ∀ {F : List NodeId} {x : NodeId}, x ∈ F → 1 ≤ finishRank F x
  | [], _, hx => absurd hx List.not_mem_nil
  | y :: F, x, hx => by
    unfold finishRank
    split
    · omega
    · rename_i hne
      exact one_le_finishRank ((List.mem_cons.mp hx).resolve_left hne)

/-- In a list of finished nodes, every entry edge lowers the rank. -/
theorem finishRank_lt {F : List NodeId} (hF : EntryOrdered g nul F) (hnd : F.Nodup) {x y : NodeId}
    (hx : x ∈ F) (hy : y ∈ g.entryEdges nul x) (hlt : y < g.size) :
    finishRank F y < finishRank F x := by
  induction F with
  | nil => exact absurd hx List.not_mem_nil
  | cons z F ih =>
    obtain ⟨hz, hnd⟩ := List.nodup_cons.mp hnd
    rcases List.mem_cons.mp hx with rfl | hx
    · -- The newest node has the top rank, and what it enters is older.
      have hyF : y ∈ F := hF.1 y hy hlt
      have hyz : y ≠ x := fun h => hz (h ▸ hyF)
      have := finishRank_le F y
      simp only [finishRank, if_neg hyz, ↓reduceIte]
      omega
    · have hyF : y ∈ F := hF.2.mem_of_entry hx hy hlt
      have hxz : x ≠ z := fun h => hz (h ▸ hx)
      have hyz : y ≠ z := fun h => hz (h ▸ hyF)
      simp only [finishRank, if_neg hxz, if_neg hyz]
      exact ih hF.2 hnd hx

/-! ## Marks -/

theorem lt_size_of_mark_ne_done {marks : Array Mark} {x : NodeId}
    (h : marks[x]?.getD .done ≠ .done) : x < marks.size := by
  by_contra hx
  simp [Array.getElem?_eq_none (Nat.le_of_not_lt hx)] at h

theorem mark_set {marks : Array Mark} {i : NodeId} (hi : i < marks.size) (m : Mark)
    (x : NodeId) :
    (marks.set! i m)[x]?.getD .done = if i = x then m else marks[x]?.getD .done := by
  rw [Array.set!_eq_setIfInBounds, Array.getElem?_setIfInBounds]
  split <;> simp_all

/-! ## The search invariant -/

/-- What the marks of the search say against the list `F` of finished nodes, newest first: done
exactly on `F` and active exactly on the path, with the path free of repeats and inside the
graph, and the finished nodes drawn from `order` and entering only nodes finished before them. -/
structure SearchInv (g : Grammar) (nul : Array Bool) (order : List NodeId)
    (st : Array Mark × List NodeId) (F : List NodeId) : Prop where
  size_eq : st.1.size = g.size
  done_iff : ∀ x < g.size, st.1[x]?.getD .done = .done ↔ x ∈ F
  active_iff : ∀ x < g.size, st.1[x]?.getD .done = .active ↔ x ∈ st.2
  finished_nodup : F.Nodup
  path_nodup : st.2.Nodup
  finished_sub : F ⊆ order
  path_lt : ∀ x ∈ st.2, x < g.size
  ordered : EntryOrdered g nul F

variable {order : List NodeId}

theorem searchInv_init : SearchInv g nul order (Array.replicate g.size .fresh, []) [] := by
  refine ⟨by simp, fun x hx => ?_, fun x hx => ?_, List.nodup_nil, List.nodup_nil,
    List.nil_subset _, by simp, trivial⟩ <;> simp [hx]

/-- The path never holds more nodes than the graph has. -/
theorem SearchInv.length_path_le {st : Array Mark × List NodeId} {F : List NodeId}
    (hI : SearchInv g nul order st F) : st.2.length ≤ g.size := by
  have hsub : st.2 ⊆ List.range g.size := fun x hx => List.mem_range.mpr (hI.path_lt x hx)
  simpa using (hI.path_nodup.subperm hsub).length_le

/-- Marking a fresh node active pushes it on the path. -/
theorem SearchInv.enter {marks : Array Mark} {path F : List NodeId} {x : NodeId}
    (hI : SearchInv g nul order (marks, path) F) (hx : marks[x]?.getD .done = .fresh) :
    SearchInv g nul order (marks.set! x .active, x :: path) F := by
  have hlt : x < marks.size := lt_size_of_mark_ne_done (by simp [hx])
  have hxs : x < g.size := hI.size_eq ▸ hlt
  have hxF : x ∉ F := fun h => by simp [(hI.done_iff x hxs).mpr h] at hx
  have hxp : x ∉ path := fun h => by simp [(hI.active_iff x hxs).mpr h] at hx
  refine ⟨by simpa using hI.size_eq, fun y hy => ?_, fun y hy => ?_, hI.finished_nodup,
    List.nodup_cons.mpr ⟨hxp, hI.path_nodup⟩, hI.finished_sub, fun y hy => ?_, hI.ordered⟩
  · rw [mark_set hlt]
    by_cases hxy : x = y
    · subst hxy
      simp [hxF]
    · simpa [hxy] using hI.done_iff y hy
  · rw [mark_set hlt]
    by_cases hxy : x = y
    · subst hxy
      simp
    · simpa [hxy, Ne.symm hxy] using hI.active_iff y hy
  · rcases List.mem_cons.mp hy with rfl | hy
    · exact hxs
    · exact hI.path_lt y hy

/-- Marking the node on top of the path done, once all it enters is finished, finishes it. -/
theorem SearchInv.leave {marks : Array Mark} {path F : List NodeId} {x : NodeId}
    (hI : SearchInv g nul order (marks, x :: path) F) (hxo : x ∈ order)
    (hent : ∀ y ∈ g.entryEdges nul x, y < g.size → y ∈ F) :
    SearchInv g nul order (marks.set! x .done, path) (x :: F) := by
  have hxs : x < g.size := hI.path_lt x List.mem_cons_self
  have hlt : x < marks.size := hI.size_eq ▸ hxs
  obtain ⟨hxp, hpnd⟩ := List.nodup_cons.mp hI.path_nodup
  -- The node is active, so it is not finished yet.
  have hxF : x ∉ F := fun h => by
    have hdone := (hI.done_iff x hxs).mpr h
    have hactive := (hI.active_iff x hxs).mpr List.mem_cons_self
    simp only at hdone hactive
    rw [hdone] at hactive
    cases hactive
  refine ⟨by simpa using hI.size_eq, fun y hy => ?_, fun y hy => ?_,
    List.nodup_cons.mpr ⟨hxF, hI.finished_nodup⟩, hpnd, ?_,
    fun y hy => hI.path_lt y (List.mem_cons_of_mem _ hy), ⟨hent, hI.ordered⟩⟩
  · rw [mark_set hlt]
    by_cases hxy : x = y
    · subst hxy
      simp
    · simpa [hxy, Ne.symm hxy] using hI.done_iff y hy
  · rw [mark_set hlt]
    by_cases hxy : x = y
    · subst hxy
      simp [hxp]
    · simpa [hxy, Ne.symm hxy] using hI.active_iff y hy
  · intro y hy
    rcases List.mem_cons.mp hy with rfl | hy
    · exact hxo
    · exact hI.finished_sub hy

/-! ## Visits -/

/-- What a visit with `depth` levels to spare does when it reports no cycle: it keeps the
invariant and the path, finishes more nodes, and finishes the node it visits. -/
def VisitNone (g : Grammar) (nul : Array Bool) (order : List NodeId) (depth : Nat) : Prop :=
  ∀ (x : NodeId) (st st' : Array Mark × List NodeId) (F : List NodeId),
    SearchInv g nul order st F → g.size + 1 ≤ depth + st.2.length → (x < g.size → x ∈ order) →
    g.visitEntries nul depth x st = (none, st') →
    ∃ F', SearchInv g nul order st' F' ∧ st'.2 = st.2 ∧ F <:+ F' ∧ (x < g.size → x ∈ F')

/-- Visits in turn that all report no cycle finish every node they visit. -/
theorem firstSome_visitEntries_none {depth : Nat} (hv : VisitNone g nul order depth) :
    ∀ (ys : List NodeId) (st st' : Array Mark × List NodeId) (F : List NodeId),
      SearchInv g nul order st F → g.size + 1 ≤ depth + st.2.length →
      (∀ y ∈ ys, y < g.size → y ∈ order) →
      firstSome (g.visitEntries nul depth) ys st = (none, st') →
      ∃ F', SearchInv g nul order st' F' ∧ st'.2 = st.2 ∧ F <:+ F' ∧
        ∀ y ∈ ys, y < g.size → y ∈ F'
  -- Induction on the list of tries: each try that finds nothing hands its finished list on.
  | [], st, st', F, hI, _, _, h => by
    simp only [firstSome, Prod.mk.injEq, true_and] at h
    subst h
    exact ⟨F, hI, rfl, List.suffix_refl F, by simp⟩
  | y :: ys, st, st', F, hI, hd, hys, h => by
    unfold firstSome at h
    rcases hy : g.visitEntries nul depth y st with ⟨_ | cycle, st₁⟩
    · simp only [hy] at h
      obtain ⟨F₁, hI₁, hp₁, hF₁, hyF₁⟩ := hv y st st₁ F hI hd (hys y List.mem_cons_self) hy
      obtain ⟨F₂, hI₂, hp₂, hF₂, hysF₂⟩ := firstSome_visitEntries_none hv ys st₁ st' F₁ hI₁
        (hp₁ ▸ hd) (fun z hz => hys z (List.mem_cons_of_mem _ hz)) h
      refine ⟨F₂, hI₂, hp₂.trans hp₁, hF₁.trans hF₂, fun z hz hzs => ?_⟩
      rcases List.mem_cons.mp hz with rfl | hz
      · exact hF₂.subset (hyF₁ hzs)
      · exact hysF₂ z hz hzs
    · simp [hy] at h

/-- Every visit that reports no cycle behaves as `VisitNone` says: the depth it is given
never runs out, since each level makes one more node active. -/
theorem visitNone (hcl : g.ChildClosed order) : ∀ depth, VisitNone g nul order depth
  | 0 => by
    -- No depth is left only where the path would hold more nodes than the graph has.
    intro x st st' F hI hd _ _
    have := hI.length_path_le
    omega
  | depth + 1 => by
    intro x ⟨marks, path⟩ st' F hI hd hxo h
    simp only [visitEntries] at h
    cases hm : marks[x]?.getD .done with
    | done =>
      simp only [hm, Prod.mk.injEq, true_and] at h
      subst h
      exact ⟨F, hI, rfl, List.suffix_refl F, fun hxs => (hI.done_iff x hxs).mp hm⟩
    | active =>
      -- An active node is on the path, so reaching it closes a cycle.
      have hxs : x < g.size := hI.size_eq ▸ lt_size_of_mark_ne_done (by simp [hm])
      have hxp : x ∈ path := (hI.active_iff x hxs).mp hm
      simp [hm, closeCycle, hxp] at h
    | fresh =>
      -- The node goes on the path, its entry edges are visited one level down, and it leaves
      -- the path finished, after everything it enters.
      have hxs : x < g.size := hI.size_eq ▸ lt_size_of_mark_ne_done (by simp [hm])
      have hxo' : x ∈ order := hxo hxs
      have hsub : ∀ y ∈ g.entryEdges nul x, y < g.size → y ∈ order := fun y hy hys =>
        hcl x hxo' y (mem_children_of_mem_entryEdges hy) hys
      simp only [hm] at h
      rcases hf : firstSome (g.visitEntries nul depth) (g.entryEdges nul x)
          (marks.set! x .active, x :: path) with ⟨_ | cycle, marks₂, path₂⟩
      · simp only [hf, Prod.mk.injEq, true_and] at h
        subst h
        obtain ⟨F₂, hI₂, hp₂, hF₂, hent⟩ := firstSome_visitEntries_none (visitNone hcl depth)
          _ _ _ F (hI.enter hm) (by simp only [List.length_cons] at hd ⊢; omega) hsub hf
        simp only at hp₂
        subst hp₂
        exact ⟨x :: F₂, hI₂.leave hxo' hent, rfl, hF₂.trans (List.suffix_cons x F₂),
          fun _ => List.mem_cons_self⟩
      · simp only [hf] at h
        cases h

/-! ## The rank -/

/-- A rank on the nodes of `order` that every entry edge between them lowers, between one and
the length of `order`. -/
structure EntryRank (g : Grammar) (order : List NodeId) (nul : Array Bool)
    (rank : NodeId → Nat) : Prop where
  pos : ∀ x ∈ order, x < g.size → 1 ≤ rank x
  le_length : ∀ x ∈ order, x < g.size → rank x ≤ order.length
  lowers : ∀ x ∈ order, x < g.size → ∀ y ∈ g.entryEdges nul x, y < g.size → rank y < rank x

/-- A search that finds no cycle among a list of nodes closed under child edges ranks them so
that every entry edge lowers the rank: the rank at which the search finished each node. -/
theorem exists_entryRank (hcl : g.ChildClosed order) (h : g.findLeftRecursion order nul = none) :
    ∃ rank, g.EntryRank order nul rank := by
  unfold findLeftRecursion at h
  rcases hf : firstSome (g.visitEntries nul (g.size + 1)) order
      (Array.replicate g.size .fresh, []) with ⟨cycle, st⟩
  rw [hf] at h
  subst h
  obtain ⟨F, hI, -, -, hall⟩ := firstSome_visitEntries_none (visitNone hcl (g.size + 1)) order _ _
    [] searchInv_init (by simp) (fun y hy _ => hy) hf
  have hlen : F.length ≤ order.length := (hI.finished_nodup.subperm hI.finished_sub).length_le
  refine ⟨finishRank F, fun x hx hxs => one_le_finishRank (hall x hx hxs),
    fun x _ _ => (finishRank_le F x).trans hlen, fun x hx hxs y hy hys => ?_⟩
  exact finishRank_lt hI.ordered hI.finished_nodup (hall x hx hxs) hy hys

end Grammar

end Tokenweave
