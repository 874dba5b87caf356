import Tokenweave.Proofs.LeftRecursion
/-!
# The search for left recursion is exact

Main statement (`findLeftRecursion_exact`): over a list of nodes closed under child edges, with
any nullable marking, `Grammar.findLeftRecursion` reports a cycle exactly when the entry edges
between nodes of the list contain one, and what it reports is such a cycle: at least one edge
long, ending where it starts, each node entering the next.

Entry edges are stated here without the search's list operations (`Shape.Enters`): a sequence
enters a part that only nullable parts precede, a choice each alternative, and a repetition, an
optional or a negation its body. `Shape.mem_entryEdges_iff` says that `Shape.entryEdges` lists
exactly these.

A reported cycle is closed from the search's path. While a node is visited, the path of active
nodes, oldest first, followed by that node is a walk along entry edges; reaching a node that is
still active cuts the cycle out of that walk (`closeCycle_entryCycle`). Visits that find nothing
give the path back as it was (`visitNone`), so the walk property holds at every visit
(`visitSome`). In the other direction, a search that finds nothing ranks the nodes so that every
entry edge lowers the rank (`exists_entryRank`), and no cycle can lower a rank all the way round.
-/

set_option autoImplicit false

namespace Tokenweave

/-! ## Entry edges, declaratively -/

/-- `Enters nul sh c`: a node of shape `sh` may try `c` before consuming anything, reading
nullability from `nul`. -/
inductive Shape.Enters (nul : NodeId → Bool) : Shape → NodeId → Prop
  | seq {pre post : List NodeId} {c : NodeId} :
      (∀ y ∈ pre, nul y = true) → Shape.Enters nul (.seq (pre ++ c :: post)) c
  | choice {alternatives : List NodeId} {c : NodeId} :
      c ∈ alternatives → Shape.Enters nul (.choice alternatives) c
  | oneOrMore (body : NodeId) : Shape.Enters nul (.oneOrMore body) body
  | optional (body : NodeId) : Shape.Enters nul (.optional body) body
  | notFollowedBy (body : NodeId) : Shape.Enters nul (.notFollowedBy body) body

/-- A part listed by the entry edges of a sequence follows only nullable parts. -/
theorem exists_nullable_before {nul : NodeId → Bool} {c : NodeId} :
    ∀ {parts : List NodeId},
      c ∈ parts.takeWhile nul ++ (parts.drop (parts.takeWhile nul).length).take 1 →
      ∃ pre post, parts = pre ++ c :: post ∧ ∀ y ∈ pre, nul y = true
  | [], h => by simp at h
  | a :: rest, h => by
    by_cases ha : nul a = true
    · rw [List.takeWhile_cons_of_pos ha, List.length_cons, List.drop_succ_cons,
        List.cons_append, List.mem_cons] at h
      rcases h with rfl | h
      · exact ⟨[], rest, rfl, by simp⟩
      · obtain ⟨pre, post, rfl, hpre⟩ := exists_nullable_before h
        refine ⟨a :: pre, post, rfl, fun y hy => ?_⟩
        rcases List.mem_cons.mp hy with rfl | hy
        · exact ha
        · exact hpre y hy
    · -- A part that is not nullable ends the list at itself.
      rw [List.takeWhile_cons_of_neg ha] at h
      simp only [List.length_nil, List.drop_zero, List.nil_append, List.take_succ_cons,
        List.take_zero, List.mem_singleton] at h
      subst h
      exact ⟨[], rest, rfl, by simp⟩

/-- The entry edges of a shape are exactly the children it enters. -/
theorem Shape.mem_entryEdges_iff {nul : NodeId → Bool} {sh : Shape} {c : NodeId} :
    c ∈ sh.entryEdges nul ↔ sh.Enters nul c := by
  constructor
  · intro h
    cases sh with
    | seq parts =>
      obtain ⟨pre, post, rfl, hpre⟩ := exists_nullable_before h
      exact .seq hpre
    | choice alternatives => exact .choice h
    | oneOrMore body =>
      rw [List.mem_singleton.mp h]
      exact .oneOrMore body
    | optional body =>
      rw [List.mem_singleton.mp h]
      exact .optional body
    | notFollowedBy body =>
      rw [List.mem_singleton.mp h]
      exact .notFollowedBy body
    | literal | charSet | charRange | endOfInput | ref => simp [Shape.entryEdges] at h
  · intro h
    cases h with
    | seq hpre => exact mem_entryEdges_seq hpre
    | choice hc => exact hc
    | oneOrMore | optional | notFollowedBy => simp [Shape.entryEdges]

namespace Grammar

variable {g : Grammar} {nul : Array Bool} {order : List NodeId}

theorem mem_entryEdges_iff {x y : NodeId} :
    y ∈ g.entryEdges nul x ↔ ∃ sh, g.shape? x = some sh ∧ sh.Enters (marked nul) y := by
  unfold entryEdges
  cases g.shape? x with
  | none => simp
  | some sh => simp [Shape.mem_entryEdges_iff]

/-- An entry edge between two nodes of `order`. -/
def EntryEdge (g : Grammar) (nul : Array Bool) (order : List NodeId) (x y : NodeId) : Prop :=
  x ∈ order ∧ y ∈ order ∧ ∃ sh, g.shape? x = some sh ∧ sh.Enters (marked nul) y

/-- A node with an entry edge out of it is a node of the graph. -/
theorem EntryEdge.lt_size {x y : NodeId} (h : g.EntryEdge nul order x y) : x < g.size := by
  obtain ⟨-, -, sh, hsh, -⟩ := h
  exact lt_size_of_shape? hsh

/-- A cycle of entry edges: at least one edge long, ending where it starts. -/
structure EntryCycle (g : Grammar) (nul : Array Bool) (order : List NodeId) (cycle : List NodeId) :
    Prop where
  two_le_length : 2 ≤ cycle.length
  head_eq_last : cycle.head? = cycle.getLast?
  chain : cycle.IsChain (g.EntryEdge nul order)

/-- A cycle of entry edges takes its first node back to itself. -/
theorem EntryCycle.transGen {cycle : List NodeId} (hc : g.EntryCycle nul order cycle) :
    ∃ x, Relation.TransGen (g.EntryEdge nul order) x x := by
  obtain ⟨two_le, hends, hchain⟩ := hc
  rcases cycle with _ | ⟨v, _ | ⟨w, rest⟩⟩
  · simp at two_le
  · simp at two_le
  obtain ⟨hvw, hrest⟩ := List.isChain_cons_cons.mp hchain
  -- The walk from the second node ends at the last node, which is the first.
  have hlast : (w :: rest).getLast (List.cons_ne_nil _ _) = v := by
    simp only [List.head?_cons, List.getLast?_cons_cons] at hends
    rw [List.getLast?_eq_some_getLast (List.cons_ne_nil _ _)] at hends
    exact (Option.some.inj hends).symm
  exact ⟨v, Relation.TransGen.head' hvw
    (List.relationReflTransGen_of_exists_isChain_cons rest hrest hlast)⟩

/-! ## A reported cycle is a cycle -/

/-- Reaching an active node on a walk along entry edges cuts a cycle out of the walk: from the
node's place on the path to its second arrival. -/
theorem closeCycle_entryCycle {path : List NodeId} {x : NodeId} {cycle : List NodeId}
    (hnd : path.Nodup) (hwalk : (x :: path).reverse.IsChain (g.EntryEdge nul order))
    (h : closeCycle path x = some cycle) : g.EntryCycle nul order cycle := by
  unfold closeCycle at h
  split at h
  · rename_i hx
    obtain ⟨pre, post, rfl⟩ := List.append_of_mem (List.elem_iff.mp hx)
    have hxpre : x ∉ pre := fun hx' =>
      (List.nodup_cons.mp (List.nodup_middle.mp hnd)).1 (List.mem_append_left post hx')
    -- Everything newer than `x` on the path is kept, in order from `x` on.
    have htake : (pre ++ x :: post).takeWhile (· != x) = pre := by
      refine (List.takeWhile_append_of_pos fun y hy => ?_).trans ?_
      · simp only [bne_iff_ne, ne_eq]
        rintro rfl
        exact hxpre hy
      · rw [List.takeWhile_cons_of_neg (by simp), List.append_nil]
    rw [htake] at h
    cases h
    refine ⟨by simp, by simp [List.getLast?_cons], ?_⟩
    apply hwalk.suffix
    exact ⟨post.reverse, by simp⟩
  · cases h

/-- What a visit with `depth` levels to spare reports, when it reports a cycle, provided the path
followed by the visited node is a walk along entry edges: a cycle of entry edges. -/
def VisitSome (g : Grammar) (nul : Array Bool) (order : List NodeId) (depth : Nat) : Prop :=
  ∀ (x : NodeId) (st st' : Array Mark × List NodeId) (F cycle : List NodeId),
    SearchInv g nul order st F → g.size + 1 ≤ depth + st.2.length → (x < g.size → x ∈ order) →
    (x < g.size → (x :: st.2).reverse.IsChain (g.EntryEdge nul order)) →
    g.visitEntries nul depth x st = (some cycle, st') → g.EntryCycle nul order cycle

/-- Visits in turn report only cycles of entry edges, when each visit is reached along one: the
visits before the reporting one give the path back as it was. -/
theorem firstSome_visitEntries_some {depth : Nat} (hn : VisitNone g nul order depth)
    (hs : VisitSome g nul order depth) :
    ∀ (ys : List NodeId) (st st' : Array Mark × List NodeId) (F cycle : List NodeId),
      SearchInv g nul order st F → g.size + 1 ≤ depth + st.2.length →
      (∀ y ∈ ys, y < g.size → y ∈ order) →
      (∀ y ∈ ys, y < g.size → (y :: st.2).reverse.IsChain (g.EntryEdge nul order)) →
      firstSome (g.visitEntries nul depth) ys st = (some cycle, st') →
      g.EntryCycle nul order cycle
  | [], _, _, _, _, _, _, _, _, h => by simp [firstSome] at h
  | y :: ys, st, st', F, cycle, hI, hd, hys, hwalk, h => by
    unfold firstSome at h
    rcases hy : g.visitEntries nul depth y st with ⟨_ | found, st₁⟩
    · simp only [hy] at h
      obtain ⟨F₁, hI₁, hp₁, -, -⟩ := hn y st st₁ F hI hd (hys y List.mem_cons_self) hy
      rw [← hp₁] at hd hwalk
      exact firstSome_visitEntries_some hn hs ys st₁ st' F₁ cycle hI₁ hd
        (fun z hz => hys z (List.mem_cons_of_mem _ hz))
        (fun z hz => hwalk z (List.mem_cons_of_mem _ hz)) h
    · simp only [hy, Prod.mk.injEq, Option.some.injEq] at h
      rw [← h.1]
      exact hs y st st₁ F found hI hd (hys y List.mem_cons_self) (hwalk y List.mem_cons_self) hy

/-- Every visit reports only cycles of entry edges. -/
theorem visitSome (hcl : g.ChildClosed order) : ∀ depth, VisitSome g nul order depth
  | 0 => by
    intro x st st' F cycle _ _ _ _ h
    simp [visitEntries] at h
  | depth + 1 => by
    intro x st st' F cycle hI hd hxo hwalk h
    obtain ⟨marks, path⟩ := st
    simp only [visitEntries] at h
    cases hm : marks[x]?.getD .done with
    | done => simp [hm] at h
    | active =>
      have hxs : x < g.size := hI.size_eq ▸ lt_size_of_mark_ne_done (by simp [hm])
      simp only [hm, Prod.mk.injEq] at h
      exact closeCycle_entryCycle hI.path_nodup (hwalk hxs) h.1
    | fresh =>
      -- The entry edges of the node are visited with the node on top of the path; each one
      -- extends the walk by one edge.
      have hxs : x < g.size := hI.size_eq ▸ lt_size_of_mark_ne_done (by simp [hm])
      have hxo' : x ∈ order := hxo hxs
      have hsub : ∀ y ∈ g.entryEdges nul x, y < g.size → y ∈ order := fun y hy hys =>
        hcl x hxo' y (mem_children_of_mem_entryEdges hy) hys
      have hext : ∀ y ∈ g.entryEdges nul x, y < g.size →
          (y :: x :: path).reverse.IsChain (g.EntryEdge nul order) := by
        intro y hy hys
        obtain ⟨sh, hsh, hent⟩ := mem_entryEdges_iff.mp hy
        exact List.isChain_reverse.mpr
          (.cons_cons ⟨hxo', hsub y hy hys, sh, hsh, hent⟩ (List.isChain_reverse.mp (hwalk hxs)))
      simp only [hm] at h
      rcases hf : firstSome (g.visitEntries nul depth) (g.entryEdges nul x)
          (marks.set! x .active, x :: path) with ⟨_ | found, marks₂, path₂⟩
      · simp only [hf] at h
        cases h
      · simp only [hf, Prod.mk.injEq, Option.some.injEq] at h
        rw [← h.1]
        exact firstSome_visitEntries_some (visitNone hcl depth) (visitSome hcl depth) _ _ _ F
          found (hI.enter hm) (by simp only [List.length_cons] at hd ⊢; omega) hsub hext hf

/-- A cycle reported by the search is a cycle of entry edges among the nodes of `order`. -/
theorem findLeftRecursion_entryCycle (hcl : g.ChildClosed order) {cycle : List NodeId}
    (h : g.findLeftRecursion order nul = some cycle) : g.EntryCycle nul order cycle := by
  unfold findLeftRecursion at h
  rcases hf : firstSome (g.visitEntries nul (g.size + 1)) order
      (Array.replicate g.size .fresh, []) with ⟨found, st⟩
  rw [hf] at h
  subst h
  exact firstSome_visitEntries_some (visitNone hcl _) (visitSome hcl _) order _ st [] cycle
    searchInv_init (by simp) (fun y hy _ => hy) (fun y _ _ => by simp) hf

/-! ## A search that reports nothing misses no cycle -/

/-- When the search reports nothing, no cycle of entry edges lies among the nodes of `order`:
the rank it gives them drops along every edge, so a path of edges cannot come back. -/
theorem not_transGen_of_findLeftRecursion_none (hcl : g.ChildClosed order)
    (h : g.findLeftRecursion order nul = none) (x : NodeId) :
    ¬ Relation.TransGen (g.EntryEdge nul order) x x := by
  obtain ⟨rank, hrank⟩ := exists_entryRank hcl h
  have hedge : ∀ a b, g.EntryEdge nul order a b → b < g.size → rank b < rank a := by
    intro a b hab hb
    obtain ⟨ha, -, sh, hsh, hent⟩ := hab
    exact hrank.lowers a ha (lt_size_of_shape? hsh) b (mem_entryEdges_iff.mpr ⟨sh, hsh, hent⟩) hb
  have hpath : ∀ a b, Relation.TransGen (g.EntryEdge nul order) a b → b < g.size →
      rank b < rank a := by
    intro a b hab hb
    induction hab with
    | single hab => exact hedge _ _ hab hb
    | tail _ hcb ih => exact lt_trans (hedge _ _ hcb hb) (ih hcb.lt_size)
  intro hx
  obtain ⟨y, hxy, -⟩ := Relation.TransGen.head'_iff.mp hx
  exact lt_irrefl _ (hpath x x hx hxy.lt_size)

/-- Over a list of nodes closed under child edges, the search for left recursion reports a
cycle exactly when the entry edges among them have one, and what it reports is one. -/
theorem findLeftRecursion_exact (hcl : g.ChildClosed order) :
    (∀ cycle, g.findLeftRecursion order nul = some cycle → g.EntryCycle nul order cycle) ∧
      ((g.findLeftRecursion order nul).isSome = true ↔
        ∃ x, Relation.TransGen (g.EntryEdge nul order) x x) := by
  refine ⟨fun _ => findLeftRecursion_entryCycle hcl, ⟨fun hsome => ?_, fun hcycle => ?_⟩⟩
  · obtain ⟨cycle, hc⟩ := Option.isSome_iff_exists.mp hsome
    exact (findLeftRecursion_entryCycle hcl hc).transGen
  · obtain ⟨x, hx⟩ := hcycle
    cases hf : g.findLeftRecursion order nul with
    | none => exact absurd hx (not_transGen_of_findLeftRecursion_none hcl hf x)
    | some _ => rfl

/-- `a ::= " "? b "x"` and `b ::= a "y" | "z"`: the rule `a` enters `b` past its nullable
padding, and `b` enters `a` again. -/
def paddedPair : Grammar :=
  { nodes := #[{ shape := .literal " " }, { shape := .optional 0 },
      { shape := .seq [1, 5, 3], name := some "a" }, { shape := .literal "x" },
      { shape := .literal "y" }, { shape := .choice [6, 7], name := some "b" },
      { shape := .seq [2, 4] }, { shape := .literal "z" }] }

/-- The search is exact on the nodes reachable from `a`. -/
theorem paddedPair_search_exact :
    paddedPair.ChildClosed (paddedPair.reachable 2) ∧
      ((∀ cycle, paddedPair.findLeftRecursion (paddedPair.reachable 2)
          (paddedPair.nullable (paddedPair.reachable 2)) = some cycle →
          paddedPair.EntryCycle (paddedPair.nullable (paddedPair.reachable 2))
            (paddedPair.reachable 2) cycle) ∧
        ((paddedPair.findLeftRecursion (paddedPair.reachable 2)
            (paddedPair.nullable (paddedPair.reachable 2))).isSome = true ↔
          ∃ x, Relation.TransGen (paddedPair.EntryEdge (paddedPair.nullable
            (paddedPair.reachable 2)) (paddedPair.reachable 2)) x x)) :=
  ⟨childClosed_reachable 2, findLeftRecursion_exact (childClosed_reachable 2)⟩

/-- With only the padding nullable, the cycle found runs from `a` through `b` and its first
alternative back to `a`. -/
example : paddedPair.findLeftRecursion [2, 1, 0, 5, 6, 4, 7, 3]
    #[false, true, false, false, false, false, false, false] = some [2, 5, 6, 2] := by
  decide

end Grammar

end Tokenweave
