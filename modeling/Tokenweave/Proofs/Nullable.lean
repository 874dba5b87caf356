import Tokenweave.Proofs.Peg
import Tokenweave.Proofs.Reachable
import Tokenweave.Grammar.Nullable
/-!
# The nullable analysis is sound

Main statement (`marked_of_peg`): over a list of nodes closed under child edges, every node that
derives a success without consuming input is marked nullable by `Grammar.nullable`. The analysis
may mark more nodes than that (a negation is marked even where its body always succeeds); it
never marks fewer, which is what makes the validation of repetitions a guarantee.

The proof has two halves. The rounds stop at a marking that satisfies every node's equation
(`postFixed_nullable`): a round that marks nothing leaves such a marking behind, and every other
round marks one more node of the list, which can happen at most as often as the list is long.
Then a derivation of a zero-width success is read bottom-up against the equations
(`zeroWidth_of_peg`): its parts and rounds consume nothing either, so each one is marked before
the node that contains it.
-/

set_option autoImplicit false

namespace Tokenweave.Grammar

/-! ## Marks -/

theorem marked_set_self {a : Array Bool} {i : NodeId} (h : i < a.size) :
    marked (a.set! i true) i = true := by
  simp [marked, h]

theorem marked_set_of_marked {a : Array Bool} {i j : NodeId} (h : marked a j = true) :
    marked (a.set! i true) j = true := by
  unfold marked at h ⊢
  rw [Array.set!_eq_setIfInBounds, Array.getElem?_setIfInBounds]
  split
  · rename_i hij
    subst hij
    split
    · rfl
    · rename_i hlt
      simp [hlt] at h
  · exact h

/-! ## One round -/

/-- One step of a round: mark node `id` when its equation holds under the marks so far. -/
def nullableStep (g : Grammar) (acc : Array Bool × Bool) (id : NodeId) : Array Bool × Bool :=
  if marked acc.1 id then acc
  else match g.shape? id with
    | some s => if s.nullableBy (marked acc.1) then (acc.1.set! id true, true) else acc
    | none => acc

theorem nullableRound_eq (g : Grammar) (order : List NodeId) (nul : Array Bool) :
    g.nullableRound order nul = order.foldl g.nullableStep (nul, false) := rfl

variable {g : Grammar}

/-- A step never clears a mark. -/
theorem marked_nullableStep {acc : Array Bool × Bool} {id j : NodeId}
    (h : marked acc.1 j = true) : marked (g.nullableStep acc id).1 j = true := by
  unfold nullableStep
  split
  · exact h
  · split
    · split
      · exact marked_set_of_marked h
      · exact h
    · exact h

/-- A step that reports nothing changes nothing and keeps the flag; then the node is marked
already or its equation does not hold. -/
theorem nullableStep_unchanged {acc : Array Bool × Bool} {id : NodeId}
    (h : (g.nullableStep acc id).2 = false) :
    g.nullableStep acc id = acc ∧
      (marked acc.1 id = false → ∀ sh, g.shape? id = some sh →
        sh.nullableBy (marked acc.1) = false) := by
  unfold nullableStep at h ⊢
  split
  · rename_i hm
    exact ⟨rfl, fun hn => absurd hm (by simp [hn])⟩
  · split
    · rename_i s hs
      split
      · simp_all
      · rename_i hn
        refine ⟨rfl, fun _ sh hsh => ?_⟩
        rw [hs] at hsh
        cases hsh
        simpa using hn
    · rename_i hs
      exact ⟨rfl, fun _ sh hsh => by rw [hs] at hsh; cases hsh⟩

theorem size_nullableStep {acc : Array Bool × Bool} {id : NodeId} :
    (g.nullableStep acc id).1.size = acc.1.size := by
  unfold nullableStep
  split
  · rfl
  · split
    · split <;> simp
    · rfl

theorem lt_size_of_shape? {id : NodeId} {sh : Shape} (h : g.shape? id = some sh) : id < g.size := by
  simp only [shape?, get?, Option.map_eq_some_iff] at h
  obtain ⟨nd, hnd, -⟩ := h
  exact (Array.getElem?_eq_some_iff.mp hnd).1

/-- A step that raises the flag marks its node, unless the flag was up already. -/
theorem nullableStep_changed {acc : Array Bool × Bool} {id : NodeId}
    (hsize : acc.1.size = g.size) (h : (g.nullableStep acc id).2 = true) :
    acc.2 = true ∨ (marked acc.1 id = false ∧ marked (g.nullableStep acc id).1 id = true) := by
  unfold nullableStep at h ⊢
  split
  · exact .inl (by simpa [*] using h)
  · rename_i hm
    split
    · rename_i s hs
      split
      · have hlt : id < acc.1.size := hsize ▸ lt_size_of_shape? hs
        exact .inr ⟨by simpa using hm, by simpa using marked_set_self hlt⟩
      · exact .inl (by simpa [*] using h)
    · exact .inl (by simpa [*] using h)

/-! ## Rounds -/

/-- Every node of `order` whose equation holds under `nul` is marked by `nul`. -/
def PostFixed (g : Grammar) (order : List NodeId) (nul : Array Bool) : Prop :=
  ∀ x ∈ order, ∀ sh, g.shape? x = some sh → sh.nullableBy (marked nul) = true →
    marked nul x = true

theorem size_foldl_nullableStep :
    ∀ (l : List NodeId) (acc : Array Bool × Bool), (l.foldl g.nullableStep acc).1.size = acc.1.size
  | [], _ => rfl
  | x :: l, acc => by
    rw [List.foldl_cons, size_foldl_nullableStep l, size_nullableStep]

theorem marked_foldl_nullableStep :
    ∀ (l : List NodeId) (acc : Array Bool × Bool) (j : NodeId), marked acc.1 j = true →
      marked (l.foldl g.nullableStep acc).1 j = true
  | [], _, _, h => h
  | x :: l, acc, j, h => by
    rw [List.foldl_cons]
    exact marked_foldl_nullableStep l _ j (marked_nullableStep h)

/-- A pass that reports nothing changes nothing, and every node it passed over is marked already
or has an equation that does not hold. -/
theorem foldl_nullableStep_unchanged :
    ∀ (l : List NodeId) (acc : Array Bool × Bool), (l.foldl g.nullableStep acc).2 = false →
      l.foldl g.nullableStep acc = acc ∧
        ∀ x ∈ l, marked acc.1 x = false → ∀ sh, g.shape? x = some sh →
          sh.nullableBy (marked acc.1) = false
  | [], _, _ => ⟨rfl, fun _ hx => absurd hx List.not_mem_nil⟩
  | x :: l, acc, h => by
    rw [List.foldl_cons] at h ⊢
    obtain ⟨hrest, hl⟩ := foldl_nullableStep_unchanged l _ h
    rw [hrest] at h
    obtain ⟨hstep, hx⟩ := nullableStep_unchanged h
    rw [hstep] at hrest hl ⊢
    refine ⟨hrest, fun y hy => ?_⟩
    rcases List.mem_cons.mp hy with rfl | hy
    · exact hx
    · exact hl y hy

/-- A pass that raises the flag had it up already, or marked a node of the list. -/
theorem foldl_nullableStep_changed :
    ∀ (l : List NodeId) (acc : Array Bool × Bool), acc.1.size = g.size →
      (l.foldl g.nullableStep acc).2 = true →
        acc.2 = true ∨ ∃ x ∈ l, marked acc.1 x = false ∧ marked (l.foldl g.nullableStep acc).1 x = true
  | [], _, _, h => .inl h
  | x :: l, acc, hsize, h => by
    rw [List.foldl_cons] at h ⊢
    have hsize' : (g.nullableStep acc x).1.size = g.size := by rw [size_nullableStep, hsize]
    rcases foldl_nullableStep_changed l _ hsize' h with hflag | ⟨y, hy, hfalse, htrue⟩
    · rcases nullableStep_changed hsize hflag with hflag | ⟨hfalse, htrue⟩
      · exact .inl hflag
      · exact .inr ⟨x, List.mem_cons_self, hfalse, marked_foldl_nullableStep l _ x htrue⟩
    · refine .inr ⟨y, List.mem_cons_of_mem x hy, ?_, htrue⟩
      cases hm : marked acc.1 y
      · rfl
      · rw [marked_nullableStep hm] at hfalse
        cases hfalse

/-- A round that marks nothing leaves a marking that satisfies every equation. -/
theorem nullableRound_unchanged {order : List NodeId} {nul : Array Bool}
    (h : (g.nullableRound order nul).2 = false) :
    (g.nullableRound order nul).1 = nul ∧ g.PostFixed order nul := by
  rw [nullableRound_eq] at h ⊢
  obtain ⟨heq, hx⟩ := foldl_nullableStep_unchanged order (nul, false) h
  refine ⟨by rw [heq], fun x hmem sh hsh hn => ?_⟩
  cases hm : marked nul x
  · rw [hx x hmem hm sh hsh] at hn
    cases hn
  · rfl

/-- Among `l`, a stronger predicate that holds somewhere the weaker one fails counts more. -/
theorem countP_lt_of_mono {p q : NodeId → Bool} :
    ∀ (l : List NodeId), (∀ x ∈ l, p x = true → q x = true) →
      (∃ x ∈ l, p x = false ∧ q x = true) → l.countP p < l.countP q
  | [], _, ⟨_, hx, _⟩ => absurd hx List.not_mem_nil
  | a :: l, hmono, ⟨x, hx, hpx, hqx⟩ => by
    have hle : l.countP p ≤ l.countP q :=
      List.countP_mono_left fun y hy => hmono y (List.mem_cons_of_mem a hy)
    rw [List.countP_cons, List.countP_cons]
    rcases List.mem_cons.mp hx with rfl | hx
    · simp [hpx, hqx]
      omega
    · have hlt := countP_lt_of_mono l (fun y hy => hmono y (List.mem_cons_of_mem a hy))
        ⟨x, hx, hpx, hqx⟩
      by_cases hpa : p a = true
      · simp [hpa, hmono a List.mem_cons_self hpa]
        omega
      · simp [hpa]
        split <;> omega

/-- A round that marks something marks one more node of the list. -/
theorem nullableRound_grows {order : List NodeId} {nul : Array Bool} (hsize : nul.size = g.size)
    (h : (g.nullableRound order nul).2 = true) :
    order.countP (marked nul) < order.countP (marked (g.nullableRound order nul).1) := by
  rw [nullableRound_eq] at h ⊢
  apply countP_lt_of_mono order (fun x _ hx => marked_foldl_nullableStep order (nul, false) x hx)
  rcases foldl_nullableStep_changed order (nul, false) hsize h with hflag | hgrow
  · cases hflag
  · exact hgrow

/-- Rounds with more budget than the list has unmarked nodes end at a marking that satisfies
every equation. -/
theorem postFixed_nullableRounds (order : List NodeId) :
    ∀ (n : Nat) (nul : Array Bool), nul.size = g.size →
      order.length < n + order.countP (marked nul) → g.PostFixed order (g.nullableRounds order n nul)
  | 0, nul, _, hn => by
    have := List.countP_le_length (p := marked nul) (l := order)
    omega
  | n + 1, nul, hsize, hn => by
    rw [nullableRounds]
    cases hr : g.nullableRound order nul with
    | mk nul' flag =>
      cases flag with
      | true =>
        have hgrow := nullableRound_grows hsize (by rw [hr])
        rw [hr] at hgrow
        dsimp only at hgrow
        have hsize' : nul'.size = g.size := by
          have := size_foldl_nullableStep (g := g) order (nul, false)
          rw [← nullableRound_eq, hr] at this
          rw [this, hsize]
        exact postFixed_nullableRounds order n nul' hsize' (by omega)
      | false =>
        have hflag : (g.nullableRound order nul).2 = false := by rw [hr]
        obtain ⟨heq, hpost⟩ := nullableRound_unchanged hflag
        rw [hr] at heq
        simp only at heq ⊢
        rw [heq]
        exact hpost

/-- The nullable marking satisfies every equation of the list it was solved over. -/
theorem postFixed_nullable (order : List NodeId) : g.PostFixed order (g.nullable order) :=
  postFixed_nullableRounds order _ _ (by simp [size]) (by omega)

/-! ## Soundness -/

/-- Child edges of the nodes of `order` that point at nodes stay inside `order`. -/
def ChildClosed (g : Grammar) (order : List NodeId) : Prop :=
  ∀ x ∈ order, ∀ c ∈ g.children x, c < g.size → c ∈ order

theorem childClosed_reachable (r : NodeId) : g.ChildClosed (g.reachable r) :=
  fun _ hx _ hc hlt => reachable_closed hx hc hlt

/-- What a success that consumes nothing says about the marks, goal by goal. -/
def ZeroWidth (g : Grammar) (order : List NodeId) (nul : Array Bool) : Goal → Prop
  | .node x => x ∈ order → marked nul x = true
  | .shape sh => (∀ c ∈ sh.children, c < g.size → c ∈ order) → sh.nullableBy (marked nul) = true
  | .parts cs => (∀ c ∈ cs, c < g.size → c ∈ order) → ∀ c ∈ cs, marked nul c = true
  | .alternatives as => (∀ c ∈ as, c < g.size → c ∈ order) → ∃ a ∈ as, marked nul a = true
  | .rounds _ => True

section Soundness

variable {s : String} {order : List NodeId} {nul : Array Bool}

/-- A derivation of a zero-width success, read against a marking that satisfies the equations:
every node on it that belongs to the list is marked. -/
theorem zeroWidth_of_peg (hc : g.ChildClosed order) (hf : g.PostFixed order nul) {e : Goal}
    {p : Nat} {r : Option Nat} (h : Peg g s e p r) : r = some p → ZeroWidth g order nul e := by
  induction h with
  | absent | oneOrMoreFail | notFollowedByFail | partsFail | alternativesNil =>
    intro hr
    cases hr
  | @node id nd p r hn _ ih =>
    intro hr hx
    apply hf id hx nd.shape (by simp [shape?, hn])
    apply ih hr
    intro c hcm hlt
    exact hc id hx c (by simp [children, hn, hcm]) hlt
  | @literal t p =>
    intro hr _
    split at hr
    · have hzero : t.utf8ByteSize = 0 := by
        have := Option.some.inj hr
        omega
      simp [Shape.nullableBy, String.isEmpty_iff_utf8ByteSize_eq_zero.mpr hzero]
    · cases hr
  | charSet | charRange =>
    intro hr _
    obtain ⟨c, -, -, hq⟩ := Shape.charEnd_eq_some hr
    have := c.utf8Size_pos
    omega
  | seq _ ih =>
    intro hr hcl
    exact List.all_eq_true.mpr (ih hr hcl)
  | choice _ ih =>
    intro hr hcl
    exact List.any_eq_true.mpr (ih hr hcl)
  | @oneOrMore body p q r h₁ h₂ ih₁ _ =>
    intro hr hcl
    subst hr
    -- The rounds after the first end where the first began, so the first consumed nothing.
    have hq : q = p := Nat.le_antisymm (Peg.le_of_some h₂) (Peg.le_of_some h₁)
    subst hq
    exact ih₁ rfl (hcl body (by simp [Shape.children]) (Peg.lt_size_of_some h₁))
  | optional | optionalEmpty | notFollowedBy | endOfInput =>
    intro _ _
    rfl
  | partsNil =>
    intro _ _ c hc
    exact absurd hc List.not_mem_nil
  | roundsStop | roundsNext =>
    intro _
    trivial
  | @partsCons c cs p q r h₁ h₂ ih₁ ih₂ =>
    intro hr hcl
    subst hr
    have hq : q = p := Nat.le_antisymm (Peg.le_of_some h₂) (Peg.le_of_some h₁)
    subst hq
    intro y hy
    rcases List.mem_cons.mp hy with rfl | hy
    · exact ih₁ rfl (hcl y List.mem_cons_self (Peg.lt_size_of_some h₁))
    · exact ih₂ rfl (fun z hz => hcl z (List.mem_cons_of_mem c hz)) y hy
  | @alternativesHit a as p q h₁ ih =>
    intro hr hcl
    cases hr
    exact ⟨a, List.mem_cons_self, ih rfl (hcl a List.mem_cons_self (Peg.lt_size_of_some h₁))⟩
  | @alternativesNext a as p r _ _ _ ih₂ =>
    intro hr hcl
    obtain ⟨b, hb, hm⟩ := ih₂ hr (fun z hz => hcl z (List.mem_cons_of_mem a hz))
    exact ⟨b, List.mem_cons_of_mem a hb, hm⟩

/-- A node of a child-closed list that succeeds without consuming input is marked nullable. -/
theorem marked_of_peg (hc : g.ChildClosed order) {x p : Nat} (h : Peg g s (.node x) p (some p))
    (hx : x ∈ order) : marked (g.nullable order) x = true :=
  zeroWidth_of_peg hc (postFixed_nullable order) h rfl hx

end Soundness

end Tokenweave.Grammar
