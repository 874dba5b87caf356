import Tokenweave.Proofs.Nullable
import Tokenweave.Proofs.Stripped
/-!
# The nullable analysis is the least solution of its equations

`Grammar.nullable g order` solves one equation per node of `order` by rounds. Main statement
(`nullable_least_sound`), over the nodes reachable from a root:

* the rounds stop by themselves: every round but the last marks one more node of the list, so at
  most one round more than the list has nodes is ever taken;
* the marking they stop at satisfies every equation of the list, marks nothing outside it, and
  lies below every marking closed under the equations: it is the least solution;
* every node that the matcher matches without consuming input, in any run on any text and at any
  offset, is marked.

Leastness is an invariant of the rounds. A node is marked only when its equation holds under
marks that all lie below the closed marking, and the equations are monotone
(`Shape.nullableBy_mono`), so the new mark lies below it too. That the marked nodes satisfy their
equations, and that nothing outside the list is marked, are leastness again, against two closed
markings built from the result. Soundness reads a parse of no width bottom-up (`Produces`), so it
needs no bound on the offset, unlike the semantic soundness of `marked_of_peg`.
-/

set_option autoImplicit false

namespace Tokenweave

/-- The equations only grow with the marks they read. -/
theorem Shape.nullableBy_mono {f f' : NodeId → Bool} (h : ∀ c, f c = true → f' c = true) :
    ∀ sh : Shape, sh.nullableBy f = true → sh.nullableBy f' = true
  | .literal _, hs | .optional _, hs | .notFollowedBy _, hs | .endOfInput, hs => hs
  | .charSet .., hs | .charRange .., hs | .ref _, hs => hs
  | .seq parts, hs => by
    simp only [nullableBy, List.all_eq_true] at hs ⊢
    exact fun c hc => h c (hs c hc)
  | .choice alternatives, hs => by
    simp only [nullableBy, List.any_eq_true] at hs ⊢
    obtain ⟨c, hc, hfc⟩ := hs
    exact ⟨c, hc, h c hfc⟩
  | .oneOrMore body, hs => h body hs

/-- What a parse without parts covers from `p` to `p` makes its shape's equation hold, whatever
the marks: only an empty literal, an empty sequence, an optional, a negation and the end of
input cover nothing. -/
theorem Shape.nullableBy_of_covers {s : String} {p : Nat} (f : NodeId → Bool) :
    ∀ sh : Shape, sh.Covers s p p → sh.nullableBy f = true
  | .literal t, ⟨_, hq⟩ => by
    have hzero : t.utf8ByteSize = 0 := by omega
    simp [nullableBy, String.isEmpty_iff_utf8ByteSize_eq_zero.mpr hzero]
  | .charSet .., hc | .charRange .., hc => by
    obtain ⟨c, -, -, hq⟩ := charEnd_eq_some hc
    have := c.utf8Size_pos
    omega
  | .seq parts, ⟨hnil, _⟩ => by simp [nullableBy, hnil]
  | .optional _, _ | .notFollowedBy _, _ | .endOfInput, _ => rfl

namespace Grammar

variable {g : Grammar} {order : List NodeId}

/-! ## Marks -/

theorem marked_set_true {a : Array Bool} {i j : NodeId} :
    marked (a.set! i true) j = true ↔ (j = i ∧ i < a.size) ∨ marked a j = true := by
  unfold marked
  rw [Array.set!_eq_setIfInBounds, Array.getElem?_setIfInBounds]
  by_cases hij : i = j
  · subst hij
    by_cases hlt : i < a.size <;> simp [hlt]
  · simp [hij, Ne.symm hij]

theorem shape?_eq_of_get? {x : NodeId} {nd : Node} (h : g.get? x = some nd) :
    g.shape? x = some nd.shape := by
  simp [shape?, h]

theorem marked_replicate_false {n : Nat} {x : NodeId} :
    marked (Array.replicate n false) x = false := by
  unfold marked
  by_cases hx : x < n <;> simp [hx]

/-- A marking of every node closed under the equations of `order`: each node of the list whose
equation holds is marked. -/
def Closed (g : Grammar) (order : List NodeId) (f : NodeId → Bool) : Prop :=
  ∀ x ∈ order, ∀ sh, g.shape? x = some sh → sh.nullableBy f = true → f x = true

/-- The marks of `nul` all lie below `f`. -/
def Below (f : NodeId → Bool) (nul : Array Bool) : Prop :=
  ∀ x, marked nul x = true → f x = true

/-! ## Leastness, step by step -/

section Least

variable {f : NodeId → Bool} (hf : g.Closed order f)
include hf

/-- A step over a node of the list keeps the marks below a closed marking. -/
theorem below_nullableStep {acc : Array Bool × Bool} {id : NodeId} (hid : id ∈ order)
    (hb : Below f acc.1) : Below f (g.nullableStep acc id).1 := by
  unfold nullableStep
  split
  · exact hb
  · split
    · rename_i sh hsh
      split
      · rename_i hn
        -- The new mark is justified by marks that already lie below `f`.
        intro x hx
        rcases marked_set_true.mp hx with ⟨rfl, -⟩ | hx
        · exact hf x hid sh hsh (Shape.nullableBy_mono hb sh hn)
        · exact hb x hx
      · exact hb
    · exact hb

theorem below_foldl_nullableStep :
    ∀ (l : List NodeId), (∀ x ∈ l, x ∈ order) → ∀ (acc : Array Bool × Bool), Below f acc.1 →
      Below f (l.foldl g.nullableStep acc).1
  | [], _, _, hb => hb
  | x :: l, hl, acc, hb => by
    rw [List.foldl_cons]
    exact below_foldl_nullableStep l (fun y hy => hl y (List.mem_cons_of_mem x hy)) _
      (below_nullableStep hf (hl x List.mem_cons_self) hb)

theorem below_nullableRounds :
    ∀ (n : Nat) (nul : Array Bool), Below f nul → Below f (g.nullableRounds order n nul)
  | 0, _, hb => hb
  | n + 1, nul, hb => by
    have hround : Below f (g.nullableRound order nul).1 := by
      rw [nullableRound_eq]
      exact below_foldl_nullableStep hf order (fun _ hx => hx) _ hb
    rw [nullableRounds]
    cases hr : g.nullableRound order nul with
    | mk nul' flag =>
      rw [hr] at hround
      cases flag with
      | true => exact below_nullableRounds n nul' hround
      | false => exact hround

/-- The nullable marking lies below every marking closed under the equations of its list. -/
theorem below_nullable : Below f (g.nullable order) :=
  below_nullableRounds hf _ _ fun _ hx => by rw [marked_replicate_false] at hx; cases hx

end Least

/-- Nothing outside the list is marked nullable. -/
theorem mem_of_marked_nullable {x : NodeId} (hx : marked (g.nullable order) x = true) :
    x ∈ order := by
  have hclosed : g.Closed order (fun y => decide (y ∈ order)) := fun y hy _ _ _ => by simpa using hy
  simpa using below_nullable hclosed x hx

/-- Every node marked nullable has its equation hold under the nullable marking. -/
theorem nullableBy_of_marked {x : NodeId} {sh : Shape} (hsh : g.shape? x = some sh)
    (hx : marked (g.nullable order) x = true) : sh.nullableBy (marked (g.nullable order)) = true := by
  -- The nodes of the list whose equation holds under the result form a closed marking: whatever
  -- they mark is marked by the result, which satisfies every equation it reads.
  let F := fun y => decide (y ∈ order) && (g.shape? y).any (·.nullableBy (marked (g.nullable order)))
  have hle : ∀ y, F y = true → marked (g.nullable order) y = true := by
    intro y hy
    simp only [F, Bool.and_eq_true, decide_eq_true_eq, Option.any_eq_true] at hy
    obtain ⟨hmem, sh', hsh', hn⟩ := hy
    exact postFixed_nullable order y hmem sh' hsh' hn
  have hclosed : g.Closed order F := by
    intro y hy sh' hsh' hn
    simp only [F, Bool.and_eq_true, decide_eq_true_eq, Option.any_eq_true]
    exact ⟨hy, sh', hsh', Shape.nullableBy_mono hle sh' hn⟩
  have hFx := below_nullable hclosed x hx
  simp only [F, Bool.and_eq_true, decide_eq_true_eq, Option.any_eq_true] at hFx
  obtain ⟨-, sh', hsh', hn⟩ := hFx
  rw [hsh] at hsh'
  cases hsh'
  exact hn

/-- Over its list, the nullable marking is a solution of the equations. -/
theorem marked_nullable_eq {x : NodeId} (hx : x ∈ order) {sh : Shape} (hsh : g.shape? x = some sh) :
    marked (g.nullable order) x = sh.nullableBy (marked (g.nullable order)) := by
  cases hm : marked (g.nullable order) x with
  | true => exact (nullableBy_of_marked hsh hm).symm
  | false =>
    cases hn : sh.nullableBy (marked (g.nullable order)) with
    | false => rfl
    | true =>
      rw [postFixed_nullable order x hx sh hsh hn] at hm
      cases hm

/-! ## Rounds -/

/-- The marking after `k` rounds from no marks, each round taken whatever the one before
reported. -/
def nullableAfter (g : Grammar) (order : List NodeId) (k : Nat) : Array Bool :=
  (fun nul => (g.nullableRound order nul).1)^[k] (Array.replicate g.size false)

theorem size_nullableRound {nul : Array Bool} : (g.nullableRound order nul).1.size = nul.size := by
  rw [nullableRound_eq, size_foldl_nullableStep]

theorem size_nullableAfter (k : Nat) : (g.nullableAfter order k).size = g.size := by
  induction k with
  | zero => simp [nullableAfter, size]
  | succ k ih =>
    rw [nullableAfter, Function.iterate_succ_apply', size_nullableRound]
    exact ih

theorem nullableAfter_succ (k : Nat) :
    g.nullableAfter order (k + 1) = (g.nullableRound order (g.nullableAfter order k)).1 := by
  rw [nullableAfter, Function.iterate_succ_apply']
  rfl

/-- Rounds that each mark something mark one more node of the list each. -/
theorem le_countP_nullableAfter :
    ∀ k, (∀ j < k, (g.nullableRound order (g.nullableAfter order j)).2 = true) →
      k ≤ order.countP (marked (g.nullableAfter order k))
  | 0, _ => Nat.zero_le _
  | k + 1, h => by
    have ih := le_countP_nullableAfter k fun j hj => h j (Nat.lt_succ_of_lt hj)
    have hgrow := nullableRound_grows (size_nullableAfter k) (h k (Nat.lt_succ_self k))
    rw [nullableAfter_succ]
    omega

/-- While every round marks something, the rounds with budget `k + b` are `k` rounds followed
by the rounds with budget `b`. -/
theorem nullableRounds_add :
    ∀ k b, (∀ j < k, (g.nullableRound order (g.nullableAfter order j)).2 = true) →
      g.nullableRounds order (k + b) (Array.replicate g.size false) =
        g.nullableRounds order b (g.nullableAfter order k)
  | 0, b, _ => by rw [Nat.zero_add]; rfl
  | k + 1, b, h => by
    rw [show k + 1 + b = k + (b + 1) by omega,
      nullableRounds_add k (b + 1) fun j hj => h j (Nat.lt_succ_of_lt hj), nullableRounds,
      nullableAfter_succ]
    cases hr : g.nullableRound order (g.nullableAfter order k) with
    | mk nul flag =>
      have hflag := h k (Nat.lt_succ_self k)
      rw [hr] at hflag
      subst hflag
      rfl

/-- The rounds stop at the first round that marks nothing, and at most one round more than the
list has nodes is taken: `k` rounds that each mark something, then one that marks nothing, with
`k` no larger than the list. -/
theorem nullable_rounds_stop (order : List NodeId) :
    ∃ k ≤ order.length, (∀ j < k, (g.nullableRound order (g.nullableAfter order j)).2 = true) ∧
      (g.nullableRound order (g.nullableAfter order k)).2 = false ∧
      g.nullable order = g.nullableAfter order k := by
  have hex : ∃ k, (g.nullableRound order (g.nullableAfter order k)).2 = false ∧ k ≤ order.length := by
    -- Were the first rounds up to the list's length all to mark something, they would mark more
    -- nodes of the list than it has.
    by_contra hall
    have hmark : ∀ j < order.length + 1, (g.nullableRound order (g.nullableAfter order j)).2 = true :=
      fun j hj => Bool.not_eq_false _ |>.mp fun hj' => hall ⟨j, hj', by omega⟩
    have := le_countP_nullableAfter (g := g) (order.length + 1) hmark
    have := List.countP_le_length (p := marked (g.nullableAfter order (order.length + 1))) (l := order)
    omega
  classical
  refine ⟨Nat.find hex, (Nat.find_spec hex).2, fun j hj => ?_, (Nat.find_spec hex).1, ?_⟩
  · exact Bool.not_eq_false _ |>.mp fun hj' => Nat.find_min hex hj ⟨hj', by
      have := (Nat.find_spec hex).2
      omega⟩
  · have hfirst : ∀ j < Nat.find hex, (g.nullableRound order (g.nullableAfter order j)).2 = true :=
      fun j hj => Bool.not_eq_false _ |>.mp fun hj' => Nat.find_min hex hj ⟨hj', by
        have := (Nat.find_spec hex).2
        omega⟩
    have hle := (Nat.find_spec hex).2
    obtain ⟨b, hb⟩ : ∃ b, order.length + 1 = Nat.find hex + (b + 1) := ⟨order.length - Nat.find hex, by omega⟩
    rw [nullable, hb, nullableRounds_add _ _ hfirst, nullableRounds]
    cases hr : g.nullableRound order (g.nullableAfter order (Nat.find hex)) with
    | mk nul flag =>
      have hstop := (Nat.find_spec hex).1
      obtain ⟨heq, -⟩ := nullableRound_unchanged hstop
      rw [hr] at hstop heq
      subst hstop
      exact heq

/-! ## Soundness for the matcher -/

section Soundness

variable {s : String} {nul : Array Bool}

mutual
/-- A parse that consumes nothing comes from a node that a closed marking marks. -/
theorem Produces.marked_of_stop (hc : g.ChildClosed order) (hf : g.PostFixed order nul) :
    ∀ {a p : Nat} {q : Parsed}, Produces g s a p q → q.stop = p → a ∈ order → marked nul a = true
  | a, _, _, .leaf hnd hcov, hq, ha => by
    rw [Parsed.stop_mk] at hq
    subst hq
    exact hf a ha _ (shape?_eq_of_get? hnd) (Shape.nullableBy_of_covers _ _ hcov)
  | a, _, _, .seq hnd hsh hall, hq, ha => by
    have hparts := ProducesAll.marked_of_eq hc hf hall hq fun c hcm hlt =>
      hc a ha c (by simp [children, hnd, hsh, Shape.children, hcm]) hlt
    refine hf a ha _ (shape?_eq_of_get? hnd) ?_
    rw [hsh]
    exact List.all_eq_true.mpr hparts
  | a, _, _, .choice hnd hsh halt h, hq, ha => by
    rw [Parsed.stop_inherit] at hq
    have hmem := hc a ha _ (by simp [children, hnd, hsh, Shape.children, halt]) h.lt_size
    refine hf a ha _ (shape?_eq_of_get? hnd) ?_
    rw [hsh]
    exact List.any_eq_true.mpr ⟨_, halt, Produces.marked_of_stop hc hf h hq hmem⟩
  | a, _, _, @Produces.oneOrMore _ _ _ _ body _ _ _ hnd hsh hne hall, hq, ha => by
    have hbody : body ∈ List.replicate _ body :=
      List.mem_replicate.mpr ⟨fun h => hne (List.length_eq_zero_iff.mp h), rfl⟩
    have hparts := ProducesAll.marked_of_eq hc hf hall hq fun c hcm hlt => by
      rw [(List.mem_replicate.mp hcm).2] at hlt ⊢
      exact hc a ha body (by simp [children, hnd, hsh, Shape.children]) hlt
    refine hf a ha _ (shape?_eq_of_get? hnd) ?_
    rw [hsh]
    exact hparts body hbody
  | a, _, _, .optional hnd hsh _, _, ha => by
    refine hf a ha _ (shape?_eq_of_get? hnd) ?_
    rw [hsh]
    rfl

/-- Parts that follow each other without consuming anything come from marked nodes. -/
theorem ProducesAll.marked_of_eq (hc : g.ChildClosed order) (hf : g.PostFixed order nul) :
    ∀ {ids : List NodeId} {p : Nat} {cs : List Parsed} {q : Nat}, ProducesAll g s ids p cs q →
      q = p → (∀ c ∈ ids, c < g.size → c ∈ order) → ∀ c ∈ ids, marked nul c = true
  | _, _, _, _, .nil, _, _ => fun _ hcm => absurd hcm List.not_mem_nil
  | _, _, _, _, .cons h rest, hq, hids => by
    -- The first part ends where the parts end, which is where they began.
    have hstop : _ = _ := Nat.le_antisymm (hq ▸ rest.le) h.le_stop
    exact List.forall_mem_cons.mpr
      ⟨Produces.marked_of_stop hc hf h hstop (hids _ List.mem_cons_self h.lt_size),
        ProducesAll.marked_of_eq hc hf rest (hq.trans hstop.symm)
          fun c' hc' => hids c' (List.mem_cons_of_mem _ hc')⟩
end

end Soundness

/-- The nullable analysis is a terminating, sound least fixpoint. Over the nodes reachable from
`r`: the rounds stop after `k` rounds that each mark a node and one that marks nothing, with `k`
at most the number of reachable nodes; the marking has one entry per node; over the reachable
nodes it solves every equation, off them it marks nothing, and it lies below every marking closed
under the equations; and every node the matcher matches without consuming input, in any run, on
any text and at any offset, is marked. -/
theorem nullable_least_sound (g : Grammar) (r : NodeId) :
    (∃ k ≤ (g.reachable r).length,
      (∀ j < k, (g.nullableRound (g.reachable r) (g.nullableAfter (g.reachable r) j)).2 = true) ∧
      (g.nullableRound (g.reachable r) (g.nullableAfter (g.reachable r) k)).2 = false ∧
      g.nullable (g.reachable r) = g.nullableAfter (g.reachable r) k) ∧
    (g.nullable (g.reachable r)).size = g.size ∧
    (∀ x ∈ g.reachable r, ∀ sh, g.shape? x = some sh →
      marked (g.nullable (g.reachable r)) x = sh.nullableBy (marked (g.nullable (g.reachable r)))) ∧
    (∀ x, x ∉ g.reachable r → marked (g.nullable (g.reachable r)) x = false) ∧
    (∀ f : NodeId → Bool, g.Closed (g.reachable r) f →
      ∀ x, marked (g.nullable (g.reachable r)) x = true → f x = true) ∧
    (∀ (input : String) (traced : Bool) (d x q : Nat) (t : Parsed), x ∈ g.reachable r →
      MatchM.Answers ((Matching.mk g input traced).matchNode d x q) (some t) → t.stop = q →
      marked (g.nullable (g.reachable r)) x = true) := by
  refine ⟨nullable_rounds_stop _, ?_, fun x hx sh hsh => marked_nullable_eq hx hsh, fun x hx => ?_,
    fun f hf => below_nullable hf, fun input traced d x q t hx h hq => ?_⟩
  · obtain ⟨k, -, -, -, heq⟩ := nullable_rounds_stop (g := g) (g.reachable r)
    rw [heq]
    exact size_nullableAfter k
  · cases hm : marked (g.nullable (g.reachable r)) x with
    | false => rfl
    | true => exact absurd (mem_of_marked_nullable hm) hx
  · exact Produces.marked_of_stop (childClosed_reachable r) (postFixed_nullable _)
      (Matching.produces_matchNode d x q t h) hq hx

/-- An optional sign before a digit: the optional is nullable, and so is the sequence that
follows it with nothing but an empty literal; the digit and the outer sequence are not. -/
example : ((Grammar.mk #[{ shape := .seq [1, 3, 2] }, { shape := .optional 4 },
    { shape := .charRange '0' '9' false }, { shape := .seq [1, 5] }, { shape := .literal "-" },
    { shape := .literal "" }]).nullable [0, 1, 4, 3, 5, 2]).toList =
      [false, true, false, true, false, true] := by
  decide

end Grammar

end Tokenweave
