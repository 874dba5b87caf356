import Tokenweave.Proofs.Faults
import Tokenweave.Proofs.LeftRecursion
/-!
# Validated grammars terminate within known limits

Main statement (`matchAt_terminates_of_validate`): once `Grammar.validate` accepts a root, a
match from it nests at most `(|s| - p + 1) * |reachable root|` visits deep, so a depth limit of
that size is never exceeded, and with such a limit some finite amount of fuel always suffices
for the match to finish.

Depth: a visit at offset `q` makes sub-matches at offsets from `q` on (`Calls`). One at a later
offset leaves less of the text; one at the same offset follows an entry edge, because every part
of a sequence before it then succeeded in place and so is marked nullable (`marked_of_peg`).
The search for left recursion found no cycle of entry edges, so they are ranked
(`exists_entryRank`), and the measure `(|s| - q) * |reachable root| + rank` drops at every
level of nesting (`not_stops_depthExceeded`).

Fuel: a visit with `d` levels left makes at most `edgeCount + |s| + 1` sub-matches, each with
`d - 1` levels left, so `fuelBound d` units pay for it whatever the grammar (`spends_matchNode`).
-/

set_option autoImplicit false

namespace Tokenweave

namespace MatchM

variable {α β : Type}

/-- `x` pays at most `k` units of fuel: a run that finishes leaves at most `k` fewer, and a run
that stops for want of fuel started with fewer than `k`. -/
def Spends (x : MatchM α) (k : Nat) : Prop :=
  ∀ σ : Progress, (∀ a σ', x.run σ = .ok a σ' → σ.fuel ≤ σ'.fuel + k) ∧
    (∀ σ', x.run σ = .error .fuelExhausted σ' → σ.fuel < k)

theorem Spends.mono {x : MatchM α} {k k' : Nat} (h : Spends x k) (hk : k ≤ k') : Spends x k' :=
  fun σ => ⟨fun a σ' hr => by have := (h σ).1 a σ' hr; omega,
    fun σ' hr => by have := (h σ).2 σ' hr; omega⟩

theorem Spends.bind {x : MatchM α} {f : α → MatchM β} {k₁ k₂ : Nat} (hx : Spends x k₁)
    (hf : ∀ a, Spends (f a) k₂) : Spends (x >>= f) (k₁ + k₂) := by
  intro σ
  simp only [EStateM.run_bind]
  cases hrun : x.run σ with
  | ok a σ₁ =>
    have h₁ := (hx σ).1 a σ₁ hrun
    obtain ⟨hok, hfuel⟩ := hf a σ₁
    exact ⟨fun b σ' hr => by have := hok b σ' hr; omega,
      fun σ' hr => by have := hfuel σ' hr; omega⟩
  | error e σ₁ =>
    refine ⟨fun b σ' hr => ?_, fun σ' hr => ?_⟩
    · cases hr
    · cases hr
      have := (hx σ).2 σ₁ hrun
      omega

theorem Spends.zero_bind {x : MatchM α} {f : α → MatchM β} {k : Nat} (hx : Spends x 0)
    (hf : ∀ a, Spends (f a) k) : Spends (x >>= f) k :=
  (Spends.bind hx hf).mono (by omega)

theorem Spends.bind_zero {x : MatchM α} {f : α → MatchM β} {k : Nat} (hx : Spends x k)
    (hf : ∀ a, Spends (f a) 0) : Spends (x >>= f) k :=
  (Spends.bind hx hf).mono (by omega)

theorem Spends.ite {c : Prop} [Decidable c] {x y : MatchM α} {k : Nat} (hx : Spends x k)
    (hy : Spends y k) : Spends (if c then x else y) k := by
  split
  · exact hx
  · exact hy

/-- A step that may be preceded by an announcement costs what it costs alone. -/
theorem Spends.ite_bind {c : Prop} [Decidable c] {x : MatchM Unit} {f : Unit → MatchM α} {k : Nat}
    (hx : Spends x 0) (hf : Spends (f ()) k) : Spends (if c then x >>= f else f ()) k := by
  split
  · exact Spends.zero_bind hx fun _ => hf
  · exact hf

theorem spends_pure (a : α) : Spends (pure a : MatchM α) 0 := by
  intro σ
  refine ⟨fun _ _ hr => ?_, fun _ hr => ?_⟩
  · cases hr
    omega
  · cases hr

theorem spends_modify {f : Progress → Progress} (hf : ∀ σ, (f σ).fuel = σ.fuel) :
    Spends (modify f : MatchM PUnit) 0 := by
  intro σ
  refine ⟨fun _ _ hr => ?_, fun _ hr => ?_⟩
  · cases hr
    rw [hf]
    omega
  · cases hr

/-- A fault other than running out of fuel costs nothing. -/
theorem spends_throw {e : Fault} (he : e ≠ .fuelExhausted) : Spends (throw e : MatchM α) 0 := by
  intro σ
  refine ⟨fun _ _ hr => ?_, fun _ hr => ?_⟩
  · cases hr
  · cases hr
    exact absurd rfl he

end MatchM

namespace Grammar

theorem le_foldl_children : ∀ (l : List Node) (init : Nat),
    init ≤ l.foldl (fun k n => k + n.shape.children.length) init
  | [], _ => Nat.le_refl _
  | _ :: l, _ => Nat.le_trans (Nat.le_add_right _ _) (le_foldl_children l _)

theorem length_children_le_foldl : ∀ {l : List Node} {nd : Node}, nd ∈ l → ∀ init,
    nd.shape.children.length ≤ l.foldl (fun k n => k + n.shape.children.length) init
  | n :: l, nd, h, init => by
    rcases List.mem_cons.mp h with rfl | h
    · exact Nat.le_trans (Nat.le_add_left _ _) (le_foldl_children l _)
    · exact length_children_le_foldl h _

/-- No node has more children than the graph has edges. -/
theorem length_children_le_edgeCount {g : Grammar} {id : NodeId} {nd : Node}
    (h : g.get? id = some nd) : nd.shape.children.length ≤ g.edgeCount := by
  have hmem : nd ∈ g.nodes.toList := Array.mem_toList_iff.mpr (Array.mem_of_getElem? h)
  unfold edgeCount
  rw [← Array.foldl_toList]
  exact length_children_le_foldl hmem 0

/-- Fuel that pays for a visit with `d` levels of nesting left, on a text of `n` bytes. -/
def fuelBound (g : Grammar) (n : Nat) : Nat → Nat
  | 0 => 1
  | d + 1 => 1 + (g.edgeCount + n + 1) * g.fuelBound n d

end Grammar

/-! ## Depth -/

/-- A sub-match at the offset of its parent follows an entry edge: before a part of a
sequence, the parts that matched in place are marked nullable. -/
theorem Calls.mem_entryEdges {g : Grammar} {s : String} {order : List NodeId} {sh : Shape}
    {pos c : Nat} (hcl : g.ChildClosed order) (hsub : ∀ y ∈ sh.children, y < g.size → y ∈ order)
    (h : Calls g s sh pos c pos) : c ∈ sh.entryEdges (Grammar.marked (g.nullable order)) := by
  cases h with
  | part hpre =>
    apply Shape.mem_entryEdges_seq
    refine Grammar.zeroWidth_of_peg hcl (Grammar.postFixed_nullable order) hpre rfl ?_
    intro y hy hys
    exact hsub y (by simp [Shape.children, hy]) hys
  | alternative ha => exact ha
  | round => simp [Shape.entryEdges]
  | optional => simp [Shape.entryEdges]
  | lookahead => simp [Shape.entryEdges]

/-- Consuming input lowers the measure, whatever the ranks: `L` is above every rank. -/
theorem measure_lt_of_lt {n L a b i j : Nat} (hab : a < b) (hb : b ≤ n) (hj : j ≤ L)
    (hi : 1 ≤ i) : (n - b) * L + j < (n - a) * L + i := by
  have hnb : n - b + 1 ≤ n - a := by omega
  calc (n - b) * L + j ≤ (n - b + 1) * L := by rw [Nat.succ_mul]; omega
    _ ≤ (n - a) * L := Nat.mul_le_mul_right L hnb
    _ < (n - a) * L + i := by omega

namespace Matching

open MatchM

variable {m : Matching}

theorem spends_spend : Spends spend 1 := by
  intro σ
  simp only [spend, EStateM.run_bind, EStateM.run_get]
  split
  · refine ⟨fun _ _ hr => ?_, fun _ _ => by omega⟩
    cases hr
  · refine ⟨fun _ σ' hr => ?_, fun _ hr => ?_⟩
    · cases hr
      simp only
      omega
    · cases hr

theorem spends_note (ev : Event) : Spends (m.note ev) 0 := by
  unfold note
  split
  · exact spends_modify fun _ => rfl
  · exact spends_pure _

theorem spends_failAt (pos : Nat) : Spends (failAt pos) 0 :=
  (Spends.bind (spends_modify fun σ => by split <;> rfl) fun _ => spends_pure _).mono
    (Nat.le_refl _)

theorem spends_matchChar {sh : Shape} {id pos : Nat} {name : Option String} :
    Spends (m.matchChar sh id name pos) 0 := by
  unfold matchChar
  split
  · exact Spends.ite (spends_pure _) (spends_failAt pos)
  · exact spends_failAt pos

section Combinators

variable {sub : NodeId → Nat → MatchM (Option Parsed)} {k : Nat}

theorem spends_matchParts (hsub : ∀ c q, Spends (sub c q) k) :
    ∀ (cs : List NodeId) (here : Nat) (acc : List Parsed),
      Spends (matchParts sub cs here acc) (cs.length * k)
  | [], _, _ => (spends_pure _).mono (Nat.zero_le _)
  | c :: cs, here, acc => by
    rw [matchParts]
    refine (Spends.bind (hsub c here) fun r => (?_ : Spends _ (cs.length * k))).mono ?_
    · cases r with
      | none => exact (spends_pure _).mono (Nat.zero_le _)
      | some p => exact spends_matchParts hsub cs p.stop (p :: acc)
    · rw [List.length_cons, Nat.succ_mul]
      omega

theorem spends_matchAlternatives (hsub : ∀ c q, Spends (sub c q) k) {choice pos : Nat} :
    ∀ (first : Bool) (as : List NodeId),
      Spends (m.matchAlternatives sub choice pos first as) (as.length * k)
  | _, [] => (spends_pure _).mono (Nat.zero_le _)
  | first, a :: as => by
    rw [matchAlternatives]
    refine Spends.ite_bind (spends_note _) ?_
    refine (Spends.bind (hsub a pos) fun r => (?_ : Spends _ (as.length * k))).mono ?_
    · cases r with
      | some p => exact (spends_pure _).mono (Nat.zero_le _)
      | none => exact spends_matchAlternatives hsub false as
    · rw [List.length_cons, Nat.succ_mul]
      omega

theorem spends_matchRepeats (hsub : ∀ c q, Spends (sub c q) k) {body : NodeId} :
    ∀ (attempts here : Nat) (acc : List Parsed),
      Spends (matchRepeats sub body attempts here acc) (attempts * k)
  | 0, _, _ => (spends_pure _).mono (Nat.zero_le _)
  | attempts + 1, here, acc => by
    rw [matchRepeats]
    refine (Spends.bind (hsub body here) fun r => (?_ : Spends _ (attempts * k))).mono ?_
    · cases r with
      | none => exact (spends_pure _).mono (Nat.zero_le _)
      | some p =>
        exact Spends.ite ((spends_throw (by simp)).mono (Nat.zero_le _))
          (spends_matchRepeats hsub attempts p.stop (p :: acc))
    · rw [Nat.succ_mul]
      omega

/-- A shape makes at most as many sub-matches as it has children, or, for a repetition, one
more than there are bytes left. -/
theorem spends_matchShape (hsub : ∀ c q, Spends (sub c q) k) {id pos : Nat}
    {name : Option String} :
    ∀ sh : Shape, Spends (m.matchShape sub id name pos sh)
      ((sh.children.length + m.input.utf8ByteSize + 1) * k)
  | .literal t => (Spends.ite (spends_pure _) (spends_failAt pos)).mono (Nat.zero_le _)
  | .charSet .. => spends_matchChar.mono (Nat.zero_le _)
  | .charRange .. => spends_matchChar.mono (Nat.zero_le _)
  | .seq parts => by
    rw [matchShape]
    refine (Spends.bind_zero (spends_matchParts hsub parts pos []) fun r => ?_).mono ?_
    · rcases r with _ | ⟨stop, cs⟩
      · exact spends_pure _
      · exact spends_pure _
    · simp only [Shape.children]
      exact Nat.mul_le_mul_right k (by omega)
  | .choice alternatives => by
    rw [matchShape]
    refine (Spends.bind_zero (spends_matchAlternatives hsub true alternatives) fun r => ?_).mono ?_
    · cases r
      · exact spends_pure _
      · exact spends_pure _
    · simp only [Shape.children]
      exact Nat.mul_le_mul_right k (by omega)
  | .oneOrMore body => by
    rw [matchShape]
    refine (Spends.bind_zero (spends_matchRepeats hsub _ pos []) fun r => ?_).mono ?_
    · obtain ⟨stop, cs⟩ := r
      exact Spends.ite (spends_pure _) (spends_pure _)
    · simp only [Shape.children, List.length_singleton]
      exact Nat.mul_le_mul_right k (by omega)
  | .optional body => by
    rw [matchShape]
    refine (Spends.bind_zero (hsub body pos) fun r => ?_).mono ?_
    · cases r
      · exact spends_pure _
      · exact spends_pure _
    · simp only [Shape.children, List.length_singleton]
      exact Nat.le_mul_of_pos_left k (by omega)
  | .notFollowedBy body => by
    rw [matchShape]
    refine Spends.zero_bind (spends_modify fun _ => rfl) fun _ => ?_
    refine (Spends.bind_zero (hsub body pos) fun r => ?_).mono ?_
    · refine Spends.zero_bind (spends_modify fun _ => rfl) fun _ => ?_
      cases r
      · exact spends_pure _
      · exact spends_pure _
    · simp only [Shape.children, List.length_singleton]
      exact Nat.le_mul_of_pos_left k (by omega)
  | .endOfInput => (Spends.ite (spends_pure _) (spends_failAt pos)).mono (Nat.zero_le _)
  | .ref rule => (spends_throw (by simp)).mono (Nat.zero_le _)

end Combinators

/-- A visit with `d` levels left pays at most `fuelBound d`, whatever the grammar: the depth
alone bounds the work. -/
theorem spends_matchNode :
    ∀ (d id pos : Nat), Spends (m.matchNode d id pos) (m.grammar.fuelBound m.input.utf8ByteSize d)
  | 0, _, _ => by
    rw [matchNode]
    exact Spends.bind spends_spend fun _ => spends_throw (by simp)
  | d + 1, id, pos => by
    rw [matchNode]
    -- The visit pays one unit, its shape pays for the sub-matches, and the records are free.
    cases hn : m.grammar.get? id with
    | none =>
      dsimp only
      refine (Spends.bind spends_spend fun _ => Spends.zero_bind (spends_note _) fun _ =>
        Spends.zero_bind (spends_pure _) fun r => (?_ : Spends _ 0)).mono ?_
      · cases r <;> exact Spends.zero_bind (spends_note _) fun _ => spends_pure _
      · simp only [Grammar.fuelBound]
        omega
    | some nd =>
      dsimp only
      refine (Spends.bind spends_spend fun _ => Spends.zero_bind (spends_note _) fun _ =>
        Spends.bind_zero (spends_matchShape (fun c q => spends_matchNode d c q) nd.shape)
          fun r => (?_ : Spends _ 0)).mono ?_
      · cases r <;> exact Spends.zero_bind (spends_note _) fun _ => spends_pure _
      · have hw := Grammar.length_children_le_edgeCount hn
        have := Nat.mul_le_mul_right (m.grammar.fuelBound m.input.utf8ByteSize d)
          (show nd.shape.children.length + m.input.utf8ByteSize + 1 ≤
            m.grammar.edgeCount + m.input.utf8ByteSize + 1 by omega)
        simp only [Grammar.fuelBound]
        omega

section Depth

variable {root : NodeId} {rank : NodeId → Nat}

/-- With the entry edges ranked, a visit to a reachable node at offset `q` never exceeds the
depth once `d` covers the measure `(|s| - q) * |reachable root| + rank x`: each sub-match lowers
the measure, by consuming input or by following an entry edge. -/
theorem not_stops_depthExceeded (hg : m.grammar.InRange)
    (hrank : m.grammar.EntryRank (m.grammar.reachable root)
      (m.grammar.nullable (m.grammar.reachable root)) rank) :
    ∀ (d x q : Nat), x ∈ m.grammar.reachable root → q ≤ m.input.utf8ByteSize →
      (m.input.utf8ByteSize - q) * (m.grammar.reachable root).length + rank x ≤ d →
      ¬ Stops (m.matchNode d x q) .depthExceeded := by
  intro d
  induction d with
  | zero =>
    intro x q hx _ hμ _
    have := hrank.pos x hx (Grammar.lt_size_of_mem_reachable hx)
    omega
  | succ d ih =>
    intro x q hx hq hμ h
    rcases stops_matchNode_succ h with hfuel | ⟨nd, hnd, h⟩
    · cases hfuel
    rcases stops_matchShape (sound_matchNode d) hq nd.shape _ h with
      ⟨_, -, he⟩ | ⟨_, _, -, he, -⟩ | ⟨c, q', hcall, hstop⟩
    · cases he
    · cases he
    have hxs := Grammar.lt_size_of_mem_reachable hx
    have hchildren : m.grammar.children x = nd.shape.children := by
      simp [Grammar.children, hnd]
    have hcx : c ∈ m.grammar.children x := hchildren ▸ hcall.mem_children
    have hcs : c < m.grammar.size := hg x hxs c hcx
    have hcR := Grammar.reachable_closed hx hcx hcs
    have hq' := hcall.le_size hq
    have hc_le := hrank.le_length c hcR hcs
    have hx_pos := hrank.pos x hx hxs
    refine ih c q' hcR hq' ?_ hstop
    rcases Nat.lt_or_eq_of_le hcall.pos_le with hlt | rfl
    · -- The sub-match starts later: less of the text is left.
      have := measure_lt_of_lt hlt hq' hc_le hx_pos
      omega
    · -- The sub-match starts in place: it follows an entry edge, which lowers the rank.
      have hentry : c ∈ m.grammar.entryEdges (m.grammar.nullable (m.grammar.reachable root)) x := by
        rw [Grammar.entryEdges_of_get? hnd]
        refine hcall.mem_entryEdges (Grammar.childClosed_reachable root) fun y hy hys => ?_
        exact Grammar.reachable_closed hx (hchildren ▸ hy) hys
      have := hrank.lowers x hx hxs c hentry hcs
      omega

/-- From a validated root, a depth of `(|s| - p + 1) * |reachable root|` is never exceeded. -/
theorem not_stops_depthExceeded_root (hg : m.grammar.InRange) (hr : root < m.grammar.size)
    (hc : m.grammar.Checked root) {p d : Nat} (hp : p ≤ m.input.utf8ByteSize)
    (hd : (m.input.utf8ByteSize - p + 1) * (m.grammar.reachable root).length ≤ d) :
    ¬ Stops (m.matchNode d root p) .depthExceeded := by
  obtain ⟨rank, hrank⟩ :=
    Grammar.exists_entryRank (Grammar.childClosed_reachable root) hc.noLeftRecursion
  have hR := Grammar.mem_reachable_self hr
  have hle := hrank.le_length root hR hr
  refine not_stops_depthExceeded hg hrank d root p hR hp ?_
  rw [Nat.succ_mul] at hd
  omega

end Depth

end Matching

/-- Matching from a root that `validate` accepts terminates within known limits: a depth limit
of `(|s| - p + 1)` times the number of reachable nodes is never exceeded, and with such a limit
some amount of fuel, and any more, lets the match finish. -/
theorem matchAt_terminates_of_validate (g : Grammar) (r : NodeId) (hg : g.InRange)
    (hr : r < g.size) (hv : g.validate r = .ok ()) (s : String) (p : Nat) :
    (∀ (limits : Limits) (traced : Bool),
      (s.utf8ByteSize - p + 1) * (g.reachable r).length ≤ limits.depth →
        (matchAt g r s p limits traced).result ≠ .error .depthExceeded) ∧
    ∀ depth, (s.utf8ByteSize - p + 1) * (g.reachable r).length ≤ depth →
      ∃ fuel, ∀ fuel', fuel ≤ fuel' → ∀ traced, ∃ o,
        (matchAt g r s p ⟨fuel', depth⟩ traced).result = .ok o := by
  have hc := Grammar.checked_of_validate hv
  have hdepth : ∀ (limits : Limits) (traced : Bool),
      (s.utf8ByteSize - p + 1) * (g.reachable r).length ≤ limits.depth →
        (matchAt g r s p limits traced).result ≠ .error .depthExceeded := by
    intro limits traced hd h
    obtain ⟨hp, σ', hrun⟩ := run_of_matchAt_error h
    exact Matching.not_stops_depthExceeded_root hg hr hc (Text.le_size_of_isBoundary hp) hd
      ⟨_, σ', hrun⟩
  refine ⟨hdepth, fun depth hd => ⟨g.fuelBound s.utf8ByteSize depth, fun fuel' hfuel traced => ?_⟩⟩
  cases hres : (matchAt g r s p ⟨fuel', depth⟩ traced).result with
  | ok o => exact ⟨o, rfl⟩
  | error e =>
    exfalso
    obtain ⟨hp, σ', hrun⟩ := run_of_matchAt_error hres
    -- A validated root stops only on a limit; the depth is enough, and so is the fuel.
    rcases Matching.faults_matchNode (m := ⟨g, s, traced⟩) hc depth r p e
        (.inl (Grammar.mem_reachable_self hr)) (Text.le_size_of_isBoundary hp) ⟨_, σ', hrun⟩
      with rfl | rfl
    · have := ((Matching.spends_matchNode (m := ⟨g, s, traced⟩) depth r p) _).2 σ' hrun
      simp only at this
      omega
    · exact hdepth ⟨fuel', depth⟩ traced hd hres

theorem digitPair_terminates :
    digitPair.InRange ∧ 0 < digitPair.size ∧ digitPair.validate 0 = .ok () ∧
      (∀ (limits : Limits) (traced : Bool),
        ("42".utf8ByteSize - 0 + 1) * (digitPair.reachable 0).length ≤ limits.depth →
          (matchAt digitPair 0 "42" 0 limits traced).result ≠ .error .depthExceeded) ∧
      ∀ depth, ("42".utf8ByteSize - 0 + 1) * (digitPair.reachable 0).length ≤ depth →
        ∃ fuel, ∀ fuel', fuel ≤ fuel' → ∀ traced, ∃ o,
          (matchAt digitPair 0 "42" 0 ⟨fuel', depth⟩ traced).result = .ok o :=
  ⟨by decide, by decide, digitPair_validate,
    matchAt_terminates_of_validate digitPair 0 (by decide) (by decide) digitPair_validate "42" 0⟩

end Tokenweave
