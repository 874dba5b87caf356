import Tokenweave.Proofs.MatchSound
import Tokenweave.Proofs.Nullable
import Tokenweave.Grammar.Validate
/-!
# Validated grammars stop only on limits

Main statement (`matchAt_faults_of_validate`): once `Grammar.validate` accepts a root, matching
from it stops with a fault only because the fuel or the depth ran out. It never reaches an
unlinked rule, and no repetition's body ever succeeds without consuming input.

The proof locates every fault. `Stops x e` says that some run of `x` stops with `e`; a fault of
a node's shape comes from the shape itself (an unlinked rule, or a repetition whose body
succeeded in place) or from one of the sub-matches it makes, and `Calls` lists those: each part
of a sequence after the parts before it succeeded, each alternative of a choice, each round of a
repetition, and the body of an optional or a negation (`stops_matchShape`). Every child it names
is reachable from the root when its parent is, so an induction on the depth carries "reachable"
down to the fault. There, the first kind is excluded by the check for unlinked rules, and the
second by the check for nullable repetitions: a body that succeeds in place derives a zero-width
success (`sound_matchNode`), so the analysis marks it nullable (`marked_of_peg`).
-/

set_option autoImplicit false

namespace Tokenweave

/-- The sub-matches a node of shape `sh` makes at `pos`: child `c` at offset `q`. -/
inductive Calls (g : Grammar) (s : String) : Shape → Nat → NodeId → Nat → Prop where
  /-- A part of a sequence, once the parts before it have matched from `pos` to `q`. -/
  | part {pre post : List NodeId} {c pos q : Nat} :
      Peg g s (.parts pre) pos (some q) → Calls g s (.seq (pre ++ c :: post)) pos c q
  /-- An alternative of a choice, at the choice's own offset. -/
  | alternative {alternatives : List NodeId} {a pos : Nat} :
      a ∈ alternatives → Calls g s (.choice alternatives) pos a pos
  /-- A round of a repetition, anywhere from its start to the end of the text. -/
  | round {body pos q : Nat} :
      pos ≤ q → q ≤ s.utf8ByteSize → Calls g s (.oneOrMore body) pos body q
  /-- The body of an optional. -/
  | optional {body pos : Nat} : Calls g s (.optional body) pos body pos
  /-- The body of a negation. -/
  | lookahead {body pos : Nat} : Calls g s (.notFollowedBy body) pos body pos

namespace Calls

variable {g : Grammar} {s : String} {sh : Shape} {pos c q : Nat}

theorem mem_children (h : Calls g s sh pos c q) : c ∈ sh.children := by
  cases h <;> simp [Shape.children, *]

theorem pos_le (h : Calls g s sh pos c q) : pos ≤ q := by
  cases h with
  | part hpre => exact Peg.le_of_some hpre
  | round hle _ => exact hle
  | _ => exact Nat.le_refl _

theorem le_size (h : Calls g s sh pos c q) (hpos : pos ≤ s.utf8ByteSize) :
    q ≤ s.utf8ByteSize := by
  cases h with
  | part hpre => exact Peg.le_size_of_some hpre hpos
  | round _ hq => exact hq
  | _ => exact hpos

end Calls

namespace Matching

open MatchM

variable {m : Matching} {sub : NodeId → Nat → MatchM (Option Parsed)}

/-- A step that may be preceded by an announcement stops only where it stops alone. -/
theorem stops_of_ite_bind {α : Type} {c : Prop} [Decidable c] {x : MatchM Unit}
    {k : Unit → MatchM α} {e : Fault} (hx : ¬ Stops x e)
    (h : Stops (if c then x >>= k else k ()) e) : Stops (k ()) e := by
  split at h
  · rcases stops_bind h with h | ⟨⟨⟩, -, h⟩
    · exact absurd h hx
    · exact h
  · exact h

theorem not_stops_note_bind {α : Type} {ev : Event} {a : α} {e : Fault} :
    ¬ Stops (m.note ev >>= fun _ => pure a) e := by
  intro h
  rcases stops_bind h with h | ⟨_, -, h⟩
  · exact not_stops_note h
  · exact not_stops_pure h

theorem not_stops_matchChar {sh : Shape} {id pos : Nat} {name : Option String} {e : Fault} :
    ¬ Stops (m.matchChar sh id name pos) e := by
  unfold matchChar
  split
  · split
    · exact not_stops_pure
    · exact not_stops_failAt
  · exact not_stops_failAt

theorem stops_matchParts (hsub : m.Sound sub) :
    ∀ (cs : List NodeId) (here : Nat) (acc : List Parsed) (e : Fault),
      here ≤ m.input.utf8ByteSize → Stops (matchParts sub cs here acc) e →
        ∃ pre c post q, cs = pre ++ c :: post ∧
          Peg m.grammar m.input (.parts pre) here (some q) ∧ Stops (sub c q) e := by
  intro cs
  induction cs with
  | nil =>
    intro here acc e _ h
    rw [matchParts] at h
    exact absurd h not_stops_pure
  | cons c cs ih =>
    intro here acc e hhere h
    rw [matchParts] at h
    rcases stops_bind h with h | ⟨a, ha, h⟩
    · exact ⟨[], c, cs, here, rfl, .partsNil, h⟩
    · cases a with
      | none => exact absurd h not_stops_pure
      | some p =>
        have hc := hsub c here _ hhere ha
        obtain ⟨pre, c', post, q, rfl, hpre, hstop⟩ :=
          ih p.stop _ e (Peg.le_size_of_some hc hhere) h
        exact ⟨c :: pre, c', post, q, rfl, .partsCons hc hpre, hstop⟩

theorem stops_matchAlternatives {choice pos : Nat} :
    ∀ (as : List NodeId) (first : Bool) (e : Fault),
      Stops (m.matchAlternatives sub choice pos first as) e → ∃ a ∈ as, Stops (sub a pos) e := by
  intro as
  induction as with
  | nil =>
    intro first e h
    rw [matchAlternatives] at h
    exact absurd h not_stops_pure
  | cons a as ih =>
    intro first e h
    rw [matchAlternatives] at h
    rcases stops_bind (stops_of_ite_bind not_stops_note h) with h | ⟨b, -, h⟩
    · exact ⟨a, List.mem_cons_self, h⟩
    · cases b with
      | some p => exact absurd h not_stops_pure
      | none =>
        obtain ⟨a', ha', h⟩ := ih false e h
        exact ⟨a', List.mem_cons_of_mem a ha', h⟩

/-- A repetition stops in one of its rounds, or on a round that succeeded in place. -/
theorem stops_matchRepeats (hsub : m.Sound sub) {body : NodeId} :
    ∀ (k here : Nat) (acc : List Parsed) (e : Fault), here ≤ m.input.utf8ByteSize →
      Stops (matchRepeats sub body k here acc) e →
        ∃ q, here ≤ q ∧ q ≤ m.input.utf8ByteSize ∧
          (Stops (sub body q) e ∨
            (e = .nonAdvancingRepeat q ∧ Peg m.grammar m.input (.node body) q (some q))) := by
  intro k
  induction k with
  | zero =>
    intro here acc e _ h
    rw [matchRepeats] at h
    exact absurd h not_stops_pure
  | succ k ih =>
    intro here acc e hhere h
    rw [matchRepeats] at h
    rcases stops_bind h with h | ⟨a, ha, h⟩
    · exact ⟨here, Nat.le_refl _, hhere, .inl h⟩
    · have hb := hsub body here a hhere ha
      cases a with
      | none => exact absurd h not_stops_pure
      | some p =>
        simp only at h
        split at h
        · rename_i hstop
          refine ⟨here, Nat.le_refl _, hhere, .inr ⟨stops_throw h, ?_⟩⟩
          simpa [hstop] using hb
        · obtain ⟨q, hq, hqs, hstop⟩ := ih p.stop _ e (Peg.le_size_of_some hb hhere) h
          exact ⟨q, Nat.le_trans (Peg.le_of_some hb) hq, hqs, hstop⟩

/-- Where a node's shape can stop: at an unlinked rule, at a repetition whose body succeeded
in place, or inside one of the sub-matches it makes. -/
theorem stops_matchShape (hsub : m.Sound sub) {id pos : Nat} {name : Option String}
    (hpos : pos ≤ m.input.utf8ByteSize) :
    ∀ (sh : Shape) (e : Fault), Stops (m.matchShape sub id name pos sh) e →
      (∃ rule, sh = .ref rule ∧ e = .unresolvedReference rule) ∨
        (∃ body q, sh = .oneOrMore body ∧ e = .nonAdvancingRepeat q ∧
          Peg m.grammar m.input (.node body) q (some q)) ∨
        ∃ c q, Calls m.grammar m.input sh pos c q ∧ Stops (sub c q) e
  | .literal t, e, h => by
    rw [matchShape] at h
    split at h
    · exact absurd h not_stops_pure
    · exact absurd h not_stops_failAt
  | .charSet .., e, h => by
    rw [matchShape] at h
    exact absurd h not_stops_matchChar
  | .charRange .., e, h => by
    rw [matchShape] at h
    exact absurd h not_stops_matchChar
  | .seq parts, e, h => by
    rw [matchShape] at h
    rcases stops_bind h with h | ⟨a, -, h⟩
    · obtain ⟨pre, c, post, q, rfl, hpre, hstop⟩ := stops_matchParts hsub parts pos [] e hpos h
      exact .inr (.inr ⟨c, q, .part hpre, hstop⟩)
    · cases a <;> exact absurd h not_stops_pure
  | .choice alternatives, e, h => by
    rw [matchShape] at h
    rcases stops_bind h with h | ⟨a, -, h⟩
    · obtain ⟨a, ha, hstop⟩ := stops_matchAlternatives alternatives true e h
      exact .inr (.inr ⟨a, pos, .alternative ha, hstop⟩)
    · cases a <;> exact absurd h not_stops_pure
  | .oneOrMore body, e, h => by
    rw [matchShape] at h
    rcases stops_bind h with h | ⟨⟨stop, cs⟩, -, h⟩
    · obtain ⟨q, hq, hqs, hstop | ⟨rfl, hpeg⟩⟩ := stops_matchRepeats hsub _ pos [] e hpos h
      · exact .inr (.inr ⟨body, q, .round hq hqs, hstop⟩)
      · exact .inr (.inl ⟨body, q, rfl, rfl, hpeg⟩)
    · simp only at h
      split at h <;> exact absurd h not_stops_pure
  | .optional body, e, h => by
    rw [matchShape] at h
    rcases stops_bind h with h | ⟨a, -, h⟩
    · exact .inr (.inr ⟨body, pos, .optional, h⟩)
    · cases a <;> exact absurd h not_stops_pure
  | .notFollowedBy body, e, h => by
    rw [matchShape] at h
    rcases stops_bind h with h | ⟨_, -, h⟩
    · exact absurd h not_stops_modify
    rcases stops_bind h with h | ⟨a, -, h⟩
    · exact .inr (.inr ⟨body, pos, .lookahead, h⟩)
    rcases stops_bind h with h | ⟨_, -, h⟩
    · exact absurd h not_stops_modify
    · cases a <;> exact absurd h not_stops_pure
  | .endOfInput, e, h => by
    rw [matchShape] at h
    split at h
    · exact absurd h not_stops_pure
    · exact absurd h not_stops_failAt
  | .ref rule, e, h => by
    rw [matchShape] at h
    exact .inl ⟨rule, rfl, stops_throw h⟩

/-- At no depth left, a visit stops on fuel or on depth. -/
theorem stops_matchNode_zero {id pos : Nat} {e : Fault} (h : Stops (m.matchNode 0 id pos) e) :
    e = .fuelExhausted ∨ e = .depthExceeded := by
  rw [matchNode] at h
  rcases stops_bind h with h | ⟨_, -, h⟩
  · exact .inl (stops_spend h)
  · exact .inr (stops_throw h)

/-- A visit stops on fuel, or where the shape of its node stops. -/
theorem stops_matchNode_succ {d id pos : Nat} {e : Fault} (h : Stops (m.matchNode (d + 1) id pos) e) :
    e = .fuelExhausted ∨ ∃ nd, m.grammar.get? id = some nd ∧
      Stops (m.matchShape (m.matchNode d) id nd.name pos nd.shape) e := by
  rw [matchNode] at h
  rcases stops_bind h with h | ⟨_, -, h⟩
  · exact .inl (stops_spend h)
  rcases stops_bind h with h | ⟨_, -, h⟩
  · exact absurd h not_stops_note
  cases hn : m.grammar.get? id with
  | none =>
    simp only [hn] at h
    rcases stops_bind h with h | ⟨a, ha, h⟩
    · exact absurd h not_stops_pure
    · cases answers_pure ha
      exact absurd h not_stops_note_bind
  | some nd =>
    simp only [hn] at h
    rcases stops_bind h with h | ⟨a, -, h⟩
    · exact .inr ⟨nd, rfl, h⟩
    -- Recording the result never stops.
    · cases a <;> exact absurd h not_stops_note_bind

end Matching

namespace Grammar

/-- What `validate` establishes about the nodes reachable from `root`: none is an unlinked rule,
no repetition among them has a body marked nullable, and their entry edges have no cycle. -/
structure Checked (g : Grammar) (root : NodeId) : Prop where
  linked : ∀ x ∈ g.reachable root, ∀ rule, g.shape? x ≠ some (.ref rule)
  repeatsAdvance : ∀ x ∈ g.reachable root, ∀ body, g.shape? x = some (.oneOrMore body) →
    marked (g.nullable (g.reachable root)) body = false
  noLeftRecursion :
    g.findLeftRecursion (g.reachable root) (g.nullable (g.reachable root)) = none

theorem checked_of_validate {g : Grammar} {root : NodeId} (h : g.validate root = .ok ()) :
    g.Checked root := by
  unfold validate at h
  dsimp only at h
  split at h
  · cases h
  · rename_i hlinked
    split at h
    · cases h
    · rename_i hrepeats
      split at h
      · cases h
      · rename_i hcycle
        refine ⟨fun x hx rule hshape => ?_, fun x hx body hshape => ?_, hcycle⟩
        · have := List.findSome?_eq_none_iff.mp hlinked x hx
          simp [hshape] at this
        · have := List.find?_eq_none.mp hrepeats x hx
          simpa [hshape] using this

/-- The children of a reachable node are reachable, or are no nodes at all. -/
theorem mem_reachable_or_absent {g : Grammar} {root x c : NodeId} (hx : x ∈ g.reachable root)
    (hc : c ∈ g.children x) : c ∈ g.reachable root ∨ g.get? c = none := by
  by_cases hlt : c < g.size
  · exact .inl (reachable_closed hx hc hlt)
  · exact .inr (Array.getElem?_eq_none (Nat.le_of_not_lt hlt))

end Grammar

namespace Matching

open MatchM

/-- Below a reachable node of a checked grammar, the matcher stops only on fuel or depth. -/
theorem faults_matchNode {m : Matching} {root : NodeId} (hc : m.grammar.Checked root) :
    ∀ (d id pos : Nat) (e : Fault), (id ∈ m.grammar.reachable root ∨ m.grammar.get? id = none) →
      pos ≤ m.input.utf8ByteSize → Stops (m.matchNode d id pos) e →
        e = .fuelExhausted ∨ e = .depthExceeded := by
  intro d
  induction d with
  | zero => exact fun _ _ _ _ _ h => stops_matchNode_zero h
  | succ d ih =>
    intro id pos e hid hpos h
    rcases stops_matchNode_succ h with hfuel | ⟨nd, hnd, h⟩
    · exact .inl hfuel
    have hx : id ∈ m.grammar.reachable root := by
      rcases hid with hid | hid
      · exact hid
      · rw [hnd] at hid
        cases hid
    have hshape : m.grammar.shape? id = some nd.shape := by simp [Grammar.shape?, hnd]
    rcases stops_matchShape (sound_matchNode d) hpos nd.shape e h with
      ⟨rule, hrule, -⟩ | ⟨body, q, hbody, -, hpeg⟩ | ⟨c, q, hcall, hstop⟩
    · exact absurd (hrule ▸ hshape) (hc.linked id hx rule)
    · -- A body that succeeds in place is marked nullable, which the check excludes.
      have hchild : body ∈ m.grammar.children id := by
        simp [Grammar.children, hnd, hbody, Shape.children]
      have hbodyR := Grammar.reachable_closed hx hchild (Peg.lt_size_of_some hpeg)
      have hmarked := Grammar.marked_of_peg (Grammar.childClosed_reachable root) hpeg hbodyR
      rw [hc.repeatsAdvance id hx body (hbody ▸ hshape)] at hmarked
      cases hmarked
    · have hchild : c ∈ m.grammar.children id := by
        simpa [Grammar.children, hnd] using hcall.mem_children
      exact ih c q e (Grammar.mem_reachable_or_absent hx hchild) (hcall.le_size hpos) hstop

end Matching

/-- Matching from a root that `validate` accepts stops with a fault only when the fuel or the
depth runs out: never at an unlinked rule, never on a repetition that fails to advance. -/
theorem matchAt_faults_of_validate (g : Grammar) (r : NodeId) (hv : g.validate r = .ok ())
    (s : String) (p : Nat) (limits : Limits) (traced : Bool) (e : Fault)
    (h : (matchAt g r s p limits traced).result = .error e) :
    e = .fuelExhausted ∨ e = .depthExceeded := by
  obtain ⟨hp, hstop⟩ := stops_of_matchAt h
  have hroot : r ∈ g.reachable r ∨ g.get? r = none := by
    by_cases hlt : r < g.size
    · exact .inl (Grammar.mem_reachable_self hlt)
    · exact .inr (Array.getElem?_eq_none (Nat.le_of_not_lt hlt))
  exact Matching.faults_matchNode (Grammar.checked_of_validate hv) _ _ _ e hroot
    (Text.le_size_of_isBoundary hp) hstop

/-- `digitPair` passes validation. -/
theorem digitPair_validate : digitPair.validate 0 = .ok () := by
  have hreach : digitPair.reachable 0 = [0, 1, 2, 3, 4] := by
    simp +decide [Grammar.reachable, Grammar.reachableWalk, digitPair, Grammar.children,
      Grammar.get?, Grammar.size, Shape.children]
  unfold Grammar.validate
  rw [hreach]
  rfl

/-- The statement on `digitPair` with a single unit of fuel, which runs out. -/
theorem digitPair_faults :
    digitPair.validate 0 = .ok () ∧
      (matchAt digitPair 0 "42" 0 ⟨1, 256⟩).result = .error .fuelExhausted ∧
      (Fault.fuelExhausted = .fuelExhausted ∨ Fault.fuelExhausted = .depthExceeded) :=
  ⟨digitPair_validate, rfl,
    matchAt_faults_of_validate digitPair 0 digitPair_validate "42" 0 ⟨1, 256⟩ false _ rfl⟩

end Tokenweave
