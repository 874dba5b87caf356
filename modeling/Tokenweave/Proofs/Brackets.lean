import Tokenweave.Proofs.Stripped
/-!
# The events of a match are well bracketed

A traced match records an event when it enters a node, when the node succeeds or fails, and when
a choice moves on to its next alternative. Those events nest: read as brackets, they are the
events of a tree of visits (`Visit`). A visit is entered at an offset, makes the visits of its
parts, a choice announcing a backtrack before each alternative but the first, and ends with
exactly one success, at an offset no earlier than where it began, or one failure
(`Visit.events`).

Main statement (`matchAt_events_visit`): every finished traced match from a character boundary
records exactly the events of one visit, to the node matched at the offset matched at, ended as
the match answered; a match from an offset inside a character records nothing. Every entry has
been paid for with one unit of fuel, so there are never more entries than the fuel of the limits.

The proof follows the matcher: each combinator records the events of the visits its sub-matches
made, one after another (`Progress.Adds`), and a visit of a node wraps what its shape recorded in
its entry and its end.
-/

set_option autoImplicit false

namespace Tokenweave

/-- Whether an event is the entry into a node. -/
def Event.isEnter : Event → Bool
  | .enter .. => true
  | _ => false

/-- Whether a shape is a choice. -/
def Shape.isChoice : Shape → Bool
  | .choice _ => true
  | _ => false

/-- Whether node `id` is a choice. -/
def Grammar.isChoice (g : Grammar) (id : NodeId) : Bool :=
  ((g.shape? id).map Shape.isChoice).getD false

/-- One visit of the matcher to a node, as the events of a traced match show it: the node, the
offset it was entered at, the visits made while it was open, in order, and where it ended
(`none` when it failed), which is never before where it began. -/
inductive Visit where
  | mk (node : NodeId) (pos : Nat) (inner : List Visit) (stop : Option Nat)
      (ends : ∀ e, stop = some e → pos ≤ e)

namespace Visit

/-- The node visited. -/
def node : Visit → NodeId
  | mk n _ _ _ _ => n

/-- The offset the node was entered at. -/
def pos : Visit → Nat
  | mk _ p _ _ _ => p

/-- Where the visit ended, if it succeeded. -/
def stop : Visit → Option Nat
  | mk _ _ _ e _ => e

/-- The event that ends a visit to `node` entered at `pos`. -/
def closing (node pos : Nat) : Option Nat → Event
  | some e => .success node pos e
  | none => .failure node pos

mutual
/-- The events of a visit: its entry, the events of the visits made inside it, and its end. -/
def events (g : Grammar) : Visit → List Event
  | mk node pos inner stop _ =>
    .enter node pos :: eventsIn g node pos (g.isChoice node) true inner ++ [closing node pos stop]

/-- The events of the visits made inside a visit to `node` at `pos`, one after another; when
`node` is a choice, each visit after the first is announced as a backtrack. -/
def eventsIn (g : Grammar) (node pos : Nat) (choice : Bool) : Bool → List Visit → List Event
  | _, [] => []
  | first, v :: vs =>
    (if choice && !first then [.backtrack node pos] else []) ++ events g v ++
      eventsIn g node pos choice false vs
end

theorem events_mk (g : Grammar) (node pos : Nat) (inner : List Visit) (stop : Option Nat)
    (ends : ∀ e, stop = some e → pos ≤ e) :
    events g (mk node pos inner stop ends) =
      .enter node pos :: eventsIn g node pos (g.isChoice node) true inner ++
        [closing node pos stop] := by
  rw [events]

@[simp] theorem eventsIn_nil (g : Grammar) (node pos : Nat) (choice first : Bool) :
    eventsIn g node pos choice first [] = [] := by
  rw [eventsIn]

theorem eventsIn_cons (g : Grammar) (node pos : Nat) (choice first : Bool) (v : Visit)
    (vs : List Visit) :
    eventsIn g node pos choice first (v :: vs) =
      (if choice && !first then [.backtrack node pos] else []) ++ events g v ++
        eventsIn g node pos choice false vs := by
  rw [eventsIn]

/-- Outside a choice nothing separates the visits, so it does not matter which comes first. -/
theorem eventsIn_false_cons (g : Grammar) (node pos : Nat) (first : Bool) (v : Visit)
    (vs : List Visit) :
    eventsIn g node pos false first (v :: vs) = events g v ++ eventsIn g node pos false true vs := by
  cases vs <;> simp [eventsIn_cons]

end Visit

/-- From `σ` to `σ'` the events `evs` were recorded, oldest first, and one unit of fuel was paid
for each entry among them. -/
def Progress.Adds (evs : List Event) (σ σ' : Progress) : Prop :=
  σ'.events = evs.reverse ++ σ.events ∧ σ.fuel = σ'.fuel + evs.countP Event.isEnter

namespace Progress.Adds

variable {σ σ' σ₁ σ₂ : Progress} {e₁ e₂ : List Event}

theorem nil (hev : σ'.events = σ.events) (hfuel : σ'.fuel = σ.fuel) : Adds [] σ σ' := by
  simp [Adds, hev, hfuel]

theorem refl : Adds [] σ σ := nil rfl rfl

theorem trans (h₁ : Adds e₁ σ σ₁) (h₂ : Adds e₂ σ₁ σ₂) : Adds (e₁ ++ e₂) σ σ₂ := by
  obtain ⟨hev₁, hf₁⟩ := h₁
  obtain ⟨hev₂, hf₂⟩ := h₂
  refine ⟨by simp [hev₂, hev₁], ?_⟩
  rw [List.countP_append]
  omega

end Progress.Adds

namespace MatchM

variable {α β : Type}

/-- A finished run of a bind is a finished run of its first step followed by one of the rest. -/
theorem run_bind_ok {x : MatchM α} {f : α → MatchM β} {σ σ'' : Progress} {b : β}
    (h : (x >>= f).run σ = .ok b σ'') : ∃ a σ', x.run σ = .ok a σ' ∧ (f a).run σ' = .ok b σ'' := by
  rw [EStateM.run_bind] at h
  split at h
  · exact ⟨_, _, ‹_›, h⟩
  · cases h

/-- A finished run of a step that may be preceded by an announcement: the announcement, when made,
finished too, and the step ran from where it left off. -/
theorem run_ite_bind_ok {c : Prop} [Decidable c] {x : MatchM Unit} {f : Unit → MatchM α}
    {σ σ'' : Progress} {b : α} (h : (if c then x >>= f else f ()).run σ = .ok b σ'') :
    ∃ σ₀, (if c then x.run σ = .ok () σ₀ else σ₀ = σ) ∧ (f ()).run σ₀ = .ok b σ'' := by
  split at h
  · obtain ⟨⟨⟩, σ₀, h₀, hk⟩ := run_bind_ok h
    exact ⟨σ₀, by rw [if_pos ‹_›]; exact h₀, hk⟩
  · exact ⟨σ, by rw [if_neg ‹_›], h⟩

theorem run_pure_ok {a b : α} {σ σ' : Progress} (h : (pure a : MatchM α).run σ = .ok b σ') :
    b = a ∧ σ' = σ := by
  cases h
  exact ⟨rfl, rfl⟩

theorem run_throw_ok {e : Fault} {b : α} {σ σ' : Progress} :
    ¬ (throw e : MatchM α).run σ = .ok b σ' := by
  intro h
  cases h

end MatchM

namespace Matching

open MatchM

variable {m : Matching}

/-! ## Steps that record nothing or one event -/

theorem adds_modify {f : Progress → Progress} {σ σ' : Progress} {u : PUnit}
    (h : (modify f : MatchM PUnit).run σ = .ok u σ') (hev : ∀ σ, (f σ).events = σ.events)
    (hfuel : ∀ σ, (f σ).fuel = σ.fuel) : Progress.Adds [] σ σ' := by
  cases h
  exact .nil (hev σ) (hfuel σ)

theorem adds_failAt {pos : Nat} {σ σ' : Progress} {r : Option Parsed}
    (h : (failAt pos).run σ = .ok r σ') : r = none ∧ Progress.Adds [] σ σ' := by
  obtain ⟨_, σ₁, h₁, h₂⟩ := run_bind_ok h
  obtain ⟨rfl, rfl⟩ := run_pure_ok h₂
  refine ⟨rfl, adds_modify h₁ (fun σ => ?_) (fun σ => ?_)⟩ <;> split <;> rfl

theorem adds_matchChar {sh : Shape} {id pos : Nat} {name : Option String} {σ σ' : Progress}
    {r : Option Parsed} (h : (m.matchChar sh id name pos).run σ = .ok r σ') :
    Progress.Adds [] σ σ' := by
  unfold matchChar at h
  split at h
  · split at h
    · exact (run_pure_ok h).2 ▸ .refl
    · exact (adds_failAt h).2
  · exact (adds_failAt h).2

/-- A traced note records its event and spends nothing. -/
theorem run_note_ok (ht : m.traced = true) (ev : Event) {σ σ' : Progress} {u : Unit}
    (h : (m.note ev).run σ = .ok u σ') : σ'.events = ev :: σ.events ∧ σ'.fuel = σ.fuel := by
  unfold note at h
  rw [if_pos ht] at h
  cases h
  exact ⟨rfl, rfl⟩

/-- A traced note of anything but an entry records it, and needs no fuel. -/
theorem adds_note (ht : m.traced = true) {ev : Event} (hev : ev.isEnter = false) {σ σ' : Progress}
    {u : Unit} (h : (m.note ev).run σ = .ok u σ') : Progress.Adds [ev] σ σ' := by
  obtain ⟨hevs, hfuel⟩ := run_note_ok ht ev h
  exact ⟨hevs, by simp [hfuel, hev]⟩

/-- Recording the end of a visit and handing back its answer. -/
theorem run_note_pure {α : Type} (ht : m.traced = true) {ev : Event} (hev : ev.isEnter = false)
    {a r : α} {σ σ' : Progress} (h : (m.note ev >>= fun _ => pure a).run σ = .ok r σ') :
    r = a ∧ Progress.Adds [ev] σ σ' := by
  obtain ⟨_, σ₁, h₁, h₂⟩ := run_bind_ok h
  obtain ⟨rfl, rfl⟩ := run_pure_ok h₂
  exact ⟨rfl, adds_note ht hev h₁⟩

/-- Paying for a visit and recording its entry: the entry's unit of fuel is paid. -/
theorem adds_spend_enter (ht : m.traced = true) {c pos : Nat} {σ σ₁ σ₂ : Progress} {u : Unit}
    {u' : Unit} (h₁ : spend.run σ = .ok u σ₁) (h₂ : (m.note (.enter c pos)).run σ₁ = .ok u' σ₂) :
    Progress.Adds [.enter c pos] σ σ₂ := by
  simp only [spend, EStateM.run_bind, EStateM.run_get] at h₁
  split at h₁
  · cases h₁
  · rename_i hfuel
    cases h₁
    obtain ⟨hev, hfuel'⟩ := run_note_ok ht _ h₂
    refine ⟨hev, ?_⟩
    simp only [hfuel', Event.isEnter, List.countP_singleton, if_true]
    show σ.fuel = σ.fuel - 1 + 1
    omega

/-! ## Combinators -/

/-- Every finished traced run of `sub` at a node and an offset records the events of one visit to
that node at that offset, ended as the run answered. -/
def VisitsOf (m : Matching) (sub : NodeId → Nat → MatchM (Option Parsed)) : Prop :=
  ∀ c q σ r σ', (sub c q).run σ = .ok r σ' →
    ∃ v : Visit, v.node = c ∧ v.pos = q ∧ v.stop = r.map Parsed.stop ∧
      Progress.Adds (v.events m.grammar) σ σ'

section Combinators

variable {sub : NodeId → Nat → MatchM (Option Parsed)} (hsub : m.VisitsOf sub)
include hsub

theorem visitsOf_matchParts (node pos : Nat) :
    ∀ (cs : List NodeId) (here : Nat) (acc : List Parsed) (σ σ' : Progress)
      (r : Option (Nat × List Parsed)), (matchParts sub cs here acc).run σ = .ok r σ' →
      ∃ vs, Progress.Adds (Visit.eventsIn m.grammar node pos false true vs) σ σ'
  | [], _, _, _, _, _, h => ⟨[], by rw [(run_pure_ok h).2]; exact .refl⟩
  | c :: cs, here, acc, σ, σ', r, h => by
    rw [matchParts] at h
    obtain ⟨a, σ₁, h₁, h₂⟩ := run_bind_ok h
    obtain ⟨v, -, -, -, hv⟩ := hsub c here σ a σ₁ h₁
    cases a with
    | none =>
      refine ⟨[v], ?_⟩
      rw [(run_pure_ok h₂).2, Visit.eventsIn_false_cons, Visit.eventsIn_nil, List.append_nil]
      exact hv
    | some p =>
      obtain ⟨vs, hvs⟩ := visitsOf_matchParts node pos cs p.stop (p :: acc) σ₁ σ' r h₂
      exact ⟨v :: vs, by rw [Visit.eventsIn_false_cons]; exact hv.trans hvs⟩

theorem visitsOf_matchRepeats (node pos body : Nat) :
    ∀ (k here : Nat) (acc : List Parsed) (σ σ' : Progress) (r : Nat × List Parsed),
      (matchRepeats sub body k here acc).run σ = .ok r σ' →
      ∃ vs, Progress.Adds (Visit.eventsIn m.grammar node pos false true vs) σ σ'
  | 0, _, _, _, _, _, h => ⟨[], by rw [(run_pure_ok h).2]; exact .refl⟩
  | k + 1, here, acc, σ, σ', r, h => by
    rw [matchRepeats] at h
    obtain ⟨a, σ₁, h₁, h₂⟩ := run_bind_ok h
    obtain ⟨v, -, -, -, hv⟩ := hsub body here σ a σ₁ h₁
    cases a with
    | none =>
      refine ⟨[v], ?_⟩
      rw [(run_pure_ok h₂).2, Visit.eventsIn_false_cons, Visit.eventsIn_nil, List.append_nil]
      exact hv
    | some p =>
      simp only at h₂
      split at h₂
      · exact absurd h₂ run_throw_ok
      · obtain ⟨vs, hvs⟩ := visitsOf_matchRepeats node pos body k p.stop (p :: acc) σ₁ σ' r h₂
        exact ⟨v :: vs, by rw [Visit.eventsIn_false_cons]; exact hv.trans hvs⟩

theorem visitsOf_matchAlternatives (ht : m.traced = true) (choice pos : Nat) :
    ∀ (first : Bool) (as : List NodeId) (σ σ' : Progress) (r : Option Parsed),
      (m.matchAlternatives sub choice pos first as).run σ = .ok r σ' →
      ∃ vs, Progress.Adds (Visit.eventsIn m.grammar choice pos true first vs) σ σ'
  | _, [], _, _, _, h => ⟨[], by rw [(run_pure_ok h).2]; exact .refl⟩
  | first, a :: as, σ, σ', r, h => by
    rw [matchAlternatives] at h
    obtain ⟨σ₀, h₀, hk⟩ := run_ite_bind_ok h
    -- Every alternative but the first is announced as a backtrack of the choice.
    have hadd : Progress.Adds (if true && !first then [.backtrack choice pos] else []) σ σ₀ := by
      cases first with
      | false => exact adds_note ht rfl (by simpa using h₀)
      | true =>
        have hσ : σ₀ = σ := by simpa using h₀
        rw [hσ]
        exact .refl
    obtain ⟨b, σ₁, h₁, h₂⟩ := run_bind_ok hk
    obtain ⟨v, -, -, -, hv⟩ := hsub a pos σ₀ b σ₁ h₁
    cases b with
    | none =>
      obtain ⟨vs, hvs⟩ := visitsOf_matchAlternatives ht choice pos false as σ₁ σ' r h₂
      refine ⟨v :: vs, ?_⟩
      rw [Visit.eventsIn_cons]
      exact (hadd.trans hv).trans hvs
    | some p =>
      refine ⟨[v], ?_⟩
      rw [(run_pure_ok h₂).2, Visit.eventsIn_cons, Visit.eventsIn_nil, List.append_nil]
      exact hadd.trans hv

theorem visitsOf_matchShape (ht : m.traced = true) {id pos : Nat} {name : Option String} :
    ∀ (sh : Shape) (σ σ' : Progress) (r : Option Parsed),
      (m.matchShape sub id name pos sh).run σ = .ok r σ' →
      ∃ vs, Progress.Adds (Visit.eventsIn m.grammar id pos sh.isChoice true vs) σ σ'
  | .literal t, σ, σ', r, h => by
    rw [matchShape] at h
    split at h
    · exact ⟨[], by rw [(run_pure_ok h).2]; exact .refl⟩
    · exact ⟨[], (adds_failAt h).2⟩
  | .charSet .., σ, σ', r, h | .charRange .., σ, σ', r, h => by
    rw [matchShape] at h
    exact ⟨[], adds_matchChar h⟩
  | .seq parts, σ, σ', r, h => by
    rw [matchShape] at h
    obtain ⟨a, σ₁, h₁, h₂⟩ := run_bind_ok h
    obtain ⟨vs, hvs⟩ := visitsOf_matchParts hsub id pos parts pos [] σ σ₁ a h₁
    refine ⟨vs, ?_⟩
    split at h₂ <;> (rw [(run_pure_ok h₂).2]; exact hvs)
  | .choice alternatives, σ, σ', r, h => by
    rw [matchShape] at h
    obtain ⟨a, σ₁, h₁, h₂⟩ := run_bind_ok h
    obtain ⟨vs, hvs⟩ := visitsOf_matchAlternatives hsub ht id pos true alternatives σ σ₁ a h₁
    refine ⟨vs, ?_⟩
    split at h₂ <;> (rw [(run_pure_ok h₂).2]; exact hvs)
  | .oneOrMore body, σ, σ', r, h => by
    rw [matchShape] at h
    obtain ⟨a, σ₁, h₁, h₂⟩ := run_bind_ok h
    obtain ⟨vs, hvs⟩ := visitsOf_matchRepeats hsub id pos body _ pos [] σ σ₁ a h₁
    refine ⟨vs, ?_⟩
    obtain ⟨stop, cs⟩ := a
    simp only at h₂
    split at h₂ <;> (rw [(run_pure_ok h₂).2]; exact hvs)
  | .optional body, σ, σ', r, h => by
    rw [matchShape] at h
    obtain ⟨a, σ₁, h₁, h₂⟩ := run_bind_ok h
    obtain ⟨v, -, -, -, hv⟩ := hsub body pos σ a σ₁ h₁
    refine ⟨[v], ?_⟩
    show Progress.Adds (Visit.eventsIn m.grammar id pos false true [v]) σ σ'
    rw [Visit.eventsIn_false_cons, Visit.eventsIn_nil, List.append_nil]
    split at h₂ <;> (rw [(run_pure_ok h₂).2]; exact hv)
  | .notFollowedBy body, σ, σ', r, h => by
    rw [matchShape] at h
    -- Opening and closing the negation touch neither the events nor the fuel.
    obtain ⟨_, σ₁, h₁, h⟩ := run_bind_ok h
    obtain ⟨a, σ₂, h₂, h⟩ := run_bind_ok h
    obtain ⟨_, σ₃, h₃, h₄⟩ := run_bind_ok h
    obtain ⟨v, -, -, -, hv⟩ := hsub body pos σ₁ a σ₂ h₂
    refine ⟨[v], ?_⟩
    show Progress.Adds (Visit.eventsIn m.grammar id pos false true [v]) σ σ'
    rw [Visit.eventsIn_false_cons, Visit.eventsIn_nil, List.append_nil,
      ← List.nil_append (Visit.events _ v), ← List.append_nil (List.nil ++ _)]
    refine ((adds_modify h₁ (fun _ => rfl) (fun _ => rfl)).trans hv).trans ?_
    have hσ : σ' = σ₃ := by split at h₄ <;> exact (run_pure_ok h₄).2
    rw [hσ]
    exact adds_modify h₃ (fun _ => rfl) (fun _ => rfl)
  | .endOfInput, σ, σ', r, h => by
    rw [matchShape] at h
    split at h
    · exact ⟨[], by rw [(run_pure_ok h).2]; exact .refl⟩
    · exact ⟨[], (adds_failAt h).2⟩
  | .ref rule, σ, σ', r, h => by
    rw [matchShape] at h
    exact absurd h run_throw_ok

end Combinators

/-- Every finished traced visit, at any depth, records the events of one visit to the node at
the offset, ended as it answered. -/
theorem visitsOf_matchNode (ht : m.traced = true) : ∀ d, m.VisitsOf (m.matchNode d)
  | 0, c, q, σ, r, σ', h => by
    rw [matchNode] at h
    obtain ⟨_, _, -, h⟩ := run_bind_ok h
    exact absurd h run_throw_ok
  | d + 1, c, q, σ, r, σ', h => by
    rw [matchNode] at h
    obtain ⟨_, σ₁, h₁, h⟩ := run_bind_ok h
    obtain ⟨_, σ₂, h₂, h⟩ := run_bind_ok h
    have henter := adds_spend_enter ht h₁ h₂
    cases hnd : m.grammar.get? c with
    | none =>
      simp only [hnd] at h
      obtain ⟨a, σ₃, h₃, h⟩ := run_bind_ok h
      obtain ⟨rfl, rfl⟩ := run_pure_ok h₃
      obtain ⟨rfl, hend⟩ := run_note_pure ht rfl h
      refine ⟨.mk c q [] none (fun _ he => by cases he), rfl, rfl, rfl, ?_⟩
      rw [Visit.events_mk, Visit.eventsIn_nil]
      exact henter.trans hend
    | some nd =>
      simp only [hnd] at h
      obtain ⟨a, σ₃, h₃, h⟩ := run_bind_ok h
      -- After the node's shape, its end is recorded and the answer handed back.
      have hend : r = a ∧ Progress.Adds [Visit.closing c q (a.map Parsed.stop)] σ₃ σ' := by
        cases a with
        | none =>
          simp only at h
          exact run_note_pure ht rfl h
        | some p =>
          simp only at h
          exact run_note_pure ht rfl h
      obtain ⟨rfl, hend⟩ := hend
      obtain ⟨vs, hvs⟩ := visitsOf_matchShape (visitsOf_matchNode ht d) ht nd.shape σ₂ σ₃ r h₃
      -- A success ends no earlier than where the node was entered.
      have hends : ∀ e, r.map Parsed.stop = some e → q ≤ e := by
        intro e he
        obtain ⟨p, rfl, rfl⟩ := Option.map_eq_some_iff.mp he
        exact (produces_matchShape (produces_matchNode d) hnd ⟨σ₂, σ₃, h₃⟩).le_stop
      refine ⟨.mk c q vs (r.map Parsed.stop) hends, rfl, rfl, rfl, ?_⟩
      have hchoice : m.grammar.isChoice c = nd.shape.isChoice := by
        simp [Grammar.isChoice, Grammar.shape?, hnd]
      rw [Visit.events_mk, hchoice, List.cons_append, ← List.singleton_append]
      exact henter.trans (hvs.trans hend)

end Matching

/-- The events of a finished traced match. From an offset inside a character nothing is recorded;
from a character boundary the events are those of one visit to the node matched, at the offset
matched at, ended as the match answered. Each entry was paid for with one unit of fuel. -/
theorem matchAt_events_visit {g : Grammar} {n : NodeId} {s : String} {p : Nat} {limits : Limits}
    {o : Outcome} (h : (matchAt g n s p limits true).result = .ok o) :
    (matchAt g n s p limits true).events.countP Event.isEnter ≤ limits.fuel ∧
    ((Text.isBoundary s p = false ∧ (matchAt g n s p limits true).events = []) ∨
      (Text.isBoundary s p = true ∧ ∃ v : Visit, (matchAt g n s p limits true).events = v.events g ∧
        v.node = n ∧ v.pos = p ∧ v.stop = o.parsed.map Parsed.stop)) := by
  unfold matchAt at h ⊢
  cases hp : Text.isBoundary s p with
  | false => simp
  | true =>
    simp only [hp, Bool.not_true, Bool.false_eq_true, ↓reduceIte] at h ⊢
    split at h
    · rename_i r σ' hrun
      cases h
      obtain ⟨v, rfl, rfl, hstop, hev, hfuel⟩ :=
        Matching.visitsOf_matchNode rfl limits.depth n p _ r σ' hrun
      have hevents : σ'.events.reverse = v.events g := by simp [hev]
      simp only [hevents]
      exact ⟨by simp only at hfuel; omega, .inr ⟨trivial, v, rfl, rfl, rfl, hstop⟩⟩
    · cases h

end Tokenweave
