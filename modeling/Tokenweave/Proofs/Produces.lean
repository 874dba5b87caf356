import Tokenweave.Proofs.MatchSound
/-!
# How a parse is put together

`Produces g s a p q` says how a parse `q`, given by matching node `a` of `g` against the text `s`
from offset `p`, is built from parts:

* a parse without parts covers what its node's shape takes alone (`Shape.Covers`): a literal
  where it occurs, one character of a class or range, and nothing at all for an empty sequence,
  an optional whose body did not match, a negation or the end of input;
* the parts of a sequence follow each other from `p`, and so do the rounds of a repetition, of
  which there is at least one;
* an optional whose body matched holds the body's parse as its one part;
* a choice hands back the parse of one of its alternatives, which takes the choice's name when
  it has none of its own.

The relation does not say which parse is picked when several could be; it is what every parse
the matcher gives has in common, whatever the grammar, the limits and the faults
(`Matching.produces_matchNode`, `produces_of_matchAt`). The shape of parse trees is read off it:
their spans tile the input, and their names come from the grammar.
-/

set_option autoImplicit false

namespace Tokenweave

/-- What a parse without parts of a node of shape `sh` covers from `p` to `q`: the text of a
literal where it occurs, one character that a class or range takes, and nothing at all for an
empty sequence, an optional, a negation or the end of input. Choices, repetitions and rules
give no parse without parts. -/
def Shape.Covers (s : String) (p q : Nat) : Shape → Prop
  | .literal t => Text.occursAt s p t = true ∧ q = p + t.utf8ByteSize
  | sh@(.charSet ..) => sh.charEnd s p = some q
  | sh@(.charRange ..) => sh.charEnd s p = some q
  | .seq parts => parts = [] ∧ q = p
  | .optional _ | .notFollowedBy _ | .endOfInput => q = p
  | .choice _ | .oneOrMore _ | .ref _ => False

mutual
/-- `Produces g s a p q`: `q` is a parse that matching node `a` of `g` against `s` at offset `p`
can give. -/
inductive Produces (g : Grammar) (s : String) : NodeId → Nat → Parsed → Prop
  /-- A parse without parts covers what its node's shape takes alone. -/
  | leaf {id nd p q} : g.get? id = some nd → nd.shape.Covers s p q →
      Produces g s id p (.mk id nd.name p q [])
  | seq {id nd parts p cs q} : g.get? id = some nd → nd.shape = .seq parts →
      ProducesAll g s parts p cs q → Produces g s id p (.mk id nd.name p q cs)
  /-- A choice hands back a parse of one of its alternatives, named after the choice when it
  has no name of its own. -/
  | choice {id nd alternatives alt p r} : g.get? id = some nd →
      nd.shape = .choice alternatives → alt ∈ alternatives → Produces g s alt p r →
      Produces g s id p (r.inherit nd.name)
  | oneOrMore {id nd body p cs q} : g.get? id = some nd → nd.shape = .oneOrMore body →
      cs ≠ [] → ProducesAll g s (List.replicate cs.length body) p cs q →
      Produces g s id p (.mk id nd.name p q cs)
  | optional {id nd body p r} : g.get? id = some nd → nd.shape = .optional body →
      Produces g s body p r → Produces g s id p (.mk id nd.name p r.stop [r])

/-- `ProducesAll g s ids p cs q`: the parses `cs` of the nodes `ids`, in order, follow each other
from `p` to `q`. -/
inductive ProducesAll (g : Grammar) (s : String) : List NodeId → Nat → List Parsed → Nat → Prop
  | nil {p} : ProducesAll g s [] p [] p
  | cons {id ids p r rs q} : Produces g s id p r → ProducesAll g s ids r.stop rs q →
      ProducesAll g s (id :: ids) p (r :: rs) q
end

namespace Parsed

@[simp] theorem start_mk {n : NodeId} {name : Option String} {start stop : Nat}
    {cs : List Parsed} : (Parsed.mk n name start stop cs).start = start := rfl

@[simp] theorem start_inherit {p : Parsed} {name : Option String} :
    (p.inherit name).start = p.start := by
  unfold inherit
  split <;> rfl

end Parsed

/-- A parse begins where its node was matched. -/
theorem Produces.start_eq {g : Grammar} {s : String} {a : NodeId} {p : Nat} {q : Parsed} :
    Produces g s a p q → q.start = p
  | .leaf .. | .seq .. | .oneOrMore .. | .optional .. => rfl
  | .choice _ _ _ h => by rw [Parsed.start_inherit, h.start_eq]

namespace Matching

open MatchM

variable {m : Matching}

/-- Every parse that `sub` gives is produced by the node it was asked for. -/
def ProducesOnly (m : Matching) (sub : NodeId → Nat → MatchM (Option Parsed)) : Prop :=
  ∀ c q r, Answers (sub c q) (some r) → Produces m.grammar m.input c q r

/-- One visit of a node that answers: either the node is absent and does not match, or its shape
was matched with children one level less deep. -/
theorem answers_matchNode_succ {d c pos : Nat} {r : Option Parsed}
    (h : Answers (m.matchNode (d + 1) c pos) r) :
    (m.grammar.get? c = none ∧ r = none) ∨
      ∃ nd, m.grammar.get? c = some nd ∧
        Answers (m.matchShape (m.matchNode d) c nd.name pos nd.shape) r := by
  rw [matchNode] at h
  obtain ⟨_, -, h⟩ := answers_bind h
  obtain ⟨_, -, h⟩ := answers_bind h
  cases hn : m.grammar.get? c with
  | none =>
    simp only [hn] at h
    obtain ⟨a, ha, h⟩ := answers_bind h
    cases answers_pure ha
    simp only at h
    obtain ⟨_, -, h⟩ := answers_bind h
    exact .inl ⟨rfl, answers_pure h⟩
  | some nd =>
    simp only [hn] at h
    obtain ⟨a, ha, h⟩ := answers_bind h
    -- The result is recorded as an event and then returned unchanged.
    have hr : r = a := by
      cases a <;> simp only at h <;> obtain ⟨_, -, h⟩ := answers_bind h <;> exact answers_pure h
    subst hr
    exact .inr ⟨nd, rfl, ha⟩

theorem not_answers_matchNode_zero {c pos : Nat} {r : Option Parsed} :
    ¬ Answers (m.matchNode 0 c pos) r := by
  intro h
  rw [matchNode] at h
  obtain ⟨_, -, h⟩ := answers_bind h
  exact not_answers_throw h

theorem answers_matchChar_some {sh : Shape} {id pos : Nat} {name : Option String} {r : Parsed}
    (h : Answers (m.matchChar sh id name pos) (some r)) :
    ∃ q, sh.charEnd m.input pos = some q ∧ r = .mk id name pos q [] := by
  have hend := answers_matchChar h
  unfold matchChar at h
  cases hc : Text.charAt? m.input pos with
  | none =>
    simp only [hc] at h
    cases answers_failAt h
  | some c =>
    simp only [hc] at h
    split at h
    · cases answers_pure h
      exact ⟨_, hend.symm, rfl⟩
    · cases answers_failAt h

section Combinators

variable {sub : NodeId → Nat → MatchM (Option Parsed)}

/-- The parts of a sequence extend the ones matched so far with parses that follow each other. -/
theorem produces_matchParts (hsub : m.ProducesOnly sub) :
    ∀ (cs : List NodeId) (here : Nat) (acc : List Parsed) (stop : Nat) (rs : List Parsed),
      Answers (matchParts sub cs here acc) (some (stop, rs)) →
        ∃ more, rs = acc.reverse ++ more ∧ ProducesAll m.grammar m.input cs here more stop := by
  intro cs
  induction cs with
  | nil =>
    intro here acc stop rs h
    rw [matchParts] at h
    cases answers_pure h
    exact ⟨[], by simp, .nil⟩
  | cons c cs ih =>
    intro here acc stop rs h
    rw [matchParts] at h
    obtain ⟨a, ha, h⟩ := answers_bind h
    cases a with
    | none => cases answers_pure h
    | some p =>
      obtain ⟨more, rfl, hmore⟩ := ih p.stop (p :: acc) stop rs h
      exact ⟨p :: more, by simp, .cons (hsub c here p ha) hmore⟩

/-- A choice's parse is the parse of one of its alternatives. -/
theorem produces_matchAlternatives (hsub : m.ProducesOnly sub) {choice pos : Nat} :
    ∀ (as : List NodeId) (first : Bool) (r : Parsed),
      Answers (m.matchAlternatives sub choice pos first as) (some r) →
        ∃ alt ∈ as, Produces m.grammar m.input alt pos r := by
  intro as
  induction as with
  | nil =>
    intro first r h
    rw [matchAlternatives] at h
    cases answers_pure h
  | cons a as ih =>
    intro first r h
    rw [matchAlternatives] at h
    obtain ⟨b, hb, h⟩ := answers_bind (answers_of_ite_bind h)
    cases b with
    | none =>
      obtain ⟨alt, hmem, halt⟩ := ih false r h
      exact ⟨alt, List.mem_cons_of_mem a hmem, halt⟩
    | some p =>
      cases answers_pure h
      exact ⟨a, List.mem_cons_self, hsub a pos r hb⟩

/-- The rounds of a repetition extend the ones matched so far with parses of the body that follow
each other. -/
theorem produces_matchRepeats (hsub : m.ProducesOnly sub) {body : NodeId} :
    ∀ (k here : Nat) (acc : List Parsed) (stop : Nat) (rs : List Parsed),
      Answers (matchRepeats sub body k here acc) (stop, rs) →
        ∃ more, rs = acc.reverse ++ more ∧
          ProducesAll m.grammar m.input (List.replicate more.length body) here more stop := by
  intro k
  induction k with
  | zero =>
    intro here acc stop rs h
    rw [matchRepeats] at h
    cases answers_pure h
    exact ⟨[], by simp, .nil⟩
  | succ k ih =>
    intro here acc stop rs h
    rw [matchRepeats] at h
    obtain ⟨a, ha, h⟩ := answers_bind h
    cases a with
    | none =>
      cases answers_pure h
      exact ⟨[], by simp, .nil⟩
    | some p =>
      simp only at h
      split at h
      · exact absurd h not_answers_throw
      · obtain ⟨more, rfl, hmore⟩ := ih p.stop (p :: acc) stop rs h
        exact ⟨p :: more, by simp, .cons (hsub body here p ha) hmore⟩

/-- Every parse of a node's shape is produced by the node. -/
theorem produces_matchShape (hsub : m.ProducesOnly sub) {id pos : Nat} {nd : Node}
    (hnd : m.grammar.get? id = some nd) {r : Parsed}
    (h : Answers (m.matchShape sub id nd.name pos nd.shape) (some r)) :
    Produces m.grammar m.input id pos r := by
  generalize hsh : nd.shape = sh at h
  cases sh with
  | literal t =>
    rw [matchShape] at h
    split at h
    · cases answers_pure h
      exact .leaf hnd (by rw [hsh]; exact ⟨‹_›, rfl⟩)
    · cases answers_failAt h
  | charSet members negate =>
    rw [matchShape] at h
    obtain ⟨q, hq, rfl⟩ := answers_matchChar_some h
    exact .leaf hnd (by rw [hsh]; exact hq)
  | charRange lo hi negate =>
    rw [matchShape] at h
    obtain ⟨q, hq, rfl⟩ := answers_matchChar_some h
    exact .leaf hnd (by rw [hsh]; exact hq)
  | seq parts =>
    rw [matchShape] at h
    obtain ⟨a, ha, h⟩ := answers_bind h
    cases a with
    | none => cases answers_pure h
    | some a =>
      obtain ⟨stop, cs⟩ := a
      cases answers_pure h
      obtain ⟨more, rfl, hmore⟩ := produces_matchParts hsub parts pos [] stop cs ha
      exact .seq hnd hsh hmore
  | choice alternatives =>
    rw [matchShape] at h
    obtain ⟨a, ha, h⟩ := answers_bind h
    cases a with
    | none => cases answers_pure h
    | some p =>
      cases answers_pure h
      obtain ⟨alt, hmem, halt⟩ := produces_matchAlternatives hsub alternatives true p ha
      exact .choice hnd hsh hmem halt
  | oneOrMore body =>
    rw [matchShape] at h
    obtain ⟨⟨stop, cs⟩, hrep, h⟩ := answers_bind h
    obtain ⟨more, hcs, hmore⟩ := produces_matchRepeats hsub _ pos [] stop cs hrep
    simp only [List.reverse_nil, List.nil_append] at hcs
    subst hcs
    simp only at h
    split at h
    · cases answers_pure h
    · rename_i hne
      cases answers_pure h
      exact .oneOrMore hnd hsh (by simpa using hne) hmore
  | optional body =>
    rw [matchShape] at h
    obtain ⟨a, ha, h⟩ := answers_bind h
    cases a with
    | none =>
      cases answers_pure h
      exact .leaf hnd (by rw [hsh]; rfl)
    | some p =>
      cases answers_pure h
      exact .optional hnd hsh (hsub body pos p ha)
  | notFollowedBy body =>
    rw [matchShape] at h
    obtain ⟨_, -, h⟩ := answers_bind h
    obtain ⟨a, -, h⟩ := answers_bind h
    obtain ⟨_, -, h⟩ := answers_bind h
    cases a with
    | none =>
      cases answers_pure h
      exact .leaf hnd (by rw [hsh]; rfl)
    | some p => cases answers_pure h
  | endOfInput =>
    rw [matchShape] at h
    split at h
    · cases answers_pure h
      exact .leaf hnd (by rw [hsh]; rfl)
    · cases answers_failAt h
  | ref rule =>
    rw [matchShape] at h
    exact absurd h not_answers_throw

end Combinators

/-- Every parse the matcher gives, at any depth, is produced by the node it matched. -/
theorem produces_matchNode : ∀ d, m.ProducesOnly (m.matchNode d) := by
  intro d
  induction d with
  | zero => intro c q r h; exact absurd h not_answers_matchNode_zero
  | succ d ih =>
    intro c q r h
    rcases answers_matchNode_succ h with ⟨-, hr⟩ | ⟨nd, hnd, h⟩
    · cases hr
    · exact produces_matchShape ih hnd h

end Matching

/-- A finished match that found a parse ran the matcher from a character boundary and got that
parse. -/
theorem answers_of_matchAt_some {g : Grammar} {n : NodeId} {s : String} {p : Nat}
    {limits : Limits} {traced : Bool} {o : Outcome} {q : Parsed}
    (h : (matchAt g n s p limits traced).result = .ok o) (hq : o.parsed = some q) :
    Text.isBoundary s p = true ∧
      MatchM.Answers ((Matching.mk g s traced).matchNode limits.depth n p) (some q) := by
  unfold matchAt at h
  cases hp : Text.isBoundary s p with
  | false =>
    simp only [hp, Bool.not_false, ↓reduceIte, Except.ok.injEq] at h
    rw [← h] at hq
    cases hq
  | true =>
    simp only [hp, Bool.not_true, Bool.false_eq_true, ↓reduceIte] at h
    split at h
    · cases h
      simp only at hq
      subst hq
      exact ⟨rfl, _, _, ‹_›⟩
    · cases h

/-- The parse of a finished match is produced by the node matched, from the offset matched at. -/
theorem produces_of_matchAt {g : Grammar} {n : NodeId} {s : String} {p : Nat}
    {limits : Limits} {traced : Bool} {o : Outcome} {q : Parsed}
    (h : (matchAt g n s p limits traced).result = .ok o) (hq : o.parsed = some q) :
    Produces g s n p q :=
  Matching.produces_matchNode limits.depth n p q (answers_of_matchAt_some h hq).2

end Tokenweave
