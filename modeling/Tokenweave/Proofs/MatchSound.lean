import Tokenweave.Proofs.Peg
/-!
# The matcher agrees with the semantics

Main statement (`matchAt_agrees_peg`): when a match from a character boundary finishes, its
answer is the one the parsing-expression semantics `Peg` gives: the parse ends at `e` exactly
when the node derives `e`, and there is no parse exactly when the node derives failure. This
holds for every grammar, cyclic or not, linked or not, and whatever the limits: limits and
faults only decide whether the matcher finishes, never what it answers when it does.

The proof reads every run of the matcher as a derivation. `Answers x a` says that some run of
the step `x`, from some progress, answers `a`; the answers of a step do not depend on the
progress it starts from, so nothing about fuel, events or the furthest failure enters here.
Each combinator gets one lemma that turns the answers of its sub-matches into a derivation
(`answers_matchParts`, `answers_matchAlternatives`, `answers_matchRepeats`,
`answers_matchShape`), and `sound_matchNode` ties them together by induction on the depth left.

A repetition gives up after one attempt more than there are bytes left. Its lemma shows that
this last attempt is never reached: every attempt that succeeds consumes at least one byte, and
no success passes the end of the text (`Peg.le_size_of_some`). The other direction needs no
run at all: a goal has one result (`Peg.unique`), so the matcher's answer is the only one.
-/

set_option autoImplicit false

namespace Tokenweave

namespace MatchM

variable {α β : Type}

/-- `x` can answer `a`: some run of it, from some progress, ends with the answer `a`. -/
def Answers (x : MatchM α) (a : α) : Prop := ∃ σ σ', x.run σ = .ok a σ'

/-- `x` can stop with the fault `e`. -/
def Stops (x : MatchM α) (e : Fault) : Prop := ∃ σ σ', x.run σ = .error e σ'

theorem answers_bind {x : MatchM α} {f : α → MatchM β} {b : β} (h : Answers (x >>= f) b) :
    ∃ a, Answers x a ∧ Answers (f a) b := by
  obtain ⟨σ, σ', h⟩ := h
  rw [EStateM.run_bind] at h
  split at h
  · exact ⟨_, ⟨σ, _, ‹_›⟩, _, _, h⟩
  · cases h

theorem stops_bind {x : MatchM α} {f : α → MatchM β} {e : Fault} (h : Stops (x >>= f) e) :
    Stops x e ∨ ∃ a, Answers x a ∧ Stops (f a) e := by
  obtain ⟨σ, σ', h⟩ := h
  rw [EStateM.run_bind] at h
  split at h
  · exact .inr ⟨_, ⟨σ, _, ‹_›⟩, _, _, h⟩
  · cases h
    exact .inl ⟨σ, _, ‹_›⟩

theorem answers_pure {a b : α} (h : Answers (pure a : MatchM α) b) : b = a := by
  obtain ⟨σ, σ', h⟩ := h
  cases h
  rfl

theorem not_stops_pure {a : α} {e : Fault} : ¬ Stops (pure a : MatchM α) e := by
  rintro ⟨σ, σ', h⟩
  cases h

theorem not_stops_modify {f : Progress → Progress} {e : Fault} :
    ¬ Stops (modify f : MatchM PUnit) e := by
  rintro ⟨σ, σ', h⟩
  cases h

/-- A step that may be preceded by an announcement answers what it answers alone. -/
theorem answers_of_ite_bind {c : Prop} [Decidable c] {x : MatchM Unit} {k : Unit → MatchM α}
    {a : α} (h : Answers (if c then x >>= k else k ()) a) : Answers (k ()) a := by
  split at h
  · obtain ⟨⟨⟩, -, h⟩ := answers_bind h
    exact h
  · exact h

theorem not_answers_throw {e : Fault} {a : α} : ¬ Answers (throw e : MatchM α) a := by
  rintro ⟨σ, σ', h⟩
  cases h

theorem stops_throw {e e' : Fault} (h : Stops (throw e : MatchM α) e') : e' = e := by
  obtain ⟨σ, σ', h⟩ := h
  cases h
  rfl

end MatchM

namespace Parsed

@[simp] theorem stop_mk {n : NodeId} {name : Option String} {start stop : Nat}
    {cs : List Parsed} : (Parsed.mk n name start stop cs).stop = stop := rfl

@[simp] theorem stop_inherit {p : Parsed} {name : Option String} :
    (p.inherit name).stop = p.stop := by
  unfold inherit
  split <;> rfl

end Parsed

namespace Matching

open MatchM

variable {m : Matching}

theorem not_stops_note {ev : Event} {e : Fault} : ¬ Stops (m.note ev) e := by
  unfold note
  split
  · exact not_stops_modify
  · exact not_stops_pure

theorem answers_failAt {pos : Nat} {r : Option Parsed} (h : Answers (failAt pos) r) : r = none := by
  obtain ⟨_, -, h⟩ := answers_bind h
  exact answers_pure h

theorem not_stops_failAt {pos : Nat} {e : Fault} : ¬ Stops (failAt pos) e := by
  intro h
  rcases stops_bind h with h | ⟨_, -, h⟩
  · exact not_stops_modify h
  · exact not_stops_pure h

/-- Paying for a visit can only run out of fuel. -/
theorem stops_spend {e : Fault} (h : Stops spend e) : e = .fuelExhausted := by
  obtain ⟨σ, σ', h⟩ := h
  simp only [spend, EStateM.run_bind, EStateM.run_get] at h
  split at h
  · cases h
    rfl
  · cases h

/-- Every answer of `sub` from an offset inside the text is the result the semantics gives. -/
def Sound (m : Matching) (sub : NodeId → Nat → MatchM (Option Parsed)) : Prop :=
  ∀ c q r, q ≤ m.input.utf8ByteSize → Answers (sub c q) r →
    Peg m.grammar m.input (.node c) q (r.map Parsed.stop)

section Combinators

variable {sub : NodeId → Nat → MatchM (Option Parsed)}

theorem answers_matchParts (hsub : m.Sound sub) :
    ∀ (cs : List NodeId) (here : Nat) (acc : List Parsed) (r : Option (Nat × List Parsed)),
      here ≤ m.input.utf8ByteSize → Answers (matchParts sub cs here acc) r →
        Peg m.grammar m.input (.parts cs) here (r.map Prod.fst) := by
  intro cs
  induction cs with
  | nil =>
    intro here acc r _ h
    rw [matchParts] at h
    rw [answers_pure h]
    exact .partsNil
  | cons c cs ih =>
    intro here acc r hhere h
    rw [matchParts] at h
    obtain ⟨a, ha, h⟩ := answers_bind h
    have hc := hsub c here a hhere ha
    cases a with
    | none =>
      rw [answers_pure h]
      exact .partsFail hc
    | some p =>
      exact .partsCons hc (ih p.stop _ r (Peg.le_size_of_some hc hhere) h)

theorem answers_matchAlternatives (hsub : m.Sound sub) {choice pos : Nat}
    (hpos : pos ≤ m.input.utf8ByteSize) :
    ∀ (as : List NodeId) (first : Bool) (r : Option Parsed),
      Answers (m.matchAlternatives sub choice pos first as) r →
        Peg m.grammar m.input (.alternatives as) pos (r.map Parsed.stop) := by
  intro as
  induction as with
  | nil =>
    intro first r h
    rw [matchAlternatives] at h
    rw [answers_pure h]
    exact .alternativesNil
  | cons a as ih =>
    intro first r h
    rw [matchAlternatives] at h
    -- The announcement of a backtrack answers nothing of interest; only the alternative's
    -- own answer decides.
    obtain ⟨b, hb, h⟩ := answers_bind (answers_of_ite_bind h)
    have ha := hsub a pos b hpos hb
    cases b with
    | none => exact .alternativesNext ha (ih false r h)
    | some p =>
      rw [answers_pure h]
      exact .alternativesHit ha

/-- The matches a repetition collects extend the ones it was given. -/
theorem matchRepeats_extends {body : NodeId} :
    ∀ (k here : Nat) (acc : List Parsed) (stop : Nat) (cs : List Parsed),
      Answers (matchRepeats sub body k here acc) (stop, cs) → ∃ more, cs = acc.reverse ++ more := by
  intro k
  induction k with
  | zero =>
    intro here acc stop cs h
    rw [matchRepeats] at h
    cases answers_pure h
    exact ⟨[], (List.append_nil _).symm⟩
  | succ k ih =>
    intro here acc stop cs h
    rw [matchRepeats] at h
    obtain ⟨a, -, h⟩ := answers_bind h
    cases a with
    | none =>
      cases answers_pure h
      exact ⟨[], (List.append_nil _).symm⟩
    | some p =>
      simp only at h
      split at h
      · exact absurd h not_answers_throw
      · obtain ⟨more, rfl⟩ := ih _ _ _ _ h
        exact ⟨p :: more, by simp⟩

/-- With more attempts left than bytes, a repetition's answer is the end of its rounds. -/
theorem answers_matchRepeats (hsub : m.Sound sub) {body : NodeId} :
    ∀ (k here : Nat) (acc : List Parsed) (stop : Nat) (cs : List Parsed),
      here ≤ m.input.utf8ByteSize → m.input.utf8ByteSize < here + k →
        Answers (matchRepeats sub body k here acc) (stop, cs) →
          Peg m.grammar m.input (.rounds body) here (some stop) := by
  intro k
  induction k with
  | zero =>
    intro here acc stop cs hhere hk _
    omega
  | succ k ih =>
    intro here acc stop cs hhere hk h
    rw [matchRepeats] at h
    obtain ⟨a, ha, h⟩ := answers_bind h
    have hb := hsub body here a hhere ha
    cases a with
    | none =>
      cases answers_pure h
      exact .roundsStop hb
    | some p =>
      simp only at h
      split at h
      · exact absurd h not_answers_throw
      · rename_i hne
        -- A round that succeeds consumes at least one byte and stays inside the text.
        have hle := Peg.le_of_some hb
        have hend := Peg.le_size_of_some hb hhere
        exact .roundsNext hb (ih p.stop _ stop cs hend (by omega) h)

theorem answers_matchChar {sh : Shape} {id pos : Nat} {name : Option String} {r : Option Parsed}
    (h : Answers (m.matchChar sh id name pos) r) : r.map Parsed.stop = sh.charEnd m.input pos := by
  unfold matchChar at h
  unfold Shape.charEnd
  cases hc : Text.charAt? m.input pos with
  | none =>
    simp only [hc] at h
    rw [answers_failAt h]
    rfl
  | some c =>
    simp only [hc] at h ⊢
    split at h
    · rw [answers_pure h, if_pos ‹_›]
      rfl
    · rw [answers_failAt h, if_neg ‹_›]
      rfl

/-- Every answer of one node's shape is the semantics' result for that shape. -/
theorem answers_matchShape (hsub : m.Sound sub) {id pos : Nat} {name : Option String}
    (hpos : pos ≤ m.input.utf8ByteSize) :
    ∀ (sh : Shape) (r : Option Parsed), Answers (m.matchShape sub id name pos sh) r →
      Peg m.grammar m.input (.shape sh) pos (r.map Parsed.stop)
  | .literal t, r, h => by
    rw [matchShape] at h
    split at h
    · rw [answers_pure h]
      simpa [*] using (Peg.literal (g := m.grammar) (s := m.input) (t := t) (p := pos))
    · rw [answers_failAt h]
      simpa [*] using (Peg.literal (g := m.grammar) (s := m.input) (t := t) (p := pos))
  | .charSet members negate, r, h => by
    rw [matchShape] at h
    rw [answers_matchChar h]
    exact .charSet
  | .charRange lo hi negate, r, h => by
    rw [matchShape] at h
    rw [answers_matchChar h]
    exact .charRange
  | .seq parts, r, h => by
    rw [matchShape] at h
    obtain ⟨a, ha, h⟩ := answers_bind h
    have hparts := answers_matchParts hsub parts pos [] a hpos ha
    apply Peg.seq
    cases a with
    | none =>
      rw [answers_pure h]
      exact hparts
    | some a =>
      rw [answers_pure h]
      exact hparts
  | .choice alternatives, r, h => by
    rw [matchShape] at h
    obtain ⟨a, ha, h⟩ := answers_bind h
    have halts := answers_matchAlternatives hsub hpos alternatives true a ha
    apply Peg.choice
    cases a with
    | none =>
      rw [answers_pure h]
      exact halts
    | some p =>
      rw [answers_pure h]
      simpa using halts
  | .oneOrMore body, r, h => by
    rw [matchShape] at h
    obtain ⟨⟨stop, cs⟩, hrep, h⟩ := answers_bind h
    -- The repetition is opened by one round by hand: whether it collected anything is
    -- whether this first round succeeded.
    rw [show m.input.utf8ByteSize - pos + 1 = (m.input.utf8ByteSize - pos) + 1 from rfl,
      matchRepeats] at hrep
    obtain ⟨a, ha, hrep⟩ := answers_bind hrep
    have hb := hsub body pos a hpos ha
    cases a with
    | none =>
      cases answers_pure hrep
      rw [answers_pure h]
      exact .oneOrMoreFail hb
    | some p =>
      simp only at hrep
      split at hrep
      · exact absurd hrep not_answers_throw
      · have hle := Peg.le_of_some hb
        have hend := Peg.le_size_of_some hb hpos
        have hrounds := answers_matchRepeats hsub _ p.stop [p] stop cs hend (by omega) hrep
        obtain ⟨more, rfl⟩ := matchRepeats_extends _ _ _ _ _ hrep
        rw [answers_pure h]
        exact .oneOrMore hb hrounds
  | .optional body, r, h => by
    rw [matchShape] at h
    obtain ⟨a, ha, h⟩ := answers_bind h
    have hb := hsub body pos a hpos ha
    cases a with
    | none =>
      rw [answers_pure h]
      exact .optionalEmpty hb
    | some p =>
      rw [answers_pure h]
      exact .optional hb
  | .notFollowedBy body, r, h => by
    rw [matchShape] at h
    obtain ⟨_, -, h⟩ := answers_bind h
    obtain ⟨a, ha, h⟩ := answers_bind h
    obtain ⟨_, -, h⟩ := answers_bind h
    have hb := hsub body pos a hpos ha
    cases a with
    | none =>
      rw [answers_pure h]
      exact .notFollowedBy hb
    | some p =>
      rw [answers_pure h]
      exact .notFollowedByFail hb
  | .endOfInput, r, h => by
    rw [matchShape] at h
    split at h
    · rw [answers_pure h]
      simpa [*] using (Peg.endOfInput (g := m.grammar) (s := m.input) (p := pos))
    · rw [answers_failAt h]
      simpa [*] using (Peg.endOfInput (g := m.grammar) (s := m.input) (p := pos))
  | .ref rule, r, h => by
    rw [matchShape] at h
    exact absurd h not_answers_throw

end Combinators

/-- Every answer of the matcher, at any depth, is the semantics' result. -/
theorem sound_matchNode : ∀ d, m.Sound (m.matchNode d) := by
  intro d
  induction d with
  | zero =>
    intro c q r _ h
    rw [matchNode] at h
    obtain ⟨_, -, h⟩ := answers_bind h
    exact absurd h not_answers_throw
  | succ d ih =>
    intro c q r hq h
    rw [matchNode] at h
    obtain ⟨_, -, h⟩ := answers_bind h
    obtain ⟨_, -, h⟩ := answers_bind h
    cases hn : m.grammar.get? c with
    | none =>
      simp only [hn] at h
      obtain ⟨a, ha, h⟩ := answers_bind h
      cases answers_pure ha
      simp only at h
      obtain ⟨_, -, h⟩ := answers_bind h
      cases answers_pure h
      exact .absent hn
    | some nd =>
      simp only [hn] at h
      obtain ⟨a, ha, h⟩ := answers_bind h
      -- The result is recorded as an event and then returned unchanged.
      have hr : r = a := by
        cases a <;> simp only at h <;> obtain ⟨_, -, h⟩ := answers_bind h <;> exact answers_pure h
      subst hr
      exact .node hn (answers_matchShape ih hq nd.shape r ha)

end Matching

/-- A finished match ran the matcher from its root at a character boundary, with the fuel and
depth of the limits, unless the offset is no character boundary. -/
theorem answers_of_matchAt {g : Grammar} {n : NodeId} {s : String} {p : Nat} {limits : Limits}
    {traced : Bool} {o : Outcome} (h : (matchAt g n s p limits traced).result = .ok o) :
    Text.isBoundary s p = false ∨
      MatchM.Answers ((Matching.mk g s traced).matchNode limits.depth n p) o.parsed := by
  unfold matchAt at h
  cases hp : Text.isBoundary s p with
  | false => exact .inl rfl
  | true =>
    simp only [hp, Bool.not_true, Bool.false_eq_true, ↓reduceIte] at h
    split at h
    · cases h
      exact .inr ⟨_, _, ‹_›⟩
    · cases h

/-- A match that stops with a fault ran the matcher from its root at a character boundary,
starting with the fuel of the limits, and the matcher stopped with that fault. -/
theorem run_of_matchAt_error {g : Grammar} {n : NodeId} {s : String} {p : Nat}
    {limits : Limits} {traced : Bool} {e : Fault}
    (h : (matchAt g n s p limits traced).result = .error e) :
    Text.isBoundary s p = true ∧ ∃ σ',
      ((Matching.mk g s traced).matchNode limits.depth n p).run ⟨limits.fuel, p, 0, []⟩ =
        .error e σ' := by
  unfold matchAt at h
  cases hp : Text.isBoundary s p with
  | false => simp [hp] at h
  | true =>
    simp only [hp, Bool.not_true, Bool.false_eq_true, ↓reduceIte] at h
    split at h
    · cases h
    · cases h
      exact ⟨rfl, _, ‹_›⟩

theorem stops_of_matchAt {g : Grammar} {n : NodeId} {s : String} {p : Nat} {limits : Limits}
    {traced : Bool} {e : Fault} (h : (matchAt g n s p limits traced).result = .error e) :
    Text.isBoundary s p = true ∧
      MatchM.Stops ((Matching.mk g s traced).matchNode limits.depth n p) e := by
  obtain ⟨hp, σ', hrun⟩ := run_of_matchAt_error h
  exact ⟨hp, _, σ', hrun⟩

/-- A finished match from a character boundary answers what the semantics derives: its parse
ends at `e` exactly when node `n` derives a success ending at `e`, and it has no parse exactly
when `n` derives failure. -/
theorem matchAt_agrees_peg (g : Grammar) (n : NodeId) (s : String) (p : Nat) (limits : Limits)
    (traced : Bool) (hp : Text.isBoundary s p = true) (o : Outcome)
    (h : (matchAt g n s p limits traced).result = .ok o) :
    (∀ e, (∃ t, o.parsed = some t ∧ t.stop = e) ↔ Peg g s (.node n) p (some e)) ∧
      (o.parsed = none ↔ Peg g s (.node n) p none) := by
  have hrun : MatchM.Answers ((Matching.mk g s traced).matchNode limits.depth n p) o.parsed := by
    rcases answers_of_matchAt h with hp' | hrun
    · rw [hp] at hp'
      cases hp'
    · exact hrun
  have hpeg : Peg g s (.node n) p (o.parsed.map Parsed.stop) :=
    Matching.sound_matchNode limits.depth n p o.parsed (Text.le_size_of_isBoundary hp) hrun
  refine ⟨fun e => ⟨?_, fun he => ?_⟩, ⟨fun hn => ?_, fun hn => ?_⟩⟩
  · rintro ⟨t, ht, rfl⟩
    simpa [ht] using hpeg
  · cases ht : o.parsed with
    | none =>
      rw [ht] at hpeg
      cases Peg.unique hpeg he
    | some t =>
      rw [ht] at hpeg
      exact ⟨t, rfl, Option.some.inj (Peg.unique hpeg he)⟩
  · simpa [hn] using hpeg
  · cases ht : o.parsed with
    | none => rfl
    | some t =>
      rw [ht] at hpeg
      cases Peg.unique hpeg hn

/-- A digit followed by a letter, or else two digits. -/
def digitPair : Grammar :=
  { nodes := #[{ shape := .choice [1, 4] }, { shape := .seq [2, 3] },
      { shape := .charRange '0' '9' false }, { shape := .charRange 'a' 'z' false },
      { shape := .seq [2, 2] }] }

/-- The statement on `42`: the first alternative matches the digit `4` and then fails, and the
choice backtracks to the second. -/
theorem digitPair_agrees_peg :
    Text.isBoundary "42" 0 = true ∧
      (matchAt digitPair 0 "42" 0).result =
        .ok ⟨some (.mk 4 none 0 2 [.mk 2 none 0 1 [], .mk 2 none 1 2 []]), 1⟩ ∧
      ((∀ e, (∃ t, (some (Parsed.mk 4 none 0 2 [.mk 2 none 0 1 [], .mk 2 none 1 2 []]) =
          some t ∧ t.stop = e)) ↔ Peg digitPair "42" (.node 0) 0 (some e)) ∧
        (some (Parsed.mk 4 none 0 2 [.mk 2 none 0 1 [], .mk 2 none 1 2 []]) = none ↔
          Peg digitPair "42" (.node 0) 0 none)) :=
  ⟨by decide, rfl, matchAt_agrees_peg digitPair 0 "42" 0 {} false (by decide) _ rfl⟩

end Tokenweave
