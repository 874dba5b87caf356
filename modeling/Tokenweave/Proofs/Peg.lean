import Mathlib
import Tokenweave.Match.Run
/-!
# Parsing-expression semantics

`Peg g s e p r` is the standard semantics of parsing expressions with ordered choice, read over
the nodes of a grammar graph: matching `e` against the text `s` from byte offset `p` ends at
offset `q` (`r = some q`) or fails (`r = none`).

* a literal succeeds when the text continues with it, and a character class or range when the
  character at `p` is one it takes; the end of input succeeds exactly at the end of the text;
* a sequence threads the offset through its parts and fails as soon as one part fails;
* a choice gives the first alternative that succeeds, trying them in order;
* a repetition matches its body once and then as many more rounds as it can;
* an optional gives its body's success, or succeeds without consuming anything;
* a negation succeeds without consuming anything exactly when its body fails.

An unlinked rule has no derivation at all, and an index that names no node fails. The relation
is read inductively, so a repetition whose body succeeds without consuming input has no
derivation either: that would take infinitely many rounds.

Derivations are about a node, a shape, the parts of a sequence still to match, the alternatives
of a choice still to try, or the further rounds of a repetition (`Goal`). The laws here are the
ones every later proof leans on: a goal has at most one result (`Peg.unique`), and a success
never moves backwards nor past the end of the text (`Peg.le_of_some`, `Peg.le_size_of_some`).
-/

set_option autoImplicit false

namespace Tokenweave

namespace Text

/-- A character boundary lies inside the text or at its end. -/
theorem le_size_of_isBoundary {s : String} {p : Nat} (h : isBoundary s p = true) :
    p ≤ s.utf8ByteSize :=
  (String.Pos.Raw.isValid_eq_true_iff.mp h).le_utf8ByteSize

/-- A literal that occurs at `p` ends inside the text. -/
theorem le_size_of_occursAt {s t : String} {p : Nat} (h : occursAt s p t = true) :
    p + t.utf8ByteSize ≤ s.utf8ByteSize := by
  simp only [occursAt, Bool.and_eq_true] at h
  exact le_size_of_isBoundary h.1.2

/-- The character decoded at an offset inside a list of characters ends inside it; an offset
between two character starts decodes as the one-byte default character. -/
theorem le_size_of_utf8GetAux (p : Nat) :
    ∀ (cs : List Char) (i : Nat), p < i + (String.ofList cs).utf8ByteSize →
      p + (String.Pos.Raw.utf8GetAux cs ⟨i⟩ ⟨p⟩).utf8Size ≤ i + (String.ofList cs).utf8ByteSize := by
  intro cs
  induction cs with
  | nil =>
    intro i h
    simp only [String.ofList_nil, String.utf8ByteSize_empty, Nat.add_zero] at h ⊢
    have hdefault : (default : Char).utf8Size = 1 := rfl
    simp only [String.Pos.Raw.utf8GetAux, hdefault]
    omega
  | cons c cs ih =>
    intro i h
    simp only [String.ofList_cons, String.utf8ByteSize_append, String.utf8ByteSize_singleton]
      at h ⊢
    simp only [String.Pos.Raw.utf8GetAux]
    split
    · rename_i heq
      simp only [String.Pos.Raw.mk.injEq] at heq
      omega
    · have := ih (i + c.utf8Size) (by omega)
      simp only [String.Pos.Raw.add_char_eq] at *
      omega

/-- The character read at `p` ends inside the text. -/
theorem le_size_of_charAt {s : String} {p : Nat} {c : Char} (h : charAt? s p = some c) :
    p + c.utf8Size ≤ s.utf8ByteSize := by
  unfold charAt? at h
  split at h
  · rename_i hlt
    cases h
    have := le_size_of_utf8GetAux p s.toList 0 (by simpa [String.ofList_toList] using hlt)
    simpa [String.Pos.Raw.get, String.ofList_toList] using this
  · cases h

end Text

/-- The end of a one-character match of `sh` at `p`: just past the character there, when `sh`
takes it. -/
def Shape.charEnd (sh : Shape) (s : String) (p : Nat) : Option Nat :=
  match Text.charAt? s p with
  | some c => if sh.accepts c then some (p + c.utf8Size) else none
  | none => none

theorem Shape.charEnd_eq_some {sh : Shape} {s : String} {p q : Nat} (h : sh.charEnd s p = some q) :
    ∃ c, Text.charAt? s p = some c ∧ sh.accepts c = true ∧ q = p + c.utf8Size := by
  unfold Shape.charEnd at h
  split at h
  · rename_i c hc
    split at h
    · cases h
      exact ⟨c, hc, ‹_›, rfl⟩
    · cases h
  · cases h

/-- What a derivation is about. -/
inductive Goal where
  /-- A node of the grammar. -/
  | node (id : NodeId)
  /-- A node's shape. -/
  | shape (sh : Shape)
  /-- The parts of a sequence still to match. -/
  | parts (ids : List NodeId)
  /-- The alternatives of a choice still to try. -/
  | alternatives (ids : List NodeId)
  /-- Further rounds of a repetition of `body`. -/
  | rounds (body : NodeId)

/-- `Peg g s e p r`: matching `e` against `s` from offset `p` ends at `r`, an offset, or fails
(`none`). -/
inductive Peg (g : Grammar) (s : String) : Goal → Nat → Option Nat → Prop where
  | absent {id p} : g.get? id = none → Peg g s (.node id) p none
  | node {id nd p r} : g.get? id = some nd → Peg g s (.shape nd.shape) p r → Peg g s (.node id) p r
  | literal {t p} :
      Peg g s (.shape (.literal t)) p
        (if Text.occursAt s p t then some (p + t.utf8ByteSize) else none)
  | charSet {members negate p} :
      Peg g s (.shape (.charSet members negate)) p ((Shape.charSet members negate).charEnd s p)
  | charRange {lo hi negate p} :
      Peg g s (.shape (.charRange lo hi negate)) p ((Shape.charRange lo hi negate).charEnd s p)
  | seq {parts p r} : Peg g s (.parts parts) p r → Peg g s (.shape (.seq parts)) p r
  | choice {alternatives p r} :
      Peg g s (.alternatives alternatives) p r → Peg g s (.shape (.choice alternatives)) p r
  | oneOrMore {body p q r} :
      Peg g s (.node body) p (some q) → Peg g s (.rounds body) q r →
        Peg g s (.shape (.oneOrMore body)) p r
  | oneOrMoreFail {body p} : Peg g s (.node body) p none → Peg g s (.shape (.oneOrMore body)) p none
  | optional {body p q} :
      Peg g s (.node body) p (some q) → Peg g s (.shape (.optional body)) p (some q)
  | optionalEmpty {body p} :
      Peg g s (.node body) p none → Peg g s (.shape (.optional body)) p (some p)
  | notFollowedBy {body p} :
      Peg g s (.node body) p none → Peg g s (.shape (.notFollowedBy body)) p (some p)
  | notFollowedByFail {body p q} :
      Peg g s (.node body) p (some q) → Peg g s (.shape (.notFollowedBy body)) p none
  | endOfInput {p} :
      Peg g s (.shape .endOfInput) p (if p = s.utf8ByteSize then some p else none)
  | partsNil {p} : Peg g s (.parts []) p (some p)
  | partsCons {c cs p q r} :
      Peg g s (.node c) p (some q) → Peg g s (.parts cs) q r → Peg g s (.parts (c :: cs)) p r
  | partsFail {c cs p} : Peg g s (.node c) p none → Peg g s (.parts (c :: cs)) p none
  | alternativesNil {p} : Peg g s (.alternatives []) p none
  | alternativesHit {a as p q} :
      Peg g s (.node a) p (some q) → Peg g s (.alternatives (a :: as)) p (some q)
  | alternativesNext {a as p r} :
      Peg g s (.node a) p none → Peg g s (.alternatives as) p r →
        Peg g s (.alternatives (a :: as)) p r
  | roundsStop {body p} : Peg g s (.node body) p none → Peg g s (.rounds body) p (some p)
  | roundsNext {body p q r} :
      Peg g s (.node body) p (some q) → Peg g s (.rounds body) q r → Peg g s (.rounds body) p r

namespace Peg

variable {g : Grammar} {s : String}

/-- A goal has at most one result. -/
theorem unique {e : Goal} {p : Nat} {r₁ r₂ : Option Nat} (h₁ : Peg g s e p r₁)
    (h₂ : Peg g s e p r₂) : r₁ = r₂ := by
  induction h₁ generalizing r₂ with
  | absent hn =>
    cases h₂ with
    | absent => rfl
    | node hn' => rw [hn] at hn'; cases hn'
  | node hn _ ih =>
    cases h₂ with
    | absent hn' => rw [hn] at hn'; cases hn'
    | node hn' h₂ =>
      rw [hn] at hn'
      cases hn'
      exact ih h₂
  | literal | charSet | charRange | endOfInput | partsNil | alternativesNil => cases h₂; rfl
  | seq _ ih => cases h₂ with | seq h₂ => exact ih h₂
  | choice _ ih => cases h₂ with | choice h₂ => exact ih h₂
  | oneOrMore _ _ ih₁ ih₂ =>
    cases h₂ with
    | oneOrMore h₂ h₃ =>
      cases ih₁ h₂
      exact ih₂ h₃
    | oneOrMoreFail h₂ => cases ih₁ h₂
  | oneOrMoreFail _ ih =>
    cases h₂ with
    | oneOrMore h₂ _ => cases ih h₂
    | oneOrMoreFail => rfl
  | optional _ ih =>
    cases h₂ with
    | optional h₂ => exact ih h₂
    | optionalEmpty h₂ => cases ih h₂
  | optionalEmpty _ ih =>
    cases h₂ with
    | optional h₂ => cases ih h₂
    | optionalEmpty => rfl
  | notFollowedBy _ ih =>
    cases h₂ with
    | notFollowedBy => rfl
    | notFollowedByFail h₂ => cases ih h₂
  | notFollowedByFail _ ih =>
    cases h₂ with
    | notFollowedBy h₂ => cases ih h₂
    | notFollowedByFail => rfl
  | partsCons _ _ ih₁ ih₂ =>
    cases h₂ with
    | partsCons h₂ h₃ =>
      cases ih₁ h₂
      exact ih₂ h₃
    | partsFail h₂ => cases ih₁ h₂
  | partsFail _ ih =>
    cases h₂ with
    | partsCons h₂ _ => cases ih h₂
    | partsFail => rfl
  | alternativesHit _ ih =>
    cases h₂ with
    | alternativesHit h₂ => exact ih h₂
    | alternativesNext h₂ _ => cases ih h₂
  | alternativesNext _ _ ih₁ ih₂ =>
    cases h₂ with
    | alternativesHit h₂ => cases ih₁ h₂
    | alternativesNext _ h₃ => exact ih₂ h₃
  | roundsStop _ ih =>
    cases h₂ with
    | roundsStop => rfl
    | roundsNext h₂ _ => cases ih h₂
  | roundsNext _ _ ih₁ ih₂ =>
    cases h₂ with
    | roundsStop h₂ => cases ih₁ h₂
    | roundsNext h₂ h₃ =>
      cases ih₁ h₂
      exact ih₂ h₃

/-- A success ends no earlier than it starts, and no later than the end of the text unless it
starts past it. -/
theorem bounds {e : Goal} {p q : Nat} (h : Peg g s e p (some q)) :
    p ≤ q ∧ q ≤ max p s.utf8ByteSize := by
  generalize hr : some q = r at h
  induction h generalizing q with
  | absent | oneOrMoreFail | notFollowedByFail | partsFail | alternativesNil => cases hr
  | node _ _ ih | seq _ ih | choice _ ih | optional _ ih | alternativesHit _ ih
  | alternativesNext _ _ _ ih => exact ih hr
  | @literal t p =>
    split at hr
    · cases hr
      have := Text.le_size_of_occursAt ‹_›
      omega
    · cases hr
  | charSet | charRange =>
    obtain ⟨c, hc, -, rfl⟩ := Shape.charEnd_eq_some hr.symm
    have := Text.le_size_of_charAt hc
    omega
  | endOfInput =>
    split at hr
    · cases hr
      omega
    · cases hr
  | optionalEmpty | notFollowedBy | partsNil | roundsStop =>
    cases hr
    omega
  | oneOrMore _ _ ih₁ ih₂ | partsCons _ _ ih₁ ih₂ | roundsNext _ _ ih₁ ih₂ =>
    have h₁ := ih₁ rfl
    have h₂ := ih₂ hr
    omega

/-- A success never moves backwards. -/
theorem le_of_some {e : Goal} {p q : Nat} (h : Peg g s e p (some q)) : p ≤ q :=
  (bounds h).1

/-- A success that starts inside the text ends inside it. -/
theorem le_size_of_some {e : Goal} {p q : Nat} (h : Peg g s e p (some q))
    (hp : p ≤ s.utf8ByteSize) : q ≤ s.utf8ByteSize := by
  have := (bounds h).2
  omega

/-- Only a node of the grammar succeeds. -/
theorem lt_size_of_some {id p q : Nat} (h : Peg g s (.node id) p (some q)) : id < g.size := by
  cases h with
  | node hn _ =>
    simp only [Grammar.get?] at hn
    exact (Array.getElem?_eq_some_iff.mp hn).1

end Peg

end Tokenweave
