import Tokenweave.Proofs.Tiling
import Tokenweave.Proofs.Backtracking
import Tokenweave.Diagnostic.Basic
/-!
# Match positions stay on character boundaries

Main statement (`match_positions_on_boundaries`): matching from a character boundary `p` of a
text only ever looks at character boundaries of the text from `p` to its end. Every node is
entered at one, every match ends at one, the furthest failure is one, and so is the offset a
fault points at; every node of the parse tree spans from one to another. The events a traced
match records carry those offsets, so a trace reads the text only between boundaries. A
rejection of input by a lexer points at boundaries too, and so does its report.

Matching moves through the text in three ways only: a literal moves by its length, to where it
ends on a boundary (`Text.isBoundary_of_occursAt`); a character class or range moves over one
whole character (`Text.isBoundary_of_charAt`); everything else either stays or moves to where a
part ended. So the offsets a run records form an invariant of the progress
(`Progress.OnBoundaries`), and `Keeps` says that a step keeps it and stops only with a fault
that points at a boundary. The parts of a parse end on boundaries because every parse is tiled
(`Produces.tiled`), which is also what places every node of the tree.
-/

set_option autoImplicit false

namespace Tokenweave

open Text

/-- `q` is a character boundary of `s` from `lo` to the end of `s`. -/
def Text.BoundaryFrom (s : String) (lo q : Nat) : Prop :=
  lo ≤ q ∧ q ≤ s.utf8ByteSize ∧ isBoundary s q = true

theorem Text.BoundaryFrom.of_isBoundary {s : String} {lo q : Nat} (hlo : lo ≤ q)
    (hq : isBoundary s q = true) : BoundaryFrom s lo q :=
  ⟨hlo, le_size_of_isBoundary hq, hq⟩

theorem Text.BoundaryFrom.mono {s : String} {lo lo' q : Nat} (h : BoundaryFrom s lo' q)
    (hlo : lo ≤ lo') : BoundaryFrom s lo q :=
  ⟨Nat.le_trans hlo h.1, h.2⟩

theorem Text.boundaryFrom_max {s : String} {lo a b : Nat} (ha : BoundaryFrom s lo a)
    (hb : BoundaryFrom s lo b) : BoundaryFrom s lo (max a b) := by
  rcases Nat.le_total a b with hab | hab
  · rwa [Nat.max_eq_right hab]
  · rwa [Nat.max_eq_left hab]

/-- A parse produced from a boundary ends on a boundary no earlier. -/
theorem Produces.boundaryFrom_stop {g : Grammar} {s : String} {a : NodeId} {q : Nat} {p : Parsed}
    (hp : Produces g s a q p) (hq : isBoundary s q = true) : BoundaryFrom s q p.stop :=
  BoundaryFrom.of_isBoundary (hp.start_eq ▸ Parsed.Tiled.le p hp.tiled)
    (Parsed.Tiled.boundary_stop p hp.tiled (hp.start_eq ▸ hq))

/-- The offsets an event points at. -/
def Event.positions : Event → List Nat
  | .enter _ pos | .failure _ pos | .backtrack _ pos => [pos]
  | .success _ start stop => [start, stop]

/-- The offsets a rejection of input points at. -/
def Rejection.positions : Rejection → List Nat
  | .noMatch position _ => [position]
  | .incomplete consumed position _ => [consumed, position]
  | .fault f => f.position?.toList

/-- Every offset a progress records lies on a character boundary of `s` from `lo` on: the
furthest failure, and each offset of each event. -/
def Progress.OnBoundaries (s : String) (lo : Nat) (σ : Progress) : Prop :=
  BoundaryFrom s lo σ.furthest ∧ ∀ ev ∈ σ.events, ∀ q ∈ ev.positions, BoundaryFrom s lo q

/-- A fault points at a character boundary of `s` from `lo` on, if at anything. -/
def Fault.OnBoundary (s : String) (lo : Nat) (e : Fault) : Prop :=
  ∀ q ∈ e.position?.toList, BoundaryFrom s lo q

/-- Everything a run of the matcher from `p` points into `s` lies on a character boundary of `s`
from `p` on: the offsets of its events, the offset of its fault, its furthest failure and the end
of its parse; and every node of its parse tree spans a valid stretch of `s` from `p` on. -/
structure Run.OnBoundaries (s : String) (p : Nat) (r : Run) : Prop where
  events : ∀ ev ∈ r.events, ∀ q ∈ ev.positions, BoundaryFrom s p q
  fault : ∀ e, r.result = .error e → Fault.OnBoundary s p e
  furthest : ∀ o, r.result = .ok o → BoundaryFrom s p o.furthest
  stop : ∀ o q, r.result = .ok o → o.parsed = some q → BoundaryFrom s p q.stop
  spans : ∀ o q, r.result = .ok o → o.parsed = some q → ∀ x < (ParseTree.ofParsed s q).size,
    p ≤ ((ParseTree.ofParsed s q).entry x).start ∧
      ParseTree.validSpan s ((ParseTree.ofParsed s q).entry x).start
        ((ParseTree.ofParsed s q).entry x).stop = true

/-- A rejection of `input` points only at character boundaries of it, and so does its report. -/
structure Rejection.OnBoundaries (input : String) (rej : Rejection) : Prop where
  positions : ∀ q ∈ rej.positions, BoundaryFrom input 0 q
  start : BoundaryFrom input 0 (Diagnostic.ofRejection rej).start
  stop : BoundaryFrom input 0 (Diagnostic.ofRejection rej).stop

namespace MatchM

variable {α β : Type} {I : Progress → Prop} {E : Fault → Prop}

/-- `x` keeps `I`: every run of `x` from a progress satisfying `I`, finished or stopped, leaves a
progress satisfying `I`, and a fault it stops with satisfies `E`. -/
def Keeps (I : Progress → Prop) (E : Fault → Prop) (x : MatchM α) : Prop :=
  ∀ σ, I σ → (∀ a σ', x.run σ = .ok a σ' → I σ') ∧ ∀ e σ', x.run σ = .error e σ' → I σ' ∧ E e

namespace Keeps

theorem pure (a : α) : Keeps I E (pure a : MatchM α) := by
  intro σ hσ
  refine ⟨fun _ _ h => ?_, fun _ _ h => ?_⟩ <;> cases h
  exact hσ

theorem throw {e : Fault} (he : E e) : Keeps I E (throw e : MatchM α) := by
  intro σ hσ
  refine ⟨fun _ _ h => ?_, fun _ _ h => ?_⟩ <;> cases h
  exact ⟨hσ, he⟩

theorem modify {f : Progress → Progress} (hf : ∀ σ, I σ → I (f σ)) :
    Keeps I E (modify f : MatchM PUnit) := by
  intro σ hσ
  refine ⟨fun _ _ h => ?_, fun _ _ h => ?_⟩ <;> cases h
  exact hf σ hσ

/-- The continuation has to keep `I` only after the answers the first step can give. -/
theorem bind {x : MatchM α} {f : α → MatchM β} (hx : Keeps I E x)
    (hf : ∀ a, Answers x a → Keeps I E (f a)) : Keeps I E (x >>= f) := by
  intro σ hσ
  simp only [EStateM.run_bind]
  cases hrun : x.run σ with
  | ok a σ₁ => exact hf a ⟨σ, σ₁, hrun⟩ σ₁ ((hx σ hσ).1 a σ₁ hrun)
  | error e σ₁ =>
    refine ⟨fun _ _ h => ?_, fun _ _ h => ?_⟩ <;> cases h
    exact (hx σ hσ).2 e σ₁ hrun

theorem ite {c : Prop} [Decidable c] {x y : MatchM α} (hx : Keeps I E x) (hy : Keeps I E y) :
    Keeps I E (if c then x else y) := by
  split
  · exact hx
  · exact hy

/-- A step that may be preceded by an announcement keeps `I` when both do. -/
theorem ite_bind {c : Prop} [Decidable c] {x : MatchM Unit} {f : Unit → MatchM α}
    (hx : Keeps I E x) (hf : Keeps I E (f ())) : Keeps I E (if c then x >>= f else f ()) :=
  Keeps.ite (hx.bind fun _ _ => hf) hf

end Keeps

end MatchM

namespace Matching

open MatchM

variable {m : Matching} {lo : Nat}

section Steps

theorem keeps_spend :
    Keeps (Progress.OnBoundaries m.input lo) (Fault.OnBoundary m.input lo) spend := by
  intro σ hσ
  simp only [spend, EStateM.run_bind, EStateM.run_get]
  split
  · refine ⟨fun _ _ h => ?_, fun _ _ h => ?_⟩ <;> cases h
    exact ⟨hσ, fun _ hq => absurd hq List.not_mem_nil⟩
  · refine ⟨fun _ _ h => ?_, fun _ _ h => ?_⟩ <;> cases h
    exact hσ

theorem keeps_note (ev : Event) (hev : ∀ q ∈ ev.positions, BoundaryFrom m.input lo q) :
    Keeps (Progress.OnBoundaries m.input lo) (Fault.OnBoundary m.input lo) (m.note ev) := by
  unfold note
  split
  · refine Keeps.modify fun σ hσ => ⟨hσ.1, fun ev' hev' => ?_⟩
    rcases List.mem_cons.mp hev' with rfl | hev'
    · exact hev
    · exact hσ.2 ev' hev'
  · exact Keeps.pure _

theorem keeps_failAt {pos : Nat} (hpos : BoundaryFrom m.input lo pos) :
    Keeps (Progress.OnBoundaries m.input lo) (Fault.OnBoundary m.input lo) (failAt pos) := by
  unfold failAt
  refine (Keeps.modify fun σ hσ => ?_).bind fun _ _ => Keeps.pure _
  split
  · exact ⟨boundaryFrom_max hσ.1 hpos, hσ.2⟩
  · exact hσ

/-- Opening or closing a negation records no offset. -/
theorem keeps_lookahead (f : Nat → Nat) :
    Keeps (Progress.OnBoundaries m.input lo) (Fault.OnBoundary m.input lo)
      (modify fun σ => { σ with lookahead := f σ.lookahead } : MatchM PUnit) :=
  Keeps.modify fun _ hσ => hσ

theorem keeps_matchChar {sh : Shape} {id pos : Nat} {name : Option String}
    (hpos : BoundaryFrom m.input lo pos) :
    Keeps (Progress.OnBoundaries m.input lo) (Fault.OnBoundary m.input lo)
      (m.matchChar sh id name pos) := by
  unfold matchChar
  split
  · exact Keeps.ite (Keeps.pure _) (keeps_failAt hpos)
  · exact keeps_failAt hpos

end Steps

section Combinators

variable {sub : NodeId → Nat → MatchM (Option Parsed)}
  (hsub : ∀ c q, BoundaryFrom m.input lo q →
    Keeps (Progress.OnBoundaries m.input lo) (Fault.OnBoundary m.input lo) (sub c q))
  (hprod : m.ProducesOnly sub)
include hsub hprod

theorem keeps_matchParts : ∀ (cs : List NodeId) (here : Nat) (acc : List Parsed),
    BoundaryFrom m.input lo here →
      Keeps (Progress.OnBoundaries m.input lo) (Fault.OnBoundary m.input lo)
        (matchParts sub cs here acc)
  | [], _, _, _ => Keeps.pure _
  | c :: cs, here, acc, hhere => by
    rw [matchParts]
    refine (hsub c here hhere).bind fun a ha => ?_
    cases a with
    | none => exact Keeps.pure _
    | some p =>
      -- The next part starts where this one ended.
      exact keeps_matchParts cs p.stop (p :: acc)
        (((hprod c here p ha).boundaryFrom_stop hhere.2.2).mono hhere.1)

omit hprod in
theorem keeps_matchAlternatives {choice pos : Nat} (hpos : BoundaryFrom m.input lo pos) :
    ∀ (first : Bool) (as : List NodeId),
      Keeps (Progress.OnBoundaries m.input lo) (Fault.OnBoundary m.input lo)
        (m.matchAlternatives sub choice pos first as)
  | _, [] => Keeps.pure _
  | first, a :: as => by
    rw [matchAlternatives]
    -- The backtrack announced before every alternative but the first is at `pos`.
    refine Keeps.ite_bind (keeps_note _ fun q hq => ?_) ((hsub a pos hpos).bind fun b _ => ?_)
    · rw [List.mem_singleton.mp hq]
      exact hpos
    · cases b with
      | none => exact keeps_matchAlternatives hpos false as
      | some p => exact Keeps.pure _

theorem keeps_matchRepeats (body : NodeId) : ∀ (k here : Nat) (acc : List Parsed),
    BoundaryFrom m.input lo here →
      Keeps (Progress.OnBoundaries m.input lo) (Fault.OnBoundary m.input lo)
        (matchRepeats sub body k here acc)
  | 0, _, _, _ => Keeps.pure _
  | k + 1, here, acc, hhere => by
    rw [matchRepeats]
    refine (hsub body here hhere).bind fun a ha => ?_
    cases a with
    | none => exact Keeps.pure _
    | some p =>
      -- A round that consumed nothing stops at a boundary; any other moves on to one.
      refine Keeps.ite (Keeps.throw fun q hq => ?_)
        (keeps_matchRepeats body k p.stop (p :: acc)
          (((hprod body here p ha).boundaryFrom_stop hhere.2.2).mono hhere.1))
      rw [Option.mem_toList, Fault.position?, Option.some.injEq] at hq
      exact hq ▸ hhere

theorem keeps_matchShape {id pos : Nat} {name : Option String}
    (hpos : BoundaryFrom m.input lo pos) : ∀ sh : Shape,
      Keeps (Progress.OnBoundaries m.input lo) (Fault.OnBoundary m.input lo)
        (m.matchShape sub id name pos sh)
  | .literal t => by
    rw [matchShape]
    exact Keeps.ite (Keeps.pure _) (keeps_failAt hpos)
  | .charSet .. => keeps_matchChar hpos
  | .charRange .. => keeps_matchChar hpos
  | .seq parts => by
    rw [matchShape]
    refine (keeps_matchParts hsub hprod parts pos [] hpos).bind fun a _ => ?_
    rcases a with _ | ⟨stop, cs⟩ <;> exact Keeps.pure _
  | .choice alternatives => by
    rw [matchShape]
    refine (keeps_matchAlternatives hsub hpos true alternatives).bind fun a _ => ?_
    cases a <;> exact Keeps.pure _
  | .oneOrMore body => by
    rw [matchShape]
    refine (keeps_matchRepeats hsub hprod body _ pos [] hpos).bind fun _ _ => ?_
    exact Keeps.ite (Keeps.pure _) (Keeps.pure _)
  | .optional body => by
    rw [matchShape]
    refine (hsub body pos hpos).bind fun a _ => ?_
    cases a <;> exact Keeps.pure _
  | .notFollowedBy body => by
    rw [matchShape]
    refine (keeps_lookahead (· + 1)).bind fun _ _ => (hsub body pos hpos).bind fun r _ =>
      (keeps_lookahead (· - 1)).bind fun _ _ => ?_
    cases r <;> exact Keeps.pure _
  | .endOfInput => by
    rw [matchShape]
    exact Keeps.ite (Keeps.pure _) (keeps_failAt hpos)
  | .ref rule => Keeps.throw fun _ hq => absurd hq List.not_mem_nil

end Combinators

/-- A visit at a boundary from `lo` on records only boundaries from `lo` on, and stops only with
a fault that points at one. -/
theorem keeps_matchNode : ∀ (d c pos : Nat), BoundaryFrom m.input lo pos →
    Keeps (Progress.OnBoundaries m.input lo) (Fault.OnBoundary m.input lo) (m.matchNode d c pos)
  | 0, c, pos, _ => by
    rw [matchNode]
    exact keeps_spend.bind fun _ _ => Keeps.throw fun _ hq => absurd hq List.not_mem_nil
  | d + 1, c, pos, hpos => by
    have hat : ∀ q ∈ [pos], BoundaryFrom m.input lo q := by
      intro q hq
      rw [List.mem_singleton.mp hq]
      exact hpos
    rw [matchNode]
    refine keeps_spend.bind fun _ _ => (keeps_note (.enter c pos) hat).bind fun _ _ => ?_
    cases hnd : m.grammar.get? c with
    | none =>
      dsimp only
      refine (Keeps.pure none).bind fun r hr => ?_
      cases answers_pure hr
      exact (keeps_note (.failure c pos) hat).bind fun _ _ => Keeps.pure _
    | some node =>
      dsimp only
      refine (keeps_matchShape (fun c' q hq => keeps_matchNode d c' q hq) (produces_matchNode d)
        hpos node.shape).bind fun r hr => ?_
      cases r with
      | none => exact (keeps_note (.failure c pos) hat).bind fun _ _ => Keeps.pure _
      | some p =>
        -- The success names where the node began and where its parse ended.
        have hstop : BoundaryFrom m.input lo p.stop :=
          ((produces_matchShape (produces_matchNode d) hnd hr).boundaryFrom_stop hpos.2.2).mono
            hpos.1
        refine (keeps_note _ fun q hq => ?_).bind fun _ _ => Keeps.pure _
        rcases List.mem_cons.mp hq with rfl | hq
        · exact hpos
        · rw [List.mem_singleton.mp hq]
          exact hstop

end Matching

section Match

variable {g : Grammar} {n : NodeId} {s : String} {p : Nat} {limits : Limits} {traced : Bool}

/-- Matching from a boundary records boundaries from there on: in every event, in the furthest
failure of a finished match, and in the fault of one that stops. -/
theorem matchAt_onBoundaries (g : Grammar) (n : NodeId) (limits : Limits) (traced : Bool)
    (hp : isBoundary s p = true) :
    (∀ ev ∈ (matchAt g n s p limits traced).events, ∀ q ∈ ev.positions, BoundaryFrom s p q) ∧
      (∀ o, (matchAt g n s p limits traced).result = .ok o → BoundaryFrom s p o.furthest) ∧
      ∀ e, (matchAt g n s p limits traced).result = .error e → Fault.OnBoundary s p e := by
  have hstart : Progress.OnBoundaries s p ⟨limits.fuel, p, 0, []⟩ :=
    ⟨BoundaryFrom.of_isBoundary (Nat.le_refl p) hp, fun _ hev => absurd hev List.not_mem_nil⟩
  have hkeeps := Matching.keeps_matchNode (m := ⟨g, s, traced⟩) limits.depth n p
    (BoundaryFrom.of_isBoundary (Nat.le_refl p) hp) _ hstart
  unfold matchAt
  simp only [hp, Bool.not_true, Bool.false_eq_true, ↓reduceIte]
  split
  · rename_i r σ' hrun
    have hσ' := hkeeps.1 r σ' hrun
    refine ⟨fun ev hev => hσ'.2 ev (List.mem_reverse.mp hev), fun o ho => ?_, fun _ h => ?_⟩
    · cases ho
      exact hσ'.1
    · cases h
  · rename_i e σ' hrun
    have hσ' := hkeeps.2 e σ' hrun
    refine ⟨fun ev hev => hσ'.1.2 ev (List.mem_reverse.mp hev), fun _ h => ?_, fun e' h => ?_⟩
    · cases h
    · cases h
      exact hσ'.2

/-- Parts that follow each other from `a` begin at `a` or later. -/
theorem Parsed.TiledAll.le_start {g : Grammar} {s : String} :
    ∀ {a b : Nat} {cs : List Parsed}, Parsed.TiledAll g s a cs b → ∀ c ∈ cs, a ≤ c.start
  | _, _, [], _, _, hc => absurd hc List.not_mem_nil
  | _, _, c :: _, ⟨hstart, hc, hrest⟩, x, hx => by
    rcases List.mem_cons.mp hx with rfl | hx
    · exact Nat.le_of_eq hstart.symm
    · have := Parsed.TiledAll.le_start hrest x hx
      have := Parsed.Tiled.le c hc
      omega

/-- Every node of the tree of a finished match spans a valid stretch of the text that begins no
earlier than the match. -/
theorem matchAt_tree_spans {o : Outcome} {q : Parsed}
    (h : (matchAt g n s p limits traced).result = .ok o) (hq : o.parsed = some q) :
    ∀ x < (ParseTree.ofParsed s q).size,
      p ≤ ((ParseTree.ofParsed s q).entry x).start ∧
        ParseTree.validSpan s ((ParseTree.ofParsed s q).entry x).start
          ((ParseTree.ofParsed s q).entry x).stop = true := by
  intro x hx
  obtain ⟨hbd, -⟩ := answers_of_matchAt_some h hq
  have hprod := produces_of_matchAt h hq
  -- Being tiled and beginning on a boundary from `p` on passes from a parse to its parts.
  have hered : ∀ q' : Parsed, q'.Tiled g s ∧ BoundaryFrom s p q'.start →
      ∀ c ∈ q'.children, c.Tiled g s ∧ BoundaryFrom s p c.start := by
    rintro ⟨n', name, a, b, cs⟩ ⟨htiled, hstart⟩ c hc
    obtain ⟨hct, hcb⟩ := Parsed.tiled_hereditary _ ⟨htiled, hstart.2.2⟩ c hc
    refine ⟨hct, BoundaryFrom.of_isBoundary (Nat.le_trans hstart.1 ?_) hcb⟩
    cases cs with
    | nil => exact absurd hc List.not_mem_nil
    | cons c' cs' => exact Parsed.TiledAll.le_start htiled c hc
  obtain ⟨_, _, q', hb, htiled, hstart⟩ := ParseTree.ofParsed_every hered
    ⟨hprod.tiled, BoundaryFrom.of_isBoundary (Nat.le_of_eq hprod.start_eq.symm)
      (hprod.start_eq ▸ hbd)⟩ hx
  obtain ⟨-, -, hs, he, -⟩ := ParseTree.entry_of_built hb
  have hstop := Parsed.Tiled.boundary_stop q' htiled hstart.2.2
  rw [hs, he]
  refine ⟨hstart.1, ?_⟩
  simp only [ParseTree.validSpan, Bool.and_eq_true, decide_eq_true_eq]
  exact ⟨⟨⟨Parsed.Tiled.le q' htiled, le_size_of_isBoundary hstop⟩, hstart.2.2⟩, hstop⟩

/-- The parse of a finished match ends on a boundary from where it began. -/
theorem matchAt_stop_boundaryFrom {o : Outcome} {q : Parsed}
    (h : (matchAt g n s p limits traced).result = .ok o) (hq : o.parsed = some q) :
    BoundaryFrom s p q.stop := by
  obtain ⟨hbd, -⟩ := answers_of_matchAt_some h hq
  exact (produces_of_matchAt h hq).boundaryFrom_stop hbd

end Match

/-- The report of a rejection points at the offset the rejection names, or else at the start. -/
theorem Diagnostic.ofRejection_span (rej : Rejection) :
    (Diagnostic.ofRejection rej).start = rej.position?.getD 0 ∧
      (Diagnostic.ofRejection rej).stop = rej.position?.getD 0 := by
  cases rej <;> exact ⟨rfl, rfl⟩

theorem Rejection.mem_positions_of_position? {rej : Rejection} {q : Nat}
    (h : rej.position? = some q) : q ∈ rej.positions := by
  cases rej with
  | noMatch | incomplete =>
    cases h
    simp [positions]
  | fault f => simpa [positions, position?] using h

/-- A rejection whose offsets are boundaries is reported at one. -/
theorem Rejection.OnBoundaries.of_positions {input : String} {rej : Rejection}
    (h : ∀ q ∈ rej.positions, BoundaryFrom input 0 q) : rej.OnBoundaries input := by
  have hat : BoundaryFrom input 0 (rej.position?.getD 0) := by
    cases hq : rej.position? with
    | none => exact BoundaryFrom.of_isBoundary (Nat.le_refl 0) (by simp [isBoundary])
    | some q => exact h q (mem_positions_of_position? hq)
  obtain ⟨hstart, hstop⟩ := Diagnostic.ofRejection_span rej
  exact ⟨h, hstart ▸ hat, hstop ▸ hat⟩

/-- A lexer rejects input only at boundaries of it: the offsets the rejection carries, and the
span its report points at. -/
theorem Lexer.run_rejection_onBoundaries (lx : Lexer) (input : String) (traced : Bool)
    {rej : Rejection} (h : (lx.run input traced).1 = .error rej) : rej.OnBoundaries input := by
  obtain ⟨_, hfurthest, hfault⟩ := matchAt_onBoundaries lx.grammar lx.root lx.limits traced
    (show isBoundary input 0 = true by simp [isBoundary])
  refine .of_positions fun q hq => ?_
  simp only [Lexer.run, matchTree_eq] at h
  generalize hr : (matchAt lx.grammar lx.root input 0 lx.limits traced).result = r at h
  -- A fault names its own offset, a match without a parse its furthest failure, and a parse
  -- that stops short its end and the further of the two.
  rcases r with f | ⟨_ | p, furthest⟩
  · cases h
    exact hfault f hr q hq
  · cases h
    simp only [Rejection.positions, List.mem_singleton] at hq
    exact hq ▸ hfurthest _ hr
  · simp only [Except.map, Option.map_some, Lexer.judge] at h
    split at h
    · cases h
      have hstop := matchAt_stop_boundaryFrom hr rfl
      simp only [Rejection.positions, List.mem_cons, List.not_mem_nil, or_false] at hq
      rcases hq with rfl | rfl
      · exact hstop
      · exact boundaryFrom_max (hfurthest _ hr) hstop
    · cases h

/-- Match positions stay on character boundaries. A match from a boundary `p` enters nodes, ends
parses, fails furthest and stops on faults only at boundaries between `p` and the end of the
text, as the events of a traced match show, and every node of its parse tree spans a valid
stretch from `p` on. A lexer's rejection of input, and its report, point only at boundaries of
the input. -/
theorem match_positions_on_boundaries :
    (∀ (g : Grammar) (n : NodeId) (s : String) (p : Nat) (limits : Limits) (traced : Bool),
      isBoundary s p = true → (matchAt g n s p limits traced).OnBoundaries s p) ∧
    ∀ (lx : Lexer) (input : String) (traced : Bool) (rej : Rejection),
      (lx.run input traced).1 = .error rej → rej.OnBoundaries input := by
  refine ⟨fun g n s p limits traced hp => ?_, fun lx input traced _ h => ?_⟩
  · obtain ⟨hevents, hfurthest, hfault⟩ := matchAt_onBoundaries g n limits traced hp
    exact ⟨hevents, hfault, hfurthest, fun _ _ ho hq => matchAt_stop_boundaryFrom ho hq,
      fun _ _ ho hq => matchAt_tree_spans ho hq⟩
  · exact Lexer.run_rejection_onBoundaries lx input traced h

/-- On `hié` the greeting matches `hi` and then finds neither a mark nor the end before the
two-byte `é`: the traced match and the rejection point at offset 2, just before it. -/
theorem greeting_positions_on_boundaries :
    isBoundary "hié" 0 = true ∧ (matchAt greeting 0 "hié" 0 {} true).OnBoundaries "hié" 0 ∧
      (Lexer.run ⟨greeting, 0, {}⟩ "hié" true).1 = .error (.noMatch 2 "\"é\"") ∧
      (Rejection.noMatch 2 "\"é\"").OnBoundaries "hié" :=
  ⟨by decide, match_positions_on_boundaries.1 greeting 0 "hié" 0 {} true (by decide), rfl,
    match_positions_on_boundaries.2 ⟨greeting, 0, {}⟩ "hié" true _ rfl⟩

end Tokenweave
