import Tokenweave.Proofs.MatchSound
/-!
# Limits only cut runs off

Main statement (`matchAt_limits_extend`): a match that finishes with some fuel and depth
finishes in the same way with more of either, with the same parse, the same furthest failure and
the same events; and a match that stops with a fault other than running out of fuel or depth
stops with that fault again. The limits decide only whether a match runs out, never what it
finds.

The proof compares two runs step by step. `Outlasts x y` says that, from any progress given some
extra fuel, `y` ends every run that `x` ends, with the same answer or the same fault, and has
exactly that extra fuel left over; runs of `x` that stop on a limit are not compared. Paying for
a visit outlasts itself, since more fuel pays for it again and leaves more, and the other
primitive steps never read the fuel. `Outlasts` is kept by `>>=`, so each combinator of the
matcher outlasts itself once its sub-matches do (`outlasts_matchShape`), and a visit with more
depth left outlasts one with less (`outlasts_matchNode`): a visit with no depth left can only
stop on a limit, and otherwise both visits match the same shape.
-/

set_option autoImplicit false

namespace Tokenweave

/-- Whether a fault is a limit running out: the fuel or the depth. -/
def Fault.isLimit : Fault → Bool
  | .fuelExhausted | .depthExceeded => true
  | .unresolvedReference _ | .nonAdvancingRepeat _ => false

theorem Fault.isLimit_eq_false_iff {e : Fault} :
    e.isLimit = false ↔ e ≠ .fuelExhausted ∧ e ≠ .depthExceeded := by
  cases e <;> simp [Fault.isLimit]

/-- The same progress with `k` more units of fuel. -/
def Progress.refuel (σ : Progress) (k : Nat) : Progress := { σ with fuel := σ.fuel + k }

namespace MatchM

variable {α β : Type}

/-- `y` outlasts `x`: from any progress given `k` more units of fuel, `y` ends every run that
`x` ends, with the same answer, or with the same fault unless it is a limit, and with `k` more
units of fuel left. -/
def Outlasts (x y : MatchM α) : Prop :=
  ∀ σ k, (∀ a σ', x.run σ = .ok a σ' → y.run (σ.refuel k) = .ok a (σ'.refuel k)) ∧
    (∀ e σ', x.run σ = .error e σ' → e.isLimit = false →
      y.run (σ.refuel k) = .error e (σ'.refuel k))

namespace Outlasts

theorem pure (a : α) : Outlasts (pure a : MatchM α) (pure a) := by
  intro σ k
  refine ⟨fun _ _ h => ?_, fun _ _ h => ?_⟩ <;> cases h
  rfl

theorem throw (e : Fault) : Outlasts (throw e : MatchM α) (throw e) := by
  intro σ k
  refine ⟨fun _ _ h => ?_, fun _ _ h _ => ?_⟩ <;> cases h
  rfl

/-- A change of progress that commutes with adding fuel outlasts itself. -/
theorem modify {f : Progress → Progress} (hf : ∀ σ k, f (σ.refuel k) = (f σ).refuel k) :
    Outlasts (modify f : MatchM PUnit) (modify f) := by
  intro σ k
  refine ⟨fun _ _ h => ?_, fun _ _ h => ?_⟩ <;> cases h
  exact congrArg _ (hf σ k)

/-- A step that can only stop on a limit is outlasted by any other. -/
theorem of_stops_on_limit {x y : MatchM α}
    (hx : ∀ σ, (∀ a σ', x.run σ ≠ .ok a σ') ∧ ∀ e σ', x.run σ = .error e σ' → e.isLimit = true) :
    Outlasts x y :=
  fun σ _ => ⟨fun a σ' h => absurd h ((hx σ).1 a σ'),
    fun e σ' h he => by rw [(hx σ).2 e σ' h] at he; cases he⟩

theorem bind {x y : MatchM α} {f g : α → MatchM β} (hx : Outlasts x y)
    (hf : ∀ a, Outlasts (f a) (g a)) : Outlasts (x >>= f) (y >>= g) := by
  intro σ k
  simp only [EStateM.run_bind]
  cases hrun : x.run σ with
  | ok a σ₁ =>
    rw [(hx σ k).1 a σ₁ hrun]
    exact hf a σ₁ k
  | error e σ₁ =>
    refine ⟨fun _ _ h => ?_, fun e' σ' h he => ?_⟩
    · cases h
    · cases h
      rw [(hx σ k).2 e σ₁ hrun he]

theorem ite {c : Prop} [Decidable c] {x x' y y' : MatchM α} (hx : Outlasts x x')
    (hy : Outlasts y y') : Outlasts (if c then x else y) (if c then x' else y') := by
  split
  · exact hx
  · exact hy

/-- A step that may be preceded by an announcement outlasts itself when the announcement does. -/
theorem ite_bind {c : Prop} [Decidable c] {x : MatchM Unit} {f g : Unit → MatchM α}
    (hx : Outlasts x x) (hf : Outlasts (f ()) (g ())) :
    Outlasts (if c then x >>= f else f ()) (if c then x >>= g else g ()) :=
  Outlasts.ite (hx.bind fun _ => hf) hf

end Outlasts

end MatchM

namespace Matching

open MatchM

variable {m : Matching}

/-- More fuel pays for every visit that less fuel paid for, and leaves as much more. -/
theorem outlasts_spend : Outlasts spend spend := by
  intro σ k
  simp only [spend, EStateM.run_bind, EStateM.run_get]
  by_cases h0 : σ.fuel = 0
  · refine ⟨fun _ _ h => ?_, fun e _ h he => ?_⟩ <;>
      simp only [h0, ↓reduceIte] at h <;> cases h
    cases he
  · have hk : (σ.refuel k).fuel ≠ 0 := by simp only [Progress.refuel]; omega
    simp only [h0, hk, ↓reduceIte]
    refine ⟨fun _ _ h => ?_, fun _ _ h => ?_⟩ <;> cases h
    simp only [Progress.refuel, EStateM.run_set, EStateM.Result.ok.injEq, true_and]
    congr 1
    omega

theorem outlasts_note (ev : Event) : Outlasts (m.note ev) (m.note ev) := by
  unfold note
  split
  · exact Outlasts.modify fun _ _ => rfl
  · exact Outlasts.pure _

theorem outlasts_failAt (pos : Nat) : Outlasts (failAt pos) (failAt pos) := by
  unfold failAt
  refine (Outlasts.modify fun σ k => ?_).bind fun _ => Outlasts.pure _
  by_cases h : σ.lookahead = 0 <;> simp [h, Progress.refuel]

theorem outlasts_matchChar (sh : Shape) (id pos : Nat) (name : Option String) :
    Outlasts (m.matchChar sh id name pos) (m.matchChar sh id name pos) := by
  unfold matchChar
  split
  · exact Outlasts.ite (Outlasts.pure _) (outlasts_failAt pos)
  · exact outlasts_failAt pos

section Combinators

variable {sub sub' : NodeId → Nat → MatchM (Option Parsed)}
  (hsub : ∀ c q, Outlasts (sub c q) (sub' c q))
include hsub

theorem outlasts_matchParts : ∀ (cs : List NodeId) (here : Nat) (acc : List Parsed),
    Outlasts (matchParts sub cs here acc) (matchParts sub' cs here acc)
  | [], here, acc => Outlasts.pure _
  | c :: cs, here, acc => by
    rw [matchParts, matchParts]
    refine (hsub c here).bind fun a => ?_
    cases a with
    | none => exact Outlasts.pure _
    | some p => exact outlasts_matchParts cs p.stop (p :: acc)

theorem outlasts_matchAlternatives (choice pos : Nat) :
    ∀ (first : Bool) (as : List NodeId),
      Outlasts (m.matchAlternatives sub choice pos first as)
        (m.matchAlternatives sub' choice pos first as)
  | _, [] => Outlasts.pure _
  | first, a :: as => by
    rw [matchAlternatives, matchAlternatives]
    -- The announcement of a backtrack is made alike in both runs; the alternative decides.
    refine Outlasts.ite_bind (outlasts_note _) ((hsub a pos).bind fun b => ?_)
    cases b with
    | none => exact outlasts_matchAlternatives choice pos false as
    | some p => exact Outlasts.pure _

theorem outlasts_matchRepeats (body : NodeId) : ∀ (k here : Nat) (acc : List Parsed),
    Outlasts (matchRepeats sub body k here acc) (matchRepeats sub' body k here acc)
  | 0, here, acc => Outlasts.pure _
  | k + 1, here, acc => by
    rw [matchRepeats, matchRepeats]
    refine (hsub body here).bind fun a => ?_
    cases a with
    | none => exact Outlasts.pure _
    | some p =>
      exact Outlasts.ite (Outlasts.throw _) (outlasts_matchRepeats body k p.stop (p :: acc))

theorem outlasts_matchShape (id pos : Nat) (name : Option String) :
    ∀ sh : Shape, Outlasts (m.matchShape sub id name pos sh) (m.matchShape sub' id name pos sh)
  | .literal t => by
    rw [matchShape, matchShape]
    exact Outlasts.ite (Outlasts.pure _) (outlasts_failAt pos)
  | .charSet .. => outlasts_matchChar _ id pos name
  | .charRange .. => outlasts_matchChar _ id pos name
  | .seq parts => by
    rw [matchShape, matchShape]
    refine (outlasts_matchParts hsub parts pos []).bind fun a => ?_
    rcases a with _ | ⟨stop, cs⟩ <;> exact Outlasts.pure _
  | .choice alternatives => by
    rw [matchShape, matchShape]
    refine (outlasts_matchAlternatives hsub id pos true alternatives).bind fun a => ?_
    cases a <;> exact Outlasts.pure _
  | .oneOrMore body => by
    rw [matchShape, matchShape]
    refine (outlasts_matchRepeats hsub body _ pos []).bind fun a => ?_
    exact Outlasts.ite (Outlasts.pure _) (Outlasts.pure _)
  | .optional body => by
    rw [matchShape, matchShape]
    refine (hsub body pos).bind fun a => ?_
    cases a <;> exact Outlasts.pure _
  | .notFollowedBy body => by
    rw [matchShape, matchShape]
    refine (Outlasts.modify fun _ _ => rfl).bind fun _ => (hsub body pos).bind fun r =>
      (Outlasts.modify fun _ _ => rfl).bind fun _ => ?_
    cases r <;> exact Outlasts.pure _
  | .endOfInput => by
    rw [matchShape, matchShape]
    exact Outlasts.ite (Outlasts.pure _) (outlasts_failAt pos)
  | .ref rule => Outlasts.throw _

end Combinators

/-- A visit with no depth left can only stop: on the fuel, or on the depth. -/
theorem stops_on_limit_matchNode_zero (c pos : Nat) (σ : Progress) :
    (∀ a σ', (m.matchNode 0 c pos).run σ ≠ .ok a σ') ∧
      ∀ e σ', (m.matchNode 0 c pos).run σ = .error e σ' → e.isLimit = true := by
  rw [matchNode]
  simp only [spend, EStateM.run_bind, EStateM.run_get]
  by_cases h0 : σ.fuel = 0
  · simp only [h0, ↓reduceIte]
    refine ⟨fun _ _ h => ?_, fun _ _ h => ?_⟩ <;> cases h
    rfl
  · simp only [h0, ↓reduceIte, EStateM.run_set]
    refine ⟨fun _ _ h => ?_, fun _ _ h => ?_⟩ <;> cases h
    rfl

/-- A visit with more depth left outlasts one with less. -/
theorem outlasts_matchNode : ∀ {d d' : Nat}, d ≤ d' → ∀ c pos,
    Outlasts (m.matchNode d c pos) (m.matchNode d' c pos)
  | 0, _, _, c, pos => Outlasts.of_stops_on_limit (stops_on_limit_matchNode_zero c pos)
  | _ + 1, 0, hd, _, _ => absurd hd (Nat.not_succ_le_zero _)
  | d + 1, d' + 1, hd, c, pos => by
    rw [matchNode, matchNode]
    refine outlasts_spend.bind fun _ => (outlasts_note _).bind fun _ => ?_
    -- Both visits match the same shape, with children one level less deep on each side, and
    -- record its result alike.
    cases m.grammar.get? c with
    | none =>
      dsimp only
      refine (Outlasts.pure none).bind fun r => ?_
      cases r <;> exact (outlasts_note _).bind fun _ => Outlasts.pure _
    | some node =>
      dsimp only
      refine (outlasts_matchShape (fun c' q => outlasts_matchNode (Nat.le_of_succ_le_succ hd) c' q)
        c pos node.name node.shape).bind fun r => ?_
      cases r <;> exact (outlasts_note _).bind fun _ => Outlasts.pure _

end Matching

/-- The progress a match starts from, with more fuel, is the one it starts from with that much
more fuel. -/
theorem Progress.refuel_start {f f' : Nat} (p : Nat) (hf : f ≤ f') :
    (⟨f', p, 0, []⟩ : Progress) = Progress.refuel ⟨f, p, 0, []⟩ (f' - f) := by
  simp only [Progress.refuel, Progress.mk.injEq, and_true]
  omega

/-- Limits only cut runs off: a match that finishes with some fuel and depth finishes in the
same way, events included, with at least as much of both; and a match that stops with a fault
other than the two limits stops in the same way with more of them. -/
theorem matchAt_limits_extend (g : Grammar) (n : NodeId) (s : String) (p : Nat)
    (limits limits' : Limits) (traced : Bool) (hfuel : limits.fuel ≤ limits'.fuel)
    (hdepth : limits.depth ≤ limits'.depth) :
    (∀ o, (matchAt g n s p limits traced).result = .ok o →
      matchAt g n s p limits' traced = matchAt g n s p limits traced) ∧
    (∀ e, (matchAt g n s p limits traced).result = .error e → e ≠ .fuelExhausted →
      e ≠ .depthExceeded → matchAt g n s p limits' traced = matchAt g n s p limits traced) := by
  unfold matchAt
  cases hp : Text.isBoundary s p with
  | false => exact ⟨fun _ _ => rfl, fun _ _ _ _ => rfl⟩
  | true =>
    simp only [Bool.not_true, Bool.false_eq_true, ↓reduceIte]
    have hrun := Matching.outlasts_matchNode (m := ⟨g, s, traced⟩) hdepth n p
      ⟨limits.fuel, p, 0, []⟩ (limits'.fuel - limits.fuel)
    rw [← Progress.refuel_start p hfuel] at hrun
    cases hsmall : (Matching.matchNode ⟨g, s, traced⟩ limits.depth n p).run
        ⟨limits.fuel, p, 0, []⟩ with
    | ok r σ' =>
      rw [hrun.1 r σ' hsmall]
      refine ⟨fun _ _ => rfl, fun _ h => ?_⟩
      cases h
    | error e σ' =>
      refine ⟨fun _ h => ?_, fun e' h hfe hde => ?_⟩
      · cases h
      cases h
      rw [hrun.2 e σ' hsmall (Fault.isLimit_eq_false_iff.mpr ⟨hfe, hde⟩)]
      rfl

/-- On `42`, seven visits three levels deep find the parse, and the default limits find the
same run. -/
theorem digitPair_limits_extend :
    (matchAt digitPair 0 "42" 0 ⟨7, 3⟩).result =
        .ok ⟨some (.mk 4 none 0 2 [.mk 2 none 0 1 [], .mk 2 none 1 2 []]), 1⟩ ∧
      matchAt digitPair 0 "42" 0 {} = matchAt digitPair 0 "42" 0 ⟨7, 3⟩ :=
  ⟨rfl, (matchAt_limits_extend digitPair 0 "42" 0 ⟨7, 3⟩ {} false (by decide) (by decide)).1 _
    rfl⟩

/-- One visit less runs out of fuel. -/
example : (matchAt digitPair 0 "42" 0 ⟨6, 3⟩).result = .error .fuelExhausted := rfl

end Tokenweave
