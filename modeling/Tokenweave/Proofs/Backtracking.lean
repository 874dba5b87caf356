import Tokenweave.Proofs.Arena
import Tokenweave.Proofs.MatchSound
import Tokenweave.Match.Build
/-!
# Backtracking leaves nothing behind

The matcher that builds the tree (`Matching.buildNode`) runs as the matcher of parses
(`Matching.matchNode`) does, step for step, and its arena holds exactly the parse: a visit that
matches pushes the nodes of its parse onto the arena it started from, root last, and a visit
that does not match leaves the arena as it found it (`builds_buildNode`). So `matchTree` gives
the tree of the parse `matchAt` finds, with the same furthest failure, faults and events
(`matchTree_eq`).

The proof compares two runs step by step, as for the limits. `Builds b x y R` says that from the
arena `b` and any progress, the building step `x` ends as the matching step `y` ends, with the
same progress, and with an answer and an arena that `R` relates to the answer of `y`. Steps of
progress alone are lifted into building unchanged, and `Builds` is kept by `>>=`, so each
combinator builds what it matches once its sub-matches do. Within a visit an attempt that
failed may leave the nodes of its parts after the arena it started from (`LaysOut`); the visit
cuts them away, so that a visit lays out exactly `layout b r`.
-/

set_option autoImplicit false

namespace Tokenweave

namespace TreeBuilder

/-- `b'` holds the nodes of `b`, unchanged, and perhaps more after them. -/
def Extends (b b' : TreeBuilder) : Prop :=
  b.nodes.size ≤ b'.nodes.size ∧ ∀ i < b.nodes.size, b'.nodes[i]? = b.nodes[i]?

theorem Extends.refl (b : TreeBuilder) : b.Extends b := ⟨Nat.le_refl _, fun _ _ => rfl⟩

theorem Extends.trans {b₁ b₂ b₃ : TreeBuilder} (h₁ : b₁.Extends b₂) (h₂ : b₂.Extends b₃) :
    b₁.Extends b₃ :=
  ⟨Nat.le_trans h₁.1 h₂.1, fun i hi => (h₂.2 i (Nat.lt_of_lt_of_le hi h₁.1)).trans (h₁.2 i hi)⟩

/-- Cutting an arena back to the length of an arena it extends gives that arena. -/
theorem Extends.truncate_eq {b b' : TreeBuilder} (h : b.Extends b') :
    b'.truncate b.checkpoint = b := by
  obtain ⟨nodes⟩ := b
  obtain ⟨nodes'⟩ := b'
  have hle : nodes.size ≤ nodes'.size := h.1
  simp only [truncate, checkpoint, mk.injEq]
  refine Array.ext_getElem? fun i => ?_
  rw [Array.take_eq_extract, Array.getElem?_extract]
  by_cases hi : i < nodes.size
  · rw [if_pos (by omega), Nat.zero_add]
    exact h.2 i hi
  · rw [if_neg (by omega), Array.getElem?_eq_none (by omega)]

/-- `b'` is `b` with the subtree of `h` appended: the nodes of `b` are as they were, the nodes
after them are exactly those reached from `h` by child edges, and `h` is the last of them. -/
structure AppendsSubtree (b b' : TreeBuilder) (h : Handle) : Prop where
  size_eq : b'.nodes.size = h + 1
  le_root : b.nodes.size ≤ h
  keeps : ∀ i < b.nodes.size, b'.nodes[i]? = b.nodes[i]?
  reaches_iff : ∀ x, Relation.ReflTransGen (ChildEdge b'.nodes) h x ↔ b.nodes.size ≤ x ∧ x ≤ h

theorem AppendsSubtree.extends {b b' : TreeBuilder} {h : Handle} (ha : b.AppendsSubtree b' h) :
    b.Extends b' :=
  ⟨by have := ha.size_eq; have := ha.le_root; omega, ha.keeps⟩

/-- Pushing a parse appends exactly the subtree of its root. -/
theorem appendsSubtree_push (b : TreeBuilder) (q : Parsed) :
    b.AppendsSubtree (b.push q).1 (b.push q).2 := by
  obtain ⟨arr', h, hpush, hb, hsize, hsame⟩ := pushParsed_built q b.nodes
  simp only [push, hpush]
  exact ⟨hsize, Built.le q hb, hsame, hb.reaches_iff⟩

/-- Pushing a parse only appends to the arena. -/
theorem extends_push (b : TreeBuilder) (q : Parsed) : b.Extends (b.push q).1 :=
  (appendsSubtree_push b q).extends

/-- Pushing parses only appends to the arena. -/
theorem extends_pushAll (b : TreeBuilder) (cs : List Parsed) : b.Extends (b.pushAll cs).1 := by
  obtain ⟨arr', hs, hpush, -, hsize, hsame⟩ := pushAll_built cs b.nodes
  simp only [pushAll, hpush]
  exact ⟨hsize, hsame⟩

/-- Pushing parses gives no handle exactly when there is no parse. -/
theorem isEmpty_pushAll (b : TreeBuilder) (cs : List Parsed) :
    (b.pushAll cs).2.isEmpty = cs.isEmpty := by
  cases cs with
  | nil => rfl
  | cons q cs => rw [pushAll_cons]; rfl

/-- Changing the entry just pushed is pushing the changed entry. -/
theorem modify_push_eq {α : Type} {arr : Array α} {k : Nat} (hk : arr.size = k) (e : α)
    (f : α → α) : (arr.push e).modify k f = arr.push (f e) := by
  subst hk
  refine Array.ext_getElem? fun i => ?_
  rw [Array.getElem?_modify, Array.getElem?_push, Array.getElem?_push]
  by_cases h : i = arr.size
  · subst h
    simp
  · simp [h, Ne.symm h]

/-- Pushing a parse that took a choice's name is pushing the parse and then naming its root. -/
theorem push_inherit (b : TreeBuilder) (q : Parsed) (name : Option String) :
    b.push (q.inherit name) = ((b.push q).1.inheritName (b.push q).2 name, (b.push q).2) := by
  obtain ⟨n, nm, start, stop, cs⟩ := q
  have hname : (Parsed.mk n nm start stop cs).inherit name = .mk n (nm.or name) start stop cs := by
    cases nm <;> rfl
  rw [hname, push_mk, push_mk]
  simp only [interior, inheritName, Prod.mk.injEq, and_true, mk.injEq]
  rw [modify_push_eq (size_foldl_modify _ _ _)]

/-- What building leaves, from the arena `b`, where matching answers `r`: for a parse, its nodes
pushed onto `b` with the handle of its root and its end; for no parse, nothing, and the arena as
it was. -/
def layout (b : TreeBuilder) : Option Parsed → Option (Handle × Nat) × TreeBuilder
  | none => (none, b)
  | some q => (some ((b.push q).2, q.stop), (b.push q).1)

/-- As `layout`, except that where there is no parse the arena may hold nodes after those of `b`:
the parts of an attempt that failed, not yet cut away. -/
def LaysOut (b : TreeBuilder) (r : Option Parsed) (out : Option (Handle × Nat) × TreeBuilder) :
    Prop :=
  match r with
  | none => out.1 = none ∧ b.Extends out.2
  | some q => out = b.layout (some q)

theorem laysOut_layout (b : TreeBuilder) (r : Option Parsed) : b.LaysOut r (b.layout r) := by
  cases r with
  | none => exact ⟨rfl, Extends.refl b⟩
  | some q => rfl

theorem extends_layout (b : TreeBuilder) (r : Option Parsed) : b.Extends (b.layout r).2 := by
  cases r with
  | none => exact Extends.refl b
  | some q => exact extends_push b q

/-- A laid-out answer leaves the arena as it was when there is no parse, and with exactly the
subtree of the parse's root appended when there is one. -/
theorem layout_frame {b b' : TreeBuilder} {r₀ : Option Parsed} {r : Option (Handle × Nat)}
    (h : (r, b') = b.layout r₀) :
    (r = none → b' = b) ∧ ∀ x e, r = some (x, e) → b.AppendsSubtree b' x := by
  cases r₀ with
  | none =>
    cases h
    refine ⟨fun _ => rfl, fun _ _ hr => ?_⟩
    cases hr
  | some q =>
    cases h
    refine ⟨fun hr => ?_, fun x e hr => ?_⟩ <;> cases hr
    exact b.appendsSubtree_push q

/-- Parts that follow the parts `acc`, with handles `hacc`, were matched up to `r.1` and built
onto `b`: the new parts are pushed onto `b` and their handles follow `hacc`. -/
def PushesParts (b : TreeBuilder) (acc : List Parsed) (hacc : List Handle)
    (r : Nat × List Parsed) (out : (Nat × List Handle) × TreeBuilder) : Prop :=
  ∃ more, r.2 = acc.reverse ++ more ∧
    out = ((r.1, hacc.reverse ++ (b.pushAll more).2), (b.pushAll more).1)

/-- `PushesParts` where the parts may also fail; then the arena holds `b` and perhaps more. -/
def LaysParts (b : TreeBuilder) (acc : List Parsed) (hacc : List Handle)
    (r : Option (Nat × List Parsed)) (out : Option (Nat × List Handle) × TreeBuilder) : Prop :=
  match r with
  | none => out.1 = none ∧ b.Extends out.2
  | some p => ∃ o, out.1 = some o ∧ b.PushesParts acc hacc p (o, out.2)

/-- Parts pushed after none before are the parts pushed. -/
theorem PushesParts.eq_of_nil {b : TreeBuilder} {r : Nat × List Parsed}
    {out : (Nat × List Handle) × TreeBuilder} (h : b.PushesParts [] [] r out) :
    out = ((r.1, (b.pushAll r.2).2), (b.pushAll r.2).1) := by
  obtain ⟨more, hr, rfl⟩ := h
  simp [hr]

/-- Parts pushed after one more part are parts pushed after those before it. -/
theorem PushesParts.cons {b : TreeBuilder} {acc : List Parsed} {hacc : List Handle} {q : Parsed}
    {r : Nat × List Parsed} {out : (Nat × List Handle) × TreeBuilder}
    (h : (b.push q).1.PushesParts (q :: acc) ((b.push q).2 :: hacc) r out) :
    b.PushesParts acc hacc r out := by
  obtain ⟨more, hr, rfl⟩ := h
  refine ⟨q :: more, by simp [hr], ?_⟩
  simp [pushAll_cons]

end TreeBuilder

namespace BuildM

variable {α β γ δ : Type}

/-- `x` builds, from the arena `b`, what `y` matches: from any progress, when `y` ends with an
answer, `x` ends with the same progress and an answer and arena that `R` relates to that
answer; when `y` stops with a fault, `x` stops with the same fault and progress. -/
def Builds (b : TreeBuilder) (x : BuildM α) (y : MatchM β) (R : β → α × TreeBuilder → Prop) :
    Prop :=
  ∀ σ, (∀ r σ', y.run σ = .ok r σ' → ∃ out, (x.run b).run σ = .ok out σ' ∧ R r out) ∧
    (∀ e σ', y.run σ = .error e σ' → (x.run b).run σ = .error e σ')

namespace Builds

variable {b : TreeBuilder} {R : β → α × TreeBuilder → Prop}

theorem pure {a : α} {r : β} (h : R r (a, b)) : Builds b (Pure.pure a) (Pure.pure r) R := by
  intro σ
  refine ⟨fun _ _ hy => ?_, fun _ _ hy => ?_⟩ <;> cases hy
  exact ⟨_, rfl, h⟩

theorem throw (e : Fault) : Builds b (MonadExcept.throw e : BuildM α) (MonadExcept.throw e) R := by
  intro σ
  refine ⟨fun _ _ hy => ?_, fun _ _ hy => ?_⟩ <;> cases hy
  rfl

theorem mono {x : BuildM α} {y : MatchM β} {R' : β → α × TreeBuilder → Prop}
    (h : Builds b x y R) (hR : ∀ r out, R r out → R' r out) : Builds b x y R' := by
  intro σ
  refine ⟨fun r σ' hy => ?_, (h σ).2⟩
  obtain ⟨out, hx, hr⟩ := (h σ).1 r σ' hy
  exact ⟨out, hx, hR r out hr⟩

theorem bind {x : BuildM α} {y : MatchM β} {f : α → BuildM γ} {g : β → MatchM δ}
    {S : δ → γ × TreeBuilder → Prop} (hx : Builds b x y R)
    (hf : ∀ r out, R r out → Builds out.2 (f out.1) (g r) S) : Builds b (x >>= f) (y >>= g) S := by
  intro σ
  simp only [StateT.run_bind, EStateM.run_bind]
  cases hy : y.run σ with
  | ok r σ₁ =>
    obtain ⟨out, hxrun, hr⟩ := (hx σ).1 r σ₁ hy
    rw [hxrun]
    exact hf r out hr σ₁
  | error e σ₁ =>
    rw [(hx σ).2 e σ₁ hy]
    refine ⟨fun _ _ h => ?_, fun _ _ h => ?_⟩ <;> cases h
    rfl

/-- A step of progress alone builds nothing. -/
theorem lift (y : MatchM β) : Builds b (liftM y) y fun r out => out = (r, b) := by
  intro σ
  simp only [liftM, monadLift, MonadLift.monadLift, StateT.run_lift, EStateM.run_bind]
  refine ⟨fun r σ' hy => ?_, fun e σ' hy => ?_⟩ <;> rw [hy]
  exact ⟨_, rfl, rfl⟩

/-- A step of progress alone, followed by a building step. -/
theorem lift_bind {y : MatchM β} {f : β → BuildM γ} {g : β → MatchM δ}
    {S : δ → γ × TreeBuilder → Prop} (hf : ∀ r, Builds b (f r) (g r) S) :
    Builds b (liftM y >>= f) (y >>= g) S :=
  (lift y).bind fun r out hout => by subst hout; exact hf r

/-- Reading the arena, followed by a building step. -/
theorem get_bind {f : TreeBuilder → BuildM α} {y : MatchM β} (h : Builds b (f b) y R) :
    Builds b (get >>= f) y R := h

/-- Changing the arena, followed by a building step. -/
theorem modify_bind {g : TreeBuilder → TreeBuilder} {f : PUnit → BuildM α} {y : MatchM β}
    (h : Builds (g b) (f ⟨⟩) y R) : Builds b (modify g >>= f) y R := h

theorem ite {c : Prop} [Decidable c] {x x' : BuildM α} {y y' : MatchM β} (hx : Builds b x y R)
    (hy : Builds b x' y' R) : Builds b (if c then x else x') (if c then y else y') R := by
  split
  · exact hx
  · exact hy

/-- A step that may be preceded by an announcement builds what it matches when it does so
alone. -/
theorem ite_lift_bind {c : Prop} [Decidable c] {y : MatchM PUnit} {f : PUnit → BuildM α}
    {g : PUnit → MatchM β} (hf : Builds b (f ()) (g ()) R) :
    Builds b (if c then liftM y >>= f else f ()) (if c then y >>= g else g ()) R :=
  Builds.ite (lift_bind fun _ => hf) hf

/-- Where a step lays out its answer exactly, it lays it out loosely too. -/
theorem loosen {b₀ : TreeBuilder} {x : BuildM (Option (Handle × Nat))}
    {y : MatchM (Option Parsed)} (h : Builds b x y fun r out => out = b₀.layout r) :
    Builds b x y b₀.LaysOut :=
  h.mono fun r _ hout => hout ▸ TreeBuilder.laysOut_layout b₀ r

end Builds

end BuildM

namespace Matching

open BuildM TreeBuilder

variable {m : Matching}

/-- Appending a node over parts pushed onto `b` pushes the node's parse onto `b`. -/
theorem builds_appendNode (b : TreeBuilder) (id : NodeId) (name : Option String)
    (start stop : Nat) (cs : List Parsed) :
    Builds (b.pushAll cs).1 (appendNode id name start stop (b.pushAll cs).2)
      (pure (some (.mk id name start stop cs))) fun r out => out = b.layout r := by
  intro σ
  refine ⟨fun r σ' hy => ?_, fun _ _ hy => ?_⟩ <;> cases hy
  exact ⟨_, rfl, rfl⟩

/-- A failure builds nothing. -/
theorem builds_missAt (b : TreeBuilder) (pos : Nat) :
    Builds b (missAt pos) (failAt pos) b.LaysOut := by
  intro σ
  refine ⟨fun r σ' hy => ?_, fun _ _ hy => ?_⟩ <;> cases hy
  exact ⟨_, rfl, rfl, Extends.refl b⟩

theorem builds_buildChar (b : TreeBuilder) (sh : Shape) (id : NodeId) (name : Option String)
    (pos : Nat) : Builds b (m.buildChar sh id name pos) (m.matchChar sh id name pos) b.LaysOut := by
  unfold buildChar matchChar
  cases Text.charAt? m.input pos with
  | some c => exact Builds.ite (builds_appendNode b id name pos _ []).loosen (builds_missAt b pos)
  | none => exact builds_missAt b pos

section Combinators

variable {sub : NodeId → Nat → BuildM (Option (Handle × Nat))}
  {sub' : NodeId → Nat → MatchM (Option Parsed)}
  (hsub : ∀ c q b, Builds b (sub c q) (sub' c q) fun r out => out = b.layout r)
include hsub

theorem builds_buildParts (cs : List NodeId) : ∀ (here : Nat) (acc : List Parsed)
    (hacc : List Handle) (b : TreeBuilder),
    Builds b (buildParts sub cs here hacc) (matchParts sub' cs here acc)
      (b.LaysParts acc hacc) := by
  induction cs with
  | nil =>
    intro here acc hacc b
    exact Builds.pure ⟨_, rfl, [], by simp, by simp⟩
  | cons c cs ih =>
    intro here acc hacc b
    rw [buildParts, matchParts]
    refine (hsub c here b).bind fun r out hout => ?_
    subst hout
    cases r with
    | none => exact Builds.pure ⟨rfl, Extends.refl b⟩
    | some q =>
      -- The parts after `q` are built onto the arena that holds `q`.
      refine (ih q.stop (q :: acc) ((b.push q).2 :: hacc) (b.push q).1).mono fun r out h => ?_
      cases r with
      | none => exact ⟨h.1, (extends_push b q).trans h.2⟩
      | some p =>
        obtain ⟨o, ho, hp⟩ := h
        exact ⟨o, ho, hp.cons⟩

theorem builds_buildAlternatives (choice pos : Nat) (as : List NodeId) :
    ∀ (first : Bool) (b : TreeBuilder),
      Builds b (m.buildAlternatives sub choice pos first as)
        (m.matchAlternatives sub' choice pos first as) fun r out => out = b.layout r := by
  induction as with
  | nil => intro first b; exact Builds.pure rfl
  | cons a as ih =>
    intro first b
    rw [buildAlternatives, matchAlternatives]
    -- A failed alternative leaves the arena as it was, so the next one starts from `b` again.
    refine Builds.ite_lift_bind ((hsub a pos b).bind fun r out hout => ?_)
    subst hout
    cases r with
    | none => exact ih false b
    | some q => exact Builds.pure rfl

theorem builds_buildRepeats (body : NodeId) (k : Nat) : ∀ (here : Nat) (acc : List Parsed)
    (hacc : List Handle) (b : TreeBuilder),
    Builds b (buildRepeats sub body k here hacc) (matchRepeats sub' body k here acc)
      (b.PushesParts acc hacc) := by
  induction k with
  | zero =>
    intro here acc hacc b
    exact Builds.pure ⟨[], by simp, by simp⟩
  | succ k ih =>
    intro here acc hacc b
    rw [buildRepeats, matchRepeats]
    refine (hsub body here b).bind fun r out hout => ?_
    subst hout
    cases r with
    | none => exact Builds.pure ⟨[], by simp, by simp [layout]⟩
    | some q =>
      refine Builds.ite (Builds.throw _) ?_
      exact (ih q.stop (q :: acc) ((b.push q).2 :: hacc) (b.push q).1).mono
        fun _ _ h => h.cons

theorem builds_buildShape (id : NodeId) (name : Option String) (pos : Nat) (sh : Shape)
    (b : TreeBuilder) :
    Builds b (m.buildShape sub id name pos sh) (m.matchShape sub' id name pos sh) b.LaysOut := by
  cases sh with
  | literal text =>
    rw [buildShape, matchShape]
    exact Builds.ite (builds_appendNode b id name pos _ []).loosen (builds_missAt b pos)
  | charSet members negate => exact builds_buildChar b _ id name pos
  | charRange lo hi negate => exact builds_buildChar b _ id name pos
  | seq parts =>
    rw [buildShape, matchShape]
    refine (builds_buildParts hsub parts pos [] [] b).bind fun r out h => ?_
    obtain ⟨o, b'⟩ := out
    cases r with
    | none =>
      obtain ⟨rfl, hext⟩ := h
      exact Builds.pure ⟨rfl, hext⟩
    | some p =>
      obtain ⟨o', rfl, hp⟩ := h
      obtain ⟨stop, cs⟩ := p
      cases hp.eq_of_nil
      exact (builds_appendNode b id name pos stop cs).loosen
  | choice alternatives =>
    rw [buildShape, matchShape]
    refine (builds_buildAlternatives hsub id pos alternatives true b).bind fun r out hout => ?_
    subst hout
    cases r with
    | none => exact Builds.pure ⟨rfl, Extends.refl b⟩
    | some q =>
      -- The winner's root takes the choice's name after it was pushed.
      refine Builds.modify_bind (Builds.pure ?_)
      simp [LaysOut, layout, push_inherit]
  | oneOrMore body =>
    rw [buildShape, matchShape]
    refine (builds_buildRepeats hsub body _ pos [] [] b).bind fun r out h => ?_
    obtain ⟨stop, cs⟩ := r
    cases h.eq_of_nil
    simp only [isEmpty_pushAll]
    exact Builds.ite (Builds.pure ⟨rfl, extends_pushAll b cs⟩)
      (builds_appendNode b id name pos stop cs).loosen
  | optional body =>
    rw [buildShape, matchShape]
    refine (hsub body pos b).bind fun r out hout => ?_
    subst hout
    cases r with
    | none => exact (builds_appendNode b id name pos pos []).loosen
    | some q => exact (builds_appendNode b id name pos q.stop [q]).loosen
  | notFollowedBy body =>
    rw [buildShape, matchShape]
    refine Builds.get_bind (Builds.lift_bind fun _ => (hsub body pos b).bind fun r out hout => ?_)
    subst hout
    refine Builds.lift_bind fun _ => Builds.modify_bind ?_
    -- What the body matched is cut away, whether it matched or not.
    simp only [(extends_layout b r).truncate_eq]
    cases r with
    | none => exact (builds_appendNode b id name pos pos []).loosen
    | some q => exact Builds.pure ⟨rfl, Extends.refl b⟩
  | endOfInput =>
    rw [buildShape, matchShape]
    exact Builds.ite (builds_appendNode b id name pos _ []).loosen (builds_missAt b pos)
  | ref rule => exact Builds.throw _

end Combinators

/-- A visit builds exactly the parse it matches: it pushes the nodes of the parse onto the arena
it started from, root last, and when it does not match it leaves the arena as it found it. -/
theorem builds_buildNode (d : Nat) : ∀ (id : NodeId) (pos : Nat) (b : TreeBuilder),
    Builds b (m.buildNode d id pos) (m.matchNode d id pos) fun r out => out = b.layout r := by
  induction d with
  | zero =>
    intro id pos b
    rw [buildNode, matchNode]
    exact Builds.lift_bind fun _ => Builds.throw _
  | succ d ih =>
    intro id pos b
    rw [buildNode, matchNode]
    refine Builds.lift_bind fun _ => Builds.lift_bind fun _ => Builds.get_bind ?_
    -- Both visits match the same shape; the result is recorded alike, and a visit that fails
    -- cuts the arena back to where it began.
    cases m.grammar.get? id
    case' none =>
      refine (Builds.pure (R := b.LaysOut) (r := none) (a := none) ⟨rfl, Extends.refl b⟩).bind ?_
    case' some node => refine (builds_buildShape ih id node.name pos node.shape b).bind ?_
    all_goals
      intro r out h
      cases r with
      | none =>
        obtain ⟨o, b'⟩ := out
        obtain ⟨rfl, hext⟩ := h
        refine Builds.modify_bind ?_
        simp only [hext.truncate_eq]
        exact Builds.lift_bind fun _ => Builds.pure rfl
      | some q =>
        subst h
        exact Builds.lift_bind fun _ => Builds.pure rfl

/-- A visit that ends has the answer and progress of the visit of the parse matcher, and lays
out its parse. -/
theorem buildNode_ok {d : Nat} {id : NodeId} {pos : Nat} {σ σ' : Progress} {b b' : TreeBuilder}
    {r : Option (Handle × Nat)} (h : ((m.buildNode d id pos).run b).run σ = .ok (r, b') σ') :
    ∃ r₀, (m.matchNode d id pos).run σ = .ok r₀ σ' ∧ (r, b') = b.layout r₀ := by
  have hrun := builds_buildNode (m := m) d id pos b σ
  cases hm : (m.matchNode d id pos).run σ with
  | ok r₀ σ₀ =>
    obtain ⟨out, hb, rfl⟩ := hrun.1 r₀ σ₀ hm
    rw [hb] at h
    injection h with hout hσ
    exact ⟨r₀, hσ ▸ rfl, hout.symm⟩
  | error e σ₀ =>
    rw [hrun.2 e σ₀ hm] at h
    cases h

end Matching

/-- The matcher builds the tree of the parse that `matchAt` finds, and otherwise runs as
`matchAt` does: with the same furthest failure, the same faults and the same events. -/
theorem matchTree_eq (g : Grammar) (n : NodeId) (s : String) (p : Nat) (limits : Limits)
    (traced : Bool) :
    matchTree g n s p limits traced =
      { result := (matchAt g n s p limits traced).result.map fun o =>
          { matched := o.parsed.map fun q => ⟨ParseTree.ofParsed s q, q.stop⟩,
            furthest := o.furthest },
        events := (matchAt g n s p limits traced).events } := by
  unfold matchTree matchAt
  cases Text.isBoundary s p with
  | false => rfl
  | true =>
    simp only [Bool.not_true, Bool.false_eq_true, ↓reduceIte]
    have hrun := Matching.builds_buildNode (m := ⟨g, s, traced⟩) limits.depth n p {}
      ⟨limits.fuel, p, 0, []⟩
    cases hm : (Matching.matchNode ⟨g, s, traced⟩ limits.depth n p).run ⟨limits.fuel, p, 0, []⟩ with
    | ok r σ' =>
      obtain ⟨out, hb, rfl⟩ := hrun.1 r σ' hm
      rw [hb]
      cases r <;> rfl
    | error e σ' =>
      rw [hrun.2 e σ' hm]
      rfl

end Tokenweave
