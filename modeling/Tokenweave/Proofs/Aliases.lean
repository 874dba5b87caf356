import Mathlib.Data.List.Perm.Subperm
import Tokenweave.Dialect.Rules
/-!
# Chains of aliases

A rule whose body is a bare reference is an alias, and following aliases from a rule gives a
chain of rule names. This module says what `checkAliases`, `resolve` and `root` do in terms of
that chain, with no bound on its length:

* `Follows r g b ns`: from the body `b`, following aliases names `ns` in turn. Every prefix of
  the chain is such a list; the chain itself stops at a body that is not a reference, or at a name
  that no rule defines.
* `Loops r g (name, body)`: the chain of a rule (its name, then what its body follows) comes back
  to a name already on it, and `LoopChain` is its shortest prefix that does.
* `Resolves r g k n u o`: the loop of `resolve` run without a bound, from rule `n` used in rule
  `u`, stops after `k` lookups with `o`: the first body on the chain that is not a reference, or
  the first name on it that no rule defines.

Main statement (`checkAliases_reports_first_loop`): `checkAliases` succeeds exactly when no rule's
chain loops, and otherwise reports the loop of the first such rule in definition order; once it
has succeeded, `resolve` and `root` give what the unbounded loop gives, and that loop stops after
at most one lookup more than there are rules.

Both bounded walks are shown to have enough steps by one pigeonhole (`length_le_of_defined`): the
names met before the last are distinct rules, so there are no more of them than rules.
-/

set_option autoImplicit false

namespace Tokenweave.Dialect.Rules

/-- The names of the rules, in the order of definition. -/
def names (r : Rules) : List String := r.entries.map (·.1)

/-- `r.Follows g b ns`: following aliases from the body `b` names `ns` in turn. The body `b` is a
reference to the first name, and every name but the last is a rule whose body refers to the
next; the chain may be cut anywhere. -/
inductive Follows (r : Rules) (g : Grammar) : NodeId → List String → Prop
  /-- The empty prefix. -/
  | nil (b : NodeId) : Follows r g b []
  /-- A reference names its target, whether a rule defines it or not. -/
  | last {b : NodeId} {t : String} : g.shape? b = some (.ref t) → Follows r g b [t]
  /-- A reference to a rule goes on along that rule's body. -/
  | step {b b' : NodeId} {t : String} {ns : List String} :
      g.shape? b = some (.ref t) → r.get? t = some b' → Follows r g b' ns →
      Follows r g b (t :: ns)

/-- The chain of the rule `e` comes back to a name already on it. -/
def Loops (r : Rules) (g : Grammar) (e : String × NodeId) : Prop :=
  ∃ ns, r.Follows g e.2 ns ∧ ¬ (e.1 :: ns).Nodup

/-- `chain` is the shortest prefix of the chain of rule `e` that comes back to a name: its names
are distinct but for the last, which is one of those before it. -/
def LoopChain (r : Rules) (g : Grammar) (e : String × NodeId) (chain : List String) : Prop :=
  ∃ ns t, r.Follows g e.2 (ns ++ [t]) ∧ (e.1 :: ns).Nodup ∧ t ∈ e.1 :: ns ∧
    chain = e.1 :: ns ++ [t]

/-- The loop of `resolve` without a bound: following aliases from rule `n`, used in rule `u`,
stops after `k` lookups with `o`. -/
inductive Resolves (r : Rules) (g : Grammar) :
    Nat → String → String → Except GrammarError NodeId → Prop
  /-- A name that no rule defines is reported with the rule it was used in. -/
  | undefined {n u : String} : r.get? n = none → Resolves r g 1 n u (.error (.undefinedRule n u))
  /-- A rule whose body is not a reference stands for that body. -/
  | body {n u : String} {b : NodeId} : r.get? n = some b → (∀ t, g.shape? b ≠ some (.ref t)) →
      Resolves r g 1 n u (.ok b)
  /-- An alias stands for what its target stands for. -/
  | aliased {k : Nat} {n u t : String} {b : NodeId} {o : Except GrammarError NodeId} :
      r.get? n = some b → g.shape? b = some (.ref t) → Resolves r g k t n o →
      Resolves r g (k + 1) n u o

variable {r : Rules} {g : Grammar}

/-! ## The rule table -/

/-- A name's body is the body of one of the rules. -/
theorem mem_entries_of_get? {n : String} {b : NodeId} (h : r.get? n = some b) :
    (n, b) ∈ r.entries := by
  unfold get? at h
  obtain ⟨e, he, rfl⟩ := Option.map_eq_some_iff.mp h
  have hkey : e.1 = n := by simpa using List.find?_some he
  rw [← hkey]
  exact List.mem_of_find?_eq_some he

theorem mem_names_of_get? {n : String} {b : NodeId} (h : r.get? n = some b) : n ∈ r.names :=
  List.mem_map_of_mem (f := (·.1)) (mem_entries_of_get? h)

/-- The pigeonhole behind both bounds: distinct rule names are no more than the rules. -/
theorem length_le_of_defined {l : List String} (hnd : l.Nodup) (hdef : ∀ x ∈ l, x ∈ r.names) :
    l.length ≤ r.entries.length := by
  simpa [names] using (hnd.subperm hdef).length_le

/-- A list that repeats an element, after a prefix without repeats, has a first element equal to
one before it. -/
theorem exists_first_repeat {α : Type} : ∀ {pre l : List α}, pre.Nodup → ¬ (pre ++ l).Nodup →
    ∃ ns t rest, l = ns ++ t :: rest ∧ (pre ++ ns).Nodup ∧ t ∈ pre ++ ns
  | _, [], hpre, hl => absurd (by simpa using hpre) hl
  | pre, x :: l, hpre, hl => by
    by_cases hx : x ∈ pre
    · exact ⟨[], x, l, rfl, by simpa using hpre, by simpa using hx⟩
    · have hpre' : (pre ++ [x]).Nodup := by
        rw [List.nodup_append]
        exact ⟨hpre, by simp, fun a ha b hb => by rintro rfl; simp_all⟩
      obtain ⟨ns, t, rest, rfl, hnd, ht⟩ := exists_first_repeat hpre' (by simpa using hl)
      exact ⟨x :: ns, t, rest, rfl, by simpa using hnd, by simpa using ht⟩

/-! ## Following aliases -/

namespace Follows

/-- A body that is not a reference follows no name. -/
theorem eq_nil {b : NodeId} {ns : List String} (hb : ∀ t, g.shape? b ≠ some (.ref t))
    (h : r.Follows g b ns) : ns = [] := by
  cases h with
  | nil => rfl
  | last ht => exact absurd ht (hb _)
  | step ht _ _ => exact absurd ht (hb _)

/-- What a reference follows starts with its target, and goes on only through a rule. -/
theorem of_cons {b : NodeId} {t t' : String} {ns : List String} (hb : g.shape? b = some (.ref t))
    (h : r.Follows g b (t' :: ns)) :
    t' = t ∧ (ns = [] ∨ ∃ b', r.get? t = some b' ∧ r.Follows g b' ns) := by
  cases h with
  | last ht =>
    rw [hb, Option.some.injEq, Shape.ref.injEq] at ht
    exact ⟨ht.symm, .inl rfl⟩
  | step ht hget hf =>
    rw [hb, Option.some.injEq, Shape.ref.injEq] at ht
    subst ht
    exact ⟨rfl, .inr ⟨_, hget, hf⟩⟩

/-- Every prefix of a followed list is followed. -/
theorem of_prefix {b : NodeId} {l l₁ : List String} (h : r.Follows g b l) (hp : l₁ <+: l) :
    r.Follows g b l₁ := by
  induction h generalizing l₁ with
  | nil => rw [List.prefix_nil.mp hp]; exact .nil _
  | last ht =>
    rcases List.prefix_cons_iff.mp hp with rfl | ⟨l', rfl, hl'⟩
    · exact .nil _
    · rw [List.prefix_nil.mp hl']
      exact .last ht
  | step ht hget _ ih =>
    rcases List.prefix_cons_iff.mp hp with rfl | ⟨l', rfl, hl'⟩
    · exact .nil _
    · exact .step ht hget (ih hl')

/-- The chain is one: of two followed lists, one is a prefix of the other. -/
theorem prefix_total {b : NodeId} {l₁ l₂ : List String} (h₁ : r.Follows g b l₁)
    (h₂ : r.Follows g b l₂) : l₁ <+: l₂ ∨ l₂ <+: l₁ := by
  induction h₁ generalizing l₂ with
  | nil => exact .inl List.nil_prefix
  | last ht =>
    cases l₂ with
    | nil => exact .inr List.nil_prefix
    | cons t' ns =>
      obtain ⟨rfl, -⟩ := h₂.of_cons ht
      exact .inl ⟨ns, rfl⟩
  | step ht hget _ ih =>
    cases l₂ with
    | nil => exact .inr List.nil_prefix
    | cons t' ns =>
      obtain ⟨rfl, hrest⟩ := h₂.of_cons ht
      rcases hrest with rfl | ⟨b', hb', hf'⟩
      · exact .inr ⟨_, rfl⟩
      · rw [hget, Option.some.injEq] at hb'
        subst hb'
        rcases ih hf' with h | h
        · exact .inl (List.cons_prefix_cons.mpr ⟨rfl, h⟩)
        · exact .inr (List.cons_prefix_cons.mpr ⟨rfl, h⟩)

end Follows

/-! ## Loops -/

theorem LoopChain.loops {e : String × NodeId} {chain : List String} (h : r.LoopChain g e chain) :
    r.Loops g e := by
  obtain ⟨ns, t, hf, -, ht, -⟩ := h
  refine ⟨ns ++ [t], hf, fun hnd => ?_⟩
  have : (e.1 :: ns ++ [t]).Nodup := by simpa using hnd
  rw [List.nodup_append] at this
  exact this.2.2 t ht t (List.mem_singleton_self t) rfl

/-- A chain that loops has a shortest prefix that does. -/
theorem Loops.exists_loopChain {e : String × NodeId} (h : r.Loops g e) :
    ∃ chain, r.LoopChain g e chain := by
  obtain ⟨ns, hf, hnd⟩ := h
  obtain ⟨ns₀, t, rest, rfl, hnd₀, ht⟩ :=
    @exists_first_repeat String [e.1] ns (List.nodup_cons.mpr ⟨by simp, List.nodup_nil⟩)
      (by simpa using hnd)
  exact ⟨_, ns₀, t, hf.of_prefix ⟨rest, by simp⟩, by simpa using hnd₀, by simpa using ht, rfl⟩

/-- The shortest prefix that loops is one. -/
theorem LoopChain.unique {e : String × NodeId} {c₁ c₂ : List String} (h₁ : r.LoopChain g e c₁)
    (h₂ : r.LoopChain g e c₂) : c₁ = c₂ := by
  -- A loop found strictly inside another's distinct prefix would repeat a name there.
  have shorter : ∀ {ns₁ ns₂ : List String} {t₁ t₂ : String}, (e.1 :: ns₂).Nodup →
      t₁ ∈ e.1 :: ns₁ → ns₁ ++ [t₁] <+: ns₂ ++ [t₂] → ns₁ = ns₂ ∧ t₁ = t₂ := by
    intro ns₁ ns₂ t₁ t₂ hnd ht ⟨d, hd⟩
    rcases List.eq_nil_or_concat d with rfl | ⟨d', x, rfl⟩
    · simpa using hd
    · obtain ⟨hns, -⟩ : ns₁ ++ [t₁] ++ d' = ns₂ ∧ x = t₂ := by
        simpa [← List.append_assoc] using hd
      subst hns
      have : (e.1 :: ns₁ ++ [t₁]).Nodup :=
        List.Nodup.sublist (by simp [List.cons_append]) hnd
      rw [List.nodup_append] at this
      exact absurd rfl (this.2.2 t₁ ht t₁ (List.mem_singleton_self t₁))
  obtain ⟨ns₁, t₁, hf₁, hnd₁, ht₁, rfl⟩ := h₁
  obtain ⟨ns₂, t₂, hf₂, hnd₂, ht₂, rfl⟩ := h₂
  rcases hf₁.prefix_total hf₂ with h | h
  · obtain ⟨rfl, rfl⟩ := shorter hnd₂ ht₁ h
    rfl
  · obtain ⟨rfl, rfl⟩ := shorter hnd₁ ht₂ h
    rfl

/-! ## `checkAliases` -/

/-- What one chain walk of `checkAliases` does, when the names met so far (`chain`) are distinct
rules and the steps left outnumber the rules not met: it succeeds when the chain from `b` never
comes back to a name, and otherwise reports the shortest prefix that does. -/
theorem followAliases_spec : ∀ (steps : Nat) (chain : List String) (b : NodeId),
    chain.Nodup → (∀ x ∈ chain, x ∈ r.names) → r.entries.length < chain.length + steps →
    (r.followAliases g steps chain b = .ok () ∧ ∀ ns, r.Follows g b ns → (chain ++ ns).Nodup) ∨
    ∃ ns t, r.Follows g b (ns ++ [t]) ∧ (chain ++ ns).Nodup ∧ t ∈ chain ++ ns ∧
      r.followAliases g steps chain b = .error (.circularReference (chain ++ ns ++ [t]))
  | 0, _, _, hnd, hdef, hsteps => by
    have := length_le_of_defined hnd hdef
    omega
  | steps + 1, chain, b, hnd, hdef, hsteps => by
    by_cases hb : ∃ t, g.shape? b = some (.ref t)
    · obtain ⟨t, ht⟩ := hb
      by_cases hloop : t ∈ chain
      · right
        refine ⟨[], t, .last ht, by simpa using hnd, by simpa using hloop, ?_⟩
        simp [followAliases, ht, hloop]
      · have hnd' : (chain ++ [t]).Nodup := by
          rw [List.nodup_append]
          exact ⟨hnd, by simp, fun a ha _ hb => by rintro rfl; simp_all⟩
        cases hnext : r.get? t with
        | none =>
          -- The target is no rule: the chain ends with it.
          left
          refine ⟨by simp [followAliases, ht, hloop, hnext], fun ns hf => ?_⟩
          cases ns with
          | nil => simpa using hnd
          | cons t' ns =>
            obtain ⟨rfl, hrest⟩ := hf.of_cons ht
            rcases hrest with rfl | ⟨b', hb', -⟩
            · exact hnd'
            · rw [hnext] at hb'
              cases hb'
        | some next =>
          have hdef' : ∀ x ∈ chain ++ [t], x ∈ r.names := by
            intro x hx
            rcases List.mem_append.mp hx with hx | hx
            · exact hdef x hx
            · rw [List.mem_singleton.mp hx]
              exact mem_names_of_get? hnext
          have heq : r.followAliases g (steps + 1) chain b =
              r.followAliases g steps (chain ++ [t]) next := by
            simp [followAliases, ht, hloop, hnext]
          rcases followAliases_spec steps (chain ++ [t]) next hnd' hdef'
              (by simp only [List.length_append, List.length_singleton]; omega) with
            ⟨hok, hall⟩ | ⟨ns, t', hf, hnd'', ht', herr⟩
          · left
            refine ⟨heq ▸ hok, fun ns hf => ?_⟩
            cases ns with
            | nil => simpa using hnd
            | cons t₀ ns =>
              obtain ⟨rfl, hrest⟩ := hf.of_cons ht
              rcases hrest with rfl | ⟨b', hb', hf'⟩
              · exact hnd'
              · rw [hnext, Option.some.injEq] at hb'
                subst hb'
                simpa using hall ns hf'
          · right
            refine ⟨t :: ns, t', .step ht hnext hf, by simpa using hnd'', by simpa using ht', ?_⟩
            rw [heq, herr]
            simp
    · have hb' : ∀ t, g.shape? b ≠ some (.ref t) := fun t h => hb ⟨t, h⟩
      left
      refine ⟨?_, fun ns hf => by rw [hf.eq_nil hb', List.append_nil]; exact hnd⟩
      rw [followAliases]
      split
      · exact absurd ‹_› (hb' _)
      · rfl

/-- `checkAliases` walks the chain of every rule, in order. -/
theorem checkAliases_eq (r : Rules) (g : Grammar) : r.checkAliases g =
    r.entries.forM fun e => r.followAliases g (r.entries.length + 1) [e.1] e.2 :=
  rfl

/-- The walk `checkAliases` makes for one rule succeeds when its chain does not loop, and else
reports the shortest prefix that loops. -/
theorem followEntry_spec {e : String × NodeId} (he : e ∈ r.entries) :
    (r.followAliases g (r.entries.length + 1) [e.1] e.2 = .ok () ∧ ¬ r.Loops g e) ∨
    ∃ chain, r.LoopChain g e chain ∧
      r.followAliases g (r.entries.length + 1) [e.1] e.2 = .error (.circularReference chain) := by
  have hdef : ∀ x ∈ [e.1], x ∈ r.names := by
    intro x hx
    rw [List.mem_singleton.mp hx]
    exact List.mem_map_of_mem he
  rcases followAliases_spec (r := r) (g := g) (r.entries.length + 1) [e.1] e.2 (List.nodup_cons.mpr ⟨by simp,
      List.nodup_nil⟩) hdef (by simp only [List.length_singleton]; omega) with ⟨hok, hall⟩ | ⟨ns, t, hf, hnd, ht, herr⟩
  · exact .inl ⟨hok, fun ⟨ns, hf, hnd⟩ => hnd (by simpa using hall ns hf)⟩
  · exact .inr ⟨_, ⟨ns, t, hf, by simpa using hnd, by simpa using ht, rfl⟩, by simpa using herr⟩

/-- A `forM` in `Except` succeeds when every step does. -/
theorem forM_eq_ok_iff {α ε : Type} {f : α → Except ε Unit} {l : List α} :
    l.forM f = .ok () ↔ ∀ x ∈ l, f x = .ok () := by
  induction l with
  | nil => simp [List.forM, pure, Except.pure]
  | cons x l ih =>
    show (f x >>= fun _ => l.forM f) = _ ↔ _
    simp only [List.mem_cons, forall_eq_or_imp]
    cases f x with
    | error e => simp [bind, Except.bind]
    | ok u =>
      show l.forM f = _ ↔ _
      rw [ih]
      simp

/-- A `forM` in `Except` fails with the error of its first failing step. -/
theorem forM_eq_error {α ε : Type} {f : α → Except ε Unit} {e : ε} :
    ∀ {l : List α}, l.forM f = .error e →
      ∃ pre x post, l = pre ++ x :: post ∧ (∀ y ∈ pre, f y = .ok ()) ∧ f x = .error e
  | [], h => by simp [List.forM, pure, Except.pure] at h
  | x :: l, h => by
    change (f x >>= fun _ => l.forM f) = _ at h
    cases hx : f x with
    | error e' =>
      rw [hx] at h
      cases h
      exact ⟨[], x, l, rfl, by simp, hx⟩
    | ok u =>
      rw [hx] at h
      obtain ⟨pre, y, post, rfl, hpre, hy⟩ := forM_eq_error h
      refine ⟨x :: pre, y, post, rfl, fun z hz => ?_, hy⟩
      rcases List.mem_cons.mp hz with rfl | hz
      · exact hx
      · exact hpre z hz

/-- A `forM` in `Except` whose steps succeed up to one that fails fails with that step's error. -/
theorem forM_append_cons {α ε : Type} {f : α → Except ε Unit} {e : ε} {x : α} {post : List α}
    (hx : f x = .error e) : ∀ {pre : List α}, (∀ y ∈ pre, f y = .ok ()) →
      ∀ {l : List α}, l = pre ++ x :: post → l.forM f = .error e
  | [], _, _, rfl => by
    show (f x >>= fun _ => post.forM f) = _
    rw [hx]
    rfl
  | y :: pre, hpre, _, rfl => by
    show (f y >>= fun _ => (pre ++ x :: post).forM f) = _
    rw [hpre y List.mem_cons_self]
    exact forM_append_cons hx (fun z hz => hpre z (List.mem_cons_of_mem _ hz)) rfl

theorem checkAliases_eq_ok_iff : r.checkAliases g = .ok () ↔ ∀ e ∈ r.entries, ¬ r.Loops g e := by
  rw [checkAliases_eq, forM_eq_ok_iff]
  refine forall₂_congr fun e he => ⟨fun hok => ?_, fun hno => ?_⟩
  · rcases followEntry_spec (g := g) he with ⟨-, hno⟩ | ⟨_, -, herr⟩
    · exact hno
    · rw [hok] at herr
      cases herr
  · rcases followEntry_spec (g := g) he with ⟨hok, -⟩ | ⟨_, hc, -⟩
    · exact hok
    · exact absurd hc.loops hno

theorem checkAliases_eq_error_iff {err : GrammarError} : r.checkAliases g = .error err ↔
    ∃ pre e post chain, r.entries = pre ++ e :: post ∧ (∀ e' ∈ pre, ¬ r.Loops g e') ∧
      r.LoopChain g e chain ∧ err = .circularReference chain := by
  have mem : ∀ {pre post : List (String × NodeId)} {e}, r.entries = pre ++ e :: post →
      (∀ e' ∈ pre, e' ∈ r.entries) ∧ e ∈ r.entries := fun h => by
    rw [h]
    exact ⟨fun e' he' => List.mem_append_left _ he', List.mem_append_right _ List.mem_cons_self⟩
  constructor
  · rw [checkAliases_eq]
    intro h
    obtain ⟨pre, e, post, hsplit, hpre, he⟩ := forM_eq_error h
    obtain ⟨hmem, hmem'⟩ := mem hsplit
    have hno : ∀ e' ∈ pre, ¬ r.Loops g e' := by
      intro e' he'
      rcases followEntry_spec (g := g) (hmem e' he') with ⟨-, hno⟩ | ⟨_, -, herr⟩
      · exact hno
      · rw [hpre e' he'] at herr
        cases herr
    rcases followEntry_spec (g := g) hmem' with ⟨hok, -⟩ | ⟨chain, hc, herr⟩
    · rw [hok] at he
      cases he
    · rw [he, Except.error.injEq] at herr
      exact ⟨pre, e, post, chain, hsplit, hno, hc, herr⟩
  · rintro ⟨pre, e, post, chain, hsplit, hpre, hc, rfl⟩
    obtain ⟨hmem, hmem'⟩ := mem hsplit
    rw [checkAliases_eq]
    refine forM_append_cons ?_ ?_ hsplit
    · rcases followEntry_spec (g := g) hmem' with ⟨-, hno⟩ | ⟨chain', hc', herr⟩
      · exact absurd hc.loops hno
      · rw [herr, hc.unique hc']
    · intro e' he'
      rcases followEntry_spec (g := g) (hmem e' he') with ⟨hok, -⟩ | ⟨_, hc', -⟩
      · exact hok
      · exact absurd hc'.loops (hpre e' he')

/-! ## `resolve` and `root` -/

/-- The loop of `resolve` has one outcome. -/
theorem Resolves.unique {k k' : Nat} {n u : String} {o o' : Except GrammarError NodeId}
    (h : r.Resolves g k n u o) (h' : r.Resolves g k' n u o') : k = k' ∧ o = o' := by
  induction h generalizing k' o' with
  | undefined hn =>
    cases h' with
    | undefined => exact ⟨rfl, rfl⟩
    | body hn' => rw [hn] at hn'; cases hn'
    | aliased hn' => rw [hn] at hn'; cases hn'
  | body hn hb =>
    cases h' with
    | undefined hn' => rw [hn] at hn'; cases hn'
    | body hn' =>
      rw [hn, Option.some.injEq] at hn'
      exact ⟨rfl, by rw [hn']⟩
    | aliased hn' ht' =>
      rw [hn, Option.some.injEq] at hn'
      exact absurd (hn' ▸ ht') (hb _)
  | aliased hn ht _ ih =>
    cases h' with
    | undefined hn' => rw [hn] at hn'; cases hn'
    | body hn' hb' =>
      rw [hn, Option.some.injEq] at hn'
      exact absurd (hn' ▸ ht) (hb' _)
    | aliased hn' ht' h' =>
      rw [hn, Option.some.injEq] at hn'
      subst hn'
      rw [ht, Option.some.injEq, Shape.ref.injEq] at ht'
      subst ht'
      obtain ⟨rfl, rfl⟩ := ih h'
      exact ⟨rfl, rfl⟩

/-- What the bounded loop of `resolve` does from rule `n`, when the names met before it (`seen`)
are distinct rules, the chain from `n` comes back to none of them nor to itself, and the steps
left outnumber the rules not met: what the unbounded loop does, in no more lookups than there are
rules not met, plus one. -/
theorem resolveSteps_resolves : ∀ (steps : Nat) (seen : List String) (n u : String),
    seen.Nodup → (∀ x ∈ seen, x ∈ r.names) →
    (∀ b, r.get? n = some b → ∀ ns, r.Follows g b ns → (seen ++ n :: ns).Nodup) →
    r.entries.length < seen.length + steps →
    ∃ k, seen.length + k ≤ r.entries.length + 1 ∧ r.Resolves g k n u (r.resolveSteps g steps n u)
  | 0, _, _, _, hnd, hdef, _, hsteps => by
    have := length_le_of_defined hnd hdef
    omega
  | steps + 1, seen, n, u, hnd, hdef, hchain, hsteps => by
    have hlen := length_le_of_defined hnd hdef
    cases hn : r.get? n with
    | none => exact ⟨1, by omega, by simpa [resolveSteps, hn] using Resolves.undefined hn⟩
    | some b =>
      by_cases hb : ∃ t, g.shape? b = some (.ref t)
      · obtain ⟨t, ht⟩ := hb
        -- One lookup, and the rest of the chain from the target with `n` seen.
        have hnd' : (seen ++ [n]).Nodup := by simpa using hchain b hn [] (.nil b)
        have hdef' : ∀ x ∈ seen ++ [n], x ∈ r.names := by
          intro x hx
          rcases List.mem_append.mp hx with hx | hx
          · exact hdef x hx
          · rw [List.mem_singleton.mp hx]
            exact mem_names_of_get? hn
        have hchain' : ∀ b', r.get? t = some b' → ∀ ns, r.Follows g b' ns →
            (seen ++ [n] ++ t :: ns).Nodup :=
          fun b' hb' ns hf => by simpa using hchain b hn (t :: ns) (.step ht hb' hf)
        obtain ⟨k, hk, hres⟩ := resolveSteps_resolves steps (seen ++ [n]) t n hnd' hdef' hchain'
          (by simp only [List.length_append, List.length_singleton]; omega)
        have heq : r.resolveSteps g (steps + 1) n u = r.resolveSteps g steps t n := by
          simp [resolveSteps, hn, ht]
        refine ⟨k + 1, by simp only [List.length_append, List.length_singleton] at hk; omega, ?_⟩
        rw [heq]
        exact .aliased hn ht hres
      · have hb' : ∀ t, g.shape? b ≠ some (.ref t) := fun t h => hb ⟨t, h⟩
        -- `hb'` rules out the reference branch of the match.
        have heq : r.resolveSteps g (steps + 1) n u = .ok b := by
          simp only [resolveSteps, hn]
        exact ⟨1, by omega, heq ▸ .body hn hb'⟩

/-- Once no chain loops, the chain from any rule is free of repeats. -/
theorem follows_nodup_of_checkAliases (hc : r.checkAliases g = .ok ()) {n : String} {b : NodeId}
    (hn : r.get? n = some b) {ns : List String} (hf : r.Follows g b ns) : (n :: ns).Nodup := by
  by_contra hnd
  exact checkAliases_eq_ok_iff.mp hc (n, b) (mem_entries_of_get? hn) ⟨ns, hf, hnd⟩

/-- Once `checkAliases` has succeeded, `resolve` gives what its loop gives without a bound. -/
theorem resolve_resolves (hc : r.checkAliases g = .ok ()) (n u : String) :
    ∃ k ≤ r.entries.length + 1, r.Resolves g k n u (r.resolve g n u) := by
  obtain ⟨k, hk, hres⟩ := resolveSteps_resolves (r := r) (g := g) (r.entries.length + 1) [] n u
    List.nodup_nil (by simp) (fun b hb ns hf => by simpa using follows_nodup_of_checkAliases hc hb hf)
    (by simp)
  exact ⟨k, by simpa using hk, hres⟩

/-- Once `checkAliases` has succeeded, `root` reports a missing `root` rule, or gives what the
loop of `resolve` gives from it. -/
theorem root_resolves (hc : r.checkAliases g = .ok ()) :
    (r.get? rootName = none ∧ r.root g = .error .missingRoot) ∨
      ∃ k ≤ r.entries.length + 1, r.Resolves g k rootName rootName (r.root g) := by
  cases hroot : r.get? rootName with
  | none => exact .inl ⟨rfl, by simp [root, hroot]⟩
  | some body =>
    right
    by_cases hb : ∃ t, g.shape? body = some (.ref t)
    · obtain ⟨t, ht⟩ := hb
      -- `root` looks the rule up itself and hands the target to `resolve`.
      have hchain : ∀ b', r.get? t = some b' → ∀ ns, r.Follows g b' ns →
          ([rootName] ++ t :: ns).Nodup :=
        fun b' hb' ns hf => follows_nodup_of_checkAliases hc hroot (.step ht hb' hf)
      obtain ⟨k, hk, hres⟩ := resolveSteps_resolves (r := r) (g := g) (r.entries.length + 1)
        [rootName] t rootName (by simp) (by simpa using mem_names_of_get? hroot) hchain
        (by simp only [List.length_singleton]; omega)
      have heq : r.root g = r.resolveSteps g (r.entries.length + 1) t rootName := by
        simp [root, hroot, ht, resolve]
      refine ⟨k + 1, by simp only [List.length_singleton] at hk; omega, ?_⟩
      rw [heq]
      exact .aliased hroot ht hres
    · have hb' : ∀ t, g.shape? body ≠ some (.ref t) := fun t h => hb ⟨t, h⟩
      have heq : r.root g = .ok body := by
        simp only [root, hroot]
      exact ⟨1, by omega, heq ▸ .body hroot hb'⟩

/-- Alias chains are checked before they are followed. `checkAliases` succeeds exactly when no
rule's chain of aliases comes back to a name on it, and otherwise reports, for the first such
rule in definition order, its chain up to the first name met twice. Once it has succeeded,
`resolve` from any name, and `root`, give what following the chain without a bound gives (the
first body on it that is not a reference, or the first name on it that no rule defines), and
stop after at most one lookup more than there are rules. -/
theorem checkAliases_reports_first_loop (r : Rules) (g : Grammar) :
    (r.checkAliases g = .ok () ↔ ∀ e ∈ r.entries, ¬ r.Loops g e) ∧
    (∀ err, r.checkAliases g = .error err ↔
      ∃ pre e post chain, r.entries = pre ++ e :: post ∧ (∀ e' ∈ pre, ¬ r.Loops g e') ∧
        r.LoopChain g e chain ∧ err = .circularReference chain) ∧
    (r.checkAliases g = .ok () →
      (∀ n u, ∃ k ≤ r.entries.length + 1, r.Resolves g k n u (r.resolve g n u)) ∧
      ((r.get? rootName = none ∧ r.root g = .error .missingRoot) ∨
        ∃ k ≤ r.entries.length + 1, r.Resolves g k rootName rootName (r.root g))) :=
  ⟨checkAliases_eq_ok_iff, fun _ => checkAliases_eq_error_iff,
    fun hc => ⟨resolve_resolves hc, root_resolves hc⟩⟩

end Tokenweave.Dialect.Rules
