import Tokenweave.Grammar.Reachable
/-!
# Depth-first search, by recursion

The recursive depth-first search from a node, stated as a relation: `Search g seen todo out`
says that searching the nodes of `todo` in order, having seen the nodes of `seen` (newest
first), ends having seen the nodes of `out`. A node already seen, or not a node of the grammar,
is passed over; a new node is seen, then its children are searched left to right, then the rest
of `todo`.

Beside it, `Reaches g a b` says that `b` can be reached from `a` along child edges.

The lemmas here say what a search does: it only adds to what was seen, without repeats; it
sees every node of `todo`; every node it sees is reachable from `todo`; the children of every
node it sees are seen too; and it has exactly one outcome. The stack walk behind
`Grammar.reachable` is tied to this search by `reachableWalk_of_search`: the walk over
`todo ++ rest` does the search of `todo` and then goes on with `rest`.
-/

namespace Tokenweave.Grammar

/-- `Reaches g a b`: node `b` can be reached from node `a` along child edges. -/
inductive Reaches (g : Grammar) : NodeId → NodeId → Prop where
  | refl (a : NodeId) : Reaches g a a
  | child {a b c : NodeId} : Reaches g a b → c ∈ g.children b → Reaches g a c

/-- The recursive depth-first search: searching `todo` after having seen `seen` ends having
seen `out`, newest first. -/
inductive Search (g : Grammar) : List NodeId → List NodeId → List NodeId → Prop where
  /-- Nothing is left to search. -/
  | done (seen : List NodeId) : Search g seen [] seen
  /-- A node already seen, or not a node of the grammar, is passed over. -/
  | pass {seen : List NodeId} {x : NodeId} {todo out : List NodeId} :
      (x ∈ seen ∨ g.size ≤ x) → Search g seen todo out → Search g seen (x :: todo) out
  /-- A new node is seen, then its children are searched, then the rest. -/
  | visit {seen : List NodeId} {x : NodeId} {todo mid out : List NodeId} :
      x ∉ seen → x < g.size → Search g (x :: seen) (g.children x) mid →
      Search g mid todo out → Search g seen (x :: todo) out

/-- A path can start with one more edge. -/
theorem Reaches.cons {g : Grammar} {a b c : NodeId} (hb : b ∈ g.children a)
    (h : Reaches g b c) : Reaches g a c := by
  induction h with
  | refl => exact .child (.refl a) hb
  | child _ hc ih => exact .child ih hc

/-- The nodes of the grammar not seen yet, in increasing order. -/
def pending (g : Grammar) (seen : List NodeId) : List NodeId :=
  (List.range g.size).filter (· ∉ seen)

theorem mem_pending {g : Grammar} {seen : List NodeId} {x : NodeId} :
    x ∈ pending g seen ↔ x < g.size ∧ x ∉ seen := by
  simp [pending]

theorem pending_nil (g : Grammar) : pending g [] = List.range g.size := by
  simp [pending]

/-- Seeing a new node takes it off the pending nodes. -/
theorem pending_erase {g : Grammar} {seen : List NodeId} (x : NodeId) :
    (pending g seen).erase x = pending g (x :: seen) := by
  have nodup : (pending g seen).Nodup := (List.nodup_range).sublist List.filter_sublist
  rw [List.Nodup.erase_eq_filter nodup, pending, pending, List.filter_filter]
  apply List.filter_congr
  intro y _
  by_cases h : y = x <;> simp [h]

/-- A stronger filter keeps no more elements. -/
theorem length_filter_le_of_imp {l : List NodeId} {p q : NodeId → Bool}
    (h : ∀ y, p y = true → q y = true) : (l.filter p).length ≤ (l.filter q).length := by
  induction l with
  | nil => simp
  | cons a l ih =>
    by_cases hp : p a = true
    · simp [hp, h a hp]
      omega
    · by_cases hq : q a = true
      · simp [hp, hq]
        omega
      · simp [hp, hq]
        omega

/-- Seeing more leaves no more pending nodes. -/
theorem length_pending_le {g : Grammar} {seen more : List NodeId}
    (h : ∀ y ∈ seen, y ∈ more) : (pending g more).length ≤ (pending g seen).length := by
  apply length_filter_le_of_imp
  intro y hy
  simp only [decide_eq_true_eq] at hy ⊢
  exact fun hs => hy (h y hs)

namespace Search

variable {g : Grammar}

/-- A search only adds to what was seen. -/
theorem mono {seen todo out : List NodeId} (h : Search g seen todo out) :
    ∀ y ∈ seen, y ∈ out := by
  induction h with
  | done => exact fun _ hy => hy
  | pass _ _ ih => exact ih
  | visit _ _ _ _ ih₁ ih₂ => exact fun y hy => ih₂ y (ih₁ y (List.mem_cons_of_mem _ hy))

/-- A search sees no node twice. -/
theorem nodup {seen todo out : List NodeId} (h : Search g seen todo out) (hs : seen.Nodup) :
    out.Nodup := by
  induction h with
  | done => exact hs
  | pass _ _ ih => exact ih hs
  | visit hx _ _ _ ih₁ ih₂ => exact ih₂ (ih₁ (List.nodup_cons.mpr ⟨hx, hs⟩))

/-- A search sees every node of the grammar that it is asked to search. -/
theorem covers {seen todo out : List NodeId} (h : Search g seen todo out) :
    ∀ y ∈ todo, y < g.size → y ∈ out := by
  induction h with
  | done => exact fun _ hy => absurd hy List.not_mem_nil
  | pass hx h ih =>
    intro y hy hlt
    rcases List.mem_cons.mp hy with rfl | hy
    · rcases hx with hx | hx
      · exact h.mono y hx
      · exact absurd hx (Nat.not_le.mpr hlt)
    · exact ih y hy hlt
  | visit _ _ h₁ h₂ _ ih₂ =>
    intro y hy hlt
    rcases List.mem_cons.mp hy with rfl | hy
    · exact h₂.mono y (h₁.mono y List.mem_cons_self)
    · exact ih₂ y hy hlt

/-- Every node a search sees was seen before, or is reachable from a node it was asked to
search. -/
theorem sound {seen todo out : List NodeId} (h : Search g seen todo out) :
    ∀ y ∈ out, y ∈ seen ∨ ∃ z ∈ todo, Reaches g z y := by
  induction h with
  | done => exact fun _ hy => .inl hy
  | pass _ _ ih =>
    intro y hy
    rcases ih y hy with hy | ⟨z, hz, hr⟩
    · exact .inl hy
    · exact .inr ⟨z, List.mem_cons_of_mem _ hz, hr⟩
  | @visit seen x todo mid out _ _ _ _ ih₁ ih₂ =>
    intro y hy
    rcases ih₂ y hy with hy | ⟨z, hz, hr⟩
    · rcases ih₁ y hy with hy | ⟨z, hz, hr⟩
      · rcases List.mem_cons.mp hy with rfl | hy
        · exact .inr ⟨y, List.mem_cons_self, .refl y⟩
        · exact .inl hy
      · exact .inr ⟨x, List.mem_cons_self, hr.cons hz⟩
    · exact .inr ⟨z, List.mem_cons_of_mem _ hz, hr⟩

/-- Every node a search newly sees is a node of the grammar. -/
theorem lt_size {seen todo out : List NodeId} (h : Search g seen todo out) :
    ∀ y ∈ out, y ∉ seen → y < g.size := by
  induction h with
  | done => exact fun y hy hs => absurd hy hs
  | pass _ _ ih => exact ih
  | @visit seen x todo mid out _ hlt _ _ ih₁ ih₂ =>
    intro y hy hs
    by_cases hm : y ∈ mid
    · by_cases hyx : y = x
      · exact hyx ▸ hlt
      · exact ih₁ y hm (by simp [hyx, hs])
    · exact ih₂ y hy hm

/-- The children of every node a search newly sees are seen too, when they are nodes. -/
theorem closed_of_lt {seen todo out : List NodeId} (h : Search g seen todo out) :
    ∀ y ∈ out, y ∉ seen → ∀ c ∈ g.children y, c < g.size → c ∈ out := by
  induction h with
  | done => exact fun y hy hs => absurd hy hs
  | pass _ _ ih => exact ih
  | @visit seen x todo mid out _ hlt h₁ h₂ ih₁ ih₂ =>
    intro y hy hs c hc hclt
    by_cases hm : y ∈ mid
    · by_cases hyx : y = x
      · subst hyx
        exact h₂.mono c (h₁.covers c hc hclt)
      · have hn : y ∉ x :: seen := by simp [hyx, hs]
        exact h₂.mono c (ih₁ y hm hn c hc hclt)
    · exact ih₂ y hy hm c hc hclt

/-- In a grammar whose child ids are nodes, the children of every node a search newly sees
are seen too. -/
theorem closed (hg : g.InRange) {seen todo out : List NodeId} (h : Search g seen todo out) :
    ∀ y ∈ out, y ∉ seen → ∀ c ∈ g.children y, c ∈ out :=
  fun y hy hs c hc => h.closed_of_lt y hy hs c hc (hg y (h.lt_size y hy hs) c hc)

/-- A search has at most one outcome. -/
theorem unique {seen todo out out' : List NodeId} (h : Search g seen todo out)
    (h' : Search g seen todo out') : out = out' := by
  induction h generalizing out' with
  | done => cases h'; rfl
  | pass hx _ ih =>
    cases h' with
    | pass _ h' => exact ih h'
    | visit hx' hlt _ _ =>
      rcases hx with hx | hx
      · exact absurd hx hx'
      · exact absurd hx (Nat.not_le.mpr hlt)
  | visit hx hlt _ _ ih₁ ih₂ =>
    cases h' with
    | pass hx' _ =>
      rcases hx' with hx' | hx'
      · exact absurd hx' hx
      · exact absurd hx' (Nat.not_le.mpr hlt)
    | visit _ _ h₁' h₂' =>
      cases ih₁ h₁'
      exact ih₂ h₂'

/-- A search has an outcome, when at most `n` nodes are pending. -/
theorem exists_of_length_pending_le (g : Grammar) (n : Nat) :
    ∀ seen, (pending g seen).length ≤ n → ∀ todo, ∃ out, Search g seen todo out := by
  induction n with
  | zero =>
    intro seen hn todo
    induction todo with
    | nil => exact ⟨seen, .done seen⟩
    | cons x todo ih =>
      obtain ⟨out, h⟩ := ih
      by_cases hx : x ∈ seen ∨ g.size ≤ x
      · exact ⟨out, .pass hx h⟩
      · obtain ⟨hnot, hle⟩ := not_or.mp hx
        have hp : x ∈ pending g seen := mem_pending.mpr ⟨Nat.lt_of_not_le hle, hnot⟩
        have := List.length_pos_of_mem hp
        omega
  | succ n ihn =>
    intro seen hn todo
    induction todo generalizing seen with
    | nil => exact ⟨seen, .done seen⟩
    | cons x todo ih =>
      by_cases hx : x ∈ seen ∨ g.size ≤ x
      · obtain ⟨out, h⟩ := ih seen hn
        exact ⟨out, .pass hx h⟩
      · obtain ⟨hnot, hle⟩ := not_or.mp hx
        have hlt : x < g.size := Nat.lt_of_not_le hle
        have hp : x ∈ pending g seen := mem_pending.mpr ⟨hlt, hnot⟩
        have hshrink : (pending g (x :: seen)).length + 1 = (pending g seen).length := by
          rw [← pending_erase x, List.length_erase_of_mem hp]
          have := List.length_pos_of_mem hp
          omega
        obtain ⟨mid, h₁⟩ := ihn (x :: seen) (by omega) (g.children x)
        have hmid := length_pending_le (g := g) h₁.mono
        obtain ⟨out, h₂⟩ := ih mid (by omega)
        exact ⟨out, .visit hnot hlt h₁ h₂⟩

/-- Every search has an outcome. -/
theorem exists_out (g : Grammar) (seen todo : List NodeId) : ∃ out, Search g seen todo out :=
  exists_of_length_pending_le g _ seen (Nat.le_refl _) todo

end Search

/-- The stack walk over `todo ++ rest` does the search of `todo`, then goes on with `rest`. -/
theorem reachableWalk_of_search {g : Grammar} {seen todo out : List NodeId}
    (h : Search g seen todo out) (rest : List NodeId) :
    reachableWalk g (pending g seen) (todo ++ rest) seen =
      reachableWalk g (pending g out) rest out := by
  induction h generalizing rest with
  | done => rfl
  | @pass seen x todo out hx _ ih =>
    have hp : x ∉ pending g seen := by
      rw [mem_pending]
      rintro ⟨hlt, hnot⟩
      rcases hx with hx | hx
      · exact hnot hx
      · exact absurd hx (Nat.not_le.mpr hlt)
    rw [List.cons_append, reachableWalk, dif_neg hp]
    exact ih rest
  | @visit seen x todo mid out hx hlt _ _ ih₁ ih₂ =>
    have hp : x ∈ pending g seen := mem_pending.mpr ⟨hlt, hx⟩
    rw [List.cons_append, reachableWalk, dif_pos hp, pending_erase, ih₁, ih₂]

end Tokenweave.Grammar
