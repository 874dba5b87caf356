import Tokenweave.Proofs.Produces
import Tokenweave.Proofs.Boundary
import Tokenweave.Proofs.Arena
import Tokenweave.Tree.Query
/-!
# Parse trees tile the input

The nodes of the tree of a match lie over the text without gap or overlap: the root spans from
where the match began to where it ended, the children of a node follow each other across the
node's span, and a node without children spans exactly what its grammar node takes alone — a
literal, one character, or nothing (`Shape.Covers`). Joining the values of the leaves under a
node gives back the text under it.

`Parsed.Tiled` says this of a parse, and every parse that matching gives is tiled
(`Produces.tiled`). The nodes of the tree of a parse are built from its parts (`Built.every`), so
each node is tiled as its part is. The leaves walk, with its explicit stack, meets the leaves of
a subtree as one stretch (`Built.leaves_walk`); their values join into the text under the
subtree because slices that meet on a character boundary join (`Text.slice_append`), and every
span begins and ends on one: matching starts on a boundary, and a literal or a character read
from a boundary ends on one.

Main statement: `matchAt_tree_tiles`.
-/

set_option autoImplicit false

namespace Tokenweave

open Text

mutual
/-- A parse tiles the text under it: a parse without parts covers what its node's shape takes
alone, and the parts of any other follow each other across its span, each tiled in turn. -/
def Parsed.Tiled (g : Grammar) (s : String) : Parsed → Prop
  | .mk n _ a b [] => ∃ nd, g.get? n = some nd ∧ nd.shape.Covers s a b
  | .mk _ _ a b (c :: cs) => Parsed.TiledAll g s a (c :: cs) b

/-- The parses `cs` are tiled and follow each other from `a` to `b`. -/
def Parsed.TiledAll (g : Grammar) (s : String) : Nat → List Parsed → Nat → Prop
  | a, [], b => a = b
  | a, c :: cs, b => c.start = a ∧ Parsed.Tiled g s c ∧ Parsed.TiledAll g s c.stop cs b
end

namespace Shape

variable {s : String} {p q : Nat}

/-- What a shape takes alone ends after it begins. -/
theorem Covers.le {sh : Shape} (h : sh.Covers s p q) : p ≤ q := by
  cases sh with
  | literal t =>
    obtain ⟨-, rfl⟩ := h
    omega
  | charSet | charRange =>
    obtain ⟨c, -, -, rfl⟩ := charEnd_eq_some h
    omega
  | seq parts =>
    obtain ⟨-, rfl⟩ := h
    exact Nat.le_refl _
  | optional | notFollowedBy | endOfInput =>
    obtain rfl := h
    exact Nat.le_refl _
  | choice | oneOrMore | ref => exact h.elim

/-- What a shape takes alone from a boundary ends on a boundary. -/
theorem Covers.boundary_stop {sh : Shape} (h : sh.Covers s p q) (hp : isBoundary s p = true) :
    isBoundary s q = true := by
  cases sh with
  | literal t =>
    obtain ⟨ho, rfl⟩ := h
    exact isBoundary_of_occursAt ho
  | charSet | charRange =>
    obtain ⟨c, hc, -, rfl⟩ := charEnd_eq_some h
    exact (isBoundary_of_charAt hp hc).1
  | seq parts =>
    obtain ⟨-, rfl⟩ := h
    exact hp
  | optional | notFollowedBy | endOfInput =>
    obtain rfl := h
    exact hp
  | choice | oneOrMore | ref => exact h.elim

end Shape

namespace Parsed

variable {g : Grammar} {s : String}

/-- Tiling does not look at names. -/
theorem tiled_inherit (q : Parsed) (name : Option String) :
    (q.inherit name).Tiled g s ↔ q.Tiled g s := by
  obtain ⟨n, _ | _, a, b, _ | _⟩ := q <;> rfl

theorem tiled_mk {n : NodeId} {name : Option String} {a b : Nat} {cs : List Parsed}
    (hall : TiledAll g s a cs b)
    (hnil : cs = [] → ∃ nd, g.get? n = some nd ∧ nd.shape.Covers s a b) :
    (Parsed.mk n name a b cs).Tiled g s := by
  cases cs with
  | nil => exact hnil rfl
  | cons c cs => exact hall

mutual
/-- A tiled parse ends after it begins. -/
theorem Tiled.le : ∀ (q : Parsed), q.Tiled g s → q.start ≤ q.stop
  | .mk _ _ _ _ [], ⟨_, _, hcov⟩ => hcov.le
  | .mk _ _ _ _ (c :: cs), h => TiledAll.le (c :: cs) h

theorem TiledAll.le : ∀ {a b : Nat} (cs : List Parsed), TiledAll g s a cs b → a ≤ b
  | _, _, [], h => Nat.le_of_eq h
  | _, _, c :: cs, ⟨hstart, hc, hrest⟩ => by
    have := Tiled.le c hc
    have := TiledAll.le cs hrest
    omega
end

mutual
/-- A tiled parse that begins on a boundary ends on one. -/
theorem Tiled.boundary_stop : ∀ (q : Parsed), q.Tiled g s →
    Text.isBoundary s q.start = true → Text.isBoundary s q.stop = true
  | .mk _ _ _ _ [], ⟨_, _, hcov⟩, hp => hcov.boundary_stop hp
  | .mk _ _ _ _ (c :: cs), h, hp => TiledAll.boundary_stop (c :: cs) h hp

theorem TiledAll.boundary_stop : ∀ {a b : Nat} (cs : List Parsed), TiledAll g s a cs b →
    Text.isBoundary s a = true → Text.isBoundary s b = true
  | _, _, [], h, hp => h ▸ hp
  | _, _, c :: cs, ⟨hstart, hc, hrest⟩, hp =>
    TiledAll.boundary_stop cs hrest (Tiled.boundary_stop c hc (hstart ▸ hp))
end

/-- Parts that follow each other from a boundary are tiled and each begins on a boundary. -/
theorem TiledAll.of_mem : ∀ {a b : Nat} {cs : List Parsed}, TiledAll g s a cs b →
    Text.isBoundary s a = true → ∀ c ∈ cs, c.Tiled g s ∧ Text.isBoundary s c.start = true
  | _, _, [], _, _, _, hc => absurd hc List.not_mem_nil
  | _, _, c :: _, ⟨hstart, hc, hrest⟩, hp, x, hx => by
    rcases List.mem_cons.mp hx with rfl | hx
    · exact ⟨hc, hstart ▸ hp⟩
    · exact TiledAll.of_mem hrest (Tiled.boundary_stop _ hc (hstart ▸ hp)) x hx

/-- Being tiled from a boundary passes on to the parts. -/
theorem tiled_hereditary : ∀ q : Parsed, q.Tiled g s ∧ Text.isBoundary s q.start = true →
    ∀ c ∈ q.children, c.Tiled g s ∧ Text.isBoundary s c.start = true
  | .mk _ _ _ _ [], _, _, hc => absurd hc List.not_mem_nil
  | .mk _ _ _ _ (_ :: _), ⟨h, hp⟩, x, hx => TiledAll.of_mem h hp x hx

end Parsed

section Produced

variable {g : Grammar} {s : String}

mutual
/-- Every parse that matching can give is tiled. -/
theorem Produces.tiled : ∀ {a : NodeId} {p : Nat} {q : Parsed}, Produces g s a p q →
    q.Tiled g s
  | _, _, _, .leaf hnd hcov => ⟨_, hnd, hcov⟩
  | _, _, _, .seq hnd hsh hall => Parsed.tiled_mk hall.tiledAll fun hnil => ⟨_, hnd, by
      -- An empty sequence takes nothing.
      subst hnil
      cases hall
      rw [hsh]
      exact ⟨rfl, rfl⟩⟩
  | _, _, _, .choice _ _ _ h => (Parsed.tiled_inherit _ _).mpr h.tiled
  | _, _, _, .oneOrMore _ _ hne hall => Parsed.tiled_mk hall.tiledAll fun hnil => absurd hnil hne
  | _, _, _, .optional _ _ h =>
    Parsed.tiled_mk ⟨h.start_eq, h.tiled, rfl⟩ fun hnil => absurd hnil (List.cons_ne_nil _ _)

theorem ProducesAll.tiledAll : ∀ {ids : List NodeId} {p : Nat} {cs : List Parsed} {q : Nat},
    ProducesAll g s ids p cs q → Parsed.TiledAll g s p cs q
  | _, _, _, _, .nil => rfl
  | _, _, _, _, .cons h hrest => ⟨h.start_eq, h.tiled, hrest.tiledAll⟩
end

end Produced

namespace ParseTree

/-- The spans of the nodes `hs` follow each other from `a` to `b`. -/
def Tiles (t : ParseTree) : Nat → List Handle → Nat → Prop
  | a, [], b => a = b
  | a, h :: hs, b => (t.entry h).start = a ∧ t.Tiles (t.entry h).stop hs b

@[simp] theorem leavesWalk_nil (t : ParseTree) (k : Nat) (out : List Handle) :
    t.leavesWalk k [] out = out.reverse := by
  cases k <;> rfl

/-- The walk takes a node without children as the next leaf. -/
theorem leavesWalk_leaf {t : ParseTree} {h : Handle} (hh : t.children h = []) (k : Nat)
    (rest out : List Handle) :
    t.leavesWalk (k + 1) (h :: rest) out = t.leavesWalk k rest (h :: out) := by
  simp only [leavesWalk, hh]

/-- The walk goes down into a node with children, leftmost first. -/
theorem leavesWalk_inner {t : ParseTree} {h c : Handle} {cs : List Handle}
    (hh : t.children h = c :: cs) (k : Nat) (rest out : List Handle) :
    t.leavesWalk (k + 1) (h :: rest) out = t.leavesWalk k (c :: cs ++ rest) out := by
  simp only [leavesWalk, hh]

end ParseTree

section Tree

open ParseTree

variable {t : ParseTree} {g : Grammar}

/-- Parts built side by side and tiled as parses are tiled as nodes. -/
theorem BuiltAll.tiles {s : String} :
    ∀ {lo : Nat} {up : Option Nat} {hs : List Nat} {hi a b : Nat}
    (cs : List Parsed), BuiltAll t.entries lo up hs cs hi → Parsed.TiledAll g s a cs b →
      t.Tiles a hs b
  | _, _, [], _, _, _, [], _, hall => hall
  | _, _, x :: _, _, _, _, c :: cs, ⟨hb, hrest⟩, ⟨hstart, _, htiled⟩ => by
    obtain ⟨_, he, -⟩ := hb.entry
    simp only [Tiles, entry, he, Option.getD_some]
    exact ⟨hstart, BuiltAll.tiles cs hrest htiled⟩
  | _, _, [], _, _, _, _ :: _, hall, _ => hall.elim
  | _, _, _ :: _, _, _, _, [], hall, _ => hall.elim

/-- A node built from a tiled part: its children follow each other across its span, and if it
has none it spans what its grammar node takes alone. -/
theorem Built.tiles {s : String} {lo : Nat} {up : Option Nat} {x : Nat} {q : Parsed}
    (hb : Built t.entries lo up x q) (hq : q.Tiled g s) :
    (t.children x ≠ [] → t.Tiles (t.entry x).start (t.children x) (t.entry x).stop) ∧
      (t.children x = [] → ∃ nd, g.get? (t.entry x).node = some nd ∧
        nd.shape.Covers s (t.entry x).start (t.entry x).stop) := by
  obtain ⟨n, name, a, b, cs⟩ := q
  obtain ⟨hs, he, hall⟩ := hb
  simp only [ParseTree.children, ParseTree.entry, he, Option.getD_some]
  cases hs with
  | nil =>
    cases cs with
    | nil => exact ⟨fun hne => absurd rfl hne, fun _ => hq⟩
    | cons => exact hall.elim
  | cons =>
    cases cs with
    | nil => exact hall.elim
    | cons c cs =>
      exact ⟨fun _ => BuiltAll.tiles (c :: cs) hall hq,
        fun hnil => absurd hnil (List.cons_ne_nil _ _)⟩

mutual
/-- The leaves walk meets the leaves of a built subtree as one stretch, in no more steps than
the subtree has nodes, and their values join into the text under the subtree. -/
theorem Built.leaves_walk : ∀ {lo : Nat} {up : Option Nat} {h : Nat} (q : Parsed),
    Built t.entries lo up h q → q.Tiled g t.source → isBoundary t.source q.start = true →
    ∀ k rest out, ∃ L : List Handle,
      t.leavesWalk (k + (h + 1 - lo)) (h :: rest) out = t.leavesWalk k rest (L.reverse ++ out) ∧
      String.join (L.map t.value) = slice t.source q.start q.stop
  | lo, _, h, .mk _ _ _ _ [], ⟨hs, he, hall⟩, _, _, k, rest, out => by
    -- A part without parts is a leaf of the tree: the walk takes it in one step.
    cases hs with
    | cons => exact hall.elim
    | nil =>
      have hlo : lo = h := hall
      subst hlo
      have hleaf : t.children lo = [] := by simp [children, entry, he]
      refine ⟨[lo], ?_, ?_⟩
      · rw [show k + (lo + 1 - lo) = k + 1 by omega, leavesWalk_leaf hleaf]
        rfl
      · simp [value, entry, he]
  | lo, _, h, .mk _ _ _ _ (c :: cs), ⟨hs, he, hall⟩, hq, hbd, k, rest, out => by
    cases hs with
    | nil => exact hall.elim
    | cons x hs =>
      have hinner : t.children h = x :: hs := by simp [children, entry, he]
      have hle := (BuiltAll.le _ hall).1
      obtain ⟨L, hwalk, hjoin⟩ := BuiltAll.leaves_walk (c :: cs) hall hq hbd k rest out
      refine ⟨L, ?_, hjoin⟩
      rw [show k + (h + 1 - lo) = k + (h - lo) + 1 by omega, leavesWalk_inner hinner]
      exact hwalk

theorem BuiltAll.leaves_walk : ∀ {lo : Nat} {up : Option Nat} {hs : List Nat} {hi a b : Nat}
    (cs : List Parsed), BuiltAll t.entries lo up hs cs hi → Parsed.TiledAll g t.source a cs b →
      isBoundary t.source a = true → ∀ k rest out, ∃ L : List Handle,
        t.leavesWalk (k + (hi - lo)) (hs ++ rest) out = t.leavesWalk k rest (L.reverse ++ out) ∧
        String.join (L.map t.value) = slice t.source a b
  | lo, _, [], hi, a, b, [], hall, htiled, _, k, rest, out => by
    have hlo : lo = hi := hall
    have hab : a = b := htiled
    subst hlo hab
    exact ⟨[], by simp, by simp⟩
  | lo, _, x :: hs, hi, a, b, c :: cs, ⟨hb, hrest⟩, ⟨hstart, hc, htiled⟩, hbd, k, rest,
      out => by
    have hx := Built.le c hb
    have hrange := (BuiltAll.le cs hrest).1
    have hbd' : isBoundary t.source c.start = true := hstart ▸ hbd
    have hmid := Parsed.Tiled.boundary_stop c hc hbd'
    -- First the leaves of the first part, then those of the others.
    obtain ⟨L₁, hwalk₁, hjoin₁⟩ :=
      Built.leaves_walk c hb hc hbd' (k + (hi - (x + 1))) (hs ++ rest) out
    obtain ⟨L₂, hwalk₂, hjoin₂⟩ :=
      BuiltAll.leaves_walk cs hrest htiled hmid k rest (L₁.reverse ++ out)
    refine ⟨L₁ ++ L₂, ?_, ?_⟩
    · calc t.leavesWalk (k + (hi - lo)) (x :: hs ++ rest) out
          = t.leavesWalk (k + (hi - (x + 1)) + (x + 1 - lo)) (x :: (hs ++ rest)) out := by
            rw [show k + (hi - lo) = k + (hi - (x + 1)) + (x + 1 - lo) by omega]
            rfl
        _ = t.leavesWalk k rest (L₂.reverse ++ (L₁.reverse ++ out)) := by
            rw [hwalk₁, hwalk₂]
        _ = t.leavesWalk k rest ((L₁ ++ L₂).reverse ++ out) := by simp
    · rw [List.map_append, String.join_append, hjoin₁, hjoin₂, ← hstart]
      exact slice_append hbd' hmid (htiled.boundary_stop cs hmid) (Parsed.Tiled.le c hc)
        (htiled.le cs)
  | _, _, [], _, _, _, _ :: _, hall, _, _, _, _, _ => hall.elim
  | _, _, _ :: _, _, _, _, [], hall, _, _, _, _, _ => hall.elim
end

/-- Joining the leaves under a node built from a tiled part gives the text under the part. -/
theorem Built.joinLeaves {lo : Nat} {up : Option Nat} {x : Nat} {q : Parsed}
    (hb : Built t.entries lo up x q) (hq : q.Tiled g t.source)
    (hbd : isBoundary t.source q.start = true) :
    t.joinLeaves x "" = slice t.source q.start q.stop := by
  have hx : x < t.size := hb.lt_size
  have hlo := Built.le q hb
  obtain ⟨L, hwalk, hjoin⟩ := Built.leaves_walk q hb hq hbd (t.size + 1 - (x + 1 - lo)) [] []
  have hfuel : t.size + 1 - (x + 1 - lo) + (x + 1 - lo) = t.size + 1 := by omega
  rw [ParseTree.joinLeaves, ParseTree.leaves, ← hfuel, hwalk, leavesWalk_nil, List.append_nil,
    List.reverse_reverse, intercalate_empty, hjoin]

end Tree

/-- The tree of a successful match tiles the input: the root spans the match, the children of
each node follow each other across its span, a node without children spans what its grammar
node takes alone, and the leaves under each node join into the text under it. -/
theorem matchAt_tree_tiles {g : Grammar} {n : NodeId} {s : String} {p : Nat} {limits : Limits}
    {traced : Bool} {o : Outcome} {q : Parsed} (h : (matchAt g n s p limits traced).result = .ok o)
    (hq : o.parsed = some q) :
    let t := ParseTree.ofParsed s q
    (t.entry t.root).start = p ∧ (t.entry t.root).stop = q.stop ∧
      ∀ x < t.size,
        (t.children x ≠ [] → t.Tiles (t.entry x).start (t.children x) (t.entry x).stop) ∧
        (t.children x = [] → ∃ nd, g.get? (t.entry x).node = some nd ∧
          nd.shape.Covers s (t.entry x).start (t.entry x).stop) ∧
        t.joinLeaves x "" = slice s (t.entry x).start (t.entry x).stop := by
  intro t
  obtain ⟨hbd, -⟩ := answers_of_matchAt_some h hq
  have hprod := produces_of_matchAt h hq
  have hstart : q.start = p := hprod.start_eq
  obtain ⟨-, -, hroot, hstop, -⟩ := ParseTree.entry_of_built (ParseTree.ofParsed_built s q).1
  refine ⟨hroot.trans hstart, hstop, fun x hx => ?_⟩
  -- Each node is built from a part of the parse, tiled and beginning on a boundary.
  obtain ⟨_, _, q', hb', htiled, hbd'⟩ :=
    ParseTree.ofParsed_every Parsed.tiled_hereditary ⟨hprod.tiled, hstart ▸ hbd⟩ hx
  obtain ⟨-, -, hstart', hstop', -⟩ := ParseTree.entry_of_built hb'
  refine ⟨(hb'.tiles htiled).1, (hb'.tiles htiled).2, ?_⟩
  rw [hstart', hstop']
  exact hb'.joinLeaves htiled hbd'

/-- A greeting: the literal `hi`, then `!` or `?` if there is one, then the end of the input. -/
def greeting : Grammar :=
  { nodes := #[{ shape := .seq [1, 2, 4] }, { shape := .literal "hi" }, { shape := .optional 3 },
      { shape := .charSet ['!', '?'] false }, { shape := .endOfInput }] }

/-- The parse of `hi!` by `greeting`: the literal, the optional holding the mark, and the empty
end of the input. -/
def greetingParse : Parsed :=
  .mk 0 none 0 3 [.mk 1 none 0 2 [], .mk 2 none 2 3 [.mk 3 none 2 3 []], .mk 4 none 3 3 []]

/-- The statement on `hi!`, where leaves of width two, one and zero tile the text. -/
theorem greeting_tiles :
    (matchAt greeting 0 "hi!" 0).result = .ok ⟨some greetingParse, 0⟩ ∧
      let t := ParseTree.ofParsed "hi!" greetingParse
      (t.entry t.root).start = 0 ∧ (t.entry t.root).stop = greetingParse.stop ∧
        ∀ x < t.size,
          (t.children x ≠ [] → t.Tiles (t.entry x).start (t.children x) (t.entry x).stop) ∧
          (t.children x = [] → ∃ nd, greeting.get? (t.entry x).node = some nd ∧
            nd.shape.Covers "hi!" (t.entry x).start (t.entry x).stop) ∧
          t.joinLeaves x "" = slice "hi!" (t.entry x).start (t.entry x).stop :=
  ⟨rfl, @matchAt_tree_tiles greeting 0 "hi!" 0 {} false _ greetingParse rfl rfl⟩

end Tokenweave
