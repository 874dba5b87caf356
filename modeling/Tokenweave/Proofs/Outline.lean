import Tokenweave.Proofs.Traversals
import Tokenweave.Tree.Printer
/-!
# The printer writes the outline of a subtree

Main statement (`printFrom_outline`): for any node `n` of a well-formed tree, `printFrom n` is
the concatenation of one printed line per node of the subtree of `n`, taken in pre-order with
`n` first, each at its depth below `n` (`Outline`); every node of the subtree has exactly one
line. When no name in the subtree holds a newline, the text has exactly as many lines as the
subtree has nodes. A name with a newline breaks its line in two, since the printer quotes values
and writes spans as numbers but writes names as they are (`printFrom_newlineName`).

The printer's stack holds nodes with their depths. As for the queries' walks, a stack that starts
with a forest at one depth, given as much fuel as the forest has nodes, writes the forest's
outline and hands the rest of the stack to the rest of the fuel (`Outline.printWalk`). The
outline of a forest is its pre-order with depths (`PreOrder.exists_outline`), so in a
well-formed tree it exists and lists no more nodes than the tree holds.
-/

set_option autoImplicit false

namespace Tokenweave.ParseTree

open Relation

variable {t : ParseTree}

/-! ### Outlines -/

/-- `Outline t d cs L`: `L` lists the nodes of the subtrees of `cs` in pre-order, each with its
depth, the nodes of `cs` being at depth `d`. -/
inductive Outline (t : ParseTree) : Nat → List Handle → List (Handle × Nat) → Prop
  | nil (d : Nat) : Outline t d [] []
  | cons {d : Nat} {c : Handle} {cs : List Handle} {L₁ L₂ : List (Handle × Nat)} :
      Outline t (d + 1) (t.children c) L₁ → Outline t d cs L₂ →
      Outline t d (c :: cs) ((c, d) :: (L₁ ++ L₂))

/-- A forest's outline is its pre-order with depths. -/
theorem PreOrder.exists_outline {cs L : List Handle} (h : PreOrder t cs L) :
    ∀ d, ∃ M, Outline t d cs M ∧ M.map Prod.fst = L := by
  induction h with
  | nil => intro d; exact ⟨[], .nil d, rfl⟩
  | cons _ _ ih₁ ih₂ =>
    intro d
    obtain ⟨M₁, h₁, e₁⟩ := ih₁ (d + 1)
    obtain ⟨M₂, h₂, e₂⟩ := ih₂ d
    exact ⟨_, .cons h₁ h₂, by simp [e₁, e₂]⟩

/-! ### The printer's walk -/

section Printing

variable (pal : Palette) (spans values : Bool)

theorem printWalk_nil (k : Nat) (out : String) : t.printWalk pal spans values k [] out = out := by
  cases k <;> rfl

/-- The printer's walk writes the outline of the forest on top of its stack. -/
theorem Outline.printWalk {d : Nat} {cs : List Handle} {L : List (Handle × Nat)}
    (h : Outline t d cs L) : ∀ (k : Nat) (rest : List (Handle × Nat)) (out : String),
      t.printWalk pal spans values (k + L.length) (cs.map (·, d) ++ rest) out =
        t.printWalk pal spans values k rest
          (out ++ String.join (L.map fun p => t.printLine pal spans values p.1 p.2)) := by
  induction h with
  | nil => intro k rest out; simp
  | @cons d c cs L₁ L₂ _ _ ih₁ ih₂ =>
    intro k rest out
    have hlen : k + ((c, d) :: (L₁ ++ L₂)).length = (k + L₂.length + L₁.length) + 1 := by
      simp only [List.length_cons, List.length_append]
      omega
    rw [hlen, List.map_cons, List.cons_append]
    show t.printWalk pal spans values (k + L₂.length + L₁.length)
      ((t.children c).map (·, d + 1) ++ (cs.map (·, d) ++ rest))
      (out ++ t.printLine pal spans values c d) = _
    rw [ih₁, ih₂]
    simp [String.append_assoc]

end Printing

/-! ### Line breaks -/

theorem newline_not_mem_toDigits (k : Nat) : '\n' ∉ Nat.toDigits 10 k := fun h =>
  absurd (Nat.isDigit_of_mem_toDigits (by decide) (by decide) h) (by decide)

theorem newline_not_mem_escapeChar (c : Char) : '\n' ∉ (Text.escapeChar c).toList := by
  unfold Text.escapeChar
  split <;> simp_all [eq_comm]

/-- Quoted text holds no line break: a newline in it is written as an escape. -/
theorem newline_not_mem_quote (s : String) : '\n' ∉ (Text.quote s).toList := by
  simp [Text.quote, Text.escape, String.toList_join, newline_not_mem_escapeChar]

/-- A printed line without colour ends in the one line break of its own, unless the name brings
more. -/
theorem count_newline_printLine (spans values : Bool) (x : Handle) (d : Nat) :
    (t.printLine .plain spans values x d).toList.count '\n' =
      ((t.name x).getD "_").toList.count '\n' + 1 := by
  have hquote : (Text.quote (t.value x)).toList.count '\n' = 0 :=
    List.count_eq_zero.mpr (newline_not_mem_quote _)
  have hindent : (String.join (List.replicate d "  ")).toList.count '\n' = 0 := by
    rw [List.count_eq_zero, String.toList_join]
    simp only [List.mem_flatMap, List.mem_replicate]
    rintro ⟨s, ⟨-, rfl⟩, hs⟩
    exact absurd hs (by decide)
  simp only [printLine, name, Palette.plain, String.toList_append, List.count_append, hindent]
  split <;> split <;> simp [hquote, List.count_eq_zero, newline_not_mem_toDigits]

/-- Lines that each hold one line break make a text with one line break per line. -/
theorem count_newline_join {α : Type} (f : α → String) (L : List α)
    (h : ∀ a ∈ L, (f a).toList.count '\n' = 1) :
    (String.join (L.map f)).toList.count '\n' = L.length := by
  induction L with
  | nil => rfl
  | cons a L ih =>
    rw [List.map_cons, String.join_cons, String.toList_append, List.count_append,
      h a List.mem_cons_self, ih fun b hb => h b (List.mem_cons_of_mem _ hb), List.length_cons,
      Nat.add_comm]

/-! ### The printed subtree -/

/-- The printed subtree of a node of a well-formed tree: one line per node of the subtree, in
pre-order with the node first, each indented by its depth below the node; each node of the
subtree has one line, and when no name in it holds a newline the text has exactly as many
lines as the subtree has nodes. -/
theorem printFrom_outline (hwf : t.WellFormed) (n : Handle) (spans values : Bool) :
    ∃ L, Outline t 0 [n] L ∧
      t.printFrom n spans values =
        String.join (L.map fun p => t.printLine .plain spans values p.1 p.2) ∧
      (L.map Prod.fst).Nodup ∧
      (∀ x, x ∈ L.map Prod.fst ↔ ReflTransGen (ChildEdge t.entries) n x) ∧
      ((∀ x ∈ L.map Prod.fst, '\n' ∉ ((t.name x).getD "_").toList) →
        (t.printFrom n spans values).toList.count '\n' = L.length) := by
  have hD := preOrder_descendants hwf n
  obtain ⟨hnd, hmem⟩ := hD.nodup_mem_iff hwf
  obtain ⟨L, hL, hfst⟩ := (PreOrder.cons hD .nil).exists_outline 0
  have hlen : L.length = (t.descendants n .rootFirst).length + 1 := by
    rw [← List.length_map (f := Prod.fst), hfst]
    simp
  have hfuel := hD.length_le_size hwf
  obtain ⟨k, hk⟩ : ∃ k, t.size + 1 = k + L.length :=
    ⟨t.size - (t.descendants n .rootFirst).length, by omega⟩
  -- The walk from `[(n, 0)]` writes the whole outline within the fuel.
  have hprint : t.printFrom n spans values =
      String.join (L.map fun p => t.printLine .plain spans values p.1 p.2) := by
    rw [printFrom, hk, show [(n, 0)] = [n].map (·, 0) ++ [] from rfl, hL.printWalk,
      printWalk_nil, String.empty_append]
  refine ⟨L, hL, hprint, ?_, fun x => ?_, fun hnames => ?_⟩
  · rw [hfst, List.append_nil, List.nodup_cons]
    exact ⟨fun hn => hwf.not_transGen_childEdge_self n ((hmem n).mp hn), hnd⟩
  · rw [hfst, List.append_nil, List.mem_cons, hmem, reflTransGen_iff_eq_or_transGen, eq_comm]
  · rw [hprint]
    refine count_newline_join _ L fun p hp => ?_
    rw [count_newline_printLine,
      List.count_eq_zero.mpr (hnames p.1 (List.mem_map_of_mem (f := Prod.fst) hp))]

/-- A tree of one node over `a`, named `x`, a line break, `y`. -/
def newlineTree : ParseTree := ofParsed "a" (.mk 0 (some "x\ny") 0 1 [])

/-- One node, two lines: the name is written with its line break. -/
theorem printFrom_newlineName :
    newlineTree.WellFormed ∧ newlineTree.descendants 0 .rootFirst = [] ∧
      newlineTree.printFrom 0 false = "x\ny \"a\"\n" ∧
      (newlineTree.printFrom 0 false).toList.count '\n' = 2 :=
  ⟨ofParsed_wellFormed _ _, by decide, by decide, by decide⟩

/-- The outline of the list over `a,b;c`, printed from its root. -/
theorem listTree_printFrom_outline :
    listTree.WellFormed ∧
      ∃ L, Outline listTree 0 [7] L ∧
        listTree.printFrom 7 true =
          String.join (L.map fun p => listTree.printLine .plain true true p.1 p.2) ∧
        (L.map Prod.fst).Nodup ∧
        (∀ x, x ∈ L.map Prod.fst ↔ ReflTransGen (ChildEdge listTree.entries) 7 x) ∧
        ((∀ x ∈ L.map Prod.fst, '\n' ∉ ((listTree.name x).getD "_").toList) →
          (listTree.printFrom 7 true).toList.count '\n' = L.length) :=
  ⟨ofParsed_wellFormed _ _, printFrom_outline (ofParsed_wellFormed _ _) 7 true true⟩

end Tokenweave.ParseTree
