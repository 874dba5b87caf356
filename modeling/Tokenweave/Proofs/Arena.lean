import Mathlib
import Tokenweave.Tree.Basic
/-!
# Parses in the node array

A parse tree keeps its nodes in an array, and `ParseTree.ofParsed` fills it by pushing the nodes
of a parse, the parts of a node before the node. `Built arr lo up h q` says where the nodes of
the parse `q` stand: its subtree fills the entries `lo` to `h` of `arr`, with its root at `h`
and parent `up`, and the subtrees of its parts fill the entries from `lo` to just before `h`,
left to right, each with parent `h`.

Main statements: pushing a parse appends exactly the entries of its subtree, root last, and
leaves every entry before them as it was (`pushParsed_built`); the entries of a built subtree
are exactly the nodes reached from its root by child edges (`Built.reaches_iff`); every node of
a built subtree is itself built from a part of the parse (`Built.every`), so what holds of every
part of a parse holds at every node. In the tree of a parse every node is reached from the
root, the root has no parent, and the parent links are the child lists read backwards
(`ofParsed_reaches`, `ofParsed_parent_root`, `ofParsed_parent_eq_some_iff`).
-/

set_option autoImplicit false

namespace Tokenweave

/-- `c` is a child of `y` among the nodes `arr`. -/
def ChildEdge (arr : Array Entry) (y c : Nat) : Prop :=
  c ∈ (arr[y]?.getD default).children

mutual
/-- `Built arr lo up h q`: the entries `lo` to `h` of `arr` hold the parse `q`: entry `h` holds
its root, with parent `up`, and the entries before it hold its parts, left to right. -/
def Built (arr : Array Entry) (lo : Nat) (up : Option Nat) : Nat → Parsed → Prop
  | h, .mk n name a b cs => ∃ hs,
      arr[h]? = some { node := n, name := name, start := a, stop := b, children := hs,
                       parent := up } ∧
      BuiltAll arr lo (some h) hs cs h

/-- `BuiltAll arr lo up hs cs hi`: the entries `lo` to just before `hi` of `arr` hold the parses
`cs`, left to right, with their roots at `hs` and parent `up`. -/
def BuiltAll (arr : Array Entry) : Nat → Option Nat → List Nat → List Parsed → Nat → Prop
  | lo, _, [], [], hi => lo = hi
  | lo, up, h :: hs, c :: cs, hi => Built arr lo up h c ∧ BuiltAll arr (h + 1) up hs cs hi
  | _, _, _, _, _ => False
end

section Built

variable {arr : Array Entry}

theorem Built.entry {lo : Nat} {up : Option Nat} {h : Nat} {q : Parsed}
    (hb : Built arr lo up h q) :
    ∃ hs : List Nat,
      arr[h]? = some { node := q.node, name := q.name, start := q.start, stop := q.stop,
                       children := hs, parent := up } ∧
      BuiltAll arr lo (some h) hs q.children h := by
  cases q
  exact hb

mutual
/-- A built subtree ends at its root. -/
theorem Built.le : ∀ {lo : Nat} {up : Option Nat} {h : Nat} (q : Parsed),
    Built arr lo up h q → lo ≤ h
  | _, _, _, .mk _ _ _ _ cs, ⟨_, _, hall⟩ => (BuiltAll.le cs hall).1

/-- The parts of a subtree lie in its entries, their roots in order. -/
theorem BuiltAll.le : ∀ {lo : Nat} {up : Option Nat} {hs : List Nat} {hi : Nat}
    (cs : List Parsed), BuiltAll arr lo up hs cs hi → lo ≤ hi ∧ ∀ x ∈ hs, lo ≤ x ∧ x < hi
  | _, _, [], _, [], hb => ⟨Nat.le_of_eq hb, by simp⟩
  | lo, _, x :: _, hi, c :: cs, ⟨hb, hrest⟩ => by
    have hc : lo ≤ x := Built.le c hb
    obtain ⟨hle, hmem⟩ := BuiltAll.le cs hrest
    refine ⟨by omega, ?_⟩
    intro x hx
    rcases List.mem_cons.mp hx with rfl | hx
    · omega
    · have := hmem x hx
      omega
  | _, _, [], _, _ :: _, hb => hb.elim
  | _, _, _ :: _, _, [], hb => hb.elim
end

theorem Built.lt_size {lo : Nat} {up : Option Nat} {h : Nat} {q : Parsed}
    (hb : Built arr lo up h q) : h < arr.size := by
  obtain ⟨_, he, -⟩ := hb.entry
  exact (Array.getElem?_eq_some_iff.mp he).1

theorem Built.parent_eq {lo : Nat} {up : Option Nat} {h : Nat} {q : Parsed}
    (hb : Built arr lo up h q) : (arr[h]?.getD default).parent = up := by
  obtain ⟨_, he, -⟩ := hb.entry
  simp [he]

mutual
/-- A built subtree stays built when its entries stay as they are. -/
theorem Built.frame : ∀ {arr' : Array Entry} {lo : Nat} {up : Option Nat} {h : Nat}
    (q : Parsed), Built arr lo up h q → (∀ i, lo ≤ i → i ≤ h → arr'[i]? = arr[i]?) →
      Built arr' lo up h q
  | _, _, _, _, .mk _ _ _ _ cs, ⟨hs, he, hall⟩, same =>
    ⟨hs, by rw [same _ (BuiltAll.le cs hall).1 (Nat.le_refl _), he],
      BuiltAll.frame cs hall fun i hlo hi => same i hlo (Nat.le_of_lt hi)⟩

theorem BuiltAll.frame : ∀ {arr' : Array Entry} {lo : Nat} {up : Option Nat}
    {hs : List Nat} {hi : Nat} (cs : List Parsed), BuiltAll arr lo up hs cs hi →
      (∀ i, lo ≤ i → i < hi → arr'[i]? = arr[i]?) → BuiltAll arr' lo up hs cs hi
  | _, _, _, [], _, [], hb, _ => hb
  | _, _, _, x :: _, _, c :: cs, ⟨hb, hrest⟩, same => by
    have hlt := (BuiltAll.le cs hrest).1
    exact ⟨Built.frame c hb fun i hlo hi => same i hlo (by omega),
      BuiltAll.frame cs hrest fun i hlo hi => same i (by have := Built.le c hb; omega) hi⟩
  | _, _, _, [], _, _ :: _, hb, _ => hb.elim
  | _, _, _, _ :: _, _, [], hb, _ => hb.elim
end

/-- Giving the root of a built subtree another parent keeps it built, with that parent. -/
theorem Built.reparent {lo : Nat} {up : Option Nat} {h : Nat} {q : Parsed}
    (hb : Built arr lo up h q) (up' : Option Nat) :
    Built (arr.modify h fun e => { e with parent := up' }) lo up' h q := by
  cases q with
  | mk n name a b cs =>
    obtain ⟨hs, he, hall⟩ := hb
    refine ⟨hs, by simp [Array.getElem?_modify, he], BuiltAll.frame cs hall ?_⟩
    intro i _ hi
    simp [Array.getElem?_modify, Nat.ne_of_gt hi]

/-- Modifying the entries `hs` one after another leaves every other entry as it was. -/
theorem getElem?_foldl_modify (f : Entry → Entry) :
    ∀ (hs : List Nat) (arr : Array Entry) (i : Nat), i ∉ hs →
      (hs.foldl (fun a c => a.modify c f) arr)[i]? = arr[i]?
  | [], _, _, _ => rfl
  | x :: hs, arr, i, hi => by
    rw [List.foldl_cons, getElem?_foldl_modify f hs _ i (fun h => hi (List.mem_cons_of_mem x h))]
    simp [Array.getElem?_modify, Ne.symm (List.ne_of_not_mem_cons hi)]

theorem size_foldl_modify (f : Entry → Entry) :
    ∀ (hs : List Nat) (arr : Array Entry), (hs.foldl (fun a c => a.modify c f) arr).size = arr.size
  | [], _ => rfl
  | _ :: hs, arr => by rw [List.foldl_cons, size_foldl_modify f hs, Array.size_modify]

/-- Giving every root of built subtrees the parent `p` keeps them built, with that parent. -/
theorem BuiltAll.reparent (p : Nat) :
    ∀ {arr : Array Entry} {lo : Nat} {up : Option Nat} {hs : List Nat} {hi : Nat}
      (cs : List Parsed), BuiltAll arr lo up hs cs hi →
        BuiltAll (hs.foldl (fun a c => a.modify c fun e => { e with parent := some p }) arr)
          lo (some p) hs cs hi
  | _, _, _, [], _, [], hb => hb
  | arr, lo, _, x :: hs, _, c :: cs, ⟨hb, hrest⟩ => by
    rw [List.foldl_cons]
    have hafter := (BuiltAll.le cs hrest).2
    refine ⟨Built.frame c (hb.reparent (some p)) ?_,
      BuiltAll.reparent p cs (BuiltAll.frame cs hrest ?_)⟩
    · -- The later roots all stand after this subtree.
      intro i _ hi
      refine getElem?_foldl_modify _ hs _ i fun hmem => ?_
      have := hafter i hmem
      omega
    · intro i hlo _
      simp [Array.getElem?_modify, show x ≠ i by omega]
  | _, _, _, [], _, _ :: _, hb => hb.elim
  | _, _, _, _ :: _, _, [], hb => hb.elim

end Built

mutual
/-- Pushing a parse appends the entries of its subtree, its root last, and leaves every entry
before them as it was. -/
theorem pushParsed_built : ∀ (q : Parsed) (arr : Array Entry),
    ∃ (arr' : Array Entry) (h : Nat), ParseTree.pushParsed q arr = (arr', h) ∧
      Built arr' arr.size none h q ∧ arr'.size = h + 1 ∧ ∀ i < arr.size, arr'[i]? = arr[i]?
  | .mk n name a b cs, arr => by
    obtain ⟨arr₁, hs, hpush, hall, hsize, hsame⟩ := pushAll_built cs arr
    have hafter := (BuiltAll.le cs hall).2
    rw [ParseTree.pushParsed, hpush]
    refine ⟨_, _, rfl, ⟨hs, ?_, ?_⟩, ?_, ?_⟩
    · rw [Array.getElem?_push, size_foldl_modify, if_pos rfl]
    · refine BuiltAll.frame cs (BuiltAll.reparent arr₁.size cs hall) ?_
      intro i _ hi
      rw [Array.getElem?_push, size_foldl_modify, if_neg (by omega)]
    · rw [Array.size_push, size_foldl_modify]
    · intro i hi
      rw [Array.getElem?_push, size_foldl_modify, if_neg (by omega),
        getElem?_foldl_modify _ hs _ i, hsame i hi]
      intro hmem
      have := hafter i hmem
      omega

/-- Pushing parses one after another appends the entries of their subtrees, left to right,
and leaves every entry before them as it was. -/
theorem pushAll_built : ∀ (cs : List Parsed) (arr : Array Entry),
    ∃ (arr' : Array Entry) (hs : List Nat), ParseTree.pushAll cs arr = (arr', hs) ∧
      BuiltAll arr' arr.size none hs cs arr'.size ∧ arr.size ≤ arr'.size ∧
      ∀ i < arr.size, arr'[i]? = arr[i]?
  | [], arr => ⟨arr, [], rfl, rfl, Nat.le_refl _, fun _ _ => rfl⟩
  | c :: cs, arr => by
    obtain ⟨arr₁, h, hpush, hb, hsize, hsame⟩ := pushParsed_built c arr
    obtain ⟨arr₂, hs, hpush', hall, hsize', hsame'⟩ := pushAll_built cs arr₁
    have hle := Built.le c hb
    refine ⟨arr₂, h :: hs, by simp only [ParseTree.pushAll, hpush, hpush'], ?_, by omega, ?_⟩
    · exact ⟨Built.frame c hb fun i _ hi => hsame' i (by omega), hsize ▸ hall⟩
    · intro i hi
      rw [hsame' i (by omega), hsame i hi]
end

@[simp] theorem Entry.parent_default : (default : Entry).parent = none := rfl

@[simp] theorem Entry.children_default : (default : Entry).children = [] := rfl

section Subtree

variable {arr : Array Entry}

theorem childEdge_of_getElem? {h : Nat} {e : Entry} (he : arr[h]? = some e) (c : Nat) :
    ChildEdge arr h c ↔ c ∈ e.children := by
  simp [ChildEdge, he]

/-- Each root of built parts is built from one of the parts, with the parts' parent. -/
theorem BuiltAll.built_of_mem {up : Option Nat} :
    ∀ {lo : Nat} {hs : List Nat} {hi : Nat} (cs : List Parsed), BuiltAll arr lo up hs cs hi →
      ∀ c ∈ hs, ∃ lo' q', q' ∈ cs ∧ Built arr lo' up c q'
  | _, [], _, [], _, _, hc => absurd hc List.not_mem_nil
  | lo, x :: _, _, q :: cs, ⟨hb, hrest⟩, c, hc => by
    rcases List.mem_cons.mp hc with rfl | hc
    · exact ⟨lo, q, List.mem_cons_self, hb⟩
    · obtain ⟨lo', q', hq', hb'⟩ := BuiltAll.built_of_mem cs hrest c hc
      exact ⟨lo', q', List.mem_cons_of_mem q hq', hb'⟩
  | _, [], _, _ :: _, hb, _, _ => hb.elim
  | _, _ :: _, _, [], hb, _, _ => hb.elim

/-- The roots of built parts come in increasing order, so none comes twice. -/
theorem BuiltAll.nodup {up : Option Nat} :
    ∀ {lo : Nat} {hs : List Nat} {hi : Nat} (cs : List Parsed), BuiltAll arr lo up hs cs hi →
      hs.Nodup
  | _, [], _, _, _ => List.nodup_nil
  | _, _ :: _, _, [], hb => hb.elim
  | _, x :: _, _, _ :: cs, ⟨_, hrest⟩ => by
    refine List.nodup_cons.mpr ⟨fun hx => ?_, BuiltAll.nodup cs hrest⟩
    have := ((BuiltAll.le cs hrest).2 x hx).1
    omega

/-- The children of a built node have it as their parent. -/
theorem Built.parent_of_childEdge {lo : Nat} {up : Option Nat} {h : Nat} {q : Parsed}
    (hb : Built arr lo up h q) {c : Nat} (hc : ChildEdge arr h c) :
    (arr[c]?.getD default).parent = some h := by
  obtain ⟨hs, he, hall⟩ := hb.entry
  obtain ⟨_, _, -, hc'⟩ := BuiltAll.built_of_mem _ hall c ((childEdge_of_getElem? he c).mp hc)
  exact hc'.parent_eq

mutual
/-- Every node of a built subtree is built from a part of the parse, inside the subtree's
entries: the root with the subtree's parent, any other node with a parent of which it is a
child. The part satisfies whatever the parse does and passes on to its parts. -/
theorem Built.every {P : Parsed → Prop} (hP : ∀ q, P q → ∀ c ∈ q.children, P c) :
    ∀ {lo : Nat} {up : Option Nat} {h : Nat} (q : Parsed), Built arr lo up h q → P q →
      ∀ x, lo ≤ x → x ≤ h → ∃ lo' up' q', lo ≤ lo' ∧ Built arr lo' up' x q' ∧ P q' ∧
        ((x = h ∧ up' = up) ∨ ∃ y, up' = some y ∧ ChildEdge arr y x)
  | lo, up, h, .mk n name a b cs, ⟨hs, he, hall⟩, hq, x, hlo, hx => by
    rcases Nat.eq_or_lt_of_le hx with rfl | hlt
    · exact ⟨lo, up, .mk n name a b cs, Nat.le_refl _, ⟨hs, he, hall⟩, hq, .inl ⟨rfl, rfl⟩⟩
    · obtain ⟨lo', up', q', hle, hb', hq', hwhere⟩ :=
        BuiltAll.every hP cs hall (hP _ hq) x hlo hlt
      refine ⟨lo', up', q', hle, hb', hq', .inr ?_⟩
      rcases hwhere with ⟨hmem, rfl⟩ | hchild
      · exact ⟨h, rfl, by simp [ChildEdge, he, hmem]⟩
      · exact hchild

theorem BuiltAll.every {P : Parsed → Prop} (hP : ∀ q, P q → ∀ c ∈ q.children, P c) :
    ∀ {lo : Nat} {up : Option Nat} {hs : List Nat} {hi : Nat} (cs : List Parsed),
      BuiltAll arr lo up hs cs hi → (∀ c ∈ cs, P c) →
      ∀ x, lo ≤ x → x < hi → ∃ lo' up' q', lo ≤ lo' ∧ Built arr lo' up' x q' ∧ P q' ∧
        ((x ∈ hs ∧ up' = up) ∨ ∃ y, up' = some y ∧ ChildEdge arr y x)
  | lo, _, [], hi, [], hb, _, x, hlo, hx => by
    have : lo = hi := hb
    omega
  | lo, up, y :: hs, hi, c :: cs, ⟨hb, hrest⟩, hcs, x, hlo, hx => by
    by_cases hin : x ≤ y
    · obtain ⟨lo', up', q', hle, hb', hq', hwhere⟩ :=
        Built.every hP c hb (hcs c List.mem_cons_self) x hlo hin
      refine ⟨lo', up', q', hle, hb', hq', ?_⟩
      rcases hwhere with ⟨rfl, rfl⟩ | hchild
      · exact .inl ⟨List.mem_cons_self, rfl⟩
      · exact .inr hchild
    · obtain ⟨lo', up', q', hle, hb', hq', hwhere⟩ :=
        BuiltAll.every hP cs hrest (fun c' hc' => hcs c' (List.mem_cons_of_mem c hc')) x
          (by omega) hx
      refine ⟨lo', up', q', by have := Built.le c hb; omega, hb', hq', ?_⟩
      rcases hwhere with ⟨hmem, rfl⟩ | hchild
      · exact .inl ⟨List.mem_cons_of_mem y hmem, rfl⟩
      · exact .inr hchild
  | _, _, [], _, _ :: _, hb, _, _, _, _ => hb.elim
  | _, _, _ :: _, _, [], hb, _, _, _, _ => hb.elim
end

mutual
/-- Every entry of a built subtree is reached from its root by child edges. -/
theorem Built.reaches : ∀ {lo : Nat} {up : Option Nat} {h : Nat} (q : Parsed),
    Built arr lo up h q → ∀ x, lo ≤ x → x ≤ h → Relation.ReflTransGen (ChildEdge arr) h x
  | _, _, h, .mk _ _ _ _ cs, ⟨hs, he, hall⟩, x, hlo, hx => by
    rcases Nat.eq_or_lt_of_le hx with rfl | hlt
    · exact .refl
    · obtain ⟨y, hy, hyx⟩ := BuiltAll.reaches cs hall x hlo hlt
      exact .head (by simp [ChildEdge, he, hy]) hyx

theorem BuiltAll.reaches : ∀ {lo : Nat} {up : Option Nat} {hs : List Nat} {hi : Nat}
    (cs : List Parsed), BuiltAll arr lo up hs cs hi →
      ∀ x, lo ≤ x → x < hi → ∃ y ∈ hs, Relation.ReflTransGen (ChildEdge arr) y x
  | lo, _, [], hi, [], hb, x, hlo, hx => by
    have : lo = hi := hb
    omega
  | _, _, y :: _, _, c :: cs, ⟨hb, hrest⟩, x, hlo, hx => by
    by_cases hin : x ≤ y
    · exact ⟨y, List.mem_cons_self, Built.reaches c hb x hlo hin⟩
    · obtain ⟨z, hz, hzx⟩ := BuiltAll.reaches cs hrest x (by omega) hx
      exact ⟨z, List.mem_cons_of_mem y hz, hzx⟩
  | _, _, [], _, _ :: _, hb, _, _, _ => hb.elim
  | _, _, _ :: _, _, [], hb, _, _, _ => hb.elim
end

/-- The entries of a built subtree are exactly the nodes reached from its root by child edges. -/
theorem Built.reaches_iff {lo : Nat} {up : Option Nat} {h : Nat} {q : Parsed}
    (hb : Built arr lo up h q) (x : Nat) :
    Relation.ReflTransGen (ChildEdge arr) h x ↔ lo ≤ x ∧ x ≤ h := by
  refine ⟨fun hr => ?_, fun hx => Built.reaches q hb x hx.1 hx.2⟩
  induction hr with
  | refl => exact ⟨Built.le q hb, Nat.le_refl _⟩
  | tail _ hedge ih =>
    -- A child of a node of the subtree lies in the entries of that node's own subtree.
    obtain ⟨lo', _, q', hle, hb', -, -⟩ :=
      Built.every (P := fun _ => True) (fun _ _ _ _ => trivial) q hb trivial _ ih.1 ih.2
    obtain ⟨hs, he, hall⟩ := hb'.entry
    have := (BuiltAll.le _ hall).2 _ ((childEdge_of_getElem? he _).mp hedge)
    omega

end Subtree

namespace ParseTree

/-- The entry of a node built from a part of a parse holds the part's grammar node, name and
span, and its children are the roots of the part's parts. -/
theorem entry_of_built {t : ParseTree} {lo : Nat} {up : Option Nat} {x : Nat} {q : Parsed}
    (hb : Built t.entries lo up x q) :
    (t.entry x).node = q.node ∧ (t.entry x).name = q.name ∧ (t.entry x).start = q.start ∧
      (t.entry x).stop = q.stop ∧ BuiltAll t.entries lo (some x) (t.children x) q.children x := by
  obtain ⟨hs, he, hall⟩ := hb.entry
  have hch : t.children x = hs := by simp [children, entry, he]
  rw [hch]
  simp only [entry, he, Option.getD_some, true_and]
  exact hall

theorem ofParsed_built (s : String) (q : Parsed) :
    Built (ofParsed s q).entries 0 none (ofParsed s q).root q ∧
      (ofParsed s q).size = (ofParsed s q).root + 1 := by
  obtain ⟨arr, h, hpush, hb, hsize, -⟩ := pushParsed_built q #[]
  simp only [ofParsed, hpush, size]
  exact ⟨hb, hsize⟩

variable {s : String} {q : Parsed}

/-- Every node of the tree of a parse is built from a part of it, and the part has whatever
property the parse has and passes on to its parts. -/
theorem ofParsed_every {P : Parsed → Prop} (hP : ∀ q, P q → ∀ c ∈ q.children, P c) (hq : P q)
    {x : Nat} (hx : x < (ofParsed s q).size) :
    ∃ lo up q', Built (ofParsed s q).entries lo up x q' ∧ P q' := by
  obtain ⟨hb, hsize⟩ := ofParsed_built s q
  obtain ⟨lo, up, q', -, hb', hq', -⟩ := Built.every hP q hb hq x (Nat.zero_le _) (by omega)
  exact ⟨lo, up, q', hb', hq'⟩

/-- The children of a node of the tree of a parse are the roots of built parts. -/
theorem ofParsed_children_built {y : Nat} (hy : y < (ofParsed s q).size) :
    ∃ lo cs, BuiltAll (ofParsed s q).entries lo (some y) ((ofParsed s q).children y) cs y := by
  obtain ⟨lo, _, q', hb, -⟩ :=
    ofParsed_every (P := fun _ => True) (fun _ _ _ _ => trivial) trivial hy
  exact ⟨lo, q'.children, (entry_of_built hb).2.2.2.2⟩

/-- Every node of the tree of a parse is reached from the root by child edges. -/
theorem ofParsed_reaches {x : Nat} (hx : x < (ofParsed s q).size) :
    Relation.ReflTransGen (ChildEdge (ofParsed s q).entries) (ofParsed s q).root x := by
  obtain ⟨hb, hsize⟩ := ofParsed_built s q
  exact (hb.reaches_iff x).mpr ⟨Nat.zero_le _, by omega⟩

/-- The root of the tree of a parse has no parent. -/
theorem ofParsed_parent_root : (ofParsed s q).parent (ofParsed s q).root = none :=
  (ofParsed_built s q).1.parent_eq

/-- In the tree of a parse, the parent links are the child lists read backwards. -/
theorem ofParsed_parent_eq_some_iff (x c : Nat) :
    (ofParsed s q).parent c = some x ↔ c ∈ (ofParsed s q).children x := by
  obtain ⟨hb, hsize⟩ := ofParsed_built s q
  have every := Built.every (P := fun _ => True) (fun _ _ _ _ => trivial) q hb trivial
  constructor
  · intro hp
    by_cases hc : c < (ofParsed s q).size
    · obtain ⟨_, up', _, -, hc', -, hwhere⟩ := every c (Nat.zero_le _) (by omega)
      rw [parent, entry, hc'.parent_eq] at hp
      rcases hwhere with ⟨-, rfl⟩ | ⟨y, rfl, hedge⟩
      · cases hp
      · cases hp
        exact hedge
    · simp [parent, entry, Array.getElem?_eq_none (Nat.le_of_not_lt hc)] at hp
  · intro hmem
    have hx : x < (ofParsed s q).size := by
      by_contra hx
      simp [children, entry, Array.getElem?_eq_none (Nat.le_of_not_lt hx)] at hmem
    obtain ⟨_, _, _, -, hx', -, -⟩ := every x (Nat.zero_le _) (by omega)
    exact hx'.parent_of_childEdge hmem

end ParseTree

end Tokenweave
