import Tokenweave.Proofs.Stripped
import Tokenweave.Proofs.Walks
import Tokenweave.Proofs.Positions
import Tokenweave.Dialect.Compile
/-!
# The stripped parse of grammar text

`Dialect.parse` strips the parse of grammar text by `stripFilters`, and lowering then reads the
tree by the names of its nodes. This module says what the tree offers it, by name (`Shaped`):

* the names a node may hold (`heldNames`): a statement holds elements, wrappers and bars, a
  token operators and one atom, and so on; leaves hold nothing;
* the names of which it holds one at least (`requiredNames`): a token holds an atom, a sentence
  its word and its statement, a group its statement, a range both bounds, an escape the character
  escaped;
* the nodes that hold a single node (`singleNames`): a range bound and a wrapper;
* and the characters of the text, which are never empty (`charNames`).

Each is a check on the notation's graph `bnf` made by evaluation (`bnf_held`, `bnf_required`,
`bnf_single`, `bnf_chars`), which `Stripped.lean` carries to the tree of every parse. Main
statement: `parse_notation`.
-/

set_option autoImplicit false

namespace Tokenweave

open Relation String

theorem Text.slice_ne_empty {s : String} {a b : Nat} (ha : Text.isBoundary s a = true)
    (hb : Text.isBoundary s b = true) (hab : a < b) : Text.slice s a b ≠ "" := by
  obtain ⟨la, ra, hsa, rfl⟩ := Text.isBoundary_iff.mp ha
  obtain ⟨lb, rb, hsb, rfl⟩ := Text.isBoundary_iff.mp hb
  obtain ⟨m, rfl⟩ := Text.prefix_of_utf8Len_le (hsa.symm.trans hsb) hab.le
  have hsl := Text.slice_of_toList (show s.toList = la ++ m ++ rb by simpa using hsb)
  simp only [utf8Len_append] at hsl hab ⊢
  rw [hsl]
  intro hm
  have hnil : m = [] := by simpa using congrArg String.toList hm
  subst hnil
  simp at hab

/-- What `tokenize` accepts is the tree of a parse of the whole input by the lexer's graph. -/
theorem Lexer.tokenize_eq_ok {lx : Lexer} {input : String} {t : ParseTree}
    (h : lx.tokenize input = .ok t) :
    ∃ o q, (matchAt lx.grammar lx.root input 0 lx.limits false).result = .ok o ∧
      o.parsed = some q ∧ t = ParseTree.ofParsed input q := by
  simp only [Lexer.tokenize, Lexer.run, matchTree_eq] at h
  generalize hr : (matchAt lx.grammar lx.root input 0 lx.limits false).result = r at h
  rcases r with f | ⟨_ | p, furthest⟩
  · cases h
  · cases h
  · simp only [Except.map, Option.map_some, Lexer.judge] at h
    split at h
    · cases h
    · cases h
      exact ⟨_, p, rfl, rfl, rfl⟩

/-- The tree of a parse sets no value: each node reads the text it spans. -/
theorem ParseTree.value_ofParsed {s : String} {q : Parsed} {x : Handle}
    (hx : x < (ParseTree.ofParsed s q).size) :
    (ParseTree.ofParsed s q).value x =
      Text.slice s ((ParseTree.ofParsed s q).entry x).start ((ParseTree.ofParsed s q).entry x).stop := by
  obtain ⟨_, _, _, hb, -⟩ :=
    ParseTree.ofParsed_every (P := fun _ => True) (fun _ _ _ _ => trivial) trivial hx
  obtain ⟨_, he, -⟩ := hb.entry
  have hv : ((ParseTree.ofParsed s q).entry x).value = none := by simp [ParseTree.entry, he]
  rw [ParseTree.value, hv]
  rfl

namespace Dialect

open ParseTree

/-! ### The shape, by name -/

/-- The names that a node of the stripped parse of grammar text may hold, by its own name. -/
def heldNames : Option String → List String
  | some "grammar" => ["sentence"]
  | some "sentence" => ["word", "statement"]
  | some "statement" => ["token", "nested", "statementOpt", "|"]
  | some "statementOpt" => ["pipeOpt", "spaceOpt"]
  | some "pipeOpt" => ["|", "token", "nested"]
  | some "spaceOpt" => ["token", "nested"]
  | some "token" => ["!", "modifier", "string", "charset", "chargroup", "eof", "word"]
  | some "nested" => ["!", "modifier", "statement"]
  | some "string" => ["strOpt"]
  | some "strOpt" => ["strOpt", "escapeSequence", "strChar"]
  | some "charset" => ["^", "setOpt"]
  | some "setOpt" => ["setOpt", "escapeSequence", "setChar"]
  | some "chargroup" => ["^", "rangeStart", "rangeEnd"]
  | some "rangeStart" | some "rangeEnd" => ["escapeSequence", "rangeChar"]
  | some "escapeSequence" => ["escape", "anyChar"]
  | _ => []

/-- For a node of the stripped parse of grammar text, by its name, lists of names of which it
holds one at least. -/
def requiredNames : Option String → List (List String)
  | some "sentence" => [["word"], ["statement"]]
  | some "token" => [Lowering.atomNames]
  | some "nested" => [["statement"]]
  | some "chargroup" => [["rangeStart"], ["rangeEnd"]]
  | some "escapeSequence" => [["anyChar"]]
  | _ => []

/-- Names of the nodes that hold a single node. -/
def singleNames : List String := ["rangeStart", "rangeEnd", "statementOpt"]

/-- Names of the nodes that stand for one character of the text. -/
def charNames : List String := ["anyChar", "rangeChar"]

/-- The shape of a node of the stripped parse of grammar text, read off its name. -/
structure Shaped (t : ParseTree) (x : Handle) : Prop where
  held : ∀ c ∈ t.children x, ∃ n, t.name c = some n ∧ n ∈ heldNames (t.name x)
  required : ∀ need ∈ requiredNames (t.name x),
    ∃ c ∈ t.children x, ∃ n ∈ need, t.name c = some n
  single : ∀ n ∈ singleNames, t.name x = some n → ∃ c, t.children x = [c]

/-- A tree that lowering can take: well formed, with children before parents, a grammar at the
root, shaped at every node the root reaches, and with no empty character. -/
structure Notation (t : ParseTree) : Prop where
  wellFormed : t.WellFormed
  ordered : t.Ordered
  root : t.name t.root = some "grammar"
  shaped : ∀ x, ReflTransGen (ChildEdge t.entries) t.root x → Shaped t x
  chars : ∀ x, (t.name x).any charNames.contains → t.value x ≠ ""

/-- Only the root holds sentences, and nothing holds the root. -/
theorem heldNames_sentence {n : Option String} (h : "sentence" ∈ heldNames n) :
    n = some "grammar" := by
  unfold heldNames at h
  split at h <;> simp_all

theorem grammar_not_mem_heldNames (n : Option String) : "grammar" ∉ heldNames n := by
  unfold heldNames
  split <;> simp

/-! ### The notation's graph passes the checks -/

section Checks

set_option maxRecDepth 20000

theorem bnf_choicesUnnamed : bnf.1.choicesUnnamed = true := by decide +kernel

/-- The root of the notation is a node of its own, named `grammar`, that is kept. -/
theorem bnf_root :
    bnf.1.allPassed (· == bnf.2) bnf.1.size bnf.2 = true ∧
      Strategy.mayKeep stripFilters (bnf.1.nameOf bnf.2) = true ∧
      bnf.1.nameOf bnf.2 = some "grammar" := by
  decide +kernel

theorem bnf_held : ∀ k < bnf.1.size, Strategy.mayKeep stripFilters (bnf.1.nameOf k) = true →
    bnf.1.allLeft stripFilters (fun c => (bnf.1.nameOf c).any (heldNames (bnf.1.nameOf k)).contains)
      bnf.1.size k = true := by
  decide +kernel

theorem bnf_required : ∀ k < bnf.1.size, ∀ need ∈ requiredNames (bnf.1.nameOf k),
    bnf.1.keepsPart stripFilters (fun c => (bnf.1.nameOf c).any need.contains) bnf.1.size k =
      true := by
  decide +kernel

theorem bnf_single : ∀ k < bnf.1.size, ∀ n ∈ singleNames, bnf.1.nameOf k = some n →
    bnf.1.keepsAll stripFilters bnf.1.size 1 k = true := by
  decide +kernel

theorem bnf_chars : ∀ k < bnf.1.size, (bnf.1.nameOf k).any charNames.contains →
    bnf.1.consumes bnf.1.size k = true := by
  decide +kernel

end Checks

/-! ### The stripped parse -/

/-- Every node the stripped parse of grammar text reaches from its root is shaped. -/
theorem shaped_of_parseOf {t : ParseTree} (ht : ParseOf bnf.1 t)
    (hroot : (t.entry t.root).node = bnf.2) {x : Handle}
    (hx : ReflTransGen (ChildEdge (t.cull t.root stripFilters).entries) t.root x) :
    Shaped (t.cull t.root stripFilters) x := by
  have hc := cull_prunes ht.wellFormed t.root stripFilters
  have hr := hc.relinked
  obtain ⟨hreach, hkept, hL⟩ := culled_of_reaches ht.wellFormed hx
  have hxs : x < t.size := by
    rcases reflTransGen_iff_eq_or_transGen.mp hreach with hxr | hbelow
    · exact hxr ▸ ht.root_lt
    · obtain ⟨d, hd, hdx⟩ := TransGen.head'_iff.mp hbelow
      exact ht.wellFormed.lt_size_of_below hd hdx
  -- Names are read from the grammar node each tree node carries, before culling and after.
  have hname : ∀ y < t.size, (t.cull t.root stripFilters).name y = bnf.1.nameOf (t.entry y).node :=
    fun y hy => (hr.name_eq y).trans (ht.name_eq y hy)
  have hleft : ∀ c ∈ (t.cull t.root stripFilters).children x, c < t.size := by
    intro c hc'
    obtain ⟨-, d, hd, hdc⟩ := hL.kept_below hc'
    exact ht.wellFormed.lt_size_of_below hd hdc
  have hkeep : Strategy.mayKeep stripFilters (bnf.1.nameOf (t.entry x).node) = true := by
    rcases hkept with hxr | hk
    · rw [hxr, hroot]
      exact bnf_root.2.1
    · rw [strategyFor_eq_judged, ht.name_eq x hxs] at hk
      exact Strategy.mayKeep_of_judged hk
  have hk := ht.node_lt x hxs
  refine ⟨fun c hc' => ?_, fun need hneed => ?_, fun n hn hxn => ?_⟩
  · have hP := ht.allLeft_sound _ hxs (bnf_held _ hk hkeep) hL c hc'
    rw [hname c (hleft c hc'), hname x hxs]
    cases hcn : bnf.1.nameOf (t.entry c).node with
    | none => simp [hcn] at hP
    | some n => exact ⟨n, rfl, by simpa [hcn] using hP⟩
  · rw [hname x hxs] at hneed
    obtain ⟨c, hc', hQ⟩ := ht.keepsPart_sound hxs (bnf_required _ hk need hneed) hL
    refine ⟨c, hc', ?_⟩
    rw [hname c (hleft c hc')]
    cases hcn : bnf.1.nameOf (t.entry c).node with
    | none => simp [hcn] at hQ
    | some n => exact ⟨n, by simpa [hcn] using hQ, rfl⟩
  · rw [hname x hxs] at hxn
    obtain ⟨hsame, hlen⟩ := ht.keepsAll_sound hxs (bnf_single _ hk n hn hxn) hL
    exact List.length_eq_one_iff.mp hlen

/-- The parse of grammar text, once stripped, is a tree that lowering can take: well formed,
with children before parents, every node its root reaches shaped as its name says, and every
character of the text a character. -/
theorem parse_notation {source : String} {limits : Limits} {t : ParseTree}
    (h : parse source limits = .ok t) : Notation t := by
  unfold parse at h
  split at h
  · cases h
  · rename_i t₀ htok
    cases h
    obtain ⟨o, q, hmatch, hq, rfl⟩ := Lexer.tokenize_eq_ok htok
    simp only [lexer] at hmatch
    have hprod := produces_of_matchAt hmatch hq
    have ht := parseOf_ofParsed bnf_choicesUnnamed hprod
    have hc := cull_prunes ht.wellFormed (ParseTree.ofParsed source q).root stripFilters
    -- The root was built by the notation's root itself.
    have hroot : ((ParseTree.ofParsed source q).entry (ParseTree.ofParsed source q).root).node =
        bnf.2 := by
      rw [(ParseTree.entry_of_built (ParseTree.ofParsed_built source q).1).1]
      have hpass := hprod.passes
      have hself := Grammar.allPassed_sound hpass bnf_root.1
      exact beq_iff_eq.mp hself
    have hgrammar : (ParseTree.ofParsed source q).name (ParseTree.ofParsed source q).root =
        some "grammar" := by
      rw [ht.name_eq _ ht.root_lt, hroot]
      exact bnf_root.2.2
    refine ⟨ht.wellFormed.cull _ _,
      (shrinks_cull ht.wellFormed _ _).ordered (ordered_ofParsed source q),
      by rw [hc.root, hc.relinked.name_eq]; exact hgrammar, fun x hx => shaped_of_parseOf ht hroot (by rwa [hc.root] at hx), fun x hx => ?_⟩
    -- A character spans one character of the text, which culling leaves as it is.
    have hxs : x < (ParseTree.ofParsed source q).size := by
      by_contra hge
      rw [hc.relinked.name_eq, ParseTree.name,
        entry_of_size_le (Nat.le_of_not_lt hge)] at hx
      cases hx
    rw [hc.relinked.name_eq, ht.name_eq x hxs] at hx
    have hspan := ht.spans x hxs _ (bnf_chars _ (ht.node_lt x hxs) hx)
    obtain ⟨-, hvalid⟩ := matchAt_tree_spans hmatch hq x hxs
    simp only [validSpan, Bool.and_eq_true, decide_eq_true_eq] at hvalid
    rw [hc.relinked.value_eq (source_cull _ _ _), value_ofParsed hxs]
    exact Text.slice_ne_empty hvalid.1.2 hvalid.2 hspan

end Dialect

end Tokenweave
