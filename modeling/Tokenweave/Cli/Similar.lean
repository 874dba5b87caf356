/-!
# Similar words

When a word on the command line is unknown, the nearest known words are offered instead. Words
are compared by Jaro similarity: two characters match when they are equal and at most
`max (|a|, |b|) / 2 - 1` positions apart, each character of the second word matching at most
once and the first free one in order; `t` is half the number of matched pairs that stand in a
different order. For `m` matches the similarity is `(m/|a| + m/|b| + (m - t)/m) / 3`, in double
precision, and 0 without matches; two empty words are equal.

A known word is offered when its similarity exceeds 0.7. Offers are listed from the least to
the most similar, words of equal similarity in their given order, so the last one is the
best.
-/

namespace Tokenweave.Cli

/-- Mark the characters of `b` matched by each character of `a` in turn; the flags of `a`
are collected in reverse. -/
def jaroMatch (b : Array Char) (range : Nat) :
    List Char → Nat → List Bool × Array Bool → List Bool × Array Bool
  | [], _, acc => acc
  | c :: rest, i, (aFlags, bFlags) =>
    let lo := i - range
    let hi := min b.size (i + range + 1)
    let found := (List.range' lo (hi - lo)).find? fun j => b[j]? == some c && bFlags[j]? == some false
    let acc := match found with
      | some j => (true :: aFlags, bFlags.setIfInBounds j true)
      | none => (false :: aFlags, bFlags)
    jaroMatch b range rest (i + 1) acc

/-- The Jaro similarity of two words. -/
def jaro (a b : String) : Float :=
  let xs := a.toList
  let ys := b.toList
  if xs.isEmpty && ys.isEmpty then 1.0
  else if xs.isEmpty || ys.isEmpty then 0.0
  else
    let range := max xs.length ys.length / 2 - 1
    let (aFlags, bFlags) := jaroMatch ys.toArray range xs 0 ([], Array.replicate ys.length false)
    let aMatched := (xs.zip aFlags.reverse).filterMap fun (c, f) => if f then some c else none
    let bMatched := (ys.zip bFlags.toList).filterMap fun (c, f) => if f then some c else none
    let m := aMatched.length
    let t := ((aMatched.zip bMatched).filter fun (c, d) => c != d).length / 2
    if m == 0 then 0.0
    else
      let mf := m.toFloat
      (mf / xs.length.toFloat + mf / ys.length.toFloat + (m - t).toFloat / mf) / 3.0

/-- The known words similar to `word`, from the least to the most similar. -/
def similar (word : String) (known : List String) : List String :=
  let scored := (known.map fun k => (jaro word k, k)).filter (·.1 > 0.7)
  (scored.mergeSort fun x y => !(y.1 < x.1)).map (·.2)

/-- The known word most similar to `word`, if one is similar enough. -/
def mostSimilar? (word : String) (known : List String) : Option String :=
  (similar word known).getLast?

end Tokenweave.Cli
