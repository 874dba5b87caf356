import Mathlib
import Tokenweave.Proofs.Peg
/-!
# Character boundaries and slices

A byte offset of a text is a character boundary exactly when it is the byte length of a prefix
of the text's characters (`Text.isBoundary_iff`). Between two boundaries a slice is the list of
characters between them (`Text.slice_of_toList`), so two slices that meet at a boundary join
into one (`Text.slice_append`). What a matcher reads from a boundary ends on a boundary again:
a literal that occurs there (`Text.isBoundary_of_occursAt`) and the character there
(`Text.charAt_of_isBoundary`); the slice it spans is that literal or that character.
-/

set_option autoImplicit false

namespace Tokenweave.Text

open String (utf8Len)

theorem isBoundary_iff {s : String} {p : Nat} :
    isBoundary s p = true ↔ ∃ l r, s.toList = l ++ r ∧ p = utf8Len l := by
  rw [isBoundary, String.Pos.Raw.isValid_eq_true_iff,
    String.Pos.Raw.isValid_iff_exists_take_toList]
  constructor
  · rintro ⟨i, hi⟩
    refine ⟨s.toList.take i, s.toList.drop i, (List.take_append_drop i _).symm, ?_⟩
    simpa [String.utf8ByteSize_ofList] using hi
  · rintro ⟨l, r, hs, rfl⟩
    exact ⟨l.length, by simp [hs, String.utf8ByteSize_ofList]⟩

/-- Of two prefixes of one list of characters, the one with fewer bytes is a prefix of the
other: every character takes at least one byte. -/
theorem prefix_of_utf8Len_le {l₁ l₂ r₁ r₂ : List Char} (h : l₁ ++ r₁ = l₂ ++ r₂)
    (hle : utf8Len l₁ ≤ utf8Len l₂) : l₁ <+: l₂ := by
  rcases List.prefix_or_prefix_of_prefix (List.prefix_append l₁ r₁)
      (h ▸ List.prefix_append l₂ r₂) with hpre | ⟨d, rfl⟩
  · exact hpre
  · have hd : utf8Len d = 0 := by
      simp only [String.utf8Len_append] at hle
      omega
    rw [String.utf8Len_eq_zero.mp hd, List.append_nil]

/-- The text between two boundaries is the list of characters between them. -/
theorem slice_of_toList {s : String} {l m r : List Char} (h : s.toList = l ++ m ++ r) :
    slice s (utf8Len l) (utf8Len l + utf8Len m) = String.ofList m := by
  have hs : s = String.ofList (l ++ m ++ r) := by rw [← h, String.ofList_toList]
  rw [hs]
  exact String.extract_of_valid l m r

@[simp] theorem slice_self (s : String) (p : Nat) : slice s p p = "" := by
  simp [slice, String.Pos.Raw.extract]

/-- Slices that meet at a boundary join into one. -/
theorem slice_append {s : String} {a b c : Nat} (ha : isBoundary s a = true)
    (hb : isBoundary s b = true) (hc : isBoundary s c = true) (hab : a ≤ b) (hbc : b ≤ c) :
    slice s a b ++ slice s b c = slice s a c := by
  obtain ⟨la, ra, hsa, rfl⟩ := isBoundary_iff.mp ha
  obtain ⟨lb, rb, hsb, rfl⟩ := isBoundary_iff.mp hb
  obtain ⟨lc, rc, hsc, rfl⟩ := isBoundary_iff.mp hc
  obtain ⟨m₁, rfl⟩ := prefix_of_utf8Len_le (hsa.symm.trans hsb) hab
  obtain ⟨m₂, rfl⟩ := prefix_of_utf8Len_le (hsb.symm.trans hsc) hbc
  have first := slice_of_toList (show s.toList = la ++ m₁ ++ (m₂ ++ rc) by simpa using hsc)
  have second := slice_of_toList (show s.toList = (la ++ m₁) ++ m₂ ++ rc by simpa using hsc)
  have whole := slice_of_toList (show s.toList = la ++ (m₁ ++ m₂) ++ rc by simpa using hsc)
  simp only [String.utf8Len_append, ← Nat.add_assoc] at first second whole ⊢
  rw [first, second, whole, String.ofList_append]

/-- A literal that occurs at an offset ends on a boundary. -/
theorem isBoundary_of_occursAt {s t : String} {p : Nat} (h : occursAt s p t = true) :
    isBoundary s (p + t.utf8ByteSize) = true := by
  simp only [occursAt, Bool.and_eq_true] at h
  exact h.1.2

/-- The character read at a boundary stands there in the list of characters. -/
theorem charAt_of_isBoundary {s : String} {p : Nat} {c : Char} (hp : isBoundary s p = true)
    (h : charAt? s p = some c) : ∃ l r, s.toList = l ++ c :: r ∧ p = utf8Len l := by
  obtain ⟨l, r, hs, rfl⟩ := isBoundary_iff.mp hp
  unfold charAt? at h
  split at h
  · rename_i hlt
    cases r with
    | nil =>
      have hsize : s.utf8ByteSize = utf8Len l := by
        rw [← String.utf8Len_toList, hs, List.append_nil]
      omega
    | cons d r =>
      have hget : String.Pos.Raw.get s ⟨utf8Len l⟩ = d := by
        have := String.get_of_valid l (d :: r)
        rwa [← hs, String.ofList_toList] at this
      cases h
      rw [hget]
      exact ⟨l, r, hs, rfl⟩
  · cases h

/-- The character read at a boundary ends on a boundary, and is the text it spans. -/
theorem isBoundary_of_charAt {s : String} {p : Nat} {c : Char} (hp : isBoundary s p = true)
    (h : charAt? s p = some c) :
    isBoundary s (p + c.utf8Size) = true ∧ slice s p (p + c.utf8Size) = String.singleton c := by
  obtain ⟨l, r, hs, rfl⟩ := charAt_of_isBoundary hp h
  have hlen : utf8Len l + c.utf8Size = utf8Len (l ++ [c]) := by simp
  refine ⟨isBoundary_iff.mpr ⟨l ++ [c], r, by simpa using hs, hlen⟩, ?_⟩
  have := slice_of_toList (show s.toList = l ++ [c] ++ r by simpa using hs)
  simpa using this

/-- Joining with the empty separator concatenates. -/
theorem intercalate_empty : ∀ l : List String, "".intercalate l = String.join l
  | [] => by simp
  | [a] => by simp
  | a :: b :: l => by
    rw [String.intercalate_cons_cons, intercalate_empty (b :: l), String.append_empty]
    simp only [String.join_cons]

end Tokenweave.Text
