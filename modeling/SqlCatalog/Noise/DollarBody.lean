import SqlCatalog.Noise.Span

/-!
# Dollar-quoted bodies

The body of a function stands between two equal *delimiters*: a tag between
two dollar signs. A dump tool picks the empty tag, and pads it with underscores
while the delimiter occurs in the body; people who write schemas by hand pick a
word. The tags known here are `SqlCatalog.Noise.dollarTags`.

A body ends at the first place where its delimiter stands again, in any letter
case, so no other delimiter inside it matters. Two delimiters never compete for
one place, because a tag holds no dollar sign.
-/

namespace SqlCatalog

namespace Noise

open Text

/-- The tags of the bodies that are removed. -/
def dollarTags : List (List Char) :=
  ["".toList, "_".toList, "__".toList, "___".toList, "____".toList, "_____".toList,
   "body".toList, "function".toList, "func".toList, "procedure".toList, "proc".toList]

/-- **The delimiter** of a tag. -/
def delimiter (tag : List Char) : List Char :=
  '$' :: (tag ++ ['$'])

/-- **The rest of a body**, through the first place where its delimiter
stands. -/
def closeBody (delim : List Char) : List Glyph → Option Span
  | [] => none
  | g :: gs =>
    match keyword delim (g :: gs) with
    | some s => some s
    | none =>
      match g with
      -- a body holds characters only
      | .stray _ => none
      | .char c => (closeBody delim gs).map (Span.cons (.char c))

theorem cuts_of_closeBody {delim : List Char} {gs : List Glyph} {s : Span}
    (h : closeBody delim gs = some s) : s.Cuts gs := by
  induction gs generalizing s with
  | nil => simp [closeBody] at h
  | cons g gs ih =>
    unfold closeBody at h
    split at h
    · next t ht =>
      cases h
      exact cuts_of_keyword ht
    · split at h
      · cases h
      · obtain ⟨t, ht, rfl⟩ := Option.map_eq_some_iff.1 h
        exact (ih ht).cons _

/-- **A dollar-quoted body** with its two delimiters. -/
def dollarBody? (gs : List Glyph) : Option Span :=
  dollarTags.findSome? fun tag => opened (delimiter tag) (closeBody (delimiter tag)) gs

theorem cuts_of_dollarBody? {gs : List Glyph} {s : Span} (h : dollarBody? gs = some s) :
    s.Cuts gs ∧ s.text ≠ [] := by
  obtain ⟨tag, -, ho⟩ := List.exists_of_findSome?_eq_some h
  obtain ⟨hcuts, hlen⟩ := cuts_of_opened (fun _ _ => cuts_of_closeBody) ho
  exact ⟨hcuts, List.length_pos_iff.1 (Nat.lt_of_lt_of_le (Nat.succ_pos _) hlen)⟩

end Noise

end SqlCatalog
