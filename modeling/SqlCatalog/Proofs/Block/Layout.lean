import SqlCatalog.Proofs.Text.Brackets

/-!
# The layout of a list in brackets

A column block and the columns of a key are written alike: entries with a comma
between any two of them, a closing bracket, and the semicolon that ends the
statement (`SqlCatalog.blockText`). When the brackets of every entry pair up, the
tokens are laid out as the text is (`SqlCatalog.ofText_blockText`).
-/

namespace SqlCatalog

open Text Token

/-- **The text of a list** behind its opening bracket: the entries, blanks, the
closing bracket, blanks again and a semicolon. -/
def blockText (entries : List (List Char)) (gap foot : List Char) : List Char :=
  [','].intercalate entries ++ (gap ++ ')' :: (foot ++ [';']))

/-- **The tokens of a list** behind its opening bracket. -/
def blockTokens (entries : List (List String)) : List String :=
  [","].intercalate entries ++ [")", ";"]

section Entries

variable (entry next gap foot : List Char) (entries : List (List Char))

theorem blockText_singleton :
    blockText [entry] gap foot = entry ++ (gap ++ ')' :: (foot ++ [';'])) := by
  simp [blockText]

theorem blockText_cons_cons :
    blockText (entry :: next :: entries) gap foot =
      entry ++ ',' :: blockText (next :: entries) gap foot := by
  simp [blockText]

end Entries

theorem blockTokens_singleton (entry : List String) : blockTokens [entry] = entry ++ [")", ";"] := by
  simp [blockTokens]

theorem blockTokens_cons_cons (entry next : List String) (entries : List (List String)) :
    blockTokens (entry :: next :: entries) = entry ++ "," :: blockTokens (next :: entries) := by
  simp [blockTokens]

theorem blockTokens_append {entries others : List (List String)} (hne : others ≠ []) :
    blockTokens (entries ++ others) = entries.flatMap (· ++ [","]) ++ blockTokens others := by
  induction entries with
  | nil => rfl
  | cons entry entries ih =>
    obtain ⟨next, rest, hnext⟩ := List.exists_cons_of_ne_nil
      (List.append_ne_nil_of_right_ne_nil entries hne)
    rw [List.cons_append, hnext, blockTokens_cons_cons, ← hnext, ih]
    simp

/-- Blanks are paired. -/
theorem isPaired_gaps {text : List Char} (h : ∀ c ∈ text, isGap c) : IsPaired text := by
  refine depth?_of_plain fun c hc hmem => ?_
  have hgap := h c hc
  simp only [List.mem_cons, List.not_mem_nil, or_false] at hmem
  rcases hmem with rfl | rfl | rfl | rfl <;> cases hgap

/-- Closed texts are put together freely. -/
theorem isPaired_append {a b : List Char} (ha : IsPaired a) (hb : IsPaired b) :
    IsPaired (a ++ b) := by
  rw [IsPaired, depth?_append, ha]
  exact hb

/-- Blanks in front of a text change nothing. -/
theorem ofText_gaps_append {gap : List Char} (h : ∀ c ∈ gap, isGap c) (a : List Char) :
    ofText (gap ++ a) = ofText a := by
  induction gap with
  | nil => rfl
  | cons c gap ih =>
    obtain ⟨hc, h⟩ := List.forall_mem_cons.mp h
    rw [← List.nil_append (c :: gap ++ a), List.cons_append, ofText_append_gap hc, ih h]
    rfl

/-- Nor do blanks behind it. -/
theorem ofText_append_gaps {gap : List Char} (h : ∀ c ∈ gap, isGap c) (a : List Char) :
    ofText (a ++ gap) = ofText a := by
  cases gap with
  | nil => rw [List.append_nil]
  | cons c gap =>
    obtain ⟨hc, h⟩ := List.forall_mem_cons.mp h
    rw [ofText_append_gap hc, ofText_gaps h, List.append_nil]

/-- **The tokens of a list** are laid out as its text is. -/
theorem ofText_blockText {entries : List (List Char)} {gap foot : List Char} (hne : entries ≠ [])
    (hpaired : ∀ entry ∈ entries, IsPaired entry) (hgap : ∀ c ∈ gap, isGap c)
    (hfoot : ∀ c ∈ foot, isGap c) :
    ofText (blockText entries gap foot) = blockTokens (entries.map ofText) := by
  induction entries with
  | nil => exact absurd rfl hne
  | cons entry entries ih =>
    obtain ⟨hentry, hpaired⟩ := List.forall_mem_cons.mp hpaired
    cases entries with
    | nil =>
      rw [blockText_singleton, List.map_singleton, blockTokens_singleton, ← List.append_assoc,
        ofText_append_close (isPaired_append hentry (isPaired_gaps hgap)),
        ofText_append_semicolon, ofText_append_gaps hgap, ofText_gaps hfoot]
      rfl
    | cons next entries =>
      rw [blockText_cons_cons, ofText_append_comma, ih (List.cons_ne_nil _ _) hpaired]
      simp only [List.map_cons, blockTokens_cons_cons]

end SqlCatalog
