import SqlCatalog.Noise.Literal

/-!
# Bracket groups

A *bracket group* opens with a bracket and ends with the one that closes it.
Brackets inside quotes do not count, and a group nested more deeply than a
given depth is none (`SqlCatalog.Noise.group`).

The scanner `SqlCatalog.Noise.closeGroup` counts the brackets that are open and
keeps track of whether a quote is. A doubled quote needs no rule of its own: it
ends a quotation and begins another, with nothing between the two.
-/

namespace SqlCatalog

namespace Noise

open Text

/-- The number of brackets that may be open at once in a group that a rule of
this library removes. -/
def maxNesting : Nat := 4

/-- **The rest of a group** in which `level` brackets are open, up to the
bracket that closes the outermost; `none` if none does, or if more than `depth`
are open at once. -/
def closeGroup (depth : Nat) : (level : Nat) → (quoted : Bool) → List Glyph → Option Span
  | _, _, [] => none
  | _, _, .stray _ :: _ => none
  | level, true, .char c :: gs =>
    (closeGroup depth level (c != quote) gs).map (Span.cons (.char c))
  | level, false, .char c :: gs =>
    if c = quote then (closeGroup depth level true gs).map (Span.cons (.char c))
    else if c = '(' then
      if level < depth then (closeGroup depth (level + 1) false gs).map (Span.cons (.char c))
      else none
    else if c = ')' then
      -- the bracket of the outermost group ends the reading
      if level ≤ 1 then some ⟨[.char c], gs⟩
      else (closeGroup depth (level - 1) false gs).map (Span.cons (.char c))
    else (closeGroup depth level false gs).map (Span.cons (.char c))

theorem cuts_of_closeGroup {depth level : Nat} {quoted : Bool} {gs : List Glyph} {s : Span}
    (h : closeGroup depth level quoted gs = some s) : s.Cuts gs := by
  induction gs generalizing level quoted s with
  | nil => simp [closeGroup] at h
  | cons g gs ih =>
    have step : ∀ (c : Char) (level : Nat) (quoted : Bool),
        (closeGroup depth level quoted gs).map (Span.cons (.char c)) = some s →
        s.Cuts (.char c :: gs) := by
      intro c level quoted h
      obtain ⟨t, ht, rfl⟩ := Option.map_eq_some_iff.1 h
      exact (ih ht).cons _
    cases g with
    | stray bytes => simp [closeGroup] at h
    | char c =>
      cases quoted with
      | true => exact step _ _ _ h
      | false =>
        rw [closeGroup] at h
        split at h
        · exact step _ _ _ h
        · split at h
          · split at h
            · exact step _ _ _ h
            · cases h
          · split at h
            · split at h
              · cases h
                rfl
              · exact step _ _ _ h
            · exact step _ _ _ h

/-- **A bracket group** at most `depth` levels deep. -/
def group (depth : Nat) : List Glyph → Option Span :=
  opened ['('] (closeGroup depth 1 false)

theorem cuts_of_group {depth : Nat} {gs : List Glyph} {s : Span}
    (h : group depth gs = some s) : s.Cuts gs ∧ s.text ≠ [] := by
  obtain ⟨hcuts, hlen⟩ := cuts_of_opened (fun _ _ => cuts_of_closeGroup) h
  exact ⟨hcuts, List.length_pos_iff.1 (Nat.lt_of_lt_of_le Nat.zero_lt_one hlen)⟩

/-- The functions whose calls are removed: what they return is no property of
the schema. -/
def volatileCalls : List (List Char) :=
  ["timezone".toList, "now".toList]

/-- **A volatile call**: the name of such a function at a word boundary and the
group right behind it. -/
def call? (atBoundary : Bool) (gs : List Glyph) : Option Span :=
  if atBoundary then
    volatileCalls.findSome? fun name => opened name (group maxNesting) gs
  else none

theorem cuts_of_call? {atBoundary : Bool} {gs : List Glyph} {s : Span}
    (h : call? atBoundary gs = some s) : s.Cuts gs ∧ s.text ≠ [] := by
  unfold call? at h
  split at h
  · obtain ⟨name, hmem, ho⟩ := List.exists_of_findSome?_eq_some h
    obtain ⟨hcuts, hlen⟩ := cuts_of_opened (fun _ _ ht => (cuts_of_group ht).1) ho
    refine ⟨hcuts, List.length_pos_iff.1 (Nat.lt_of_lt_of_le ?_ hlen)⟩
    simp only [volatileCalls, List.mem_cons, List.not_mem_nil, or_false] at hmem
    rcases hmem with rfl | rfl <;> decide
  · cases h

end Noise

end SqlCatalog
