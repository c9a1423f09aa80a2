import SqlCatalog.Noise.Span

/-!
# String literals

A literal opens with a quote and runs to the quote that closes it, and a quote
inside it is written twice. An *escape literal* has the letter `e` in front of
its first quote, and in it a backslash makes the next character an ordinary
one.

The scanner `SqlCatalog.Noise.closeLiteral` reads one glyph at a time in one of
three moods (`SqlCatalog.Noise.Mood`). A quote read inside a literal *may*
close it. Whether it does is settled by what follows: a second quote makes the
two a pair, provided that some later quote closes the literal after all;
otherwise the first of the two has closed it. A literal that no quote closes is
no literal.
-/

namespace SqlCatalog

namespace Noise

open Text

/-- The quote that delimits a literal. -/
def quote : Char := '\x27'

/-- The mark that makes the next character of an escape literal ordinary. -/
def backslash : Char := '\\'

/-- **The mood of the literal scanner**: what the glyphs read so far mean for
the next one. -/
inductive Mood where
  /-- Inside the literal. -/
  | inside
  /-- Inside an escape literal, behind a backslash. -/
  | escaped
  /-- Behind a quote that closes the literal unless it is doubled. -/
  | closed
deriving DecidableEq, Repr

/-- The mood behind a character read inside a literal. -/
def Mood.after (escapes : Bool) (c : Char) : Mood :=
  if c = quote then .closed
  else if escapes && c = backslash then .escaped
  else .inside

/-- **The rest of a literal**, up to the quote that closes it; `none` if no
quote does before the input ends or becomes unreadable. -/
def closeLiteral (escapes : Bool) : Mood → List Glyph → Option Span
  | .closed, [] => some (Span.nothing [])
  | .closed, .stray bytes :: gs => some (Span.nothing (.stray bytes :: gs))
  | .closed, .char c :: gs =>
    if c = quote then
      -- a doubled quote, unless nothing closes the literal any more
      some (((closeLiteral escapes .inside gs).map (Span.cons (.char c))).getD
        (Span.nothing (.char c :: gs)))
    else some (Span.nothing (.char c :: gs))
  | .inside, .char c :: gs =>
    (closeLiteral escapes (Mood.after escapes c) gs).map (Span.cons (.char c))
  | .escaped, .char c :: gs => (closeLiteral escapes .inside gs).map (Span.cons (.char c))
  | .inside, [] => none
  | .inside, .stray _ :: _ => none
  | .escaped, [] => none
  | .escaped, .stray _ :: _ => none

theorem cuts_of_closeLiteral {escapes : Bool} {mood : Mood} {gs : List Glyph} {s : Span}
    (h : closeLiteral escapes mood gs = some s) : s.Cuts gs := by
  induction gs generalizing mood s with
  | nil =>
    cases mood <;> simp [closeLiteral] at h
    subst h
    rfl
  | cons g gs ih =>
    cases g with
    | stray bytes =>
      cases mood <;> simp [closeLiteral] at h
      subst h
      rfl
    | char c =>
      cases mood with
      | inside =>
        obtain ⟨t, ht, rfl⟩ := Option.map_eq_some_iff.1 h
        exact (ih ht).cons _
      | escaped =>
        obtain ⟨t, ht, rfl⟩ := Option.map_eq_some_iff.1 h
        exact (ih ht).cons _
      | closed =>
        rw [closeLiteral] at h
        split at h
        · cases hc : closeLiteral escapes .inside gs with
          | none =>
            simp only [hc, Option.map_none, Option.getD_none, Option.some.injEq] at h
            subst h
            rfl
          | some t =>
            simp only [hc, Option.map_some, Option.getD_some, Option.some.injEq] at h
            subst h
            exact (ih hc).cons _
        · cases h
          rfl

/-- **A literal.** An escape literal is one only at a word boundary, since the
letter in front of its quote would otherwise end a word. -/
def literal? (atBoundary : Bool) (gs : List Glyph) : Option Span :=
  match opened [quote] (closeLiteral false .inside) gs with
  | some s => some s
  | none => if atBoundary then opened ['e', quote] (closeLiteral true .inside) gs else none

theorem cuts_of_literal? {atBoundary : Bool} {gs : List Glyph} {s : Span}
    (h : literal? atBoundary gs = some s) : s.Cuts gs ∧ s.text ≠ [] := by
  have key : ∀ word escapes, word ≠ [] → opened word (closeLiteral escapes .inside) gs = some s →
      s.Cuts gs ∧ s.text ≠ [] := by
    intro word escapes hword ho
    obtain ⟨hcuts, hlen⟩ := cuts_of_opened (fun _ _ => cuts_of_closeLiteral) ho
    refine ⟨hcuts, ?_⟩
    have := List.length_pos_iff.2 hword
    exact List.length_pos_iff.1 (by omega)
  unfold literal? at h
  split at h
  · next t ht =>
    cases h
    exact key _ _ (by simp) ht
  · split at h
    · exact key _ _ (by simp) h
    · cases h

end Noise

end SqlCatalog
