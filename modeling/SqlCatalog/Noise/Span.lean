import SqlCatalog.Text.Letter
import SqlCatalog.Text.Utf8

/-!
# Spans

The rules for what is noise in a dump all have one shape: a rule reads some of
the input and leaves the rest. What it did is a *span*
(`SqlCatalog.Noise.Span`), the glyphs read and the glyphs that follow, and this
file holds the spans that every rule is put together from: the longest run of a
class of characters (`SqlCatalog.Noise.takeChars`), one optional character
(`SqlCatalog.Noise.optionalChar`), a keyword (`SqlCatalog.Noise.keyword`) and
one reading after another (`SqlCatalog.Noise.opened`).

A stray piece belongs to no class of characters, so no rule here reads past
one.

## Nothing is lost

A span *cuts* an input when its two parts put together are the input
(`SqlCatalog.Noise.Span.Cuts`). Each reading has a lemma saying that it cuts
what it was given.
-/

namespace SqlCatalog

namespace Noise

open Text

/-- **A span**: the glyphs a rule read, and the glyphs that follow them. -/
structure Span where
  /-- What was read. -/
  text : List Glyph
  /-- What follows. -/
  rest : List Glyph
deriving DecidableEq, Repr

namespace Span

/-- The two parts of a span put together are the input. -/
def Cuts (s : Span) (input : List Glyph) : Prop :=
  s.text ++ s.rest = input

/-- The empty span in front of an input. -/
def nothing (input : List Glyph) : Span := ⟨[], input⟩

/-- The span that begins one glyph earlier. -/
def cons (g : Glyph) (s : Span) : Span := ⟨g :: s.text, s.rest⟩

/-- The span that begins with some glyphs more. -/
def before (text : List Glyph) (s : Span) : Span := ⟨text ++ s.text, s.rest⟩

@[simp] theorem text_nothing (input : List Glyph) : (nothing input).text = [] := rfl

@[simp] theorem rest_nothing (input : List Glyph) : (nothing input).rest = input := rfl

@[simp] theorem text_cons (g : Glyph) (s : Span) : (s.cons g).text = g :: s.text := rfl

@[simp] theorem rest_cons (g : Glyph) (s : Span) : (s.cons g).rest = s.rest := rfl

@[simp] theorem text_before (text : List Glyph) (s : Span) :
    (s.before text).text = text ++ s.text := rfl

@[simp] theorem rest_before (text : List Glyph) (s : Span) : (s.before text).rest = s.rest := rfl

theorem cuts_nothing (input : List Glyph) : (nothing input).Cuts input := rfl

theorem Cuts.cons {s : Span} {input : List Glyph} (h : s.Cuts input) (g : Glyph) :
    (s.cons g).Cuts (g :: input) := by
  simpa [Cuts] using h

/-- A span of what another left, put behind that other. -/
theorem Cuts.before {s t : Span} {input : List Glyph} (hs : s.Cuts input) (ht : t.Cuts s.rest) :
    (t.before s.text).Cuts input := by
  unfold Cuts at *
  rw [text_before, rest_before, List.append_assoc, ht, hs]

theorem Cuts.length_eq {s : Span} {input : List Glyph} (h : s.Cuts input) :
    s.text.length + s.rest.length = input.length := by
  rw [← List.length_append, h]

end Span

/-! ### Classes of characters -/

/-- The longest run of characters of a class. -/
def takeChars (p : Char → Bool) : List Glyph → Span
  | [] => Span.nothing []
  | .stray bytes :: gs => Span.nothing (.stray bytes :: gs)
  | .char c :: gs =>
    if p c then (takeChars p gs).cons (.char c) else Span.nothing (.char c :: gs)

theorem cuts_takeChars (p : Char → Bool) (gs : List Glyph) : (takeChars p gs).Cuts gs := by
  induction gs with
  | nil => rfl
  | cons g gs ih =>
    cases g with
    | stray bytes => rfl
    | char c =>
      rw [takeChars]
      split
      · exact ih.cons _
      · rfl

/-- The character `c`, if it comes next. -/
def optionalChar (c : Char) : List Glyph → Span
  | [] => Span.nothing []
  | g :: gs => if g = .char c then ⟨[g], gs⟩ else Span.nothing (g :: gs)

theorem cuts_optionalChar (c : Char) (gs : List Glyph) : (optionalChar c gs).Cuts gs := by
  cases gs with
  | nil => rfl
  | cons g gs =>
    rw [optionalChar]
    split <;> rfl

/-! ### Keywords -/

/-- **A keyword**, in any letter case: the characters that fold to those of
`word`, which is given folded. -/
def keyword : List Char → List Glyph → Option Span
  | [], gs => some (Span.nothing gs)
  | _ :: _, [] => none
  | _ :: _, .stray _ :: _ => none
  | k :: word, .char c :: gs =>
    if fold c = k then (keyword word gs).map (Span.cons (.char c)) else none

theorem cuts_of_keyword {word : List Char} {gs : List Glyph} {s : Span}
    (h : keyword word gs = some s) : s.Cuts gs := by
  induction word generalizing gs s with
  | nil =>
    cases h
    rfl
  | cons k word ih =>
    match gs with
    | [] => simp [keyword] at h
    | .stray _ :: _ => simp [keyword] at h
    | .char c :: gs =>
      rw [keyword] at h
      split at h
      · obtain ⟨t, ht, rfl⟩ := Option.map_eq_some_iff.1 h
        exact (ih ht).cons _
      · cases h

/-- A keyword is read whole. -/
theorem length_text_of_keyword {word : List Char} {gs : List Glyph} {s : Span}
    (h : keyword word gs = some s) : s.text.length = word.length := by
  induction word generalizing gs s with
  | nil =>
    cases h
    rfl
  | cons k word ih =>
    match gs with
    | [] => simp [keyword] at h
    | .stray _ :: _ => simp [keyword] at h
    | .char c :: gs =>
      rw [keyword] at h
      split at h
      · obtain ⟨t, ht, rfl⟩ := Option.map_eq_some_iff.1 h
        simpa using ih ht
      · cases h

/-! ### One reading after another -/

/-- **A keyword and what it opens**: `word`, and then the span that `close`
reads behind it. -/
def opened (word : List Char) (close : List Glyph → Option Span) (gs : List Glyph) :
    Option Span :=
  (keyword word gs).bind fun s => (close s.rest).map (Span.before s.text)

/-- What a keyword opens is read whole when its closing part is, and holds at
least the keyword. -/
theorem cuts_of_opened {word : List Char} {close : List Glyph → Option Span} {gs : List Glyph}
    {s : Span} (hclose : ∀ gs t, close gs = some t → t.Cuts gs)
    (h : opened word close gs = some s) : s.Cuts gs ∧ word.length ≤ s.text.length := by
  obtain ⟨k, hk, h⟩ := Option.bind_eq_some_iff.1 h
  obtain ⟨t, ht, rfl⟩ := Option.map_eq_some_iff.1 h
  refine ⟨(cuts_of_keyword hk).before (hclose _ _ ht), ?_⟩
  have := length_text_of_keyword hk
  simp only [Span.text_before, List.length_append]
  omega

end Noise

end SqlCatalog
