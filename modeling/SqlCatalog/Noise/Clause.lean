import SqlCatalog.Identifier
import SqlCatalog.Noise.Group
import SqlCatalog.Text.Blank
import SqlCatalog.Text.Word

/-!
# Constraint clauses

A constraint clause is the keyword `constraint`, white space, the name of the
constraint, and whatever belongs to the constraint behind the name: its *tail*.
The tail is read greedily, as a run of literals, bracket groups and single
characters, and ends in front of the first glyph that is none of these: a
comma, a semicolon, a bracket without a partner, a quote that nothing closes or
a stray piece.

A clause whose name ends in `_pkey` declares a primary key
(`SqlCatalog.Noise.isKeyName`). It says something about the columns of its
table; no other clause does.
-/

namespace SqlCatalog

namespace Noise

open Text

open Identifier (doubleQuote dropQuotes endsAsKey)

/-! ### The name -/

/-- The characters of a constraint name between its double quotes. -/
def isNameChar (c : Char) : Bool :=
  isWord c || c == '.' || c == '$'

/-- **The name of a constraint**: name characters, at least one, with a double
quote allowed at either end. -/
def constraintName (gs : List Glyph) : Option Span :=
  let before := optionalChar doubleQuote gs
  let name := takeChars isNameChar before.rest
  let after := optionalChar doubleQuote name.rest
  if name.text = [] then none else some ((after.before name.text).before before.text)

theorem cuts_of_constraintName {gs : List Glyph} {s : Span} (h : constraintName gs = some s) :
    s.Cuts gs := by
  unfold constraintName at h
  dsimp only at h
  split at h
  · cases h
  · cases h
    exact (cuts_optionalChar _ _).before ((cuts_takeChars _ _).before (cuts_optionalChar _ _))

/-- **A primary-key name**: something and then `_pkey`, once double quotes and
letter case are forgotten. -/
def isKeyName (name : List Glyph) : Bool :=
  endsAsKey (lower (dropQuotes (name.map Glyph.toChar)))

/-! ### The tail -/

/-- The characters that no tail holds outside literals and groups. -/
def endsTail (c : Char) : Bool :=
  c == '(' || c == ')' || c == ',' || c == ';' || c == quote

/-- **A part of a tail** that is read as a whole: a literal or a group. -/
def tailPart? (atBoundary : Bool) (gs : List Glyph) : Option Span :=
  match literal? atBoundary gs with
  | some s => some s
  | none => group maxNesting gs

theorem cuts_of_tailPart? {atBoundary : Bool} {gs : List Glyph} {s : Span}
    (h : tailPart? atBoundary gs = some s) : s.Cuts gs ∧ s.text ≠ [] := by
  unfold tailPart? at h
  split at h
  · next t ht =>
    cases h
    exact cuts_of_literal? ht
  · exact cuts_of_group h

theorem length_rest_of_tailPart? {atBoundary : Bool} {gs : List Glyph} {s : Span}
    (h : tailPart? atBoundary gs = some s) : s.rest.length < gs.length := by
  obtain ⟨hcuts, hne⟩ := cuts_of_tailPart? h
  have := hcuts.length_eq
  have := List.length_pos_iff.2 hne
  omega

/-- **The tail of a clause.** A literal or a group ends in a mark, so what
follows one is at a word boundary. -/
def clauseTail (atBoundary : Bool) (gs : List Glyph) : Span :=
  match _h : tailPart? atBoundary gs with
  | some s => (clauseTail true s.rest).before s.text
  | none =>
    match gs with
    | [] => Span.nothing []
    | .stray bytes :: gs => Span.nothing (.stray bytes :: gs)
    | .char c :: gs =>
      if endsTail c then Span.nothing (.char c :: gs)
      else (clauseTail (!isWord c) gs).cons (.char c)
termination_by gs.length
decreasing_by
  · exact length_rest_of_tailPart? _h
  · simp

theorem cuts_clauseTail (atBoundary : Bool) (gs : List Glyph) :
    (clauseTail atBoundary gs).Cuts gs := by
  fun_induction clauseTail atBoundary gs with
  | case1 atBoundary gs s h ih => exact (cuts_of_tailPart? h).1.before ih
  | case2 => rfl
  | case3 => rfl
  | case4 => rfl
  | case5 atBoundary c gs h hc ih => exact ih.cons _

/-! ### The clause -/

/-- **A constraint clause**: the name of the constraint, and the clause as
read. -/
structure Clause where
  /-- The name as written, double quotes included. -/
  name : List Glyph
  /-- The whole clause. -/
  span : Span
deriving DecidableEq, Repr

/-- The keyword that begins a clause. -/
def clauseKeyword : List Char := "constraint".toList

/-- **A clause at a word boundary**, in any letter case. Its tail begins at a
word boundary too: a name is read as far as it goes, so no word goes on behind
it. -/
def clause? (atBoundary : Bool) (gs : List Glyph) : Option Clause :=
  if atBoundary then
    (keyword clauseKeyword gs).bind fun word =>
      let gap := takeChars isBlank word.rest
      if gap.text = [] then none
      else (constraintName gap.rest).map fun name =>
        let tail := clauseTail true name.rest
        ⟨name.text, ((tail.before name.text).before gap.text).before word.text⟩
  else none

theorem cuts_of_clause? {atBoundary : Bool} {gs : List Glyph} {c : Clause}
    (h : clause? atBoundary gs = some c) : c.span.Cuts gs ∧ c.span.text ≠ [] := by
  unfold clause? at h
  split at h
  · obtain ⟨word, hword, h⟩ := Option.bind_eq_some_iff.1 h
    dsimp only at h
    split at h
    · cases h
    · obtain ⟨name, hname, rfl⟩ := Option.map_eq_some_iff.1 h
      have hlen := length_text_of_keyword hword
      refine ⟨(cuts_of_keyword hword).before ((cuts_takeChars _ _).before
        ((cuts_of_constraintName hname).before (cuts_clauseTail _ _))), ?_⟩
      refine List.length_pos_iff.1 ?_
      simp only [Span.text_before, List.length_append, hlen]
      exact Nat.lt_of_lt_of_le (by decide : 0 < clauseKeyword.length) (Nat.le_add_right _ _)
  · cases h

end Noise

end SqlCatalog
