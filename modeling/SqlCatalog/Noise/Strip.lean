import SqlCatalog.Noise.Clause
import SqlCatalog.Noise.DollarBody
import SqlCatalog.Noise.Sight

/-!
# Stripping the noise

A dump says much that is no part of its schema, and some of it would confuse a
reader of tokens: brackets and semicolons inside literals, comments and
function bodies, calls in default expressions, and constraints that are no
primary keys. This file removes these pieces, all in one pass from left to
right.

* At each place at most one of the rules of `SqlCatalog.Noise.noise?` applies,
  and what it reads is one piece of noise. The pass goes on behind it, so noise
  inside noise is never looked at.
* A literal leaves two quotes behind, a clause that declares a primary key
  stays as it is, and everything else is dropped
  (`SqlCatalog.Noise.Kind.remains`).

The input is the pieces put together (`SqlCatalog.Noise.texts_pieces`): nothing
is dropped except as noise, and nothing is moved.
-/

namespace SqlCatalog

namespace Noise

open Text

/-- **The kinds of noise.** -/
inductive Kind where
  /-- A string literal. -/
  | literal
  /-- A comment, to the end of its line. -/
  | comment
  /-- A dollar-quoted body. -/
  | dollarBody
  /-- A volatile call. -/
  | call
  /-- A constraint clause and its name. -/
  | clause (name : List Glyph)
deriving DecidableEq, Repr

/-- **What remains of a piece of noise** that reads `text`. -/
def Kind.remains (kind : Kind) (text : List Glyph) : List Glyph :=
  match kind with
  | .literal => [.char quote, .char quote]
  | .clause name => if isKeyName name then text else []
  | _ => []

/-- **A comment**: two hyphens and the rest of the line. -/
def comment? : List Glyph → Option Span :=
  opened ['-', '-'] fun gs => some (takeChars (· != '\n') gs)

theorem cuts_of_comment? {gs : List Glyph} {s : Span} (h : comment? gs = some s) :
    s.Cuts gs ∧ s.text ≠ [] := by
  obtain ⟨hcuts, hlen⟩ := cuts_of_opened
    (fun gs t ht => Option.some.inj ht ▸ cuts_takeChars (· != '\n') gs) h
  exact ⟨hcuts, List.length_pos_iff.1 (Nat.lt_of_lt_of_le Nat.zero_lt_two hlen)⟩

/-- **The noise at the head of an input**, if there is any. -/
def noise? (atBoundary : Bool) (gs : List Glyph) : Option (Kind × Span) :=
  match literal? atBoundary gs with
  | some s => some (.literal, s)
  | none =>
  match comment? gs with
  | some s => some (.comment, s)
  | none =>
  match dollarBody? gs with
  | some s => some (.dollarBody, s)
  | none =>
  match call? atBoundary gs with
  | some s => some (.call, s)
  | none =>
  match clause? atBoundary gs with
  | some c => some (.clause c.name, c.span)
  | none => none

theorem cuts_of_noise? {atBoundary : Bool} {gs : List Glyph} {kind : Kind} {s : Span}
    (h : noise? atBoundary gs = some (kind, s)) : s.Cuts gs ∧ s.text ≠ [] := by
  unfold noise? at h
  split at h
  · next t ht =>
    cases h
    exact cuts_of_literal? ht
  split at h
  · next t ht =>
    cases h
    exact cuts_of_comment? ht
  split at h
  · next t ht =>
    cases h
    exact cuts_of_dollarBody? ht
  split at h
  · next t ht =>
    cases h
    exact cuts_of_call? ht
  split at h
  · next c hc =>
    cases h
    exact cuts_of_clause? hc
  · cases h

theorem length_rest_of_noise? {atBoundary : Bool} {gs : List Glyph} {m : Kind × Span}
    (h : noise? atBoundary gs = some m) : m.2.rest.length < gs.length := by
  obtain ⟨hcuts, hne⟩ := cuts_of_noise? h
  have := hcuts.length_eq
  have := List.length_pos_iff.2 hne
  omega

/-! ### Pieces -/

/-- **A piece of the input**: a glyph that stays, or noise. -/
inductive Piece where
  /-- A glyph at which no noise begins. -/
  | plain (g : Glyph)
  /-- A piece of noise and its text. -/
  | noise (kind : Kind) (text : List Glyph)
deriving DecidableEq, Repr

/-- What a piece was read from. -/
def Piece.text : Piece → List Glyph
  | .plain g => [g]
  | .noise _ text => text

/-- What a piece leaves. -/
def Piece.remains : Piece → List Glyph
  | .plain g => [g]
  | .noise kind text => kind.remains text

/-- Whether a piece is noise. -/
def Piece.isNoise : Piece → Bool
  | .plain _ => false
  | .noise _ _ => true

/-- **The pieces of an input**, from what is in sight in front of it. A word in
the noise is in sight behind it as any other. -/
def pieces (sight : Sight) (gs : List Glyph) : List Piece :=
  match _h : noise? sight.atBoundary gs with
  | some (kind, s) => .noise kind s.text :: pieces (sight.passAll s.text) s.rest
  | none =>
    match gs with
    | [] => []
    | g :: gs => .plain g :: pieces (sight.pass g) gs
termination_by gs.length
decreasing_by
  · exact length_rest_of_noise? _h
  · simp

/-- **The pieces put together are the input.** -/
theorem texts_pieces (sight : Sight) (gs : List Glyph) :
    (pieces sight gs).flatMap Piece.text = gs := by
  fun_induction pieces sight gs with
  | case1 sight gs kind s h ih =>
    rw [List.flatMap_cons, ih]
    exact (cuts_of_noise? h).1
  | case2 => rfl
  | case3 sight g gs h ih =>
    rw [List.flatMap_cons, ih]
    rfl

/-! ### The pass over a dump -/

/-- The pieces of a dump. Nothing is in sight in front of it. -/
def piecesOf (bytes : List UInt8) : List Piece :=
  pieces .clear (decode bytes)

/-- Whether there is noise in a dump. -/
def isNoisy (bytes : List UInt8) : Bool :=
  (piecesOf bytes).any Piece.isNoise

/-- **The dump without its noise.** -/
def strip (bytes : List UInt8) : List UInt8 :=
  encode ((piecesOf bytes).flatMap Piece.remains)

end Noise

end SqlCatalog
