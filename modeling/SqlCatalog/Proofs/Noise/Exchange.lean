import SqlCatalog.Proofs.Noise.Course
import SqlCatalog.Proofs.Parse
import SqlCatalog.Proofs.Text.Brackets

/-!
# Exchanging a text in a dump

Two dumps that differ in one place only, where one has the text `x` and the other
the text `y`, are read alike when no rule tells the two texts apart: every rule that
begins in front of the place does the same in both dumps
(`SqlCatalog.Noise.AlikeNoise`). Then the two dumps have the same tokens, but for one
case: in a clause that declares a primary key, which is kept as it is, the texts are
kept with it (`SqlCatalog.Noise.tokensOf_exchange`).

Which rule has read a place is said by its kind of noise, if there is noise at all
(`SqlCatalog.Noise.kindAt`).
-/

namespace SqlCatalog

open Text

namespace Noise

/-! ### The noise at a place -/

/-- The kind of a piece of noise. -/
def Piece.kind? : Piece → Option Kind
  | .plain _ => none
  | .noise kind _ => some kind

/-- **The kind of noise at a place**, which is given by the number of glyphs in front
of it; `none` for a glyph that stays. -/
def kindAt : (n : Nat) → List Piece → Option Kind
  | _, [] => none
  | n, piece :: pieces =>
    if n < piece.text.length then piece.kind? else kindAt (n - piece.text.length) pieces

/-- **Whether noise declares a primary key.** -/
def Kind.isKey : Kind → Bool
  | .clause name => isKeyName name
  | _ => false

section Pieces

variable {sight : Sight} {g : Glyph} {gs : List Glyph} {kind : Kind} {s : Span} {n : Nat}

/-- Behind a glyph that stays. -/
theorem kindAt_plain (h : noise? sight.atBoundary (g :: gs) = none) :
    kindAt (n + 1) (pieces sight (g :: gs)) = kindAt n (pieces (sight.pass g) gs) := by
  rw [pieces_cons h, kindAt, Piece.text, List.length_singleton, if_neg (by omega),
    Nat.add_sub_cancel]

/-- Behind noise. -/
theorem kindAt_behind (h : noise? sight.atBoundary gs = some (kind, s)) :
    kindAt (s.text.length + n) (pieces sight gs) =
      kindAt n (pieces (sight.passAll s.text) s.rest) := by
  rw [pieces_noise h, kindAt, Piece.text, if_neg (by omega), Nat.add_sub_cancel_left]

/-- In noise. -/
theorem kindAt_inside (h : noise? sight.atBoundary gs = some (kind, s))
    (hn : n < s.text.length) : kindAt n (pieces sight gs) = some kind := by
  rw [pieces_noise h, kindAt, Piece.text, if_pos hn]
  rfl

end Pieces

/-- A clause that declares a primary key stays. -/
theorem Kind.remains_of_isKey {kind : Kind} (h : kind.isKey = true) (text : List Glyph) :
    kind.remains text = text := by
  cases kind with
  | clause name => exact if_pos h
  | literal | comment | dollarBody | call => cases h

/-- What remains of other noise says nothing of its text. -/
theorem Kind.remains_congr {kind : Kind} (h : kind.isKey = false) (a b : List Glyph) :
    kind.remains a = kind.remains b := by
  cases kind with
  | clause name =>
    have hname : isKeyName name = false := h
    rw [remains, remains, hname]
    rfl
  | literal | comment | dollarBody | call => rfl

/-! ### Noise that is read alike -/

variable {text x y s : List Char}

/-- **The noise at the head of two dumps** that agree but for the texts `x` and `y`
behind `text`, when no rule tells the two apart. -/
inductive AlikeNoise (text x y s : List Char) :
    Option (Kind × Span) → Option (Kind × Span) → Prop where
  /-- There is none. -/
  | none : AlikeNoise text x y s none none
  /-- It ends in front of the texts. -/
  | within (kind : Kind) (a b : List Char) (htext : text = a ++ b) :
    AlikeNoise text x y s (some (kind, ⟨a.map .char, (b ++ (x ++ s)).map .char⟩))
      (some (kind, ⟨a.map .char, (b ++ (y ++ s)).map .char⟩))
  /-- It goes on behind the texts, equally far. -/
  | across (kind : Kind) (t r : List Glyph) :
    AlikeNoise text x y s (some (kind, ⟨(text ++ x).map .char ++ t, r⟩))
      (some (kind, ⟨(text ++ y).map .char ++ t, r⟩))

/-- **Noise is read alike** when groups and tails pass both texts and then go on in the
same way. What is not settled by that are the white space in front of a name and the
letter of an escape literal. -/
theorem Course.alikeNoise {atBoundary : Bool} (hcourse : Course atBoundary text)
    (after : List Char → Span) (hx : IsStop (x ++ s)) (hy : IsStop (y ++ s))
    (hgroup : ∀ z ∈ [x, y], ∀ l, 1 ≤ l → l ≤ maxNesting →
      closeGroup maxNesting l false ((z ++ s).map .char) =
        (closeGroup maxNesting l false (s.map .char)).map (Span.before (z.map .char)))
    (htail : ∀ z ∈ [x, y], ∀ letter atEnd, (∀ c ∈ letter, fold c = 'e' ∧ atEnd = true) →
      letter.length ≤ 1 → clauseTail atEnd ((letter ++ (z ++ s)).map .char) =
        (after letter).before ((letter ++ z).map .char))
    (hgap : ∀ keyword blanks, text = keyword ++ blanks → keyword.map fold = clauseKeyword →
      (∀ c ∈ blanks, isBlank c) →
      (∀ rest, IsStop rest → (∀ c ∈ rest.head?, ¬isBlank c) →
        noise? atBoundary ((text ++ rest).map .char) = none) →
      (∀ rest, IsStop rest → ∀ kind s,
        noise? atBoundary ((text ++ rest).map .char) = some (kind, s) →
          (∃ name, kind = .clause name) ∧ text.length < s.text.length) →
      AlikeNoise text x y s (noise? atBoundary ((text ++ (x ++ s)).map .char))
        (noise? atBoundary ((text ++ (y ++ s)).map .char)))
    (hletter : ∀ c, text = [c] → fold c = 'e' → atBoundary = true →
      AlikeNoise text x y s (noise? atBoundary ((text ++ (x ++ s)).map .char))
        (noise? atBoundary ((text ++ (y ++ s)).map .char))) :
    AlikeNoise text x y s (noise? atBoundary ((text ++ (x ++ s)).map .char))
      (noise? atBoundary ((text ++ (y ++ s)).map .char)) := by
  have hgx := hgroup x List.mem_cons_self
  have hgy := hgroup y (List.mem_cons_of_mem _ List.mem_cons_self)
  cases hcourse with
  | silent h =>
    rw [h _ hx, h _ hy]
    exact .none
  | ended kind a b htext h =>
    rw [h _ hx, h _ hy]
    exact .within kind a b htext
  | call l hpos hdeep h =>
    rw [h _ hx, h _ hy, hgx l hpos hdeep, hgy l hpos hdeep]
    cases closeGroup maxNesting l false (s.map .char) with
    | none => exact .none
    | some t =>
      simp only [Option.map_some, Span.before, ← List.append_assoc, ← List.map_append]
      exact .across .call t.text t.rest
  | tail name front letter atEnd htext hletter hone h =>
    rw [h _ hx, h _ hy, htail x List.mem_cons_self letter atEnd hletter hone,
      htail y (List.mem_cons_of_mem _ List.mem_cons_self) letter atEnd hletter hone]
    subst htext
    simp only [Span.before, ← List.append_assoc, ← List.map_append]
    exact .across (.clause name) _ _
  | tailGroup name front inside l htext hpos hdeep h =>
    rw [h _ hx, h _ hy, hgx l hpos hdeep, hgy l hpos hdeep]
    cases closeGroup maxNesting l false (s.map .char) with
    | none => exact .within (.clause name) front ('(' :: inside) htext
    | some t =>
      simp only [Option.map_some, tailAcross, Span.before, List.append_assoc]
      simp only [← List.append_assoc, ← List.map_append]
      simp only [List.append_assoc]
      exact .across (.clause name) _ _
  | gap keyword blanks htext hkeyword hblanks h hnamed =>
    exact hgap keyword blanks htext hkeyword hblanks h hnamed
  | letter c htext hc hb => exact hletter c htext hc hb

/-- **What is left of two such dumps**: the same, or, where the place is in a clause
that declares a primary key, the same but for the two texts. -/
inductive Exchange (sight : Sight) (text x y s : List Char) : Prop where
  /-- The same is left. -/
  | alike
    (hkind : (kindAt text.length (pieces sight ((text ++ (y ++ s)).map .char))).any Kind.isKey =
      false)
    (h : stripFrom sight ((text ++ (x ++ s)).map .char) =
      stripFrom sight ((text ++ (y ++ s)).map .char))
  /-- The texts are left. -/
  | kept (a b : List Glyph)
    (hkind : (kindAt text.length (pieces sight ((text ++ (y ++ s)).map .char))).any Kind.isKey =
      true)
    (hx : stripFrom sight ((text ++ (x ++ s)).map .char) = a ++ (x.map .char ++ b))
    (hy : stripFrom sight ((text ++ (y ++ s)).map .char) = a ++ (y.map .char ++ b))

namespace Exchange

variable {sight : Sight}

/-- A glyph that stays in both dumps, in front of an exchange. -/
theorem cons {c : Char} (h : Exchange (sight.pass (.char c)) text x y s)
    (hx : noise? sight.atBoundary ((c :: text ++ (x ++ s)).map .char) = none)
    (hy : noise? sight.atBoundary ((c :: text ++ (y ++ s)).map .char) = none) :
    Exchange sight (c :: text) x y s := by
  have hx' := stripFrom_cons hx
  have hy' := stripFrom_cons hy
  have hkind : kindAt (c :: text).length (pieces sight ((c :: text ++ (y ++ s)).map .char)) = _ :=
    kindAt_plain hy
  cases h with
  | alike hkey h => exact .alike (hkind ▸ hkey) (hx'.trans ((congrArg _ h).trans hy'.symm))
  | kept a b hkey hleft hright =>
    exact .kept (.char c :: a) b (hkind ▸ hkey) (hx'.trans (congrArg _ hleft))
      (hy'.trans (congrArg _ hright))

/-- The same noise in both dumps, in front of an exchange. -/
theorem behind {kind : Kind} {a b : List Char} (h : Exchange (sight.passAll (a.map .char)) b x y s)
    (hx : noise? sight.atBoundary ((a ++ b ++ (x ++ s)).map .char) =
      some (kind, ⟨a.map .char, (b ++ (x ++ s)).map .char⟩))
    (hy : noise? sight.atBoundary ((a ++ b ++ (y ++ s)).map .char) =
      some (kind, ⟨a.map .char, (b ++ (y ++ s)).map .char⟩)) :
    Exchange sight (a ++ b) x y s := by
  have hx' := stripFrom_noise hx
  have hy' := stripFrom_noise hy
  have hkind := kindAt_behind (n := b.length) hy
  rw [List.length_map, ← List.length_append] at hkind
  cases h with
  | alike hkey h => exact .alike (hkind ▸ hkey) (hx'.trans ((congrArg _ h).trans hy'.symm))
  | kept front back hkey hleft hright =>
    refine .kept (kind.remains (a.map .char) ++ front) back (hkind ▸ hkey) ?_ ?_
    · rw [hx', List.append_assoc, hleft]
    · rw [hy', List.append_assoc, hright]

/-- Noise in both dumps that goes on behind the texts. -/
theorem of_across {kind : Kind} {t r : List Glyph} (hne : y ≠ [])
    (hsight : ∀ sight sight' : Sight, sight.passAll (x.map .char) = sight'.passAll (y.map .char))
    (hx : noise? sight.atBoundary ((text ++ (x ++ s)).map .char) =
      some (kind, ⟨(text ++ x).map .char ++ t, r⟩))
    (hy : noise? sight.atBoundary ((text ++ (y ++ s)).map .char) =
      some (kind, ⟨(text ++ y).map .char ++ t, r⟩)) :
    Exchange sight text x y s := by
  have hx' := stripFrom_noise hx
  have hy' := stripFrom_noise hy
  have hbehind : sight.passAll ((text ++ x).map .char ++ t) =
      sight.passAll ((text ++ y).map .char ++ t) := by
    rw [List.map_append, List.map_append, Sight.passAll_append, Sight.passAll_append,
      Sight.passAll_append, Sight.passAll_append, hsight]
  dsimp only at hx' hy'
  rw [hbehind] at hx'
  have hlen : text.length < ((text ++ y).map Glyph.char ++ t).length := by
    have := List.length_pos_iff.mpr hne
    simp only [List.length_append, List.length_map]
    omega
  have hkind := kindAt_inside hy hlen
  cases hkey : kind.isKey with
  | true =>
    refine .kept (text.map .char) (t ++ stripFrom (sight.passAll ((text ++ y).map .char ++ t)) r)
      (by rw [hkind]; exact hkey) ?_ ?_
    · rw [hx', Kind.remains_of_isKey hkey]
      simp
    · rw [hy', Kind.remains_of_isKey hkey]
      simp
  | false =>
    refine .alike (by rw [hkind]; exact hkey) ?_
    rw [hx', hy', Kind.remains_congr hkey]

end Exchange

/-- **Texts are exchanged step by step.** Of the noise at the place in the two dumps
`Q` may be known, and then no rule that begins in front of it may tell them apart. -/
theorem exchange {Q : Option Kind → Option Kind → Prop}
    (hstep : ∀ sight text, IsUnmarked text → text ≠ [] →
      Q (kindAt text.length (pieces sight ((text ++ (x ++ s)).map .char)))
        (kindAt text.length (pieces sight ((text ++ (y ++ s)).map .char))) →
      AlikeNoise text x y s (noise? sight.atBoundary ((text ++ (x ++ s)).map .char))
        (noise? sight.atBoundary ((text ++ (y ++ s)).map .char)))
    (hbase : ∀ sight, Exchange sight [] x y s) (hne : y ≠ [])
    (hsight : ∀ sight sight' : Sight, sight.passAll (x.map .char) = sight'.passAll (y.map .char))
    (h : IsUnmarked text) (sight : Sight)
    (hQ : Q (kindAt text.length (pieces sight ((text ++ (x ++ s)).map .char)))
      (kindAt text.length (pieces sight ((text ++ (y ++ s)).map .char)))) :
    Exchange sight text x y s := by
  -- noise is passed as a whole
  generalize hn : text.length = n
  induction n using Nat.strongRecOn generalizing text sight with
  | ind n ih =>
  by_cases hnil : text = []
  · subst hnil
    exact hbase sight
  have halike := hstep sight text h hnil hQ
  generalize hx : noise? sight.atBoundary ((text ++ (x ++ s)).map .char) = left at halike
  generalize hy : noise? sight.atBoundary ((text ++ (y ++ s)).map .char) = right at halike
  cases halike with
  | none =>
    obtain ⟨c, text, rfl⟩ := List.exists_cons_of_ne_nil hnil
    rw [List.cons_append, List.map_cons] at hx hy
    rw [List.cons_append, List.cons_append, List.map_cons, List.map_cons, List.length_cons,
      kindAt_plain hx, kindAt_plain hy] at hQ
    refine (ih _ ?_ h.of_cons _ hQ rfl).cons hx hy
    rw [← hn]
    exact Nat.lt_succ_self _
  | within kind a b htext =>
    subst htext
    have hfirst : a ≠ [] := by
      rintro rfl
      exact (cuts_of_noise? hx).2 rfl
    have hQ' :
        Q (kindAt b.length (pieces (sight.passAll (a.map .char)) ((b ++ (x ++ s)).map .char)))
          (kindAt b.length (pieces (sight.passAll (a.map .char)) ((b ++ (y ++ s)).map .char))) := by
      have hkx := kindAt_behind (n := b.length) hx
      have hky := kindAt_behind (n := b.length) hy
      rw [List.length_map, ← List.length_append] at hkx hky
      rwa [hkx, hky] at hQ
    refine (ih _ ?_ h.of_append_right _ hQ' rfl).behind hx hy
    have := List.length_pos_iff.mpr hfirst
    rw [← hn, List.length_append]
    omega
  | across kind t r => exact .of_across hne hsight hx hy

/-! ### The tokens -/

/-- What is left of a text is a text. -/
theorem exists_stripFrom (sight : Sight) (text : List Char) :
    ∃ kept : List Char, stripFrom sight (text.map .char) = kept.map .char := by
  have hchars : ∀ gs : List Glyph, (∀ g ∈ gs, ∃ c, g = .char c) → ∃ kept : List Char,
      gs = kept.map .char := by
    intro gs h
    induction gs with
    | nil => exact ⟨[], rfl⟩
    | cons g gs ih =>
      obtain ⟨⟨c, rfl⟩, hgs⟩ := List.forall_mem_cons.mp h
      obtain ⟨kept, rfl⟩ := ih hgs
      exact ⟨c :: kept, rfl⟩
  refine hchars _ fun g hg => ?_
  obtain ⟨piece, hpiece, hg⟩ := List.mem_flatMap.mp hg
  -- what a piece leaves is its text, or two quotes
  have htext : g ∈ piece.text → ∃ c, g = .char c := by
    intro hmem
    have hin : g ∈ (pieces sight (text.map .char)).flatMap Piece.text :=
      List.mem_flatMap.mpr ⟨piece, hpiece, hmem⟩
    rw [texts_pieces] at hin
    obtain ⟨c, -, rfl⟩ := List.mem_map.mp hin
    exact ⟨c, rfl⟩
  cases piece with
  | plain g' => exact htext hg
  | noise kind t =>
    cases kind with
    | literal =>
      simp only [Piece.remains, Kind.remains, List.mem_cons, List.not_mem_nil, or_false,
        or_self] at hg
      exact ⟨quote, hg⟩
    | clause name =>
      rw [Piece.remains, Kind.remains] at hg
      split at hg
      · exact htext hg
      · cases hg
    | comment | dollarBody | call => cases hg

/-- A text around another is read off its glyphs. -/
theorem eq_append_of_map_char {kept : List Char} {a b : List Glyph}
    (h : kept.map .char = a ++ (x.map .char ++ b)) :
    ∃ front back, kept = front ++ (x ++ back) ∧ front.map .char = a ∧ back.map .char = b := by
  obtain ⟨front, tail, rfl, rfl, htail⟩ := List.map_eq_append_iff.mp h
  obtain ⟨x', back, rfl, hx, rfl⟩ := List.map_eq_append_iff.mp htail
  obtain rfl := map_char_inj.mp hx
  exact ⟨front, back, rfl, rfl, rfl⟩

/-- **Two dumps in which a text is exchanged have the same tokens** unless the place
is in a clause that declares a primary key. -/
theorem tokensOf_eq_of_exchange (h : Exchange .clear text x y s)
    (hkey : (kindAt text.length (piecesOf (bytesOf (text ++ (y ++ s))))).any Kind.isKey = false) :
    tokensOf (bytesOf (text ++ (x ++ s))) = tokensOf (bytesOf (text ++ (y ++ s))) := by
  rw [piecesOf, decode_bytesOf] at hkey
  cases h with
  | alike hkind h =>
    obtain ⟨kept, hkept⟩ := exists_stripFrom .clear (text ++ (y ++ s))
    rw [tokensOf_bytesOf (h.trans hkept), tokensOf_bytesOf hkept]
  | kept a b hkind hx hy =>
    rw [hkind] at hkey
    cases hkey

/-- There they have not, if the two texts hold different numbers of characters that are
no blanks. -/
theorem tokensOf_exchange (h : Exchange .clear text x y s)
    (hcount : (x.filter fun c => !Token.isGap c).length ≠
      (y.filter fun c => !Token.isGap c).length) :
    tokensOf (bytesOf (text ++ (x ++ s))) = tokensOf (bytesOf (text ++ (y ++ s))) ↔
      (kindAt text.length (piecesOf (bytesOf (text ++ (y ++ s))))).any Kind.isKey = false := by
  refine ⟨fun htokens => ?_, tokensOf_eq_of_exchange h⟩
  rw [piecesOf, decode_bytesOf]
  cases h with
  | alike hkind h => exact hkind
  | kept a b hkind hx hy =>
    refine absurd ?_ hcount
    obtain ⟨kx, hkx⟩ := exists_stripFrom .clear (text ++ (x ++ s))
    obtain ⟨ky, hky⟩ := exists_stripFrom .clear (text ++ (y ++ s))
    rw [tokensOf_bytesOf hkx, tokensOf_bytesOf hky] at htokens
    obtain ⟨front, back, rfl, hfront, hback⟩ := eq_append_of_map_char (hkx.symm.trans hx)
    obtain ⟨front', back', rfl, hfront', hback'⟩ := eq_append_of_map_char (hky.symm.trans hy)
    -- the characters of the tokens are those of what is left
    have hchars := congrArg (fun tokens => (List.flatMap String.toList tokens).length) htokens
    simp only [Token.flatMap_toList_ofText, lower, List.length_map, List.filter_append,
      List.length_append] at hchars
    rw [map_char_inj.mp (hfront.trans hfront'.symm), map_char_inj.mp (hback.trans hback'.symm)]
      at hchars
    omega

end Noise

end SqlCatalog
