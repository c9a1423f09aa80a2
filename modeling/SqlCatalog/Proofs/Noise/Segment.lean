import Mathlib.Data.List.Infix
import SqlCatalog.Proofs.Noise.Clause
import SqlCatalog.Proofs.Text.Bytes

/-!
# The pass over a dump, segment by segment

A dump is quiet text with noise in between. Written down as a list of *segments*
(`SqlCatalog.Noise.Segment`), each of them quiet text or noise in its form, it is
read back segment by segment: a character of quiet text is a piece by itself, and
noise is one piece (`SqlCatalog.Noise.pieces_textOf`). So what is left of the dump
is what is left of each segment (`SqlCatalog.Noise.strip_textOf`).

| segment | what is left |
|---|---|
| quiet text | all of it |
| a literal | two quotes |
| a comment, a dollar-quoted body, a volatile call | nothing |
| a constraint clause | all of it if it declares a primary key, otherwise nothing |

## Where segments meet

Two segments may not be written side by side when they would be read otherwise
(`SqlCatalog.Noise.Segment.FitsAt`). A quote behind a literal makes it go on, a
comment runs to the end of its line, and a clause runs to the next comma, semicolon
or closing bracket. What has a letter in front has to stand at a word boundary.
Quiet text holds no keyword, but two quiet texts could hold one between them, and
the letter `e` at the end of quiet text would make an escape literal of a literal.
-/

namespace SqlCatalog

open Text

namespace Noise

/-! ### Quiet text -/

/-- The words that do not stand in quiet text. -/
def loudWords : List (List Char) :=
  clauseKeyword :: volatileCalls

/-- **Quiet text**: no noise begins in it, whatever stands around it. -/
structure IsQuiet (text : List Char) : Prop where
  /-- No quote, dollar sign or hyphen stands in it. -/
  not_mem : ∀ c ∈ text, c ∉ [quote, '$', '-']
  /-- None of the words does, in any letter case and even as part of a word. -/
  not_infix : ∀ word ∈ loudWords, ¬word <:+: text.map fold

instance (text : List Char) : Decidable (IsQuiet text) :=
  decidable_of_iff ((∀ c ∈ text, c ∉ [quote, '$', '-']) ∧
    ∀ word ∈ loudWords, ¬word <:+: text.map fold) ⟨fun h => ⟨h.1, h.2⟩, fun h => ⟨h.1, h.2⟩⟩

/-- Whether a text ends in the letter of an escape literal, the letter being at a
word boundary. -/
def endsInLetter : (atBoundary : Bool) → List Char → Bool
  | _, [] => false
  | atBoundary, [c] => atBoundary && fold c == 'e'
  | _, c :: d :: text => endsInLetter (!isWord c) (d :: text)

/-- **Whether a word boundary is behind a text**, when one is in front of it or
not. -/
def boundaryAfter (atBoundary : Bool) (text : List Char) : Bool :=
  text.foldl (fun _ c => !isWord c) atBoundary

section Quiet

variable {text rest : List Char} {atBoundary : Bool}

theorem atBoundary_passAll (sight : Sight) (text : List Char) :
    (sight.passAll (text.map .char)).atBoundary = boundaryAfter sight.atBoundary text := by
  induction text generalizing sight with
  | nil => rfl
  | cons c text ih =>
    rw [List.map_cons, Sight.passAll_cons, ih, Sight.atBoundary_pass_char]
    rfl

/-- No word goes on up to a word boundary. -/
theorem isWord_of_boundaryAfter (h : boundaryAfter atBoundary text = true) :
    ∀ d ∈ text.getLast?, isWord d = false := by
  rintro d hd
  obtain ⟨front, rfl⟩ := List.getLast?_eq_some_iff.mp hd
  simpa [boundaryAfter] using h

namespace IsQuiet

theorem of_cons {c : Char} (h : IsQuiet (c :: text)) : IsQuiet text :=
  ⟨fun d hd => h.not_mem d (List.mem_cons_of_mem _ hd),
    fun word hword hin => h.not_infix word hword (hin.trans (List.suffix_cons _ _).isInfix)⟩

/-- **A word that does not stand in quiet text does not begin in it** either, if the
text ends in front of a mark or at a word boundary. -/
theorem not_prefix (h : IsQuiet text) (hne : text ≠ []) {word : List Char}
    (hword : word ∈ loudWords)
    (hrest : ∀ c ∈ rest.head?, c ∈ [quote, '$', '-'] ∨ ∀ d ∈ text.getLast?, isWord d = false) :
    ¬word <+: (text ++ rest).map fold := by
  intro hp
  have hwords : ∀ word ∈ loudWords, ∀ c ∈ word, isWord c := by decide
  rw [List.map_append] at hp
  by_cases hlen : word.length ≤ (text.map fold).length
  · have hin := List.prefix_of_prefix_length_le hp (List.prefix_append _ _) hlen
    exact h.not_infix word hword hin.isInfix
  · -- the word goes on behind the text
    obtain ⟨tail, rfl⟩ := List.prefix_of_prefix_length_le (List.prefix_append _ _) hp (by omega)
    have htail : tail <+: rest.map fold := (List.prefix_append_right_inj _).mp hp
    obtain ⟨k, tail, rfl⟩ : ∃ k ks, tail = k :: ks := List.exists_cons_of_ne_nil <| by
      rintro rfl
      simp at hlen
    obtain ⟨c, rest, rfl⟩ : ∃ c cs, rest = c :: cs := List.exists_cons_of_ne_nil <| by
      rintro rfl
      simpa using htail.length_le
    have hk : k = fold c := (List.cons_prefix_cons.mp htail).1
    have hc : isWord c = true := by
      rw [← (isWord_fold c).1, ← hk]
      exact hwords _ hword k (List.mem_append_right _ List.mem_cons_self)
    rcases hrest c rfl with hmark | hlast
    · have hnot : ∀ d ∈ [quote, '$', '-'], isWord d = false := by decide
      rw [hnot c hmark] at hc
      cases hc
    · have hd := hwords _ hword (fold (text.getLast hne))
        (List.mem_append_left _ (List.mem_map_of_mem (List.getLast_mem hne)))
      rw [(isWord_fold _).1, hlast _ (List.getLast?_eq_some_getLast hne)] at hd
      cases hd

/-- **No noise opens at the head of quiet text.** -/
theorem opens_append (h : IsQuiet text) (hne : text ≠ [])
    (hrest : ∀ c ∈ rest.head?, c ∈ [quote, '$', '-'] ∨ ∀ d ∈ text.getLast?, isWord d = false)
    (hletter : endsInLetter atBoundary text = true → rest.head? ≠ some quote) :
    opens atBoundary (text ++ rest) = false := by
  rw [← Bool.not_eq_true, opens_iff]
  obtain ⟨c, text, rfl⟩ := List.exists_cons_of_ne_nil hne
  rintro ⟨opening, ho | ⟨hb, ho | ⟨blank, -, rfl⟩⟩, hp⟩
  · have hmarks : ∀ opening ∈ openings, ∃ k ks, opening = k :: ks ∧ k ∈ [quote, '$', '-'] ∧
        isWord k = false := by
      intro opening ho
      rcases List.mem_cons.mp ho with rfl | ho
      · exact ⟨_, _, rfl, by decide⟩
      · rcases List.mem_cons.mp ho with rfl | ho
        · exact ⟨_, _, rfl, by decide⟩
        · obtain ⟨tag, -, rfl⟩ := List.mem_map.mp ho
          exact ⟨_, _, rfl, by decide⟩
    obtain ⟨k, ks, rfl, hk, hkw⟩ := hmarks opening ho
    have hc : k = fold c := (List.cons_prefix_cons.mp hp).1
    rw [(fold_eq_iff hkw).mp hc.symm] at h
    exact h.not_mem k List.mem_cons_self hk
  · rcases List.mem_cons.mp ho with rfl | ho
    · -- the letter of an escape literal, and a quote behind it
      obtain ⟨hc, hp⟩ := List.cons_prefix_cons.mp hp
      cases text with
      | nil =>
        obtain ⟨d, rest, rfl⟩ : ∃ d ds, rest = d :: ds := List.exists_cons_of_ne_nil <| by
          rintro rfl
          simpa using hp.length_le
        have hd : quote = fold d := (List.cons_prefix_cons.mp hp).1
        refine hletter ?_ (congrArg some ((fold_eq_iff rfl).mp hd.symm))
        rw [endsInLetter, hb, ← hc]
        rfl
      | cons d text =>
        have hd : quote = fold d := (List.cons_prefix_cons.mp hp).1
        refine h.not_mem d (List.mem_cons_of_mem _ List.mem_cons_self) ?_
        rw [(fold_eq_iff rfl).mp hd.symm]
        exact List.mem_cons_self
    · obtain ⟨name, hname, rfl⟩ := List.mem_map.mp ho
      exact h.not_prefix hne (List.mem_cons_of_mem _ hname) hrest
        ((List.prefix_append _ _).trans hp)
  · exact h.not_prefix hne List.mem_cons_self hrest ((List.prefix_append _ _).trans hp)

/-- **Quiet text is read character by character.** -/
theorem pieces_append (h : IsQuiet text) {sight : Sight}
    (hrest : ∀ c ∈ rest.head?, c ∈ [quote, '$', '-'] ∨ ∀ d ∈ text.getLast?, isWord d = false)
    (hletter : endsInLetter sight.atBoundary text = true → rest.head? ≠ some quote) :
    pieces sight ((text ++ rest).map .char) =
      text.map (fun c => .plain (.char c)) ++
        pieces (sight.passAll (text.map .char)) (rest.map .char) := by
  induction text generalizing sight with
  | nil => rfl
  | cons c text ih =>
    have hnone := noise?_of_opens (h.opens_append (List.cons_ne_nil _ _) hrest hletter)
    have hstep : pieces (sight.pass (.char c)) ((text ++ rest).map .char) =
        text.map (fun c => .plain (.char c)) ++
          pieces ((sight.pass (.char c)).passAll (text.map .char)) (rest.map .char) := by
      cases text with
      | nil => rfl
      | cons d text =>
        refine ih h.of_cons hrest ?_
        rwa [Sight.atBoundary_pass_char]
    rw [List.cons_append, List.map_cons] at hnone ⊢
    rw [pieces_cons hnone, hstep]
    rfl

end IsQuiet

end Quiet

/-! ### Segments -/

/-- **A segment of a dump**: quiet text, or noise in its form. -/
inductive Segment where
  /-- Quiet text. -/
  | text (text : List Char) (isQuiet : IsQuiet text)
  /-- A literal. -/
  | literal (body : List Char) (isBody : IsBody false body)
  /-- An escape literal, with its letter in either case. -/
  | escape (letter : Char) (body : List Char) (fold_letter : fold letter = 'e')
    (isBody : IsBody true body)
  /-- A comment. -/
  | comment (comment : List Char) (not_mem : '\n' ∉ comment)
  /-- A dollar-quoted body. -/
  | dollarBody (form : DollarForm)
  /-- A volatile call. -/
  | call (form : CallForm)
  /-- A constraint clause. -/
  | clause (form : ClauseForm)

namespace Segment

/-- What a segment is written as. -/
def toText : Segment → List Char
  | .text t _ => t
  | .literal body _ => literalText body
  | .escape letter body _ _ => letter :: literalText body
  | .comment c _ => commentText c
  | .dollarBody form => form.text
  | .call form => form.text
  | .clause form => form.text

/-- What is left of a segment. -/
def kept : Segment → List Char
  | .text t _ => t
  | .literal _ _ => [quote, quote]
  | .escape _ _ _ _ => [quote, quote]
  | .comment _ _ => []
  | .dollarBody _ => []
  | .call _ => []
  | .clause form => if form.isKey then form.text else []

/-- What a segment is read as. -/
def toPieces (segment : Segment) : List Piece :=
  match segment with
  | .text t _ => t.map fun c => .plain (.char c)
  | .literal _ _ => [.noise .literal (segment.toText.map .char)]
  | .escape _ _ _ _ => [.noise .literal (segment.toText.map .char)]
  | .comment _ _ => [.noise .comment (segment.toText.map .char)]
  | .dollarBody _ => [.noise .dollarBody (segment.toText.map .char)]
  | .call _ => [.noise .call (segment.toText.map .char)]
  | .clause form => [.noise (.clause (form.name.text.map .char)) (segment.toText.map .char)]

/-- What is left of the pieces of a segment is what is left of the segment. -/
theorem flatMap_remains_toPieces (segment : Segment) :
    segment.toPieces.flatMap Piece.remains = segment.kept.map .char := by
  cases segment with
  | text t h =>
    rw [toPieces, kept, List.flatMap_map, List.map_eq_flatMap]
    rfl
  | clause form =>
    rw [toPieces, kept, List.flatMap_singleton, Piece.remains, Kind.remains, apply_ite (List.map _)]
    rfl
  | literal | escape | comment | dollarBody | call => rfl

/-- Whether a segment is quiet text. -/
def isText : Segment → Bool
  | .text _ _ => true
  | _ => false

end Segment

/-- **The text of a dump** that is written down in segments. -/
def textOf (segments : List Segment) : List Char :=
  segments.flatMap Segment.toText

/-- **Whether a segment may stand where it does**, at a word boundary or not, and in
front of the segments that follow. -/
def Segment.FitsAt (atBoundary : Bool) (next : List Segment) : Segment → Prop
  | .text t _ => next.head?.any isText = false ∧
      (endsInLetter atBoundary t = true → (textOf next).head? ≠ some quote)
  | .literal _ _ => (textOf next).head? ≠ some quote
  | .escape _ _ _ _ => atBoundary = true ∧ (textOf next).head? ≠ some quote
  | .comment _ _ => ∀ c ∈ (textOf next).head?, c = '\n'
  | .dollarBody _ => True
  | .call _ => atBoundary = true
  | .clause _ => atBoundary = true ∧ ∀ c ∈ (textOf next).head?, IsClauseEnd c

instance (atBoundary : Bool) (next : List Segment) :
    (segment : Segment) → Decidable (segment.FitsAt atBoundary next)
  | .text _ _ => inferInstanceAs (Decidable (_ ∧ _))
  | .literal _ _ => inferInstanceAs (Decidable (_ ≠ _))
  | .escape _ _ _ _ => inferInstanceAs (Decidable (_ ∧ _))
  | .comment _ _ => inferInstanceAs (Decidable (∀ c ∈ (textOf next).head?, c = '\n'))
  | .dollarBody _ => inferInstanceAs (Decidable True)
  | .call _ => inferInstanceAs (Decidable (_ = _))
  | .clause _ => inferInstanceAs (Decidable (_ ∧ _))

/-- **Whether segments fit together.** -/
def Fit : (atBoundary : Bool) → List Segment → Prop
  | _, [] => True
  | atBoundary, segment :: next =>
    segment.FitsAt atBoundary next ∧ Fit (boundaryAfter atBoundary segment.toText) next

instance decidableFit : (atBoundary : Bool) → (segments : List Segment) →
    Decidable (Fit atBoundary segments)
  | _, [] => inferInstanceAs (Decidable True)
  | atBoundary, segment :: next =>
    haveI := decidableFit (boundaryAfter atBoundary segment.toText) next
    inferInstanceAs (Decidable (_ ∧ _))

variable {atBoundary : Bool} {segments next : List Segment} {segment : Segment} {sight : Sight}

/-- Behind quiet text there is a mark or a word boundary. -/
theorem head?_textOf (h : Fit atBoundary segments)
    (hhead : segments.head?.any Segment.isText = false) :
    ∀ c ∈ (textOf segments).head?, c ∈ [quote, '$', '-'] ∨ atBoundary = true := by
  rintro c hc
  cases segments with
  | nil => cases hc
  | cons segment next =>
    obtain ⟨hfits, -⟩ := h
    cases segment with
    | text => cases hhead
    | literal =>
      cases hc
      exact Or.inl List.mem_cons_self
    | escape => exact Or.inr hfits.1
    | comment =>
      cases hc
      exact Or.inl (by decide)
    | dollarBody form =>
      refine Or.inl ?_
      obtain ⟨x, xs, hx, hfold, -⟩ := List.map_eq_cons_iff.mp form.fold_opening
      have hxd : x = '$' := (fold_eq_iff rfl).mp hfold
      rw [textOf, List.flatMap_cons, Segment.toText, DollarForm.text, hx] at hc
      cases hc
      rw [hxd]
      decide
    | call => exact Or.inr hfits
    | clause => exact Or.inr hfits.1

/-- **A segment of noise is one piece.** -/
theorem Segment.noise?_append (h : segment.FitsAt atBoundary next)
    (htext : segment.isText = false) :
    ∃ kind, segment.toPieces = [.noise kind (segment.toText.map .char)] ∧
      noise? atBoundary ((segment.toText ++ textOf next).map .char) =
        some (kind, ⟨segment.toText.map .char, (textOf next).map .char⟩) := by
  cases segment with
  | text => cases htext
  | literal body hbody => exact ⟨_, rfl, noise?_literal hbody h⟩
  | escape letter body hletter hbody =>
    obtain ⟨rfl, hrest⟩ := h
    exact ⟨_, rfl, noise?_escape hletter hbody hrest⟩
  | comment c hc => exact ⟨_, rfl, noise?_comment hc h⟩
  | dollarBody form => exact ⟨_, rfl, form.noise?_append _⟩
  | call form =>
    obtain rfl : atBoundary = true := h
    exact ⟨_, rfl, form.noise?_append _⟩
  | clause form =>
    obtain ⟨rfl, hrest⟩ := h
    exact ⟨_, rfl, form.noise?_append hrest⟩

/-- **A dump is read segment by segment.** -/
theorem pieces_textOf (h : Fit sight.atBoundary segments) :
    pieces sight ((textOf segments).map .char) = segments.flatMap Segment.toPieces := by
  induction segments generalizing sight with
  | nil => exact pieces_nil sight
  | cons segment next ih =>
    obtain ⟨hfits, hnext⟩ := h
    rw [← atBoundary_passAll] at hnext
    have hih := ih hnext
    rw [textOf, List.flatMap_cons, List.flatMap_cons]
    change pieces sight ((segment.toText ++ textOf next).map .char) = _
    cases htext : segment.isText with
    | false =>
      obtain ⟨kind, hpieces, hnoise⟩ := Segment.noise?_append hfits htext
      rw [pieces_noise hnoise, hpieces]
      dsimp only
      rw [hih]
      rfl
    | true =>
      cases segment with
      | text t hquiet =>
        obtain ⟨hhead, hletter⟩ := hfits
        have hrest : ∀ c ∈ (textOf next).head?,
            c ∈ [quote, '$', '-'] ∨ ∀ d ∈ t.getLast?, isWord d = false := by
          rintro c hc
          refine (head?_textOf hnext hhead c hc).imp_right fun hb => ?_
          rw [atBoundary_passAll] at hb
          exact isWord_of_boundaryAfter hb
        exact (hquiet.pieces_append hrest hletter).trans (congrArg _ hih)
      | literal | escape | comment | dollarBody | call | clause => cases htext

/-- **The pass over a dump does to each segment what its kind asks for**: every
segment is read as what it is, and what is left of the dump is what is left of
them. -/
theorem strip_textOf (segments : List Segment) (h : Fit true segments) :
    piecesOf (bytesOf (textOf segments)) = segments.flatMap Segment.toPieces ∧
      strip (bytesOf (textOf segments)) = bytesOf (segments.flatMap Segment.kept) := by
  have hpieces : piecesOf (bytesOf (textOf segments)) = segments.flatMap Segment.toPieces := by
    rw [piecesOf, decode_bytesOf]
    exact pieces_textOf h
  refine ⟨hpieces, ?_⟩
  have hkept : (segments.flatMap Segment.toPieces).flatMap Piece.remains =
      (segments.flatMap Segment.kept).map .char := by
    rw [List.flatMap_assoc, List.map_flatMap]
    exact congrArg (List.flatMap · segments) (funext Segment.flatMap_remains_toPieces)
  rw [strip, hpieces, hkept, bytesOf]

/-- A dump in segments of every kind. -/
def sampleSegments : List Segment :=
  [.text "CREATE TABLE t (id integer ".toList (by decide +kernel),
   .clause ⟨"CONSTRAINT".toList, [' '], ⟨false, "t_pkey".toList, false, by decide, by decide⟩,
     " PRIMARY KEY".toList, by decide, by decide, by decide, by decide,
     IsTail.isClauseTail ⟨by decide, by decide, by decide⟩⟩,
   .text ", s text DEFAULT ".toList (by decide +kernel),
   .escape 'E' ['a', backslash, quote] (by decide)
     (.plain (by decide) (by decide) (.escaped rfl .nil)),
   .text " ".toList (by decide +kernel),
   .comment " it's, here".toList (by decide),
   .text "\n, d date DEFAULT ".toList (by decide +kernel),
   .call ⟨"now".toList, [], 0, by decide, .nil, by decide⟩,
   .text ", ".toList (by decide +kernel),
   .clause ⟨"constraint".toList, [' '], ⟨true, "s_check".toList, true, by decide, by decide⟩,
     " CHECK ".toList ++ '(' :: (quote :: ([')'] ++ quote :: " <> s".toList) ++ ')' :: []),
     by decide, by decide, by decide, by decide,
     .append (.group (by decide : 0 < maxNesting)
       (.literal (.plain (by decide) nofun .nil) (isInner_of_forall (by decide))) .nil)
       (by decide)⟩,
   .text ");\n".toList (by decide +kernel),
   .dollarBody ⟨[], "$$".toList, ";".toList, "$$".toList, by decide, by decide, by decide,
     by decide⟩,
   .text " COMMENT ON TABLE t IS ".toList (by decide +kernel),
   .literal ['(', quote, quote] (.plain (by decide) nofun (.pair .nil))]

theorem strip_sampleSegments :
    strip (bytesOf ("CREATE TABLE t (id integer CONSTRAINT t_pkey PRIMARY KEY, s text ".toList ++
      ("DEFAULT E'a\\'' -- it's, here\n, d date DEFAULT now(), constraint \"s_check\" ".toList ++
      "CHECK (')' <> s));\n$$;$$ COMMENT ON TABLE t IS '('''".toList))) =
    bytesOf ("CREATE TABLE t (id integer CONSTRAINT t_pkey PRIMARY KEY, s text ".toList ++
      "DEFAULT '' \n, d date DEFAULT , );\n COMMENT ON TABLE t IS ''".toList) := by
  have h := (strip_textOf sampleSegments (by decide +kernel)).2
  refine (congrArg (fun text => strip (bytesOf text)) ?_).trans (h.trans (congrArg bytesOf ?_))
  · decide +kernel
  · decide +kernel

end Noise

end SqlCatalog
