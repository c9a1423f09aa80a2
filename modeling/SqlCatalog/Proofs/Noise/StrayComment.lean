import SqlCatalog.Parse
import SqlCatalog.Proofs.Noise.CommentText
import SqlCatalog.Proofs.Noise.Segment
import SqlCatalog.Proofs.Text.Lossy

/-!
# Comments that are no text

A dump may hold bytes that are no characters, as that of a Latin-1 database does, and the
first place where they turn up is in its comments. The rule for comments reads characters,
and a stray piece is none: a comment ends where its line does, or in front of the first
stray piece in it (`SqlCatalog.Noise.stripFrom_commentText`).

| the comment | what is left of it |
|---|---|
| is a text | nothing |
| has stray pieces | the first of them, and what the pass leaves of the rest of the line |

So behind quiet text a comment is left out, whatever stands behind its line, if and only
if it is a text (`SqlCatalog.Noise.tokensOf_comment_bytes_iff`). What is left of any other
comment is read as part of the dump.
-/

namespace SqlCatalog

open Text

namespace Noise

variable {text comment word : List Char} {d : Char} {gs : List Glyph} {atBoundary : Bool}
  {sight : Sight} {piece : List UInt8}

/-! ### Stray pieces -/

/-- No rule reads a stray piece. -/
theorem noise?_stray : noise? atBoundary (.stray piece :: gs) = none := by
  have hopened : ∀ {word : List Char} {close : List Glyph → Option Span}, word ≠ [] →
      opened word close (.stray piece :: gs) = none := by
    intro word close hne
    cases word with
    | nil => exact absurd rfl hne
    | cons k word => rfl
  have hliteral : literal? atBoundary (.stray piece :: gs) = none := by
    rw [literal?, hopened (List.cons_ne_nil _ _), hopened (List.cons_ne_nil _ _), ite_self]
  have hbody : dollarBody? (.stray piece :: gs) = none :=
    List.findSome?_eq_none_iff.mpr fun tag _ => hopened (List.cons_ne_nil _ _)
  have hcall : call? atBoundary (.stray piece :: gs) = none := by
    have hnames : ∀ name ∈ volatileCalls, name ≠ [] := by decide
    rw [call?, List.findSome?_eq_none_iff.mpr fun name hname => hopened (hnames name hname),
      ite_self]
  have hclause : clause? atBoundary (.stray piece :: gs) = none := by
    rw [clause?, show keyword clauseKeyword (.stray piece :: gs) = none from rfl, Option.bind_none,
      ite_self]
  rw [noise?, hliteral, comment?, hopened (List.cons_ne_nil _ _), hbody, hcall, hclause]

/-- Every input is a text up to its first stray piece. -/
theorem exists_readable (gs : List Glyph) :
    ∃ (text : List Char) (rest : List Glyph), gs = text.map .char ++ rest ∧
      (rest = [] ∨ ∃ piece rest', rest = .stray piece :: rest') := by
  induction gs with
  | nil => exact ⟨[], [], rfl, Or.inl rfl⟩
  | cons g gs ih =>
    cases g with
    | stray piece => exact ⟨[], _, rfl, Or.inr ⟨piece, gs, rfl⟩⟩
    | char c =>
      obtain ⟨text, rest, rfl, hrest⟩ := ih
      exact ⟨c :: text, rest, rfl, hrest⟩

/-! ### Comments -/

/-- **What ends a comment**: the end of its line, or a stray piece. -/
def EndsComment (gs : List Glyph) : Prop :=
  ∃ g rest, gs = g :: rest ∧ (g = .char '\n' ∨ ∃ piece, g = .stray piece)

/-- **A comment is left out up to what ends it.** -/
theorem stripFrom_commentText (h : '\n' ∉ comment) (hgs : EndsComment gs) (sight : Sight) :
    stripFrom sight ((commentText comment).map .char ++ gs) =
      stripFrom (sight.passAll ((commentText comment).map .char)) gs := by
  have hend : takeChars (· != '\n') gs = Span.nothing gs := by
    obtain ⟨g, rest, rfl, rfl | ⟨piece, rfl⟩⟩ := hgs <;> rfl
  have hcomment : comment? ((commentText comment).map .char ++ gs) =
      some ⟨(commentText comment).map .char, gs⟩ := by
    have hkeyword : keyword ['-', '-'] ((commentText comment).map .char ++ gs) =
        some ⟨['-', '-'].map .char, comment.map .char ++ gs⟩ := rfl
    have hrun : ∀ c ∈ comment, (c != '\n') = true := fun c hc =>
      bne_iff_ne.mpr fun he => h (he ▸ hc)
    rw [comment?, opened, hkeyword, Option.bind_some, takeChars_before hrun, hend]
    simp [Span.before, commentText]
  have hliteral : literal? sight.atBoundary ((commentText comment).map .char ++ gs) = none :=
    literal?_eq_none (by decide) fun _ he => absurd he (by decide)
  have hnoise : noise? sight.atBoundary ((commentText comment).map .char ++ gs) =
      some (.comment, ⟨(commentText comment).map .char, gs⟩) := by
    rw [noise?, hliteral, hcomment]
  rw [stripFrom_noise hnoise]
  rfl

/-! ### Quiet text in front of glyphs -/

/-- A keyword that is read in a text and a character that no keyword holds stands in the
text. -/
theorem prefix_of_keyword {s : Span} (hd : ∀ k ∈ word, fold d ≠ k)
    (h : keyword word (text.map .char ++ .char d :: gs) = some s) : word <+: text.map fold := by
  induction word generalizing text s with
  | nil => exact List.nil_prefix
  | cons k word ih =>
    obtain ⟨hk, hd⟩ := List.forall_mem_cons.mp hd
    cases text with
    | nil =>
      rw [List.map_nil, List.nil_append, keyword, if_neg hk] at h
      cases h
    | cons c text =>
      rw [List.map_cons, List.cons_append, keyword] at h
      split at h
      · next hc =>
        obtain ⟨t, ht, -⟩ := Option.map_eq_some_iff.mp h
        exact List.cons_prefix_cons.mpr ⟨hc.symm, ih hd ht⟩
      · cases h

/-- **No noise begins in quiet text** in front of a hyphen or the end of a line, whatever
the glyphs behind that. -/
theorem IsQuiet.noise?_eq_none (h : IsQuiet text) (hne : text ≠ []) (hd : d ∈ ['-', '\n'])
    (atBoundary : Bool) (gs : List Glyph) :
    noise? atBoundary (text.map .char ++ .char d :: gs) = none := by
  have hmarks : ∀ d ∈ ['-', '\n'], d ≠ quote ∧ ∀ word ∈ loudWords, ∀ k ∈ word, fold d ≠ k := by
    decide
  obtain ⟨hquote, hwords⟩ := hmarks d hd
  have hkeyword : ∀ word ∈ loudWords, keyword word (text.map .char ++ .char d :: gs) = none := by
    intro word hword
    refine Option.eq_none_iff_forall_ne_some.mpr fun s hs => ?_
    exact h.not_infix word hword (prefix_of_keyword (hwords word hword) hs).isInfix
  have hcall : call? atBoundary (text.map .char ++ .char d :: gs) = none := by
    have hnames : volatileCalls.findSome? (fun name =>
        opened name (group maxNesting) (text.map .char ++ .char d :: gs)) = none := by
      refine List.findSome?_eq_none_iff.mpr fun name hname => ?_
      rw [opened, hkeyword name (List.mem_cons_of_mem _ hname), Option.bind_none]
    rw [call?, hnames, ite_self]
  have hclause : clause? atBoundary (text.map .char ++ .char d :: gs) = none := by
    rw [clause?, hkeyword _ List.mem_cons_self, Option.bind_none, ite_self]
  obtain ⟨c, text, rfl⟩ := List.exists_cons_of_ne_nil hne
  have hunmarked := h.not_mem c List.mem_cons_self
  have hliteral : literal? atBoundary (.char c :: (text.map .char ++ .char d :: gs)) = none := by
    refine literal?_eq_none (fun hc => hunmarked (hc ▸ List.mem_cons_self)) fun _ _ hhead => ?_
    cases text with
    | nil => exact hquote (Glyph.char.inj (Option.some.inj hhead))
    | cons c' text =>
      have hc' : c' = quote := Glyph.char.inj (Option.some.inj hhead)
      exact h.not_mem c' (by simp) (hc' ▸ List.mem_cons_self)
  rw [List.map_cons, List.cons_append] at hcall hclause ⊢
  rw [noise?_of_unmarked hunmarked hliteral, hcall, hclause]
  rfl

/-- So it stays. -/
theorem IsQuiet.stripFrom_append (h : IsQuiet text) (hd : d ∈ ['-', '\n']) (sight : Sight)
    (gs : List Glyph) :
    stripFrom sight (text.map .char ++ .char d :: gs) =
      text.map .char ++ stripFrom (sight.passAll (text.map .char)) (.char d :: gs) := by
  induction text generalizing sight with
  | nil => rfl
  | cons c text ih =>
    have hnone := h.noise?_eq_none (List.cons_ne_nil _ _) hd sight.atBoundary gs
    rw [List.map_cons, List.cons_append] at hnone ⊢
    rw [stripFrom_cons hnone, ih h.of_cons]
    rfl

/-! ### Dumps -/

/-- **A dump with a comment behind quiet text**: the bytes of the comment and what stands
behind its line are any. -/
def commentDump (text : List Char) (comment rest : List UInt8) : List UInt8 :=
  bytesOf text ++ 0x2D :: 0x2D :: (comment ++ 0x0A :: rest)

/-- **The dump without the comment.** -/
def lineDump (text : List Char) (rest : List UInt8) : List UInt8 :=
  bytesOf text ++ 0x0A :: rest

variable {bytes rest : List UInt8}

theorem decode_lineDump (text : List Char) (rest : List UInt8) :
    decode (lineDump text rest) = text.map .char ++ .char '\n' :: decode rest := by
  rw [lineDump, decode_bytesOf_append, decode_ascii_cons (by decide)]
  rfl

theorem decode_commentDump (text : List Char) (comment rest : List UInt8) :
    decode (commentDump text comment rest) =
      text.map .char ++ .char '-' :: .char '-' :: (decode comment ++ .char '\n' :: decode rest) := by
  rw [commentDump, decode_bytesOf_append, decode_ascii_cons (by decide),
    decode_ascii_cons (by decide), decode_append_ascii (by decide)]
  rfl

/-- What is left of the dump without the comment. -/
theorem strip_lineDump (h : IsQuiet text) (rest : List UInt8) :
    strip (lineDump text rest) =
      encode (text.map .char ++ .char '\n' :: stripFrom .clear (decode rest)) := by
  rw [strip, piecesOf, decode_lineDump]
  have hstay := h.stripFrom_append (by decide : '\n' ∈ ['-', '\n']) .clear (decode rest)
  rw [stripFrom_blank rfl] at hstay
  exact congrArg encode hstay

/-- **What is left of the dump with it**, by what ends the comment. -/
theorem strip_commentDump (h : IsQuiet text) {readable : List Char} (rest : List UInt8)
    (hline : '\n' ∉ readable)
    (hbytes : decode bytes ++ .char '\n' :: decode rest = readable.map .char ++ gs)
    (hgs : EndsComment gs) :
    ∃ sight, strip (commentDump text bytes rest) =
      encode (text.map .char ++ stripFrom sight gs) := by
  have hstay := h.stripFrom_append (by decide : '-' ∈ ['-', '\n']) .clear
    (.char '-' :: (readable.map .char ++ gs))
  have hcomment := stripFrom_commentText hline hgs (Sight.clear.passAll (text.map .char))
  rw [strip, piecesOf, decode_commentDump, hbytes]
  exact ⟨_, congrArg encode (hstay.trans (congrArg _ hcomment))⟩

/-- The characters of a comment in one line are in one line. -/
theorem newline_not_mem (h : 0x0A ∉ bytes) : .char '\n' ∉ decode bytes := by
  intro hmem
  have hin : 0x0A ∈ encode (decode bytes) :=
    List.mem_flatMap.mpr ⟨_, hmem, by decide⟩
  rw [encode_decode] at hin
  exact h hin

/-- **A comment that is a text is left out.** -/
theorem tokensOf_commentDump (h : IsQuiet text) (hbytes : 0x0A ∉ bytesOf comment)
    (rest : List UInt8) :
    tokensOf (commentDump text (bytesOf comment) rest) = tokensOf (lineDump text rest) := by
  have hline : '\n' ∉ comment := fun hmem => by
    have hnot := newline_not_mem hbytes
    rw [decode_bytesOf] at hnot
    exact hnot (List.mem_map_of_mem hmem)
  obtain ⟨sight, hstrip⟩ := strip_commentDump h rest hline
    (by rw [decode_bytesOf]) ⟨_, _, rfl, Or.inl rfl⟩
  rw [tokensOf, hstrip, stripFrom_blank rfl, tokensOf, strip_lineDump h]

/-- **A comment with a stray piece is not**, even when nothing stands behind its line. -/
theorem tokensOf_commentDump_ne (h : IsQuiet text) (hbytes : 0x0A ∉ bytes)
    (hstray : ¬∃ comment, bytes = bytesOf comment) :
    tokensOf (commentDump text bytes []) ≠ tokensOf (lineDump text []) := by
  obtain ⟨readable, gs, hsplit, rfl | ⟨piece, gs', rfl⟩⟩ := exists_readable (decode bytes)
  · rw [List.append_nil] at hsplit
    exact absurd ⟨readable, eq_bytesOf_of_decode hsplit⟩ hstray
  have hline : '\n' ∉ readable := fun hmem => by
    have hnot := newline_not_mem hbytes
    rw [hsplit] at hnot
    exact hnot (List.mem_append_left _ (List.mem_map_of_mem hmem))
  have hmem : .stray piece ∈ decode bytes := by
    rw [hsplit]
    exact List.mem_append_right _ List.mem_cons_self
  obtain ⟨lead, tail, rfl, hlead⟩ := exists_of_stray_mem_decode hmem
  obtain ⟨sight, hstrip⟩ := strip_commentDump h [] hline
    (by rw [hsplit, List.append_assoc]; rfl) ⟨_, _, rfl, Or.inr ⟨_, rfl⟩⟩
  obtain ⟨rest, hleft⟩ : ∃ rest, strip (commentDump text bytes []) =
      bytesOf text ++ lead :: rest := by
    rw [hstrip, stripFrom_cons noise?_stray, encode_append, encode_cons]
    exact ⟨_, rfl⟩
  have hright : strip (lineDump text []) = bytesOf (text ++ ['\n']) := by
    rw [strip_lineDump h, decode, stripFrom_nil, bytesOf, List.map_append]
    rfl
  -- the stray piece has a character that is no blank, and the end of the line has none
  obtain ⟨c, tail', hlossy, hgap⟩ := exists_lossy_cons hlead rest
  intro htokens
  have hchars := congrArg (fun tokens => (List.flatMap String.toList tokens).length) htokens
  simp only [tokensOf, hleft, hright, Token.flatMap_toList_tokenize, lossy_bytesOf_append,
    lossy_bytesOf, hlossy, lower, List.length_map, List.filter_append, List.length_append,
    List.filter_cons, hgap, Bool.not_false, if_true, List.length_cons] at hchars
  have hnewline : Token.isGap '\n' = true := rfl
  simp only [hnewline, Bool.not_true, Bool.false_eq_true, if_false, List.filter_nil,
    List.length_nil] at hchars
  omega

/-- **Behind quiet text a comment is left out if and only if it is a text**, that is, every
piece of it is a character. -/
theorem tokensOf_comment_bytes_iff (h : IsQuiet text) (hbytes : 0x0A ∉ bytes) :
    (∀ rest, tokensOf (commentDump text bytes rest) = tokensOf (lineDump text rest)) ↔
      ∃ comment, bytes = bytesOf comment := by
  constructor
  · intro hall
    by_contra hstray
    exact tokensOf_commentDump_ne h hbytes hstray (hall [])
  · rintro ⟨comment, rfl⟩ rest
    exact tokensOf_commentDump h hbytes rest

/-- A comment in UTF-8 with a letter past the ASCII part. -/
theorem utf8_comment_is_left_out :
    let front := "CREATE TABLE t (id integer PRIMARY KEY ".toList
    let comment := bytesOf " clé".toList
    IsQuiet front ∧ 0x0A ∉ comment ∧
      ∀ rest, tokensOf (commentDump front comment rest) = tokensOf (lineDump front rest) := by
  have hfront : IsQuiet "CREATE TABLE t (id integer PRIMARY KEY ".toList := by decide
  have hcomment : 0x0A ∉ bytesOf " clé".toList := by decide
  exact ⟨hfront, hcomment, (tokensOf_comment_bytes_iff hfront hcomment).mpr ⟨_, rfl⟩⟩

/-- The same comment in Latin-1: its last letter is a stray piece, which is read as an
option of the column. -/
theorem latin1_comment_is_read :
    let front := "CREATE TABLE t (id integer PRIMARY KEY ".toList
    let comment := bytesOf " cl".toList ++ [0xE9]
    let back := bytesOf ");".toList
    let tables := fun dump =>
      (parse {} dump).result.toOption.map fun catalog => catalog.tables.map Table.name
    IsQuiet front ∧ 0x0A ∉ comment ∧
      tokensOf (commentDump front comment back) ≠ tokensOf (lineDump front back) ∧
      tables (commentDump front comment back) = none ∧
      tables (lineDump front back) = some ["t"] := by
  decide +kernel

end Noise

end SqlCatalog
