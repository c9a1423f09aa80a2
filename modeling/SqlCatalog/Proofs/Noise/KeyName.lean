import SqlCatalog.Proofs.Block.Layout
import SqlCatalog.Proofs.Identifier
import SqlCatalog.Proofs.LetterCase.Dump
import SqlCatalog.Proofs.Noise.Form
import SqlCatalog.Proofs.Text.Runs

/-!
# The names of keys in clauses and in tokens

Whether the name of a constraint is that of a primary key is asked twice. The pass over a dump
asks it of the name in a clause, as it is written, to know whether the clause stays
(`SqlCatalog.Noise.isKeyName`); behind the word `constraint` it is asked of a token, to know
whether the columns of a key follow (`SqlCatalog.Identifier.isKeyName`). The first test looks at
the end of a name only, the second one at all of it. For names that are identifiers
(`SqlCatalog.IsIdentifier`) the two agree, whatever the letter case is and whether quotes stand
at both ends, at one or at none (`SqlCatalog.IsIdentifier.isKeyName_eq`):

| name | a key, in a clause and as a token |
|---|---|
| `_pkey`, `"_pkey"` | no, nothing stands in front of the ending |
| `__pkey`, `a$_pkey`, `A_PKey` | yes |
| `"a_pkey`, `a_pkey"`, `"a_pkey"` | yes |
| `a_pkey$`, `a_pkey1` | no |

The name in a clause is read whole, quotes included, where white space stands behind it
(`SqlCatalog.Noise.ClauseHead.clause?_text`), and it is one token. So a clause stays if the token
of its name is that of a key, and goes if it is not (`SqlCatalog.keyName_stays_iff_read`).
-/

namespace SqlCatalog

open Text

/-! ### Identifiers -/

section Identifiers

open Identifier

variable {text name : List Char}

/-- **A plain identifier in letters of either case.** -/
def isBare : List Char → Bool
  | [] => false
  | c :: cs => (c.isAlpha || c == '_') && cs.all fun d => d.isAlphanum || d == '_' || d == '$'

/-- **The texts of identifiers**: a plain one, with a double quote allowed at either end. -/
def IsIdentifier (text : List Char) : Prop :=
  ∃ name, isBare name = true ∧ Spells text name

/-- The characters of an identifier in lower case. -/
theorem isStart_toLower (c : Char) :
    isStart c.toLower = (c.isAlpha || c == '_') ∧
      isRest c.toLower = (c.isAlphanum || c == '_' || c == '$') := by
  have hascii : ∀ n < 0x80,
      isStart (Char.ofNat n).toLower = ((Char.ofNat n).isAlpha || Char.ofNat n == '_') ∧
        isRest (Char.ofNat n).toLower =
          ((Char.ofNat n).isAlphanum || Char.ofNat n == '_' || Char.ofNat n == '$') := by decide
  by_cases hc : c.toNat < 0x80
  · have hn := hascii c.toNat hc
    rwa [Char.ofNat_toNat] at hn
  · have hle := Nat.not_lt.mp hc
    have halpha : c.isAlpha = (c.isUpper || c.isLower) := rfl
    have halphanum : c.isAlphanum = (c.isAlpha || c.isDigit) := rfl
    rw [toLower_of_le hle, isStart, isRest, halphanum, halpha, isUpper_of_le hle]
    exact ⟨rfl, rfl⟩

/-- **A plain identifier in lower case** is one in letters of either case. -/
theorem isPlain_lower (name : List Char) : isPlain (lower name) = isBare name := by
  cases name with
  | nil => rfl
  | cons c name =>
    have hall : (lower name).all isRest =
        name.all fun d => d.isAlphanum || d == '_' || d == '$' := by
      rw [lower, List.all_map]
      exact congrArg (name.all ·) (funext fun d => (isStart_toLower d).2)
    rw [lower, List.map_cons, isPlain, isBare, (isStart_toLower c).1, ← hall]
    rfl

/-- In lower case, the characters of a plain identifier are those that may follow in one. -/
theorem isRest_toLower_of_mem (h : isBare name = true) {c : Char} (hc : c ∈ name) :
    isRest c.toLower = true := by
  rw [← Bool.not_eq_false]
  exact fun hrest => not_mem_of_isPlain ((isPlain_lower name).trans h) hrest
    (List.mem_map_of_mem hc)

/-- A double quote has no letter case, so a text in lower case spells a name in lower case. -/
theorem Spells.lower (h : Spells text name) : Spells (lower text) (lower name) := by
  have hquotes : ∀ quote ∈ quotes, quote.map Char.toLower = quote := by decide
  obtain ⟨opening, hopen, closing, hclose, rfl⟩ := h
  refine ⟨opening, hopen, closing, hclose, ?_⟩
  rw [Text.lower, List.map_append, List.map_append, hquotes opening hopen, hquotes closing hclose]
  rfl

namespace IsIdentifier

/-- What an identifier spells in lower case. -/
theorem exists_isPlain (h : IsIdentifier text) :
    ∃ name, isPlain name = true ∧ Spells (lower text) name := by
  obtain ⟨name, hname, hspells⟩ := h
  exact ⟨lower name, (isPlain_lower name).trans hname, hspells.lower⟩

/-- **The characters of an identifier**: quotes, and those of plain ones. -/
theorem isRest_of_mem (h : IsIdentifier text) :
    ∀ c ∈ text, c = doubleQuote ∨ isRest c.toLower = true := by
  obtain ⟨name, hname, opening, hopen, closing, hclose, rfl⟩ := h
  have hquotes : ∀ quote ∈ quotes, ∀ c ∈ quote, c = doubleQuote := by decide
  intro c hc
  rcases List.mem_append.mp hc with hc | hc
  · rcases List.mem_append.mp hc with hc | hc
    · exact Or.inl (hquotes opening hopen c hc)
    · exact Or.inr (isRest_toLower_of_mem hname hc)
  · exact Or.inl (hquotes closing hclose c hc)

/-- An identifier is not empty. -/
theorem ne_nil (h : IsIdentifier text) : text ≠ [] := by
  rintro rfl
  obtain ⟨name, hname, hspells⟩ := h.exists_isPlain
  rw [← hspells.dropEnds_eq hname] at hname
  cases hname

/-- **The two tests for the name of a key agree** on identifiers: on the name as it is written,
and on its token. -/
theorem isKeyName_eq (h : IsIdentifier text) :
    Noise.isKeyName (text.map .char) = Identifier.isKeyName (String.ofList (lower text)) := by
  obtain ⟨name, hname, hspells⟩ := h.exists_isPlain
  have hchars : (text.map Glyph.char).map Glyph.toChar = text := by
    rw [List.map_map]
    exact List.map_id text
  have htoken : isName (lower text) = true := isName_iff.mpr ⟨name, hname, hspells⟩
  rw [Noise.isKeyName, hchars, ← Noise.dropQuotes_lower, hspells.dropQuotes_eq hname, isKeyName,
    String.toList_ofList, htoken, Bool.true_and, hspells.dropEnds_eq hname]

example :
    (["__pkey", "a$_pkey", "A_PKey", "\x22a_pkey", "a_pkey\x22"].all fun name =>
      Noise.isKeyName (name.toList.map .char)) ∧
    (["_pkey", "\x22_pkey\x22", "a_pkey$", "a_pkey1"].all fun name =>
      !Noise.isKeyName (name.toList.map .char)) := by decide

/-- **An identifier is one token.** -/
theorem ofText_eq (h : IsIdentifier text) :
    Token.ofText text = [String.ofList (lower text)] := by
  -- what means something to the tokens of a text is no character of an identifier
  have hmark : ∀ c ∈ text, Token.isBreak c = false ∧ c ∉ [';', ',', '(', ')'] := by
    have hno : ∀ d ∈ [',', ';', ' ', '\t', '\n', '\x0C', '\x0D', '(', ')'],
        d ≠ doubleQuote ∧ isRest d.toLower = false := by decide
    intro c hc
    have hout : c ∉ [',', ';', ' ', '\t', '\n', '\x0C', '\x0D', '(', ')'] := by
      intro hmem
      obtain ⟨hquote, hrest⟩ := hno c hmem
      rcases h.isRest_of_mem c hc with hq | hr
      · exact hquote hq
      · rw [hrest] at hr
        cases hr
    simp only [List.mem_cons, List.not_mem_nil, or_false, not_or] at hout
    simp [Token.isBreak, Token.isMarkChar, Token.isGap, hout]
  exact Token.ofText_paired (fun c hc => (hmark c hc).1) h.ne_nil
    (depth?_of_plain fun c hc => (hmark c hc).2)

end IsIdentifier

end Identifiers

namespace Noise

open Identifier (doubleQuote isRest)

/-! ### The head of a clause -/

/-- The characters of a plain identifier stand in the name of a constraint. -/
theorem isNameChar_of_isRest {c : Char} (h : isRest c = true) : isNameChar c := by
  have hascii : ∀ n < 0x80, isRest (Char.ofNat n) = true → isNameChar (Char.ofNat n) := by decide
  have hlt : c.toNat < 0x80 := by
    simp only [isRest, Bool.or_eq_true, beq_iff_eq] at h
    rcases h with ((hlower | hdigit) | rfl) | rfl
    · have hz : c.toNat ≤ 0x7A := of_decide_eq_true (Bool.and_eq_true_iff.mp hlower).2
      omega
    · have hnine : c.toNat ≤ 0x39 := (Char.isDigit_iff_toNat.mp hdigit).2
      omega
    · decide
    · decide
  have hn := hascii c.toNat hlt
  rw [Char.ofNat_toNat] at hn
  exact hn h

/-- An identifier has the form of a name in a clause. -/
theorem exists_clauseName {text : List Char} (h : IsIdentifier text) :
    ∃ name : ClauseName, name.text = text := by
  obtain ⟨chars, hchars, opening, hopen, closing, hclose, rfl⟩ := h
  have hquotes : ∀ quote ∈ quotes,
      ∃ stands : Bool, (if stands then [doubleQuote] else []) = quote := by
    simp [quotes]
  have hname : ∀ c ∈ chars, isNameChar c := by
    intro c hc
    rw [← isNameChar_toLower]
    exact isNameChar_of_isRest (isRest_toLower_of_mem hchars hc)
  have hne : chars ≠ [] := by
    rintro rfl
    cases hchars
  obtain ⟨isOpened, rfl⟩ := hquotes opening hopen
  obtain ⟨isPaired, rfl⟩ := hquotes closing hclose
  exact ⟨⟨isOpened, chars, isPaired, hne, hname⟩, by simp [ClauseName.text]⟩

/-- White space begins a tail, and the rest of the tail is behind it. -/
theorem clauseTail_blank {c : Char} (hc : isBlank c) (gs : List Glyph) :
    clauseTail true (.char c :: gs) = (clauseTail true gs).cons (.char c) := by
  have hends : endsTail c = false := by
    have hmarks : ∀ d, endsTail d = true → ¬isBlank d := by
      simp only [endsTail, Bool.or_eq_true, beq_iff_eq]
      rintro d ((((rfl | rfl) | rfl) | rfl) | rfl) <;> decide
    rw [← Bool.not_eq_true]
    exact fun h => hmarks c h hc
  have hletter : fold c ≠ 'e' := by
    rw [fold_of_isBlank hc]
    exact ne_of_isBlank hc (by decide)
  rw [clauseTail_char hends fun he => absurd he hletter, isWord_of_isBlank hc]
  rfl

/-- **The head of a constraint clause as it is written**: its keyword, in any letter case, and its
name, which is an identifier, with white space behind each of them. -/
structure ClauseHead where
  /-- The keyword. -/
  keyword : List Char
  /-- The white space behind the keyword. -/
  gap : List Char
  /-- The name of the constraint. -/
  name : List Char
  /-- The white space behind the name. -/
  blank : Char
  /-- It is the keyword, in any letter case. -/
  fold_keyword : keyword.map fold = clauseKeyword
  /-- There is white space behind the keyword. -/
  gap_ne_nil : gap ≠ []
  /-- It is white space. -/
  isBlank_of_mem : ∀ c ∈ gap, isBlank c
  /-- The name is an identifier. -/
  isIdentifier : IsIdentifier name
  /-- There is white space behind the name. -/
  isBlank_blank : isBlank blank

namespace ClauseHead

variable (head : ClauseHead)

/-- The text of a head. -/
def text : List Char :=
  head.keyword ++ (head.gap ++ (head.name ++ [head.blank]))

/-- The token of the name. -/
def token : String :=
  String.ofList (lower head.name)

/-- **The name in a clause is read whole**, and the clause goes on behind its head as far as a tail
goes. -/
theorem clause?_text (gs : List Glyph) :
    clause? true (head.text.map .char ++ gs) =
      some ⟨head.name.map .char, (clauseTail true gs).before (head.text.map .char)⟩ := by
  obtain ⟨name, hname⟩ := exists_clauseName head.isIdentifier
  have hbegins : ∀ c, (head.name.map Glyph.char ++ .char head.blank :: gs).head? = some (.char c) →
      ¬isBlank c := by
    obtain ⟨x, xs, htext, hx⟩ := name.text_eq_cons
    rw [← hname, htext]
    rintro c ⟨⟩
    exact hx
  have hread : constraintName (head.name.map .char ++ .char head.blank :: gs) =
      some ⟨head.name.map .char, .char head.blank :: gs⟩ := by
    rw [← hname]
    refine constraintName_before name ?_
    rintro c ⟨⟩
    exact endsName_of_isBlank head.isBlank_blank
  have htext : head.text.map Glyph.char ++ gs = head.keyword.map .char ++
      (head.gap.map .char ++ (head.name.map .char ++ .char head.blank :: gs)) := by
    simp [text]
  rw [htext, clause?_before head.fold_keyword head.isBlank_of_mem hbegins,
    if_neg head.gap_ne_nil, hread, Option.map_some]
  dsimp only
  rw [clauseTail_blank head.isBlank_blank]
  simp [Span.before, Span.cons, text]

/-- **A clause is one piece of noise**, at a word boundary. -/
theorem noise?_text (gs : List Glyph) :
    noise? true (head.text.map .char ++ gs) =
      some (.clause (head.name.map .char), (clauseTail true gs).before (head.text.map .char)) := by
  have hclause := head.clause?_text gs
  obtain ⟨x, xs, hwritten, hx, -⟩ := List.map_eq_cons_iff.mp head.fold_keyword
  have htext : head.text.map Glyph.char ++ gs =
      .char x :: ((xs ++ (head.gap ++ (head.name ++ [head.blank]))).map .char ++ gs) := by
    simp [text, hwritten]
  rw [htext] at hclause ⊢
  exact noise?_of_clause hx hclause

/-- **A head that tokens tell as well**: the keyword is written in ASCII letters, and all of the
white space separates words. -/
def SeparatesWords : Prop :=
  lower head.keyword = clauseKeyword ∧ ∀ c ∈ head.blank :: head.gap, Token.isGap c

instance : Decidable head.SeparatesWords :=
  inferInstanceAs (Decidable (_ ∧ _))

variable {head}

/-- **The tokens of such a head** are the word `constraint` and the name. -/
theorem SeparatesWords.tokenize_append (h : head.SeparatesWords) (bytes : List UInt8) :
    tokenize (bytesOf head.text ++ bytes) = "constraint" :: head.token :: tokenize bytes := by
  obtain ⟨hlower, hgaps⟩ := h
  obtain ⟨hblank, hgaps⟩ := List.forall_mem_cons.mp hgaps
  obtain ⟨c, gap, hgap⟩ := List.exists_cons_of_ne_nil head.gap_ne_nil
  rw [hgap] at hgaps
  obtain ⟨hc, hgaps⟩ := List.forall_mem_cons.mp hgaps
  have hkeyword : Token.ofText head.keyword = ["constraint"] := by
    have hword : Token.IsWord head.keyword := by
      have hno : ∀ c ∈ clauseKeyword, Token.isBreak c = false := by decide
      intro c hc
      rw [← Token.isBreak_toLower]
      exact hno _ (hlower ▸ List.mem_map_of_mem hc)
    rw [Token.ofText_word hword, hlower]
    rfl
  have htext : Token.ofText head.text = ["constraint", head.token] := by
    rw [text, hgap, List.cons_append, Token.ofText_append_gap hc, hkeyword,
      ofText_gaps_append hgaps, Token.ofText_append_gap hblank, head.isIdentifier.ofText_eq]
    rfl
  obtain ⟨b, hb, hbyte⟩ := Token.exists_encodeChar_of_isGap hblank
  have hends : Token.EndsInBlank (bytesOf head.text) :=
    ⟨bytesOf (head.keyword ++ (head.gap ++ head.name)), b, by simp [text, hbyte], hb⟩
  rw [Token.tokenize_append_of_endsInBlank hends, Token.tokenize_bytesOf, htext]
  rfl

end ClauseHead

end Noise

open Noise

/-- **What the name of a key is, clauses and tokens agree on.** Where the pass over a dump stands at
a word boundary in front of the head of a constraint clause, it reads the clause as one piece, and
the name of the clause is the name that is written. This name is one token. The clause stays as it
is if that is the token of a key, and goes as a whole if it is not; and behind the word
`constraint` the columns of a key are expected behind such a token only. Where tokens tell the head
as well, those of a clause that stays begin with that word and that token. -/
theorem keyName_stays_iff_read (head : ClauseHead) (behind : List Glyph) {dump : List UInt8}
    {before : List Piece} {sight : Sight} (hsight : sight.atBoundary = true)
    (hdump : piecesOf dump = before ++ pieces sight (head.text.map .char ++ behind)) :
    let tail := clauseTail true behind
    let clause := head.text.map .char ++ tail.text
    let front := encode (before.flatMap Piece.remains)
    let rest := stripFrom (sight.passAll clause) tail.rest
    tail.text ++ tail.rest = behind ∧
    piecesOf dump = before ++ .noise (.clause (head.name.map .char)) clause ::
      pieces (sight.passAll clause) tail.rest ∧
    ∃ token, tokenize (bytesOf head.name) = [token] ∧
      strip dump =
        front ++ encode ((if Identifier.isKeyName token then clause else []) ++ rest) ∧
      (∀ options scope draft,
        (step options (.constraint scope) draft token).outcome = .ok (.keyName scope) ↔
          Identifier.isKeyName token = true) ∧
      (head.SeparatesWords → (∀ b ∈ front.getLast?, Token.isBreakByte b = true) →
        Identifier.isKeyName token = true →
        tokensOf dump =
          tokenize front ++ "constraint" :: token :: tokenize (encode (tail.text ++ rest))) := by
  intro tail clause front rest
  have hpieces : pieces sight (head.text.map .char ++ behind) =
      .noise (.clause (head.name.map .char)) clause :: pieces (sight.passAll clause) tail.rest := by
    have hnoise : noise? sight.atBoundary (head.text.map .char ++ behind) =
        some (.clause (head.name.map .char), tail.before (head.text.map .char)) := by
      rw [hsight]
      exact head.noise?_text behind
    exact pieces_noise hnoise
  have hstrip : strip dump = front ++
      encode ((if Identifier.isKeyName head.token then clause else []) ++ rest) := by
    rw [strip, hdump, hpieces, List.flatMap_append, List.flatMap_cons, Piece.remains, Kind.remains,
      head.isIdentifier.isKeyName_eq, encode_append]
    rfl
  refine ⟨cuts_clauseTail true behind, by rw [hdump, hpieces], head.token, ?_, hstrip, ?_, ?_⟩
  · rw [Token.tokenize_bytesOf, head.isIdentifier.ofText_eq]
    rfl
  · intro options scope draft
    rw [step, readConstraint.eq_def]
    split
    · next hkey => exact ⟨fun _ => hkey, fun _ => rfl⟩
    · next hkey =>
      refine ⟨fun hgoto => ?_, fun h => absurd h hkey⟩
      cases scope <;> cases hgoto
  · intro hwords hfront hkey
    rw [tokensOf, hstrip, if_pos hkey, Token.tokenize_cutsAtBreaks.append_of_getLast hfront,
      List.append_assoc, encode_append]
    exact congrArg _ (hwords.tokenize_append _)

/-- A head in the usual spelling. -/
def sampleHead (name : List Char) (h : IsIdentifier name) : ClauseHead where
  keyword := "CONSTRAINT".toList
  gap := [' ']
  name := name
  blank := ' '
  fold_keyword := map_fold_constraint
  gap_ne_nil := singleBlank_ne_nil
  isBlank_of_mem := isBlank_of_mem_singleBlank
  isIdentifier := h
  isBlank_blank := isBlank_singleBlank

/-- Tokens tell it as well. -/
theorem separatesWords_sampleHead {name : List Char} (h : IsIdentifier name) :
    (sampleHead name h).SeparatesWords :=
  ⟨(by decide : lower "CONSTRAINT".toList = clauseKeyword),
    (by decide : ∀ c ∈ [' ', ' '], Token.isGap c)⟩

/-- A name with one quote and an underscore in front of its ending is that of a key, and the name
that is nothing but the ending is not. -/
theorem keyName_stays_iff_read_half_quoted :
    ∃ (key : IsIdentifier "\x22__PKey".toList) (other : IsIdentifier "_pkey".toList),
      tokensOf (bytesOf (sampleHead _ key).text) = ["constraint", "\x22__pkey"] ∧
      strip (bytesOf (sampleHead _ other).text) = [] := by
  have key : IsIdentifier "\x22__PKey".toList :=
    ⟨"__PKey".toList, by decide, [Identifier.doubleQuote], by decide, [], by decide, by decide⟩
  have other : IsIdentifier "_pkey".toList :=
    ⟨"_pkey".toList, by decide, [], by decide, [], by decide, by decide⟩
  have hdump : ∀ head : ClauseHead, piecesOf (bytesOf head.text) =
      [] ++ pieces .clear (head.text.map .char ++ []) := by
    intro head
    rw [piecesOf, decode_bytesOf, List.append_nil, List.nil_append]
  have hend : ∀ c ∈ ([] : List Char).head?, IsClauseEnd c :=
    fun _ h => absurd h (Option.not_mem_none _)
  have htail : clauseTail true [] = Span.nothing [] := clauseTail_end hend
  obtain ⟨-, -, token, htoken, -, -, htokens⟩ :=
    keyName_stays_iff_read (sampleHead _ key) [] rfl (hdump _)
  obtain ⟨-, -, token', htoken', hstrip, -, -⟩ :=
    keyName_stays_iff_read (sampleHead _ other) [] rfl (hdump _)
  rw [Token.tokenize_bytesOf] at htoken htoken'
  obtain rfl : "\x22__pkey" = token := List.singleton_inj.mp htoken
  obtain rfl : "_pkey" = token' := List.singleton_inj.mp htoken'
  have hfront : ∀ b ∈ (encode (([] : List Piece).flatMap Piece.remains)).getLast?,
      Token.isBreakByte b = true := fun _ h => absurd h (Option.not_mem_none _)
  refine ⟨key, other, ?_, ?_⟩
  · rw [htokens (separatesWords_sampleHead key) hfront (by decide), htail, Span.rest_nothing,
      stripFrom_nil]
    rfl
  · rw [hstrip, if_neg (by decide), htail, Span.rest_nothing, stripFrom_nil]
    rfl

end SqlCatalog
