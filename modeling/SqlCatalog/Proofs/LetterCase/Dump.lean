import SqlCatalog.Parse
import SqlCatalog.Proofs.LetterCase.Bytes
import SqlCatalog.Proofs.Noise.Calm
import SqlCatalog.Proofs.Noise.Part

/-!
# Letter case in a dump

Two dumps that differ in the case of ASCII letters only are read alike
(`SqlCatalog.parse_eq_of_sameLetters`).

Tokens are in lower case, so most of this is about the noise, which is found before there
are tokens. Every rule for noise compares characters in one of three ways: it folds them,
it asks for their class, or it looks for a mark. None of these sees letter case, so a rule
reads of a lower-cased input just as much as of the input
(`SqlCatalog.Noise.noise?_lower`), and with it the pass as a whole: what is left of a
lower-cased dump is the lower-cased rest of the dump
(`SqlCatalog.Noise.strip_map_lowerByte`).
-/

namespace SqlCatalog

open Text

namespace Noise

/-! ### Spans -/

/-- **The lower-case form of a span.** -/
def Span.lower (s : Span) : Span :=
  ⟨s.text.map Glyph.lower, s.rest.map Glyph.lower⟩

@[simp] theorem Span.text_lower (s : Span) : s.lower.text = s.text.map Glyph.lower := rfl

@[simp] theorem Span.rest_lower (s : Span) : s.lower.rest = s.rest.map Glyph.lower := rfl

@[simp] theorem Span.lower_nothing (gs : List Glyph) :
    (nothing gs).lower = nothing (gs.map Glyph.lower) := rfl

@[simp] theorem Span.lower_cons (g : Glyph) (s : Span) :
    (s.cons g).lower = s.lower.cons g.lower := rfl

@[simp] theorem Span.lower_before (text : List Glyph) (s : Span) :
    (s.before text).lower = s.lower.before (text.map Glyph.lower) := by
  rw [before, lower, List.map_append]
  rfl

/-- What may be read with one glyph more in front, in lower case. -/
theorem Span.map_lower_cons (g : Glyph) (s : Option Span) :
    (s.map (cons g)).map lower = (s.map lower).map (cons g.lower) := by
  cases s <;> rfl

/-! ### Parts of rules -/

/-- A class of characters that holds both cases of a letter or none. -/
theorem takeChars_lower {p : Char → Bool} (hp : ∀ c : Char, p c.toLower = p c) (gs : List Glyph) :
    takeChars p (gs.map Glyph.lower) = (takeChars p gs).lower := by
  induction gs with
  | nil => rfl
  | cons g gs ih =>
    cases g with
    | stray bytes => rfl
    | char c =>
      rw [List.map_cons, Glyph.lower_char, takeChars, takeChars, hp]
      by_cases hc : p c
      · rw [if_pos hc, if_pos hc, ih]
        rfl
      · rw [if_neg hc, if_neg hc]
        rfl

/-- A mark that may come next. -/
theorem optionalChar_lower {c : Char} (hc : isWord c = false) (gs : List Glyph) :
    optionalChar c (gs.map Glyph.lower) = (optionalChar c gs).lower := by
  cases gs with
  | nil => rfl
  | cons g gs =>
    rw [List.map_cons, optionalChar, optionalChar]
    by_cases hg : g = .char c
    · rw [if_pos hg, if_pos ((Glyph.lower_eq_char_iff hc).mpr hg)]
      rfl
    · rw [if_neg hg, if_neg fun h => hg ((Glyph.lower_eq_char_iff hc).mp h)]
      rfl

/-- **Keywords are folded.** -/
theorem keyword_lower (word : List Char) (gs : List Glyph) :
    keyword word (gs.map Glyph.lower) = (keyword word gs).map Span.lower := by
  induction word generalizing gs with
  | nil => rfl
  | cons k word ih =>
    match gs with
    | [] => rfl
    | .stray _ :: _ => rfl
    | .char c :: gs =>
      rw [List.map_cons, Glyph.lower_char, keyword, keyword, fold_toLower]
      by_cases hk : fold c = k
      · rw [if_pos hk, if_pos hk, ih, Span.map_lower_cons]
        rfl
      · rw [if_neg hk, if_neg hk]
        rfl

/-- One reading after another. -/
theorem opened_lower {close : List Glyph → Option Span}
    (hclose : ∀ gs, close (gs.map Glyph.lower) = (close gs).map Span.lower) (word : List Char)
    (gs : List Glyph) :
    opened word close (gs.map Glyph.lower) = (opened word close gs).map Span.lower := by
  rw [opened, opened, keyword_lower]
  cases keyword word gs with
  | none => rfl
  | some s =>
    rw [Option.map_some, Option.bind_some, Option.bind_some, Span.rest_lower, hclose]
    cases close s.rest with
    | none => rfl
    | some t => simp

/-! ### Rules -/

theorem comment?_lower (gs : List Glyph) :
    comment? (gs.map Glyph.lower) = (comment? gs).map Span.lower := by
  refine opened_lower (fun gs => ?_) _ gs
  rw [takeChars_lower fun _ => bne_toLower (by decide), Option.map_some]

/-- A body ends where its delimiter does, which is folded. -/
theorem closeBody_lower (delim : List Char) (gs : List Glyph) :
    closeBody delim (gs.map Glyph.lower) = (closeBody delim gs).map Span.lower := by
  induction gs with
  | nil => rfl
  | cons g gs ih =>
    have hword := keyword_lower delim (g :: gs)
    rw [List.map_cons] at hword
    rw [List.map_cons, closeBody.eq_def, closeBody.eq_def delim (g :: gs)]
    dsimp only
    rw [hword]
    cases keyword delim (g :: gs) with
    | some s => rfl
    | none =>
      cases g with
      | stray bytes => rfl
      | char c =>
        dsimp only [Option.map_none, Glyph.lower_char]
        rw [ih, Span.map_lower_cons]
        rfl

theorem dollarBody?_lower (gs : List Glyph) :
    dollarBody? (gs.map Glyph.lower) = (dollarBody? gs).map Span.lower := by
  rw [dollarBody?, dollarBody?, List.map_findSome?]
  refine congrArg (List.findSome? · dollarTags) (funext fun tag => ?_)
  exact opened_lower (closeBody_lower _) _ gs

/-- Quotes and backslashes are marks. -/
theorem after_toLower (escapes : Bool) (c : Char) :
    Mood.after escapes c.toLower = Mood.after escapes c := by
  simp only [Mood.after, toLower_eq_iff_of_not_isWord (by decide : isWord quote = false),
    toLower_eq_iff_of_not_isWord (by decide : isWord backslash = false)]

theorem closeLiteral_lower (escapes : Bool) (mood : Mood) (gs : List Glyph) :
    closeLiteral escapes mood (gs.map Glyph.lower) =
      (closeLiteral escapes mood gs).map Span.lower := by
  induction gs generalizing mood with
  | nil => cases mood <;> rfl
  | cons g gs ih =>
    cases g with
    | stray bytes => cases mood <;> rfl
    | char c =>
      rw [List.map_cons, Glyph.lower_char]
      cases mood with
      | inside =>
        rw [closeLiteral, closeLiteral, after_toLower, ih, Span.map_lower_cons]
        rfl
      | escaped =>
        rw [closeLiteral, closeLiteral, ih, Span.map_lower_cons]
        rfl
      | closed =>
        rw [closeLiteral, closeLiteral]
        have hquote := @toLower_eq_iff_of_not_isWord c quote (by decide)
        by_cases hc : c = quote
        · rw [if_pos hc, if_pos (hquote.mpr hc), ih]
          cases closeLiteral escapes .inside gs <;> rfl
        · rw [if_neg hc, if_neg (mt hquote.mp hc)]
          rfl

theorem literal?_lower (atBoundary : Bool) (gs : List Glyph) :
    literal? atBoundary (gs.map Glyph.lower) = (literal? atBoundary gs).map Span.lower := by
  rw [literal?, literal?, opened_lower (closeLiteral_lower false .inside)]
  cases opened [quote] (closeLiteral false .inside) gs with
  | some s => rfl
  | none =>
    dsimp only [Option.map_none]
    cases atBoundary with
    | true => exact opened_lower (closeLiteral_lower true .inside) _ gs
    | false => rfl

/-- Brackets are marks. -/
theorem closeGroup_lower (depth level : Nat) (quoted : Bool) (gs : List Glyph) :
    closeGroup depth level quoted (gs.map Glyph.lower) =
      (closeGroup depth level quoted gs).map Span.lower := by
  induction gs generalizing level quoted with
  | nil => cases quoted <;> rfl
  | cons g gs ih =>
    cases g with
    | stray bytes => cases quoted <;> rfl
    | char c =>
      have hmark : ∀ d : Char, isWord d = false → (c.toLower = d ↔ c = d) :=
        fun d hd => toLower_eq_iff_of_not_isWord hd
      rw [List.map_cons, Glyph.lower_char]
      cases quoted with
      | true =>
        rw [closeGroup, closeGroup, bne_toLower (by decide), ih, Span.map_lower_cons]
        rfl
      | false =>
        simp only [closeGroup, hmark quote (by decide), hmark '(' (by decide),
          hmark ')' (by decide), ih]
        simp only [apply_ite (Option.map Span.lower), Span.map_lower_cons, Glyph.lower_char,
          Option.map_none, Option.map_some]
        rfl

theorem group_lower (depth : Nat) (gs : List Glyph) :
    group depth (gs.map Glyph.lower) = (group depth gs).map Span.lower :=
  opened_lower (closeGroup_lower depth 1 false) _ gs

theorem call?_lower (atBoundary : Bool) (gs : List Glyph) :
    call? atBoundary (gs.map Glyph.lower) = (call? atBoundary gs).map Span.lower := by
  cases atBoundary with
  | false => rfl
  | true =>
    rw [call?, call?, if_pos rfl, if_pos rfl, List.map_findSome?]
    refine congrArg (List.findSome? · volatileCalls) (funext fun name => ?_)
    exact opened_lower (group_lower maxNesting) _ gs

/-! ### Clauses -/

theorem isNameChar_toLower (c : Char) : isNameChar c.toLower = isNameChar c := by
  rw [isNameChar, isNameChar, isWord_toLower, beq_toLower (by decide), beq_toLower (by decide)]

theorem constraintName_lower (gs : List Glyph) :
    constraintName (gs.map Glyph.lower) = (constraintName gs).map Span.lower := by
  have hquote : isWord Identifier.doubleQuote = false := by decide
  unfold constraintName
  dsimp only
  rw [optionalChar_lower hquote, Span.rest_lower, takeChars_lower isNameChar_toLower,
    Span.rest_lower, optionalChar_lower hquote]
  simp only [Span.text_lower, List.map_eq_nil_iff]
  by_cases hname : (takeChars isNameChar (optionalChar Identifier.doubleQuote gs).rest).text = []
  · rw [if_pos hname, if_pos hname]
    rfl
  · rw [if_neg hname, if_neg hname, Option.map_some, Span.lower_before, Span.lower_before]

/-- A double quote has no letter case. -/
theorem dropQuotes_lower (text : List Char) :
    Identifier.dropQuotes (lower text) = lower (Identifier.dropQuotes text) := by
  rw [Identifier.dropQuotes, lower, List.filter_map, Identifier.dropQuotes, lower]
  refine congrArg (List.map Char.toLower) (List.filter_congr fun c _ => ?_)
  exact bne_toLower (by decide)

/-- **Whether a name is that of a primary key** is asked of its lower-case form. -/
theorem isKeyName_lower (name : List Glyph) :
    isKeyName (name.map Glyph.lower) = isKeyName name := by
  have hchars : (name.map Glyph.lower).map Glyph.toChar = lower (name.map Glyph.toChar) := by
    rw [lower, List.map_map, List.map_map]
    exact List.map_congr_left fun g _ => g.toChar_lower
  have hlower : ∀ text : List Char, lower (lower text) = lower text := by
    intro text
    rw [lower, lower, List.map_map]
    exact List.map_congr_left fun c _ => toLower_toLower c
  rw [isKeyName, hchars, dropQuotes_lower, hlower, isKeyName]

theorem tailPart?_lower (atBoundary : Bool) (gs : List Glyph) :
    tailPart? atBoundary (gs.map Glyph.lower) = (tailPart? atBoundary gs).map Span.lower := by
  rw [tailPart?, tailPart?, literal?_lower]
  cases literal? atBoundary gs with
  | some s => rfl
  | none => exact group_lower maxNesting gs

theorem endsTail_toLower (c : Char) : endsTail c.toLower = endsTail c := by
  simp only [endsTail, beq_toLower (by decide : isWord '(' = false),
    beq_toLower (by decide : isWord ')' = false), beq_toLower (by decide : isWord ',' = false),
    beq_toLower (by decide : isWord ';' = false), beq_toLower (by decide : isWord quote = false)]

/-- The tail of a clause ends at the same place. -/
theorem clauseTail_lower (atBoundary : Bool) (gs : List Glyph) :
    clauseTail atBoundary (gs.map Glyph.lower) = (clauseTail atBoundary gs).lower := by
  fun_induction clauseTail atBoundary gs with
  | case1 atBoundary gs s h ih =>
    have hl := tailPart?_lower atBoundary gs
    rw [h, Option.map_some] at hl
    rw [clauseTail_of_part hl, Span.rest_lower, ih, Span.lower_before]
    rfl
  | case2 atBoundary h =>
    rw [List.map_nil, clauseTail_of_none h (by simp)]
    rfl
  | case3 atBoundary bytes gs h =>
    have hl := tailPart?_lower atBoundary (.stray bytes :: gs)
    rw [h, Option.map_none, List.map_cons, Glyph.lower_stray] at hl
    rw [List.map_cons, Glyph.lower_stray, clauseTail_of_none hl (by simp)]
    rfl
  | case4 atBoundary c gs h hc =>
    have hl := tailPart?_lower atBoundary (.char c :: gs)
    rw [h, Option.map_none, List.map_cons, Glyph.lower_char] at hl
    rw [List.map_cons, Glyph.lower_char, clauseTail_of_char hl, endsTail_toLower, if_pos hc]
    rfl
  | case5 atBoundary c gs h hc ih =>
    have hl := tailPart?_lower atBoundary (.char c :: gs)
    rw [h, Option.map_none, List.map_cons, Glyph.lower_char] at hl
    rw [List.map_cons, Glyph.lower_char, clauseTail_of_char hl, endsTail_toLower, if_neg hc,
      isWord_toLower, ih]
    rfl

/-- **A clause is read alike**, and its name is as long. -/
theorem clause?_lower (atBoundary : Bool) (gs : List Glyph) :
    clause? atBoundary (gs.map Glyph.lower) =
      (clause? atBoundary gs).map fun c => ⟨c.name.map Glyph.lower, c.span.lower⟩ := by
  cases atBoundary with
  | false => rfl
  | true =>
    rw [clause?, clause?, if_pos rfl, if_pos rfl, keyword_lower]
    cases keyword clauseKeyword gs with
    | none => rfl
    | some word =>
      rw [Option.map_some, Option.bind_some, Option.bind_some]
      dsimp only
      rw [Span.rest_lower, takeChars_lower isBlank_toLower, Span.text_lower, Span.rest_lower,
        constraintName_lower]
      by_cases hgap : (takeChars isBlank word.rest).text = []
      · rw [if_pos hgap, if_pos (by rw [hgap]; rfl)]
        rfl
      · rw [if_neg hgap, if_neg (by rwa [List.map_eq_nil_iff])]
        cases constraintName (takeChars isBlank word.rest).rest with
        | none => rfl
        | some name =>
          simp only [Option.map_some, Span.rest_lower, clauseTail_lower, Span.text_lower,
            Span.lower_before]

/-! ### The pass -/

/-- **The lower-case form of a kind**, which keeps the name of a clause. -/
def Kind.lower : Kind → Kind
  | .clause name => .clause (name.map Glyph.lower)
  | kind => kind

/-- **Every rule for noise reads a lower-cased input as the input itself.** -/
theorem noise?_lower (atBoundary : Bool) (gs : List Glyph) :
    noise? atBoundary (gs.map Glyph.lower) =
      (noise? atBoundary gs).map fun m => (m.1.lower, m.2.lower) := by
  unfold noise?
  rw [literal?_lower]
  cases literal? atBoundary gs with
  | some s => rfl
  | none =>
  dsimp only [Option.map_none]
  rw [comment?_lower]
  cases comment? gs with
  | some s => rfl
  | none =>
  dsimp only [Option.map_none]
  rw [dollarBody?_lower]
  cases dollarBody? gs with
  | some s => rfl
  | none =>
  dsimp only [Option.map_none]
  rw [call?_lower]
  cases call? atBoundary gs with
  | some s => rfl
  | none =>
  dsimp only [Option.map_none]
  rw [clause?_lower]
  cases clause? atBoundary gs with
  | some c => rfl
  | none => rfl

/-- What is in sight has no letter case. -/
theorem pass_lower (sight : Sight) (g : Glyph) : sight.pass g.lower = sight.pass g := by
  cases g with
  | char c =>
    cases sight <;>
      rw [Glyph.lower_char, Sight.pass, Sight.pass, isWord_toLower, utf8Size_toLower]
  | stray bytes =>
    cases sight with
    | clear => simp [Sight.pass]
    | word reach =>
      rcases reach with _ | reach
      · simp [Sight.pass]
      rcases bytes with _ | ⟨b, _ | ⟨b', bytes⟩⟩
      · simp [Sight.pass]
      · rw [Glyph.lower_stray, List.map_singleton, Sight.pass, Sight.pass,
          isContinuation_lowerByte]
      · simp [Sight.pass]

theorem passAll_map_lower (sight : Sight) (gs : List Glyph) :
    sight.passAll (gs.map Glyph.lower) = sight.passAll gs := by
  induction gs generalizing sight with
  | nil => rfl
  | cons g gs ih => rw [List.map_cons, Sight.passAll_cons, Sight.passAll_cons, pass_lower, ih]

/-- What remains of noise is lower-cased with it. -/
theorem Kind.remains_lower (kind : Kind) (text : List Glyph) :
    kind.lower.remains (text.map Glyph.lower) = (kind.remains text).map Glyph.lower := by
  cases kind with
  | literal => rfl
  | clause name =>
    simp only [lower, remains, isKeyName_lower]
    split <;> rfl
  | comment | dollarBody | call => rfl

/-- **The pass over a lower-cased input** leaves what it leaves of the input, in lower
case. -/
theorem stripFrom_map_lower (sight : Sight) (gs : List Glyph) :
    stripFrom sight (gs.map Glyph.lower) = (stripFrom sight gs).map Glyph.lower := by
  fun_induction pieces sight gs with
  | case1 sight gs kind s h ih =>
    have hl := noise?_lower sight.atBoundary gs
    rw [h, Option.map_some] at hl
    rw [stripFrom_noise hl, stripFrom_noise h, Span.text_lower, Span.rest_lower,
      passAll_map_lower, ih, Kind.remains_lower, List.map_append]
  | case2 sight h => simp only [List.map_nil, stripFrom_nil]
  | case3 sight g gs h ih =>
    have hl := noise?_lower sight.atBoundary (g :: gs)
    rw [h, Option.map_none, List.map_cons] at hl
    rw [List.map_cons, stripFrom_cons hl, stripFrom_cons h, pass_lower, ih, List.map_cons]

/-- **The dump without its noise**, lower-cased before or after. -/
theorem strip_map_lowerByte (dump : List UInt8) :
    strip (dump.map lowerByte) = (strip dump).map lowerByte := by
  rw [strip, piecesOf, decode_map_lowerByte, strip, piecesOf, ← encode_map_lower]
  exact congrArg encode (stripFrom_map_lower .clear (decode dump))

end Noise

/-! ### Dumps in other letters -/

/-- **The tokens of a lower-cased dump** are those of the dump. -/
theorem tokensOf_map_lowerByte (dump : List UInt8) :
    tokensOf (dump.map lowerByte) = tokensOf dump := by
  rw [tokensOf, Noise.strip_map_lowerByte, tokenize_map_lowerByte, tokensOf]

/-- **Dumps that differ in letter case only**: they are equally long, and at every place
they have the same byte up to the case of an ASCII letter. -/
def SameLetters (a b : List UInt8) : Prop :=
  a.length = b.length ∧
    ∀ i (ha : i < a.length) (hb : i < b.length), lowerByte a[i] = lowerByte b[i]

variable {a b : List UInt8}

/-- Such dumps have one lower-case form. -/
theorem sameLetters_iff : SameLetters a b ↔ a.map lowerByte = b.map lowerByte := by
  constructor
  · rintro ⟨hlen, h⟩
    refine List.ext_getElem (by simpa using hlen) fun i ha hb => ?_
    rw [List.length_map] at ha hb
    simpa using h i ha hb
  · intro h
    refine ⟨by simpa using congrArg List.length h, fun i ha hb => ?_⟩
    have hi := List.getElem_of_eq h (by simpa using ha : i < (a.map lowerByte).length)
    simpa using hi

instance (a b : List UInt8) : Decidable (SameLetters a b) :=
  decidable_of_iff _ sameLetters_iff.symm

/-- **Letter case does not matter**: dumps that differ in letter case only have the same
outcome, be it a catalog or an error, and the same events. Nothing is asked of the bytes,
which need not be text. -/
theorem parse_eq_of_sameLetters (options : Options) (h : SameLetters a b) :
    parse options a = parse options b := by
  rw [parse, parse, ← tokensOf_map_lowerByte a, ← tokensOf_map_lowerByte b, sameLetters_iff.mp h]

/-- A dump with a stray byte and a letter past the ASCII part, in which letters stand in the
tag of a body, in front of an escape literal and in the name of a clause that is kept. -/
def loudDump : List UInt8 :=
  0xFF :: bytesOf "$Body$É$BODY$ T INT E'\\'', CONSTRAINT T_PKEY".toList

/-- The same dump in other letters. -/
def quietDump : List UInt8 :=
  0xFF :: bytesOf "$body$É$body$ t int e'\\'', constraint t_pkey".toList

theorem parse_loudDump :
    SameLetters loudDump quietDump ∧ parse {} loudDump = parse {} quietDump :=
  have h : SameLetters loudDump quietDump := by decide
  ⟨h, parse_eq_of_sameLetters {} h⟩

end SqlCatalog
