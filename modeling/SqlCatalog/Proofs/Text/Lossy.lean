import SqlCatalog.Proofs.LetterCase.Bytes
import SqlCatalog.Proofs.Text.Brackets

/-!
# Tokens of bytes that are no text

A dump is cut into words before its bytes are read as characters, so each word is read by
itself. Nothing goes wrong with that: the bytes that separate words are ASCII, and at an
ASCII byte a character or a stray piece ends, whatever it is
(`SqlCatalog.Text.decode_append_ascii`). Hence the tokens of an input hold the characters
of its readable form, each stray piece being one replacement character, but for blanks and
letter case (`SqlCatalog.Token.flatMap_toList_tokenize`).

| what the bytes begin with | the first glyph |
|---|---|
| a text | the first character of the text |
| a byte past the ASCII part | a character past it, or a stray piece that begins past it |
-/

namespace SqlCatalog

namespace Text

variable {a bytes rest : List UInt8} {b : UInt8}

/-! ### Texts in front of bytes -/

/-- **A text is read as it is**, whatever follows. -/
theorem decode_bytesOf_append (text : List Char) (rest : List UInt8) :
    decode (bytesOf text ++ rest) = text.map .char ++ decode rest := by
  induction text with
  | nil => rfl
  | cons c text ih =>
    rw [bytesOf_cons, List.append_assoc, decode_encodeChar, ih]
    rfl

theorem lossy_bytesOf_append (text : List Char) (rest : List UInt8) :
    lossy (bytesOf text ++ rest) = text ++ lossy rest := by
  rw [lossy, decode_bytesOf_append, List.map_append, List.map_map, lossy]
  exact congrArg (· ++ _) (List.map_id text)

/-- An ASCII byte is a character. -/
theorem decode_ascii_cons (hb : b < 0x80) (rest : List UInt8) :
    decode (b :: rest) = .char (Char.ofNat b.toNat) :: decode rest := by
  have hascii : ∀ n < 0x80, String.utf8EncodeChar (Char.ofNat n) = [UInt8.ofNat n] := by decide
  have hread := decode_encodeChar (Char.ofNat b.toNat) rest
  rwa [hascii _ (UInt8.lt_iff_toNat_lt.mp hb), UInt8.ofNat_toNat, List.singleton_append] at hread

/-- Characters only are a text. -/
theorem eq_bytesOf_of_decode {text : List Char} (h : decode bytes = text.map .char) :
    bytes = bytesOf text := by
  rw [← encode_decode bytes, h]
  rfl

/-! ### ASCII bytes -/

/-- The bytes that continue a character end in front of an ASCII byte. -/
theorem takeRanges_append_ascii {ranges : List (UInt8 × UInt8)} (h : ∀ r ∈ ranges, 0x80 ≤ r.1)
    (hb : b < 0x80) (a rest : List UInt8) :
    takeRanges ranges (a ++ b :: rest) =
      ((takeRanges ranges a).1, (takeRanges ranges a).2 ++ b :: rest) := by
  induction ranges generalizing a with
  | nil => rfl
  | cons range ranges ih =>
    obtain ⟨low, high⟩ := range
    obtain ⟨hlow, h⟩ := List.forall_mem_cons.mp h
    cases a with
    | nil =>
      have hout : ¬(low ≤ b ∧ b ≤ high) := fun hin =>
        UInt8.not_le.mpr hb (UInt8.le_trans hlow hin.1)
      exact if_neg hout
    | cons d a =>
      rw [List.cons_append, takeRanges, takeRanges]
      split
      · rw [ih h]
      · rfl

/-- So does the first glyph. -/
theorem readGlyph_append_ascii (lead : UInt8) (hb : b < 0x80) (a rest : List UInt8) :
    readGlyph lead (a ++ b :: rest) =
      ((readGlyph lead a).1, (readGlyph lead a).2 ++ b :: rest) := by
  unfold readGlyph
  cases hf : following lead with
  | none => rfl
  | some ranges =>
    dsimp only
    rw [takeRanges_append_ascii (le_of_mem_following hf) hb]
    dsimp only
    split
    · rfl
    · rfl

/-- **An ASCII byte cuts an input in two**, each part being read by itself. -/
theorem decode_append_ascii (hb : b < 0x80) (a rest : List UInt8) :
    decode (a ++ b :: rest) = decode a ++ .char (Char.ofNat b.toNat) :: decode rest := by
  fun_induction decode a with
  | case1 => exact decode_ascii_cons hb rest
  | case2 lead bytes ih => rw [List.cons_append, decode, readGlyph_append_ascii _ hb, ih]; rfl

theorem lossy_append_ascii (hb : b < 0x80) (a rest : List UInt8) :
    lossy (a ++ b :: rest) = lossy a ++ Char.ofNat b.toNat :: lossy rest := by
  rw [lossy, decode_append_ascii hb, List.map_append]
  rfl

/-! ### Bytes past the ASCII part -/

/-- A stray piece begins past the ASCII part. -/
theorem exists_of_stray_mem_decode {piece : List UInt8} (h : .stray piece ∈ decode bytes) :
    ∃ lead tail, piece = lead :: tail ∧ 0x80 ≤ lead := by
  have hfirst : ∀ lead bytes, (readGlyph lead bytes).1 = .stray piece →
      ∃ tail, piece = lead :: tail ∧ 0x80 ≤ lead := by
    intro lead bytes h
    rw [← UInt8.not_lt]
    by_cases hlead : lead < 0x80
    · -- an ASCII byte is a character by itself
      have hf : following lead = some [] := by rw [following, if_pos hlead]
      rw [readGlyph, hf] at h
      cases h
    · unfold readGlyph at h
      split at h
      · cases h
        exact ⟨[], rfl, hlead⟩
      · dsimp only at h
        split at h
        · cases h
        · cases h
          exact ⟨_, rfl, hlead⟩
  fun_induction decode bytes with
  | case1 => cases h
  | case2 lead bytes ih =>
    rcases List.mem_cons.mp h with h | h
    · obtain ⟨tail, hpiece⟩ := hfirst lead bytes h.symm
      exact ⟨lead, tail, hpiece⟩
    · exact ih h

/-- **A byte past the ASCII part begins no blank.** -/
theorem exists_lossy_cons (hb : 0x80 ≤ b) (rest : List UInt8) :
    ∃ c text, lossy (b :: rest) = c :: text ∧ Token.isGap c = false := by
  rw [lossy, decode]
  refine ⟨_, _, rfl, ?_⟩
  have hbytes := bytes_readGlyph b rest
  cases hg : (readGlyph b rest).1 with
  | stray piece => rfl
  | char c =>
    rw [hg] at hbytes
    rw [Glyph.toChar, ← Bool.not_eq_true]
    intro hgap
    obtain ⟨x, hx, hc⟩ := Token.exists_encodeChar_of_isGap hgap
    rw [Glyph.bytes, hc, List.singleton_append, List.cons.injEq] at hbytes
    obtain ⟨rfl, -⟩ := hbytes
    have hblank := (Token.isMark_isAsciiBlank_of_le (UInt8.le_iff_toNat_le.mp hb)).2
    exact Bool.false_ne_true (hblank.symm.trans hx)

end Text

/-! ### The characters of the tokens -/

namespace Token

open Text

/-- The tokens of a lexeme hold its characters, in lower case. -/
theorem flatMap_toList_ofLexeme (lexeme : List UInt8) :
    (ofLexeme lexeme).flatMap String.toList = lower (lossy lexeme) := by
  rw [ofLexeme, lossy_map_lowerByte, List.flatMap_map]
  simp [flatten_splitLoose]

/-- Whether a byte separates words. -/
def isBreakByte (b : UInt8) : Bool :=
  isMark b || isAsciiBlank b

/-- The lexemes of a byte that separates words. -/
def breakByteLexemes (b : UInt8) : List (List UInt8) :=
  if isMark b then [[b]] else []

/-- **A byte that separates words cuts an input in two.** -/
theorem lexemes_append {b : UInt8} (hb : isBreakByte b) (a rest : List UInt8) :
    lexemes (a ++ b :: rest) = lexemes a ++ (breakByteLexemes b ++ lexemes rest) := by
  have hfrom : lexemesFrom (a ++ b :: rest) =
      ((lexemesFrom a).1, (lexemesFrom a).2 ++ (breakByteLexemes b ++ lexemes rest)) := by
    induction a with
    | nil =>
      simp only [List.nil_append, lexemesFrom, breakByteLexemes, lexemes]
      by_cases hm : isMark b
      · simp only [hm, if_true, List.cons_append, List.nil_append]
      · have hblank : isAsciiBlank b := by simpa [isBreakByte, hm] using hb
        simp only [hm, hblank, if_true, Bool.false_eq_true, if_false, List.nil_append]
    | cons d a ih =>
      rw [List.cons_append, lexemesFrom, lexemesFrom, ih]
      dsimp only
      split
      · simp only [push_append, List.cons_append]
      · split
        · simp only [push_append]
        · rfl
  rw [lexemes, hfrom, push_append]
  rfl

/-- The tokens on both sides of such a byte. -/
theorem tokenize_append {b : UInt8} (hb : isBreakByte b) (a rest : List UInt8) :
    tokenize (a ++ b :: rest) =
      tokenize a ++ ((breakByteLexemes b).flatMap ofLexeme ++ tokenize rest) := by
  simp only [tokenize, lexemes_append hb, List.flatMap_append]

/-- A byte that separates words is an ASCII byte, and a token of one character if it is no
blank. -/
theorem of_isBreakByte {b : UInt8} (hb : isBreakByte b) :
    b < 0x80 ∧ ((breakByteLexemes b).flatMap ofLexeme).flatMap String.toList =
      lower ([Char.ofNat b.toNat].filter fun c => !isGap c) := by
  simp only [isBreakByte, isMark, isAsciiBlank, Bool.or_eq_true, beq_iff_eq] at hb
  rcases hb with (rfl | rfl) | (((rfl | rfl) | rfl) | rfl) | rfl <;> decide +kernel

/-- **Bytes by their breaks**: what holds for bytes none of which separates words, and for
such bytes and one that does in front of an input for which it holds, holds for every
input. -/
theorem break_byte_induction {P : List UInt8 → Prop}
    (word : ∀ w, (∀ b ∈ w, isBreakByte b = false) → P w)
    (append : ∀ w b rest, (∀ b ∈ w, isBreakByte b = false) → isBreakByte b → P rest →
      P (w ++ b :: rest)) (bytes : List UInt8) : P bytes := by
  -- the word that has been read of the input so far stands in front of it
  have h : ∀ bytes w, (∀ b ∈ w, isBreakByte b = false) → P (w ++ bytes) := by
    intro bytes
    induction bytes with
    | nil =>
      intro w hw
      rw [List.append_nil]
      exact word w hw
    | cons b bytes ih =>
      intro w hw
      by_cases hb : isBreakByte b
      · exact append w b bytes hw hb (ih [] nofun)
      · rw [List.append_cons]
        refine ih (w ++ [b]) fun d hd => ?_
        rcases List.mem_append.mp hd with hd | hd
        · exact hw d hd
        · rw [List.mem_singleton.mp hd]
          exact Bool.not_eq_true _ ▸ hb
  exact h bytes [] nofun

/-- Bytes none of which separates words are one lexeme, without blanks. -/
theorem lexemes_word {w : List UInt8} (h : ∀ b ∈ w, isBreakByte b = false) :
    lexemes w = push w [] ∧ ∀ c ∈ lossy w, isGap c = false := by
  have hbytes : ∀ b ∈ w, isMark b = false ∧ isAsciiBlank b = false := fun b hb =>
    Bool.or_eq_false_iff.mp (h b hb)
  refine ⟨?_, fun c hc => ?_⟩
  · have hfrom := lexemesFrom_append hbytes []
    rw [List.append_nil] at hfrom
    rw [lexemes, hfrom, lexemesFrom, List.append_nil]
  · obtain ⟨g, hg, rfl⟩ := List.mem_map.mp hc
    cases g with
    | stray piece => rfl
    | char c =>
      rw [Glyph.toChar, ← Bool.not_eq_true]
      intro hgap
      obtain ⟨x, hx, hc⟩ := exists_encodeChar_of_isGap hgap
      have hbyte : x ∈ (Glyph.char c).bytes := by
        rw [Glyph.bytes, hc]
        exact List.mem_singleton_self x
      have hin : x ∈ encode (decode w) := List.mem_flatMap.mpr ⟨_, hg, hbyte⟩
      rw [encode_decode] at hin
      exact Bool.false_ne_true ((hbytes x hin).2.symm.trans hx)

/-- **The tokens of an input hold the characters of its readable form**, but for blanks and
letter case. -/
theorem flatMap_toList_tokenize (bytes : List UInt8) :
    (tokenize bytes).flatMap String.toList = lower ((lossy bytes).filter fun c => !isGap c) := by
  have hword : ∀ w, (∀ b ∈ w, isBreakByte b = false) →
      (tokenize w).flatMap String.toList = lower ((lossy w).filter fun c => !isGap c) := by
    intro w hw
    obtain ⟨hlexemes, hgap⟩ := lexemes_word hw
    have hkeep : (lossy w).filter (fun c => !isGap c) = lossy w :=
      List.filter_eq_self.mpr fun c hc => by rw [hgap c hc, Bool.not_false]
    rw [tokenize, hlexemes, hkeep]
    cases w with
    | nil =>
      rw [lossy, decode]
      rfl
    | cons b w => rw [push, List.flatMap_singleton, flatMap_toList_ofLexeme]
  induction bytes using break_byte_induction with
  | word w hw => exact hword w hw
  | append w b rest hw hb ih =>
    obtain ⟨hascii, htokens⟩ := of_isBreakByte hb
    rw [tokenize_append hb, List.flatMap_append, List.flatMap_append, hword w hw, ih, htokens,
      lossy_append_ascii hascii, List.append_cons, List.filter_append, List.filter_append,
      List.append_assoc]
    simp only [lower, List.map_append]

end Token

end SqlCatalog
