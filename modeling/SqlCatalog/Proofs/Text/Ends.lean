import SqlCatalog.Proofs.Text.Lossy

/-!
# Texts between bytes

A text that stands in a dump has its own tokens there, whatever the bytes around it are, when
a word ends in front of it and behind it (`SqlCatalog.Token.tokenize_between`).

| what ends the word | is |
|---|---|
| in front of the text | an ASCII blank (`SqlCatalog.Token.EndsInBlank`) |
| behind it | a byte that separates words, or a closing bracket (`SqlCatalog.Token.EndsWord`) |

A closing bracket is no break, and it ends the word only if the brackets of the text pair up.
That makes the question one about characters, and it is answered for characters: the tokens of
bytes are those of their readable form (`SqlCatalog.Token.tokenize_eq_ofText`).
-/

namespace SqlCatalog

open Text

/-! ### The readable form -/

namespace Text

variable {bytes : List UInt8} {c : Char}

/-- **An ASCII character of the readable form** is a byte of the input. -/
theorem mem_of_mem_lossy (hc : c.toNat < 0x80) (h : c ∈ lossy bytes) :
    UInt8.ofNat c.toNat ∈ bytes := by
  obtain ⟨g, hg, rfl⟩ := List.mem_map.mp h
  cases g with
  | stray piece =>
    rw [Glyph.toChar] at hc
    exact absurd hc (by decide)
  | char c =>
    have hbyte : UInt8.ofNat c.toNat ∈ (Glyph.char c).bytes := by
      rcases encodeChar_cases c with ⟨-, henc⟩ | ⟨hle, -⟩
      · rw [Glyph.bytes, henc]
        exact List.mem_singleton_self _
      · exact absurd hc (Nat.not_lt.mpr hle)
    have hin : UInt8.ofNat c.toNat ∈ encode (decode bytes) := List.mem_flatMap.mpr ⟨_, hg, hbyte⟩
    rwa [encode_decode] at hin

end Text

namespace Token

variable {bytes front rest : List UInt8} {text : List Char} {b : UInt8}

/-- A character that separates words is one byte, which does so too. -/
theorem isBreakByte_of_isBreak {c : Char} (h : isBreak c) :
    c.toNat < 0x80 ∧ isBreakByte (UInt8.ofNat c.toNat) := by
  simp only [isBreak, isMarkChar, isGap, Bool.or_eq_true, beq_iff_eq] at h
  rcases h with (rfl | rfl) | (((rfl | rfl) | rfl) | rfl) | rfl <;> decide

/-- A byte that separates words is a character that does so, with the same tokens. -/
theorem isBreak_of_isBreakByte (h : isBreakByte b) :
    isBreak (Char.ofNat b.toNat) ∧
      (breakByteLexemes b).flatMap ofLexeme = breakTokens (Char.ofNat b.toNat) := by
  simp only [isBreakByte, isMark, isAsciiBlank, Bool.or_eq_true, beq_iff_eq] at h
  rcases h with (rfl | rfl) | (((rfl | rfl) | rfl) | rfl) | rfl <;> decide +kernel

/-- Bytes none of which separates words are read as a word. -/
theorem isWord_lossy (h : ∀ b ∈ bytes, isBreakByte b = false) : IsWord (lossy bytes) := by
  intro c hc
  rw [← Bool.not_eq_true]
  intro hbreak
  obtain ⟨hascii, hbyte⟩ := isBreakByte_of_isBreak hbreak
  rw [h _ (mem_of_mem_lossy hascii hc)] at hbyte
  cases hbyte

/-- **The tokens of an input** are those of its readable form. -/
theorem tokenize_eq_ofText (bytes : List UInt8) : tokenize bytes = ofText (lossy bytes) := by
  have hword : ∀ w, (∀ b ∈ w, isBreakByte b = false) → tokenize w = ofText (lossy w) := by
    intro w hw
    rw [tokenize, (lexemes_word hw).1, ofText_word (isWord_lossy hw), ← lossy_map_lowerByte]
    cases w with
    | nil =>
      rw [List.map_nil, lossy, decode]
      rfl
    | cons b w => rw [push, List.flatMap_singleton, ofLexeme]
  induction bytes using break_byte_induction with
  | word w hw => exact hword w hw
  | append w b rest hw hb ih =>
    obtain ⟨hbreak, htokens⟩ := isBreak_of_isBreakByte hb
    rw [tokenize_append hb, hword w hw, ih, htokens, lossy_append_ascii (of_isBreakByte hb).1,
      ofText_append hbreak]

/-! ### Brackets behind texts -/

/-- **A closing bracket is a token** behind a text without brackets, where commas and blanks may
stand. -/
theorem ofText_append_close_of_plain (h : ∀ c ∈ text, c ∉ [';', '(', ')']) (rest : List Char) :
    ofText (text ++ ')' :: rest) = ofText text ++ ")" :: ofText rest := by
  induction text using break_induction with
  | word w hw =>
    refine ofText_append_close (depth?_of_plain fun c hc => ?_) rest
    have hcomma : c ≠ ',' := by
      rintro rfl
      exact absurd (hw _ hc) (by decide)
    simpa [hcomma] using h c hc
  | append w c text hw hc ih =>
    have htext : ∀ d ∈ text, d ∉ [';', '(', ')'] := fun d hd =>
      h d (List.mem_append_right _ (List.mem_cons_of_mem _ hd))
    rw [List.append_assoc, List.cons_append, ofText_append hc, ofText_append hc, ih htext]
    simp only [List.append_assoc]

/-! ### Texts in inputs -/

/-- **An input that ends in an ASCII blank.** -/
def EndsInBlank (front : List UInt8) : Prop :=
  ∃ before b, front = before ++ [b] ∧ isAsciiBlank b = true

/-- **What ends the word in front of it**: a byte that separates words, or a closing bracket. -/
def EndsWord (rest : List UInt8) : Prop :=
  ∃ b tail, rest = b :: tail ∧ (isBreakByte b = true ∨ b = 0x29)

/-- The tokens behind a blank. -/
theorem tokenize_append_of_endsInBlank (h : EndsInBlank front) (rest : List UInt8) :
    tokenize (front ++ rest) = tokenize front ++ tokenize rest := by
  obtain ⟨before, b, rfl, hb⟩ := h
  have hbreak : isBreakByte b = true := by rw [isBreakByte, hb, Bool.or_true]
  have hnil : tokenize [] = [] := rfl
  rw [List.append_assoc, List.singleton_append, tokenize_append hbreak, tokenize_append hbreak,
    hnil, List.append_nil, List.append_assoc]

/-- **The tokens in front of the end of a word.** -/
theorem tokenize_bytesOf_append (h : IsPaired text) (hrest : EndsWord rest) :
    tokenize (bytesOf text ++ rest) = ofText text ++ tokenize rest := by
  obtain ⟨b, tail, rfl, hbreak | rfl⟩ := hrest
  · have hcut := tokenize_append hbreak [] tail
    rw [List.nil_append] at hcut
    rw [tokenize_append hbreak, hcut, tokenize_bytesOf]
    rfl
  · have hlossy : lossy (0x29 :: tail) = ')' :: lossy tail := by
      rw [lossy, decode_ascii_cons (by decide)]
      rfl
    have hclose : ofText (')' :: lossy tail) = ")" :: ofText (lossy tail) :=
      ofText_append_close (rfl : depth? 0 [] = some 0) (lossy tail)
    rw [tokenize_eq_ofText, tokenize_eq_ofText, lossy_bytesOf_append, hlossy,
      ofText_append_close h, hclose]

/-- **A text in an input** has its own tokens behind a blank and in front of the end of a word. -/
theorem tokenize_between (hfront : EndsInBlank front) (h : IsPaired text) (hrest : EndsWord rest) :
    tokenize (front ++ bytesOf text ++ rest) = tokenize front ++ ofText text ++ tokenize rest := by
  rw [List.append_assoc, tokenize_append_of_endsInBlank hfront, tokenize_bytesOf_append h hrest,
    List.append_assoc]

end Token

end SqlCatalog
