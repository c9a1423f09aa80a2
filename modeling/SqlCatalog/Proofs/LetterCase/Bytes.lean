import SqlCatalog.Noise.Sight
import SqlCatalog.Proofs.Text.Words

/-!
# Letter case in bytes, characters and glyphs

An upper-case ASCII letter and its lower-case form are told apart by no rule for bytes
or for characters. So it makes no difference whether an input is lower-cased before or
after it is read:

* the bytes that lead or continue a character past the ASCII part are no letters, hence
  reading glyphs commutes with lower-casing (`SqlCatalog.Text.decode_map_lowerByte`), and
  so does writing them down (`SqlCatalog.Text.encode_map_lower`);
* marks and blanks are no letters, and words are lower-cased anyway, hence a lower-cased
  input has the tokens of the input itself (`SqlCatalog.tokenize_map_lowerByte`).

Of a character three more things are asked: what it folds to, whether it is part of a
word and whether it is blank. None of them depends on letter case.
-/

namespace SqlCatalog

namespace Text

/-! ### Bytes -/

/-- A byte past the ASCII part is no letter. -/
theorem lowerByte_of_le {b : UInt8} (h : 0x80 ≤ b) : lowerByte b = b := by
  rw [lowerByte, if_neg]
  rintro ⟨-, hz⟩
  exact absurd (UInt8.le_trans h hz) (by decide)

/-- **What no letter case changes in a byte**: a function of bytes that gives the same for
the two cases of an ASCII byte does so for every byte. -/
theorem apply_lowerByte {α : Type} {f : UInt8 → α}
    (h : ∀ n < 0x80, f (lowerByte (UInt8.ofNat n)) = f (UInt8.ofNat n)) (b : UInt8) :
    f (lowerByte b) = f b := by
  by_cases hb : 0x80 ≤ b
  · rw [lowerByte_of_le hb]
  · have hn := h b.toNat (UInt8.lt_iff_toNat_lt.mp (UInt8.not_le.mp hb))
    rwa [UInt8.ofNat_toNat] at hn

/-- What is lower-cased is in lower case. -/
theorem lowerByte_lowerByte (b : UInt8) : lowerByte (lowerByte b) = lowerByte b :=
  apply_lowerByte (by decide) b

/-- Lower-casing stays in the ASCII part, and outside it. -/
theorem le_lowerByte_iff (b : UInt8) : 0x80 ≤ lowerByte b ↔ 0x80 ≤ b := by
  have h : decide (0x80 ≤ lowerByte b) = decide (0x80 ≤ b) :=
    @apply_lowerByte _ (fun b => decide (0x80 ≤ b)) (by decide) b
  exact decide_eq_decide.mp h

/-- A byte that continues a character is no letter. -/
theorem isContinuation_lowerByte (b : UInt8) :
    Noise.isContinuation (lowerByte b) = Noise.isContinuation b :=
  apply_lowerByte (by decide) b

/-- A byte that leads a longer character is no letter. -/
theorem following_lowerByte (lead : UInt8) : following (lowerByte lead) = following lead :=
  apply_lowerByte (by decide) lead

/-! ### Characters -/

/-- **What no letter case changes in a character**, in the same way. -/
theorem apply_toLower {α : Type} {f : Char → α}
    (h : ∀ n < 0x80, f (Char.ofNat n).toLower = f (Char.ofNat n)) (c : Char) :
    f c.toLower = f c := by
  by_cases hc : c.toNat < 0x80
  · have hn := h c.toNat hc
    rwa [Char.ofNat_toNat] at hn
  · rw [toLower_of_le (by omega)]

/-- Folding forgets letter case. -/
theorem fold_toLower (c : Char) : fold c.toLower = fold c :=
  apply_toLower (by decide) c

/-- The letters of a word are part of it in both cases. -/
theorem isWord_toLower (c : Char) : isWord c.toLower = isWord c := by
  rw [← (isWord_fold c.toLower).1, fold_toLower, (isWord_fold c).1]

/-- **No letter case in marks**: only the character itself has a character that is no word
character for its lower-case form. -/
theorem toLower_eq_iff_of_not_isWord {c d : Char} (hd : isWord d = false) :
    c.toLower = d ↔ c = d := by
  have hlower : d.toLower = d := by rw [← fold_eq_iff hd, fold_toLower, fold_eq_iff hd]
  constructor
  · intro h
    rw [← fold_eq_iff hd, ← fold_toLower, h, fold_eq_iff hd]
  · rintro rfl
    exact hlower

theorem beq_toLower {c d : Char} (hd : isWord d = false) : (c.toLower == d) = (c == d) := by
  rw [Bool.eq_iff_iff, beq_iff_eq, beq_iff_eq, toLower_eq_iff_of_not_isWord hd]

theorem bne_toLower {c d : Char} (hd : isWord d = false) : (c.toLower != d) = (c != d) := by
  rw [bne, bne, beq_toLower hd]

/-- No letter is blank. -/
theorem isBlank_toLower (c : Char) : isBlank c.toLower = isBlank c :=
  apply_toLower (by decide) c

/-- The two cases of a letter have one size. -/
theorem utf8Size_toLower (c : Char) : c.toLower.utf8Size = c.utf8Size := by
  rw [← String.length_utf8EncodeChar, ← map_lowerByte_encodeChar, List.length_map,
    String.length_utf8EncodeChar]

/-- What is lower-cased is in lower case. -/
theorem toLower_toLower (c : Char) : c.toLower.toLower = c.toLower :=
  apply_toLower (by decide) c

/-! ### Glyphs -/

/-- **The lower-case form of a glyph.** -/
def Glyph.lower : Glyph → Glyph
  | .char c => .char c.toLower
  | .stray bytes => .stray (bytes.map lowerByte)

@[simp] theorem Glyph.lower_char (c : Char) : (Glyph.char c).lower = .char c.toLower := rfl

@[simp] theorem Glyph.lower_stray (bytes : List UInt8) :
    (Glyph.stray bytes).lower = .stray (bytes.map lowerByte) := rfl

/-- A mark is the same glyph in both cases, and no other glyph becomes one. -/
theorem Glyph.lower_eq_char_iff {g : Glyph} {d : Char} (hd : isWord d = false) :
    g.lower = .char d ↔ g = .char d := by
  cases g with
  | char c => rw [lower_char, Glyph.char.injEq, Glyph.char.injEq, toLower_eq_iff_of_not_isWord hd]
  | stray bytes => simp only [lower_stray, reduceCtorEq]

theorem Glyph.toChar_lower (g : Glyph) : g.lower.toChar = g.toChar.toLower := by
  cases g with
  | char c => rfl
  | stray bytes => rfl

/-! ### Writing glyphs down -/

theorem Glyph.bytes_lower (g : Glyph) : g.lower.bytes = g.bytes.map lowerByte := by
  cases g with
  | char c => exact (map_lowerByte_encodeChar c).symm
  | stray bytes => rfl

/-- **Writing commutes with lower-casing.** -/
theorem encode_map_lower (gs : List Glyph) :
    encode (gs.map Glyph.lower) = (encode gs).map lowerByte := by
  induction gs with
  | nil => rfl
  | cons g gs ih =>
    rw [List.map_cons, encode_cons, encode_cons, List.map_append, Glyph.bytes_lower, ih]

/-! ### Reading glyphs -/

/-- The ranges of the bytes behind a lead lie past the ASCII part. -/
theorem le_of_mem_following {lead : UInt8} {ranges : List (UInt8 × UInt8)}
    (h : following lead = some ranges) : ∀ range ∈ ranges, 0x80 ≤ range.1 := by
  have hall : ranges.all (fun range => decide (0x80 ≤ range.1)) = true := by
    unfold following at h
    repeat' split at h
    all_goals cases h
    all_goals rfl
  intro range hmem
  exact of_decide_eq_true (List.all_eq_true.mp hall range hmem)

/-- What lies in such ranges is no letter, so lower-casing moves no byte into them or out of
them. -/
theorem takeRanges_map_lowerByte {ranges : List (UInt8 × UInt8)}
    (h : ∀ range ∈ ranges, 0x80 ≤ range.1) (bytes : List UInt8) :
    takeRanges ranges (bytes.map lowerByte) =
      ((takeRanges ranges bytes).1.map lowerByte, (takeRanges ranges bytes).2.map lowerByte) := by
  induction ranges generalizing bytes with
  | nil => rfl
  | cons range ranges ih =>
    obtain ⟨low, high⟩ := range
    obtain ⟨hlow, h⟩ := List.forall_mem_cons.mp h
    cases bytes with
    | nil => rfl
    | cons b bytes =>
      have hin : low ≤ lowerByte b ∧ lowerByte b ≤ high ↔ low ≤ b ∧ b ≤ high := by
        by_cases hb : 0x80 ≤ b
        · rw [lowerByte_of_le hb]
        · have hl : ¬0x80 ≤ lowerByte b := fun h => hb ((le_lowerByte_iff b).mp h)
          exact ⟨fun h => absurd (UInt8.le_trans hlow h.1) hl,
            fun h => absurd (UInt8.le_trans hlow h.1) hb⟩
      rw [List.map_cons, takeRanges, takeRanges]
      by_cases hb : low ≤ b ∧ b ≤ high
      · rw [if_pos hb, if_pos (hin.mpr hb), ih h]
        rfl
      · rw [if_neg hb, if_neg fun hl => hb (hin.mp hl)]
        rfl

/-- **The first glyph of a lower-cased input.** -/
theorem readGlyph_map_lowerByte (lead : UInt8) (bytes : List UInt8) :
    readGlyph (lowerByte lead) (bytes.map lowerByte) =
      ((readGlyph lead bytes).1.lower, (readGlyph lead bytes).2.map lowerByte) := by
  unfold readGlyph
  rw [following_lowerByte]
  cases hf : following lead with
  | none => rfl
  | some ranges =>
    dsimp only
    rw [takeRanges_map_lowerByte (le_of_mem_following hf)]
    dsimp only
    rw [List.length_map]
    by_cases hlen : (takeRanges ranges bytes).1.length = ranges.length
    · -- a character is known by its bytes
      have hlower : Fits ranges ((takeRanges ranges bytes).1.map lowerByte) := by
        have hfits := @fits_takeRanges ranges (bytes.map lowerByte)
        rw [takeRanges_map_lowerByte (le_of_mem_following hf), List.length_map] at hfits
        exact hfits hlen
      have hchar : assemble (lowerByte lead) ((takeRanges ranges bytes).1.map lowerByte) =
          (assemble lead (takeRanges ranges bytes).1).toLower := by
        refine encodeChar_injective ?_
        rw [encodeChar_assemble ((following_lowerByte lead).trans hf) hlower,
          ← map_lowerByte_encodeChar, encodeChar_assemble hf (fits_takeRanges hlen), List.map_cons]
      rw [if_pos hlen, if_pos hlen, hchar]
      rfl
    · rw [if_neg hlen, if_neg hlen]
      rfl

/-- **Reading commutes with lower-casing.** -/
theorem decode_map_lowerByte (bytes : List UInt8) :
    decode (bytes.map lowerByte) = (decode bytes).map Glyph.lower := by
  fun_induction decode bytes with
  | case1 => rw [List.map_nil, decode, List.map_nil]
  | case2 lead bytes ih => rw [List.map_cons, decode, readGlyph_map_lowerByte, ih, List.map_cons]

/-- So does the readable form. -/
theorem lossy_map_lowerByte (bytes : List UInt8) :
    lossy (bytes.map lowerByte) = lower (lossy bytes) := by
  rw [lossy, decode_map_lowerByte, lossy, lower, List.map_map, List.map_map]
  exact List.map_congr_left fun g _ => g.toChar_lower

end Text

/-! ### Tokens -/

namespace Token

open Text

theorem isMark_lowerByte (b : UInt8) : isMark (lowerByte b) = isMark b :=
  apply_lowerByte (by decide) b

theorem isAsciiBlank_lowerByte (b : UInt8) : isAsciiBlank (lowerByte b) = isAsciiBlank b :=
  apply_lowerByte (by decide) b

/-- A finished piece is empty in both cases or in none. -/
theorem push_map {α β : Type} (f : α → β) (piece : List α) (pieces : List (List α)) :
    push (piece.map f) (pieces.map (List.map f)) = (push piece pieces).map (List.map f) := by
  cases piece <;> rfl

/-- The lexemes of a lower-cased input. -/
theorem lexemesFrom_map_lowerByte (bytes : List UInt8) :
    lexemesFrom (bytes.map lowerByte) =
      ((lexemesFrom bytes).1.map lowerByte, (lexemesFrom bytes).2.map (List.map lowerByte)) := by
  induction bytes with
  | nil => rfl
  | cons b bytes ih =>
    simp only [List.map_cons, lexemesFrom, ih, isMark_lowerByte, isAsciiBlank_lowerByte, push_map]
    split
    · rfl
    · split
      · rfl
      · rfl

theorem lexemes_map_lowerByte (bytes : List UInt8) :
    lexemes (bytes.map lowerByte) = (lexemes bytes).map (List.map lowerByte) := by
  rw [lexemes, lexemesFrom_map_lowerByte, push_map, lexemes]

/-- The tokens of a lexeme are lower-cased as it is. -/
theorem ofLexeme_map_lowerByte (lexeme : List UInt8) :
    ofLexeme (lexeme.map lowerByte) = ofLexeme lexeme := by
  have hmap : (lexeme.map lowerByte).map lowerByte = lexeme.map lowerByte := by
    rw [List.map_map]
    exact List.map_congr_left fun b _ => lowerByte_lowerByte b
  rw [ofLexeme, hmap, ofLexeme]

end Token

/-- **Tokens have no letter case**: those of a lower-cased input are those of the input. -/
theorem tokenize_map_lowerByte (bytes : List UInt8) :
    tokenize (bytes.map Text.lowerByte) = tokenize bytes := by
  simp only [tokenize, Token.lexemes_map_lowerByte, List.flatMap_map, Token.ofLexeme_map_lowerByte]

end SqlCatalog
