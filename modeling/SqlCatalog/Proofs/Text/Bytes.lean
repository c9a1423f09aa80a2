import SqlCatalog.Text.Letter
import SqlCatalog.Text.Utf8.Lossless

/-!
# The bytes of a text

Dumps are bytes, but what is said about them here is said of texts, which are
lists of characters. `SqlCatalog.Text.bytesOf` are the bytes of a text, and
`SqlCatalog.Text.decode_bytesOf` reads them back: glyph for glyph the text, with
nothing stray in it.

No arithmetic is needed to find the characters again. The bytes that the
encoding of a character puts behind its first byte lie in the ranges of that
byte (`SqlCatalog.Text.fits_of_encodeChar`), so they are read as one character,
and since reading loses nothing it is one with the same encoding.
-/

namespace SqlCatalog

namespace Text

/-! ### Statements about the characters of a text

They are decided along the text, and not over all the characters there are. -/

section Decide

variable (p : Char → Prop) [DecidablePred p]

instance decidableForallMem (text : List Char) : Decidable (∀ c ∈ text, p c) :=
  List.decidableBAll p text

instance decidableExistsMem (text : List Char) : Decidable (∃ c ∈ text, p c) :=
  List.decidableBEx p text

instance decidableForallMemOption (last : Option Char) : Decidable (∀ c ∈ last, p c) :=
  Option.decidableForallMem last

end Decide

/-! ### Bytes -/

/-- **The bytes of a text** in UTF-8. -/
def bytesOf (text : List Char) : List UInt8 :=
  encode (text.map .char)

@[simp] theorem bytesOf_nil : bytesOf [] = [] := rfl

@[simp] theorem bytesOf_cons (c : Char) (text : List Char) :
    bytesOf (c :: text) = String.utf8EncodeChar c ++ bytesOf text := rfl

@[simp] theorem bytesOf_append (a b : List Char) : bytesOf (a ++ b) = bytesOf a ++ bytesOf b := by
  rw [bytesOf, List.map_append, encode_append]
  rfl

/-! ### One character -/

/-- Two characters with one encoding are one. -/
theorem encodeChar_injective {c d : Char} (h : String.utf8EncodeChar c = String.utf8EncodeChar d) :
    c = d := by
  have hc := @ByteArray.utf8DecodeChar?_utf8EncodeChar_append .empty c
  have hd := @ByteArray.utf8DecodeChar?_utf8EncodeChar_append .empty d
  rw [h] at hc
  exact Option.some.inj (hc.symm.trans hd)

/-- Bytes that lie in some ranges are read through all of them. -/
theorem takeRanges_of_fits {ranges : List (UInt8 × UInt8)} {tail : List UInt8}
    (h : Fits ranges tail) (rest : List UInt8) :
    tail.length = ranges.length ∧ takeRanges ranges (tail ++ rest) = (tail, rest) := by
  induction ranges generalizing tail with
  | nil =>
    obtain rfl := fits_nil.mp h
    exact ⟨rfl, rfl⟩
  | cons range ranges ih =>
    cases tail with
    | nil => exact h.elim
    | cons b tail =>
      obtain ⟨hlow, hhigh, h⟩ := h
      obtain ⟨hlen, htake⟩ := ih h
      refine ⟨congrArg (· + 1) hlen, ?_⟩
      rw [List.cons_append, takeRanges, if_pos ⟨hlow, hhigh⟩, htake]

/-- The range behind the first byte of a character of three bytes. -/
theorem following_three {lead b : UInt8} (hl : 0xE0 ≤ lead.toNat) (hl' : lead.toNat < 0xF0)
    (hb : 0x80 ≤ b.toNat) (hb' : b.toNat ≤ 0xBF) (hlow : lead.toNat = 0xE0 → 0xA0 ≤ b.toNat)
    (hsurr : lead.toNat = 0xED → b.toNat ≤ 0x9F) :
    ∃ range, following lead = some [range, continuation] ∧
      (range.1.toNat ≤ b.toNat ∧ b.toNat ≤ range.2.toNat) := by
  simp only [following, UInt8.lt_iff_toNat_lt, ← UInt8.toNat_inj, UInt8.reduceToNat]
  rw [if_neg (by omega), if_neg (by omega), if_neg (by omega)]
  by_cases h₁ : lead.toNat = 0xE0
  · exact ⟨_, if_pos h₁, hlow h₁, hb'⟩
  · rw [if_neg h₁]
    by_cases h₂ : lead.toNat = 0xED
    · exact ⟨_, if_pos h₂, hb, hsurr h₂⟩
    · rw [if_neg h₂, if_pos hl']
      exact ⟨_, rfl, hb, hb'⟩

/-- The range behind the first byte of a character of four bytes. -/
theorem following_four {lead b : UInt8} (hl : 0xF0 ≤ lead.toNat) (hl' : lead.toNat ≤ 0xF4)
    (hb : 0x80 ≤ b.toNat) (hb' : b.toNat ≤ 0xBF) (hlow : lead.toNat = 0xF0 → 0x90 ≤ b.toNat)
    (hhigh : lead.toNat = 0xF4 → b.toNat ≤ 0x8F) :
    ∃ range, following lead = some [range, continuation, continuation] ∧
      (range.1.toNat ≤ b.toNat ∧ b.toNat ≤ range.2.toNat) := by
  simp only [following, UInt8.lt_iff_toNat_lt, ← UInt8.toNat_inj, UInt8.reduceToNat]
  rw [if_neg (by omega), if_neg (by omega), if_neg (by omega), if_neg (by omega),
    if_neg (by omega), if_neg (by omega)]
  by_cases h₁ : lead.toNat = 0xF0
  · exact ⟨_, if_pos h₁, hlow h₁, hb'⟩
  · rw [if_neg h₁]
    by_cases h₂ : lead.toNat < 0xF4
    · exact ⟨_, if_pos h₂, hb, hb'⟩
    · rw [if_neg h₂, if_pos (by omega)]
      exact ⟨_, rfl, hb, hhigh (by omega)⟩

/-- **The encoding of a character** is a first byte and bytes that lie in the
ranges of that byte. -/
theorem fits_of_encodeChar (c : Char) :
    ∃ lead ranges tail, String.utf8EncodeChar c = lead :: tail ∧
      following lead = some ranges ∧ Fits ranges tail := by
  have hv : c.val.toNat.isValidChar := c.valid
  unfold Nat.isValidChar at hv
  unfold String.utf8EncodeChar
  generalize c.val.toNat = n at hv ⊢
  -- the numbers of the bytes, and the range of those behind the first one
  have hbyte : ∀ m, m < 256 → (UInt8.ofNat m).toNat = m := by
    intro m hm
    rw [UInt8.toNat_ofNat', Nat.mod_eq_of_lt hm]
  have hnext : ∀ m, continuation.1.toNat ≤ (UInt8.ofNat (m % 64 + 128)).toNat ∧
      (UInt8.ofNat (m % 64 + 128)).toNat ≤ continuation.2.toNat := by
    intro m
    rw [hbyte _ (by omega)]
    exact ⟨Nat.le_add_left _ _, by simp only [continuation, UInt8.reduceToNat]; omega⟩
  dsimp only
  by_cases h₁ : n ≤ 127
  · refine ⟨_, [], [], if_pos h₁, ?_, trivial⟩
    have hl := hbyte n (by omega)
    simp only [following, UInt8.lt_iff_toNat_lt, UInt8.reduceToNat]
    rw [if_pos (by omega)]
  rw [if_neg h₁]
  by_cases h₂ : n ≤ 2047
  · refine ⟨_, [continuation], _, if_pos h₂, ?_, fits_one.mpr ⟨_, rfl, hnext n⟩⟩
    have hl := hbyte (n / 64 % 32 + 192) (by omega)
    simp only [following, UInt8.lt_iff_toNat_lt, UInt8.reduceToNat]
    rw [if_neg (by omega), if_neg (by omega), if_pos (by omega)]
  rw [if_neg h₂]
  by_cases h₃ : n ≤ 65535
  · have hl := hbyte (n / 4096 % 16 + 224) (by omega)
    have hb := hbyte (n / 64 % 64 + 128) (by omega)
    obtain ⟨range, hf, hr⟩ := @following_three (UInt8.ofNat (n / 4096 % 16 + 224))
      (UInt8.ofNat (n / 64 % 64 + 128)) (by omega) (by omega) (by omega) (by omega) (by omega)
      (by omega)
    exact ⟨_, _, _, if_pos h₃, hf, fits_two.mpr ⟨_, _, rfl, hr, hnext n⟩⟩
  · have hl := hbyte (n / 262144 % 8 + 240) (by omega)
    have hb := hbyte (n / 4096 % 64 + 128) (by omega)
    obtain ⟨range, hf, hr⟩ := @following_four (UInt8.ofNat (n / 262144 % 8 + 240))
      (UInt8.ofNat (n / 4096 % 64 + 128)) (by omega) (by omega) (by omega) (by omega) (by omega)
      (by omega)
    exact ⟨_, _, _, if_neg h₃, hf, fits_three.mpr ⟨_, _, _, rfl, hr, hnext (n / 64), hnext n⟩⟩

/-- **A character is read from its encoding**, whatever follows. -/
theorem decode_encodeChar (c : Char) (rest : List UInt8) :
    decode (String.utf8EncodeChar c ++ rest) = .char c :: decode rest := by
  obtain ⟨lead, ranges, tail, hc, hf, hfits⟩ := fits_of_encodeChar c
  obtain ⟨hlen, htake⟩ := takeRanges_of_fits hfits rest
  have hread : readGlyph lead (tail ++ rest) = (.char (assemble lead tail), rest) := by
    rw [readGlyph, hf]
    dsimp only
    rw [htake, if_pos hlen]
  -- the character read has the encoding that it was read from
  have hd : assemble lead tail = c :=
    encodeChar_injective ((encodeChar_assemble hf hfits).trans hc.symm)
  rw [hc, List.cons_append, decode, hread, hd]

/-! ### A whole text -/

/-- **The bytes of a text are read as the text.** -/
@[simp] theorem decode_bytesOf (text : List Char) : decode (bytesOf text) = text.map .char := by
  induction text with
  | nil => rw [bytesOf_nil, decode, List.map_nil]
  | cons c text ih => rw [bytesOf_cons, decode_encodeChar, ih, List.map_cons]

/-- A text is its own readable form. -/
@[simp] theorem lossy_bytesOf (text : List Char) : lossy (bytesOf text) = text := by
  rw [lossy, decode_bytesOf, List.map_map]
  exact List.map_id text

/-! ### ASCII -/

/-- **An ASCII character** is one byte, and the bytes of any other are no ASCII
characters. -/
theorem encodeChar_cases (c : Char) :
    (c.toNat < 0x80 ∧ String.utf8EncodeChar c = [UInt8.ofNat c.toNat]) ∨
      (0x80 ≤ c.toNat ∧ ∀ b ∈ String.utf8EncodeChar c, 0x80 ≤ b.toNat) := by
  have hbyte : ∀ m b, 128 ≤ m → m < 256 → b = UInt8.ofNat m → 0x80 ≤ b.toNat := by
    rintro m b hm hm' rfl
    rw [UInt8.toNat_ofNat', Nat.mod_eq_of_lt hm']
    exact hm
  unfold String.utf8EncodeChar
  rw [Char.toNat]
  generalize c.val.toNat = n
  dsimp only
  by_cases h : n ≤ 127
  · exact Or.inl ⟨by omega, if_pos h⟩
  · refine Or.inr ⟨by omega, fun b hb => ?_⟩
    rw [if_neg h] at hb
    split at hb
    · simp only [List.mem_cons, List.not_mem_nil, or_false] at hb
      rcases hb with hb | hb <;> exact hbyte _ b (by omega) (by omega) hb
    split at hb
    · simp only [List.mem_cons, List.not_mem_nil, or_false] at hb
      rcases hb with hb | hb | hb <;> exact hbyte _ b (by omega) (by omega) hb
    · simp only [List.mem_cons, List.not_mem_nil, or_false] at hb
      rcases hb with hb | hb | hb | hb <;> exact hbyte _ b (by omega) (by omega) hb

/-- No capital stands past the ASCII part. -/
theorem isUpper_of_le {c : Char} (h : 0x80 ≤ c.toNat) : c.isUpper = false := by
  rw [← Bool.not_eq_true]
  intro hupper
  have hz : c.toNat ≤ 0x5A := (of_decide_eq_true hupper).2
  omega

/-- A character past the ASCII part has no other letter case here. -/
theorem toLower_of_le {c : Char} (h : 0x80 ≤ c.toNat) : c.toLower = c :=
  dif_neg (of_decide_eq_false (isUpper_of_le h))

/-- A character in front of the letters has no other letter case, and is that of
no letter. -/
theorem toLower_eq_iff {c d : Char} (hd : d.toNat < 0x41) : c.toLower = d ↔ c = d := by
  have hcase : c.toLower = c ∨ 0x41 ≤ c.toNat ∧ 0x41 ≤ c.toLower.toNat := by
    by_cases hc : c.toNat < 0x80
    · have hascii : ∀ n < 0x80, (Char.ofNat n).toLower = Char.ofNat n ∨
          0x41 ≤ (Char.ofNat n).toNat ∧ 0x41 ≤ (Char.ofNat n).toLower.toNat := by decide
      have hn := hascii c.toNat hc
      rwa [Char.ofNat_toNat] at hn
    · exact Or.inl (toLower_of_le (by omega))
  rcases hcase with h | ⟨h, h'⟩
  · rw [h]
  · constructor
    · rintro rfl
      omega
    · rintro rfl
      omega

/-- The letter case of a character is that of its bytes. -/
theorem map_lowerByte_encodeChar (c : Char) :
    (String.utf8EncodeChar c).map lowerByte = String.utf8EncodeChar c.toLower := by
  rcases encodeChar_cases c with ⟨hc, -⟩ | ⟨hc, hb⟩
  · have hascii : ∀ n < 128, (String.utf8EncodeChar (Char.ofNat n)).map lowerByte =
        String.utf8EncodeChar (Char.ofNat n).toLower := by decide
    have hn := hascii c.toNat hc
    rwa [Char.ofNat_toNat] at hn
  · rw [toLower_of_le hc]
    have hsame : ∀ b ∈ String.utf8EncodeChar c, lowerByte b = id b := by
      intro b hmem
      rw [lowerByte, if_neg]
      · rfl
      rintro ⟨-, hz⟩
      have hz' : b.toNat ≤ 0x5A := UInt8.le_iff_toNat_le.mp hz
      have := hb b hmem
      omega
    rw [List.map_congr_left hsame, List.map_id]

/-- **Letter case in the bytes of a text** is letter case in the text. -/
theorem map_lowerByte_bytesOf (text : List Char) :
    (bytesOf text).map lowerByte = bytesOf (lower text) := by
  induction text with
  | nil => rfl
  | cons c text ih =>
    rw [bytesOf_cons, List.map_append, map_lowerByte_encodeChar, ih]
    rfl

end Text

end SqlCatalog
