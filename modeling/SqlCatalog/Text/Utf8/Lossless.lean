import SqlCatalog.Text.Utf8

/-!
# Reading bytes loses nothing

`SqlCatalog.Text.decode` cuts an input into characters and stray pieces, and
`SqlCatalog.Text.encode` writes them down again. The two meet in
`SqlCatalog.Text.encode_decode`: the glyphs of an input have exactly the bytes
of the input.

For a stray piece this is plain, since it keeps its bytes. For a character it
is arithmetic: the bits that `SqlCatalog.Text.assemble` collects from the bytes
are the bits that the encoding of the character spreads over them, and the
ranges of `SqlCatalog.Text.following` are those in which no shorter encoding
exists.
-/

namespace SqlCatalog

namespace Text

/-! ### Bytes in their ranges -/

/-- Some bytes lie in some ranges, one byte in each. -/
def Fits : List (UInt8 × UInt8) → List UInt8 → Prop
  | [], [] => True
  | (low, high) :: ranges, b :: bytes => low ≤ b ∧ b ≤ high ∧ Fits ranges bytes
  | _, _ => False

/-- What is read through all of the ranges lies in them. -/
theorem fits_takeRanges {ranges : List (UInt8 × UInt8)} {bytes : List UInt8}
    (h : (takeRanges ranges bytes).1.length = ranges.length) :
    Fits ranges (takeRanges ranges bytes).1 := by
  induction ranges generalizing bytes with
  | nil => trivial
  | cons r ranges ih =>
    obtain ⟨low, high⟩ := r
    cases bytes with
    | nil => simp [takeRanges] at h
    | cons b bytes =>
      rw [takeRanges] at h ⊢
      split at h
      · next hb =>
        rw [if_pos hb]
        exact ⟨hb.1, hb.2, ih (by simpa using h)⟩
      · simp at h

theorem fits_nil {tail : List UInt8} : Fits [] tail ↔ tail = [] := by
  cases tail <;> simp [Fits]

theorem fits_cons {r : UInt8 × UInt8} {ranges : List (UInt8 × UInt8)} {tail : List UInt8} :
    Fits (r :: ranges) tail ↔ ∃ b bytes, tail = b :: bytes ∧
      (r.1.toNat ≤ b.toNat ∧ b.toNat ≤ r.2.toNat) ∧ Fits ranges bytes := by
  cases tail with
  | nil => simp [Fits]
  | cons b bytes => simp [Fits, UInt8.le_iff_toNat_le, and_assoc]

theorem fits_one {r : UInt8 × UInt8} {tail : List UInt8} :
    Fits [r] tail ↔ ∃ b, tail = [b] ∧ (r.1.toNat ≤ b.toNat ∧ b.toNat ≤ r.2.toNat) := by
  simp [fits_cons, fits_nil]

theorem fits_two {r q : UInt8 × UInt8} {tail : List UInt8} :
    Fits [r, q] tail ↔ ∃ b c, tail = [b, c] ∧ (r.1.toNat ≤ b.toNat ∧ b.toNat ≤ r.2.toNat) ∧
      (q.1.toNat ≤ c.toNat ∧ c.toNat ≤ q.2.toNat) := by
  simp only [fits_cons, fits_nil]
  constructor
  · rintro ⟨b, _, rfl, hb, c, _, rfl, hc, rfl⟩
    exact ⟨b, c, rfl, hb, hc⟩
  · rintro ⟨b, c, rfl, hb, hc⟩
    exact ⟨b, _, rfl, hb, c, _, rfl, hc, rfl⟩

theorem fits_three {r q p : UInt8 × UInt8} {tail : List UInt8} :
    Fits [r, q, p] tail ↔ ∃ b c d, tail = [b, c, d] ∧
      (r.1.toNat ≤ b.toNat ∧ b.toNat ≤ r.2.toNat) ∧ (q.1.toNat ≤ c.toNat ∧ c.toNat ≤ q.2.toNat) ∧
      (p.1.toNat ≤ d.toNat ∧ d.toNat ≤ p.2.toNat) := by
  rw [fits_cons]
  constructor
  · rintro ⟨b, _, rfl, hb, h⟩
    obtain ⟨c, d, rfl, hc, hd⟩ := fits_two.1 h
    exact ⟨b, c, d, rfl, hb, hc, hd⟩
  · rintro ⟨b, c, d, rfl, hb, hc, hd⟩
    exact ⟨b, _, rfl, hb, fits_two.2 ⟨c, d, rfl, hc, hd⟩⟩

/-! ### One character -/

theorem toNat_ofNat_of_isValidChar {n : Nat} (h : n.isValidChar) : (Char.ofNat n).toNat = n := by
  rw [Char.ofNat, dif_pos h]
  rfl

theorem ofNat_eq_of_eq_toNat {n : Nat} {b : UInt8} (h : n = b.toNat) : UInt8.ofNat n = b := by
  subst h
  exact UInt8.ofNat_toNat

/-- The encoding of a character of two bytes. -/
theorem encodeChar_two {lead b : UInt8} (hl : 0xC2 ≤ lead.toNat) (hl' : lead.toNat < 0xE0)
    (hb : 0x80 ≤ b.toNat) (hb' : b.toNat ≤ 0xBF) :
    String.utf8EncodeChar (assemble lead [b]) = [lead, b] := by
  have hv : (lead.toNat % 32 * 64 + b.toNat % 64).isValidChar := by
    unfold Nat.isValidChar
    omega
  have hn : (assemble lead [b]).val.toNat = lead.toNat % 32 * 64 + b.toNat % 64 :=
    toNat_ofNat_of_isValidChar hv
  rw [String.utf8EncodeChar, hn]
  rw [if_neg (by omega), if_pos (by omega), ofNat_eq_of_eq_toNat (b := lead) (by omega),
    ofNat_eq_of_eq_toNat (b := b) (by omega)]

/-- The encoding of a character of three bytes. -/
theorem encodeChar_three {lead b c : UInt8} (hl : 0xE0 ≤ lead.toNat) (hl' : lead.toNat < 0xF0)
    (hb : 0x80 ≤ b.toNat) (hb' : b.toNat ≤ 0xBF) (hc : 0x80 ≤ c.toNat) (hc' : c.toNat ≤ 0xBF)
    (hlow : lead.toNat = 0xE0 → 0xA0 ≤ b.toNat) (hsurr : lead.toNat = 0xED → b.toNat ≤ 0x9F) :
    String.utf8EncodeChar (assemble lead [b, c]) = [lead, b, c] := by
  have hv : ((lead.toNat % 16 * 64 + b.toNat % 64) * 64 + c.toNat % 64).isValidChar := by
    unfold Nat.isValidChar
    omega
  have hn : (assemble lead [b, c]).val.toNat =
      (lead.toNat % 16 * 64 + b.toNat % 64) * 64 + c.toNat % 64 :=
    toNat_ofNat_of_isValidChar hv
  rw [String.utf8EncodeChar, hn]
  rw [if_neg (by omega), if_neg (by omega), if_pos (by omega),
    ofNat_eq_of_eq_toNat (b := lead) (by omega), ofNat_eq_of_eq_toNat (b := b) (by omega),
    ofNat_eq_of_eq_toNat (b := c) (by omega)]

/-- The encoding of a character of four bytes. -/
theorem encodeChar_four {lead b c d : UInt8} (hl : 0xF0 ≤ lead.toNat) (hl' : lead.toNat ≤ 0xF4)
    (hb : 0x80 ≤ b.toNat) (hb' : b.toNat ≤ 0xBF) (hc : 0x80 ≤ c.toNat) (hc' : c.toNat ≤ 0xBF)
    (hd : 0x80 ≤ d.toNat) (hd' : d.toNat ≤ 0xBF)
    (hlow : lead.toNat = 0xF0 → 0x90 ≤ b.toNat) (hhigh : lead.toNat = 0xF4 → b.toNat ≤ 0x8F) :
    String.utf8EncodeChar (assemble lead [b, c, d]) = [lead, b, c, d] := by
  have hv : (((lead.toNat % 8 * 64 + b.toNat % 64) * 64 + c.toNat % 64) * 64
      + d.toNat % 64).isValidChar := by
    unfold Nat.isValidChar
    omega
  have hn : (assemble lead [b, c, d]).val.toNat =
      ((lead.toNat % 8 * 64 + b.toNat % 64) * 64 + c.toNat % 64) * 64 + d.toNat % 64 :=
    toNat_ofNat_of_isValidChar hv
  rw [String.utf8EncodeChar, hn]
  rw [if_neg (by omega), if_neg (by omega), if_neg (by omega),
    ofNat_eq_of_eq_toNat (b := lead) (by omega), ofNat_eq_of_eq_toNat (b := b) (by omega),
    ofNat_eq_of_eq_toNat (b := c) (by omega), ofNat_eq_of_eq_toNat (b := d) (by omega)]

/-- The encoding of a character of one byte. -/
theorem encodeChar_one {lead : UInt8} (hl : lead.toNat < 0x80) :
    String.utf8EncodeChar (assemble lead []) = [lead] := by
  have hv : lead.toNat.isValidChar := by
    unfold Nat.isValidChar
    omega
  have hn : (assemble lead []).val.toNat = lead.toNat := toNat_ofNat_of_isValidChar hv
  rw [String.utf8EncodeChar, hn, if_pos (by omega), UInt8.ofNat_toNat]

/-- **A character is written down as it was read**: the encoding of what is
assembled from a lead byte and bytes that lie in its ranges. -/
theorem encodeChar_assemble {lead : UInt8} {ranges : List (UInt8 × UInt8)} {tail : List UInt8}
    (h : following lead = some ranges) (hfits : Fits ranges tail) :
    String.utf8EncodeChar (assemble lead tail) = lead :: tail := by
  unfold following continuation at h
  simp only [UInt8.lt_iff_toNat_lt, ← UInt8.toNat_inj, UInt8.reduceToNat] at h
  repeat' split at h
  all_goals cases h
  · obtain rfl := fits_nil.1 hfits
    exact encodeChar_one ‹_›
  · obtain ⟨b, rfl, hb⟩ := fits_one.1 hfits
    exact encodeChar_two (by omega) (by omega) hb.1 hb.2
  all_goals
    first
    | obtain ⟨b, c, rfl, hb, hc⟩ := fits_two.1 hfits
      simp only [UInt8.reduceToNat] at hb hc
      exact encodeChar_three (by omega) (by omega) (by omega) (by omega) (by omega) (by omega)
        (by omega) (by omega)
    | obtain ⟨b, c, d, rfl, hb, hc, hd⟩ := fits_three.1 hfits
      simp only [UInt8.reduceToNat] at hb hc hd
      exact encodeChar_four (by omega) (by omega) (by omega) (by omega) (by omega) (by omega)
        (by omega) (by omega) (by omega) (by omega)

/-! ### The whole input -/

/-- The first glyph has the bytes that it was read from. -/
theorem bytes_readGlyph (lead : UInt8) (bytes : List UInt8) :
    (readGlyph lead bytes).1.bytes ++ (readGlyph lead bytes).2 = lead :: bytes := by
  unfold readGlyph
  split
  · rfl
  · next ranges h =>
    have happ := takeRanges_append ranges bytes
    dsimp only
    split
    · next hlen =>
      rw [Glyph.bytes, encodeChar_assemble h (fits_takeRanges hlen), List.cons_append, happ]
    · rw [Glyph.bytes, List.cons_append, happ]

/-- **Reading loses nothing**: an input is the bytes of its glyphs. -/
@[simp] theorem encode_decode (bytes : List UInt8) : encode (decode bytes) = bytes := by
  fun_induction decode bytes with
  | case1 => rfl
  | case2 lead bytes ih => rw [encode_cons, ih, bytes_readGlyph]

end Text

end SqlCatalog
