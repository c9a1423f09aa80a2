import SqlCatalog.Proofs.Text.Runs

/-!
# What cannot be read

Bytes that are no UTF-8 are replaced, and how many replacement characters stand for them is a
convention: one for each *maximal subpart*. Where no character can be read, that is the longest
beginning of a character that stands there, or one byte if not even a beginning does
(`SqlCatalog.Text.IsMaximalSubpart`). The convention speaks of the encodings of characters only,
and of no table of byte ranges, and `SqlCatalog.Text.Decodes` reads an input by it.

| at the head of the input stands | the text goes on with |
|---|---|
| the encoding of a character | the character |
| no encoding of a character | one replacement character, behind the maximal subpart |

The readable form of an input follows it (`SqlCatalog.Text.decodes_iff`). What the ranges of a
lead byte let through is the beginning of a character, because it can always be completed
(`SqlCatalog.Text.exists_fits_takeRanges`), and it is the longest, because whatever begins a
character lies in the ranges (`SqlCatalog.Text.length_le_takeRanges`).

So the tokens of an input hold the text that the convention gives it, but for blanks and letter
case, and it makes no difference that they are read word by word
(`SqlCatalog.Token.tokenize_loses_nothing`).
-/

namespace SqlCatalog

namespace Text

variable {bytes piece other : List UInt8} {lead : UInt8} {ranges : List (UInt8 × UInt8)}

/-! ### Maximal subparts -/

/-- **A subpart**: one byte, or bytes that begin the encoding of a character. -/
def IsSubpart (piece : List UInt8) : Prop :=
  piece.length = 1 ∨ (piece ≠ [] ∧ ∃ c, piece <+: String.utf8EncodeChar c)

/-- **A maximal subpart** of an input at whose head no character can be read: the longest subpart
that stands there. -/
structure IsMaximalSubpart (piece bytes : List UInt8) : Prop where
  /-- No character stands at the head of the input. -/
  unreadable : ∀ c, ¬String.utf8EncodeChar c <+: bytes
  /-- The piece does, -/
  stands : piece <+: bytes
  /-- it is a subpart, -/
  isSubpart : IsSubpart piece
  /-- and no subpart there is longer. -/
  longest : ∀ other, other <+: bytes → IsSubpart other → other.length ≤ piece.length

/-- There is at most one. -/
theorem IsMaximalSubpart.unique (h : IsMaximalSubpart piece bytes)
    (h' : IsMaximalSubpart other bytes) : piece = other :=
  (List.prefix_of_prefix_length_le h.stands h'.stands
    (h'.longest piece h.stands h.isSubpart)).eq_of_length
    (Nat.le_antisymm (h'.longest piece h.stands h.isSubpart)
      (h.longest other h'.stands h'.isSubpart))

/-- **An input read with replacement**: characters where there are any, and one replacement
character for each maximal subpart. -/
inductive Decodes : List UInt8 → List Char → Prop
  /-- Nothing is read as nothing. -/
  | nil : Decodes [] []
  /-- A character is read. -/
  | char (c : Char) {bytes text} : Decodes bytes text →
      Decodes (String.utf8EncodeChar c ++ bytes) (c :: text)
  /-- What begins no character is replaced. -/
  | subpart {piece bytes text} : IsMaximalSubpart piece (piece ++ bytes) → Decodes bytes text →
      Decodes (piece ++ bytes) (replacement :: text)

/-! ### Ranges -/

/-- The ranges behind a lead byte are not empty. -/
theorem fst_le_snd_of_mem_following (hf : following lead = some ranges) :
    ∀ range ∈ ranges, range.1 ≤ range.2 := by
  unfold following continuation at hf
  repeat' split at hf
  all_goals cases hf
  all_goals simp

/-- **What is taken can be completed**: with more bytes it lies in all of the ranges. -/
theorem exists_fits_takeRanges (h : ∀ range ∈ ranges, range.1 ≤ range.2) (bytes : List UInt8) :
    ∃ more, Fits ranges ((takeRanges ranges bytes).1 ++ more) := by
  induction ranges generalizing bytes with
  | nil => exact ⟨[], trivial⟩
  | cons range ranges ih =>
    obtain ⟨low, high⟩ := range
    obtain ⟨hrange, h⟩ := List.forall_mem_cons.mp h
    -- from a byte that is not taken on, the lowest of each range will do
    have hrest : ∃ more, Fits ((low, high) :: ranges) ([] ++ more) := by
      obtain ⟨more, hmore⟩ := ih h []
      exact ⟨low :: _, UInt8.le_refl low, hrange, hmore⟩
    cases bytes with
    | nil => exact hrest
    | cons b bytes =>
      rw [takeRanges]
      split
      · next hb =>
        obtain ⟨more, hmore⟩ := ih h bytes
        exact ⟨more, hb.1, hb.2, hmore⟩
      · exact hrest

/-- **What begins bytes in the ranges is taken.** -/
theorem length_le_takeRanges {tail taken : List UInt8} (hfits : Fits ranges tail)
    (htail : taken <+: tail) (hbytes : taken <+: bytes) :
    taken.length ≤ (takeRanges ranges bytes).1.length := by
  induction ranges generalizing tail taken bytes with
  | nil =>
    obtain rfl := fits_nil.mp hfits
    rw [List.prefix_nil.mp htail]
    exact Nat.zero_le _
  | cons range ranges ih =>
    obtain ⟨low, high⟩ := range
    cases taken with
    | nil => exact Nat.zero_le _
    | cons b taken =>
      obtain ⟨tail, rfl⟩ := htail
      obtain ⟨bytes, rfl⟩ := hbytes
      obtain ⟨hlow, hhigh, hfits⟩ := hfits
      rw [List.cons_append, takeRanges, if_pos ⟨hlow, hhigh⟩]
      exact Nat.succ_le_succ (ih hfits (List.prefix_append _ _) (List.prefix_append _ _))

/-! ### One stray piece -/

/-- What begins the encoding of a character begins with a lead byte, and goes on in its
ranges. -/
theorem exists_fits_of_isPrefix {c : Char} {tail : List UInt8}
    (h : lead :: tail <+: String.utf8EncodeChar c) :
    ∃ ranges full, following lead = some ranges ∧ Fits ranges full ∧ tail <+: full ∧
      String.utf8EncodeChar c = lead :: full := by
  obtain ⟨lead', ranges, full, hc, hf, hfits⟩ := fits_of_encodeChar c
  rw [hc] at h
  obtain ⟨rfl, htail⟩ := List.cons_prefix_cons.mp h
  exact ⟨ranges, full, hf, hfits, htail, hc⟩

/-- **A stray piece is a maximal subpart.** -/
theorem isMaximalSubpart_of_readGlyph (h : (readGlyph lead bytes).1 = .stray piece) :
    IsMaximalSubpart piece (lead :: bytes) := by
  have hstands : piece <+: lead :: bytes := by
    have hbytes := bytes_readGlyph lead bytes
    rw [h] at hbytes
    exact ⟨_, hbytes⟩
  -- a character there would be read, since its bytes lie in the ranges
  have hunreadable : ∀ c, ¬String.utf8EncodeChar c <+: lead :: bytes := by
    rintro c ⟨rest, hrest⟩
    have hread := decode_encodeChar c rest
    rw [hrest, decode, h] at hread
    cases (List.cons.inj hread).1
  unfold readGlyph at h
  split at h
  · next hf =>
    cases h
    refine ⟨hunreadable, hstands, Or.inl rfl, fun other hother hsub => ?_⟩
    rcases hsub with hlen | ⟨hne, c, hc⟩
    · exact Nat.le_of_eq hlen
    · obtain ⟨b, tail, rfl⟩ := List.exists_cons_of_ne_nil hne
      obtain ⟨rfl, -⟩ := List.cons_prefix_cons.mp hother
      obtain ⟨ranges, -, hf', -⟩ := exists_fits_of_isPrefix hc
      rw [hf] at hf'
      cases hf'
  · next ranges hf =>
    dsimp only at h
    split at h
    · cases h
    · cases h
      refine ⟨hunreadable, hstands, ?_, fun other hother hsub => ?_⟩
      · obtain ⟨more, hmore⟩ := exists_fits_takeRanges (fst_le_snd_of_mem_following hf) bytes
        have hchar := encodeChar_assemble hf hmore
        exact Or.inr ⟨List.cons_ne_nil _ _, _, more, hchar.symm⟩
      · rcases hsub with hlen | ⟨hne, c, hc⟩
        · rw [hlen]
          exact Nat.succ_le_succ (Nat.zero_le _)
        · obtain ⟨b, tail, rfl⟩ := List.exists_cons_of_ne_nil hne
          obtain ⟨rfl, hbytes⟩ := List.cons_prefix_cons.mp hother
          obtain ⟨ranges', full, hf', hfits, htail, -⟩ := exists_fits_of_isPrefix hc
          obtain rfl := Option.some.inj (hf.symm.trans hf')
          exact Nat.succ_le_succ (length_le_takeRanges hfits htail hbytes)

/-! ### The whole input -/

/-- The readable form follows the convention. -/
theorem decodes_lossy (bytes : List UInt8) : Decodes bytes (lossy bytes) := by
  rw [lossy]
  fun_induction decode bytes with
  | case1 => exact Decodes.nil
  | case2 lead bytes ih =>
    have hbytes := bytes_readGlyph lead bytes
    rw [List.map_cons]
    cases hg : (readGlyph lead bytes).1 with
    | char c =>
      rw [hg, Glyph.bytes] at hbytes
      rw [← hbytes]
      exact Decodes.char c ih
    | stray piece =>
      have hpiece := isMaximalSubpart_of_readGlyph hg
      rw [hg, Glyph.bytes] at hbytes
      rw [← hbytes] at hpiece ⊢
      exact Decodes.subpart hpiece ih

/-- **One replacement character for each maximal subpart**: the convention gives an input one
text, and it is the readable form. -/
theorem decodes_iff {text : List Char} : Decodes bytes text ↔ text = lossy bytes := by
  refine ⟨fun h => ?_, fun h => h ▸ decodes_lossy bytes⟩
  induction h with
  | nil =>
    rw [lossy, decode]
    rfl
  | char c _ ih =>
    rw [lossy, decode_encodeChar, ih]
    rfl
  | @subpart piece bytes text hpiece _ ih =>
    cases hcut : piece ++ bytes with
    | nil =>
      -- the end of the input is no subpart
      have hnil := (List.append_eq_nil_iff.mp hcut).1
      rcases hpiece.isSubpart with hlen | ⟨hne, -⟩
      · rw [hnil] at hlen
        cases hlen
      · exact absurd hnil hne
    | cons lead tail =>
      have hread := bytes_readGlyph lead tail
      rw [hcut] at hpiece
      cases hg : (readGlyph lead tail).1 with
      | char c =>
        rw [hg] at hread
        exact absurd ⟨_, hread⟩ (hpiece.unreadable c)
      | stray other =>
        obtain rfl := hpiece.unique (isMaximalSubpart_of_readGlyph hg)
        rw [hg, ← hcut] at hread
        rw [lossy, decode, hg, List.append_cancel_left hread, ih]
        rfl

end Text

/-! ### The tokens of an input -/

namespace Token

open Text

/-- The pieces behind the head of a word are not empty, -/
theorem ne_nil_of_mem_splitLooseFrom {depth : Nat} {word : List Char} :
    ∀ piece ∈ (splitLooseFrom depth word).2, piece ≠ [] := by
  induction word generalizing depth with
  | nil => nofun
  | cons c word ih =>
    obtain ⟨inner, hkeep | ⟨-, hcut⟩⟩ := splitLooseFrom_cons depth c word
    · rw [hkeep]
      exact ih
    · rw [hcut]
      exact List.forall_mem_cons.mpr ⟨List.cons_ne_nil _ _, forall_mem_push id ih⟩

/-- nor is any piece of a word, -/
theorem ne_nil_of_mem_splitLoose {word : List Char} : ∀ piece ∈ splitLoose word, piece ≠ [] :=
  forall_mem_push id ne_nil_of_mem_splitLooseFrom

/-- and **no token is empty**. -/
theorem ne_empty_of_mem_tokenize {bytes : List UInt8} :
    ∀ token ∈ tokenize bytes, token ≠ "" := by
  intro token hmem hempty
  obtain ⟨lexeme, -, hmem⟩ := List.mem_flatMap.mp hmem
  obtain ⟨piece, hpiece, rfl⟩ := List.mem_map.mp hmem
  obtain rfl : piece = [] := String.ofList_injective hempty
  exact ne_nil_of_mem_splitLoose [] hpiece rfl

/-- **Tokens lose nothing and add nothing.** Put together, the tokens of an input are the text
that the input is read as, with one replacement character for each maximal subpart, in lower case
and without blanks. Each word is read as it is in the whole input, and no token is empty. -/
theorem tokenize_loses_nothing (bytes : List UInt8) :
    (∀ text, Decodes bytes text ↔ text = lossy bytes) ∧
      String.join (tokenize bytes) =
        String.ofList ((lower (lossy bytes)).filter fun c => !isGap c) ∧
      (∀ front word rest, bytes = front ++ word ++ rest → IsWordBetween front word rest →
        lossy bytes = lossy front ++ (lossy word ++ lossy rest)) ∧
      ∀ token ∈ tokenize bytes, token ≠ "" := by
  refine ⟨fun text => decodes_iff, ?_, ?_, ne_empty_of_mem_tokenize⟩
  · have hcase : (fun c => !isGap c) ∘ Char.toLower = fun c => !isGap c :=
      funext fun c => congrArg (!·) (isGap_toLower c)
    rw [← String.toList_inj, String.toList_join, flatMap_toList_tokenize, String.toList_ofList,
      lower, lower, List.filter_map, hcase]
  · rintro front word rest rfl hword
    exact hword.append_eq lossy_cutsAtBreaks

/-- A character cut short in front of a blank, and another one inside the next word. -/
theorem tokenize_loses_nothing_cut_short :
    IsWordBetween [0x41, 0xC3, 0x20] [0x28, 0xE2, 0x82, 0x49] [0x3B, 0x29] ∧
      lossy ([0x41, 0xC3, 0x20] ++ [0x28, 0xE2, 0x82, 0x49] ++ [0x3B, 0x29]) =
        lossy [0x41, 0xC3, 0x20] ++ (lossy [0x28, 0xE2, 0x82, 0x49] ++ lossy [0x3B, 0x29]) ∧
      lossy [0x28, 0xE2, 0x82, 0x49] = ['(', replacement, 'I'] := by
  have hword : IsWordBetween [0x41, 0xC3, 0x20] [0x28, 0xE2, 0x82, 0x49] [0x3B, 0x29] := by decide
  exact ⟨hword, (tokenize_loses_nothing _).2.2.1 _ _ _ rfl hword, by decide +kernel⟩

end Token

end SqlCatalog
