import SqlCatalog.Proofs.Text.Bytes
import SqlCatalog.Token

/-!
# The tokens of a text

A dump is cut into tokens byte by byte, and the bytes of a text are cut as its
characters are: `SqlCatalog.Token.ofText` does with characters what
`SqlCatalog.tokenize` does with bytes, and on the bytes of a text the two agree
(`SqlCatalog.Token.tokenize_bytesOf`). That form can be evaluated, and it is the one in
which texts are put together:

| the texts `a` and `b` with | have the tokens |
|---|---|
| a blank between them | of `a` and of `b` |
| a mark between them | of `a`, the mark, and of `b` |

Every text is one word, or one word in front of a blank or mark and a shorter
text (`SqlCatalog.Token.break_induction`), so nothing else has to be known of
lexemes.
-/

namespace SqlCatalog

open Text

namespace Token

/-! ### Breaks -/

/-- A character that stands alone as a token. -/
def isMarkChar (c : Char) : Bool :=
  c == ',' || c == ';'

/-- A character that separates words and is dropped. -/
def isGap (c : Char) : Bool :=
  c == ' ' || c == '\t' || c == '\n' || c == '\x0C' || c == '\x0D'

/-- **A break**: a character that is part of no word. -/
def isBreak (c : Char) : Bool :=
  isMarkChar c || isGap c

/-- **A word without breaks**, which may be empty. -/
def IsWord (word : List Char) : Prop :=
  ∀ c ∈ word, isBreak c = false

instance (word : List Char) : Decidable (IsWord word) :=
  inferInstanceAs (Decidable (∀ c ∈ word, _))

theorem isWord_nil : IsWord [] :=
  List.forall_mem_nil _

theorem isWord_cons {c : Char} {word : List Char} :
    IsWord (c :: word) ↔ isBreak c = false ∧ IsWord word :=
  List.forall_mem_cons

theorem isWord_append {a b : List Char} : IsWord (a ++ b) ↔ IsWord a ∧ IsWord b :=
  List.forall_mem_append

/-- Marks and blanks have no letter case. -/
theorem beq_toLower_of_lt {d : Char} (hd : d.toNat < 0x41) (c : Char) :
    (c.toLower == d) = (c == d) := by
  rw [Bool.eq_iff_iff, beq_iff_eq, beq_iff_eq, toLower_eq_iff hd]

theorem isMarkChar_toLower (c : Char) : isMarkChar c.toLower = isMarkChar c := by
  simp only [isMarkChar, beq_toLower_of_lt (by decide : (',').toNat < 0x41),
    beq_toLower_of_lt (by decide : (';').toNat < 0x41)]

theorem isGap_toLower (c : Char) : isGap c.toLower = isGap c := by
  simp only [isGap, beq_toLower_of_lt (by decide : (' ').toNat < 0x41),
    beq_toLower_of_lt (by decide : ('\t').toNat < 0x41),
    beq_toLower_of_lt (by decide : ('\n').toNat < 0x41),
    beq_toLower_of_lt (by decide : ('\x0C').toNat < 0x41),
    beq_toLower_of_lt (by decide : ('\x0D').toNat < 0x41)]

theorem isBreak_toLower (c : Char) : isBreak c.toLower = isBreak c := by
  rw [isBreak, isMarkChar_toLower, isGap_toLower, isBreak]

theorem isWord_lower {word : List Char} (h : IsWord word) : IsWord (lower word) := by
  intro c hc
  obtain ⟨d, hd, rfl⟩ := List.mem_map.mp hc
  rw [isBreak_toLower, h d hd]

/-- **Texts by their breaks**: what holds for words, and for a word and a break in
front of a text for which it holds, holds for every text. -/
theorem break_induction {P : List Char → Prop} (word : ∀ w, IsWord w → P w)
    (append : ∀ w c text, IsWord w → isBreak c → P text → P (w ++ c :: text))
    (text : List Char) : P text := by
  -- the word that has been read of the text so far stands in front of it
  have h : ∀ text w, IsWord w → P (w ++ text) := by
    intro text
    induction text with
    | nil =>
      intro w hw
      rw [List.append_nil]
      exact word w hw
    | cons c text ih =>
      intro w hw
      by_cases hc : isBreak c
      · exact append w c text hw hc (ih [] nofun)
      · rw [List.append_cons]
        exact ih (w ++ [c])
          (isWord_append.mpr ⟨hw, isWord_cons.mpr ⟨Bool.not_eq_true _ ▸ hc, nofun⟩⟩)
  exact h text [] nofun

/-! ### Finished pieces -/

section Push

variable {α : Type} {piece p : List α} {pieces : List (List α)}

theorem push_append (piece : List α) (a b : List (List α)) :
    push piece (a ++ b) = push piece a ++ b := by
  cases piece <;> rfl

theorem flatten_push (piece : List α) (pieces : List (List α)) :
    (push piece pieces).flatten = piece ++ pieces.flatten := by
  cases piece <;> rfl

theorem mem_push_self (h : piece ≠ []) : piece ∈ push piece pieces := by
  cases piece with
  | nil => exact absurd rfl h
  | cons c piece => exact List.mem_cons_self

theorem mem_push_of_mem (h : p ∈ pieces) : p ∈ push piece pieces := by
  cases piece with
  | nil => exact h
  | cons c piece => exact List.mem_cons_of_mem _ h

theorem forall_mem_push {P : List α → Prop} (hpiece : piece ≠ [] → P piece)
    (h : ∀ p ∈ pieces, P p) : ∀ p ∈ push piece pieces, P p := by
  cases piece with
  | nil => exact h
  | cons c piece => exact List.forall_mem_cons.mpr ⟨hpiece (List.cons_ne_nil _ _), h⟩

end Push

/-- **One more character in front of a word** goes in front of the first piece of the word, unless
it is a bracket that becomes a piece of its own. -/
theorem splitLooseFrom_cons (depth : Nat) (c : Char) (word : List Char) :
    ∃ inner, splitLooseFrom depth (c :: word) =
        (c :: (splitLooseFrom inner word).1, (splitLooseFrom inner word).2) ∨
      (c = '(' ∨ c = ')') ∧ splitLooseFrom depth (c :: word) =
        ([], [c] :: push (splitLooseFrom inner word).1 (splitLooseFrom inner word).2) := by
  rw [splitLooseFrom]
  by_cases hopen : c = '('
  · refine ⟨depth + 1, ?_⟩
    rw [if_pos hopen]
    dsimp only
    split
    · exact Or.inr ⟨Or.inl hopen, rfl⟩
    · exact Or.inl rfl
  by_cases hclose : c = ')'
  · refine ⟨depth - 1, ?_⟩
    rw [if_neg hopen, if_pos hclose]
    dsimp only
    split
    · exact Or.inr ⟨Or.inr hclose, rfl⟩
    · exact Or.inl rfl
  · refine ⟨depth, Or.inl ?_⟩
    rw [if_neg hopen, if_neg hclose]

/-! ### Lexemes of a text -/

/-- The lexemes of a text: the word it begins with, which may be empty, and the
lexemes after that word. -/
def lexemesOfFrom : List Char → List Char × List (List Char)
  | [] => ([], [])
  | c :: text =>
    let (word, others) := lexemesOfFrom text
    if isMarkChar c then ([], [c] :: push word others)
    else if isGap c then ([], push word others)
    else (c :: word, others)

/-- **The lexemes of a text.** -/
def lexemesOf (text : List Char) : List (List Char) :=
  push (lexemesOfFrom text).1 (lexemesOfFrom text).2

/-- **The tokens of a text.** -/
def ofText (text : List Char) : List String :=
  (lexemesOf text).flatMap fun word => (splitLoose (lower word)).map String.ofList

/-- The lexemes of a break. -/
def breakLexemes (c : Char) : List (List Char) :=
  if isMarkChar c then [[c]] else []

/-- A break ends the word in front of it. -/
theorem lexemesOfFrom_append {c : Char} (hc : isBreak c) (a b : List Char) :
    lexemesOfFrom (a ++ c :: b) =
      ((lexemesOfFrom a).1, (lexemesOfFrom a).2 ++ (breakLexemes c ++ lexemesOf b)) := by
  induction a with
  | nil =>
    simp only [List.nil_append, lexemesOfFrom, breakLexemes, lexemesOf]
    by_cases hm : isMarkChar c
    · simp only [hm, if_true, List.cons_append, List.nil_append]
    · have hg : isGap c := by simpa [isBreak, hm] using hc
      simp only [hm, hg, if_true, Bool.false_eq_true, if_false, List.nil_append]
  | cons d a ih =>
    rw [List.cons_append, lexemesOfFrom, lexemesOfFrom, ih]
    dsimp only
    split
    · simp only [push_append, List.cons_append]
    · split
      · simp only [push_append]
      · rfl

/-- **A break cuts a text in two.** -/
theorem lexemesOf_append {c : Char} (hc : isBreak c) (a b : List Char) :
    lexemesOf (a ++ c :: b) = lexemesOf a ++ (breakLexemes c ++ lexemesOf b) := by
  rw [lexemesOf, lexemesOfFrom_append hc, push_append]
  rfl

/-- A text without breaks is one word. -/
theorem lexemesOf_word {word : List Char} (h : IsWord word) : lexemesOf word = push word [] := by
  have hfrom : lexemesOfFrom word = (word, []) := by
    induction word with
    | nil => rfl
    | cons c word ih =>
      obtain ⟨hc, hword⟩ := isWord_cons.mp h
      obtain ⟨hm, hg⟩ := Bool.or_eq_false_iff.mp hc
      rw [lexemesOfFrom, ih hword]
      simp only [hm, hg, Bool.false_eq_true, if_false]
  rw [lexemesOf, hfrom]

/-! ### Lexemes of bytes -/

/-- A byte of a character past the ASCII part breaks no word. -/
theorem isMark_isAsciiBlank_of_le {b : UInt8} (h : 0x80 ≤ b.toNat) :
    isMark b = false ∧ isAsciiBlank b = false := by
  have hne : ∀ d : UInt8, d.toNat < 0x80 → (b == d) = false := by
    intro d hd
    rw [beq_eq_false_iff_ne]
    rintro rfl
    omega
  refine ⟨?_, ?_⟩
  · rw [isMark, hne _ (by decide), hne _ (by decide)]
    rfl
  · rw [isAsciiBlank, hne _ (by decide), hne _ (by decide), hne _ (by decide), hne _ (by decide),
      hne _ (by decide)]
    rfl

/-- A blank is written as one byte, a blank too. -/
theorem exists_encodeChar_of_isGap {c : Char} (hc : isGap c) :
    ∃ b, isAsciiBlank b = true ∧ String.utf8EncodeChar c = [b] := by
  simp only [isGap, Bool.or_eq_true, beq_iff_eq] at hc
  rcases hc with (((rfl | rfl) | rfl) | rfl) | rfl <;> exact ⟨_, by decide, rfl⟩

/-- Bytes that break no word stay at the head of it. -/
theorem lexemesFrom_append {bytes : List UInt8}
    (h : ∀ b ∈ bytes, isMark b = false ∧ isAsciiBlank b = false) (rest : List UInt8) :
    lexemesFrom (bytes ++ rest) = (bytes ++ (lexemesFrom rest).1, (lexemesFrom rest).2) := by
  induction bytes with
  | nil => rfl
  | cons b bytes ih =>
    obtain ⟨⟨hm, hb⟩, h⟩ := List.forall_mem_cons.mp h
    rw [List.cons_append, lexemesFrom, ih h]
    simp only [hm, hb, Bool.false_eq_true, if_false, List.cons_append]

theorem push_map_bytesOf (word : List Char) (others : List (List Char)) :
    push (bytesOf word) (others.map bytesOf) = (push word others).map bytesOf := by
  cases word with
  | nil => rfl
  | cons c word =>
    obtain ⟨lead, -, tail, hc, -, -⟩ := fits_of_encodeChar c
    rw [bytesOf_cons, hc]
    simp only [push, List.cons_append, List.map_cons, bytesOf_cons, hc]

/-- **The lexemes of the bytes of a text** are the bytes of its lexemes. -/
theorem lexemesFrom_bytesOf (text : List Char) :
    lexemesFrom (bytesOf text) =
      (bytesOf (lexemesOfFrom text).1, (lexemesOfFrom text).2.map bytesOf) := by
  induction text with
  | nil => rfl
  | cons c text ih =>
    rcases encodeChar_cases c with ⟨hc, henc⟩ | ⟨hc, hb⟩
    · have hascii : ∀ n < 128, isMark (UInt8.ofNat n) = isMarkChar (Char.ofNat n) ∧
          isAsciiBlank (UInt8.ofNat n) = isGap (Char.ofNat n) := by decide
      obtain ⟨hm, hg⟩ := hascii c.toNat hc
      rw [Char.ofNat_toNat] at hm hg
      rw [bytesOf_cons, henc, List.singleton_append, lexemesFrom, ih, lexemesOfFrom, hm, hg]
      dsimp only
      rw [push_map_bytesOf]
      split
      · simp only [List.map_cons, bytesOf_cons, henc, bytesOf_nil, List.append_nil]
      · split
        · rfl
        · simp only [bytesOf_cons, henc, List.singleton_append]
    · have hne : ∀ d : Char, d.toNat < 0x80 → (c == d) = false := by
        intro d hd
        rw [beq_eq_false_iff_ne]
        rintro rfl
        omega
      have hm : isMarkChar c = false := by
        rw [isMarkChar, hne _ (by decide), hne _ (by decide)]
        rfl
      have hg : isGap c = false := by
        rw [isGap, hne _ (by decide), hne _ (by decide), hne _ (by decide), hne _ (by decide),
          hne _ (by decide)]
        rfl
      rw [bytesOf_cons, lexemesFrom_append fun b h => isMark_isAsciiBlank_of_le (hb b h), ih,
        lexemesOfFrom]
      simp only [hm, hg, Bool.false_eq_true, if_false, bytesOf_cons]

/-- **The tokens of the bytes of a text** are those of the text. -/
theorem tokenize_bytesOf (text : List Char) : tokenize (bytesOf text) = ofText text := by
  have hlexemes : lexemes (bytesOf text) = (lexemesOf text).map bytesOf := by
    rw [lexemes, lexemesFrom_bytesOf, push_map_bytesOf]
    rfl
  have hword : (fun word => ofLexeme (bytesOf word)) =
      fun word => (splitLoose (lower word)).map String.ofList := by
    funext word
    rw [ofLexeme, map_lowerByte_bytesOf, lossy_bytesOf]
  rw [tokenize, hlexemes, ofText, List.flatMap_map, hword]

/-! ### Tokens of texts put together -/

@[simp] theorem ofText_nil : ofText [] = [] := rfl

/-- The tokens of a break: a mark is one, a blank is none. -/
def breakTokens (c : Char) : List String :=
  if isMarkChar c then [String.ofList [c]] else []

/-- **A break between two texts.** -/
theorem ofText_append {c : Char} (hc : isBreak c) (a b : List Char) :
    ofText (a ++ c :: b) = ofText a ++ (breakTokens c ++ ofText b) := by
  rw [ofText, lexemesOf_append hc, List.flatMap_append, List.flatMap_append, breakLexemes,
    breakTokens]
  split
  · next hm =>
    simp only [isMarkChar, Bool.or_eq_true, beq_iff_eq] at hm
    rcases hm with rfl | rfl <;> rfl
  · rfl

/-- A blank between two texts. -/
theorem ofText_append_gap {c : Char} (hc : isGap c) (a b : List Char) :
    ofText (a ++ c :: b) = ofText a ++ ofText b := by
  have hm : breakTokens c = [] := by
    simp only [isGap, Bool.or_eq_true, beq_iff_eq] at hc
    rcases hc with (((rfl | rfl) | rfl) | rfl) | rfl <;> rfl
  rw [ofText_append (by simp [isBreak, hc]), hm, List.nil_append]

/-- A comma between two texts. -/
theorem ofText_append_comma (a b : List Char) :
    ofText (a ++ ',' :: b) = ofText a ++ "," :: ofText b :=
  ofText_append rfl a b

/-- A semicolon between two texts. -/
theorem ofText_append_semicolon (a b : List Char) :
    ofText (a ++ ';' :: b) = ofText a ++ ";" :: ofText b :=
  ofText_append rfl a b

/-- A text of blanks has no tokens. -/
theorem ofText_gaps {text : List Char} (h : ∀ c ∈ text, isGap c) : ofText text = [] := by
  induction text with
  | nil => rfl
  | cons c text ih =>
    obtain ⟨hc, h⟩ := List.forall_mem_cons.mp h
    rw [← List.nil_append (c :: text), ofText_append_gap hc, ih h]
    rfl

/-- The tokens of a word are its pieces. -/
theorem ofText_word {word : List Char} (h : IsWord word) :
    ofText word = (splitLoose (lower word)).map String.ofList := by
  rw [ofText, lexemesOf_word h]
  cases word with
  | nil => rfl
  | cons c word => simp [push]

end Token

end SqlCatalog
