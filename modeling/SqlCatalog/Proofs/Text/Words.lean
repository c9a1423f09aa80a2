import SqlCatalog.Proofs.Text.Tokens
import SqlCatalog.Text.Word

/-!
# The words of a text

A *word* is a run of word characters that is as long as it can be
(`SqlCatalog.Text.words`). Keywords are words, up to letter case, and so are the
tokens that are written with word characters alone
(`SqlCatalog.Token.mem_words_of_mem_ofText`): what a text may not hold, be it a
keyword or a token, is said by its words.
-/

namespace SqlCatalog

open Token (push push_append isBreak IsWord)

namespace Text

/-! ### Folding -/

/-- **Folding leaves word characters word characters**, and others alone. -/
theorem isWord_fold (c : Char) : isWord (fold c) = isWord c ∧ (isWord c = false → fold c = c) := by
  rw [fold]
  by_cases hs : c = '\u017F'
  · subst hs
    decide
  rw [if_neg hs]
  by_cases hk : c = '\u212A'
  · subst hk
    decide +kernel
  rw [if_neg hk]
  by_cases hc : c.toNat < 0x80
  · have hascii : ∀ n < 0x80, isWord (Char.ofNat n).toLower = isWord (Char.ofNat n) ∧
        (isWord (Char.ofNat n) = false → (Char.ofNat n).toLower = Char.ofNat n) := by decide
    have hn := hascii c.toNat hc
    rwa [Char.ofNat_toNat] at hn
  · rw [toLower_of_le (by omega)]
    exact ⟨rfl, fun _ => rfl⟩

/-- Only the character itself folds to a character that is no word character. -/
theorem fold_eq_iff {c d : Char} (hd : isWord d = false) : fold c = d ↔ c = d := by
  obtain ⟨hword, hsame⟩ := isWord_fold c
  constructor
  · rintro rfl
    exact (hsame (hword.symm.trans hd)).symm
  · rintro rfl
    exact hsame hd

/-! ### Words -/

/-- The words of a text: the one it begins with, which may be empty, and the
others. -/
def wordsFrom : List Char → List Char × List (List Char)
  | [] => ([], [])
  | c :: text =>
    let (word, others) := wordsFrom text
    if isWord c then (c :: word, others) else ([], push word others)

/-- **The words of a text.** -/
def words (text : List Char) : List (List Char) :=
  push (wordsFrom text).1 (wordsFrom text).2

variable {a b text word : List Char} {c : Char}

theorem wordsFrom_cons (hc : isWord c) :
    wordsFrom (c :: text) = (c :: (wordsFrom text).1, (wordsFrom text).2) := by
  rw [wordsFrom]
  exact if_pos hc

theorem wordsFrom_cons_of_not (hc : ¬isWord c) : wordsFrom (c :: text) = ([], words text) := by
  rw [wordsFrom]
  exact if_neg hc

/-- A character that is no word character ends the word in front of it. -/
theorem wordsFrom_append (hc : isWord c = false) :
    wordsFrom (a ++ c :: b) = ((wordsFrom a).1, (wordsFrom a).2 ++ words b) := by
  induction a with
  | nil =>
    simp only [List.nil_append, wordsFrom, hc, Bool.false_eq_true, if_false]
    rfl
  | cons d a ih =>
    simp only [List.cons_append, wordsFrom, ih]
    split
    · rfl
    · simp only [push_append]

/-- **A character that is no word character cuts a text in two.** -/
theorem words_append (hc : isWord c = false) : words (a ++ c :: b) = words a ++ words b := by
  rw [words, wordsFrom_append hc, push_append]
  rfl

/-- A text of word characters is one word. -/
theorem wordsFrom_of_forall (h : ∀ c ∈ word, isWord c) : wordsFrom word = (word, []) := by
  induction word with
  | nil => rfl
  | cons c word ih =>
    obtain ⟨hc, h⟩ := List.forall_mem_cons.mp h
    simp only [wordsFrom, ih h, hc, if_true]

/-- The word at the head of a text. -/
theorem wordsFrom_head (h : ∀ c ∈ word, isWord c) (hc : isWord c = false) :
    (wordsFrom (word ++ c :: text)).1 = word := by
  rw [wordsFrom_append hc, wordsFrom_of_forall h]

/-- A change of characters that keeps word characters apart from others changes
words as it changes the text. -/
theorem wordsFrom_map {f : Char → Char} (hf : ∀ c, isWord (f c) = isWord c) :
    wordsFrom (text.map f) = ((wordsFrom text).1.map f, (wordsFrom text).2.map (List.map f)) := by
  induction text with
  | nil => rfl
  | cons c text ih =>
    simp only [List.map_cons, wordsFrom, ih, hf]
    split
    · rfl
    · cases (wordsFrom text).1 <;> rfl

theorem words_map {f : Char → Char} (hf : ∀ c, isWord (f c) = isWord c) :
    words (text.map f) = (words text).map (List.map f) := by
  rw [words, wordsFrom_map hf, words]
  cases (wordsFrom text).1 <;> rfl

end Text

namespace Token

open Text

/-- A break is no word character. -/
theorem isWord_of_isBreak {c : Char} (hc : isBreak c) : Text.isWord c = false := by
  simp only [isBreak, isMarkChar, isGap, Bool.or_eq_true, beq_iff_eq] at hc
  rcases hc with (rfl | rfl) | (((rfl | rfl) | rfl) | rfl) | rfl <;> rfl

/-- **The pieces of a text are among its words**, when they hold word characters
alone. Of both there is one at the head of the text, which may be empty, and the
others. -/
def AreWords (pieces words : List Char × List (List Char)) : Prop :=
  ((∀ c ∈ pieces.1, Text.isWord c) → pieces.1 = words.1) ∧
    ∀ piece ∈ pieces.2, piece ≠ [] → (∀ c ∈ piece, Text.isWord c) → piece ∈ words.2

namespace AreWords

variable {pieces words : List Char × List (List Char)} {c : Char} (h : AreWords pieces words)
include h

/-- The piece at the head of the text is a word like the others. -/
theorem of_mem_push : ∀ piece ∈ push pieces.1 pieces.2, piece ≠ [] →
    (∀ c ∈ piece, Text.isWord c) → piece ∈ push words.1 words.2 := by
  refine forall_mem_push (fun hpiece hne hall => ?_) fun piece hpiece hne hall =>
    mem_push_of_mem (h.2 piece hpiece hne hall)
  rw [h.1 hall] at hne ⊢
  exact mem_push_self hne

/-- A bracket that is a piece of its own is no word. -/
theorem cons_loose (hc : ¬Text.isWord c) :
    AreWords ([], [c] :: push pieces.1 pieces.2) ([], push words.1 words.2) := by
  refine ⟨fun _ => rfl, List.forall_mem_cons.mpr ⟨fun _ hall => ?_, h.of_mem_push⟩⟩
  exact absurd (hall c List.mem_cons_self) hc

/-- A piece with a bracket in front is no word. -/
theorem cons (hc : ¬Text.isWord c) :
    AreWords (c :: pieces.1, pieces.2) ([], push words.1 words.2) :=
  ⟨fun hall => absurd (hall c List.mem_cons_self) hc,
    fun piece hpiece hne hall => mem_push_of_mem (h.2 piece hpiece hne hall)⟩

end AreWords

/-- **The pieces of a word** are among its words. -/
theorem areWords_splitLooseFrom (depth : Nat) (text : List Char) :
    AreWords (splitLooseFrom depth text) (wordsFrom text) := by
  induction text generalizing depth with
  | nil => exact ⟨fun _ => rfl, nofun⟩
  | cons c text ih =>
    obtain ⟨inner, hkeep | ⟨hbracket, hcut⟩⟩ := splitLooseFrom_cons depth c text
    · rw [hkeep]
      by_cases hc : Text.isWord c
      · rw [wordsFrom_cons hc]
        obtain ⟨hhead, hothers⟩ := ih inner
        refine ⟨fun hall => ?_, hothers⟩
        exact congrArg (c :: ·) (hhead fun d hd => hall d (List.mem_cons_of_mem _ hd))
      · rw [wordsFrom_cons_of_not hc]
        exact (ih inner).cons hc
    · have hc : ¬Text.isWord c := by
        rcases hbracket with rfl | rfl <;> decide
      rw [hcut, wordsFrom_cons_of_not hc]
      exact (ih inner).cons_loose hc

/-- **A token of word characters is a word** of the text, up to letter case. -/
theorem mem_words_of_mem_ofText {text token : List Char} (h : String.ofList token ∈ ofText text)
    (hne : token ≠ []) (hall : ∀ c ∈ token, Text.isWord c) : token ∈ words (lower text) := by
  have hpieces : ∀ w, IsWord w → String.ofList token ∈ ofText w → token ∈ words (lower w) := by
    intro w hw h
    rw [ofText_word hw] at h
    obtain ⟨piece, hp, he⟩ := List.mem_map.mp h
    obtain rfl := String.ofList_injective he
    exact (areWords_splitLooseFrom 0 (lower w)).of_mem_push piece hp hne hall
  induction text using break_induction with
  | word w hw => exact hpieces w hw h
  | append w c text hw hc ih =>
    have hlower : lower (w ++ c :: text) = lower w ++ c.toLower :: lower text := List.map_append
    have hc' : Text.isWord c.toLower = false :=
      isWord_of_isBreak ((isBreak_toLower c).trans hc)
    rw [ofText_append hc, List.mem_append, List.mem_append] at h
    rw [hlower, words_append hc', List.mem_append]
    rcases h with h | h | h
    · exact Or.inl (hpieces w hw h)
    · rw [breakTokens] at h
      split at h
      · -- a mark is no word character
        obtain rfl := String.ofList_injective (List.mem_singleton.mp h)
        have hmark := hall c List.mem_cons_self
        rw [isWord_of_isBreak hc] at hmark
        cases hmark
      · cases h
    · exact Or.inr (ih h)

end Token

end SqlCatalog
