import SqlCatalog.Proofs.Block.Layout
import SqlCatalog.Proofs.Noise.Clause

/-!
# Phrases

A dump of a schema is written in *phrases*, texts with a blank between any two of
them. Three things are said of a text so that they hold of a phrase when they
hold of its parts:

* it is *steady* if no noise opens in it, nor with any separator behind it
  (`SqlCatalog.IsSteady`);
* it is paired if its brackets pair up;
* its tokens are those of its parts, one behind the other.

The smallest parts are *plain words*, lower-case letters, digits and underscores
(`SqlCatalog.IsPlainWord`): all but the word `constraint` are steady, and each is
one token.
-/

namespace SqlCatalog

open Text Noise Token

/-! ### Steady texts -/

/-- **The separators**, one of which stands behind any part of a phrase. -/
def separators : List Char := [' ', ',', '\n']

/-- **A steady text**: no noise opens in it, whichever separator follows. -/
def IsSteady (text : List Char) : Prop :=
  ∀ c ∈ separators, IsCalm (text ++ [c])

instance (text : List Char) : Decidable (IsSteady text) :=
  inferInstanceAs (Decidable (∀ c ∈ separators, _))

variable {a b text word : List Char}

/-- **A text is steady by its words.** -/
theorem isSteady_of_words (hplain : ∀ c ∈ text, c ∉ [quote, '-', '$'])
    (hclause : clauseKeyword ∉ words (text.map fold))
    (hcalls : '(' ∈ text → ∀ name ∈ volatileCalls, name ∉ words (text.map fold)) :
    IsSteady text := by
  intro c hc
  obtain ⟨hseal, hword, hfold, hopen, hmarks⟩ : IsSeal c ∧ Text.isWord c = false ∧ fold c = c ∧
      c ≠ '(' ∧ c ∉ [quote, '-', '$'] := by
    simp only [separators, List.mem_cons, List.not_mem_nil, or_false] at hc
    rcases hc with rfl | rfl | rfl <;> decide
  have hwords : words ((text ++ [c]).map fold) = words (text.map fold) := by
    have hnil : words [] = [] := rfl
    rw [List.map_append, List.map_singleton, hfold, words_append hword, hnil, List.append_nil]
  refine isCalm_concat hseal (calm_of_words ?_ (by rwa [hwords]) fun hmem => ?_)
  · exact List.forall_mem_append.mpr ⟨hplain, by simpa using hmarks⟩
  · rw [hwords]
    exact hcalls (by simpa [Ne.symm hopen] using hmem)

/-- A steady text in front of a calm one. -/
theorem IsSteady.isCalm_append {c : Char} (h : IsSteady a) (hc : c ∈ separators) (hb : IsCalm b) :
    IsCalm (a ++ c :: b) := by
  rw [← List.singleton_append, ← List.append_assoc]
  exact (h c hc).append hb

/-! ### Phrases -/

/-- **A phrase**: parts with a blank between any two of them. -/
def phrase (parts : List (List Char)) : List Char :=
  [' '].intercalate parts

variable {parts : List (List Char)}

theorem phrase_singleton (part : List Char) : phrase [part] = part :=
  List.intercalate_singleton

theorem phrase_cons_cons (part next : List Char) (parts : List (List Char)) :
    phrase (part :: next :: parts) = part ++ ' ' :: phrase (next :: parts) := by
  simp [phrase]

theorem phrase_concat (hne : parts ≠ []) (part : List Char) :
    phrase (parts ++ [part]) = phrase parts ++ ' ' :: part := by
  induction parts with
  | nil => exact absurd rfl hne
  | cons first parts ih =>
    cases parts with
    | nil => rw [List.singleton_append, phrase_cons_cons, phrase_singleton, phrase_singleton]
    | cons next parts =>
      have hrest := ih (List.cons_ne_nil _ _)
      rw [List.cons_append] at hrest
      rw [List.cons_append, List.cons_append, phrase_cons_cons, hrest, phrase_cons_cons,
        List.append_assoc, List.cons_append]

/-- **A phrase of steady parts is steady.** -/
theorem isSteady_phrase (hne : parts ≠ []) (h : ∀ part ∈ parts, IsSteady part) :
    IsSteady (phrase parts) := by
  induction parts with
  | nil => exact absurd rfl hne
  | cons part parts ih =>
    obtain ⟨hpart, h⟩ := List.forall_mem_cons.mp h
    cases parts with
    | nil => rwa [phrase_singleton]
    | cons next parts =>
      intro c hc
      rw [phrase_cons_cons, List.append_assoc]
      exact hpart.isCalm_append List.mem_cons_self (ih (List.cons_ne_nil _ _) h c hc)

/-- A phrase of paired parts is paired. -/
theorem isPaired_phrase (h : ∀ part ∈ parts, IsPaired part) : IsPaired (phrase parts) := by
  induction parts with
  | nil => rfl
  | cons part parts ih =>
    obtain ⟨hpart, h⟩ := List.forall_mem_cons.mp h
    cases parts with
    | nil => rwa [phrase_singleton]
    | cons next parts =>
      have hblank : IsPaired [' '] := rfl
      rw [phrase_cons_cons]
      exact isPaired_append hpart (isPaired_append hblank (ih h))

/-- **The tokens of a phrase** are those of its parts. -/
theorem ofText_phrase (parts : List (List Char)) :
    ofText (phrase parts) = parts.flatMap ofText := by
  induction parts with
  | nil => rfl
  | cons part parts ih =>
    cases parts with
    | nil => rw [phrase_singleton, List.flatMap_singleton]
    | cons next parts =>
      rw [phrase_cons_cons, ofText_append_gap rfl, ih]
      rfl

/-! ### Plain words -/

/-- A lower-case letter, a digit or an underscore. -/
def isPlainChar (c : Char) : Bool :=
  c.isLower || c.isDigit || c == '_'

/-- **A plain word**: one of such characters. -/
def IsPlainWord (word : List Char) : Prop :=
  word ≠ [] ∧ ∀ c ∈ word, isPlainChar c

instance (word : List Char) : Decidable (IsPlainWord word) :=
  inferInstanceAs (Decidable (_ ∧ _))

/-- A plain character is a word character without another letter case. -/
theorem of_isPlainChar {c : Char} (h : isPlainChar c) :
    Text.isWord c ∧ fold c = c ∧ c.toLower = c := by
  have hascii : ∀ n < 0x80, isPlainChar (Char.ofNat n) → Text.isWord (Char.ofNat n) ∧
      fold (Char.ofNat n) = Char.ofNat n ∧ (Char.ofNat n).toLower = Char.ofNat n := by decide
  have hn : c.toNat < 0x80 := by
    have hlower : c.isLower = (decide (c.val ≥ 'a'.val) && decide (c.val ≤ 'z'.val)) := rfl
    simp only [isPlainChar, hlower, Char.isDigit, Bool.or_eq_true, Bool.and_eq_true,
      decide_eq_true_eq, beq_iff_eq, UInt32.le_iff_toNat_le, Char.reduceVal] at h
    have hval : c.val.toNat = c.toNat := rfl
    rcases h with (⟨-, h⟩ | ⟨-, h⟩) | rfl
    · exact Nat.lt_of_le_of_lt (hval ▸ h) (by decide)
    · exact Nat.lt_of_le_of_lt (hval ▸ h) (by decide)
    · decide
  have hc := hascii c.toNat hn
  rw [Char.ofNat_toNat] at hc
  exact hc h

namespace IsPlainWord

variable (h : IsPlainWord word)
include h

/-- A character that is no word character stands in no plain word. -/
theorem not_mem {c : Char} (hc : Text.isWord c = false) : c ∉ word := by
  intro hmem
  have hword := (of_isPlainChar (h.2 c hmem)).1
  rw [hc] at hword
  cases hword

theorem map_fold : word.map fold = word := by
  have hsame : word.map fold = word.map id :=
    List.map_congr_left fun c hc => (of_isPlainChar (h.2 c hc)).2.1
  rw [hsame, List.map_id]

theorem lower_eq : lower word = word := by
  have hsame : lower word = word.map id :=
    List.map_congr_left fun c hc => (of_isPlainChar (h.2 c hc)).2.2
  rw [hsame, List.map_id]

/-- A plain word is one word. -/
theorem words_eq : words word = [word] := by
  rw [words, wordsFrom_of_forall fun c hc => (of_isPlainChar (h.2 c hc)).1]
  cases word with
  | nil => exact absurd rfl h.1
  | cons c word => rfl

/-- There are no breaks in a plain word. -/
theorem isWord : Token.IsWord word := by
  intro c hc
  rw [← Bool.not_eq_true]
  intro hbreak
  exact h.not_mem (isWord_of_isBreak hbreak) hc

/-- There are no brackets in a plain word. -/
theorem isPaired : IsPaired word := by
  refine depth?_of_plain fun c hc hmem => h.not_mem ?_ hc
  simp only [List.mem_cons, List.not_mem_nil, or_false] at hmem
  rcases hmem with rfl | rfl | rfl | rfl <;> rfl

theorem surplus_eq : surplus word = 0 :=
  Nat.le_zero.mp (surplus_of_depth? h.isPaired).1

/-- **A plain word is one token.** -/
theorem ofText_eq : ofText word = [String.ofList word] := by
  rw [ofText_paired h.isWord h.1 h.isPaired, h.lower_eq]

/-- **A plain word is steady**, unless a clause begins with it. -/
theorem isSteady (hne : word ≠ clauseKeyword) : IsSteady word := by
  refine isSteady_of_words (fun c hc hmem => ?_) ?_ fun hopen => ?_
  · refine h.not_mem ?_ hc
    simp only [List.mem_cons, List.not_mem_nil, or_false] at hmem
    rcases hmem with rfl | rfl | rfl <;> rfl
  · rw [h.map_fold, h.words_eq, List.mem_singleton]
    exact Ne.symm hne
  · exact absurd hopen (h.not_mem rfl)

end IsPlainWord

end SqlCatalog
