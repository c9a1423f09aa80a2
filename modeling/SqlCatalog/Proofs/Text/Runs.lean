import SqlCatalog.Proofs.Text.Ends

/-!
# The words of an input

A word of an input is a run of bytes none of which separates words, as long as it can be: what
stands in front of it and behind it is a byte that does, or an end of the input
(`SqlCatalog.Token.IsWordBetween`). Such a run can be read by itself. That holds for whatever a
byte that separates words cuts in two (`SqlCatalog.Token.CutsAtBreaks`), which are

* the tokens of an input (`SqlCatalog.Token.tokenize_cutsAtBreaks`), and
* its readable form (`SqlCatalog.Token.lossy_cutsAtBreaks`).

So an input may be cut at the ends of one of its words and the three parts read one by one
(`SqlCatalog.Token.IsWordBetween.append_eq`).
-/

namespace SqlCatalog

namespace Token

open Text

variable {α : Type} {f : List UInt8 → List α} {front word rest : List UInt8}

/-! ### Cuts -/

/-- **A reading that is cut at the bytes that separate words.** -/
def CutsAtBreaks (f : List UInt8 → List α) : Prop :=
  ∀ b, isBreakByte b = true → ∀ a rest, f (a ++ b :: rest) = f a ++ (f [b] ++ f rest)

namespace CutsAtBreaks

/-- It reads nothing from nothing. -/
theorem nil (h : CutsAtBreaks f) : f [] = [] := by
  have hcut := congrArg List.length (h 0x20 rfl [] [])
  simp only [List.nil_append, List.length_append] at hcut
  exact List.length_eq_zero_iff.mp (by omega)

/-- The input behind such a byte is read by itself, -/
theorem append_of_getLast (h : CutsAtBreaks f) (hfront : ∀ b ∈ front.getLast?, isBreakByte b = true)
    (rest : List UInt8) : f (front ++ rest) = f front ++ f rest := by
  rcases List.eq_nil_or_concat front with rfl | ⟨before, b, rfl⟩
  · rw [h.nil]
    rfl
  · have hb : isBreakByte b = true := hfront b (by simp)
    rw [List.concat_eq_append, List.append_assoc, List.singleton_append, h b hb before rest,
      h b hb before [], h.nil, List.append_nil, List.append_assoc]

/-- and so is the input in front of it. -/
theorem append_of_head (h : CutsAtBreaks f) (hrest : ∀ b ∈ rest.head?, isBreakByte b = true)
    (front : List UInt8) : f (front ++ rest) = f front ++ f rest := by
  cases rest with
  | nil => rw [h.nil, List.append_nil, List.append_nil]
  | cons b rest =>
    have hb : isBreakByte b = true := hrest b rfl
    have hcut := h b hb [] rest
    rw [h.nil, List.nil_append, List.nil_append] at hcut
    rw [h b hb front rest, hcut]

end CutsAtBreaks

/-- **The tokens of an input** are those of its parts. -/
theorem tokenize_cutsAtBreaks : CutsAtBreaks tokenize := by
  intro b hb a rest
  have hbyte : tokenize [b] = (breakByteLexemes b).flatMap ofLexeme := by
    have hcut := tokenize_append hb [] []
    rwa [show tokenize [] = [] from rfl, List.append_nil, List.nil_append] at hcut
  rw [tokenize_append hb, hbyte]

/-- **The readable form of an input** is that of its parts. -/
theorem lossy_cutsAtBreaks : CutsAtBreaks lossy := by
  intro b hb a rest
  have hascii := (of_isBreakByte hb).1
  have hnil : lossy [] = [] := lossy_bytesOf []
  have hbyte : lossy [b] = [Char.ofNat b.toNat] := by
    have hcut := lossy_append_ascii hascii [] []
    rwa [hnil] at hcut
  rw [lossy_append_ascii hascii, hbyte]
  rfl

/-! ### Words -/

/-- **A word of an input**: bytes none of which separates words, where no more such bytes stand
in front of them or behind them. -/
structure IsWordBetween (front word rest : List UInt8) : Prop where
  /-- A word is not empty, -/
  ne_nil : word ≠ []
  /-- nothing breaks it, -/
  unbroken : ∀ b ∈ word, isBreakByte b = false
  /-- and it begins -/
  begins : ∀ b ∈ front.getLast?, isBreakByte b = true
  /-- and ends where it can. -/
  ends : ∀ b ∈ rest.head?, isBreakByte b = true

instance (front word rest : List UInt8) : Decidable (IsWordBetween front word rest) :=
  decidable_of_iff (word ≠ [] ∧ (word.all fun b => !isBreakByte b) = true ∧
      front.getLast?.all isBreakByte = true ∧ rest.head?.all isBreakByte = true) (by
    simp only [List.all_eq_true, Bool.not_eq_true', Option.all_eq_true]
    exact ⟨fun h => ⟨h.1, h.2.1, h.2.2.1, h.2.2.2⟩, fun h => ⟨h.1, h.2, h.3, h.4⟩⟩)

namespace IsWordBetween

/-- **An input is read word by word.** -/
theorem append_eq (h : IsWordBetween front word rest) (hf : CutsAtBreaks f) :
    f (front ++ word ++ rest) = f front ++ (f word ++ f rest) := by
  rw [List.append_assoc, hf.append_of_getLast h.begins, hf.append_of_head h.ends]

/-- A word is one lexeme. -/
theorem tokenize_eq (h : IsWordBetween front word rest) : tokenize word = ofLexeme word := by
  rw [tokenize, (lexemes_word h.unbroken).1]
  cases word with
  | nil => exact absurd rfl h.ne_nil
  | cons b word => rw [push, List.flatMap_singleton]

end IsWordBetween

end Token

end SqlCatalog
