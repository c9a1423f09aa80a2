import SqlCatalog.Proofs.Text.Loose

/-!
# Tokens written down

Tokens can be written down as an input again, with a blank between any two of them
(`SqlCatalog.Token.written`), and reading that input gives the tokens back
(`SqlCatalog.Token.tokenize_is_canonical`). So the tokens of an input are a normal form of it:
where an input had several blanks, a mark without blanks around it, a capital, or bytes that
cannot be read, what is written down has none of these, and its tokens are the same.

That rests on two facts. A token is an input with one token, which is itself
(`SqlCatalog.Token.ofText_toList_of_mem_tokenize`): there is no capital in it to be lower-cased and
no bracket without a partner to be cut off. And blanks and marks cut an input into parts that are
read one by one, so nothing of a word is left over at a blank, at the end of a line or at the end
of the input.
-/

namespace SqlCatalog

open Text

namespace Token

variable {bytes : List UInt8} {text : List Char} {texts : List (List Char)} {token : String}
  {gap : Char}

/-! ### One token -/

/-- A text without capitals is its own lower-case form. -/
theorem lower_eq_self (h : ∀ c ∈ text, c.isUpper = false) : lower text = text := by
  have hsame : ∀ c ∈ text, c.toLower = id c := fun c hc =>
    dif_neg (of_decide_eq_false (h c hc))
  rw [lower, List.map_congr_left hsame, List.map_id]

/-- **A token is read as itself.** -/
theorem ofText_toList_of_mem_tokenize (h : token ∈ tokenize bytes) :
    ofText token.toList = [token] := by
  rcases isPairedWord_of_mem_tokenize h with hmark | hword
  · simp only [List.mem_cons, List.not_mem_nil, or_false] at hmark
    rcases hmark with rfl | rfl | rfl | rfl <;> rfl
  · have hpaired : IsPaired token.toList := (isBalanced_iff hword.isWord).mp hword.isBalanced
    rw [ofText_paired hword.isWord hword.ne_nil hpaired, lower_eq_self hword.isLower,
      String.ofList_toList]

/-! ### Tokens behind each other -/

/-- What stands between the words that a byte separates: a token if the byte is a mark. -/
theorem breakByteLexemes_tokens {b : UInt8} (hb : isBreakByte b) :
    (breakByteLexemes b).flatMap ofLexeme =
      if isMark b then [String.ofList [Char.ofNat b.toNat]] else [] := by
  simp only [isBreakByte, isMark, isAsciiBlank, Bool.or_eq_true, beq_iff_eq] at hb
  rcases hb with (rfl | rfl) | (((rfl | rfl) | rfl) | rfl) | rfl <;> decide +kernel

/-- Texts with blanks between them are read one by one. -/
theorem ofText_intercalate (hgap : isGap gap) (texts : List (List Char)) :
    ofText ([gap].intercalate texts) = texts.flatMap ofText := by
  induction texts with
  | nil => rfl
  | cons text texts ih =>
    cases texts with
    | nil => simp [List.intercalate]
    | cons next texts =>
      rw [List.intercalate_cons_cons, List.append_assoc, List.singleton_append,
        ofText_append_gap hgap, ih, ← List.flatMap_cons]

/-- Texts that are one token each are as many tokens. -/
theorem ofText_flatMap {tokens : List String}
    (h : ∀ token ∈ tokens, ofText token.toList = [token]) :
    (tokens.map String.toList).flatMap ofText = tokens := by
  induction tokens with
  | nil => rfl
  | cons token tokens ih =>
    obtain ⟨hfirst, hrest⟩ := List.forall_mem_cons.mp h
    rw [List.map_cons, List.flatMap_cons, hfirst, ih hrest, List.singleton_append]

/-- **Tokens written down**, with a character between any two of them. -/
def written (gap : Char) (tokens : List String) : List UInt8 :=
  bytesOf ([gap].intercalate (tokens.map String.toList))

/-- **What has been written down is read back.** -/
theorem tokenize_written (hgap : isGap gap) (bytes : List UInt8) :
    tokenize (written gap (tokenize bytes)) = tokenize bytes := by
  rw [written, tokenize_bytesOf, ofText_intercalate hgap,
    ofText_flatMap fun _ => ofText_toList_of_mem_tokenize]

/-- **The tokens of an input are a normal form of it.** Written down with blanks between them they
are read as they are; and a byte that separates words cuts an input into parts whose tokens stand
one behind the other, with a token between them if the byte is a mark. -/
theorem tokenize_is_canonical :
    (∀ bytes gap, isGap gap = true → tokenize (written gap (tokenize bytes)) = tokenize bytes) ∧
      ∀ a separator b, isBreakByte separator = true →
        tokenize (a ++ separator :: b) = tokenize a ++
          ((if isMark separator then [String.ofList [Char.ofNat separator.toNat]] else []) ++
            tokenize b) := by
  refine ⟨fun bytes gap hgap => tokenize_written hgap bytes, fun a separator b hbreak => ?_⟩
  rw [tokenize_append hbreak, breakByteLexemes_tokens hbreak]

/-- The tokens of `(A é` cut off behind the first byte of the letter, and of that input in front of
`;` and `b)`. -/
theorem tokenize_is_canonical_cut_short :
    tokenize [0x28, 0x41, 0x20, 0xC3] = ["(", "a", "\uFFFD"] ∧
      tokenize (written '\n' (tokenize [0x28, 0x41, 0x20, 0xC3])) =
        tokenize [0x28, 0x41, 0x20, 0xC3] ∧
      tokenize ([0x28, 0x41, 0x20, 0xC3] ++ 0x3B :: [0x62, 0x29]) =
        ["(", "a", "\uFFFD", ";", "b", ")"] := by
  have hread : tokenize [0x28, 0x41, 0x20, 0xC3] = ["(", "a", "\uFFFD"] := by decide +kernel
  have hrest : tokenize [0x62, 0x29] = ["b", ")"] := by decide +kernel
  refine ⟨hread, tokenize_is_canonical.1 _ '\n' rfl, ?_⟩
  rw [tokenize_is_canonical.2 _ 0x3B _ rfl, hread, hrest]
  rfl

end Token

end SqlCatalog
