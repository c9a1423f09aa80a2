import Mathlib.Data.List.Chain
import SqlCatalog.Proofs.Text.Matching
import SqlCatalog.Proofs.Text.Subparts

/-!
# Loose brackets are what a word gives up

Of the tokens of a word some are brackets. Where in the word they stand is
`SqlCatalog.Token.bracketPlaces`, and it is where the loose brackets of the word are, those that
have no partner in it (`SqlCatalog.Token.mem_bracketPlaces_splitLoose`). The other tokens are what
stands between them, and their brackets pair up. No two of them stand side by side, so a word is
cut at its loose brackets and nowhere else.

| token | what it is |
|---|---|
| `,` or `;` | a mark |
| `(` or `)` | a loose bracket |
| any other | a word with paired brackets, in lower case (`SqlCatalog.Token.IsPairedWord`) |

That is `SqlCatalog.Token.tokenize_cuts_loose_brackets`. The induction on the word carries what
has been read of it. In front of the part that is left, the number of open brackets is that of
`SqlCatalog.Text.openAfter`, and it is what decides whether a closing bracket is loose.
-/

namespace SqlCatalog

namespace Token

open Text

variable {depth k n : Nat} {front word text piece : List Char} {pieces others : List (List Char)}

/-! ### Where the brackets stand -/

/-- A token that is a bracket. -/
def IsBracket (token : String) : Prop :=
  token = "(" ∨ token = ")"

instance (token : String) : Decidable (IsBracket token) :=
  inferInstanceAs (Decidable (_ ∨ _))

/-- **The places of the brackets** among tokens that stand one behind the other, the first of them
at place `n`. -/
def bracketPlaces : Nat → List String → List Nat
  | _, [] => []
  | n, token :: tokens =>
    if IsBracket token then n :: bracketPlaces (n + token.length) tokens
    else bracketPlaces (n + token.length) tokens

/-- The places are in order. -/
theorem bracketPlaces_sorted (n : Nat) (tokens : List String) :
    (∀ k ∈ bracketPlaces n tokens, n ≤ k) ∧ (bracketPlaces n tokens).Pairwise (· < ·) := by
  induction tokens generalizing n with
  | nil => exact ⟨nofun, List.Pairwise.nil⟩
  | cons token tokens ih =>
    obtain ⟨hle, hsorted⟩ := ih (n + token.length)
    rw [bracketPlaces]
    split
    · next hbracket =>
      have hlen : token.length = 1 := by
        rcases hbracket with rfl | rfl <;> rfl
      refine ⟨List.forall_mem_cons.mpr ⟨Nat.le_refl n, fun k hk => ?_⟩,
        List.pairwise_cons.mpr ⟨fun k hk => ?_, hsorted⟩⟩
      · have := hle k hk
        omega
      · have := hle k hk
        omega
    · refine ⟨fun k hk => ?_, hsorted⟩
      have := hle k hk
      omega

theorem isBracket_ofList : IsBracket (String.ofList piece) ↔ piece = ['('] ∨ piece = [')'] := by
  have h : ∀ text, String.ofList piece = String.ofList text ↔ piece = text := fun text =>
    ⟨fun he => String.ofList_injective he, congrArg String.ofList⟩
  exact or_congr (h ['(']) (h [')'])

/-- A paired piece is no bracket. -/
theorem not_isBracket_of_isPaired (h : IsPaired piece) : ¬IsBracket (String.ofList piece) := by
  rw [isBracket_ofList]
  rintro (rfl | rfl) <;> exact absurd h (by decide)

/-- A paired piece takes up its room and has no place. -/
theorem bracketPlaces_push (h : IsPaired piece) (n : Nat) :
    bracketPlaces n ((push piece pieces).map String.ofList) =
      bracketPlaces (n + piece.length) (pieces.map String.ofList) := by
  cases piece with
  | nil => rfl
  | cons c piece =>
    rw [push, List.map_cons, bracketPlaces, if_neg (not_isBracket_of_isPaired h),
      String.length_ofList]

/-! ### The places of a word -/

/-- A place is that of the first character or one behind it. -/
theorem length_le_and_iff {P : Nat → Prop} {m : Nat} :
    m ≤ k ∧ P k ↔ (k = m ∧ P m) ∨ (m + 1 ≤ k ∧ P k) := by
  constructor
  · rintro ⟨hle, h⟩
    rcases Nat.eq_or_lt_of_le hle with rfl | hlt
    · exact Or.inl ⟨rfl, h⟩
    · exact Or.inr ⟨hlt, h⟩
  · rintro (⟨rfl, h⟩ | ⟨hlt, h⟩)
    · exact ⟨Nat.le_refl _, h⟩
    · exact ⟨by omega, h⟩

/-- **The brackets that the rest of a word gives up** are its loose ones. -/
theorem mem_bracketPlaces_splitLooseFrom (hword : IsWord (front ++ word)) :
    k ∈ bracketPlaces (front.length + (splitLooseFrom (openAfter front) word).1.length)
        ((splitLooseFrom (openAfter front) word).2.map String.ofList) ↔
      front.length ≤ k ∧ IsLoose (front ++ word) k := by
  induction word generalizing front with
  | nil =>
    refine iff_of_false nofun fun ⟨hle, hloose⟩ => ?_
    have hnone : (front ++ [])[k]? = none := List.getElem?_eq_none (by simpa using hle)
    rcases hloose.1 with h | h <;> exact absurd (hnone.symm.trans h) nofun
  | cons c word ih =>
    obtain ⟨hfront, hbehind⟩ := isWord_append.mp hword
    obtain ⟨-, hrest⟩ := isWord_cons.mp hbehind
    replace ih := @ih (front ++ [c]) (by rwa [List.append_assoc, List.singleton_append])
    obtain ⟨hhead, -⟩ := @isPiece_of_mem_splitLooseFrom (openStep (openAfter front) c) word hrest
    rw [openAfter_concat, List.append_assoc, List.singleton_append, List.length_append,
      List.length_singleton] at ih
    rw [length_le_and_iff, ← ih, splitLooseFrom]
    -- a bracket that is kept is not loose, and one that is cut off stands at its own place
    generalize hread : splitLooseFrom (openStep (openAfter front) c) word = read at hhead ⊢
    obtain ⟨piece, others⟩ := read
    have hkeep : ¬IsLoose (front ++ c :: word) front.length →
        (k ∈ bracketPlaces (front.length + (c :: piece).length) (others.map String.ofList) ↔
          (k = front.length ∧ IsLoose (front ++ c :: word) front.length) ∨
            k ∈ bracketPlaces (front.length + 1 + piece.length) (others.map String.ofList)) := by
      intro hloose
      rw [List.length_cons, Nat.add_assoc, Nat.add_comm 1]
      simp [hloose]
    have hcut : IsLoose (front ++ c :: word) front.length → IsPaired piece →
        IsBracket (String.ofList [c]) →
        (k ∈ bracketPlaces (front.length + ([] : List Char).length)
            (([c] :: push piece others).map String.ofList) ↔
          (k = front.length ∧ IsLoose (front ++ c :: word) front.length) ∨
            k ∈ bracketPlaces (front.length + 1 + piece.length) (others.map String.ofList)) := by
      intro hloose hpaired hbracket
      rw [List.map_cons, bracketPlaces, if_pos hbracket, String.length_ofList,
        bracketPlaces_push hpaired]
      simp [hloose]
    by_cases hopen : c = '('
    · subst hopen
      rw [openStep, if_pos rfl] at hread hhead
      rw [if_pos rfl, hread]
      dsimp only
      split
      · next hs =>
        rw [hs, Nat.min_zero] at hhead
        exact hcut ((isLoose_open hrest front).mpr hs) hhead (Or.inl rfl)
      · next hs => exact hkeep (mt (isLoose_open hrest front).mp hs)
    by_cases hclose : c = ')'
    · subst hclose
      rw [openStep, if_neg (by decide), if_pos rfl] at hread hhead
      rw [if_neg (by decide), if_pos rfl, hread]
      dsimp only
      split
      · next h0 =>
        rw [h0, Nat.zero_sub, Nat.zero_min] at hhead
        exact hcut ((isLoose_close hfront word).mpr h0) hhead (Or.inr rfl)
      · next h0 => exact hkeep (mt (isLoose_close hfront word).mp h0)
    · rw [openStep, if_neg hopen, if_neg hclose] at hread
      rw [if_neg hopen, if_neg hclose, hread]
      exact hkeep (not_isLoose hopen hclose front word)

/-- **The brackets that a word gives up** are its loose ones. -/
theorem mem_bracketPlaces_splitLoose (hword : IsWord word) :
    k ∈ bracketPlaces 0 ((splitLoose word).map String.ofList) ↔ IsLoose word k := by
  obtain ⟨hhead, -⟩ := @isPiece_of_mem_splitLooseFrom 0 word hword
  rw [Nat.zero_min] at hhead
  have hplaces := @mem_bracketPlaces_splitLooseFrom k [] word hword
  rw [splitLoose, bracketPlaces_push hhead]
  exact hplaces.trans (and_iff_right (Nat.zero_le k))

/-! ### Neighbours -/

/-- **Of two neighbours one is a bracket.** -/
def IsAlternating (tokens : List String) : Prop :=
  tokens.IsChain fun token next => IsBracket token ∨ IsBracket next

/-- **Tokens that alternate and begin with a bracket.** -/
def IsAlternatingFromBracket (tokens : List String) : Prop :=
  (∀ token ∈ tokens.head?, IsBracket token) ∧ IsAlternating tokens

/-- Any piece may stand in front of them. -/
theorem IsAlternatingFromBracket.push
    (h : IsAlternatingFromBracket (pieces.map String.ofList)) (piece : List Char) :
    IsAlternating ((push piece pieces).map String.ofList) := by
  cases piece with
  | nil => exact h.2
  | cons c piece => exact List.isChain_cons.mpr ⟨fun token hmem => Or.inr (h.1 token hmem), h.2⟩

/-- The pieces behind the head of a word begin with a bracket. -/
theorem isAlternating_splitLooseFrom (depth : Nat) (word : List Char) :
    IsAlternatingFromBracket ((splitLooseFrom depth word).2.map String.ofList) := by
  induction word generalizing depth with
  | nil => exact ⟨nofun, List.IsChain.nil⟩
  | cons c word ih =>
    obtain ⟨inner, hkeep | ⟨hc, hcut⟩⟩ := splitLooseFrom_cons depth c word
    · rw [hkeep]
      exact ih inner
    · have hbracket : IsBracket (String.ofList [c]) := by
        rw [isBracket_ofList, List.singleton_inj, List.singleton_inj]
        exact hc
      rw [hcut]
      refine ⟨fun token h => Option.some.inj h ▸ hbracket, ?_⟩
      exact List.isChain_cons.mpr ⟨fun token _ => Or.inl hbracket, (ih inner).push _⟩

/-- **A word is cut at its loose brackets only.** -/
theorem isAlternating_splitLoose (word : List Char) :
    IsAlternating ((splitLoose word).map String.ofList) :=
  (isAlternating_splitLooseFrom 0 word).push _

/-! ### The tokens of an input -/

/-- **A word with paired brackets**, in lower case. -/
structure IsPairedWord (text : List Char) : Prop where
  /-- It is not empty, -/
  ne_nil : text ≠ []
  /-- holds no blank, comma or semicolon -/
  isWord : IsWord text
  /-- and no ASCII letter in upper case, -/
  isLower : ∀ c ∈ text, c.isUpper = false
  /-- and its brackets pair up. -/
  isBalanced : IsBalanced text

/-- What is lower-cased holds no capital. -/
theorem isUpper_toLower (c : Char) : c.toLower.isUpper = false := by
  by_cases hc : c.toNat < 0x80
  · have hascii : ∀ n < 0x80, (Char.ofNat n).toLower.isUpper = false := by decide
    have hn := hascii c.toNat hc
    rwa [Char.ofNat_toNat] at hn
  · rw [toLower_of_le (Nat.not_lt.mp hc), isUpper_of_le (Nat.not_lt.mp hc)]

/-- The tokens of an input are marks and pieces of words. -/
theorem of_mem_tokenize {bytes : List UInt8} {token : String} (h : token ∈ tokenize bytes) :
    token ∈ [",", ";"] ∨
      ∃ word piece, IsWord word ∧ piece ∈ splitLoose (lower word) ∧
        token = String.ofList piece := by
  rw [tokenize_eq_ofText] at h
  generalize lossy bytes = text at h
  have hwords : ∀ w, IsWord w → token ∈ ofText w → ∃ word piece, IsWord word ∧
      piece ∈ splitLoose (lower word) ∧ token = String.ofList piece := by
    intro w hw h
    rw [ofText_word hw] at h
    obtain ⟨piece, hpiece, rfl⟩ := List.mem_map.mp h
    exact ⟨w, piece, hw, hpiece, rfl⟩
  induction text using break_induction with
  | word w hw => exact Or.inr (hwords w hw h)
  | append w c text hw hc ih =>
    rw [ofText_append hc] at h
    rcases List.mem_append.mp h with h | h
    · exact Or.inr (hwords w hw h)
    rcases List.mem_append.mp h with h | h
    · left
      rw [breakTokens] at h
      split at h
      · next hm =>
        simp only [isMarkChar, Bool.or_eq_true, beq_iff_eq] at hm
        rw [List.mem_singleton.mp h]
        rcases hm with rfl | rfl <;> decide
      · cases h
    · exact ih h

/-- **What a token can be.** -/
theorem isPairedWord_of_mem_tokenize {bytes : List UInt8} {token : String}
    (h : token ∈ tokenize bytes) :
    token ∈ [",", ";", "(", ")"] ∨ IsPairedWord token.toList := by
  rcases of_mem_tokenize h with hmark | ⟨word, piece, hword, hpiece, rfl⟩
  · left
    simp only [List.mem_cons, List.not_mem_nil, or_false] at hmark
    rcases hmark with rfl | rfl <;> decide
  · have hlower := isWord_lower hword
    rcases isPiece_of_mem_splitLoose hlower piece hpiece with rfl | rfl | hpaired
    · exact Or.inl (by decide)
    · exact Or.inl (by decide)
    · -- what is left of the word has its characters
      have hmem : ∀ c ∈ piece, c ∈ lower word := by
        intro c hc
        rw [← flatten_splitLoose (lower word)]
        exact List.mem_flatten_of_mem hpiece hc
      have hpieceWord : IsWord piece := fun c hc => hlower c (hmem c hc)
      refine Or.inr ⟨?_, ?_, fun c hc => ?_, ?_⟩
      · rw [String.toList_ofList]
        exact ne_nil_of_mem_splitLoose piece hpiece
      · rwa [String.toList_ofList]
      · rw [String.toList_ofList] at hc
        obtain ⟨d, -, rfl⟩ := List.mem_map.mp (hmem c hc)
        exact isUpper_toLower d
      · rw [String.toList_ofList]
        exact (isBalanced_iff hpieceWord).mpr hpaired

/-- **A text cut at its loose brackets**: the tokens that are brackets are those of its brackets
that have no partner, in order, and nothing else is cut. -/
structure IsCutAtLoose (text : List Char) (tokens : List String) : Prop where
  /-- The tokens are the text, -/
  flatMap_toList : tokens.flatMap String.toList = text
  /-- the brackets among them stand in order -/
  sorted : (bracketPlaces 0 tokens).Pairwise (· < ·)
  /-- where the loose brackets of the text are, -/
  mem_iff : ∀ k, k ∈ bracketPlaces 0 tokens ↔ IsLoose text k
  /-- and of two neighbours one is a bracket. -/
  alternating : IsAlternating tokens

/-- A word without breaks is cut at its loose brackets. -/
theorem isCutAtLoose_splitLoose (hword : IsWord word) :
    IsCutAtLoose word ((splitLoose word).map String.ofList) where
  flatMap_toList := by
    rw [List.flatMap_map]
    simp [flatten_splitLoose]
  sorted := (bracketPlaces_sorted 0 _).2
  mem_iff _ := mem_bracketPlaces_splitLoose hword
  alternating := isAlternating_splitLoose word

/-- **Brackets are split where they must be and nowhere else.** Every token is a mark, a bracket or
a word with paired brackets, and each word of an input is cut exactly at the brackets that have no
partner in it. -/
theorem tokenize_cuts_loose_brackets (bytes : List UInt8) :
    (∀ token ∈ tokenize bytes, token ∈ [",", ";", "(", ")"] ∨ IsPairedWord token.toList) ∧
      ∀ front word rest, bytes = front ++ word ++ rest → IsWordBetween front word rest →
        tokenize bytes = tokenize front ++ (tokenize word ++ tokenize rest) ∧
          IsCutAtLoose (lower (lossy word)) (tokenize word) := by
  refine ⟨fun token => isPairedWord_of_mem_tokenize, ?_⟩
  rintro front word rest rfl hword
  refine ⟨hword.append_eq tokenize_cutsAtBreaks, ?_⟩
  rw [hword.tokenize_eq, ofLexeme, lossy_map_lowerByte]
  exact isCutAtLoose_splitLoose (isWord_lower (isWord_lossy hword.unbroken))

/-- In `)F(x))(` behind a blank and in front of a comma, the brackets in the middle are partners
and the others are loose. -/
theorem tokenize_cuts_loose_brackets_nested :
    IsWordBetween [0x61, 0x20] [0x29, 0x46, 0x28, 0x78, 0x29, 0x29, 0x28] [0x2C, 0x62] ∧
      IsCutAtLoose (lower (lossy [0x29, 0x46, 0x28, 0x78, 0x29, 0x29, 0x28]))
        [")", "f(x)", ")", "("] ∧
      bracketPlaces 0 [")", "f(x)", ")", "("] = [0, 5, 6] := by
  have hword : IsWordBetween [0x61, 0x20] [0x29, 0x46, 0x28, 0x78, 0x29, 0x29, 0x28]
      [0x2C, 0x62] := by decide
  have htokens : tokenize [0x29, 0x46, 0x28, 0x78, 0x29, 0x29, 0x28] = [")", "f(x)", ")", "("] := by
    decide +kernel
  have hcut := ((tokenize_cuts_loose_brackets _).2 _ _ _ rfl hword).2
  rw [htokens] at hcut
  exact ⟨hword, hcut, by decide⟩

end Token

end SqlCatalog
