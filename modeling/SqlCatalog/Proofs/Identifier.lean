import SqlCatalog.Catalog.Basic

/-!
# Identifiers and the names they stand for

A token writes an identifier with or without double quotes, and the name it stands for has
none of them. Here is what the operations of `SqlCatalog.Identifier` do to a text in which
the marks they look for do not stand, and what follows for names: the name of a column is a
plain identifier (`SqlCatalog.isPlain_unquote`), and as a token it names itself
(`SqlCatalog.isColumnName_of_isPlain`, `SqlCatalog.unquote_of_isPlain`). What a token may look
like that names it is a *spelling* of it (`SqlCatalog.isName_iff`).
-/

namespace SqlCatalog

open Identifier

/-! ### Texts without a mark -/

/-- No character of a text is one that does not stand in it. -/
theorem bne_of_mem {mark c : Char} {text : List Char} (h : mark ∉ text) (hc : c ∈ text) :
    (c != mark) = true := by
  rw [bne_iff_ne]
  rintro rfl
  exact h hc

/-- A text without quotes has none to drop. -/
theorem dropQuotes_of_not_mem {text : List Char} (h : doubleQuote ∉ text) :
    dropQuotes text = text :=
  List.filter_eq_self.mpr fun _ => bne_of_mem h

/-- A text is cut where the mark stands first. -/
theorem cutFirst?_append {mark : Char} {a : List Char} (h : mark ∉ a) (b : List Char) :
    cutFirst? mark (a ++ mark :: b) = some (a, b) := by
  have hne : ∀ c ∈ a, (c != mark) = true := fun _ => bne_of_mem h
  have hdrop : (a ++ mark :: b).dropWhile (· != mark) = mark :: b := by
    rw [List.dropWhile_append_of_pos hne, List.dropWhile_cons_of_neg (by simp)]
  have htake : (a ++ mark :: b).takeWhile (· != mark) = a := by
    rw [List.takeWhile_append_of_pos hne, List.takeWhile_cons_of_neg (by simp), List.append_nil]
  rw [cutFirst?, hdrop]
  exact congrArg (fun before => some (before, b)) htake

/-- A text without the mark is not cut. -/
theorem cutFirst?_of_not_mem {mark : Char} {text : List Char} (h : mark ∉ text) :
    cutFirst? mark text = none := by
  have hdrop : (text ++ []).dropWhile (· != mark) = [] :=
    List.dropWhile_append_of_pos fun _ => bne_of_mem h
  rw [cutFirst?, ← List.append_nil text, hdrop]

/-- **What cutting a text says of it**: the mark stands between the two parts, and not in the
first one. -/
theorem eq_of_cutFirst? {mark : Char} {text a b : List Char}
    (h : cutFirst? mark text = some (a, b)) : text = a ++ mark :: b ∧ mark ∉ a := by
  have htext : text.takeWhile (· != mark) ++ text.dropWhile (· != mark) = text :=
    List.takeWhile_append_dropWhile
  have hbefore := List.all_eq_true.mp (List.all_takeWhile (p := (· != mark)) (l := text))
  have hmark := List.head?_dropWhile_not (· != mark) text
  rw [cutFirst?] at h
  cases hdrop : text.dropWhile (· != mark) with
  | nil =>
    rw [hdrop] at h
    cases h
  | cons c after =>
    rw [hdrop] at h htext hmark
    cases h
    obtain rfl : c = mark := bne_eq_false_iff_eq.mp hmark
    exact ⟨htext.symm, fun hmem => bne_iff_ne.mp (hbefore c hmem) rfl⟩

/-- A text without the mark is all behind the last one. -/
theorem afterLast_of_not_mem {mark : Char} {text : List Char} (h : mark ∉ text) :
    afterLast mark text = text := by
  have htake : (text.reverse ++ []).takeWhile (· != mark) = text.reverse ++ [] :=
    List.takeWhile_append_of_pos fun _ hc => bne_of_mem h (List.mem_reverse.mp hc)
  rw [List.append_nil] at htake
  rw [afterLast, htake, List.reverse_reverse]

/-- A text without quotes has none to drop at its ends. -/
theorem dropEnds_of_not_mem {text : List Char} (h : doubleQuote ∉ text) :
    dropEnds text = text := by
  have hopening : ∀ text : List Char, doubleQuote ∉ text → dropOpening text = text := by
    intro text htext
    cases text with
    | nil => rfl
    | cons c text =>
      rw [dropOpening, if_neg]
      rintro rfl
      exact htext List.mem_cons_self
  rw [dropEnds, hopening text h, hopening text.reverse (by simpa using h), List.reverse_reverse]

/-! ### Names of columns -/

/-- All quotes go with the ones at the ends. -/
theorem dropQuotes_dropEnds (text : List Char) : dropQuotes (dropEnds text) = dropQuotes text := by
  have hopening : ∀ text : List Char, dropQuotes (dropOpening text) = dropQuotes text := by
    intro text
    cases text with
    | nil => rfl
    | cons c text =>
      rw [dropOpening]
      split
      next h => rw [h]; rfl
      next => rfl
  have hreverse : ∀ text : List Char, dropQuotes text.reverse = (dropQuotes text).reverse :=
    fun _ => List.filter_reverse ..
  rw [dropEnds, hreverse, hopening, hreverse, hopening, List.reverse_reverse]

/-- In a plain identifier stand no other characters than may follow in one. -/
theorem not_mem_of_isPlain {c : Char} {text : List Char} (h : isPlain text = true)
    (hc : isRest c = false) : c ∉ text := by
  have hstart : ∀ d, isStart d = true → isRest d = true := by
    intro d hd
    rw [isStart, Bool.or_eq_true] at hd
    rw [isRest, Bool.or_eq_true, Bool.or_eq_true, Bool.or_eq_true]
    exact Or.inl (hd.imp_left Or.inl)
  intro hmem
  have hrest : isRest c = true := by
    cases text with
    | nil => cases h
    | cons d text =>
      rw [isPlain, Bool.and_eq_true, List.all_eq_true] at h
      rcases List.mem_cons.mp hmem with rfl | hmem
      · exact hstart c h.1
      · exact h.2 c hmem
  rw [hc] at hrest
  cases hrest

/-- No quote stands in a plain identifier. -/
theorem doubleQuote_not_mem {text : List Char} (h : isPlain text = true) :
    doubleQuote ∉ text :=
  not_mem_of_isPlain h rfl

/-- **The name of a column is a plain identifier.** -/
theorem isPlain_unquote {identifier : String} (h : isColumnName identifier = true) :
    isPlain (unquote identifier).toList = true := by
  have hplain : isPlain (dropEnds identifier.toList) = true := h
  rwa [unquote, String.toList_ofList, ← dropQuotes_dropEnds,
    dropQuotes_of_not_mem (doubleQuote_not_mem hplain)]

/-- **A column in brackets** is the key column of the token. -/
theorem keyColumn?_ofList {text : List Char} (h : isName text = true) :
    keyColumn? (String.ofList ('(' :: (text ++ [')']))) = some (String.ofList text) := by
  have hclose : (text ++ [')']).getLast? = some ')' := List.getLast?_concat ..
  rw [keyColumn?, String.toList_ofList]
  dsimp only
  rw [List.dropLast_concat, if_pos ⟨rfl, hclose, h⟩]

/-! ### Spellings -/

/-- **What may stand at an end of a name**: nothing or a double quote. -/
def quotes : List (List Char) :=
  [[], [doubleQuote]]

/-- **The texts that spell a name**: the name, with a double quote allowed at either end. -/
def Spells (text name : List Char) : Prop :=
  ∃ opening ∈ quotes, ∃ closing ∈ quotes, text = opening ++ name ++ closing

theorem reverse_of_mem_quotes : ∀ quote ∈ quotes, quote.reverse = quote := by decide

theorem exists_eq_append_dropOpening (text : List Char) :
    ∃ opening ∈ quotes, text = opening ++ dropOpening text := by
  cases text with
  | nil => exact ⟨[], by decide, rfl⟩
  | cons c text =>
    rw [dropOpening]
    split
    next h => exact ⟨[doubleQuote], by decide, by rw [h]; rfl⟩
    next => exact ⟨[], by decide, rfl⟩

/-- One quote is dropped at most, so the text behind it has to begin with another character. -/
theorem dropOpening_append {text : List Char} (h : text.head? ≠ some doubleQuote) :
    ∀ opening ∈ quotes, dropOpening (opening ++ text) = text := by
  have hnone : dropOpening text = text := by
    cases text with
    | nil => rfl
    | cons c text => exact if_neg fun hc => h (congrArg some hc)
  rw [quotes, List.forall_mem_cons, List.forall_mem_cons]
  exact ⟨hnone, rfl, nofun⟩

/-- Every text spells what is left of it between its ends. -/
theorem spells_dropEnds (text : List Char) : Spells text (dropEnds text) := by
  obtain ⟨opening, hopen, hfront⟩ := exists_eq_append_dropOpening text
  obtain ⟨closing, hclose, hback⟩ := exists_eq_append_dropOpening (dropOpening text).reverse
  refine ⟨opening, hopen, closing, hclose, ?_⟩
  rw [List.append_assoc, dropEnds, ← reverse_of_mem_quotes closing hclose, ← List.reverse_append,
    ← hback, List.reverse_reverse, ← hfront]

namespace Spells

variable {text name : List Char}

/-- What is left of a spelling between its ends is the name. -/
theorem dropEnds_eq (h : Spells text name) (hn : isPlain name = true) : dropEnds text = name := by
  obtain ⟨opening, hopen, closing, hclose, rfl⟩ := h
  have hfront : (name ++ closing).head? ≠ some doubleQuote := by
    cases name with
    | nil => cases hn
    | cons c name =>
      rintro ⟨⟩
      exact doubleQuote_not_mem hn List.mem_cons_self
  have hback : name.reverse.head? ≠ some doubleQuote := fun hc =>
    doubleQuote_not_mem hn (List.mem_reverse.mp (List.mem_of_mem_head? hc))
  rw [dropEnds, List.append_assoc, dropOpening_append hfront opening hopen, List.reverse_append,
    reverse_of_mem_quotes closing hclose, dropOpening_append hback closing hclose,
    List.reverse_reverse]

/-- What is left of a spelling without its quotes is the name. -/
theorem dropQuotes_eq (h : Spells text name) (hn : isPlain name = true) :
    dropQuotes text = name := by
  rw [← dropQuotes_dropEnds, h.dropEnds_eq hn, dropQuotes_of_not_mem (doubleQuote_not_mem hn)]

/-- No period stands in a spelling. -/
theorem period_not_mem (h : Spells text name) (hn : isPlain name = true) : '.' ∉ text := by
  obtain ⟨opening, hopen, closing, hclose, rfl⟩ := h
  have hquotes : ∀ quote ∈ quotes, '.' ∉ quote := by decide
  rw [List.mem_append, List.mem_append]
  rintro ((hmem | hmem) | hmem)
  · exact hquotes opening hopen hmem
  · exact not_mem_of_isPlain hn rfl hmem
  · exact hquotes closing hclose hmem

end Spells

/-- **The texts of names** are those that spell a plain identifier. -/
theorem isName_iff {text : List Char} :
    isName text = true ↔ ∃ name, isPlain name = true ∧ Spells text name := by
  constructor
  · exact fun h => ⟨dropEnds text, h, spells_dropEnds text⟩
  · rintro ⟨name, hn, h⟩
    rwa [isName, h.dropEnds_eq hn]

variable {name : String}

/-- A plain identifier is a token that names a column. -/
theorem isColumnName_of_isPlain (h : isPlain name.toList = true) : isColumnName name = true := by
  rwa [isColumnName, isName, dropEnds_of_not_mem (doubleQuote_not_mem h)]

/-- A plain identifier stands for itself. -/
theorem unquote_of_isPlain (h : isPlain name.toList = true) : unquote name = name := by
  rw [unquote, dropQuotes_of_not_mem (doubleQuote_not_mem h), String.ofList_toList]

end SqlCatalog
