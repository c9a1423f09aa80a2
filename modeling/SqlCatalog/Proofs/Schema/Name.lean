import SqlCatalog.Proofs.Identifier
import SqlCatalog.Proofs.Schema.Phrase

/-!
# Plain names

A *plain name* needs no quotes and is no keyword in its place
(`SqlCatalog.PlainName`), and a table is identified by one such name or by two
with a period between them (`SqlCatalog.identifierText`). Such identifiers are
steady phrases of one token, and the table and the column they name have them for
names (`SqlCatalog.ofIdentifier_identifierText`,
`SqlCatalog.PlainName.ofIdentifier_value`).
-/

namespace SqlCatalog

open Text Noise Token Identifier

/-! ### Words as identifiers -/

/-- No quotes are dropped from the ends of a plain word. -/
theorem dropEnds_of_isPlainWord {word : List Char} (h : IsPlainWord word) : dropEnds word = word :=
  dropEnds_of_not_mem (h.not_mem rfl)

/-! ### Names -/

/-- **A plain name**: a lower-case letter or an underscore, and behind it such
characters and digits. The keyword of a constraint clause is none. -/
structure PlainName where
  /-- The name. -/
  value : String
  /-- It is a plain identifier. -/
  isPlain : isPlain value.toList = true
  /-- It holds no dollar sign. -/
  dollar : '$' ∉ value.toList
  /-- It is not the keyword of a clause. -/
  ne_keyword : value ≠ "constraint"

namespace PlainName

variable (name : PlainName)

/-- The text of a name. -/
def text : List Char :=
  name.value.toList

theorem ofList_text : String.ofList name.text = name.value :=
  String.ofList_toList

theorem isPlainWord : IsPlainWord name.text := by
  have hplain := name.isPlain
  have hdollar := name.dollar
  rw [text]
  generalize name.value.toList = text at hplain hdollar
  cases text with
  | nil => cases hplain
  | cons c text =>
    rw [Identifier.isPlain, Bool.and_eq_true, List.all_eq_true] at hplain
    refine ⟨List.cons_ne_nil _ _, List.forall_mem_cons.mpr ⟨?_, fun d hd => ?_⟩⟩
    · have hstart := hplain.1
      rw [isStart, Bool.or_eq_true] at hstart
      rw [isPlainChar, Bool.or_eq_true, Bool.or_eq_true]
      exact hstart.imp_left Or.inl
    · have hrest := hplain.2 d hd
      have hne : (d == '$') = false := by
        rw [beq_eq_false_iff_ne]
        rintro rfl
        exact hdollar (List.mem_cons_of_mem _ hd)
      rwa [isRest, hne, Bool.or_false] at hrest

theorem ofText_text : ofText name.text = [name.value] := by
  rw [name.isPlainWord.ofText_eq, name.ofList_text]

theorem isSteady : IsSteady name.text := by
  refine name.isPlainWord.isSteady fun h => name.ne_keyword ?_
  rw [← name.ofList_text, h]
  rfl

theorem isName : isName name.text = true := by
  rw [Identifier.isName, dropEnds_of_isPlainWord name.isPlainWord]
  exact name.isPlain

theorem isColumnName : isColumnName name.value = true :=
  name.isName

/-- **The column that a plain name names** has it for its name. -/
theorem ofIdentifier_value : Column.ofIdentifier name.value = { name := name.value } := by
  rw [Column.ofIdentifier, unquote, ← text, dropQuotes_of_not_mem (name.isPlainWord.not_mem rfl),
    name.ofList_text]

end PlainName

/-! ### Identifiers of tables -/

/-- **The identifier of a table**, with its schema or without one. -/
def identifierText (schema : Option PlainName) (name : PlainName) : List Char :=
  match schema with
  | none => name.text
  | some schema => schema.text ++ '.' :: name.text

variable (schema : Option PlainName) (name : PlainName)

theorem isPaired_identifierText : IsPaired (identifierText schema name) := by
  cases schema with
  | none => exact name.isPlainWord.isPaired
  | some schema =>
    have hperiod : IsPaired ['.'] := rfl
    exact isPaired_append schema.isPlainWord.isPaired
      (isPaired_append hperiod name.isPlainWord.isPaired)

/-- **An identifier is one token.** -/
theorem ofText_identifierText :
    ofText (identifierText schema name) = [String.ofList (identifierText schema name)] := by
  have hpaired := isPaired_identifierText schema name
  cases schema with
  | none => exact name.isPlainWord.ofText_eq
  | some schema =>
    have hword : IsWord (identifierText (some schema) name) :=
      isWord_append.mpr ⟨schema.isPlainWord.isWord, isWord_cons.mpr ⟨rfl, name.isPlainWord.isWord⟩⟩
    have hlower : lower (identifierText (some schema) name) = identifierText (some schema) name := by
      have happend : lower (schema.text ++ '.' :: name.text) =
          lower schema.text ++ '.' :: lower name.text := List.map_append
      rw [identifierText, happend, schema.isPlainWord.lower_eq, name.isPlainWord.lower_eq]
    rw [ofText_paired hword (by simp [identifierText]) hpaired, hlower]

theorem isSteady_identifierText : IsSteady (identifierText schema name) := by
  cases schema with
  | none => exact name.isSteady
  | some schema =>
    have hmem : ∀ c, Text.isWord c = false → c ≠ '.' → c ∉ identifierText (some schema) name := by
      intro c hc hne hmem
      rcases List.mem_append.mp hmem with h | h
      · exact schema.isPlainWord.not_mem hc h
      · exact name.isPlainWord.not_mem hc ((List.mem_cons.mp h).resolve_left hne)
    have hwords : words ((identifierText (some schema) name).map fold) =
        [schema.text, name.text] := by
      have hfold : (schema.text ++ '.' :: name.text).map fold =
          schema.text.map fold ++ '.' :: name.text.map fold := List.map_append
      rw [identifierText, hfold, schema.isPlainWord.map_fold, name.isPlainWord.map_fold,
        words_append rfl, schema.isPlainWord.words_eq, name.isPlainWord.words_eq]
      rfl
    have hkeyword : ∀ name : PlainName, clauseKeyword ≠ name.text := by
      intro name h
      refine name.ne_keyword ?_
      rw [← name.ofList_text, ← h]
      rfl
    refine isSteady_of_words (fun c hc h => ?_) ?_ fun hopen => ?_
    · simp only [List.mem_cons, List.not_mem_nil, or_false] at h
      rcases h with rfl | rfl | rfl
      · exact hmem quote rfl (by decide) hc
      · exact hmem '-' rfl (by decide) hc
      · exact hmem '$' rfl (by decide) hc
    · rw [hwords]
      simp [hkeyword]
    · exact absurd hopen (hmem '(' rfl (by decide))

/-- A plain identifier is a table name. -/
theorem isTableName_identifierText :
    isTableName (String.ofList (identifierText schema name)) = true := by
  rw [isTableName, String.toList_ofList]
  cases schema with
  | none =>
    rw [identifierText, cutFirst?_of_not_mem (name.isPlainWord.not_mem rfl)]
    exact name.isName
  | some schema =>
    rw [identifierText, cutFirst?_append (schema.isPlainWord.not_mem rfl)]
    exact Bool.and_eq_true_iff.mpr ⟨schema.isName, name.isName⟩

/-- **The table that a plain identifier names** has its parts for schema and
name. -/
theorem ofIdentifier_identifierText :
    Table.ofIdentifier (String.ofList (identifierText schema name)) =
      ⟨String.ofList (identifierText schema name), name.value, schema.map PlainName.value, []⟩ := by
  rw [Table.ofIdentifier, String.toList_ofList]
  cases schema with
  | none =>
    rw [identifierText, cutFirst?_of_not_mem (name.isPlainWord.not_mem rfl), name.ofList_text]
    dsimp only
    rw [unquote, ← PlainName.text, dropQuotes_of_not_mem (name.isPlainWord.not_mem rfl), name.ofList_text]
    rfl
  | some schema =>
    rw [identifierText, cutFirst?_append (schema.isPlainWord.not_mem rfl)]
    dsimp only
    rw [dropQuotes_of_not_mem (name.isPlainWord.not_mem rfl), dropQuotes_of_not_mem (schema.isPlainWord.not_mem rfl),
      name.ofList_text, schema.ofList_text]
    rfl

end SqlCatalog
