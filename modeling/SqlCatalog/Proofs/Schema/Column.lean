import SqlCatalog.Proofs.Column.Option
import SqlCatalog.Proofs.Schema.TypeReading

/-!
# Plain columns

A column of a schema as a dump defines it (`SqlCatalog.PlainColumn`): a phrase of a
name, a type, perhaps a default value, and perhaps the words that say it is not
null. The text of the default value is free but for what would make the reader
take it for something else (`SqlCatalog.PlainDefault`).

Such a definition is read from the entry of a column block, and the block then
ends in the column that it declares (`SqlCatalog.PlainColumn.leads`).
-/

namespace SqlCatalog

open Text Noise Token Identifier

/-! ### Defaults -/

/-- The words that no default value holds: `not` would end it, and noise begins
with the others. -/
def reservedWords : List (List Char) :=
  "not".toList :: clauseKeyword :: volatileCalls

/-- **The text of a default value.** -/
structure PlainDefault where
  /-- The text. -/
  text : List Char
  /-- Its brackets pair up, with no comma outside them and no semicolon. -/
  isPaired : IsPaired text
  /-- It holds no quotes, hyphens and dollar signs. -/
  isPlain_of_mem : ∀ c ∈ text, c ∉ [quote, '-', '$']
  /-- It holds no reserved word, in any letter case. -/
  not_mem_words : ∀ word ∈ reservedWords, word ∉ words (text.map fold)

namespace PlainDefault

variable (expression : PlainDefault)

theorem isSteady : IsSteady expression.text :=
  isSteady_of_words expression.isPlain_of_mem
    (expression.not_mem_words _ (List.mem_cons_of_mem _ List.mem_cons_self)) fun _ name hname =>
      expression.not_mem_words name (List.mem_cons_of_mem _ (List.mem_cons_of_mem _ hname))

/-- The word that ends a default value is no token of it. -/
theorem not_mem_ofText : "not" ∉ ofText expression.text := by
  intro h
  have hmem : "not".toList ∈ words (lower expression.text) :=
    mem_words_of_mem_ofText h (List.cons_ne_nil _ _) (by decide)
  have hfold : ∀ c : Char, fold c.toLower = fold c := by
    have hascii : ∀ n < 0x80, fold (Char.ofNat n).toLower = fold (Char.ofNat n) := by decide
    intro c
    by_cases hc : c.toNat < 0x80
    · have hn := hascii c.toNat hc
      rwa [Char.ofNat_toNat] at hn
    · rw [toLower_of_le (by omega)]
  have hmap : (lower expression.text).map fold = expression.text.map fold := by
    rw [lower, List.map_map]
    exact List.map_congr_left fun c _ => hfold c
  refine expression.not_mem_words "not".toList List.mem_cons_self ?_
  rw [← hmap, words_map fun c => (isWord_fold c).1]
  exact List.mem_map.mpr ⟨_, hmem, rfl⟩

/-- A default value is an expression. -/
theorem expressionDepth?_ofText : expressionDepth? 0 (ofText expression.text) = some 0 :=
  Token.expressionDepth?_ofText expression.isPaired

end PlainDefault

/-! ### Columns -/

/-- **A plain column.** -/
structure PlainColumn where
  /-- Its name. -/
  name : PlainName
  /-- Its type. -/
  type : PlainType
  /-- Its default value, if it has one. -/
  default : Option PlainDefault
  /-- Whether it is said not to be null. -/
  isNotNull : Bool
  /-- The name begins no constraint. -/
  not_mem : name.value ∉ ["primary", "unique", "check", "foreign"]

namespace PlainColumn

variable (column : PlainColumn)

/-- The parts of the definition of a column. -/
def parts : List (List Char) :=
  column.name.text :: (column.type.parts ++
    (column.default.elim [] (fun expression => ["DEFAULT".toList, expression.text]) ++
      if column.isNotNull then ["NOT".toList, "NULL".toList] else []))

/-- **The text of the definition** of a column. -/
def text : List Char :=
  phrase column.parts

/-- The options of a column, in the order of its definition. -/
def order : List ColumnOption :=
  (if column.default.isSome then [.default] else []) ++
    if column.isNotNull then [.notNull] else []

/-- The tokens of the default value of a column. -/
def expression : List String :=
  column.default.elim [] fun expression => ofText expression.text

/-- **The tokens of the definition** of a column. -/
def tokens : List String :=
  columnTokens column.name.value column.type.tokens column.expression column.order

/-- **The column that a definition stands for**, in the primary key or not. -/
def toColumn (isKey : Bool) : Column where
  name := column.name.value
  dataType := column.type.dataType
  typeOptions := column.type.options
  isNotNull := column.isNotNull || isKey
  isPrimaryKey := isKey
  hasDefault := column.default.isSome

theorem asKey_toColumn (isKey : Bool) : (column.toColumn isKey).asKey = column.toColumn true := by
  simp [toColumn, Column.asKey]

/-- Whether a column is in a key. -/
def isIn (key : List PlainName) : Bool :=
  key.any (·.value == column.name.value)

theorem isIn_append (key : List PlainName) (name : PlainName) :
    column.isIn (key ++ [name]) = (column.isIn key || name.value == column.name.value) := by
  simp [isIn]

/-- **The parts of a definition are steady and paired.** -/
theorem of_mem_parts {part : List Char} (h : part ∈ column.parts) :
    IsSteady part ∧ IsPaired part := by
  have hwords : ∀ part ∈ ["DEFAULT".toList, "NOT".toList, "NULL".toList],
      IsSteady part ∧ IsPaired part := by decide
  rcases List.mem_cons.mp h with rfl | h
  · exact ⟨column.name.isSteady, column.name.isPlainWord.isPaired⟩
  rcases List.mem_append.mp h with h | h
  · exact ⟨column.type.isSteady_of_mem h, column.type.isPaired_of_mem h⟩
  rcases List.mem_append.mp h with h | h
  · cases hdefault : column.default with
    | none =>
      rw [hdefault] at h
      cases h
    | some expression =>
      rw [hdefault, Option.elim_some, List.mem_cons, List.mem_singleton] at h
      rcases h with rfl | rfl
      · exact hwords _ List.mem_cons_self
      · exact ⟨expression.isSteady, expression.isPaired⟩
  · cases hnull : column.isNotNull with
    | false =>
      rw [hnull] at h
      cases h
    | true =>
      rw [hnull] at h
      exact hwords part (List.mem_cons_of_mem _ h)

theorem isSteady : IsSteady column.text :=
  isSteady_phrase (List.cons_ne_nil _ _) fun _ h => (column.of_mem_parts h).1

theorem isPaired : IsPaired column.text :=
  isPaired_phrase fun _ h => (column.of_mem_parts h).2

/-- **The tokens of a definition** are those of its text. -/
theorem ofText_text : ofText column.text = column.tokens := by
  have hdefault : (column.default.elim [] fun expression =>
      ["DEFAULT".toList, expression.text]).flatMap ofText =
      optionTokens column.expression (if column.default.isSome then [.default] else []) := by
    rw [expression]
    cases column.default with
    | none => rfl
    | some expression => rfl
  have hnull : (if column.isNotNull then ["NOT".toList, "NULL".toList] else []).flatMap ofText =
      optionTokens column.expression (if column.isNotNull then [.notNull] else []) := by
    cases column.isNotNull <;> rfl
  rw [text, ofText_phrase, parts, List.flatMap_cons, List.flatMap_append, List.flatMap_append,
    column.name.ofText_text, column.type.flatMap_ofText_parts, hdefault, hnull, tokens, columnTokens, order,
    optionTokens, optionTokens, optionTokens, List.flatMap_append]
  rfl

/-! ### Reading a column -/

/-- The words `not null` are read behind a type and behind a default value. -/
theorem changes_notNull (options : Options) {state : State}
    (h : state.IsTyped ∨ state = .columnDefault 0) :
    Changes options state ["not", "null"] .columnOption fun column =>
      { column with isNotNull := true } := by
  have hnot : Changes options state ["not"] .columnNot id := by
    refine .of_goto fun draft => ?_
    rcases h with h | rfl
    · rw [h.step_eq (by decide) (by decide)]
      rfl
    · rfl
  exact hnot.append (changes_null options)

/-- **The options of a column are read**: a default value and `not null` have their
effect. -/
theorem changes_order (options : Options) {state : State} (h : state.IsTyped) :
    ∃ inDefault last, IsOptionState inDefault last ∧
      Changes options state (optionTokens column.expression column.order) last fun c =>
        { c with hasDefault := c.hasDefault || column.default.isSome
                 isNotNull := c.isNotNull || column.isNotNull } := by
  rw [expression, order]
  cases column.default with
  | none =>
    cases column.isNotNull with
    | false =>
      refine ⟨false, state, Or.inl h, ?_⟩
      simp only [Option.isSome_none, Bool.or_false]
      exact .refl
    | true =>
      refine ⟨false, _, Or.inr rfl, ?_⟩
      simp only [Option.isSome_none, Bool.or_false, Bool.or_true]
      exact changes_notNull options (Or.inl h)
  | some expression =>
    have hskip : Changes options (.columnDefault 0) (ofText expression.text) (.columnDefault 0) id :=
      .of_leads fun draft =>
        leads_expression expression.expressionDepth?_ofText expression.not_mem_ofText
    have hdefault := (changes_default options (Or.inl h)).append hskip
    cases column.isNotNull with
    | false =>
      refine ⟨true, _, rfl, ?_⟩
      simp only [Option.isSome_some, Bool.or_false, Bool.or_true]
      rw [← List.append_nil (ofText expression.text)] at hdefault
      exact hdefault
    | true =>
      have hall := hdefault.append (changes_notNull options (Or.inr rfl))
      refine ⟨false, _, Or.inr rfl, ?_⟩
      simp only [Option.isSome_some, Bool.or_true]
      exact hall

/-- **The definition of a column is read**, and its column stands behind the others
in the open table. -/
theorem leads (options : Options) (tables : List Table) (table : Table) (place : Option Nat) :
    ∃ inDefault last, IsOptionState inDefault last ∧
      Leads options .blockEntry (.inBlock tables table place) column.tokens last
        (.onColumn tables table table.columns (column.toColumn false)) := by
  obtain ⟨token, tail, type, typed, change, htokens, ht, htyped, hl, hc⟩ :=
    column.type.isRead options
  obtain ⟨inDefault, last, hlast, horder⟩ := column.changes_order options htyped
  have hname : IsColumnHead column.name.value := by
    refine ⟨column.name.isColumnName, ?_⟩
    rw [constraintWords, List.mem_cons, not_or]
    exact ⟨column.name.ne_keyword, column.not_mem⟩
  have hhead := leads_columnHead hname ht (Draft.pushColumn?_inBlock tables table place _)
    (Draft.modifyColumn?_onColumn ..)
  have hrest := hl.append horder _ _ (Draft.modifyColumn?_onColumn tables table table.columns
    { Column.ofIdentifier column.name.value with
      dataType := type.name, typeOptions := type.modifier } _)
  rw [Function.comp_apply, hc, column.name.ofIdentifier_value, Bool.false_or, Bool.false_or] at hrest
  rw [column.name.ofIdentifier_value] at hhead
  refine ⟨inDefault, last, hlast, ?_⟩
  rw [tokens, columnTokens, htokens, toColumn, Bool.or_false]
  exact hhead.append hrest

end PlainColumn

end SqlCatalog
