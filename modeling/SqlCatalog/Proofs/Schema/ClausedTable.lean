import SqlCatalog.Proofs.Schema.RoundTrip

/-!
# Options behind a clause of a column

The definition of a column may hold a constraint clause, and `NOT NULL` or
`PRIMARY KEY` may stand in front of the clause or behind it. A clause is read up to
the comma or bracket that ends the definition, so what stands behind it is a part of
it, and is dropped with it:

| the definition | what is left of it | the column |
|---|---|---|
| `c integer NOT NULL CONSTRAINT n CHECK (c > 0)` | `c integer NOT NULL` | is not null |
| `c integer CONSTRAINT n CHECK (c > 0) NOT NULL` | `c integer` | may be null |

Both are accepted, whatever the column, its type and the clause are, and nothing tells
that the option is lost (`SqlCatalog.ClausedTable.option_behind_clause_is_lost`). The
table has a key of its own in each case, so it is not left out.
-/

namespace SqlCatalog

open Text Noise Token Identifier

/-! ### Reading a column -/

/-- **A column of a scalar type with one option at most is read**, and has the option. -/
theorem readsColumn_scalar (options : Options) {name type : String} {order : List ColumnOption}
    (hname : IsColumnHead name) (htype : type ∈ scalarTypes)
    (horder : order ∈ [[], [.notNull], [.primaryKey]]) :
    ReadsColumn options (columnTokens name [type] [] order)
      (readOptions false order { Column.ofIdentifier name with dataType := type }) := by
  intro tables table place
  have htoken : ColumnType.ofToken? options type = some ⟨type, "", .scalar⟩ := by
    have htoken := ofToken?_scalar htype options (nofun : ∀ c ∈ [].head?, c = '(')
    rwa [List.append_nil, String.ofList_toList] at htoken
  have hhead := leads_columnHead hname htoken (Draft.pushColumn?_inBlock tables table place _)
    (Draft.modifyColumn?_onColumn ..)
  have htyped : TypeFamily.scalar.state.IsTyped := Or.inl rfl
  have hread : ∀ {tokens last change}, Changes options TypeFamily.scalar.state tokens last change →
      Leads options .blockEntry (.inBlock tables table place) ([name, type] ++ tokens) last
        (.onColumn tables table table.columns
          (change { Column.ofIdentifier name with dataType := type })) := fun h =>
    hhead.append (h _ _ (Draft.modifyColumn?_onColumn ..))
  simp only [List.mem_cons, List.not_mem_nil, or_false] at horder
  rcases horder with rfl | rfl | rfl
  · exact ⟨false, _, Or.inl htyped, hread .refl⟩
  · exact ⟨false, _, Or.inr rfl, hread (PlainColumn.changes_notNull options (Or.inl htyped))⟩
  · have hprimary : Changes options TypeFamily.scalar.state ["primary"] .columnPrimary id :=
      .of_goto fun draft => step_optionWord (Or.inl htyped) (Or.inr rfl)
    exact ⟨false, _, Or.inr rfl, hread (hprimary.append (changes_key options))⟩

/-! ### Tables -/

/-- **A table whose second column has a constraint clause and an option.** The first
column is its key. -/
structure ClausedTable where
  /-- The schema of the table, if it has one. -/
  schema : Option PlainName
  /-- The name of the table. -/
  table : PlainName
  /-- The name of the column as it is written. -/
  head : List Char
  /-- The name of the column as a token. -/
  name : String
  /-- The type of the column. -/
  type : String
  /-- Whether the option is `PRIMARY KEY`, and not `NOT NULL`. -/
  isKey : Bool
  /-- The name of the constraint. -/
  constraint : ClauseName
  /-- What the constraint checks. -/
  check : List Char
  /-- How deep the brackets in it are nested. -/
  depth : Nat
  /-- The identifier is none of the words that may stand in its place. -/
  not_mem : String.ofList (identifierText schema table) ∉ ["if", "only"]
  /-- It is no table of a tool. -/
  not_system : table.value ∉ systemTables
  /-- No noise opens in the name of the column. -/
  isSteady : IsSteady head
  /-- There are no brackets in it, or they pair up. -/
  isPaired : IsPaired head
  /-- This is its token. -/
  ofText_head : ofText head = [name]
  /-- It is a name. -/
  isColumnHead : IsColumnHead name
  /-- The type is scalar. -/
  type_mem : type ∈ scalarTypes
  /-- The constraint is no primary key. -/
  not_isKeyName : isKeyName (constraint.text.map .char) = false
  /-- The brackets of what it checks pair up. -/
  isInner : IsInner depth check
  /-- They are not nested too deeply. -/
  depth_lt : depth < maxNesting

namespace ClausedTable

variable (table : ClausedTable)

/-! ### Texts -/

/-- The identifier of the table. -/
def identifier : String :=
  String.ofList (identifierText table.schema table.table)

/-- The text of the first column. -/
def idText : List Char :=
  "id integer PRIMARY KEY".toList

/-- The tokens of the first column. -/
def idTokens : List String :=
  ["id", "integer", "primary", "key"]

/-- The first column. -/
def idColumn : Column where
  name := "id"
  dataType := "integer"
  isNotNull := true
  isPrimaryKey := true

/-- The text of the option. -/
def optionText : List Char :=
  if table.isKey then "PRIMARY KEY".toList else "NOT NULL".toList

/-- The option. -/
def option : ColumnOption :=
  if table.isKey then .primaryKey else .notNull

/-- The second column without its clause, and with some more behind its type. -/
def columnText (parts : List (List Char)) : List Char :=
  phrase (table.head :: table.type.toList :: parts)

/-- **The clause**, with some more characters that it takes in. -/
def clause (more : List Char) (h : ∀ c ∈ more, endsTail c = false) : ClauseForm where
  keyword := "CONSTRAINT".toList
  gap := [' ']
  name := table.constraint
  tail := " CHECK ".toList ++ '(' :: (table.check ++ ')' :: more)
  fold_keyword := map_fold_constraint
  gap_ne_nil := singleBlank_ne_nil
  isBlank_of_mem := isBlank_of_mem_singleBlank
  endsName := fun c hc => Option.some.inj hc ▸ endsName_of_isBlank rfl
  isClauseTail := by
    have hmore : IsClauseTail (more ++ []) := .append .nil h
    rw [List.append_nil] at hmore
    exact .append (.group table.depth_lt table.isInner hmore) (by decide)

/-- **The statement** with a text for its second column, and blanks in front of the
bracket that closes the block. -/
def statementText (column gap : List Char) : List Char :=
  phrase ["CREATE".toList, "TABLE".toList, identifierText table.schema table.table] ++
    ' ' :: '(' :: blockText [idText, ' ' :: column] gap []

theorem endsTail_optionText : ∀ c ∈ ' ' :: table.optionText, endsTail c = false := by
  rw [optionText]
  cases table.isKey <;> decide

/-- **The option behind the clause.** -/
def behind : List Char :=
  table.statementText (table.columnText [] ++
    ' ' :: (table.clause (' ' :: table.optionText) table.endsTail_optionText).text) []

/-- **The option in front of the clause.** -/
def inFront : List Char :=
  table.statementText (table.columnText [table.optionText] ++
    ' ' :: (table.clause [] nofun).text) []

/-! ### What is left of them -/

theorem isSteady_columnText {parts : List (List Char)} (h : ∀ part ∈ parts, IsSteady part) :
    IsSteady (table.columnText parts) := by
  have hne : ∀ name ∈ scalarTypes, name.toList ≠ clauseKeyword := by decide
  have htype : IsSteady table.type.toList :=
    (isPlainWord_scalar table.type_mem).isSteady (hne _ table.type_mem)
  exact isSteady_phrase (List.cons_ne_nil _ _) (List.forall_mem_cons.mpr
    ⟨table.isSteady, List.forall_mem_cons.mpr ⟨htype, h⟩⟩)

theorem isPaired_columnText {parts : List (List Char)} (h : ∀ part ∈ parts, IsPaired part) :
    IsPaired (table.columnText parts) :=
  isPaired_phrase (List.forall_mem_cons.mpr ⟨table.isPaired,
    List.forall_mem_cons.mpr ⟨(isPlainWord_scalar table.type_mem).isPaired, h⟩⟩)

theorem isSteady_optionText : IsSteady table.optionText ∧ IsPaired table.optionText := by
  rw [optionText]
  cases table.isKey <;> decide

theorem ofText_optionText : ofText table.optionText = table.option.tokens [] := by
  rw [optionText, option]
  cases table.isKey <;> rfl

/-- The tokens of the second column. -/
theorem ofText_columnText (parts : List (List Char)) :
    ofText (table.columnText parts) = table.name :: table.type :: parts.flatMap ofText := by
  rw [columnText, ofText_phrase, List.flatMap_cons, List.flatMap_cons, table.ofText_head,
    (isPlainWord_scalar table.type_mem).ofText_eq, String.ofList_toList]
  rfl

/-- **The pass drops the clause** with all that it takes in. -/
theorem stripFrom_statementText {column : List Char} (h : IsSteady column) (form : ClauseForm)
    (hkey : form.isKey = false) :
    stripFrom .clear ((table.statementText (column ++ ' ' :: form.text) []).map .char) =
      (table.statementText column [' ']).map .char := by
  have hopening : IsCalm ('(' :: (idText ++ [',', ' '])) := by decide
  have hhead := (PlainTable.isSteady_head table.schema table.table).isCalm_append
    List.mem_cons_self hopening
  have hcalm := hhead.append (h ' ' List.mem_cons_self)
  have hend : stripFrom .clear ([';'].map .char) = [';'].map .char := by
    have hsemicolon : IsCalm [';'] := by decide
    have hstrip := hsemicolon.stripFrom_append []
    rwa [List.append_nil, List.map_nil, stripFrom_nil, List.append_nil] at hstrip
  have hstrip := hcalm.stripFrom_append (form.text ++ ')' :: [';'])
  rw [form.stripFrom_append (by decide), hkey, hend] at hstrip
  simpa [statementText, blockText] using hstrip

/-- **The tokens of what is left.** -/
theorem ofText_statementText {column : List Char} (h : IsPaired column) :
    ofText (table.statementText column [' ']) =
      headTokens false false table.identifier ++
        "(" :: blockTokens [idTokens, ofText column] := by
  have hid : ofText idText = idTokens := rfl
  have hcolumn : ofText (' ' :: column) = ofText column :=
    ofText_gaps_append (by decide : ∀ c ∈ [' '], isGap c) column
  have hpaired : ∀ entry ∈ [idText, ' ' :: column], IsPaired entry := by
    have hblank : IsPaired [' '] := rfl
    exact List.forall_mem_cons.mpr ⟨by decide, List.forall_mem_singleton.mpr
      (isPaired_append hblank h)⟩
  have hblock := ofText_blockText (List.cons_ne_nil _ _) hpaired
    (by decide : ∀ c ∈ [' '], isGap c) (by decide : ∀ c ∈ [], isGap c)
  rw [List.map_cons, List.map_singleton, hid, hcolumn] at hblock
  obtain ⟨rest, hrest⟩ : ∃ rest, blockText [idText, ' ' :: column] [' '] [] =
      "id".toList ++ ' ' :: rest := ⟨_, rfl⟩
  have hopen := ofText_append_open (by decide : IsWord "id".toList) rfl (by decide : isBreak ' ') []
    rest
  rw [List.nil_append, ← hrest, hblock] at hopen
  rw [statementText, ofText_append_gap rfl, PlainTable.ofText_head, hopen]
  rfl

/-! ### Reading what is left -/

/-- The second column, with the options that are read. -/
def column (order : List ColumnOption) : Column :=
  readOptions false order { Column.ofIdentifier table.name with dataType := table.type }

/-- The table with its second column. -/
def toTable (column : Column) : Table where
  rawIdentifier := table.identifier
  name := table.table.value
  schema := table.schema.map PlainName.value
  columns := [idColumn, column]

/-- The table is not left out. -/
theorem finalize_toTable (column : Column) :
    (Catalog.mk [table.toTable column]).finalize {} = ⟨[table.toTable column]⟩ := by
  have hsystem : (systemTables.contains table.table.value ||
      ({} : Options).ignores table.table.value) = false := by
    have hignores : ({} : Options).ignores table.table.value = false := rfl
    rw [hignores, Bool.or_false, ← Bool.not_eq_true, List.contains_iff_mem]
    exact table.not_system
  have hreason : skipReason? {} [] (table.toTable column) = none := by
    have hname : (table.toTable column).name = table.table.value := rfl
    rw [skipReason?, hname, hsystem]
    rfl
  rw [Catalog.finalize, Catalog.select, selectFrom, hreason]
  rfl

/-- **Reading what is left of the statement** gives the table with the options that are
left. -/
theorem result_statementText {text : List Char} {order : List ColumnOption}
    (horder : order ∈ [[], [.notNull], [.primaryKey]]) (hpaired : IsPaired text)
    (htokens : ofText text = columnTokens table.name [table.type] [] order) :
    (parseTokens {} (ofText (table.statementText text [' ']))).result =
      .ok ⟨[table.toTable (table.column order)]⟩ := by
  have hhead := @leads_headTokens {} _ false false
    (isTableName_identifierText table.schema table.table) table.not_mem []
  have hid : ReadsColumn {} idTokens idColumn :=
    @readsColumn_scalar {} "id" "integer" [.primaryKey] (by decide) (by decide) (by decide)
  have hcolumn : ReadsColumn {} (columnTokens table.name [table.type] [] order)
      (table.column order) := readsColumn_scalar {} table.isColumnHead table.type_mem horder
  have hentries : ∀ entry ∈ [(idTokens, idColumn),
      (columnTokens table.name [table.type] [] order, table.column order)],
        ReadsColumn {} entry.1 entry.2 :=
    List.forall_mem_cons.mpr ⟨hid, List.forall_mem_singleton.mpr hcolumn⟩
  have hblock := leads_blockTokens [] (List.cons_ne_nil _ _) hentries
    (.ofIdentifier (String.ofList (identifierText table.schema table.table))) none
  have hall := hhead.append hblock
  rw [List.append_assoc, ofIdentifier_identifierText] at hall
  rw [table.ofText_statementText hpaired, htokens]
  exact (Leads.result_parseTokens hall).trans
    (congrArg Except.ok (table.finalize_toTable (table.column order)))

/-- **An option behind the clause of a column is lost**, and one in front of it is not.
The statement is accepted in each case. -/
theorem option_behind_clause_is_lost :
    (parse {} (bytesOf table.behind)).result = .ok ⟨[table.toTable (table.column [])]⟩ ∧
      (parse {} (bytesOf table.inFront)).result =
        .ok ⟨[table.toTable (table.column [table.option])]⟩ ∧
      ((table.column []).isNotNull = false ∧ (table.column []).isPrimaryKey = false) ∧
      ((table.column [table.option]).isNotNull = true ∧
        (table.column [table.option]).isPrimaryKey = table.isKey) := by
  obtain ⟨hsteady, hpaired⟩ := table.isSteady_optionText
  refine ⟨?_, ?_, ⟨rfl, rfl⟩, ?_⟩
  · have hcolumn : IsSteady (table.columnText []) := table.isSteady_columnText nofun
    have hstrip := table.stripFrom_statementText hcolumn
      (table.clause _ table.endsTail_optionText) table.not_isKeyName
    rw [behind, parse_bytesOf hstrip]
    exact table.result_statementText List.mem_cons_self (table.isPaired_columnText nofun)
      (table.ofText_columnText [])
  · have hparts : ∀ part ∈ [table.optionText], IsSteady part :=
      List.forall_mem_singleton.mpr hsteady
    have hstrip := table.stripFrom_statementText (table.isSteady_columnText hparts)
      (table.clause [] nofun) table.not_isKeyName
    have horder : [table.option] ∈ [[], [ColumnOption.notNull], [.primaryKey]] := by
      rw [option]
      cases table.isKey <;> decide
    have htokens : ofText (table.columnText [table.optionText]) =
        columnTokens table.name [table.type] [] [table.option] := by
      rw [ofText_columnText, List.flatMap_singleton, ofText_optionText, columnTokens, optionTokens,
        List.flatMap_singleton]
      rfl
    rw [inFront, parse_bytesOf hstrip]
    exact table.result_statementText horder
      (table.isPaired_columnText (List.forall_mem_singleton.mpr hpaired)) htokens
  · rw [option]
    cases table.isKey <;> exact ⟨rfl, rfl⟩

end ClausedTable

/-! ### A key behind a clause -/

theorem bigint_mem_scalarTypes : "bigint" ∈ scalarTypes := by
  decide

/-- A table whose second column is a key as well, and positive. It is `lines` in the schema
of `orders`. -/
def clausedLines : ClausedTable where
  schema := orders.schema
  table := lines.name
  head := "Line".toList
  name := "line"
  type := "bigint"
  isKey := true
  constraint := ⟨true, "Line_check".toList, true, by decide, by decide⟩
  check := "line > 0".toList
  depth := 0
  not_mem := by decide
  not_system := lines.not_system
  isSteady := by decide
  isPaired := by decide
  ofText_head := rfl
  isColumnHead := by decide
  type_mem := bigint_mem_scalarTypes
  not_isKeyName := by decide
  isInner := isInner_of_forall (by decide)
  depth_lt := maxNesting_pos

/-- The statement with the key behind the clause. -/
def clausedLinesDump : List Char :=
  "CREATE TABLE shop.lines (id integer PRIMARY KEY, ".toList ++
    "Line bigint CONSTRAINT \"Line_check\" CHECK (line > 0) PRIMARY KEY);".toList

/-- The key behind the clause is lost. -/
theorem result_clausedLines :
    (parse {} (bytesOf clausedLinesDump)).result =
      .ok ⟨[⟨"shop.lines", "lines", some "shop",
        [⟨"id", "integer", "", true, true, false⟩,
         ⟨"line", "bigint", "", false, false, false⟩]⟩]⟩ := by
  have htext : clausedLines.behind = clausedLinesDump := by decide
  rw [← htext]
  exact clausedLines.option_behind_clause_is_lost.1

/-- **Where an option stands decides whether it counts**, once there is a clause. -/
theorem not_null_behind_clause_is_lost :
    let flags := fun definition : List Char =>
      (parse {} (bytesOf ("CREATE TABLE t (id integer PRIMARY KEY, ".toList ++
        (definition ++ ");".toList)))).result.toOption.map fun catalog =>
          catalog.tables.map fun table => table.columns.map fun column =>
            (column.name, column.isNotNull, column.isPrimaryKey)
    flags "c integer CONSTRAINT n CHECK (c > 0) NOT NULL".toList =
        some [[("id", true, true), ("c", false, false)]] ∧
      flags "c integer NOT NULL CONSTRAINT n CHECK (c > 0)".toList =
        some [[("id", true, true), ("c", true, false)]] := by
  decide +kernel

end SqlCatalog
