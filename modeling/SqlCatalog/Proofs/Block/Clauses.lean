import SqlCatalog.Proofs.Block.Text
import SqlCatalog.Proofs.Parse

/-!
# What becomes of constraint clauses

A statement whose block holds constraint clauses besides columns should give what
it gives without them. It does when only the last entry is a clause. The pass
that drops a clause leaves the comma behind it, and an entry cannot begin with a
comma, so a clause anywhere else has the statement refused
(`SqlCatalog.TableStatement.result_eq_iff`):

| the last entry is | all others are | the result is |
|---|---|---|
| a column or a clause | columns | that of the statement without clauses |
| a column or a clause | columns and clauses | the error of an unexpected comma |

The comma behind the last column is another matter: a clause follows it that has
left nothing, and a block may end behind a comma.
-/

namespace SqlCatalog

open Text

variable {options : Options} {draft : Draft}

/-! ### Reading columns -/

/-- **A column definition is read** up to the comma or bracket behind it. -/
theorem ColumnText.leads (column : ColumnText options) (hopen : draft.current?.isSome) :
    ∃ state draft', IsOptionState false state ∧ draft'.current?.isSome ∧
      Leads options .blockEntry draft (columnTokens column.name column.type [] column.order)
        state draft' := by
  obtain ⟨typed, d, word, text, htyped, hl, hc⟩ :=
    leads_typed_column column.isColumnHead hopen column.typeTokens
  have hcurrent : ∀ {d : Draft} {c : Column}, d.column? = some c → d.current?.isSome := by
    intro d c hd
    obtain ⟨place, hplace, -⟩ := Option.bind_eq_some_iff.mp hd
    rw [hplace, Option.isSome_some]
  have hstate : IsOptionState false typed := Or.inl htyped
  have horder := column.order_mem
  simp only [List.mem_cons, List.not_mem_nil, or_false] at horder
  rw [columnTokens, ← List.cons_append]
  rcases horder with ho | ho | ho
  · rw [ho]
    exact ⟨typed, d, hstate, hcurrent hc, by simpa [optionTokens] using hl⟩
  · have hnot : Leads options typed d ["not"] .columnNot d :=
      .single (htyped.step_eq (by decide) (by decide))
    obtain ⟨d', hnull, hc'⟩ := (changes_null options).leads hc
    rw [ho]
    exact ⟨_, d', Or.inr rfl, hcurrent hc', hl.append (hnot.append hnull)⟩
  · have hprimary : Leads options typed d ["primary"] .columnPrimary d :=
      .single (step_optionWord hstate (Or.inr rfl))
    obtain ⟨d', hkey, hc'⟩ := (changes_key options).leads hc
    rw [ho]
    exact ⟨_, d', Or.inr rfl, hcurrent hc', hl.append (hprimary.append hkey)⟩

/-- The tokens of columns with a comma behind each of them. -/
def columnsTokens (columns : List (ColumnText options)) : List String :=
  columns.flatMap fun column => columnTokens column.name column.type [] column.order ++ [","]

/-- **Columns with commas behind them** lead from one entry to another. -/
theorem leads_columnsTokens (columns : List (ColumnText options)) (hopen : draft.current?.isSome) :
    ∃ draft', draft'.current?.isSome ∧
      Leads options .blockEntry draft (columnsTokens columns) .blockEntry draft' := by
  induction columns generalizing draft with
  | nil => exact ⟨draft, hopen, .refl⟩
  | cons column columns ih =>
    obtain ⟨state, d, hstate, hd, hl⟩ := column.leads hopen
    have hcomma : Leads options state d [","] .blockEntry d :=
      .single (step_closer options d hstate).1
    obtain ⟨d', hd', hl'⟩ := ih hd
    exact ⟨d', hd', (hl.append hcomma).append hl'⟩

/-- **A block that ends in a column** leads to the idle state, and a comma behind the
column makes no difference. -/
theorem leads_block (columns : List (ColumnText options)) (column : ColumnText options)
    (hopen : draft.current?.isSome) :
    ∃ draft', ∀ close ∈ [[")", ";"], [",", ")", ";"]],
      Leads options .blockEntry draft
        (columnsTokens columns ++
          (columnTokens column.name column.type [] column.order ++ close)) .idle draft' := by
  obtain ⟨d, hd, hl⟩ := leads_columnsTokens columns hopen
  obtain ⟨state, d', hstate, -, hl'⟩ := column.leads hd
  obtain ⟨hcomma, hbracket⟩ := step_closer options d' hstate
  have hend : Leads options .blockEnd d' [";"] .idle d'.closeTable := ⟨rfl, rfl⟩
  have hentry : Leads options .blockEntry d' [")"] .blockEnd d' := ⟨rfl, rfl⟩
  refine ⟨d'.closeTable, fun close hclose => hl.append (hl'.append ?_)⟩
  simp only [List.mem_cons, List.not_mem_nil, or_false] at hclose
  rcases hclose with rfl | rfl
  · exact .append (.single hbracket) hend
  · exact .append (.single hcomma) (hentry.append hend)

/-! ### Where the clauses stand -/

/-- **A block by its first clause**: either a clause stands in front of another entry
and columns alone in front of it, or all entries but the last are columns. -/
theorem exists_clause_or_columns {entries : List (Entry options)} (hne : entries ≠ []) :
    (∃ (columns : List (ColumnText options)) (clause next : Entry options)
        (rest : List (Entry options)),
      entries = columns.map Entry.column ++ clause :: next :: rest ∧ clause.isColumn = false) ∨
    ∃ (columns : List (ColumnText options)) (last : Entry options),
      entries = columns.map Entry.column ++ [last] := by
  induction entries with
  | nil => exact absurd rfl hne
  | cons entry entries ih =>
    cases entries with
    | nil => exact Or.inr ⟨[], entry, rfl⟩
    | cons next rest =>
      cases entry with
      | clause gap clause hgap hkey =>
        exact Or.inl ⟨[], .clause gap clause hgap hkey, next, rest, rfl, rfl⟩
      | column column =>
        rcases ih (List.cons_ne_nil _ _) with ⟨columns, clause, next', rest', he, hc⟩ |
            ⟨columns, last, he⟩
        · exact Or.inl ⟨column :: columns, clause, next', rest', by rw [he]; rfl, hc⟩
        · exact Or.inr ⟨column :: columns, last, by rw [he]; rfl⟩

/-- The tokens of a block of columns and one entry more. -/
theorem blockTokens_columns (columns : List (ColumnText options)) (entry : Entry options)
    (entries : List (Entry options)) :
    blockTokens ((columns.map Entry.column ++ entry :: entries).map Entry.tokens) =
      columnsTokens columns ++ blockTokens ((entry :: entries).map Entry.tokens) := by
  rw [List.map_append, blockTokens_append (by simp), List.map_map, List.flatMap_map]
  rfl

/-! ### The result of a statement -/

namespace TableStatement

variable (statement : TableStatement options)

/-- Reading a statement is reading the tokens of what is left of it. -/
theorem parse_text :
    parse options (bytesOf statement.text) =
      parseTokens options (headTokens statement.isUnlogged statement.ifNotExists
        statement.identifier ++ "(" :: blockTokens (statement.entries.map Entry.tokens)) := by
  rw [parse_bytesOf statement.stripFrom_text, statement.ofText_kept]

/-- A statement leads into its block. -/
theorem leads_head :
    Leads options .idle {} (headTokens statement.isUnlogged statement.ifNotExists
      statement.identifier ++ ["("]) .blockEntry
      (.inBlock [] (.ofIdentifier statement.identifier) none) :=
  leads_headTokens _ _ statement.isTableName statement.not_mem []

/-- In its block a statement has an open table. -/
theorem isSome_current? :
    (Draft.inBlock [] (.ofIdentifier statement.identifier) none).current?.isSome := by
  rw [Draft.current?_inBlock, Option.isSome_some]

/-- **A clause in front of another entry** has its comma rejected. -/
theorem result_of_clause {columns : List (ColumnText options)} {clause next : Entry options}
    {rest : List (Entry options)}
    (he : statement.entries = columns.map Entry.column ++ clause :: next :: rest)
    (hclause : clause.isColumn = false) :
    (parse options (bytesOf statement.text)).result = .error (.unexpectedToken ",") := by
  have htokens : clause.tokens = [] := by
    cases clause with
    | column => cases hclause
    | clause => rfl
  obtain ⟨d, -, hl⟩ := leads_columnsTokens columns statement.isSome_current?
  have hrejected : (step options .blockEntry d ",").outcome = .error (.unexpectedToken ",") := rfl
  rw [statement.parse_text, he, blockTokens_columns, List.map_cons, List.map_cons,
    blockTokens_cons_cons, htokens]
  refine result_parseTokens_of_error ?_
  have hrun : (run options .idle {} ((headTokens statement.isUnlogged statement.ifNotExists
      statement.identifier ++ ["("]) ++ columnsTokens columns ++
        "," :: blockTokens (next.tokens :: rest.map Entry.tokens))).outcome =
      .error (.unexpectedToken ",") :=
    (statement.leads_head.append hl).outcome_of_rejected hrejected
  simpa using hrun

/-- **Columns, and a clause at the end or none**, give one catalog. -/
theorem result_of_columns (columns : List (ColumnText options)) (column : ColumnText options) :
    ∃ catalog, ∀ close ∈ [[")", ";"], [",", ")", ";"]],
      (parseTokens options (headTokens statement.isUnlogged statement.ifNotExists
        statement.identifier ++ "(" :: (columnsTokens columns ++
          (columnTokens column.name column.type [] column.order ++ close)))).result =
        .ok catalog := by
  obtain ⟨d, hd⟩ := leads_block columns column statement.isSome_current?
  refine ⟨(Catalog.mk d.tables).finalize options, fun close hclose => ?_⟩
  refine Leads.result_parseTokens ?_
  have hl := statement.leads_head.append (hd close hclose)
  rwa [List.append_assoc, List.singleton_append] at hl

/-- Without clauses, and the last entry a column, the block ends behind it. -/
theorem parse_of_columns {columns : List (ColumnText options)} {column : ColumnText options}
    (he : statement.entries = columns.map Entry.column ++ [.column column]) :
    parse options (bytesOf statement.text) =
      parseTokens options (headTokens statement.isUnlogged statement.ifNotExists
        statement.identifier ++ "(" :: (columnsTokens columns ++
          (columnTokens column.name column.type [] column.order ++ [")", ";"]))) := by
  rw [statement.parse_text, he, blockTokens_columns, List.map_singleton, blockTokens_singleton]
  rfl

/-- **Where a clause stands at the end at most**, a statement gives what it gives
without it. -/
theorem result_of_last {columns : List (ColumnText options)} {last : Entry options}
    (he : statement.entries = columns.map Entry.column ++ [last]) :
    ∃ catalog, (parse options (bytesOf statement.text)).result = .ok catalog ∧
      (parse options (bytesOf statement.withoutClauses.text)).result = .ok catalog := by
  have hcolumns : (columns.map Entry.column).filter Entry.isColumn = columns.map Entry.column := by
    refine List.filter_eq_self.mpr fun entry hmem => ?_
    obtain ⟨column, -, rfl⟩ := List.mem_map.mp hmem
    rfl
  have hwithout : statement.withoutClauses.entries =
      columns.map Entry.column ++ [last].filter Entry.isColumn := by
    show statement.entries.filter Entry.isColumn = _
    rw [he, List.filter_append, hcolumns]
  cases last with
  | column column =>
    obtain ⟨catalog, hcatalog⟩ := statement.result_of_columns columns column
    refine ⟨catalog, ?_, ?_⟩
    · rw [statement.parse_of_columns he]
      exact hcatalog _ (by simp)
    · rw [statement.withoutClauses.parse_of_columns hwithout]
      exact hcatalog _ (by simp)
  | clause gap clause hgap hkey =>
    rcases List.eq_nil_or_concat columns with rfl | ⟨columns, column, rfl⟩
    · obtain ⟨column, hmem⟩ := statement.exists_column
      rw [he] at hmem
      simp at hmem
    · rw [List.concat_eq_append] at he hwithout
      obtain ⟨catalog, hcatalog⟩ := statement.result_of_columns columns column
      refine ⟨catalog, ?_, ?_⟩
      · have hclose := hcatalog [",", ")", ";"] (by simp)
        rw [statement.parse_text, he, blockTokens_columns, List.map_singleton,
          blockTokens_singleton]
        simpa [columnsTokens, Entry.tokens] using hclose
      · have hentries : statement.withoutClauses.entries =
            columns.map Entry.column ++ [.column column] := by
          rw [hwithout]
          simp [Entry.isColumn]
        rw [statement.withoutClauses.parse_of_columns hentries]
        exact hcatalog _ (by simp)

/-- Without its clauses a statement is accepted. -/
theorem result_withoutClauses :
    ∃ catalog, (parse options (bytesOf statement.withoutClauses.text)).result = .ok catalog := by
  rcases exists_clause_or_columns statement.withoutClauses.entries_ne_nil with
    ⟨columns, clause, next, rest, he, hclause⟩ | ⟨columns, last, he⟩
  · have hmem : clause ∈ statement.withoutClauses.entries := by simp [he]
    have hcolumn := (List.mem_filter.mp hmem).2
    rw [hclause] at hcolumn
    cases hcolumn
  · obtain ⟨catalog, hcatalog, -⟩ := statement.withoutClauses.result_of_last he
    exact ⟨catalog, hcatalog⟩

/-- **A statement gives what it gives without its clauses** exactly when no clause
stands in front of another entry. Where one does, its comma is not expected. -/
theorem result_eq_iff :
    ((parse options (bytesOf statement.text)).result =
        (parse options (bytesOf statement.withoutClauses.text)).result ↔
      ∀ entry ∈ statement.entries.dropLast, entry.isColumn = true) ∧
    ((∃ entry ∈ statement.entries.dropLast, entry.isColumn = false) →
      (parse options (bytesOf statement.text)).result = .error (.unexpectedToken ",")) := by
  rcases exists_clause_or_columns statement.entries_ne_nil with
    ⟨columns, clause, next, rest, he, hclause⟩ | ⟨columns, last, he⟩
  · have hresult := statement.result_of_clause he hclause
    obtain ⟨catalog, hcatalog⟩ := statement.result_withoutClauses
    have hmem : clause ∈ statement.entries.dropLast := by
      rw [he, List.dropLast_append_of_ne_nil (List.cons_ne_nil _ _)]
      simp
    refine ⟨iff_of_false ?_ fun hall => ?_, fun _ => hresult⟩
    · rw [hresult, hcatalog]
      exact nofun
    · cases hclause.symm.trans (hall clause hmem)
  · obtain ⟨catalog, hwith, hwithout⟩ := statement.result_of_last he
    have hall : ∀ entry ∈ statement.entries.dropLast, entry.isColumn = true := by
      rw [he, List.dropLast_concat]
      intro entry hmem
      obtain ⟨column, -, rfl⟩ := List.mem_map.mp hmem
      rfl
    refine ⟨iff_of_true (hwith.trans hwithout.symm) hall, ?_⟩
    rintro ⟨entry, hmem, hentry⟩
    cases hentry.symm.trans (hall entry hmem)

end TableStatement

/-! ### A clause between columns and at the end -/

/-- The column `a integer PRIMARY KEY`. -/
def keyColumn : Entry {} :=
  .column {
    text := "a integer PRIMARY KEY".toList
    name := "a"
    type := ["integer"]
    order := [.primaryKey]
    isColumnHead := by decide
    typeTokens := ⟨"integer", _, [], rfl, rfl, .scalar⟩
    order_mem := by decide
    ofText_text := rfl
    isPaired := by decide
    calm_text := by decide }

/-- The column ` b text`. -/
def textColumn : Entry {} :=
  .column {
    text := " b text".toList
    name := "b"
    type := ["text"]
    order := []
    isColumnHead := by decide
    typeTokens := ⟨"text", _, [], rfl, rfl, .scalar⟩
    order_mem := by decide
    ofText_text := rfl
    isPaired := by decide
    calm_text := by decide }

/-- The clause ` CONSTRAINT c CHECK (a > 0)`. -/
def checkClause : Entry {} :=
  .clause [' '] {
    keyword := "CONSTRAINT".toList
    gap := [' ']
    name := ⟨false, ['c'], false, by decide, by decide⟩
    blank := ' '
    body := "CHECK (a > 0)".toList
    fold_keyword := Noise.map_fold_constraint
    gap_ne_nil := Noise.singleBlank_ne_nil
    isBlank_of_mem := Noise.isBlank_of_mem_singleBlank
    isBlank_blank := Noise.isBlank_singleBlank
    isTail := ⟨by decide, by decide, by decide⟩ } (by decide) (by decide)

/-- The statement `CREATE TABLE t (a integer PRIMARY KEY, …);` with these entries
behind the key column. -/
def statementOf (entries : List (Entry {})) : TableStatement {} where
  head := "CREATE TABLE t ".toList
  isUnlogged := false
  ifNotExists := false
  identifier := "t"
  entries := keyColumn :: entries
  foot := []
  isTableName := by decide
  not_mem := by decide
  ofText_head := rfl
  isCalm_head := by decide
  exists_column := ⟨_, List.mem_cons_self⟩
  isGap_of_mem := by decide

/-- Behind the columns the clause makes no difference. -/
theorem result_of_clause_at_end :
    (parse {} (bytesOf (statementOf [textColumn, checkClause]).text)).result =
      (parse {} (bytesOf (statementOf [textColumn, checkClause]).withoutClauses.text)).result :=
  (statementOf [textColumn, checkClause]).result_eq_iff.1.mpr (by decide)

/-- **Between two columns the clause is not left out without loss**: its comma has
the statement refused, which is accepted without it. -/
theorem comma_of_clause_rejected :
    (parse {} (bytesOf (statementOf [checkClause, textColumn]).text)).result =
        .error (.unexpectedToken ",") ∧
      ∃ catalog, (parse {} (bytesOf
        (statementOf [checkClause, textColumn]).withoutClauses.text)).result = .ok catalog := by
  obtain ⟨column, hcolumn⟩ : ∃ column, keyColumn = .column column := ⟨_, rfl⟩
  have hentries : (statementOf [checkClause, textColumn]).entries =
      [column].map Entry.column ++ [checkClause, textColumn] := by
    rw [List.map_singleton, ← hcolumn]
    rfl
  exact ⟨TableStatement.result_of_clause _ hentries rfl, TableStatement.result_withoutClauses _⟩

end SqlCatalog
