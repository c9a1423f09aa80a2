import SqlCatalog.Proofs.Parse
import SqlCatalog.Proofs.Schema.Key

/-!
# Schemas are read back

A schema is a list of plain tables with different names (`SqlCatalog.PlainSchema`).
Its dump declares the tables and then gives each of them its key
(`SqlCatalog.PlainSchema.text`). Reading the dump gives the schema back
(`SqlCatalog.PlainSchema.result_text`), and the four stages of reading have a part
each in it:

* the pass for noise keeps the dump as it is
  (`SqlCatalog.PlainSchema.stripFrom_text`);
* its tokens are those of its statements, one behind the other
  (`SqlCatalog.PlainSchema.ofText_text`);
* the statements lead to the tables with their keys
  (`SqlCatalog.PlainSchema.leads_text`);
* none of the tables is left out (`SqlCatalog.PlainSchema.finalize_catalog`).
-/

namespace SqlCatalog

open Text Noise Token Identifier

/-- **A plain schema.** -/
structure PlainSchema where
  /-- The tables, in order. -/
  tables : List PlainTable
  /-- No two tables share a name. -/
  nodup : (tables.map (·.name.value)).Nodup

namespace PlainTable

/-- The empty line behind a statement. -/
def statementEnd : List Char := ['\n', '\n']

/-- The tokens of the statement that gives a table its key. -/
def keyTokens (table : PlainTable) : List String :=
  table.keyHeadTokens ++ keyListTokens table.key

/-- **The table of a schema** that a catalog has. -/
def toTable (table : PlainTable) : Table :=
  table.withKey table.key

/-- Tables with different names have different identifiers. -/
theorem identifier_ne {table other : PlainTable} (h : table.name.value ≠ other.name.value) :
    table.identifier ≠ other.identifier := by
  intro he
  have hname : ∀ table : PlainTable, (Table.ofIdentifier table.identifier).name =
      table.name.value := by
    intro table
    rw [identifier, ofIdentifier_identifierText]
  exact h ((hname table).symm.trans ((congrArg (Table.name ∘ Table.ofIdentifier) he).trans
    (hname other)))

variable (options : Options)

/-- **The declarations of tables are read** one by one. -/
theorem leads_declarations (tables : List Table) (others : List PlainTable) :
    Leads options .idle { tables := tables } (others.flatMap declarationTokens) .idle
      { tables := tables ++ others.map (·.withKey []) } := by
  induction others generalizing tables with
  | nil =>
    rw [List.map_nil, List.append_nil]
    exact .refl
  | cons table others ih =>
    have hrest := ih (tables ++ [table.withKey []])
    rw [List.append_assoc] at hrest
    exact (table.leads_declaration options tables).append hrest

/-- **The keys of tables are read** one by one, when the tables in front of them have
theirs. -/
theorem leads_keys {done others : List PlainTable}
    (h : ((done ++ others).map (·.name.value)).Nodup) :
    Leads options .idle { tables := done.map toTable ++ others.map (·.withKey []) }
      (others.flatMap keyTokens) .idle
      { tables := (done ++ others).map toTable } := by
  induction others generalizing done with
  | nil =>
    rw [List.map_nil, List.append_nil, List.append_nil]
    exact .refl
  | cons table others ih =>
    have hbefore : ∀ other ∈ done.map toTable, other.rawIdentifier ≠ table.identifier := by
      intro other hother
      obtain ⟨plain, hplain, rfl⟩ := List.mem_map.mp hother
      refine identifier_ne fun hname => ?_
      rw [List.map_append, List.nodup_append] at h
      exact h.2.2 _ (List.mem_map_of_mem hplain) _ (List.mem_cons_self) hname
    have hkey := table.leads_key (others.map (·.withKey [])) options hbefore
    have hrest := @ih (done ++ [table]) (by rwa [List.append_assoc])
    rw [List.append_assoc, List.map_append, List.append_assoc] at hrest
    exact hkey.append hrest

/-- A table of a schema goes in, when none of its name is in. -/
theorem skipReason?_toTable {options : Options} {seen : List String} (table : PlainTable)
    (hignored : options.ignores table.name.value = false) (hseen : table.name.value ∉ seen) :
    skipReason? options seen table.toTable = none := by
  have hsystem : (systemTables.contains table.name.value || options.ignores table.name.value) =
      false := by
    rw [hignored, Bool.or_false, ← Bool.not_eq_true, List.contains_iff_mem]
    exact table.not_system
  have hkey : table.toTable.hasPrimaryKey = true := by
    obtain ⟨name, key, hkey⟩ := List.exists_cons_of_ne_nil table.key_ne_nil
    have hname : name ∈ table.key := hkey ▸ List.mem_cons_self
    obtain ⟨column, hcolumn, hvalue⟩ := List.mem_map.mp (table.mem_of_mem_key name hname)
    have hin : column.isIn table.key = true :=
      List.any_eq_true.mpr ⟨name, hname, beq_iff_eq.mpr hvalue.symm⟩
    exact List.any_eq_true.mpr ⟨_, List.mem_map_of_mem hcolumn, hin⟩
  have hname : table.toTable.name = table.name.value := rfl
  rw [skipReason?, hname, hsystem, hkey, if_neg Bool.false_ne_true, if_neg (by simp),
    if_neg (by simpa using hseen)]

/-- The tables of a schema go in, when none of their names is in. -/
theorem kept_selectFrom {options : Options} {tables : List PlainTable} {seen : List String}
    (hignored : ∀ table ∈ tables, options.ignores table.name.value = false)
    (hnodup : (tables.map (·.name.value)).Nodup)
    (hseen : ∀ table ∈ tables, table.name.value ∉ seen) :
    (selectFrom options seen (tables.map toTable)).kept = tables.map toTable := by
  induction tables generalizing seen with
  | nil => rfl
  | cons table tables ih =>
    obtain ⟨hfirst, hignored⟩ := List.forall_mem_cons.mp hignored
    obtain ⟨hnew, hnodup⟩ := List.nodup_cons.mp hnodup
    obtain ⟨hout, hseen⟩ := List.forall_mem_cons.mp hseen
    have hrest := @ih (table.toTable.name :: seen) hignored hnodup fun other hother hmem => by
      rcases List.mem_cons.mp hmem with he | hmem
      · have hname : other.name.value = table.name.value := he
        refine hnew ?_
        dsimp only
        rw [← hname]
        exact List.mem_map_of_mem hother
      · exact hseen other hother hmem
    rw [List.map_cons, selectFrom, table.skipReason?_toTable hfirst hout]
    dsimp only
    rw [hrest]

end PlainTable

namespace PlainSchema

variable (schema : PlainSchema)

/-- The statements of a schema: the declarations of its tables, and then their
keys. -/
def statements : List (List Char) :=
  schema.tables.map PlainTable.declarationText ++ schema.tables.map PlainTable.keyText

/-- **The dump of a schema**: its statements, and an empty line behind each. -/
def text : List Char :=
  schema.statements.flatMap (· ++ PlainTable.statementEnd)

/-- **The catalog of a schema**: its tables, and nothing else. -/
def catalog : Catalog :=
  ⟨schema.tables.map PlainTable.toTable⟩

/-- The pass keeps every statement. -/
theorem isKept_of_mem {statement : List Char} (h : statement ∈ schema.statements) :
    IsKept statement := by
  rcases List.mem_append.mp h with h | h
  · obtain ⟨table, -, rfl⟩ := List.mem_map.mp h
    exact isKept_of_isCalm table.isCalm_declarationText
  · obtain ⟨table, -, rfl⟩ := List.mem_map.mp h
    exact table.isKept_keyText

/-- **The pass keeps the dump.** -/
theorem stripFrom_text :
    stripFrom .clear (schema.text.map .char) = schema.text.map .char := by
  have hend : IsKept PlainTable.statementEnd := isKept_of_isCalm (by decide)
  have hall : ∀ statements : List (List Char), (∀ statement ∈ statements, IsKept statement) →
      IsKept (statements.flatMap (· ++ PlainTable.statementEnd)) := by
    intro statements h
    induction statements with
    | nil => exact isKept_nil
    | cons statement statements ih =>
      obtain ⟨hstatement, h⟩ := List.forall_mem_cons.mp h
      exact (hstatement.append hend).append (ih h)
  have hstrip := hall schema.statements (fun _ => schema.isKept_of_mem) []
  rwa [List.append_nil, List.map_nil, stripFrom_nil, List.append_nil] at hstrip

/-- **The tokens of the dump** are those of its statements. -/
theorem ofText_text :
    ofText schema.text = schema.tables.flatMap PlainTable.declarationTokens ++
      schema.tables.flatMap PlainTable.keyTokens := by
  have hall : ∀ statements : List (List Char),
      ofText (statements.flatMap (· ++ PlainTable.statementEnd)) = statements.flatMap ofText := by
    intro statements
    induction statements with
    | nil => rfl
    | cons statement statements ih =>
      have hend : ∀ rest, statement ++ PlainTable.statementEnd ++ rest =
          statement ++ '\n' :: (['\n'] ++ rest) := by
        intro rest
        simp [PlainTable.statementEnd]
      rw [List.flatMap_cons, hend, ofText_append_gap rfl, ofText_gaps_append (by decide), ih,
        List.flatMap_cons]
  rw [text, hall, statements, List.flatMap_append, List.flatMap_map, List.flatMap_map]
  simp only [PlainTable.ofText_declarationText, PlainTable.ofText_keyText]
  rfl

/-- **The tokens of the dump lead** to the tables with their keys. -/
theorem leads_text (options : Options) :
    Leads options .idle {} (ofText schema.text) .idle { tables := schema.catalog.tables } := by
  have hdeclarations := PlainTable.leads_declarations options [] schema.tables
  have hkeys := @PlainTable.leads_keys options [] schema.tables schema.nodup
  rw [ofText_text]
  exact hdeclarations.append hkeys

/-- **No table of a schema is left out**, unless the options ignore it. -/
theorem finalize_catalog {options : Options}
    (h : ∀ table ∈ schema.tables, options.ignores table.name.value = false) :
    schema.catalog.finalize options = schema.catalog :=
  congrArg Catalog.mk (PlainTable.kept_selectFrom h schema.nodup fun _ _ => List.not_mem_nil)

/-- **A schema is read back from its dump.** -/
theorem result_text : (parse {} (bytesOf schema.text)).result = .ok schema.catalog := by
  have hignores : ∀ name, ({} : Options).ignores name = false := fun _ => rfl
  have hresult := (schema.leads_text {}).result_parseTokens
  rw [schema.finalize_catalog fun table _ => hignores _] at hresult
  rw [parse_bytesOf schema.stripFrom_text]
  exact hresult

end PlainSchema

/-! ### A schema of two tables -/

/-- The table `orders` in the schema `shop`, with a key of one column. -/
def orders : PlainTable where
  schema := some ⟨"shop", rfl, by decide, by decide⟩
  name := ⟨"orders", rfl, by decide, by decide⟩
  columns := [
    { name := ⟨"id", rfl, by decide, by decide⟩
      type := .scalar "bigint" (by decide) none false
      default := none
      isNotNull := true
      not_mem := by decide },
    { name := ⟨"total", rfl, by decide, by decide⟩
      type := .scalar "numeric" (by decide)
        (some (.precision ⟨['1', '2'], by decide, by decide⟩ ⟨['2'], by decide, by decide⟩)) false
      default := some ⟨"greatest(0, 1)".toList, by decide, by decide, by decide⟩
      isNotNull := false
      not_mem := by decide }]
  key := [⟨"id", rfl, by decide, by decide⟩]
  not_mem := by decide
  not_system := by decide
  nodup := by decide
  key_ne_nil := by decide
  mem_of_mem_key := by decide

/-- The table `lines`, with a key of two columns. -/
def lines : PlainTable where
  schema := none
  name := ⟨"lines", rfl, by decide, by decide⟩
  columns := [
    { name := ⟨"order_id", rfl, by decide, by decide⟩
      type := .scalar "bigint" (by decide) none false
      default := none
      isNotNull := true
      not_mem := by decide },
    { name := ⟨"position", rfl, by decide, by decide⟩
      type := .scalar "integer" (by decide) none false
      default := none
      isNotNull := false
      not_mem := by decide },
    { name := ⟨"tags", rfl, by decide, by decide⟩
      type := .scalar "varchar" (by decide) (some (.length ⟨['9'], by decide, by decide⟩)) true
      default := none
      isNotNull := false
      not_mem := by decide }]
  key := [⟨"order_id", rfl, by decide, by decide⟩, ⟨"position", rfl, by decide, by decide⟩]
  not_mem := by decide
  not_system := by decide
  nodup := by decide
  key_ne_nil := by decide
  mem_of_mem_key := by decide

/-- The schema of the two tables. -/
def shop : PlainSchema :=
  ⟨[orders, lines], by decide⟩

/-- The dump of the schema. -/
def shopDump : String :=
  "CREATE TABLE shop.orders (
    id bigint NOT NULL,
    total numeric(12,2) DEFAULT greatest(0, 1)
);

CREATE TABLE lines (
    order_id bigint NOT NULL,
    position integer,
    tags varchar(9)[]
);

ALTER TABLE ONLY shop.orders
    ADD CONSTRAINT orders_pkey PRIMARY KEY (id);

ALTER TABLE ONLY lines
    ADD CONSTRAINT lines_pkey PRIMARY KEY (order_id, position);

"

/-- The catalog of the schema. -/
def shopCatalog : Catalog :=
  ⟨[⟨"shop.orders", "orders", some "shop",
      [⟨"id", "bigint", "", true, true, false⟩,
       ⟨"total", "numeric", "(12,2)", false, false, true⟩]⟩,
    ⟨"lines", "lines", none,
      [⟨"order_id", "bigint", "", true, true, false⟩,
       ⟨"position", "integer", "", true, true, false⟩,
       ⟨"tags", "varchar", "(9)[]", false, false, false⟩]⟩]⟩

/-- Both ways in which a key is read, and two in which a modifier comes to its
column. -/
theorem result_shop : (parse {} (bytesOf shopDump.toList)).result = .ok shopCatalog := by
  have htext : String.ofList shop.text = shopDump := by cbv
  have hcatalog : shop.catalog = shopCatalog := by decide +kernel
  rw [← htext, String.toList_ofList, ← hcatalog]
  exact shop.result_text

end SqlCatalog
