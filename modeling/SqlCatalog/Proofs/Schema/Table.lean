import SqlCatalog.Catalog.Selection
import SqlCatalog.Proofs.Block.Columns
import SqlCatalog.Proofs.Block.Head
import SqlCatalog.Proofs.Schema.Column

/-!
# Plain tables

A table of a schema (`SqlCatalog.PlainTable`), and the statement that declares it:
its head and a block with one column a line
(`SqlCatalog.PlainTable.declarationText`). The key stands in a statement of its own,
so a declaration leaves a table without one behind those there are
(`SqlCatalog.PlainTable.leads_declaration`).
-/

namespace SqlCatalog

open Text Noise Token Identifier

/-- **A plain table.** -/
structure PlainTable where
  /-- Its schema, if it has one. -/
  schema : Option PlainName
  /-- Its name. -/
  name : PlainName
  /-- Its columns, in order. -/
  columns : List PlainColumn
  /-- The names of the columns in its key. -/
  key : List PlainName
  /-- The identifier is none of the words that may stand in its place. -/
  not_mem : String.ofList (identifierText schema name) ∉ ["if", "only"]
  /-- It is no table of a tool. -/
  not_system : name.value ∉ systemTables
  /-- No two columns share a name. -/
  nodup : (columns.map (·.name.value)).Nodup
  /-- There is a key. -/
  key_ne_nil : key ≠ []
  /-- The columns of the key are there. -/
  mem_of_mem_key : ∀ name ∈ key, name.value ∈ columns.map (·.name.value)

namespace PlainTable

variable (table : PlainTable)

/-- The identifier of a table. -/
def identifier : String :=
  String.ofList (identifierText table.schema table.name)

/-- **The table with some of its columns in the key.** -/
def withKey (key : List PlainName) : Table where
  rawIdentifier := table.identifier
  name := table.name.value
  schema := table.schema.map PlainName.value
  columns := table.columns.map fun column => column.toColumn (column.isIn key)

theorem columns_ne_nil : table.columns ≠ [] := by
  obtain ⟨name, key, hkey⟩ := List.exists_cons_of_ne_nil table.key_ne_nil
  have hmem := table.mem_of_mem_key name (hkey ▸ List.mem_cons_self)
  intro hnil
  rw [hnil] at hmem
  cases hmem

/-! ### The declaration -/

/-- What stands in front of a column block is steady. -/
theorem isSteady_head (schema : Option PlainName) (name : PlainName) :
    IsSteady (phrase ["CREATE".toList, "TABLE".toList, identifierText schema name]) := by
  have hwords : IsSteady "CREATE".toList ∧ IsSteady "TABLE".toList := by decide
  exact isSteady_phrase (List.cons_ne_nil _ _) (List.forall_mem_cons.mpr ⟨hwords.1,
    List.forall_mem_cons.mpr ⟨hwords.2,
      List.forall_mem_singleton.mpr (isSteady_identifierText _ _)⟩⟩)

/-- Its tokens are those of a head. -/
theorem ofText_head (schema : Option PlainName) (name : PlainName) :
    ofText (phrase ["CREATE".toList, "TABLE".toList, identifierText schema name]) =
      headTokens false false (String.ofList (identifierText schema name)) := by
  rw [ofText_phrase, List.flatMap_cons, List.flatMap_cons, List.flatMap_singleton,
    ofText_identifierText]
  rfl

/-- What stands in front of a column: a new line and four blanks. -/
def indent : List Char :=
  "\n    ".toList

/-- **The statement that declares a table.** -/
def declarationText : List Char :=
  phrase ["CREATE".toList, "TABLE".toList, identifierText table.schema table.name] ++
    ' ' :: '(' :: blockText (table.columns.map fun column => indent ++ column.text) ['\n'] []

/-- A block is calm when the texts of its entries are steady. -/
theorem isCalm_blockText {entries : List (List Char)} (hne : entries ≠ [])
    (h : ∀ entry ∈ entries, IsSteady entry) : IsCalm (blockText entries ['\n'] []) := by
  induction entries with
  | nil => exact absurd rfl hne
  | cons entry entries ih =>
    obtain ⟨hentry, h⟩ := List.forall_mem_cons.mp h
    cases entries with
    | nil =>
      rw [blockText_singleton]
      exact hentry.isCalm_append (by decide) (by decide)
    | cons next entries =>
      rw [blockText_cons_cons]
      exact hentry.isCalm_append (by decide) (ih (List.cons_ne_nil _ _) h)

/-- **No noise opens in a declaration.** -/
theorem isCalm_declarationText : IsCalm table.declarationText := by
  have hindent : IsCalm indent := by decide
  have hopen : IsCalm ['('] := by decide
  have hentries : ∀ entry ∈ table.columns.map (fun column => indent ++ column.text),
      IsSteady entry := by
    intro entry hmem
    obtain ⟨column, -, rfl⟩ := List.mem_map.mp hmem
    intro c hc
    rw [List.append_assoc]
    exact hindent.append (column.isSteady c hc)
  have hne : table.columns.map (fun column => indent ++ column.text) ≠ [] := by
    simpa using table.columns_ne_nil
  exact (isSteady_head _ _).isCalm_append (by decide)
    (hopen.append (isCalm_blockText hne hentries))

/-- **The tokens of a declaration.** -/
def declarationTokens : List String :=
  headTokens false false table.identifier ++
    "(" :: blockTokens (table.columns.map PlainColumn.tokens)

theorem ofText_declarationText : ofText table.declarationText = table.declarationTokens := by
  have hgap : ∀ c ∈ indent, isGap c := by decide
  have hpaired : ∀ entry ∈ table.columns.map (fun column => indent ++ column.text),
      IsPaired entry := by
    intro entry hmem
    obtain ⟨column, -, rfl⟩ := List.mem_map.mp hmem
    exact isPaired_append (isPaired_gaps hgap) column.isPaired
  have htokens : ofText ∘ (fun column : PlainColumn => indent ++ column.text) =
      PlainColumn.tokens := by
    funext column
    rw [Function.comp_apply, ofText_gaps_append hgap, column.ofText_text]
  have hne : table.columns.map (fun column => indent ++ column.text) ≠ [] := by
    simpa using table.columns_ne_nil
  have hblock := ofText_blockText hne hpaired (by decide : ∀ c ∈ ['\n'], isGap c)
    (by decide : ∀ c ∈ [], isGap c)
  rw [List.map_map, htokens] at hblock
  -- the block begins with a new line, so its bracket stands alone
  obtain ⟨rest, hrest⟩ : ∃ rest, blockText (table.columns.map fun column => indent ++ column.text)
      ['\n'] [] = '\n' :: rest := by
    obtain ⟨column, columns, hcolumns⟩ := List.exists_cons_of_ne_nil table.columns_ne_nil
    have hfirst : ∀ others, [','].intercalate ((indent ++ column.text) :: others) =
        '\n' :: [','].intercalate (("    ".toList ++ column.text) :: others) := fun _ =>
      List.intercalate_cons_cons_left
    rw [hcolumns, blockText, List.map_cons, hfirst]
    exact ⟨_, rfl⟩
  have hopen : ofText ('(' :: '\n' :: rest) = "(" :: ofText ('\n' :: rest) :=
    @ofText_append_open [] '\n' (by decide) rfl rfl [] rest
  rw [declarationText, hrest, ofText_append_gap rfl, hopen, ← hrest, hblock, ofText_head]
  rfl

/-! ### Reading a declaration -/

/-- **A block of columns is read**: they stand behind the columns of the open table,
and the statement ends. -/
theorem leads_columns (options : Options) (tables : List Table) {columns : List PlainColumn}
    (hne : columns ≠ []) (table : Table) (place : Option Nat) :
    Leads options .blockEntry (.inBlock tables table place)
      (blockTokens (columns.map PlainColumn.tokens)) .idle
      { tables := tables ++ [{ table with
          columns := table.columns ++ columns.map (·.toColumn false) }] } := by
  have hblock := @leads_blockTokens options tables
    (columns.map fun column => (column.tokens, column.toColumn false)) (by simpa using hne)
    (by
      intro entry hmem
      obtain ⟨column, -, rfl⟩ := List.mem_map.mp hmem
      exact column.leads options) table place
  rwa [List.map_map, List.map_map] at hblock

/-- **A declaration is read**: the table stands behind those there are, without a
key. -/
theorem leads_declaration (options : Options) (tables : List Table) :
    Leads options .idle { tables := tables } table.declarationTokens .idle
      { tables := tables ++ [table.withKey []] } := by
  have hhead := @leads_headTokens options _ false false
    (isTableName_identifierText table.schema table.name) table.not_mem tables
  have hblock := leads_columns options tables table.columns_ne_nil
    (.ofIdentifier (String.ofList (identifierText table.schema table.name))) none
  have hall := hhead.append hblock
  rw [List.append_assoc, ofIdentifier_identifierText] at hall
  exact hall

end PlainTable

end SqlCatalog
