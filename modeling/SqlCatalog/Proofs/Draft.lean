import SqlCatalog.Statement.Draft

/-!
# What the operations on drafts do

Every operation on a draft is about the table that is open or the column being
read, and gives nothing when it is missing. Here is what each of them gives when
it is there.

The first part is about any draft: an operation gives something exactly when
what it is about is there, and what it leaves at the column being read is told
by `SqlCatalog.Draft.column?` alone. The second part is about the two drafts
that reading a column block goes through. In both the last table is the open
one; `SqlCatalog.Draft.inBlock` stands between two entries of its block and
`SqlCatalog.Draft.onColumn` in a column definition. On these two each operation
is an equation.
-/

namespace SqlCatalog

namespace Draft

variable {draft draft' : Draft}

/-! ### Any draft -/

/-- A table can be opened exactly when one waits. -/
theorem isSome_openPending? : draft.openPending?.isSome = draft.pending.isSome := by
  simp [openPending?]

/-- A column can be added exactly when a table is open. -/
theorem isSome_pushColumn? (identifier : String) :
    (draft.pushColumn? identifier).isSome = draft.current?.isSome := by
  simp [pushColumn?]

/-- The open table of a draft is the one in the place that the draft says. -/
theorem current?_eq_some_iff {i : Nat} {table : Table} :
    draft.current? = some (i, table) ↔
      draft.openTable = some i ∧ draft.tables[i]? = some table := by
  rw [current?, Option.bind_eq_some_iff]
  constructor
  · rintro ⟨k, hopen, h⟩
    obtain ⟨t, ht, h⟩ := Option.map_eq_some_iff.mp h
    cases h
    exact ⟨hopen, ht⟩
  · rintro ⟨hopen, ht⟩
    exact ⟨i, hopen, by rw [ht, Option.map_some]⟩

/-- It stands there. -/
theorem of_current? {i : Nat} {table : Table} (h : draft.current? = some (i, table)) :
    draft.openTable = some i ∧ draft.tables[i]? = some table :=
  current?_eq_some_iff.mp h

/-- Another table in the place of the open one is the open table. -/
theorem current?_setTable {i : Nat} {table : Table}
    (h : draft.current? = some (i, table)) (table' : Table) :
    (draft.setTable i table').current? = some (i, table') := by
  obtain ⟨hopen, hplace⟩ := of_current? h
  obtain ⟨hi, -⟩ := List.getElem?_eq_some_iff.mp hplace
  simp [current?, setTable, hopen, hi]

/-- **A column added is the column being read.** -/
theorem column?_of_pushColumn? {identifier : String}
    (h : draft.pushColumn? identifier = some draft') :
    draft'.column? = some (Column.ofIdentifier identifier) := by
  obtain ⟨⟨i, table⟩, hc, rfl⟩ := Option.map_eq_some_iff.mp h
  have hset := current?_setTable hc
    { table with columns := table.columns ++ [Column.ofIdentifier identifier] }
  simp only [column?, current?, setTable] at hset ⊢
  rw [hset]
  simp

/-- The column being read stands at the place that the draft says. -/
theorem of_column? {column : Column} (h : draft.column? = some column) :
    ∃ i table j, draft.current? = some (i, table) ∧ draft.openColumn = some j ∧
      table.columns[j]? = some column := by
  obtain ⟨⟨i, table⟩, hc, h⟩ := Option.bind_eq_some_iff.mp h
  obtain ⟨j, hj, h⟩ := Option.bind_eq_some_iff.mp h
  exact ⟨i, table, j, hc, hj, h⟩

/-- A change of the column being read is one of its place. -/
theorem modifyColumn?_eq {i j : Nat} {table : Table} {column : Column}
    (hc : draft.current? = some (i, table)) (hj : draft.openColumn = some j)
    (h : table.columns[j]? = some column) (change : Column → Column) :
    draft.modifyColumn? change =
      some (draft.setTable i { table with columns := table.columns.set j (change column) }) := by
  simp only [modifyColumn?, hc, hj, Option.bind_some, h, Option.map_some]

/-- **The column being read is the one that a change changes**: there is a
changed draft exactly when there is a column, and in it the column is changed. -/
theorem modifyColumn?_of_column? {column : Column} (h : draft.column? = some column)
    (change : Column → Column) :
    ∃ draft', draft.modifyColumn? change = some draft' ∧
      draft'.column? = some (change column) := by
  obtain ⟨i, table, j, hc, hj, h⟩ := of_column? h
  refine ⟨_, modifyColumn?_eq hc hj h change, ?_⟩
  have hset := current?_setTable hc
    { table with columns := table.columns.set j (change column) }
  obtain ⟨hj', -⟩ := List.getElem?_eq_some_iff.mp h
  rw [column?, hset]
  simp [setTable, hj, hj']

/-- A draft without a column being read has none to change. -/
theorem isSome_modifyColumn? (change : Column → Column) :
    (draft.modifyColumn? change).isSome = draft.column?.isSome := by
  cases h : draft.column? with
  | some column =>
    obtain ⟨draft', h', -⟩ := modifyColumn?_of_column? h change
    rw [h', Option.isSome_some, Option.isSome_some]
  | none =>
    rw [Option.isSome_none, Option.isSome_eq_false_iff, Option.isNone_iff_eq_none]
    simp only [column?, Option.bind_eq_none_iff, List.getElem?_eq_none_iff] at h
    simp only [modifyColumn?, Option.bind_eq_none_iff, Option.map_eq_none_iff,
      List.getElem?_eq_none_iff]
    exact h

/-- A column that is not changed leaves the draft as it is. -/
theorem modifyColumn?_id {column : Column} (h : draft.column? = some column) :
    draft.modifyColumn? id = some draft := by
  obtain ⟨i, table, j, hc, hj, h⟩ := of_column? h
  obtain ⟨hj', rfl⟩ := List.getElem?_eq_some_iff.mp h
  obtain ⟨hi, rfl⟩ := List.getElem?_eq_some_iff.mp (of_current? hc).2
  rw [modifyColumn?_eq hc hj h, id, List.set_getElem_self, setTable, List.set_getElem_self]

/-- One change of the column being read behind another. -/
theorem modifyColumn?_comp {column : Column} (h : draft.column? = some column)
    (f g : Column → Column) :
    draft.modifyColumn? (g ∘ f) = (draft.modifyColumn? f).bind (·.modifyColumn? g) := by
  obtain ⟨i, table, j, hc, hj, h⟩ := of_column? h
  obtain ⟨hj', -⟩ := List.getElem?_eq_some_iff.mp h
  have hset := current?_setTable hc { table with columns := table.columns.set j (f column) }
  have hcolumn : (table.columns.set j (f column))[j]? = some (f column) :=
    List.getElem?_set_self hj'
  have hopen : (draft.setTable i
      { table with columns := table.columns.set j (f column) }).openColumn = some j := hj
  rw [modifyColumn?_eq hc hj h, modifyColumn?_eq hc hj h, Option.bind_some,
    modifyColumn?_eq hset hopen hcolumn]
  simp only [setTable, List.set_set, Function.comp_apply]

/-! ### Drafts inside a column block -/

/-- **A draft inside the column block** of `table`, which is declared behind
`tables`. -/
def inBlock (tables : List Table) (table : Table) (place : Option Nat) : Draft :=
  { tables := tables ++ [table]
    openTable := some tables.length
    openColumn := place
    pending := none }

/-- **A draft in the definition of a column**, which stands behind `columns` in
the table that is declared behind `tables`. -/
def onColumn (tables : List Table) (table : Table) (columns : List Column) (column : Column) :
    Draft :=
  inBlock tables { table with columns := columns ++ [column] } (some columns.length)

variable (tables : List Table) (table : Table) (place : Option Nat) (columns : List Column)
  (column : Column)

@[simp] theorem current?_inBlock :
    (inBlock tables table place).current? = some (tables.length, table) := by
  simp [current?, inBlock]

@[simp] theorem setTable_inBlock (table' : Table) :
    (inBlock tables table place).setTable tables.length table' = inBlock tables table' place := by
  simp [setTable, inBlock]

/-- Adding a column to the block begins its definition. -/
@[simp] theorem pushColumn?_inBlock (identifier : String) :
    (inBlock tables table place).pushColumn? identifier =
      some (onColumn tables table table.columns (Column.ofIdentifier identifier)) := by
  simp only [pushColumn?, current?_inBlock, Option.map_some, setTable_inBlock]
  rfl

@[simp] theorem column?_onColumn :
    (onColumn tables table columns column).column? = some column := by
  simp [column?, onColumn, inBlock, current?]

/-- A change of the column being read changes the last column. -/
@[simp] theorem modifyColumn?_onColumn (change : Column → Column) :
    (onColumn tables table columns column).modifyColumn? change =
      some (onColumn tables table columns (change column)) := by
  simp [modifyColumn?, onColumn, inBlock, current?, setTable]

end Draft

end SqlCatalog
