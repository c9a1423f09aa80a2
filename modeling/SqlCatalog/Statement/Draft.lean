import SqlCatalog.Catalog.Basic
import SqlCatalog.Error
import SqlCatalog.Event

/-!
# Drafts

What has been read of a dump at some point in it: the tables so far, and what
the statement being read refers to (`SqlCatalog.Draft`). The table whose column
block is open and the column whose type is being read are places in the lists
of tables and columns. A table that a statement has named waits in a slot of
its own until the statement says what becomes of it.

Each operation is about one of these, and gives nothing when what it is about
is not there.
-/

namespace SqlCatalog

open Identifier

/-- **A draft.** -/
structure Draft where
  /-- The tables declared, in order. -/
  tables : List Table := []
  /-- The place of the table whose column block is open. -/
  openTable : Option Nat := none
  /-- The place of the column being read in the open table. -/
  openColumn : Option Nat := none
  /-- The identifier of the table that the statement being read has named. -/
  pending : Option String := none
deriving DecidableEq, Repr, Inhabited

namespace Draft

/-! ### The waiting table -/

/-- The draft in which a table waits. -/
def stash (draft : Draft) (identifier : String) : Draft :=
  { draft with pending := some identifier }

/-- The draft in which none waits. -/
def discardPending (draft : Draft) : Draft :=
  { draft with pending := none }

/-! ### The open table -/

/-- **The draft in which the waiting table is declared and open**, and its
identifier; `none` if no table waits. -/
def openPending? (draft : Draft) : Option (Draft × String) :=
  draft.pending.map fun identifier =>
    ({ tables := draft.tables ++ [Table.ofIdentifier identifier]
       openTable := some draft.tables.length
       openColumn := none
       pending := none }, identifier)

/-- The draft in which no table is open. -/
def closeTable (draft : Draft) : Draft :=
  { draft with openTable := none, openColumn := none }

/-- The open table and its place; `none` if no table stands there. -/
def current? (draft : Draft) : Option (Nat × Table) :=
  draft.openTable.bind fun i => (draft.tables[i]?).map fun table => (i, table)

/-- The draft with another table in a place. -/
def setTable (draft : Draft) (i : Nat) (table : Table) : Draft :=
  { draft with tables := draft.tables.set i table }

/-! ### The open column -/

/-- **The draft with one more column** in the open table, which is the column
being read; `none` if no table is open. -/
def pushColumn? (draft : Draft) (identifier : String) : Option Draft :=
  draft.current?.map fun (i, table) =>
    let columns := table.columns ++ [Column.ofIdentifier identifier]
    { draft.setTable i { table with columns } with openColumn := some table.columns.length }

/-- The column being read; `none` if there is none. -/
def column? (draft : Draft) : Option Column :=
  draft.current?.bind fun (_, table) => draft.openColumn.bind fun j => table.columns[j]?

/-- **The draft with the column being read changed**; `none` if there is
none. -/
def modifyColumn? (draft : Draft) (change : Column → Column) : Option Draft :=
  draft.current?.bind fun (i, table) =>
    draft.openColumn.bind fun j =>
      (table.columns[j]?).map fun column =>
        draft.setTable i { table with columns := table.columns.set j (change column) }

/-! ### Keys -/

/-- The table that a key constraint is about, and its place: the open table for
a constraint in a column block, and otherwise the first table of the identifier
that waits. -/
def keyTable (draft : Draft) (scope : KeyScope) (column : String) :
    Except Error (Nat × Table) :=
  match scope with
  | .block =>
    match draft.current? with
    | some place => .ok place
    | none => .error (.unexpectedToken column)
  | .statement =>
    match draft.pending with
    | none => .error (.unexpectedToken column)
    | some identifier =>
      -- past the end of the list when there is no such table
      let i := draft.tables.findIdx (·.rawIdentifier == identifier)
      match draft.tables[i]? with
      | some table => .ok (i, table)
      | none => .error (.unknownTable identifier)

/-- **The draft with a column in the key** of the table that the constraint is
about, and the event of it. The column is given by an identifier. -/
def markKey (draft : Draft) (scope : KeyScope) (identifier : String) :
    Except Error (Draft × Event) :=
  let column := unquote identifier
  match draft.keyTable scope column with
  | .error e => .error e
  | .ok (i, table) =>
    match table.markKey? column with
    | none => .error (.unknownColumn table.rawIdentifier column)
    | some marked => .ok (draft.setTable i marked, .primaryKey table.rawIdentifier column)

end Draft

end SqlCatalog
