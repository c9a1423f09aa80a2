import SqlCatalog.ArrayMark
import SqlCatalog.Identifier

/-!
# Catalogs

A *catalog* is what a dump declares: its tables, and their columns, both in the
order of the dump. Tables are found by name or by the identifier that the dump
wrote, columns by name; the first one found counts, since nothing here keeps
two from sharing a name.
-/

namespace SqlCatalog

open Identifier

/-- **A column.** -/
structure Column where
  /-- Its name. -/
  name : String
  /-- The name of its type, in lower case and without a schema. -/
  dataType : String := ""
  /-- What the dump says of the type besides its name. -/
  typeOptions : String := ""
  /-- Whether it never holds null. -/
  isNotNull : Bool := false
  /-- Whether it belongs to the primary key. -/
  isPrimaryKey : Bool := false
  /-- Whether it has a default value. -/
  hasDefault : Bool := false
deriving DecidableEq, Repr, Inhabited

/-- **A table.** -/
structure Table where
  /-- The identifier in the dump, in lower case. -/
  rawIdentifier : String
  /-- Its name, without schema and double quotes. -/
  name : String
  /-- The name of its schema, if the identifier gives one. -/
  schema : Option String
  /-- Its columns. -/
  columns : List Column
deriving DecidableEq, Repr, Inhabited

/-- **A catalog**: the tables of a dump. -/
structure Catalog where
  /-- The tables, in the order of their declaration. -/
  tables : List Table := []
deriving DecidableEq, Repr, Inhabited

/-! ### Columns -/

namespace Column

/-- The column that an identifier names, without a type. -/
def ofIdentifier (identifier : String) : Column :=
  { name := unquote identifier }

/-- **The column as part of the primary key**, which is never null. -/
def asKey (column : Column) : Column :=
  { column with isPrimaryKey := true, isNotNull := true }

/-- Whether the column holds arrays. -/
def isArray (column : Column) : Bool :=
  ArrayMark.isMarked column.dataType || ArrayMark.isMarked column.typeOptions

end Column

/-! ### Tables -/

namespace Table

/-- **The table that an identifier names**, without columns. A first period
separates its schema from its name. -/
def ofIdentifier (identifier : String) : Table :=
  match cutFirst? '.' identifier.toList with
  | some (schema, name) =>
    ⟨identifier, String.ofList (dropQuotes name), some (String.ofList (dropQuotes schema)), []⟩
  | none => ⟨identifier, unquote identifier, none, []⟩

/-- **The column of a name.** -/
def column? (table : Table) (name : String) : Option Column :=
  table.columns.find? (·.name == name)

/-- The columns of the primary key. -/
def primaryKey (table : Table) : List Column :=
  table.columns.filter (·.isPrimaryKey)

/-- Whether there is a primary key. -/
def hasPrimaryKey (table : Table) : Bool :=
  table.columns.any (·.isPrimaryKey)

end Table

/-- The list with its first member that satisfies `p` changed by `f`; `none` if
there is no such member. -/
def modifyFirst? {α : Type} (p : α → Bool) (f : α → Option α) : List α → Option (List α)
  | [] => none
  | x :: xs => if p x then (f x).map (· :: xs) else (modifyFirst? p f xs).map (x :: ·)

/-- **The table with a column in its primary key**: the first one of the name;
`none` if there is none. -/
def Table.markKey? (table : Table) (column : String) : Option Table :=
  (modifyFirst? (·.name == column) (fun c => some c.asKey) table.columns).map fun columns =>
    { table with columns }

/-! ### Catalogs -/

namespace Catalog

/-- **The table of a name** or of an identifier. -/
def table? (catalog : Catalog) (name : String) : Option Table :=
  catalog.tables.find? fun table => table.name == name || table.rawIdentifier == name

/-- The number of tables. -/
def size (catalog : Catalog) : Nat :=
  catalog.tables.length

/-- Whether there are no tables. -/
def isEmpty (catalog : Catalog) : Bool :=
  catalog.tables.isEmpty

/-- Whether a column belongs to the primary key of its table; not so if there
is no such column. -/
def isKeyColumn (catalog : Catalog) (table column : String) : Bool :=
  match (catalog.table? table).bind (·.column? column) with
  | some c => c.isPrimaryKey
  | none => false

/-- The catalog with one more table at its end. -/
def pushTable (catalog : Catalog) (table : Table) : Catalog :=
  ⟨catalog.tables ++ [table]⟩

/-- The catalog with one more column at the end of its last table; `none` if
there is no table. -/
def pushColumn? (catalog : Catalog) (column : Column) : Option Catalog :=
  catalog.tables.getLast?.map fun last =>
    ⟨catalog.tables.dropLast ++ [{ last with columns := last.columns ++ [column] }]⟩

/-- **The catalog with a column in the primary key** of the first table of an
identifier; `none` if there is no such table or column. -/
def markKey? (catalog : Catalog) (identifier column : String) : Option Catalog :=
  (modifyFirst? (·.rawIdentifier == identifier) (·.markKey? column) catalog.tables).map
    fun tables => ⟨tables⟩

end Catalog

end SqlCatalog
