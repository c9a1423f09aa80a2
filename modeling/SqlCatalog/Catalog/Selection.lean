import SqlCatalog.Catalog.Basic
import SqlCatalog.Event
import SqlCatalog.Options

/-!
# The selection of tables

A dump declares tables that no user of the catalog wants. Three kinds are left
out, each with a warning:

* tables that keep the books of other tools (`SqlCatalog.systemTables`), and
  those that the options name;
* tables without a primary key;
* tables with the name of one that is in already.

The kinds are tried in this order, so a table that is out for one of the first
two reasons does not stand in the way of a later table of its name.
-/

namespace SqlCatalog

/-- **The tables of migration tools and extensions**, never part of a
catalog. -/
def systemTables : List String :=
  ["schema_migrations", "ar_internal_metadata", "goose_db_version", "gorp_migrations",
   "flyway_schema_history", "knex_migrations", "knex_migrations_lock",
   "__diesel_schema_migrations", "_sqlx_migrations", "spatial_ref_sys"]

/-- **Why a table is left out**, when tables of the names `seen` are in; `none`
for a table that goes in. -/
def skipReason? (options : Options) (seen : List String) (table : Table) : Option SkipReason :=
  if systemTables.contains table.name || options.ignores table.name then some .systemTable
  else if !table.hasPrimaryKey then some .noPrimaryKey
  else if seen.contains table.name then some .duplicateName
  else none

/-- **A selection**: the tables that go in, and a warning for each of the
others, both in order. -/
structure Selection where
  /-- The tables that go in. -/
  kept : List Table
  /-- The warnings. -/
  warnings : List Event
deriving DecidableEq, Repr

/-- The selection from `tables`, when tables of the names `seen` are in. -/
def selectFrom (options : Options) (seen : List String) : List Table → Selection
  | [] => ⟨[], []⟩
  | table :: tables =>
    match skipReason? options seen table with
    | some reason =>
      let others := selectFrom options seen tables
      ⟨others.kept, .skipped reason table.rawIdentifier :: others.warnings⟩
    | none =>
      let others := selectFrom options (table.name :: seen) tables
      ⟨table :: others.kept, others.warnings⟩

/-- **The selection from a catalog.** -/
def Catalog.select (options : Options) (catalog : Catalog) : Selection :=
  selectFrom options [] catalog.tables

/-- **The catalog of the tables selected.** -/
def Catalog.finalize (options : Options) (catalog : Catalog) : Catalog :=
  ⟨(catalog.select options).kept⟩

end SqlCatalog
