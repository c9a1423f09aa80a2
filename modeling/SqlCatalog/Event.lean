/-!
# Events

What reading a dump reports on its way: tables and keys as they are found,
tables that are left out and why, and a summary at the end.
-/

namespace SqlCatalog

/-- **Why a table is left out** of a catalog. -/
inductive SkipReason where
  /-- It is kept for bookkeeping, or the options name it. -/
  | systemTable
  /-- It has no primary key. -/
  | noPrimaryKey
  /-- A table of its name is in the catalog already. -/
  | duplicateName
deriving DecidableEq, Repr

/-- **An event.** Tables are given by their identifiers. -/
inductive Event where
  /-- The columns of a table begin. -/
  | createTable (table : String)
  /-- A key constraint names a column. -/
  | primaryKey (table column : String)
  /-- A table is left out. -/
  | skipped (reason : SkipReason) (table : String)
  /-- A dump is read, with the numbers of its tokens, of the tables it declares
  and of the tables in the catalog. -/
  | parsed (tokens declared kept : Nat)
deriving DecidableEq, Repr

/-- The wording of a reason. -/
def SkipReason.message : SkipReason → String
  | .systemTable => "skipping system table"
  | .noPrimaryKey => "skipping table without primary key"
  | .duplicateName => "skipping duplicate table name"

/-- **The wording of an event.** -/
def Event.message : Event → String
  | .createTable _ => "create table"
  | .primaryKey _ _ => "primary key"
  | .skipped reason _ => reason.message
  | .parsed _ _ _ => "parsed schema dump"

/-- Whether an event is a warning. -/
def Event.isWarning : Event → Bool
  | .skipped _ _ => true
  | _ => false

end SqlCatalog
