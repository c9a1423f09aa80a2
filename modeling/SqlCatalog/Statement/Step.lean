import SqlCatalog.Statement.Step.Entry
import SqlCatalog.Statement.Step.Header
import SqlCatalog.Statement.Step.Key

/-!
# One step

What one token does in each of the states (`SqlCatalog.step`). Every state has
its rule, and the rules are grouped as a dump is built: statements around
tables, key constraints, the entries of a column block and the definitions of
columns.
-/

namespace SqlCatalog

/-- **One step**: what a token does in a state. -/
def step (options : Options) (state : State) (draft : Draft) (token : String) : Step :=
  match state with
  | .idle => readIdle token draft
  | .create => readCreate token draft
  | .alter => readAlter token draft
  | .table verb => readTable verb token draft
  | .tableIf => readWord "not" .tableIfNot token draft
  | .tableIfNot => readWord "exists" (.table .create) token draft
  | .only => readTableIdentifier .alter token draft
  | .tableName verb => readTableName verb token draft
  | .add => readAdd token draft
  | .constraint scope => readConstraint scope token draft
  | .keyName scope => readWord "primary" (.primary scope) token draft
  | .primary scope => readWord "key" (.key scope) token draft
  | .key scope => readKey scope token draft
  | .keyColumns scope => readKeyColumns scope token draft
  | .keyEnd scope => readKeyEnd scope token draft
  | .blockEntry => readEntry token draft
  | .columnName => readType options token draft
  | .columnType => readColumnTail token draft
  | .typeModifier => readModifier token draft
  | .characterType => readCharacter token draft
  | .doubleType => readTypeWord "precision" .columnType token draft
  | .clockType => readClock token draft
  | .timeZone => readTypeWord "time" .timeZoneName token draft
  | .timeZoneName => readTypeWord "zone" .columnType token draft
  | .collation => readCollation token draft
  | .columnPrimary => readColumnPrimary token draft
  | .columnNot => readColumnNot token draft
  | .columnOption => readColumnOption token draft
  | .columnDefault depth => readDefaultToken depth token draft
  | .excludeEntry => readExclude options token draft
  | .tableConstraint depth => readTableConstraint depth token draft
  | .blockEnd => readBlockEnd token draft

end SqlCatalog
