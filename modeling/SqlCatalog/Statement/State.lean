import SqlCatalog.Text.Decimal

/-!
# The states of reading statements

Reading the tokens of a dump is always in one state, which says what kind of
fragment may come next (`SqlCatalog.State`).

Two attitudes meet here. Outside the statements that matter the reader is
*tolerant*: it skips what it does not know. Inside the column block of a table,
and inside a key constraint, it is *strict*: a token out of place ends the
reading, since a wrong table is worse than none.

Each state has a label, under which an error message names it
(`SqlCatalog.State.label`), and `SqlCatalog.State.ofLabel?` reads the labels
back.
-/

namespace SqlCatalog

/-- **What a statement does to the table it names.** -/
inductive TableVerb where
  /-- It declares the table. -/
  | create
  /-- It changes a table declared before. -/
  | alter
deriving DecidableEq, Repr

/-- **Where a key constraint stands.** -/
inductive KeyScope where
  /-- In a statement of its own, which alters a table. -/
  | statement
  /-- In the column block of its table. -/
  | block
deriving DecidableEq, Repr

/-- **The states**, by what has been read. -/
inductive State where
  /-- No statement that matters. -/
  | idle
  /-- The word `create`. -/
  | create
  /-- The word `alter`. -/
  | alter
  /-- The word `table`; a name is due. -/
  | table (verb : TableVerb)
  /-- The words `create table if`. -/
  | tableIf
  /-- The words `create table if not`. -/
  | tableIfNot
  /-- The words `alter table only`. -/
  | only
  /-- The name of the table. -/
  | tableName (verb : TableVerb)
  /-- The word `add` of an alteration. -/
  | add
  /-- The word `constraint`; its name is due. -/
  | constraint (scope : KeyScope)
  /-- The name of a key constraint. -/
  | keyName (scope : KeyScope)
  /-- The word `primary` of a key constraint. -/
  | primary (scope : KeyScope)
  /-- The words `primary key`; columns are due. -/
  | key (scope : KeyScope)
  /-- The bracket in front of the key columns, and perhaps some of them. -/
  | keyColumns (scope : KeyScope)
  /-- The whole key constraint. -/
  | keyEnd (scope : KeyScope)
  /-- The bracket of a column block, or the comma behind an entry. -/
  | blockEntry
  /-- The name of a column; its type is due. -/
  | columnName
  /-- A complete type. -/
  | columnType
  /-- The inside of a type modifier. -/
  | typeModifier
  /-- The word `character`. -/
  | characterType
  /-- The word `double`. -/
  | doubleType
  /-- The word `time` or `timestamp`. -/
  | clockType
  /-- The word `with` or `without` behind such a word. -/
  | timeZone
  /-- The word `time` of a time zone. -/
  | timeZoneName
  /-- The word `collate`; a collation is due. -/
  | collation
  /-- The word `primary` behind a column. -/
  | columnPrimary
  /-- The word `not` behind a column. -/
  | columnNot
  /-- An option of a column that another may follow. -/
  | columnOption
  /-- A default expression in which `depth` brackets are open. -/
  | columnDefault (depth : Nat)
  /-- The word `exclude` at the head of an entry, which is a column of that
  name if a type follows, and a constraint otherwise. -/
  | excludeEntry
  /-- A table constraint that is skipped, in which `depth` brackets are
  open. -/
  | tableConstraint (depth : Nat)
  /-- The bracket that closes a column block. -/
  | blockEnd
deriving DecidableEq, Repr, Inhabited

/-! ### Labels -/

/-- The label of a verb. -/
def TableVerb.label : TableVerb → String
  | .create => "Create"
  | .alter => "Alter"

/-- The label of a scope. -/
def KeyScope.label : KeyScope → String
  | .statement => "Statement"
  | .block => "Block"

/-- A label with its argument in brackets. -/
def labelWith (name argument : String) : String :=
  name ++ "(" ++ argument ++ ")"

/-- What stands in front of a depth in a label that has one. -/
def depthOpening (name : String) : String :=
  name ++ " \x7b depth: "

/-- What stands behind a depth in a label. -/
def depthClosing : String := " \x7d"

/-- A label with a depth. -/
def labelWithDepth (name : String) (depth : Nat) : String :=
  depthOpening name ++ toString depth ++ depthClosing

/-- The name of the state inside a default expression. -/
def defaultLabel : String := "DefaultColumnTypOption"

/-- The name of the state inside a table constraint. -/
def tableConstraintLabel : String := "TableConstraint"

/-- **The label of a state.** -/
def State.label : State → String
  | .idle => "Idle"
  | .create => "Create"
  | .alter => "Alter"
  | .table verb => labelWith "Table" verb.label
  | .tableIf => "TableIf"
  | .tableIfNot => "TableIfNot"
  | .only => "Only"
  | .tableName verb => labelWith "TableName" verb.label
  | .add => "Add"
  | .constraint scope => labelWith "Constraint" scope.label
  | .keyName scope => labelWith "PrimaryKeyConstraintName" scope.label
  | .primary scope => labelWith "Primary" scope.label
  | .key scope => labelWith "Key" scope.label
  | .keyColumns scope => labelWith "KeyColumns" scope.label
  | .keyEnd scope => labelWith "PrimaryKeyName" scope.label
  | .blockEntry => "OpenBracket"
  | .columnName => "ColumnName"
  | .columnType => "ColumnTyp"
  | .typeModifier => "TypeModifierColumnTyp"
  | .characterType => "CharacterColumnTyp"
  | .doubleType => "DoubleColumnTyp"
  | .clockType => "TimeOrTimestampColumnTyp"
  | .timeZone => "TimeZoneColumnTyp"
  | .timeZoneName => "TimeZoneNameColumnTyp"
  | .collation => "CollateColumnTypOption"
  | .columnPrimary => "PrimaryColumnTypOption"
  | .columnNot => "NotColumnTypOption"
  | .columnOption => "NullColumnTypOption"
  | .columnDefault depth => labelWithDepth defaultLabel depth
  | .excludeEntry => "ExcludeOrColumn"
  | .tableConstraint depth => labelWithDepth tableConstraintLabel depth
  | .blockEnd => "CloseBracket"

/-! ### Reading labels -/

/-- The states that have no depth. -/
def State.plainStates : List State :=
  [.idle, .create, .alter, .table .create, .table .alter, .tableIf, .tableIfNot, .only,
   .tableName .create, .tableName .alter, .add, .constraint .statement, .constraint .block,
   .keyName .statement, .keyName .block, .primary .statement, .primary .block,
   .key .statement, .key .block, .keyColumns .statement, .keyColumns .block,
   .keyEnd .statement, .keyEnd .block, .blockEntry, .columnName, .columnType, .typeModifier,
   .characterType, .doubleType, .clockType, .timeZone, .timeZoneName, .collation,
   .columnPrimary, .columnNot, .columnOption, .excludeEntry, .blockEnd]

/-- The depth in a label whose name is given; `none` for another label. -/
def depthInLabel? (name label : String) : Option Nat :=
  let opening := (depthOpening name).toList
  let text := label.toList
  let digits := (text.drop opening.length).takeWhile Char.isDigit
  let closing := (text.drop opening.length).dropWhile Char.isDigit
  if opening.isPrefixOf text && !digits.isEmpty && closing == depthClosing.toList then
    some (Text.decimal digits)
  else none

/-- **The state of a label**; `none` for a text that is no label. -/
def State.ofLabel? (label : String) : Option State :=
  match plainStates.find? (·.label == label) with
  | some state => some state
  | none =>
    match depthInLabel? defaultLabel label with
    | some depth => some (.columnDefault depth)
    | none => (depthInLabel? tableConstraintLabel label).map .tableConstraint

end SqlCatalog
