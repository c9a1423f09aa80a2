import SqlCatalog.ColumnType
import SqlCatalog.Statement.Step.Basic

/-!
# Steps in column definitions

The rules for what stands behind the name of a column: its type, which may take
several tokens, and then its options. What a type says besides its name is
collected in the type options of the column, some of it as it stands and some
of it word by word.
-/

namespace SqlCatalog

open Step

/-! ### Types -/

/-- The state behind the first token of a type. -/
def TypeFamily.state : TypeFamily → State
  | .scalar => .columnType
  | .character => .characterType
  | .clock => .clockType
  | .double => .doubleType

/-- The token behind the name of a column: its type. -/
def readType (options : Options) (token : String) (draft : Draft) : Step :=
  match ColumnType.ofToken? options token with
  | none => unexpected token draft
  | some type =>
    gotoWith type.family.state
      (draft.modifyColumn? fun column =>
        { column with dataType := type.name, typeOptions := type.modifier })
      token draft

/-- A column with more text in its type options. -/
def Column.appendOption (text : String) (column : Column) : Column :=
  { column with typeOptions := column.typeOptions ++ text }

/-- **A column with one more word in its type options**, behind a space unless
it is the first. -/
def Column.appendWord (word : String) (column : Column) : Column :=
  { column with
    typeOptions := (if column.typeOptions = "" then "" else column.typeOptions ++ " ") ++ word }

/-- A word that belongs to the type options. -/
def readOptionWord (next : State) (token : String) (draft : Draft) : Step :=
  gotoWith next (draft.modifyColumn? (Column.appendWord token)) token draft

/-- A token inside a type modifier. -/
def readModifier (token : String) (draft : Draft) : Step :=
  if token = ";" then unexpected token draft
  else
    gotoWith (if token = ")" then .columnType else .typeModifier)
      (draft.modifyColumn? (Column.appendOption token)) token draft

/-- Whether a token begins with a text. -/
def beginsWith (text : String) (token : String) : Bool :=
  text.toList.isPrefixOf token.toList

/-- The token behind `character`. -/
def readCharacter (token : String) (draft : Draft) : Step :=
  if beginsWith "varying" token || beginsWith "(" token then
    readOptionWord .columnType token draft
  else unexpected token draft

/-- A token that has to be the given word of a type. -/
def readTypeWord (word : String) (next : State) (token : String) (draft : Draft) : Step :=
  if token = word then readOptionWord next token draft else unexpected token draft

/-! ### Options -/

/-- The word `default`. -/
def readDefault (token : String) (draft : Draft) : Step :=
  gotoWith (.columnDefault 0)
    (draft.modifyColumn? fun column => { column with hasDefault := true }) token draft

/-- **The token behind a complete type.** -/
def readColumnTail (token : String) (draft : Draft) : Step :=
  if token = "," then goto .blockEntry draft
  else if token = ")" then goto .blockEnd draft
  else if token = "not" then goto .columnNot draft
  else if token = "null" then goto .columnOption draft
  else if token = "default" then readDefault token draft
  else if token = "primary" then goto .columnPrimary draft
  else if token = "collate" then goto .collation draft
  else if token = "(" then
    gotoWith .typeModifier (draft.modifyColumn? (Column.appendOption token)) token draft
  else if beginsWith "[" token || beginsWith "(" token then
    gotoWith .columnType (draft.modifyColumn? (Column.appendOption token)) token draft
  else unexpected token draft

/-- The token behind `time` or `timestamp`. -/
def readClock (token : String) (draft : Draft) : Step :=
  if token = "with" ∨ token = "without" then readOptionWord .timeZone token draft
  else readColumnTail token draft

/-- The token behind `collate`. -/
def readCollation (token : String) (draft : Draft) : Step :=
  if token = "," ∨ token = ")" ∨ token = ";" then unexpected token draft
  else goto .columnType draft

/-- The token behind `primary` at a column. -/
def readColumnPrimary (token : String) (draft : Draft) : Step :=
  if token = "key" then gotoWith .columnOption (draft.modifyColumn? Column.asKey) token draft
  else unexpected token draft

/-- The token behind `not` at a column. -/
def readColumnNot (token : String) (draft : Draft) : Step :=
  if token = "null" then
    gotoWith .columnOption
      (draft.modifyColumn? fun column => { column with isNotNull := true }) token draft
  else unexpected token draft

/-- The token behind an option of a column. -/
def readColumnOption (token : String) (draft : Draft) : Step :=
  if token = "," then goto .blockEntry draft
  else if token = ")" then goto .blockEnd draft
  else if token = "default" then readDefault token draft
  else if token = "primary" then goto .columnPrimary draft
  else unexpected token draft

/-- A token of a default expression. -/
def readDefaultToken (depth : Nat) (token : String) (draft : Draft) : Step :=
  if token = "," ∧ depth = 0 then goto .blockEntry draft
  else if token = ")" ∧ depth = 0 then goto .blockEnd draft
  else if token = "not" ∧ depth = 0 then goto .columnNot draft
  else if token = ";" then unexpected token draft
  else if token = "(" then goto (.columnDefault (depth + 1)) draft
  else if token = ")" then goto (.columnDefault (depth - 1)) draft
  else goto (.columnDefault depth) draft

end SqlCatalog
