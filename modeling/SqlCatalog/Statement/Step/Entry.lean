import SqlCatalog.Statement.Step.Column

/-!
# Steps between the entries of a column block

The rules for the first token of an entry, which tells columns from table
constraints, for the constraints that are skipped, and for the end of the
block. The word `exclude` begins a constraint of that kind unless a type
follows, in which case it is the name of a column.
-/

namespace SqlCatalog

open Identifier Step

/-- The token at the head of an entry. -/
def readEntry (token : String) (draft : Draft) : Step :=
  if token = ")" then goto .blockEnd draft
  else if token = "constraint" then goto (.constraint .block) draft
  else if token = "primary" then goto (.primary .block) draft
  else if token = "unique" ∨ token = "check" ∨ token = "foreign" then
    goto (.tableConstraint 0) draft
  else if token = "exclude" then goto .excludeEntry draft
  else if isColumnName token then gotoWith .columnName (draft.pushColumn? token) token draft
  else unexpected token draft

/-- A token of a table constraint that is skipped. -/
def readTableConstraint (depth : Nat) (token : String) (draft : Draft) : Step :=
  if token = "," ∧ depth = 0 then goto .blockEntry draft
  else if token = ")" ∧ depth = 0 then goto .blockEnd draft
  else if token = ";" then unexpected token draft
  else if token = "(" then goto (.tableConstraint (depth + 1)) draft
  else if token = ")" then goto (.tableConstraint (depth - 1)) draft
  else goto (.tableConstraint depth) draft

/-- The token behind the bracket that closes a column block. -/
def readBlockEnd (token : String) (draft : Draft) : Step :=
  if token = ";" then goto .idle draft.closeTable else unexpected token draft

/-- The token behind `exclude` at the head of an entry. -/
def readExclude (options : Options) (token : String) (draft : Draft) : Step :=
  if (ColumnType.ofToken? options token).isSome then
    match draft.pushColumn? "exclude" with
    -- the token is a type, so the word before it was a name after all
    | some pushed => readType options token pushed
    | none => unexpected token draft
  else readTableConstraint 0 token draft

end SqlCatalog
