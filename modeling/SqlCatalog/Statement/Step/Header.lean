import SqlCatalog.Statement.Step.Basic

/-!
# Steps around tables

The rules for tokens outside column blocks and key constraints. They are
tolerant as long as no table is named: a statement that begins like one that
matters and goes on otherwise is skipped, and so is an alteration that adds no
constraint. Behind `create table` a name and a bracket have to come.
-/

namespace SqlCatalog

open Identifier Step

/-! ### The head of a statement -/

/-- A token outside tables, at the head of a statement or shortly behind it. -/
def readIdle (token : String) (draft : Draft) : Step :=
  if token = "create" then goto .create draft
  else if token = "alter" then goto .alter draft
  else goto .idle draft

/-- The token behind `create`. -/
def readCreate (token : String) (draft : Draft) : Step :=
  if token = "table" then goto (.table .create) draft
  else if token = "unlogged" then goto .create draft
  else goto .idle draft

/-- The token behind `alter`. -/
def readAlter (token : String) (draft : Draft) : Step :=
  if token = "table" then goto (.table .alter) draft else goto .idle draft

/-! ### The table of a statement -/

/-- The identifier of a table, which waits for what the statement does to it. -/
def readTableIdentifier (verb : TableVerb) (token : String) (draft : Draft) : Step :=
  if isTableName token then goto (.tableName verb) (draft.stash token)
  else unexpected token draft

/-- The token behind `table`. An alteration that allows for a missing table is
skipped. -/
def readTable (verb : TableVerb) (token : String) (draft : Draft) : Step :=
  match verb with
  | .create =>
    if token = "if" then goto .tableIf draft
    else if token = "only" then unexpected token draft
    else readTableIdentifier .create token draft
  | .alter =>
    if token = "if" then goto .idle draft
    else if token = "only" then goto .only draft
    else readTableIdentifier .alter token draft

/-- The token behind the name of a table. -/
def readTableName (verb : TableVerb) (token : String) (draft : Draft) : Step :=
  match verb with
  | .create =>
    if token = "(" then
      match draft.openPending? with
      | some (opened, identifier) => ⟨.ok .blockEntry, opened, [.createTable identifier]⟩
      | none => unexpected token draft
    else unexpected token draft
  | .alter =>
    if token = "add" then goto .add draft
    else if token = "(" then unexpected token draft
    else goto .idle draft.discardPending

/-- The token behind `add`. -/
def readAdd (token : String) (draft : Draft) : Step :=
  if token = "constraint" then goto (.constraint .statement) draft
  else goto .idle draft.discardPending

end SqlCatalog
