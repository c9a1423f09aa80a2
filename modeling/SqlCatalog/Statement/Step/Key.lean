import SqlCatalog.Statement.Step.Basic

/-!
# Steps in key constraints

The rules for constraints that name their columns behind `primary key`, in a
statement of their own or in a column block. Only a constraint whose name ends
as the names of keys do is read; another one is skipped. A key column is marked
in the draft at the token that names it.
-/

namespace SqlCatalog

open Identifier Step

/-- The name of a constraint. A constraint that is no primary key is skipped:
with its statement, or up to the end of its entry. -/
def readConstraint (scope : KeyScope) (token : String) (draft : Draft) : Step :=
  if isKeyName token then goto (.keyName scope) draft
  else
    match scope with
    | .statement => goto .idle draft.discardPending
    | .block => goto (.tableConstraint 0) draft

/-- A column of a key. -/
def readKeyColumn (scope : KeyScope) (next : State) (column : String) (draft : Draft) : Step :=
  match draft.markKey scope column with
  | .ok (marked, event) => ⟨.ok next, marked, [event]⟩
  | .error e => fail e draft

/-- The token behind `primary key`: a bracket, or a one-column key. -/
def readKey (scope : KeyScope) (token : String) (draft : Draft) : Step :=
  if token = "(" then goto (.keyColumns scope) draft
  else
    match keyColumn? token with
    | some column => readKeyColumn scope (.keyEnd scope) column draft
    | none => unexpected token draft

/-- A token between the brackets of a key. -/
def readKeyColumns (scope : KeyScope) (token : String) (draft : Draft) : Step :=
  if token = "," then goto (.keyColumns scope) draft
  else if token = ")" then goto (.keyEnd scope) draft
  else if isColumnName token then readKeyColumn scope (.keyColumns scope) token draft
  else unexpected token draft

/-- The token behind a key constraint. -/
def readKeyEnd (scope : KeyScope) (token : String) (draft : Draft) : Step :=
  match scope with
  | .statement =>
    if token = ";" then goto .idle draft.discardPending else unexpected token draft
  | .block =>
    if token = "," then goto .blockEntry draft
    else if token = ")" then goto .blockEnd draft
    else unexpected token draft

end SqlCatalog
