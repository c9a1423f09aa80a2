import SqlCatalog.Statement.Step
import SqlCatalog.Proofs.Draft

/-!
# Places and edits

A state tells a reader what may come next, and it also tells what the draft has
to look like: whether a table waits, whether one is open, whether a column is
being read. That part of a state is its *place* (`SqlCatalog.State.place`), and
there are four of them.

A token that is accepted does one thing to the draft, an *edit*
(`SqlCatalog.Edit`), and the edits go between places as in this table
(`SqlCatalog.Edit.Moves`).

| edit | from | to |
|---|---|---|
| none | any place | the same |
| none | a column | between entries |
| a table is named | outside | a table named |
| the name is dropped | a table named | outside |
| the table is opened | a table named | between entries |
| the table is closed | between entries | outside |
| a column is added, with or without a type | between entries | a column |
| the column is changed | a column | a column |
| a key column is marked | a table named, between entries | the same |

Every step is of this kind (`SqlCatalog.step_ruled` in
`SqlCatalog.Proofs.Transition`), so what a run keeps is read off the table, with no
case analysis over the states.
-/

namespace SqlCatalog

open Identifier Step

/-! ### Places -/

/-- **The places of a reader.** -/
inductive Place where
  /-- In front of the name of a table, or in a statement without one. -/
  | outside
  /-- Behind the name of a table, outside a column block. -/
  | named
  /-- In a column block, in no column definition. -/
  | block
  /-- In a column definition. -/
  | column
deriving DecidableEq, Repr

/-- The place of a key constraint. -/
def KeyScope.place : KeyScope → Place
  | .statement => .named
  | .block => .block

/-- **The place of a state.** -/
def State.place : State → Place
  | .idle | .create | .alter | .table _ | .tableIf | .tableIfNot | .only => .outside
  | .tableName _ | .add => .named
  | .constraint scope | .keyName scope | .primary scope | .key scope | .keyColumns scope
  | .keyEnd scope => scope.place
  | .blockEntry | .excludeEntry | .tableConstraint _ | .blockEnd => .block
  | .columnName | .columnType | .typeModifier | .characterType | .doubleType | .clockType
  | .timeZone | .timeZoneName | .collation | .columnPrimary | .columnNot | .columnOption
  | .columnDefault _ => .column

/-- **A state in which the type of a column is complete.** -/
def State.IsTyped (state : State) : Prop :=
  state = .columnType ∨ state = .clockType

/-! ### Edits -/

/-- **What an accepted token does to the draft.** -/
inductive Edit where
  /-- Nothing. -/
  | keep
  /-- It names the table of a statement. -/
  | stash (identifier : String)
  /-- It ends a statement that named a table. -/
  | discard
  /-- It opens the column block of the table. -/
  | openTable
  /-- It ends the statement of the open table. -/
  | closeTable
  /-- It begins a column definition. -/
  | addColumn (identifier : String)
  /-- It says something about the column being read. -/
  | change (f : Column → Column)
  /-- It is the type of a column whose name had another meaning before. -/
  | addTyped (identifier : String) (f : Column → Column)
  /-- It puts a column into a key. -/
  | markKey (scope : KeyScope) (identifier : String)

/-- **The step that an edit gives**, on the way to a state. What the edit is
about may be missing in a draft, and then the token is unexpected. -/
def Edit.perform (next : State) (token : String) (draft : Draft) : Edit → Step
  | .keep => goto next draft
  | .stash identifier => goto next (draft.stash identifier)
  | .discard => goto next draft.discardPending
  | .openTable =>
    match draft.openPending? with
    | some (opened, identifier) => ⟨.ok next, opened, [.createTable identifier]⟩
    | none => unexpected token draft
  | .closeTable => goto next draft.closeTable
  | .addColumn identifier => gotoWith next (draft.pushColumn? identifier) token draft
  | .change f => gotoWith next (draft.modifyColumn? f) token draft
  | .addTyped identifier f =>
    gotoWith next ((draft.pushColumn? identifier).bind (·.modifyColumn? f)) token draft
  | .markKey scope identifier => readKeyColumn scope next identifier draft

/-- **Between which places an edit goes.** -/
inductive Edit.Moves : Edit → Place → Place → Prop where
  /-- Most tokens leave the draft and the place alone. -/
  | stay (place : Place) : Moves .keep place place
  /-- A comma or a bracket ends a column definition. -/
  | leave : Moves .keep .column .block
  /-- Only the name of a table is stashed. -/
  | stash {identifier : String} (h : isTableName identifier = true) :
    Moves (.stash identifier) .outside .named
  /-- A statement ends behind the name of its table. -/
  | discard : Moves .discard .named .outside
  /-- A bracket behind the name of a table opens its block. -/
  | openTable : Moves .openTable .named .block
  /-- A semicolon behind a block closes it. -/
  | closeTable : Moves .closeTable .block .outside
  /-- A name at the head of an entry. -/
  | addColumn {identifier : String} (h : isColumnName identifier = true) :
    Moves (.addColumn identifier) .block .column
  /-- A word of a column definition, which leaves the name of the column alone. -/
  | change {f : Column → Column} (h : ∀ column, (f column).name = column.name) :
    Moves (.change f) .column .column
  /-- A type at the head of an entry, behind a word that may begin a constraint. -/
  | addTyped {identifier : String} {f : Column → Column} (h : isColumnName identifier = true)
    (hf : ∀ column, (f column).name = column.name) :
    Moves (.addTyped identifier f) .block .column
  /-- A column of a key, where the key stands. -/
  | markKey (scope : KeyScope) (identifier : String) :
    Moves (.markKey scope identifier) scope.place scope.place

end SqlCatalog
