import SqlCatalog.Proofs.Column.All
import SqlCatalog.Proofs.FieldType
import SqlCatalog.Proofs.Parse
import SqlCatalog.Proofs.Selection

/-!
# Key columns are never null

Three transitions say something about keys and null: the words `primary key` and `not null`
behind a column, and a key constraint, which may come long after the column was read. Each sets
flags and none clears one, and the word `null` behind a column does nothing at all. So a key
column is not null, and it is enough to look at the transitions for it
(`SqlCatalog.Transition.keeps_keyIsNotNull`).

The statement needs no run. It holds in every session (`SqlCatalog.Session.after`), in which
tokens are rejected and the reader is put into any state in between, and from there it goes
through the selection of tables to the field types (`SqlCatalog.keysAreNotNull`).
-/

namespace SqlCatalog

open Text

/-! ### Sessions -/

namespace Session

/-- **What a session is given**: a token to read, or a state to be put into. -/
inductive Input where
  /-- A token. -/
  | token (token : String)
  /-- A state. -/
  | state (state : State)

/-- **The session after some inputs.** A token that is rejected leaves the state as it is, and
the session goes on. -/
def after (options : Options) (session : Session) (inputs : List Input) : Session :=
  inputs.foldl (fun session input =>
    match input with
    | .token token => (session.feed options token).1
    | .state state => session.jump state) session

variable {options : Options} {session : Session}

/-- What a token leaves behind in a session is what its step leaves behind. -/
theorem draft_feed (token : String) :
    (session.feed options token).1.draft =
      (step options session.state session.draft token).draft := by
  rw [feed]
  split <;> rfl

/-- **What no transition takes from a column** no session takes from it. -/
theorem after_all {P : Column → Prop}
    (hkeeps : ∀ {token state next edit}, Transition options token state edit next → edit.Keeps P)
    (h : session.draft.All P) (inputs : List Input) :
    (session.after options inputs).draft.All P := by
  induction inputs generalizing session with
  | nil => exact h
  | cons input inputs ih =>
    cases input with
    | token token =>
      refine ih ?_
      rw [draft_feed]
      exact step_all hkeeps session.state h
    | state state => exact ih h

end Session

/-! ### Keys -/

/-- **A column is not null if it is part of a key.** -/
def Column.KeyIsNotNull (column : Column) : Prop :=
  column.isPrimaryKey = true → column.isNotNull = true

variable {options : Options} {state next : State} {edit : Edit} {token : String}

/-- **No transition makes a key column one that may be null.** -/
theorem Transition.keeps_keyIsNotNull (h : Transition options token state edit next) :
    edit.Keeps Column.KeyIsNotNull := by
  have hnew : ∀ identifier, (Column.ofIdentifier identifier).KeyIsNotNull :=
    fun _ hkey => by cases hkey
  have hkey : ∀ column : Column, column.asKey.KeyIsNotNull := fun _ _ => rfl
  cases h with
  | keep | declare | refer | discard | openTable | closeTable => trivial
  | addColumn => exact hnew token
  | addTyped => exact ⟨hnew "exclude", fun _ h => h⟩
  | assign | typeText | hasDefault => exact fun _ h => h
  | notNull => exact fun _ _ _ => rfl
  | asKey | keyColumn | listedColumn => exact fun column _ => hkey column

/-- **Key columns are never null.** In every session, whatever tokens are rejected in it and
whatever states it is put into, a column that belongs to a key is not null; and in the catalog
that a dump is read to, the field type of such a column is no option. -/
theorem keysAreNotNull (options : Options) :
    (∀ inputs, ∀ table ∈ (Session.after options {} inputs).draft.tables,
      ∀ column ∈ table.columns, column.isPrimaryKey = true → column.isNotNull = true) ∧
    ∀ dump catalog, (parse options dump).result = .ok catalog → ∀ table ∈ catalog.tables,
      ∀ column ∈ table.columns, column.isPrimaryKey = true →
        ∀ field, column.fieldType? = some field → ¬"Option<".toList <+: field.toList := by
  refine ⟨fun inputs => ?_, fun dump catalog h table ht column hc hkey field hf => ?_⟩
  · exact Session.after_all Transition.keeps_keyIsNotNull Draft.all_empty inputs
  · obtain ⟨draft, hl, rfl⟩ := exists_leads_of_result h
    have hdraft := hl.all Transition.keeps_keyIsNotNull Draft.all_empty
    have hcolumn := hdraft table (mem_of_mem_finalize ht) column hc
    exact Column.not_option_of_isNotNull (hcolumn hkey) hf

/-- A column that is called null in front of its key and behind it, where the word is rejected
and the session goes on in another state; and the same column in a dump. -/
theorem keysAreNotNull_of_null :
    let tokens := ["create", "table", "t", "(", "id", "int", "null", "primary", "key", "null"]
    let inputs := tokens.map Session.Input.token ++ [.state .columnType, .token "null"]
    let dump := bytesOf "CREATE TABLE t (id int NULL PRIMARY KEY);".toList
    (∃ table ∈ (Session.after {} {} inputs).draft.tables, ∃ column ∈ table.columns,
      column.isPrimaryKey = true ∧ column.isNotNull = true) ∧
    ∃ catalog, (parse {} dump).result = .ok catalog ∧
      ∃ table ∈ catalog.tables, ∃ column ∈ table.columns, column.isPrimaryKey = true ∧
        column.fieldType? = some "i32" ∧ ¬"Option<".toList <+: "i32".toList := by
  intro tokens inputs dump
  have hdump : (parse {} dump).result = .ok _ :=
    (congrArg Outcome.result (parse_of_isCalm (by decide))).trans rfl
  refine ⟨⟨_, List.mem_cons_self, _, List.mem_cons_self, rfl, ?_⟩,
    _, hdump, _, List.mem_cons_self, _, List.mem_cons_self, rfl, rfl, ?_⟩
  · exact (keysAreNotNull {}).1 inputs _ List.mem_cons_self _ List.mem_cons_self rfl
  · exact (keysAreNotNull {}).2 dump _ hdump _ List.mem_cons_self _ List.mem_cons_self rfl _ rfl

end SqlCatalog
