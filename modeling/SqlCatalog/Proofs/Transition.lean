import SqlCatalog.Proofs.Place

/-!
# Transitions

The rules of `SqlCatalog.step` say what follows a state. This file reads them the other way
round: `SqlCatalog.Transition` lists the edits that a token may perform, each with the states
it is performed between and with what the token has to be. Most tokens perform none; of these
there is no more to say than how the state behind them is entered
(`SqlCatalog.State.Follows`).

`SqlCatalog.step_transition` says that every step is in the list: which token is unexpected,
which state follows and which edit is performed are settled by the state and the token, before
any draft is looked at. The table of `SqlCatalog.Edit.Moves` is what the list says of places
(`SqlCatalog.Transition.moves`), and `SqlCatalog.step_ruled` says no more than that.

The list is what proofs about tokens go by. A state in it remembers the words that lead to it,
so what a run has read can be found in its state: the words `primary key` in front of the
columns of a key, the word `table` or `exists` in front of the name of a table.
-/

namespace SqlCatalog

open Identifier Step

/-! ### States and how they are entered -/

/-- Whether words of a type may come in a state, as some of its modifiers do. -/
def State.isTyping : State → Bool
  | .columnType | .typeModifier | .characterType | .doubleType | .clockType | .timeZone
  | .timeZoneName => true
  | _ => false

/-- Whether an entry of a block may end in a state, by a comma or by the bracket that closes
the block. -/
def State.endsEntry : State → Bool
  | .columnType | .clockType | .columnOption | .columnDefault 0 | .excludeEntry
  | .tableConstraint 0 | .keyEnd .block => true
  | _ => false

/-- **How a state is entered by a token that leaves the draft alone**: from which state, and
by which token. Some states are entered by other tokens only. -/
def State.Follows : State → State → String → Prop
  | .idle, state, _ => state.place = .outside
  | .create, state, token => state = .idle ∧ token = "create" ∨ state = .create ∧ token = "unlogged"
  | .alter, state, token => state = .idle ∧ token = "alter"
  | .table .create, state, token =>
    state = .create ∧ token = "table" ∨ state = .tableIfNot ∧ token = "exists"
  | .table .alter, state, token => state = .alter ∧ token = "table"
  | .tableIf, state, token => state = .table .create ∧ token = "if"
  | .tableIfNot, state, token => state = .tableIf ∧ token = "not"
  | .only, state, token => state = .table .alter ∧ token = "only"
  | .add, state, token => state = .tableName .alter ∧ token = "add"
  | .constraint .statement, state, token => state = .add ∧ token = "constraint"
  | .constraint .block, state, token => state = .blockEntry ∧ token = "constraint"
  | .keyName scope, state, token => state = .constraint scope ∧ isKeyName token = true
  | .primary .statement, state, token => state = .keyName .statement ∧ token = "primary"
  | .primary .block, state, token =>
    (state = .keyName .block ∨ state = .blockEntry) ∧ token = "primary"
  | .key scope, state, token => state = .primary scope ∧ token = "key"
  | .keyColumns scope, state, token =>
    state = .key scope ∧ token = "(" ∨ state = .keyColumns scope ∧ token = ","
  | .keyEnd scope, state, token => state = .keyColumns scope ∧ token = ")"
  | .blockEntry, state, token => state.endsEntry = true ∧ token = ","
  | .blockEnd, state, token => (state.endsEntry = true ∨ state = .blockEntry) ∧ token = ")"
  | .excludeEntry, state, token => state = .blockEntry ∧ token = "exclude"
  | .tableConstraint depth, state, token =>
    -- any token but a key name is taken for the name of a constraint, a semicolon too
    state = .constraint .block ∧ depth = 0 ∧ isKeyName token = false ∨
      (state = .blockEntry ∨ state = .excludeEntry ∨ ∃ d, state = .tableConstraint d) ∧
        token ≠ ";"
  | .columnType, state, token => state = .collation ∧ token ≠ ";"
  | .collation, state, token => state.IsTyped ∧ token = "collate"
  | .columnPrimary, state, token => (state.IsTyped ∨ state = .columnOption) ∧ token = "primary"
  | .columnNot, state, token => (state.IsTyped ∨ state = .columnDefault 0) ∧ token = "not"
  | .columnOption, state, token => state.IsTyped ∧ token = "null"
  | .columnDefault _, state, token => (∃ d, state = .columnDefault d) ∧ token ≠ ";"
  | .tableName _, _, _ | .columnName, _, _ | .typeModifier, _, _ | .characterType, _, _
  | .doubleType, _, _ | .clockType, _, _ | .timeZone, _, _ | .timeZoneName, _, _ => False

/-! ### Transitions -/

/-- The column with a type as its first token gives it. -/
def ColumnType.assign (type : ColumnType) (column : Column) : Column :=
  { column with dataType := type.name, typeOptions := type.modifier }

/-- **The transitions**: the states and the tokens of the edits. -/
inductive Transition (options : Options) (token : String) : State → Edit → State → Prop where
  /-- Most tokens leave the draft alone. -/
  | keep {state next : State} (h : next.Follows state token) :
    Transition options token state .keep next
  /-- The name of a table behind `create table`. -/
  | declare (h : isTableName token = true) (hw : token ∉ ["if", "only"]) :
    Transition options token (.table .create) (.stash token) (.tableName .create)
  /-- The name of a table behind `alter table`. -/
  | refer {state : State} (hs : state = .table .alter ∨ state = .only)
    (h : isTableName token = true) :
    Transition options token state (.stash token) (.tableName .alter)
  /-- The end of a statement that named a table, or the place where it begins to be skipped. -/
  | discard {state : State} (hs : state.place = .named) :
    Transition options token state .discard .idle
  /-- The bracket behind the name of a table that is declared. -/
  | openTable (h : token = "(") :
    Transition options token (.tableName .create) .openTable .blockEntry
  /-- The semicolon behind a column block. -/
  | closeTable (h : token = ";") : Transition options token .blockEnd .closeTable .idle
  /-- The name of a column. -/
  | addColumn (h : isColumnName token = true) :
    Transition options token .blockEntry (.addColumn token) .columnName
  /-- The type of a column. -/
  | assign {type : ColumnType} (h : ColumnType.ofToken? options token = some type) :
    Transition options token .columnName (.change type.assign) type.family.state
  /-- The type of a column whose name is `exclude`. -/
  | addTyped {type : ColumnType} (h : ColumnType.ofToken? options token = some type) :
    Transition options token .excludeEntry (.addTyped "exclude" type.assign) type.family.state
  /-- More of a type, for the type options. -/
  | typeText {state next : State} {text : String → String} (hs : state.isTyping = true)
    (hn : next.isTyping = true) (h : token ≠ ";") :
    Transition options token state
      (.change fun column => { column with typeOptions := text column.typeOptions }) next
  /-- The word `default` behind a column. -/
  | hasDefault {state : State} (hs : state.IsTyped ∨ state = .columnOption)
    (h : token = "default") :
    Transition options token state (.change fun column => { column with hasDefault := true })
      (.columnDefault 0)
  /-- The words `not null` behind a column. -/
  | notNull (h : token = "null") :
    Transition options token .columnNot (.change fun column => { column with isNotNull := true })
      .columnOption
  /-- The words `primary key` behind a column. -/
  | asKey (h : token = "key") :
    Transition options token .columnPrimary (.change Column.asKey) .columnOption
  /-- The one column of a key. -/
  | keyColumn {scope : KeyScope} {column : String} (h : keyColumn? token = some column) :
    Transition options token (.key scope) (.markKey scope column) (.keyEnd scope)
  /-- A column in the list of a key. -/
  | listedColumn {scope : KeyScope} (h : isColumnName token = true) :
    Transition options token (.keyColumns scope) (.markKey scope token) (.keyColumns scope)

/-- **A rule goes by the list**: the token is unexpected whatever the draft, or there are a
state and an edit that every draft gets. -/
def Ruled (options : Options) (token : String) (state : State) (rule : Draft → Step) : Prop :=
  (∀ draft, rule draft = unexpected token draft) ∨
    ∃ (next : State) (edit : Edit), Transition options token state edit next ∧
      ∀ draft, rule draft = edit.perform next token draft

section Rules

variable {options : Options} {state next : State} {token : String}

theorem Ruled.unexpected : Ruled options token state (unexpected token) :=
  Or.inl fun _ => rfl

theorem Ruled.perform {edit : Edit} (h : Transition options token state edit next) :
    Ruled options token state fun draft => edit.perform next token draft :=
  Or.inr ⟨next, edit, h, fun _ => rfl⟩

/-- A token that leaves the draft alone. -/
theorem Ruled.goto (h : next.Follows state token) : Ruled options token state (goto next) :=
  .perform (.keep h)

/-- A rule that tells tokens apart. -/
theorem Ruled.ite {p : Prop} [Decidable p] {rule rule' : Draft → Step}
    (h : p → Ruled options token state rule) (h' : ¬p → Ruled options token state rule') :
    Ruled options token state fun draft => if p then rule draft else rule' draft := by
  by_cases hp : p
  · simpa only [if_pos hp] using h hp
  · simpa only [if_neg hp] using h' hp

/-- A token that has to be a keyword. -/
theorem Ruled.readWord {word : String} (h : token = word → next.Follows state token) :
    Ruled options token state (readWord word next token) :=
  .ite (fun hw => .goto (h hw)) fun _ => .unexpected

end Rules

variable (options : Options) (token : String)

/-! ### Rules around tables -/

theorem ruled_readIdle : Ruled options token .idle (readIdle token) :=
  .ite (fun h => .goto (Or.inl ⟨rfl, h⟩)) fun _ => .ite (fun h => .goto ⟨rfl, h⟩) fun _ =>
    .goto rfl

theorem ruled_readCreate : Ruled options token .create (readCreate token) :=
  .ite (fun h => .goto (Or.inl ⟨rfl, h⟩)) fun _ => .ite (fun h => .goto (Or.inr ⟨rfl, h⟩))
    fun _ => .goto rfl

theorem ruled_readAlter : Ruled options token .alter (readAlter token) :=
  .ite (fun h => .goto ⟨rfl, h⟩) fun _ => .goto rfl

/-- The name of a table that is altered. -/
theorem ruled_readTableIdentifier {state : State} (hs : state = .table .alter ∨ state = .only) :
    Ruled options token state (readTableIdentifier .alter token) :=
  .ite (fun h => .perform (.refer hs h)) fun _ => .unexpected

theorem ruled_readTable (verb : TableVerb) :
    Ruled options token (.table verb) (readTable verb token) := by
  cases verb with
  | create =>
    refine .ite (fun h => .goto ⟨rfl, h⟩) fun hif => .ite (fun _ => .unexpected) fun honly => ?_
    exact .ite (fun h => .perform (.declare h (by simp [hif, honly]))) fun _ => .unexpected
  | alter =>
    exact .ite (fun _ => .goto rfl) fun _ => .ite (fun h => .goto ⟨rfl, h⟩) fun _ =>
      ruled_readTableIdentifier options token (Or.inl rfl)

theorem ruled_readTableName (verb : TableVerb) :
    Ruled options token (.tableName verb) (readTableName verb token) := by
  cases verb with
  | create => exact .ite (fun h => .perform (.openTable h)) fun _ => .unexpected
  | alter =>
    exact .ite (fun h => .goto ⟨rfl, h⟩) fun _ => .ite (fun _ => .unexpected) fun _ =>
      .perform (.discard rfl)

theorem ruled_readAdd : Ruled options token .add (readAdd token) :=
  .ite (fun h => .goto ⟨rfl, h⟩) fun _ => .perform (.discard rfl)

/-! ### Rules in key constraints -/

theorem ruled_readConstraint (scope : KeyScope) :
    Ruled options token (.constraint scope) (readConstraint scope token) := by
  refine .ite (fun h => .goto ⟨rfl, h⟩) fun h => ?_
  cases scope with
  | statement => exact .perform (.discard rfl)
  | block => exact .goto (Or.inl ⟨rfl, rfl, Bool.eq_false_iff.mpr h⟩)

theorem ruled_readKey (scope : KeyScope) :
    Ruled options token (.key scope) (readKey scope token) := by
  refine .ite (fun h => .goto (Or.inl ⟨rfl, h⟩)) fun _ => ?_
  cases h : keyColumn? token with
  | some column => exact .perform (.keyColumn h)
  | none => exact .unexpected

theorem ruled_readKeyColumns (scope : KeyScope) :
    Ruled options token (.keyColumns scope) (readKeyColumns scope token) :=
  .ite (fun h => .goto (Or.inr ⟨rfl, h⟩)) fun _ => .ite (fun h => .goto ⟨rfl, h⟩) fun _ =>
    .ite (fun h => .perform (.listedColumn h)) fun _ => .unexpected

theorem ruled_readKeyEnd (scope : KeyScope) :
    Ruled options token (.keyEnd scope) (readKeyEnd scope token) := by
  cases scope with
  | statement => exact .ite (fun _ => .perform (.discard rfl)) fun _ => .unexpected
  | block =>
    exact .ite (fun h => .goto ⟨rfl, h⟩) fun _ => .ite (fun h => .goto ⟨Or.inl rfl, h⟩) fun _ =>
      .unexpected

/-! ### Rules in column definitions -/

theorem ruled_readType : Ruled options token .columnName (readType options token) := by
  delta readType
  cases h : ColumnType.ofToken? options token with
  | none => exact .unexpected
  | some type => exact .perform (.assign h)

section ColumnRules

variable {options : Options} {token : String} {state next : State}

/-- A token that goes to the type options. -/
theorem ruled_typeText (text : String → String) (hs : state.isTyping = true)
    (hn : next.isTyping = true) (h : token ≠ ";") :
    Ruled options token state fun draft =>
      gotoWith next (draft.modifyColumn? fun column =>
        { column with typeOptions := text column.typeOptions }) token draft :=
  .perform (.typeText hs hn h)

/-- A word of a type. -/
theorem ruled_readOptionWord (hs : state.isTyping = true) (hn : next.isTyping = true)
    (h : token ≠ ";") : Ruled options token state (readOptionWord next token) :=
  ruled_typeText (fun text => (if text = "" then "" else text ++ " ") ++ token) hs hn h

/-- A keyword of a type. -/
theorem ruled_readTypeWord {word : String} (hs : state.isTyping = true)
    (hn : next.isTyping = true) (hw : word ≠ ";") :
    Ruled options token state (readTypeWord word next token) :=
  .ite (fun h => ruled_readOptionWord hs hn (h ▸ hw)) fun _ => .unexpected

/-- The word `default`. -/
theorem ruled_readDefault (hs : state.IsTyped ∨ state = .columnOption) (h : token = "default") :
    Ruled options token state (readDefault token) :=
  .perform (.hasDefault hs h)

theorem ruled_readColumnTail (hs : state.IsTyped) :
    Ruled options token state (readColumnTail token) := by
  have hends : state.endsEntry = true := by rcases hs with rfl | rfl <;> rfl
  have htyping : state.isTyping = true := by rcases hs with rfl | rfl <;> rfl
  refine .ite (fun h => .goto ⟨hends, h⟩) fun _ => .ite (fun h => .goto ⟨Or.inl hends, h⟩) fun _ =>
    .ite (fun h => .goto ⟨Or.inl hs, h⟩) fun _ => .ite (fun h => .goto ⟨hs, h⟩) fun _ =>
    .ite (fun h => ruled_readDefault (Or.inl hs) h) fun _ =>
    .ite (fun h => .goto ⟨Or.inl hs, h⟩) fun _ => .ite (fun h => .goto ⟨hs, h⟩) fun _ =>
    .ite (fun h => ruled_typeText (· ++ token) htyping rfl (h ▸ by decide)) fun _ =>
    .ite (fun h => ruled_typeText (· ++ token) htyping rfl ?_) fun _ => .unexpected
  rintro rfl
  exact absurd h (by decide)

end ColumnRules

theorem ruled_readModifier : Ruled options token .typeModifier (readModifier token) :=
  .ite (fun _ => .unexpected) fun h => ruled_typeText (· ++ token) rfl (by split <;> rfl) h

theorem ruled_readCharacter : Ruled options token .characterType (readCharacter token) := by
  refine .ite (fun h => ruled_readOptionWord rfl rfl ?_) fun _ => .unexpected
  rintro rfl
  exact absurd h (by decide)

theorem ruled_readClock : Ruled options token .clockType (readClock token) := by
  refine .ite (fun h => ruled_readOptionWord rfl rfl ?_) fun _ => ruled_readColumnTail (Or.inr rfl)
  rintro rfl
  exact absurd h (by decide)

theorem ruled_readCollation : Ruled options token .collation (readCollation token) :=
  .ite (fun _ => .unexpected) fun h => .goto ⟨rfl, fun hsemi => h (Or.inr (Or.inr hsemi))⟩

theorem ruled_readColumnPrimary :
    Ruled options token .columnPrimary (readColumnPrimary token) :=
  .ite (fun h => .perform (.asKey h)) fun _ => .unexpected

theorem ruled_readColumnNot : Ruled options token .columnNot (readColumnNot token) :=
  .ite (fun h => .perform (.notNull h)) fun _ => .unexpected

theorem ruled_readColumnOption : Ruled options token .columnOption (readColumnOption token) :=
  .ite (fun h => .goto ⟨rfl, h⟩) fun _ => .ite (fun h => .goto ⟨Or.inl rfl, h⟩) fun _ =>
  .ite (fun h => ruled_readDefault (Or.inr rfl) h) fun _ =>
  .ite (fun h => .goto ⟨Or.inr rfl, h⟩) fun _ => .unexpected

theorem ruled_readDefaultToken (depth : Nat) :
    Ruled options token (.columnDefault depth) (readDefaultToken depth token) :=
  .ite (fun h => .goto ⟨by rw [h.2]; rfl, h.1⟩) fun _ =>
  .ite (fun h => .goto ⟨Or.inl (by rw [h.2]; rfl), h.1⟩) fun _ =>
  .ite (fun h => .goto ⟨Or.inr (by rw [h.2]), h.1⟩) fun _ => .ite (fun _ => .unexpected) fun h =>
  .ite (fun _ => .goto ⟨⟨_, rfl⟩, h⟩) fun _ => .ite (fun _ => .goto ⟨⟨_, rfl⟩, h⟩) fun _ =>
    .goto ⟨⟨_, rfl⟩, h⟩

/-! ### Rules between entries -/

theorem ruled_readEntry : Ruled options token .blockEntry (readEntry token) := by
  refine .ite (fun h => .goto ⟨Or.inr rfl, h⟩) fun _ => .ite (fun h => .goto ⟨rfl, h⟩) fun _ =>
    .ite (fun h => .goto ⟨Or.inr rfl, h⟩) fun _ =>
    .ite (fun h => .goto (Or.inr ⟨Or.inl rfl, ?_⟩)) fun _ => .ite (fun h => .goto ⟨rfl, h⟩) fun _ =>
    .ite (fun h => .perform (.addColumn h)) fun _ => .unexpected
  rcases h with rfl | rfl | rfl <;> decide

/-- A token of a table constraint, from a state that has read the beginning of one. -/
theorem ruled_readTableConstraint {state : State} {depth : Nat}
    (hs : state = .excludeEntry ∧ depth = 0 ∨ state = .tableConstraint depth) :
    Ruled options token state (readTableConstraint depth token) := by
  have hends : depth = 0 → state.endsEntry = true := by
    rintro rfl
    rcases hs with ⟨rfl, -⟩ | rfl <;> rfl
  have hskips : state = .blockEntry ∨ state = .excludeEntry ∨ ∃ d, state = .tableConstraint d :=
    Or.inr (hs.imp And.left fun h => ⟨_, h⟩)
  exact .ite (fun h => .goto ⟨hends h.2, h.1⟩) fun _ =>
    .ite (fun h => .goto ⟨Or.inl (hends h.2), h.1⟩) fun _ => .ite (fun _ => .unexpected) fun h =>
    .ite (fun _ => .goto (Or.inr ⟨hskips, h⟩)) fun _ =>
    .ite (fun _ => .goto (Or.inr ⟨hskips, h⟩)) fun _ => .goto (Or.inr ⟨hskips, h⟩)

theorem ruled_readBlockEnd : Ruled options token .blockEnd (readBlockEnd token) :=
  .ite (fun h => .perform (.closeTable h)) fun _ => .unexpected

/-- The column is there once it is added, so the type behind `exclude` finds it. -/
theorem ruled_readExclude : Ruled options token .excludeEntry (readExclude options token) := by
  refine .ite (fun htype => ?_) fun _ =>
    ruled_readTableConstraint options token (Or.inl ⟨rfl, rfl⟩)
  obtain ⟨type, htype⟩ := Option.isSome_iff_exists.mp htype
  refine Or.inr ⟨type.family.state, .addTyped "exclude" type.assign, .addTyped htype,
    fun draft => ?_⟩
  delta readType
  simp only [htype, Edit.perform]
  cases hpush : draft.pushColumn? "exclude" with
  | none => rfl
  | some pushed =>
    obtain ⟨changed, hchange, -⟩ :=
      Draft.modifyColumn?_of_column? (Draft.column?_of_pushColumn? hpush) type.assign
    rw [Option.bind_some, hchange]
    exact congrArg (gotoWith type.family.state · token pushed) hchange

/-! ### All rules -/

/-- **Every step is a transition**: a token is unexpected in a state whatever the draft, or one
state and one edit follow for all drafts. -/
theorem step_transition (state : State) :
    (∀ draft, step options state draft token = unexpected token draft) ∨
      ∃ (next : State) (edit : Edit), Transition options token state edit next ∧
        ∀ draft, step options state draft token = edit.perform next token draft := by
  change Ruled options token state fun draft => step options state draft token
  cases state with
  | idle => exact ruled_readIdle options token
  | create => exact ruled_readCreate options token
  | alter => exact ruled_readAlter options token
  | table verb => exact ruled_readTable options token verb
  | tableIf => exact .readWord fun h => ⟨rfl, h⟩
  | tableIfNot => exact .readWord fun h => Or.inr ⟨rfl, h⟩
  | only => exact ruled_readTableIdentifier options token (Or.inr rfl)
  | tableName verb => exact ruled_readTableName options token verb
  | add => exact ruled_readAdd options token
  | constraint scope => exact ruled_readConstraint options token scope
  | keyName scope =>
    cases scope with
    | statement => exact .readWord fun h => ⟨rfl, h⟩
    | block => exact .readWord fun h => ⟨Or.inl rfl, h⟩
  | primary scope => exact .readWord fun h => ⟨rfl, h⟩
  | key scope => exact ruled_readKey options token scope
  | keyColumns scope => exact ruled_readKeyColumns options token scope
  | keyEnd scope => exact ruled_readKeyEnd options token scope
  | blockEntry => exact ruled_readEntry options token
  | columnName => exact ruled_readType options token
  | columnType => exact ruled_readColumnTail (Or.inl rfl)
  | typeModifier => exact ruled_readModifier options token
  | characterType => exact ruled_readCharacter options token
  | doubleType => exact ruled_readTypeWord rfl rfl (by decide)
  | clockType => exact ruled_readClock options token
  | timeZone => exact ruled_readTypeWord rfl rfl (by decide)
  | timeZoneName => exact ruled_readTypeWord rfl rfl (by decide)
  | collation => exact ruled_readCollation options token
  | columnPrimary => exact ruled_readColumnPrimary options token
  | columnNot => exact ruled_readColumnNot options token
  | columnOption => exact ruled_readColumnOption options token
  | columnDefault depth => exact ruled_readDefaultToken options token depth
  | excludeEntry => exact ruled_readExclude options token
  | tableConstraint depth => exact ruled_readTableConstraint options token (Or.inr rfl)
  | blockEnd => exact ruled_readBlockEnd options token

/-! ### Accepted tokens -/

/-- An edit that is performed leads to its state. -/
theorem Edit.eq_of_perform {token : String} {draft : Draft} {next last : State} {edit : Edit}
    (h : (edit.perform next token draft).outcome = .ok last) : last = next := by
  cases edit with
  | keep | stash | discard | closeTable => exact (Except.ok.inj h).symm
  | openTable | addColumn | change | addTyped =>
    simp only [perform, gotoWith] at h
    split at h <;> cases h
    rfl
  | markKey =>
    simp only [perform, readKeyColumn] at h
    split at h <;> cases h
    rfl

/-- **A token that is accepted makes a transition**, and leaves behind what the edit does. -/
theorem exists_transition {options : Options} {token : String} {draft : Draft}
    {state next : State} (h : (step options state draft token).outcome = .ok next) :
    ∃ edit, Transition options token state edit next ∧
      step options state draft token = edit.perform next token draft := by
  rcases step_transition options token state with hu | ⟨s, edit, ht, hp⟩
  · rw [hu draft] at h
    cases h
  · rw [hp draft] at h
    obtain rfl := Edit.eq_of_perform h
    exact ⟨edit, ht, hp draft⟩

theorem TypeFamily.isTyping_state (family : TypeFamily) : family.state.isTyping = true := by
  cases family <;> rfl

/-- A state in which words of a type may come is none in which they may not. -/
theorem State.ne_of_isTyping {state other : State} (h : state.isTyping = true)
    (ho : other.isTyping = false) : state ≠ other := by
  rintro rfl
  rw [h] at ho
  cases ho

/-- **The name of a table that is declared** stands behind `create table`, and waits. -/
theorem Transition.declares {options : Options} {token : String} {state next : State}
    {edit : Edit} (h : Transition options token state edit next) (hn : next = .tableName .create) :
    state = .table .create ∧ edit = .stash token ∧ isTableName token = true ∧
      token ∉ ["if", "only"] := by
  cases h with
  | declare h hw => exact ⟨rfl, rfl, h, hw⟩
  | keep h =>
    subst hn
    exact h.elim
  | @assign type | @addTyped type =>
    exact absurd hn (State.ne_of_isTyping type.family.isTyping_state rfl)
  | typeText _ htyping => exact absurd hn (State.ne_of_isTyping htyping rfl)
  | _ => cases hn

/-! ### Places -/

section Places

variable {options : Options} {token : String} {state next : State} {edit : Edit}

/-- An entry ends between entries or in a column definition. -/
theorem State.endsEntry_place (h : state.endsEntry = true) :
    state.place = .block ∨ state.place = .column := by
  cases state with
  | columnType | clockType | columnOption | columnDefault => exact Or.inr rfl
  | excludeEntry | tableConstraint => exact Or.inl rfl
  | keyEnd scope =>
    cases scope with
    | block => exact Or.inl rfl
    | statement => cases h
  | _ => cases h

/-- A token that ends an entry leads between entries. -/
theorem State.moves_of_endsEntry (h : state.endsEntry = true) :
    Edit.keep.Moves state.place .block := by
  rcases State.endsEntry_place h with hp | hp <;> rw [hp]
  · exact .stay _
  · exact .leave

theorem State.IsTyped.place (h : state.IsTyped) : state.place = .column := by
  rcases h with rfl | rfl <;> rfl

/-- **A token that leaves the draft alone** leaves the place alone too, unless it ends a column
definition. -/
theorem State.Follows.moves (h : next.Follows state token) :
    Edit.keep.Moves state.place next.place := by
  have hstay : ∀ {p q : Place}, p = q → Edit.keep.Moves p q := fun hp => hp ▸ .stay _
  cases next with
  | idle => exact hstay h
  | create => rcases h with ⟨rfl, -⟩ | ⟨rfl, -⟩ <;> exact .stay _
  | table verb =>
    cases verb with
    | create => rcases h with ⟨rfl, -⟩ | ⟨rfl, -⟩ <;> exact .stay _
    | alter => obtain ⟨rfl, -⟩ := h; exact .stay _
  | constraint scope => cases scope <;> obtain ⟨rfl, -⟩ := h <;> exact .stay _
  | primary scope =>
    cases scope with
    | statement => obtain ⟨rfl, -⟩ := h; exact .stay _
    | block => obtain ⟨rfl | rfl, -⟩ := h <;> exact .stay _
  | keyColumns scope => rcases h with ⟨rfl, -⟩ | ⟨rfl, -⟩ <;> exact .stay _
  | blockEntry => exact State.moves_of_endsEntry h.1
  | blockEnd =>
    rcases h.1 with hends | rfl
    · exact State.moves_of_endsEntry hends
    · exact .stay _
  | tableConstraint depth =>
    rcases h with ⟨rfl, -⟩ | ⟨rfl | rfl | ⟨d, rfl⟩, -⟩ <;> exact .stay _
  | collation | columnOption => exact hstay h.1.place
  | columnPrimary | columnNot => exact hstay (h.1.elim State.IsTyped.place fun hs => hs ▸ rfl)
  | columnDefault depth => obtain ⟨⟨d, rfl⟩, -⟩ := h; exact .stay _
  | alter | tableIf | tableIfNot | only | add | keyName | key | keyEnd | excludeEntry
  | columnType => obtain ⟨rfl, -⟩ := h; exact .stay _
  | tableName | columnName | typeModifier | characterType | doubleType | clockType | timeZone
  | timeZoneName => exact h.elim

theorem State.isTyping_place (h : state.isTyping = true) : state.place = .column := by
  cases state with
  | columnType | typeModifier | characterType | doubleType | clockType | timeZone
  | timeZoneName => rfl
  | _ => cases h

/-- **What the list says of places.** -/
theorem Transition.moves (h : Transition options token state edit next) :
    edit.Moves state.place next.place := by
  cases h with
  | keep h => exact h.moves
  | declare h => exact .stash h
  | refer hs h =>
    rcases hs with rfl | rfl <;> exact .stash h
  | discard hs => rw [hs]; exact .discard
  | openTable => exact .openTable
  | closeTable => exact .closeTable
  | addColumn h => exact .addColumn h
  | @assign type =>
    rw [State.isTyping_place type.family.isTyping_state]
    exact .change fun _ => rfl
  | @addTyped type =>
    rw [State.isTyping_place type.family.isTyping_state]
    exact .addTyped (by decide) fun _ => rfl
  | typeText hs hn =>
    rw [State.isTyping_place hs, State.isTyping_place hn]
    exact .change fun _ => rfl
  | hasDefault hs =>
    rw [hs.elim State.IsTyped.place fun hs => hs ▸ rfl]
    exact .change fun _ => rfl
  | notNull | asKey => exact .change fun _ => rfl
  | keyColumn | listedColumn => exact .markKey _ _

end Places

/-- **Every step goes by the table of edits**: a token is unexpected in a state whatever the
draft, or one state and one edit follow for all drafts. -/
theorem step_ruled (options : Options) (state : State) :
    (∀ draft, step options state draft token = unexpected token draft) ∨
      ∃ (next : State) (edit : Edit), edit.Moves state.place next.place ∧
        ∀ draft, step options state draft token = edit.perform next token draft :=
  (step_transition options token state).imp_right fun ⟨next, edit, h, hp⟩ =>
    ⟨next, edit, h.moves, hp⟩

end SqlCatalog
