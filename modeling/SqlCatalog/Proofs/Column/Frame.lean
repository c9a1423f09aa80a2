import SqlCatalog.Proofs.Column.All

/-!
# Changes of a column and runs

When a column of a draft is changed before some tokens are read, is it the same to change it
behind them? The reader looks at the names of columns and at nothing else of them, so the tokens
do what they did before as long as the change leaves the names alone and goes past whatever the
tokens do to the column themselves.

Two things may happen to a column that is there. A key constraint may mark it at any time. And
while it is being read it is given a type, and then flags. So there are two kinds of changes and
two kinds of places for them, which `SqlCatalog.Draft.Admits` puts together:

| the change goes past | the column |
|---|---|
| keys (`SqlCatalog.Column.PassesKeys`) | is not being read |
| flags as well (`SqlCatalog.Column.PassesFlags`) | is being read, and its type is read already |

Where a change is admitted it remains so (`SqlCatalog.admits_step`), and a run goes past it
(`SqlCatalog.run_changeAt`): the states, the events and the rejection, if there is one, are the
same, and what is left behind is changed.
-/

namespace SqlCatalog

open Identifier Step Draft

/-- A step with a change of what it leaves behind. -/
def Step.mapDraft (f : Draft → Draft) (s : Step) : Step :=
  { s with draft := f s.draft }

/-! ### Changes and states -/

/-- **A change that goes past keys**: it leaves the name alone, and the column may as well be put
into the key before it. -/
structure Column.PassesKeys (f : Column → Column) : Prop where
  /-- The name is left alone. -/
  name : ∀ column, (f column).name = column.name
  /-- The key does not matter. -/
  asKey : ∀ column : Column, f column.asKey = (f column).asKey

/-- **A change that goes past flags**, those of the key and all others. -/
structure Column.PassesFlags (f : Column → Column) : Prop extends Column.PassesKeys f where
  /-- It does not matter whether null is allowed. -/
  notNull : ∀ column, f { column with isNotNull := true } = { f column with isNotNull := true }
  /-- It does not matter whether there is a default value. -/
  hasDefault : ∀ column, f { column with hasDefault := true } = { f column with hasDefault := true }

/-- Whether the column being read has its type behind it in a state, if one is being read. -/
def State.isPastType : State → Bool
  | .columnName | .columnType | .typeModifier | .characterType | .doubleType | .clockType
  | .timeZone | .timeZoneName | .collation => false
  | _ => true

/-- **A change is admitted** in a place of a draft, in a state. -/
structure Draft.Admits (draft : Draft) (f : Column → Column) (state : State) (i j : Nat) :
    Prop where
  /-- It goes past keys. -/
  passes : Column.PassesKeys f
  /-- A column is there. -/
  there : j < (draft.columnNames i).length
  /-- If it is being read, it has its type behind it, and the change goes past flags. -/
  past : state.place = .column → draft.openTable = some i → draft.openColumn = some j →
    state.isPastType = true ∧ Column.PassesFlags f

variable {options : Options} {state next last : State} {draft draft' : Draft} {token : String}
  {tokens : List String} {edit : Edit} {i j k : Nat} {f g : Column → Column}
  {identifier : String}

/-! ### Operations on a changed draft -/

namespace Draft

/-- A change goes past the opening of a table behind the others. -/
theorem openPending?_changeAt (h : i < draft.tables.length) :
    (draft.changeAt f i j).openPending? =
      draft.openPending?.map fun (opened, identifier) => (opened.changeAt f i j, identifier) := by
  rw [openPending?, openPending?, pending_changeAt, Option.map_map]
  refine congrArg (Option.map · draft.pending) (funext fun identifier => ?_)
  simp only [Function.comp_apply, changeAt, modify_append h, List.length_modify]

/-- The column in a place stands in a table. -/
theorem lt_length_of_columnNames (h : j < (draft.columnNames i).length) :
    i < draft.tables.length := by
  refine Decidable.byContradiction fun hi => ?_
  rw [columnNames, List.getElem?_eq_none (Nat.le_of_not_lt hi)] at h
  exact absurd h (Nat.not_lt_zero j)

/-- **A change goes past a column behind the others.** -/
theorem pushColumn?_changeAt (hname : ∀ column, (f column).name = column.name)
    (h : j < (draft.columnNames i).length) :
    (draft.changeAt f i j).pushColumn? identifier =
      (draft.pushColumn? identifier).map (·.changeAt f i j) := by
  rw [pushColumn?_eq, pushColumn?_eq, openTable_changeAt]
  cases draft.openTable with
  | none => rfl
  | some k =>
    have hpush : i = k → ∀ table ∈ draft.tables[i]?,
        Table.changeAt f j (table.push (Column.ofIdentifier identifier)) =
          (table.changeAt f j).push (Column.ofIdentifier identifier) := by
      intro _ table ht
      rw [columnNames_eq ht, Table.columnNames, List.length_map] at h
      simp only [Table.changeAt, Table.push, modify_append h]
    simp only [Option.bind_some, columnNames_changeAt hname, tables_changeAt, List.length_modify,
      modify_comm hpush]
    split <;> rfl

/-- **A change goes past another one**, of the column being read. -/
theorem modifyColumn?_changeAt (hname : ∀ column, (f column).name = column.name)
    (h : draft.openTable = some i → draft.openColumn = some j → ∀ column,
      f (g column) = g (f column)) :
    (draft.changeAt f i j).modifyColumn? g = (draft.modifyColumn? g).map (·.changeAt f i j) := by
  rw [modifyColumn?_eq_changeAt, modifyColumn?_eq_changeAt, openTable_changeAt,
    openColumn_changeAt]
  cases hopen : draft.openTable with
  | none => rfl
  | some k =>
    cases hcolumn : draft.openColumn with
    | none => rfl
    | some l =>
      have hcomm : i = k → j = l → ∀ column, f (g column) = g (f column) :=
        fun hi hj => h (hopen.trans (congrArg some hi.symm)) (hcolumn.trans (congrArg some hj.symm))
      simp only [Option.bind_some, columnNames_changeAt hname, changeAt_comm hcomm]
      split <;> rfl

/-- The names of the columns up to the one being read. -/
theorem columnNames_onColumn (tables : List Table) (table : Table) (columns : List Column)
    (column : Column) :
    (onColumn tables table columns column).columnNames tables.length =
      columns.map (·.name) ++ [column.name] := by
  simp [onColumn, inBlock, columnNames, Table.columnNames]

/-- The column being read is changed in its place. -/
theorem changeAt_onColumn (tables : List Table) (table : Table) (columns : List Column)
    (column : Column) (f : Column → Column) :
    (onColumn tables table columns column).changeAt f tables.length columns.length =
      onColumn tables table columns (f column) := by
  simp [onColumn, inBlock, changeAt, Table.changeAt, List.modify_eq_set]

end Draft

/-! ### Steps -/

/-- The words of a type are not behind it. -/
theorem State.isPastType_of_isTyping (h : state.isTyping = true) : state.isPastType = false := by
  cases state <;> first | rfl | cases h

/-- Behind the type of a column no more is said of it than flags. -/
theorem Transition.passes (h : Transition options token state (.change g) next)
    (hpast : state.isPastType = true) (hf : Column.PassesFlags f) (column : Column) :
    f (g column) = g (f column) := by
  cases h with
  | assign => cases hpast
  | typeText hs => cases (State.isPastType_of_isTyping hs).symm.trans hpast
  | hasDefault => exact hf.hasDefault column
  | notNull => exact hf.notNull column
  | asKey => exact hf.asKey column

/-- A column is changed while it is being read. -/
theorem Edit.Moves.place_of_change {p q : Place} (h : (Edit.change g).Moves p q) :
    p = .column := by
  cases h
  rfl

/-- The column being read does not get another type once it has one. -/
theorem Transition.isPastType (h : Transition options token state edit next)
    (hpast : state.isPastType = true) (hp : state.place = .column) (hq : next.place = .column) :
    next.isPastType = true := by
  have htyped : state.IsTyped → state.isPastType = false := by rintro (rfl | rfl) <;> rfl
  cases h with
  | @keep _ next h =>
    cases next with
    | columnPrimary | columnNot | columnOption | columnDefault => rfl
    | columnType =>
      obtain ⟨rfl, -⟩ := h
      cases hpast
    | collation => cases (htyped h.1).symm.trans hpast
    | constraint scope | keyName scope | primary scope | key scope | keyColumns scope
    | keyEnd scope => cases scope <;> cases hq
    | columnName | typeModifier | characterType | doubleType | clockType | timeZone
    | timeZoneName => exact h.elim
    | _ => cases hq
  | hasDefault | notNull | asKey => rfl
  | assign => cases hpast
  | typeText hs => cases (State.isPastType_of_isTyping hs).symm.trans hpast
  | addTyped => cases hp
  | addColumn => cases hp
  | @keyColumn scope | @listedColumn scope => cases scope <;> cases hp
  | _ => cases hq

/-- **An admitted change remains admitted.** -/
theorem admits_step (h : draft.Admits f state i j)
    (hok : (step options state draft token).outcome = .ok next) :
    (step options state draft token).draft.Admits f next i j := by
  have hgrowth := growth_step hok
  refine ⟨h.passes, Nat.lt_of_lt_of_le h.there (hgrowth.extends.columnNames i).length_le, ?_⟩
  intro hplace hopen hcolumn
  obtain ⟨edit, htransition, -⟩ := exists_transition hok
  generalize hp : state.place = p at hgrowth
  generalize hq : next.place = q at hgrowth
  cases hgrowth with
  | same hi hc ho =>
    obtain ⟨rfl, hopen', hcolumn'⟩ := ho (hq.symm.trans hplace)
    obtain ⟨hpast, hf⟩ := h.past hp (hopen'.symm.trans hopen) (hcolumn'.symm.trans hcolumn)
    exact ⟨htransition.isPastType hpast hp hplace, hf⟩
  | table => cases hq.symm.trans hplace
  | column hname ho =>
    -- the column being read is a new one
    obtain rfl := Option.some.inj (ho.1.symm.trans hopen)
    obtain rfl := Option.some.inj (ho.2.symm.trans hcolumn)
    exact absurd h.there (Nat.lt_irrefl _)

/-- A step that an operation gives, when the operation goes past a change of the draft. -/
theorem gotoWith_map (f : Draft → Draft) (result : Option Draft) (draft : Draft) :
    gotoWith next (result.map f) token (f draft) =
      (gotoWith next result token draft).mapDraft f := by
  cases result <;> rfl

/-- **An edit goes past a change.** -/
theorem Transition.perform_changeAt (h : Transition options token state edit next)
    (ha : draft.Admits f state i j) :
    edit.perform next token (draft.changeAt f i j) =
      (edit.perform next token draft).mapDraft (·.changeAt f i j) := by
  have hname := ha.passes.name
  cases edit with
  | keep | stash | discard | closeTable => rfl
  | openTable =>
    simp only [Edit.perform, openPending?_changeAt (lt_length_of_columnNames ha.there)]
    cases draft.openPending? <;> rfl
  | addColumn =>
    simp only [Edit.perform, pushColumn?_changeAt hname ha.there]
    exact gotoWith_map ..
  | change g =>
    have hplace := h.moves.place_of_change
    have hpasses : draft.openTable = some i → draft.openColumn = some j →
        ∀ column, f (g column) = g (f column) := fun hopen hcolumn =>
      h.passes (ha.past hplace hopen hcolumn).1 (ha.past hplace hopen hcolumn).2
    simp only [Edit.perform, modifyColumn?_changeAt hname hpasses]
    exact gotoWith_map ..
  | addTyped identifier g =>
    have hboth : ((draft.changeAt f i j).pushColumn? identifier).bind (·.modifyColumn? g) =
        ((draft.pushColumn? identifier).bind (·.modifyColumn? g)).map (·.changeAt f i j) := by
      rw [pushColumn?_changeAt hname ha.there]
      cases hpush : draft.pushColumn? identifier with
      | none => rfl
      | some pushed =>
        rw [Option.map_some, Option.bind_some, Option.bind_some, modifyColumn?_changeAt hname]
        intro hopen hcolumn
        -- the column being read is a new one
        obtain ⟨k, ho, hj, -⟩ := of_pushColumn? hpush
        obtain rfl := Option.some.inj (ho.symm.trans hopen)
        obtain rfl := Option.some.inj (hj.symm.trans hcolumn)
        exact absurd ha.there (Nat.lt_irrefl _)
    simp only [Edit.perform, hboth]
    exact gotoWith_map ..
  | markKey scope identifier =>
    simp only [Edit.perform, readKeyColumn, markKey_changeAt hname ha.passes.asKey]
    cases draft.markKey scope identifier <;> rfl

/-- **A step goes past a change.** -/
theorem step_changeAt (h : draft.Admits f state i j) :
    step options state (draft.changeAt f i j) token =
      (step options state draft token).mapDraft (·.changeAt f i j) := by
  rcases step_transition options token state with hu | ⟨next, edit, htransition, hp⟩
  · rw [hu, hu]
    rfl
  · rw [hp, hp, htransition.perform_changeAt h]

/-! ### Runs -/

/-- **A run goes past a change**: its outcome and its events are the same, and what it leaves
behind is changed. -/
theorem run_changeAt (tokens : List String) (h : draft.Admits f state i j) :
    run options state (draft.changeAt f i j) tokens =
      (run options state draft tokens).mapDraft (·.changeAt f i j) := by
  induction tokens generalizing state draft with
  | nil => rfl
  | cons token tokens ih =>
    rw [run, run, step_changeAt h]
    cases hok : (step options state draft token).outcome with
    | error e => simp only [mapDraft, hok]
    | ok next =>
      have hrest := ih (admits_step h hok)
      simp only [mapDraft, hok] at hrest ⊢
      rw [hrest]

/-- A reading from a changed draft. -/
theorem Leads.changeAt (h : Leads options state draft tokens last draft')
    (ha : draft.Admits f state i j) :
    Leads options state (draft.changeAt f i j) tokens last (draft'.changeAt f i j) := by
  obtain ⟨ho, rfl⟩ := h
  rw [Leads, run_changeAt tokens ha]
  exact ⟨ho, rfl⟩

end SqlCatalog
