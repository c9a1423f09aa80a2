import SqlCatalog.Proofs.Column.All

/-!
# What a token leaves alone

A dump declares one table after another, and a token is about one of them at most: the table
whose column block is open, or the one that a key statement means. The others are as they were
(`SqlCatalog.Draft.Frame`). Of the table that a token is about it changes little
(`SqlCatalog.Draft.TableFrame`): it may add a column behind the others or set a flag, and only
of the column being read it may say what the type is.

| what is said | fields |
|---|---|
| a table keeps its place, its identifier, its name and its schema | `tables`, `Table.Grows` |
| at most one table is new, and it has no columns | `size`, `new` |
| a column keeps its place, its name and the flags that it has | `Table.Grows`, `Column.Grows` |
| a column is added to the open table only | `appended` |
| type and default are settled while the column is being read | `texts` |
| a table that is not open can get a key column and nothing else | `closed` |

No table is opened a second time, so over a whole run a table that is not open gets key columns
and nothing else (`SqlCatalog.tables_only_grow`). None of this depends on how the draft came
about.
-/

namespace SqlCatalog

open Identifier Step

/-! ### Growing columns and tables -/

/-- **A column grows** when it keeps its name and the flags that it has. -/
structure Column.Grows (column column' : Column) : Prop where
  /-- The name. -/
  name : column'.name = column.name
  /-- What is not null stays so. -/
  isNotNull : column.isNotNull = true → column'.isNotNull = true
  /-- What is in the key stays there. -/
  isPrimaryKey : column.isPrimaryKey = true → column'.isPrimaryKey = true
  /-- What has a default keeps it. -/
  hasDefault : column.hasDefault = true → column'.hasDefault = true

theorem Column.Grows.refl (column : Column) : column.Grows column :=
  ⟨rfl, id, id, id⟩

theorem Column.Grows.trans {a b c : Column} (h : a.Grows b) (h' : b.Grows c) : a.Grows c :=
  ⟨h'.name.trans h.name, h'.isNotNull ∘ h.isNotNull, h'.isPrimaryKey ∘ h.isPrimaryKey,
    h'.hasDefault ∘ h.hasDefault⟩

theorem Column.grows_asKey (column : Column) : column.Grows column.asKey :=
  ⟨rfl, fun _ => rfl, fun _ => rfl, id⟩

/-- **A table grows** when it keeps what its identifier says, and its columns grow where they
stand. -/
structure Table.Grows (table table' : Table) : Prop where
  /-- The identifier. -/
  rawIdentifier : table'.rawIdentifier = table.rawIdentifier
  /-- The name. -/
  name : table'.name = table.name
  /-- The schema. -/
  schema : table'.schema = table.schema
  /-- The columns that are there. -/
  columns : ∀ (j : Nat) (column : Column), table.columns[j]? = some column →
    ∃ column', table'.columns[j]? = some column' ∧ column.Grows column'

theorem Table.Grows.refl (table : Table) : table.Grows table :=
  ⟨rfl, rfl, rfl, fun _ column h => ⟨column, h, .refl column⟩⟩

theorem Table.Grows.trans {a b c : Table} (h : a.Grows b) (h' : b.Grows c) : a.Grows c := by
  refine ⟨h'.rawIdentifier.trans h.rawIdentifier, h'.name.trans h.name,
    h'.schema.trans h.schema, fun j column hcolumn => ?_⟩
  obtain ⟨between, hbetween, hgrows⟩ := h.columns j column hcolumn
  obtain ⟨last, hlast, hgrows'⟩ := h'.columns j between hbetween
  exact ⟨last, hlast, hgrows.trans hgrows'⟩

theorem Table.grows_push (column : Column) (table : Table) : table.Grows (table.push column) := by
  refine ⟨rfl, rfl, rfl, fun j c hc => ⟨c, ?_, .refl c⟩⟩
  rw [push, List.getElem?_append_left (List.getElem?_eq_some_iff.mp hc).1, hc]

/-- A column that grows makes its table grow. -/
theorem Table.grows_changeAt {f : Column → Column} (hf : ∀ c : Column, c.Grows (f c)) (j : Nat)
    (table : Table) : table.Grows (table.changeAt f j) := by
  refine ⟨rfl, rfl, rfl, fun k c hc => ?_⟩
  rw [changeAt, List.getElem?_modify, hc]
  refine ⟨_, rfl, ?_⟩
  split
  · exact hf c
  · exact .refl c

/-! ### Frames -/

namespace Draft

/-- **What one token may make of the table in a place.** -/
structure TableFrame (draft : Draft) (i : Nat) (table table' : Table) : Prop where
  /-- Nothing of it is lost. -/
  grows : table.Grows table'
  /-- A column more if it is the open table, and else none. -/
  appended : table'.columns.length = table.columns.length ∨
    draft.openTable = some i ∧ table'.columns.length = table.columns.length + 1
  /-- Another type, other type options or a default for the column being read, and for no
  other. -/
  texts : ∀ (j : Nat) (column column' : Column), table.columns[j]? = some column →
    table'.columns[j]? = some column' →
    ¬(draft.openTable = some i ∧ draft.openColumn = some j) →
    column'.dataType = column.dataType ∧ column'.typeOptions = column.typeOptions ∧
      column'.hasDefault = column.hasDefault
  /-- A key column if it is not the open table but the first one of the identifier that waits,
  and else nothing. -/
  closed : draft.openTable ≠ some i → table' = table ∨
    ∃ identifier j, draft.pending = some identifier ∧ draft.identifiers.idxOf identifier = i ∧
      j < table.columns.length ∧ table' = table.markAt j

/-- **What one token may make of a draft.** -/
structure Frame (draft draft' : Draft) : Prop where
  /-- Every table is where it was. -/
  tables : ∀ (i : Nat) (table : Table), draft.tables[i]? = some table →
    ∃ table', draft'.tables[i]? = some table' ∧ draft.TableFrame i table table'
  /-- At most one table is new. -/
  size : draft'.tables.length ≤ draft.tables.length + 1
  /-- It is the table that waited, without columns. -/
  new : ∀ table', draft'.tables[draft.tables.length]? = some table' →
    ∃ identifier, draft.pending = some identifier ∧ table' = Table.ofIdentifier identifier
  /-- No other table is opened. -/
  opens : ∀ i, draft'.openTable = some i → draft.openTable = some i ∨ i = draft.tables.length

variable {draft draft' : Draft} {i j : Nat} {table : Table} {identifier : String}
  {f : Column → Column}

/-- **Where a table comes from**: it grew from the one in its place, or it is the one that
waited. -/
theorem Frame.of_getElem? {table' : Table} (h : draft.Frame draft')
    (ht : draft'.tables[i]? = some table') :
    (∃ table, draft.tables[i]? = some table ∧ draft.TableFrame i table table') ∨
      ∃ identifier, draft.pending = some identifier ∧ table' = Table.ofIdentifier identifier := by
  obtain ⟨hlt, -⟩ := List.getElem?_eq_some_iff.mp ht
  have hsize := h.size
  by_cases hi : i < draft.tables.length
  · obtain ⟨after, hafter, hframe⟩ := h.tables i _ (List.getElem?_eq_getElem hi)
    obtain rfl := Option.some.inj (ht.symm.trans hafter)
    exact Or.inl ⟨_, List.getElem?_eq_getElem hi, hframe⟩
  · obtain rfl : i = draft.tables.length := by omega
    exact Or.inr (h.new table' ht)

/-! ### Frames of tables -/

theorem TableFrame.refl (draft : Draft) (i : Nat) (table : Table) :
    draft.TableFrame i table table where
  grows := .refl table
  appended := Or.inl rfl
  texts j column column' h h' _ := by
    obtain rfl := Option.some.inj (h.symm.trans h')
    exact ⟨rfl, rfl, rfl⟩
  closed _ := Or.inl rfl

/-- A column behind the others of the open table. -/
theorem tableFrame_push (hopen : draft.openTable = some i) (column : Column) (table : Table) :
    draft.TableFrame i table (table.push column) where
  grows := table.grows_push column
  appended := Or.inr ⟨hopen, List.length_append⟩
  texts j c c' h h' _ := by
    rw [Table.push, List.getElem?_append_left (List.getElem?_eq_some_iff.mp h).1, h] at h'
    obtain rfl := Option.some.inj h'
    exact ⟨rfl, rfl, rfl⟩
  closed hclosed := absurd hopen hclosed

/-- A change of the column being read. -/
theorem tableFrame_changeAt (hopen : draft.openTable = some i) (hj : draft.openColumn = some j)
    (hf : ∀ c : Column, c.Grows (f c)) (table : Table) :
    draft.TableFrame i table (table.changeAt f j) where
  grows := table.grows_changeAt hf j
  appended := Or.inl (List.length_modify ..)
  texts k c c' h h' hother := by
    have hne : j ≠ k := by
      rintro rfl
      exact hother ⟨hopen, hj⟩
    rw [Table.changeAt, List.getElem?_modify_ne _ _ hne, h] at h'
    obtain rfl := Option.some.inj h'
    exact ⟨rfl, rfl, rfl⟩
  closed hclosed := absurd hopen hclosed

/-- A key column of the table that a key is about. -/
theorem tableFrame_markAt {scope : KeyScope} (hi : draft.keyPlace? scope = some i)
    (hj : j < table.columns.length) : draft.TableFrame i table (table.markAt j) where
  grows := table.grows_changeAt Column.grows_asKey j
  appended := Or.inl (List.length_modify ..)
  texts k c c' h h' _ := by
    rw [Table.markAt, List.getElem?_modify, h] at h'
    obtain rfl := Option.some.inj h'
    split <;> exact ⟨rfl, rfl, rfl⟩
  closed hclosed := by
    cases scope with
    | block => exact absurd hi hclosed
    | statement =>
      obtain ⟨identifier, hp, hplace⟩ := Option.map_eq_some_iff.mp hi
      exact Or.inr ⟨identifier, j, hp, hplace, hj, rfl⟩

/-! ### Frames of drafts -/

/-- A token that is about no table. -/
theorem frame_of_tables_eq (ht : draft'.tables = draft.tables)
    (hopens : ∀ i, draft'.openTable = some i → draft.openTable = some i) :
    draft.Frame draft' where
  tables i table h := ⟨table, by rw [ht, h], .refl draft i table⟩
  size := by rw [ht]; exact Nat.le_succ _
  new table' h := by
    rw [ht, List.getElem?_eq_none (Nat.le_refl _)] at h
    cases h
  opens i h := Or.inl (hopens i h)

/-- A token that is about one table. -/
theorem frame_of_modify {change : Table → Table}
    (ht : draft'.tables = draft.tables.modify i change)
    (hframe : ∀ table, draft.tables[i]? = some table → draft.TableFrame i table (change table))
    (hopen : draft'.openTable = draft.openTable) : draft.Frame draft' where
  tables k table h := by
    rw [ht, List.getElem?_modify, h]
    refine ⟨_, rfl, ?_⟩
    split
    next hik => exact hik ▸ hframe table (hik ▸ h)
    next => exact .refl draft k table
  size := by rw [ht, List.length_modify]; exact Nat.le_succ _
  new table' h := by
    rw [ht, List.getElem?_eq_none (Nat.le_of_eq (List.length_modify ..))] at h
    cases h
  opens k h := Or.inl (by rwa [hopen] at h)

/-- The bracket that declares a table. -/
theorem frame_of_openPending? (h : draft.openPending? = some (draft', identifier)) :
    draft.Frame draft' := by
  obtain ⟨name, hp, h⟩ := Option.map_eq_some_iff.mp h
  cases h
  exact {
    tables := fun i table h =>
      ⟨table, by rw [List.getElem?_append_left (List.getElem?_eq_some_iff.mp h).1, h],
        .refl draft i table⟩
    size := Nat.le_of_eq List.length_append
    new := fun table' h => by
      rw [List.getElem?_concat_length] at h
      exact ⟨_, hp, (Option.some.inj h).symm⟩
    opens := fun i h => Or.inr (Option.some.inj h).symm }

/-! ### Frames of operations -/

theorem frame_of_pushColumn? (h : draft.pushColumn? identifier = some draft') :
    draft.Frame draft' := by
  obtain ⟨i, table, hopen, -, rfl⟩ := eq_of_pushColumn? h
  exact frame_of_modify rfl (fun table _ => tableFrame_push hopen _ table) rfl

theorem frame_of_modifyColumn? (hf : ∀ c : Column, c.Grows (f c))
    (h : draft.modifyColumn? f = some draft') : draft.Frame draft' := by
  obtain ⟨i, j, hopen, hj, rfl⟩ := eq_of_modifyColumn? h
  exact frame_of_modify rfl (fun table _ => tableFrame_changeAt hopen hj hf table) rfl

/-- A column that is added with its type. It is new, so the type is not another one. -/
theorem frame_of_pushTyped? (h : (draft.pushColumn? identifier).bind (·.modifyColumn? f) =
      some draft') : draft.Frame draft' := by
  obtain ⟨pushed, hpush, h⟩ := Option.bind_eq_some_iff.mp h
  obtain ⟨i, table, hopen, ht, rfl⟩ := eq_of_pushColumn? hpush
  obtain ⟨k, j, hk, hj, rfl⟩ := eq_of_modifyColumn? h
  obtain rfl := Option.some.inj (hk.symm.trans hopen)
  obtain rfl := Option.some.inj hj
  refine frame_of_modify (List.modify_modify_eq ..) (fun other hother => ?_) rfl
  obtain rfl := Option.some.inj (hother.symm.trans ht)
  have hpushed : (Table.push (Column.ofIdentifier identifier) other).changeAt f
      other.columns.length = other.push (f (Column.ofIdentifier identifier)) := by
    simp [Table.push, Table.changeAt, List.modify_eq_set]
  rw [Function.comp_apply, hpushed]
  exact tableFrame_push hopen _ other

theorem frame_of_markKey {scope : KeyScope} {event : Event}
    (h : draft.markKey scope identifier = .ok (draft', event)) : draft.Frame draft' := by
  cases hk : draft.keyTable scope (unquote identifier) with
  | error e =>
    simp only [markKey, hk] at h
    cases h
  | ok place =>
    obtain ⟨hi, ht⟩ := keyTable_eq_ok_iff.mp hk
    rw [markKey_eq hk] at h
    split at h
    next hmem =>
      cases h
      refine frame_of_modify rfl (fun table hplace => tableFrame_markAt hi ?_) rfl
      obtain rfl := Option.some.inj (hplace.symm.trans ht)
      have hlt := List.idxOf_lt_length_of_mem hmem
      rwa [Table.columnNames, List.length_map] at hlt
    next => cases h

end Draft

open Draft

/-! ### Steps and runs -/

/-- **An edit that takes no flag from a column.** -/
def Edit.Raises : Edit → Prop
  | .change f | .addTyped _ f => ∀ column : Column, column.Grows (f column)
  | .keep | .stash _ | .discard | .openTable | .closeTable | .addColumn _ | .markKey _ _ => True

variable {options : Options} {state next : State} {token : String} {edit : Edit}

/-- **No transition takes a flag from a column**, or gives it another name. -/
theorem Transition.raises (h : Transition options token state edit next) : edit.Raises := by
  cases h with
  | keep | declare | refer | discard | openTable | closeTable | addColumn | keyColumn
  | listedColumn => trivial
  | assign | addTyped | typeText => exact fun _ => ⟨rfl, id, id, id⟩
  | hasDefault => exact fun _ => ⟨rfl, id, id, fun _ => rfl⟩
  | notNull => exact fun _ => ⟨rfl, fun _ => rfl, id, id⟩
  | asKey => exact Column.grows_asKey

/-- **What an edit leaves behind**, be it performed or not. -/
theorem Edit.Raises.frame (h : edit.Raises) (next : State) (token : String) (draft : Draft) :
    draft.Frame (edit.perform next token draft).draft := by
  have hsame : draft.Frame draft := frame_of_tables_eq rfl fun _ => id
  have hgoto : ∀ result : Option Draft, (∀ draft', result = some draft' → draft.Frame draft') →
      draft.Frame (gotoWith next result token draft).draft := by
    intro result hresult
    cases result with
    | none => exact hsame
    | some draft' => exact hresult draft' rfl
  cases edit with
  | keep => exact hsame
  | stash | discard => exact frame_of_tables_eq rfl fun _ => id
  | closeTable => exact frame_of_tables_eq rfl nofun
  | openTable =>
    rw [perform]
    split
    next hopen => exact frame_of_openPending? hopen
    next => exact hsame
  | addColumn identifier => exact hgoto _ fun _ => frame_of_pushColumn?
  | change f => exact hgoto _ fun _ => frame_of_modifyColumn? h
  | addTyped identifier f => exact hgoto _ fun _ => frame_of_pushTyped?
  | markKey scope identifier =>
    rw [perform, readKeyColumn]
    split
    next marked event hmark => exact frame_of_markKey hmark
    next => exact hsame

/-- **What a token leaves alone**, be it accepted or not. -/
theorem frame_step (options : Options) (state : State) (draft : Draft) (token : String) :
    draft.Frame (step options state draft token).draft := by
  rcases step_transition options token state with hu | ⟨next, edit, ht, hp⟩
  · rw [hu]
    exact frame_of_tables_eq rfl fun _ => id
  · rw [hp]
    exact ht.raises.frame next token draft

/-- **A table that is closed**, as it was but for some key columns. -/
def Draft.HoldsClosed (draft : Draft) (i : Nat) (table : Table) : Prop :=
  draft.openTable ≠ some i ∧
    ∃ places : List Nat, draft.tables[i]? = some (places.foldl Table.markAt table)

variable {draft draft' : Draft} {i : Nat} {table : Table}

/-- A closed table remains closed, with one key column more at most. -/
theorem Draft.Frame.holdsClosed (h : draft.Frame draft') (hc : draft.HoldsClosed i table) :
    draft'.HoldsClosed i table := by
  obtain ⟨hclosed, places, ht⟩ := hc
  constructor
  · intro hopen
    rcases h.opens i hopen with hopen | rfl
    · exact hclosed hopen
    · rw [List.getElem?_eq_none (Nat.le_refl _)] at ht
      cases ht
  · obtain ⟨table', ht', hframe⟩ := h.tables i _ ht
    rcases hframe.closed hclosed with rfl | ⟨identifier, j, -, -, -, rfl⟩
    · exact ⟨places, ht'⟩
    · exact ⟨places ++ [j], by rw [ht', List.foldl_append, List.foldl_cons, List.foldl_nil]⟩

/-- **Tables only grow, and a table is frozen once it is closed.** What a token leaves behind
has every table in its place, and of none of them is anything lost; at most one table and one
column are new, the column in the open table, and a table that is not open gets a key column or
nothing. So in a run every table grows where it stands, and one that is not open gets key
columns and nothing else, whatever is declared behind it and wherever the run ends. -/
theorem tables_only_grow (options : Options) (state : State) (draft : Draft) :
    (∀ token, draft.Frame (step options state draft token).draft) ∧
    ∀ tokens i table, draft.tables[i]? = some table →
      (∃ table', (run options state draft tokens).draft.tables[i]? = some table' ∧
        table.Grows table') ∧
      (draft.openTable ≠ some i → ∃ places : List Nat,
        (run options state draft tokens).draft.tables[i]? =
          some (places.foldl Table.markAt table)) := by
  have hstep := frame_step options
  refine ⟨hstep state draft, fun tokens i table ht => ⟨?_, fun hclosed => ?_⟩⟩
  · refine run_keeps (P := fun d => ∃ table', d.tables[i]? = some table' ∧ table.Grows table')
      ?_ state ⟨table, ht, .refl table⟩
    rintro state d token ⟨before, hbefore, hgrows⟩
    obtain ⟨after, hafter, hframe⟩ := (hstep state d token).tables i before hbefore
    exact ⟨after, hafter, hgrows.trans hframe.grows⟩
  · have hrun : (run options state draft tokens).draft.HoldsClosed i table :=
      run_keeps (fun state d token => (hstep state d token).holdsClosed) state
        ⟨hclosed, [], ht⟩
    exact hrun.2

/-- The first of two tables while the second one is open, with a modifier to read and its key
to come; and a column of the second table. -/
theorem tables_only_grow_behind_second_table :
    let first : Table := ⟨"a", "a", none, [{ name := "id", dataType := "int" },
      { name := "n", dataType := "int" }]⟩
    let front := ["create", "table", "a", "(", "id", "int", ",", "n", "int", ")", ";", "create",
      "table", "b", "(", "c", "varchar"]
    let rest := ["(3)", "primary", "key", ")", ";", "alter", "table", "only", "a", "add",
      "constraint", "a_pkey", "primary", "key", "(n)", ";"]
    ∃ draft, Leads {} .idle {} front .columnType draft ∧
      draft.tables[0]? = some first ∧ draft.openTable = some 1 ∧
      draft.Frame (step {} .columnType draft "(3)").draft ∧
      (∃ places : List Nat, (run {} .columnType draft rest).draft.tables[0]? =
        some (places.foldl Table.markAt first)) ∧
      (run {} .columnType draft rest).draft.tables[0]? = some (first.markAt 1) := by
  intro first front rest
  have hfront : Leads {} .idle {} front .columnType (run {} .idle {} front).draft := ⟨rfl, rfl⟩
  obtain ⟨hstep, hrun⟩ := tables_only_grow {} .columnType (run {} .idle {} front).draft
  exact ⟨_, hfront, rfl, rfl, hstep "(3)", (hrun rest 0 first rfl).2 (by decide), rfl⟩

end SqlCatalog
