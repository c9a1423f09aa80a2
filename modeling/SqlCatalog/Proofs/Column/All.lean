import SqlCatalog.Proofs.Growth

/-!
# Properties of all columns

A property that new columns have, and that no edit takes from a column, is a property of all
columns of a draft at any time. Nothing needs to be known for this of the draft or of the
state: an edit that does not find what it is about leaves the draft as it is
(`SqlCatalog.Edit.perform_all`).
-/

namespace SqlCatalog

open Step

/-- A member of a list in which one member is changed. -/
theorem forall_mem_modify {α : Type} {P : α → Prop} {f : α → α} {xs : List α}
    (h : ∀ x ∈ xs, P x) (hf : ∀ x, P x → P (f x)) (i : Nat) : ∀ x ∈ xs.modify i f, P x := by
  intro x hx
  obtain ⟨k, hk⟩ := List.mem_iff_getElem?.mp hx
  rw [List.getElem?_modify] at hk
  obtain ⟨y, hy, rfl⟩ := Option.map_eq_some_iff.mp hk
  have hmem := h y (List.mem_of_getElem? hy)
  split
  · exact hf y hmem
  · exact hmem

/-- The table with one more column behind the others. -/
def Table.push (column : Column) (table : Table) : Table :=
  { table with columns := table.columns ++ [column] }

namespace Draft

variable {P : Column → Prop} {draft draft' : Draft} {identifier : String}

/-! ### Columns at their places -/

/-- **A column that is added**, by the place of its table. -/
theorem pushColumn?_eq (identifier : String) :
    draft.pushColumn? identifier = draft.openTable.bind fun k =>
      if k < draft.tables.length then
        some { draft with
          tables := draft.tables.modify k (Table.push (Column.ofIdentifier identifier))
          openColumn := some (draft.columnNames k).length }
      else none := by
  rw [pushColumn?, current?]
  cases hopen : draft.openTable with
  | none => rfl
  | some k =>
    rw [Option.bind_some, Option.bind_some]
    cases ht : draft.tables[k]? with
    | none =>
      rw [if_neg (Nat.not_lt.mpr (List.getElem?_eq_none_iff.mp ht))]
      rfl
    | some table =>
      rw [if_pos (List.getElem?_eq_some_iff.mp ht).1, columnNames_eq ht, Table.columnNames,
        List.length_map, List.modify_eq_set, ht, ← hopen]
      rfl

/-- **A change of the column being read** is one in its place. -/
theorem modifyColumn?_eq_changeAt (g : Column → Column) :
    draft.modifyColumn? g = draft.openTable.bind fun k => draft.openColumn.bind fun l =>
      if l < (draft.columnNames k).length then some (draft.changeAt g k l) else none := by
  rw [modifyColumn?, current?]
  cases draft.openTable with
  | none => rfl
  | some k =>
    cases draft.openColumn with
    | none =>
      rw [Option.bind_some]
      cases draft.tables[k]? <;> rfl
    | some l =>
      simp only [Option.bind_some]
      cases ht : draft.tables[k]? with
      | none =>
        rw [columnNames, ht]
        rfl
      | some table =>
        rw [columnNames_eq ht, Table.columnNames, List.length_map, Option.map_some,
          Option.bind_some]
        cases hc : table.columns[l]? with
        | none =>
          rw [if_neg (Nat.not_lt.mpr (List.getElem?_eq_none_iff.mp hc))]
          rfl
        | some column =>
          rw [if_pos (List.getElem?_eq_some_iff.mp hc).1, Option.map_some, changeAt,
            List.modify_eq_set, ht, Option.getD_some, Table.changeAt, List.modify_eq_set, hc]
          rfl

/-- **A column that is added** stands behind the others of the open table. -/
theorem eq_of_pushColumn? (h : draft.pushColumn? identifier = some draft') :
    ∃ i table, draft.openTable = some i ∧ draft.tables[i]? = some table ∧
      draft' = { draft with
        tables := draft.tables.modify i (Table.push (Column.ofIdentifier identifier))
        openColumn := some table.columns.length } := by
  rw [pushColumn?_eq] at h
  obtain ⟨i, hopen, h⟩ := Option.bind_eq_some_iff.mp h
  split at h
  next hi =>
    have ht := List.getElem?_eq_getElem hi
    rw [columnNames_eq ht, Table.columnNames, List.length_map] at h
    exact ⟨i, _, hopen, ht, (Option.some.inj h).symm⟩
  next => cases h

/-- A column that is changed is the one being read. -/
theorem eq_of_modifyColumn? {f : Column → Column} (h : draft.modifyColumn? f = some draft') :
    ∃ i j, draft.openTable = some i ∧ draft.openColumn = some j ∧
      draft' = { draft with tables := draft.tables.modify i (Table.changeAt f j) } := by
  rw [modifyColumn?_eq_changeAt] at h
  obtain ⟨i, hopen, h⟩ := Option.bind_eq_some_iff.mp h
  obtain ⟨j, hcolumn, h⟩ := Option.bind_eq_some_iff.mp h
  split at h
  · exact ⟨i, j, hopen, hcolumn, (Option.some.inj h).symm⟩
  · cases h

theorem exists_changeAt_of_modifyColumn? {f : Column → Column}
    (h : draft.modifyColumn? f = some draft') :
    ∃ i j, draft'.tables = draft.tables.modify i (Table.changeAt f j) := by
  obtain ⟨i, j, -, -, rfl⟩ := eq_of_modifyColumn? h
  exact ⟨i, j, rfl⟩

/-- **A column of a key** is marked in some place. -/
theorem exists_changeAt_of_markKey {scope : KeyScope} {event : Event}
    (h : draft.markKey scope identifier = .ok (draft', event)) :
    ∃ i j, draft'.tables = draft.tables.modify i (Table.changeAt Column.asKey j) := by
  obtain ⟨i, j, rfl⟩ := exists_markAt_of_markKey h
  exact ⟨i, j, rfl⟩

/-! ### All columns -/

/-- **All columns of a draft have a property.** -/
def All (P : Column → Prop) (draft : Draft) : Prop :=
  ∀ table ∈ draft.tables, ∀ column ∈ table.columns, P column

theorem all_empty : All P {} :=
  nofun

theorem All.setTable (h : draft.All P) {table : Table} (i : Nat)
    (ht : ∀ column ∈ table.columns, P column) : (draft.setTable i table).All P := by
  intro other hother
  rcases List.mem_or_eq_of_mem_set hother with hmem | rfl
  · exact h other hmem
  · exact ht

/-- A table is declared without columns. -/
theorem All.openPending? (h : draft.All P) (ho : draft.openPending? = some (draft', identifier)) :
    draft'.All P := by
  obtain ⟨name, -, ho⟩ := Option.map_eq_some_iff.mp ho
  cases ho
  intro table hmem
  rcases List.mem_append.mp hmem with hmem | hmem
  · exact h table hmem
  · rw [List.mem_singleton.mp hmem, columns_ofIdentifier]
    nofun

theorem All.pushColumn? (h : draft.All P) (hnew : P (Column.ofIdentifier identifier))
    (hp : draft.pushColumn? identifier = some draft') : draft'.All P := by
  obtain ⟨⟨i, table⟩, hc, rfl⟩ := Option.map_eq_some_iff.mp hp
  have hold := h table (List.mem_of_getElem? (of_current? hc).2)
  refine h.setTable i fun column hcolumn => ?_
  rcases List.mem_append.mp hcolumn with hmem | hmem
  · exact hold column hmem
  · rwa [List.mem_singleton.mp hmem]

theorem All.changeAt {f : Column → Column} {i j : Nat} (h : draft.All P)
    (hf : ∀ c, P c → P (f c))
    (ht : draft'.tables = draft.tables.modify i (Table.changeAt f j)) : draft'.All P := by
  have htable : ∀ table : Table, (∀ c ∈ table.columns, P c) →
      ∀ c ∈ (table.changeAt f j).columns, P c :=
    fun _ htable => forall_mem_modify htable hf j
  rw [All, ht]
  exact forall_mem_modify h htable i

end Draft

open Draft

/-- **An edit keeps a property of columns**: a column that it adds has the property, and a
column that it changes does not lose it. -/
def Edit.Keeps (P : Column → Prop) : Edit → Prop
  | .addColumn identifier => P (Column.ofIdentifier identifier)
  | .change f => ∀ column, P column → P (f column)
  | .addTyped identifier f =>
    P (Column.ofIdentifier identifier) ∧ ∀ column, P column → P (f column)
  | .markKey _ _ => ∀ column, P column → P column.asKey
  | .keep | .stash _ | .discard | .openTable | .closeTable => True

/-- **What an edit leaves behind**, be it performed or not. -/
theorem Edit.perform_all {P : Column → Prop} {draft : Draft} {edit : Edit} (h : edit.Keeps P)
    (hd : draft.All P) (next : State) (token : String) :
    (edit.perform next token draft).draft.All P := by
  have hgoto : ∀ result : Option Draft, (∀ draft', result = some draft' → draft'.All P) →
      (gotoWith next result token draft).draft.All P := by
    intro result hresult
    cases result with
    | none => exact hd
    | some draft' => exact hresult draft' rfl
  cases edit with
  | keep | stash | discard | closeTable => exact hd
  | openTable =>
    rw [perform]
    split
    next ho => exact hd.openPending? ho
    next => exact hd
  | addColumn identifier => exact hgoto _ fun _ hp => hd.pushColumn? h hp
  | change f =>
    refine hgoto _ fun draft' hm => ?_
    obtain ⟨i, j, ht⟩ := exists_changeAt_of_modifyColumn? hm
    exact hd.changeAt h ht
  | addTyped identifier f =>
    refine hgoto _ fun draft' hm => ?_
    obtain ⟨pushed, hp, hm⟩ := Option.bind_eq_some_iff.mp hm
    obtain ⟨i, j, ht⟩ := exists_changeAt_of_modifyColumn? hm
    exact (hd.pushColumn? h.1 hp).changeAt h.2 ht
  | markKey scope identifier =>
    rw [perform, readKeyColumn]
    split
    next marked event hmark =>
      obtain ⟨i, j, ht⟩ := exists_changeAt_of_markKey hmark
      exact hd.changeAt h ht
    next => exact hd

/-! ### Steps and readings -/

section Steps

variable {P : Column → Prop} {options : Options} {state last : State} {draft draft' : Draft}
  {token : String} {tokens : List String}

/-- **What a token leaves behind**, be it accepted or not, when no transition takes the property
from a column. -/
theorem step_all
    (hkeeps : ∀ {state next edit}, Transition options token state edit next → edit.Keeps P)
    (state : State) (hd : draft.All P) :
    (step options state draft token).draft.All P := by
  rcases step_transition options token state with hu | ⟨next, edit, ht, hp⟩
  · rw [hu]
    exact hd
  · rw [hp]
    exact edit.perform_all (hkeeps ht) hd next token

/-- A reading keeps a property of columns that every transition keeps. -/
theorem Leads.all {P : Column → Prop}
    (hkeeps : ∀ {token state next edit}, Transition options token state edit next → edit.Keeps P)
    (h : Leads options state draft tokens last draft') (hd : draft.All P) : draft'.All P := by
  induction tokens generalizing state draft with
  | nil =>
    obtain ⟨-, rfl⟩ := leads_nil.mp h
    exact hd
  | cons token tokens ih =>
    obtain ⟨s, -, h⟩ := leads_cons.mp h
    exact ih h (step_all hkeeps state hd)

end Steps

end SqlCatalog
