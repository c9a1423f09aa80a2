import SqlCatalog.Proofs.Draft

/-!
# Changes in a place, and marks

A draft is changed in a place when one column of one of its tables is
(`SqlCatalog.Draft.changeAt`). A place is found by looking at the identifiers of the tables and
the names of the columns (`SqlCatalog.Draft.identifiers`, `SqlCatalog.Draft.columnNames`), and as
long as a change leaves the name of its column alone it leaves all of these alone. So changes go
past each other (`SqlCatalog.Draft.changeAt_comm`).

A key constraint gives its columns by name, and what it does to a draft is to *mark* them where
they stand: `SqlCatalog.Draft.markAt` is the change that puts a column into the key. One key
column goes past a change that leaves the names and the keys alone
(`SqlCatalog.Draft.markKey_changeAt`), and past a mark in particular, whatever the two are about.
-/

namespace SqlCatalog

open Identifier

/-! ### Changes in a list -/

/-- The first member with a key is changed where it stands. -/
theorem modifyFirst?_eq {α : Type} (key : α → String) (f : α → α) (value : String)
    (xs : List α) :
    modifyFirst? (key · == value) (fun x => some (f x)) xs =
      if value ∈ xs.map key then some (xs.modify ((xs.map key).idxOf value) f) else none := by
  induction xs with
  | nil => rfl
  | cons x xs ih =>
    rw [modifyFirst?, List.map_cons]
    by_cases hx : key x = value
    · simp [hx]
    · have hne : (key x == value) = false := beq_eq_false_iff_ne.mpr hx
      have hmem : value ∈ key x :: xs.map key ↔ value ∈ xs.map key := by
        simp [Ne.symm hx]
      rw [hne, ih, List.idxOf_cons, hne]
      by_cases hxs : value ∈ xs.map key
      · simp [hxs]
      · simp [hxs, Ne.symm hx]

/-- Two changes of a member go past each other when they are about different ones, or do so for
the one that stands there. -/
theorem modify_comm {α : Type} {f g : α → α} {xs : List α} {i k : Nat}
    (h : i = k → ∀ x ∈ xs[i]?, f (g x) = g (f x)) :
    (xs.modify i f).modify k g = (xs.modify k g).modify i f := by
  refine List.ext_getElem? fun n => ?_
  simp only [List.getElem?_modify, Option.map_eq_map]
  cases hx : xs[n]? with
  | none => rfl
  | some x =>
    simp only [Option.map_some]
    by_cases hi : i = n
    · by_cases hk : k = n
      · have hcomm := h (hi.trans hk.symm) x (by rw [hi, hx]; rfl)
        simp only [if_pos hi, if_pos hk, hcomm]
      · simp only [if_pos hi, if_neg hk]
    · simp only [if_neg hi]

/-- A change of a member goes past members that are put behind it. -/
theorem modify_append {α : Type} {xs : List α} {i : Nat} (h : i < xs.length) (f : α → α)
    (ys : List α) : (xs ++ ys).modify i f = xs.modify i f ++ ys := by
  refine List.ext_getElem? fun k => ?_
  by_cases hk : k < xs.length
  · rw [List.getElem?_append_left (by simpa using hk), List.getElem?_modify,
      List.getElem?_modify, List.getElem?_append_left hk]
  · have hne : i ≠ k := by omega
    rw [List.getElem?_append_right (by simpa using hk), List.getElem?_modify_ne _ _ hne,
      List.getElem?_append_right (by simpa using hk), List.length_modify]

/-- A change of a member leaves what it leaves of each member. -/
theorem map_modify_of_eq {α β : Type} (f : α → α) (g : α → β) (h : ∀ x, g (f x) = g x)
    (xs : List α) (i : Nat) : (xs.modify i f).map g = xs.map g := by
  refine List.ext_getElem? fun k => ?_
  simp only [List.getElem?_map, List.getElem?_modify, Option.map_eq_map, Option.map_map]
  refine congrArg (Option.map · xs[k]?) (funext fun x => ?_)
  rw [Function.comp_apply]
  split
  · exact h x
  · rfl

/-! ### Changes in a table -/

namespace Table

/-- The names of the columns. -/
def columnNames (table : Table) : List String :=
  table.columns.map (·.name)

/-- The table with the column in a place changed. -/
def changeAt (f : Column → Column) (j : Nat) (table : Table) : Table :=
  { table with columns := table.columns.modify j f }

/-- **The table with the column in a place in its key.** -/
def markAt (table : Table) (j : Nat) : Table :=
  { table with columns := table.columns.modify j Column.asKey }

variable {f g : Column → Column} {j l : Nat} (table : Table)

theorem columnNames_changeAt (hname : ∀ c, (f c).name = c.name) (j : Nat) :
    (table.changeAt f j).columnNames = table.columnNames :=
  map_modify_of_eq f Column.name hname table.columns j

/-- Two changes in a table go past each other when they are about different columns, or do so. -/
theorem changeAt_comm (h : j = l → ∀ c, f (g c) = g (f c)) :
    (table.changeAt f j).changeAt g l = (table.changeAt g l).changeAt f j := by
  rw [changeAt, changeAt, changeAt, changeAt, modify_comm fun hjl c _ => h hjl c]

/-- **A column marked by its name** is marked in its place. -/
theorem markKey?_eq (column : String) :
    table.markKey? column =
      if column ∈ table.columnNames then some (table.markAt (table.columnNames.idxOf column))
      else none := by
  rw [markKey?, modifyFirst?_eq (·.name) Column.asKey, columnNames]
  split <;> rfl

end Table

/-! ### Changes in a draft -/

namespace Draft

/-- **The identifiers of the tables**, in order. -/
def identifiers (draft : Draft) : List String :=
  draft.tables.map (·.rawIdentifier)

/-- **The names of the columns** of the table in a place; none where no table is. -/
def columnNames (draft : Draft) (i : Nat) : List String :=
  match draft.tables[i]? with
  | some table => table.columnNames
  | none => []

/-- **The draft with a column changed**, which is given by its place and that of its table. -/
def changeAt (draft : Draft) (f : Column → Column) (i j : Nat) : Draft :=
  { draft with tables := draft.tables.modify i (Table.changeAt f j) }

/-- **The draft with a column in the key of its table**, both given by their places. -/
def markAt (draft : Draft) (i j : Nat) : Draft :=
  { draft with tables := draft.tables.modify i (·.markAt j) }

variable {draft marked : Draft} {i j k l : Nat} {table : Table} {scope : KeyScope}
  {identifier column : String} {f g : Column → Column}

theorem columnNames_eq (h : draft.tables[i]? = some table) :
    draft.columnNames i = table.columnNames := by
  rw [columnNames, h]

@[simp] theorem tables_changeAt :
    (draft.changeAt f i j).tables = draft.tables.modify i (Table.changeAt f j) := rfl

@[simp] theorem openTable_changeAt : (draft.changeAt f i j).openTable = draft.openTable := rfl

@[simp] theorem openColumn_changeAt : (draft.changeAt f i j).openColumn = draft.openColumn := rfl

@[simp] theorem pending_changeAt : (draft.changeAt f i j).pending = draft.pending := rfl

/-- The first table of an identifier. -/
theorem findIdx_rawIdentifier (draft : Draft) (identifier : String) :
    draft.tables.findIdx (·.rawIdentifier == identifier) = draft.identifiers.idxOf identifier :=
  (List.findIdx_map draft.tables (·.rawIdentifier) (· == identifier)).symm

/-- The tables of a changed draft, place by place. -/
theorem getElem?_changeAt :
    (draft.changeAt f i j).tables[k]? =
      draft.tables[k]?.map fun table => if i = k then table.changeAt f j else table := by
  simp only [changeAt, List.getElem?_modify, Option.map_eq_map]

@[simp] theorem identifiers_changeAt : (draft.changeAt f i j).identifiers = draft.identifiers :=
  map_modify_of_eq (Table.changeAt f j) Table.rawIdentifier (fun _ => rfl) draft.tables i

theorem columnNames_changeAt (hname : ∀ c, (f c).name = c.name) :
    (draft.changeAt f i j).columnNames k = draft.columnNames k := by
  rw [columnNames, columnNames, getElem?_changeAt]
  cases draft.tables[k]? with
  | none => rfl
  | some table =>
    rw [Option.map_some]
    dsimp only
    split
    · exact table.columnNames_changeAt hname j
    · rfl

/-- **Changes go past each other** when they are about different columns, or do so. -/
theorem changeAt_comm (h : i = k → j = l → ∀ c, f (g c) = g (f c)) :
    (draft.changeAt f i j).changeAt g k l = (draft.changeAt g k l).changeAt f i j := by
  have htable : i = k → ∀ table : Table,
      Table.changeAt f j (table.changeAt g l) = (table.changeAt f j).changeAt g l :=
    fun hik table => (table.changeAt_comm (h hik)).symm
  rw [changeAt, changeAt, changeAt, changeAt, modify_comm fun hik table _ => htable hik table]

/-! ### Marks -/

@[simp] theorem openTable_markAt : (draft.markAt i j).openTable = draft.openTable := rfl

@[simp] theorem openColumn_markAt : (draft.markAt i j).openColumn = draft.openColumn := rfl

/-- A mark is a change. -/
theorem markAt_eq_changeAt : draft.markAt i j = draft.changeAt Column.asKey i j := rfl

@[simp] theorem identifiers_markAt : (draft.markAt i j).identifiers = draft.identifiers :=
  identifiers_changeAt

@[simp] theorem columnNames_markAt : (draft.markAt i j).columnNames k = draft.columnNames k :=
  columnNames_changeAt fun _ => rfl

/-- A table that is marked is marked in its place. -/
theorem setTable_markAt (h : draft.tables[i]? = some table) (j : Nat) :
    draft.setTable i (table.markAt j) = draft.markAt i j := by
  rw [setTable, markAt, List.modify_eq_set, h, Option.getD_some]

/-- **The draft with several columns of one table in its key**, given by their places. -/
def markAll (draft : Draft) (i : Nat) (places : List Nat) : Draft :=
  places.foldl (·.markAt i ·) draft

@[simp] theorem markAll_nil : draft.markAll i [] = draft := rfl

@[simp] theorem markAll_cons (places : List Nat) :
    draft.markAll i (j :: places) = (draft.markAt i j).markAll i places := rfl

/-- What goes past one mark goes past several. -/
theorem apply_markAll {f : Draft → Draft}
    (h : ∀ draft j, f (draft.markAt i j) = (f draft).markAt i j) (draft : Draft)
    (places : List Nat) : f (draft.markAll i places) = (f draft).markAll i places := by
  induction places generalizing draft with
  | nil => rfl
  | cons j places ih => rw [markAll_cons, ih, h, markAll_cons]

theorem closeTable_markAll (draft : Draft) (i : Nat) (places : List Nat) :
    (draft.markAll i places).closeTable = draft.closeTable.markAll i places :=
  apply_markAll (fun _ _ => rfl) draft places

theorem discardPending_markAll (draft : Draft) (i : Nat) (places : List Nat) :
    (draft.markAll i places).discardPending = draft.discardPending.markAll i places :=
  apply_markAll (fun _ _ => rfl) draft places

/-! ### Keys and marks -/

/-- **The place of the table that a key is about**: that of the open table for a key in a
column block, and otherwise that of the first table of the identifier that waits. -/
def keyPlace? (draft : Draft) : KeyScope → Option Nat
  | .block => draft.openTable
  | .statement => draft.pending.map (draft.identifiers.idxOf ·)

/-- **The table of a key** is the one in that place, if one is there. -/
theorem keyTable_eq_ok_iff :
    draft.keyTable scope column = .ok (i, table) ↔
      draft.keyPlace? scope = some i ∧ draft.tables[i]? = some table := by
  cases scope with
  | block =>
    rw [keyTable, keyPlace?, ← current?_eq_some_iff]
    cases draft.current? <;> simp
  | statement =>
    simp only [keyTable, keyPlace?, findIdx_rawIdentifier]
    cases draft.pending with
    | none => simp
    | some identifier =>
      dsimp only
      rw [Option.map_some, Option.some_inj]
      cases ht : draft.tables[draft.identifiers.idxOf identifier]? with
      | none =>
        constructor
        · rintro ⟨⟩
        · rintro ⟨rfl, h⟩
          cases ht.symm.trans h
      | some t =>
        constructor
        · rintro ⟨⟩
          exact ⟨rfl, ht⟩
        · rintro ⟨rfl, h⟩
          rw [Option.some.inj (ht.symm.trans h)]

/-- The table of a key is one of the tables. -/
theorem of_keyTable (h : draft.keyTable scope column = .ok (i, table)) :
    draft.tables[i]? = some table :=
  (keyTable_eq_ok_iff.mp h).2

/-- **A column of a key is marked in its place**, in the table of the key. -/
theorem markKey_eq (h : draft.keyTable scope (unquote identifier) = .ok (i, table)) :
    draft.markKey scope identifier =
      if unquote identifier ∈ table.columnNames then
        .ok (draft.markAt i (table.columnNames.idxOf (unquote identifier)),
          .primaryKey table.rawIdentifier (unquote identifier))
      else .error (.unknownColumn table.rawIdentifier (unquote identifier)) := by
  simp only [markKey, h, Table.markKey?_eq]
  by_cases hmem : unquote identifier ∈ table.columnNames
  · rw [if_pos hmem, if_pos hmem]
    dsimp only
    rw [setTable_markAt (of_keyTable h)]
  · rw [if_neg hmem, if_neg hmem]

/-! ### Keys and changes -/

/-- The open table of a changed draft. -/
theorem current?_changeAt :
    (draft.changeAt f i j).current? =
      draft.current?.map fun (k, table) => (k, if i = k then table.changeAt f j else table) := by
  rw [current?, current?, openTable_changeAt]
  cases draft.openTable with
  | none => rfl
  | some k => simp only [Option.bind_some, getElem?_changeAt, Option.map_map, Function.comp_def]

/-- A change leaves a key its table. -/
theorem keyTable_changeAt :
    (draft.changeAt f i j).keyTable scope column =
      (draft.keyTable scope column).map fun (k, table) =>
        (k, if i = k then table.changeAt f j else table) := by
  cases scope with
  | block =>
    rw [keyTable, keyTable, current?_changeAt]
    cases draft.current? <;> rfl
  | statement =>
    simp only [keyTable, pending_changeAt, findIdx_rawIdentifier, identifiers_changeAt,
      getElem?_changeAt]
    cases draft.pending with
    | none => rfl
    | some identifier =>
      dsimp only
      cases draft.tables[draft.identifiers.idxOf identifier]? <;> rfl

/-- **A column of a key goes past a change** that leaves the names alone and goes past marks. -/
theorem markKey_changeAt (hname : ∀ c, (f c).name = c.name)
    (hkey : ∀ c : Column, f c.asKey = (f c).asKey) :
    (draft.changeAt f i j).markKey scope identifier =
      (draft.markKey scope identifier).map fun (marked, event) =>
        (marked.changeAt f i j, event) := by
  have htable := @keyTable_changeAt draft i j scope (unquote identifier) f
  cases h : draft.keyTable scope (unquote identifier) with
  | error e =>
    rw [h] at htable
    simp only [markKey, h, htable]
    rfl
  | ok place =>
    obtain ⟨k, table⟩ := place
    rw [h] at htable
    have hnames : (if i = k then table.changeAt f j else table).columnNames =
        table.columnNames := by
      split
      · exact table.columnNames_changeAt hname j
      · rfl
    have hraw : (if i = k then table.changeAt f j else table).rawIdentifier =
        table.rawIdentifier := by
      split <;> rfl
    rw [markKey_eq htable, markKey_eq h, hnames, hraw]
    split
    · rw [markAt_eq_changeAt, changeAt_comm fun _ _ => hkey]
      rfl
    · rfl

end Draft

end SqlCatalog
