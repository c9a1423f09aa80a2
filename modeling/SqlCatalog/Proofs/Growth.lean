import SqlCatalog.Proofs.Identifier
import SqlCatalog.Proofs.Key.Mark
import SqlCatalog.Proofs.Reach

/-!
# How drafts grow

A draft never loses anything that has been declared. A token leaves the identifiers of the
tables and the names of their columns alone, or puts one table behind the others, or one
column behind the others of the open table (`SqlCatalog.Growth`); which of these it may do
is settled by the places it leads between. So a draft that a reading leads to *extends* the
one it began with (`SqlCatalog.Leads.extends`): tables and columns keep their places and
their names.
-/

namespace SqlCatalog

open Identifier Step

namespace Draft

variable {draft draft' : Draft} {i k : Nat} {table table' : Table} {identifier : String}

/-! ### Names after an operation -/

/-- A table in the place of one with the same identifier. -/
theorem identifiers_setTable (h : draft.tables[i]? = some table)
    (hr : table'.rawIdentifier = table.rawIdentifier) :
    (draft.setTable i table').identifiers = draft.identifiers := by
  have hplace : draft.identifiers[i]? = some table.rawIdentifier := by
    rw [identifiers, List.getElem?_map, h, Option.map_some]
  obtain ⟨hi, hplace⟩ := List.getElem?_eq_some_iff.mp hplace
  have hset : draft.identifiers.set i table.rawIdentifier = draft.identifiers := by
    rw [← hplace, List.set_getElem_self]
  rwa [identifiers, setTable, List.map_set, hr]

/-- A table in the place of another one. -/
theorem columnNames_setTable (h : draft.tables[i]? = some table) :
    (draft.setTable i table').columnNames k =
      if k = i then table'.columnNames else draft.columnNames k := by
  obtain ⟨hi, -⟩ := List.getElem?_eq_some_iff.mp h
  rw [columnNames, setTable]
  by_cases hk : k = i
  · subst hk
    rw [List.getElem?_set_self hi, if_pos rfl]
  · rw [List.getElem?_set_ne (Ne.symm hk), if_neg hk, columnNames]

/-- A table in the place of one with the same names. -/
theorem columnNames_setTable_of_eq (h : draft.tables[i]? = some table)
    (hnames : table'.columnNames = table.columnNames) :
    (draft.setTable i table').columnNames k = draft.columnNames k := by
  rw [columnNames_setTable h, hnames]
  split
  next hk => rw [hk, columnNames_eq h]
  next => rfl

/-- **What adding a column says of the names**: there is one more behind the others of the
open table, and it is being read. -/
theorem of_pushColumn? (h : draft.pushColumn? identifier = some draft') :
    ∃ i, draft'.openTable = some i ∧
      draft'.openColumn = some (draft.columnNames i).length ∧
      draft'.identifiers = draft.identifiers ∧
      ∀ k, draft'.columnNames k =
        if k = i then draft.columnNames i ++ [unquote identifier] else draft.columnNames k := by
  obtain ⟨⟨i, table⟩, hc, rfl⟩ := Option.map_eq_some_iff.mp h
  obtain ⟨hopen, hplace⟩ := of_current? hc
  refine ⟨i, hopen, ?_, identifiers_setTable hplace rfl, fun k => ?_⟩
  · rw [columnNames_eq hplace, Table.columnNames, List.length_map]
  · refine (columnNames_setTable hplace).trans ?_
    rw [columnNames_eq hplace, Table.columnNames, Table.columnNames, List.map_append]
    rfl

/-- **A change of the column being read leaves the names alone** when it leaves that of the
column, and it leaves the places. -/
theorem of_modifyColumn? {change : Column → Column}
    (hname : ∀ column, (change column).name = column.name)
    (h : draft.modifyColumn? change = some draft') :
    draft'.openTable = draft.openTable ∧ draft'.openColumn = draft.openColumn ∧
      draft'.identifiers = draft.identifiers ∧ ∀ k, draft'.columnNames k = draft.columnNames k := by
  obtain ⟨⟨i, table⟩, hc, h⟩ := Option.bind_eq_some_iff.mp h
  obtain ⟨j, -, h⟩ := Option.bind_eq_some_iff.mp h
  obtain ⟨column, hcolumn, rfl⟩ := Option.map_eq_some_iff.mp h
  have hplace := (of_current? hc).2
  refine ⟨rfl, rfl, identifiers_setTable hplace rfl, fun k => ?_⟩
  refine columnNames_setTable_of_eq hplace ?_
  have hj : table.columnNames[j]? = some column.name := by
    rw [Table.columnNames, List.getElem?_map, hcolumn, Option.map_some]
  obtain ⟨hlt, hj⟩ := List.getElem?_eq_some_iff.mp hj
  have hset : table.columnNames.set j column.name = table.columnNames := by
    rw [← hj, List.set_getElem_self]
  rwa [Table.columnNames, List.map_set, hname]

/-- **A column of a key is a mark**, which leaves all names alone. -/
theorem exists_markAt_of_markKey {scope : KeyScope} {event : Event}
    (h : draft.markKey scope identifier = .ok (draft', event)) :
    ∃ i j, draft' = draft.markAt i j := by
  cases hk : draft.keyTable scope (unquote identifier) with
  | error e =>
    simp only [markKey, hk] at h
    cases h
  | ok place =>
    rw [markKey_eq hk] at h
    split at h <;> cases h
    exact ⟨_, _, rfl⟩

end Draft

open Draft

/-! ### Growth -/

/-- **What an accepted token does to the names in a draft**, by the places it leads
between. -/
inductive Growth (draft draft' : Draft) : Place → Place → Prop where
  /-- Nothing, as a rule. A column that is being read then has been read before. -/
  | same {p q : Place} (hi : draft'.identifiers = draft.identifiers)
    (hc : ∀ k, draft'.columnNames k = draft.columnNames k)
    (ho : q = .column → p = .column ∧ draft'.openTable = draft.openTable ∧
      draft'.openColumn = draft.openColumn) : Growth draft draft' p q
  /-- A bracket declares the table that waits, without columns. -/
  | table {identifier : String} (hp : draft.pending = some identifier)
    (hi : draft'.identifiers = draft.identifiers ++ [identifier])
    (hc : ∀ k, draft'.columnNames k = draft.columnNames k) : Growth draft draft' .named .block
  /-- A name at the head of an entry adds a column to the open table. It is being read. -/
  | column {identifier : String} {i : Nat} (h : isColumnName identifier = true)
    (ho : draft'.openTable = some i ∧ draft'.openColumn = some (draft.columnNames i).length)
    (hi : draft'.identifiers = draft.identifiers)
    (hc : ∀ k, draft'.columnNames k =
      if k = i then draft.columnNames i ++ [unquote identifier] else draft.columnNames k) :
    Growth draft draft' .block .column

variable {options : Options} {state next last : State} {draft draft' draft'' : Draft}
  {token : String} {tokens : List String}

theorem rawIdentifier_ofIdentifier (identifier : String) :
    (Table.ofIdentifier identifier).rawIdentifier = identifier := by
  rw [Table.ofIdentifier]
  split <;> rfl

/-- A table is declared without columns. -/
theorem columns_ofIdentifier (identifier : String) :
    (Table.ofIdentifier identifier).columns = [] := by
  rw [Table.ofIdentifier]
  split <;> rfl

/-- A table without columns has no names in its place, just as no table has. -/
theorem columnNames_openPending? {opened : Draft} {identifier : String}
    (h : draft.openPending? = some (opened, identifier)) (k : Nat) :
    opened.columnNames k = draft.columnNames k := by
  obtain ⟨name, -, h⟩ := Option.map_eq_some_iff.mp h
  cases h
  rw [columnNames, columnNames]
  by_cases hk : k < draft.tables.length
  · rw [List.getElem?_append_left hk]
  · rw [List.getElem?_append_right (Nat.le_of_not_lt hk),
      List.getElem?_eq_none (Nat.le_of_not_lt hk)]
    have hempty : ∀ name : String, (Table.ofIdentifier name).columnNames = [] := by
      intro name
      rw [Table.columnNames, columns_ofIdentifier, List.map_nil]
    cases k - draft.tables.length with
    | zero => exact hempty _
    | succ k => rfl

/-- **What an edit that is performed does to the names.** -/
theorem Edit.Moves.grows {edit : Edit} {place : Place} (h : edit.Moves place next.place)
    (ho : (edit.perform next token draft).outcome = .ok last) :
    Growth draft (edit.perform next token draft).draft place next.place := by
  generalize next.place = q at h
  cases h with
  | stay => exact .same rfl (fun _ => rfl) fun hplace => ⟨hplace, rfl, rfl⟩
  | leave | stash | discard | closeTable => exact .same rfl (fun _ => rfl) nofun
  | openTable =>
    simp only [perform] at ho ⊢
    cases hopen : draft.openPending? with
    | none =>
      rw [hopen] at ho
      cases ho
    | some opened =>
      obtain ⟨identifier, hp, h⟩ := Option.map_eq_some_iff.mp hopen
      refine .table hp ?_ (columnNames_openPending? hopen)
      cases h
      simp [identifiers, rawIdentifier_ofIdentifier]
  | addColumn hname =>
    simp only [perform, gotoWith] at ho ⊢
    cases hpush : draft.pushColumn? _ with
    | none =>
      rw [hpush] at ho
      cases ho
    | some pushed =>
      obtain ⟨i, ho, hj, hi, hc⟩ := of_pushColumn? hpush
      exact .column hname ⟨ho, hj⟩ hi hc
  | change hf =>
    simp only [perform, gotoWith] at ho ⊢
    cases hchange : draft.modifyColumn? _ with
    | none =>
      rw [hchange] at ho
      cases ho
    | some changed =>
      obtain ⟨ho, hj, hi, hc⟩ := of_modifyColumn? hf hchange
      exact .same hi hc fun _ => ⟨rfl, ho, hj⟩
  | addTyped hname hf =>
    simp only [perform, gotoWith] at ho ⊢
    cases hchange : (draft.pushColumn? _).bind _ with
    | none =>
      rw [hchange] at ho
      cases ho
    | some changed =>
      obtain ⟨pushed, hpush, hchange⟩ := Option.bind_eq_some_iff.mp hchange
      obtain ⟨i, ho, hj, hi, hc⟩ := of_pushColumn? hpush
      obtain ⟨ho', hj', hi', hc'⟩ := of_modifyColumn? hf hchange
      exact .column hname ⟨ho'.trans ho, hj'.trans hj⟩ (hi'.trans hi)
        fun k => (hc' k).trans (hc k)
  | markKey scope identifier =>
    simp only [perform, readKeyColumn] at ho ⊢
    cases hmark : draft.markKey scope identifier with
    | error e =>
      rw [hmark] at ho
      cases ho
    | ok marked =>
      obtain ⟨i, j, hmarked⟩ := exists_markAt_of_markKey hmark
      refine .same ?_ (fun k => ?_) fun hplace => ⟨hplace, ?_, ?_⟩
      · simp only [hmarked, identifiers_markAt]
      · simp only [hmarked, columnNames_markAt]
      · simp only [hmarked, openTable_markAt]
      · simp only [hmarked, openColumn_markAt]

/-- **What a token that is accepted does to the names.** -/
theorem growth_step (h : (step options state draft token).outcome = .ok next) :
    Growth draft (step options state draft token).draft state.place next.place := by
  obtain ⟨edit, ht, hp⟩ := exists_transition h
  rw [hp] at h ⊢
  exact ht.moves.grows h

/-! ### Extensions -/

/-- **A draft extends another** when all tables and columns of that one have kept their
places and their names in it. -/
structure Draft.Extends (draft draft' : Draft) : Prop where
  /-- New tables stand behind the old ones. -/
  identifiers : draft.identifiers <+: draft'.identifiers
  /-- In each table new columns stand behind the old ones. -/
  columnNames : ∀ i, draft.columnNames i <+: draft'.columnNames i

theorem Draft.Extends.refl (draft : Draft) : draft.Extends draft :=
  ⟨List.prefix_refl _, fun _ => List.prefix_refl _⟩

theorem Draft.Extends.trans (h : draft.Extends draft') (h' : draft'.Extends draft'') :
    draft.Extends draft'' :=
  ⟨h.identifiers.trans h'.identifiers, fun i => (h.columnNames i).trans (h'.columnNames i)⟩

theorem Growth.extends {p q : Place} (h : Growth draft draft' p q) : draft.Extends draft' := by
  have hsame : ∀ {names names' : List String}, names' = names → names <+: names' := by
    rintro names _ rfl
    exact List.prefix_refl _
  cases h with
  | same hi hc => exact ⟨hsame hi, fun k => hsame (hc k)⟩
  | table _ hi hc => exact ⟨by rw [hi]; exact List.prefix_append _ _, fun k => hsame (hc k)⟩
  | column _ _ hi hc =>
    refine ⟨hsame hi, fun k => ?_⟩
    rw [hc k]
    split
    next hk => rw [hk]; exact List.prefix_append _ _
    next => exact List.prefix_refl _

/-- **Reading extends the draft.** -/
theorem Leads.extends (h : Leads options state draft tokens last draft') :
    draft.Extends draft' := by
  induction tokens generalizing state draft with
  | nil =>
    obtain ⟨-, rfl⟩ := leads_nil.mp h
    exact .refl _
  | cons token tokens ih =>
    obtain ⟨s, hs, h⟩ := leads_cons.mp h
    exact (growth_step hs).extends.trans (ih h)

/-- The first table of an identifier stays where it is. -/
theorem Draft.Extends.idxOf_identifiers {identifier : String} (h : draft.Extends draft')
    (hmem : identifier ∈ draft.identifiers) :
    draft'.identifiers.idxOf identifier = draft.identifiers.idxOf identifier := by
  obtain ⟨more, hmore⟩ := h.identifiers
  rw [← hmore, List.idxOf_append, if_pos hmem]

/-- The first column of a name stays where it is. -/
theorem Draft.Extends.idxOf_columnNames {i : Nat} {name : String} (h : draft.Extends draft')
    (hmem : name ∈ draft.columnNames i) :
    (draft'.columnNames i).idxOf name = (draft.columnNames i).idxOf name := by
  obtain ⟨more, hmore⟩ := h.columnNames i
  rw [← hmore, List.idxOf_append, if_pos hmem]

end SqlCatalog
