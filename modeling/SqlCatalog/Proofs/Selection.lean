import SqlCatalog.Catalog.Selection

/-!
# What a selection keeps

A selection leaves tables out and does nothing else: what it keeps stands in the order of the
declarations and is as it was declared (`SqlCatalog.kept_sublist`). A table that it keeps has
a primary key (`SqlCatalog.hasPrimaryKey_of_mem_finalize`) and a name that no other one has
(`SqlCatalog.nodup_names_finalize`).
-/

namespace SqlCatalog

variable {options : Options} {catalog : Catalog} {table : Table}

/-- **The tables kept** are some of the tables, unchanged and in their order. -/
theorem kept_sublist (options : Options) (seen : List String) (tables : List Table) :
    (selectFrom options seen tables).kept.Sublist tables := by
  induction tables generalizing seen with
  | nil => exact .slnil
  | cons table tables ih =>
    rw [selectFrom]
    split
    next => exact (ih seen).cons table
    next => exact (ih _).cons_cons table

/-- **The tables that go in** are those for which none of the three reasons stands. -/
theorem skipReason?_eq_none_iff {seen : List String} :
    skipReason? options seen table = none ↔
      (systemTables.contains table.name || options.ignores table.name) = false ∧
        table.hasPrimaryKey = true ∧ table.name ∉ seen := by
  rw [skipReason?]
  cases systemTables.contains table.name || options.ignores table.name with
  | true => simp
  | false => cases table.hasPrimaryKey <;> simp

theorem hasPrimaryKey_of_mem_kept {seen : List String} {tables : List Table}
    (h : table ∈ (selectFrom options seen tables).kept) : table.hasPrimaryKey = true := by
  induction tables generalizing seen with
  | nil => cases h
  | cons first tables ih =>
    rw [selectFrom] at h
    split at h
    next => exact ih h
    next hskip =>
      rcases List.mem_cons.mp h with rfl | h
      · exact (skipReason?_eq_none_iff.mp hskip).2.1
      · exact ih h

/-- **The tables kept have names of their own**, and none that is taken. -/
theorem nodup_names_kept (options : Options) (seen : List String) (tables : List Table) :
    ((selectFrom options seen tables).kept.map (·.name)).Nodup ∧
      ∀ table ∈ (selectFrom options seen tables).kept, table.name ∉ seen := by
  induction tables generalizing seen with
  | nil => exact ⟨.nil, nofun⟩
  | cons first tables ih =>
    rw [selectFrom]
    split
    next => exact ih seen
    next hskip =>
      -- behind the first table its name is taken
      obtain ⟨hnodup, hfresh⟩ := ih (first.name :: seen)
      rw [List.map_cons, List.nodup_cons, List.forall_mem_cons]
      refine ⟨⟨fun hmem => ?_, hnodup⟩, (skipReason?_eq_none_iff.mp hskip).2.2,
        fun table htable hseen => hfresh table htable (List.mem_cons_of_mem _ hseen)⟩
      obtain ⟨table, htable, hname⟩ := List.mem_map.mp hmem
      exact hfresh table htable (hname ▸ List.mem_cons_self)

/-- **Only the names and the keys matter**: a change of tables that leaves them alone can as well
be made behind the selection. -/
theorem kept_map {f : Table → Table} (hname : ∀ table, (f table).name = table.name)
    (hkey : ∀ table, (f table).hasPrimaryKey = table.hasPrimaryKey) (seen : List String)
    (tables : List Table) :
    (selectFrom options seen (tables.map f)).kept =
      (selectFrom options seen tables).kept.map f := by
  induction tables generalizing seen with
  | nil => rfl
  | cons table tables ih =>
    have hreason : skipReason? options seen (f table) = skipReason? options seen table := by
      rw [skipReason?, skipReason?, hname, hkey]
    rw [List.map_cons, selectFrom, selectFrom, hreason]
    split
    · exact ih seen
    · rw [List.map_cons, ← ih, hname]

/-- A table of the catalog that is selected is one of the catalog that is declared. -/
theorem mem_of_mem_finalize (h : table ∈ (catalog.finalize options).tables) :
    table ∈ catalog.tables :=
  (kept_sublist options [] catalog.tables).subset h

/-- **A table that is selected has a primary key.** -/
theorem hasPrimaryKey_of_mem_finalize (h : table ∈ (catalog.finalize options).tables) :
    table.hasPrimaryKey = true :=
  hasPrimaryKey_of_mem_kept h

/-- **No two tables that are selected share a name.** -/
theorem nodup_names_finalize (options : Options) (catalog : Catalog) :
    ((catalog.finalize options).tables.map (·.name)).Nodup :=
  (nodup_names_kept options [] catalog.tables).1

end SqlCatalog
