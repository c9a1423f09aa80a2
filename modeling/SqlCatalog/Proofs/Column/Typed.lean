import SqlCatalog.Proofs.ColumnType
import SqlCatalog.Proofs.FieldType
import SqlCatalog.Proofs.Origin

/-!
# Columns have types that are mapped

A column is added before its type is read, so for one token it has none. In a catalog no
column is left like this, since every column stands in front of its type in the dump
(`SqlCatalog.Declared`), and what is left to say is about types alone. Both the rules that read
types and the table of field types look at a type without its array marks, and they go by lists
that are apart: only a type of the user may be missing in the table
(`SqlCatalog.IsElement.accepts`).
-/

namespace SqlCatalog

variable {options : Options} {element : String} {column : Column}

/-! ### Types that are mapped -/

/-- The built-in types are in the table of field types. -/
theorem mem_fieldTypes : ∀ element ∈ scalarTypes ++ ["character", "timestamp", "time", "double"],
    element ∈ fieldTypes.map (·.dataType) := by
  decide

/-- **A type that is not in the table** is one of the user. -/
theorem IsElement.accepts (h : IsElement options element)
    (hn : element ∉ fieldTypes.map (·.dataType)) : options.accepts element = true := by
  rcases h with h | h | h
  · exact absurd (mem_fieldTypes element (List.mem_append_left _ h)) hn
  · exact absurd (mem_fieldTypes element (List.mem_append_right _ h)) hn
  · exact h

/-- **A column that is not mapped** has elements that are not in the table: a time zone is no
reason. -/
theorem Column.element_not_mem (h : column.fieldType? = none) :
    ArrayMark.element column.dataType ∉ fieldTypes.map (·.dataType) := by
  intro hmem
  refine Column.fieldType?_eq_none_iff.mp h ?_
  simp only [Column.mappedType]
  split
  · decide
  · exact hmem

/-- Without types of the user no type is one. -/
theorem Options.accepts_of_empty (h : options.customTypes = NameSet.empty) (element : String) :
    options.accepts element = false := by
  rw [accepts, h]
  rfl

/-! ### Catalogs -/

/-- Every column that is declared has the type of some token. -/
theorem Declared.exists_type {tokens : List String} {tables : List Table} {table : Table}
    (h : Declared options tokens tables) (ht : table ∈ tables) (hc : column ∈ table.columns) :
    ∃ token type, ColumnType.ofToken? options token = some type ∧ type.name = column.dataType := by
  obtain ⟨declarations, -, htables⟩ := h
  obtain ⟨declaration, -, htable⟩ := exists_of_forall₂ htables ht
  obtain ⟨place, -, hcolumn⟩ := exists_of_forall₂ htable.columns hc
  obtain ⟨type, htype, hname⟩ := Option.map_eq_some_iff.mp hcolumn.dataType
  obtain ⟨token, -, htype⟩ := Option.bind_eq_some_iff.mp htype
  exact ⟨token, type, htype, hname⟩

/-- **Every column is typed and mapped.** In a catalog that a dump is read to, the type of each
column is that of its elements with some array marks behind it. The elements are of a built-in
type or of one of the user, and the column is mapped unless they are of one of the user that is
not in the table of field types. For all columns, the field type where null is allowed is the
option of what it is otherwise. -/
theorem columnsAreTyped (options : Options) :
    (∀ dump catalog, (parse options dump).result = .ok catalog → ∀ table ∈ catalog.tables,
      ∀ column ∈ table.columns, ∃ element n,
        column.dataType = element ++ ArrayMark.marks n ∧ IsElement options element ∧
        (column.fieldType? = none →
          options.accepts element = true ∧ element ∉ fieldTypes.map (·.dataType)) ∧
        (options.customTypes = NameSet.empty → column.fieldType?.isSome = true)) ∧
    ∀ column : Column, { column with isNotNull := false }.fieldType? =
      { column with isNotNull := true }.fieldType?.map fun field => "Option<" ++ field ++ ">" := by
  refine ⟨fun dump catalog h table ht column hc => ?_, Column.fieldType?_nullable⟩
  obtain ⟨draft, hl, rfl⟩ := exists_leads_of_result h
  obtain ⟨token, type, htype, hname⟩ :=
    (hl.witnessed.declared nofun).exists_type (mem_of_mem_finalize ht) hc
  have helement := isElement_of_ofToken? htype
  rw [hname] at helement
  have hnone : column.fieldType? = none →
      options.accepts (ArrayMark.element column.dataType) = true ∧
        ArrayMark.element column.dataType ∉ fieldTypes.map (·.dataType) :=
    fun hn => ⟨helement.accepts (Column.element_not_mem hn), Column.element_not_mem hn⟩
  obtain ⟨n, hmarks⟩ := ArrayMark.exists_marks column.dataType
  refine ⟨_, n, hmarks, helement, hnone, fun hempty => ?_⟩
  rw [Option.isSome_iff_ne_none]
  intro hn
  have haccepts := (hnone hn).1
  rw [Options.accepts_of_empty hempty] at haccepts
  cases haccepts

/-- A column of a type of the user that is not mapped; and a column of arrays of arrays, where
there are no such types. -/
theorem columnsAreTyped_of_citext :
    let options := Options.acceptType {} "citext"
    let dump := Text.bytesOf "CREATE TABLE t (id citext[] PRIMARY KEY);".toList
    let dump' := Text.bytesOf "CREATE TABLE t (id int[][] PRIMARY KEY);".toList
    (∃ catalog, (parse options dump).result = .ok catalog ∧ ∃ table ∈ catalog.tables,
      ∃ column ∈ table.columns, column.fieldType? = none ∧ ∃ element n,
        column.dataType = element ++ ArrayMark.marks n ∧ options.accepts element = true) ∧
    ∃ catalog, (parse {} dump').result = .ok catalog ∧ ∃ table ∈ catalog.tables,
      ∃ column ∈ table.columns, column.dataType = "int" ++ ArrayMark.marks 2 ∧
        column.fieldType?.isSome = true := by
  intro options dump dump'
  have hdump : (parse options dump).result =
      .ok ⟨[⟨"t", "t", none, [⟨"id", "citext[]", "", true, true, false⟩]⟩]⟩ :=
    (congrArg Outcome.result (parse_of_isCalm (by decide))).trans rfl
  have hdump' : (parse {} dump').result =
      .ok ⟨[⟨"t", "t", none, [⟨"id", "int[][]", "", true, true, false⟩]⟩]⟩ :=
    (congrArg Outcome.result (parse_of_isCalm (by decide))).trans rfl
  have hnone : Column.fieldType? ⟨"id", "citext[]", "", true, true, false⟩ = none := rfl
  obtain ⟨element, n, htype, -, haccepts, -⟩ :=
    (columnsAreTyped options).1 dump _ hdump _ List.mem_cons_self _ List.mem_cons_self
  obtain ⟨-, -, -, -, -, hsome⟩ :=
    (columnsAreTyped {}).1 dump' _ hdump' _ List.mem_cons_self _ List.mem_cons_self
  exact ⟨⟨_, hdump, _, List.mem_cons_self, _, List.mem_cons_self, hnone, element, n, htype,
    (haccepts hnone).1⟩, _, hdump', _, List.mem_cons_self, _, List.mem_cons_self, rfl,
    hsome rfl⟩

end SqlCatalog
