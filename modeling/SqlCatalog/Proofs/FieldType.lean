import SqlCatalog.FieldType

/-!
# What the field-type table says

The table of field types has a column for types that may be null, and it could hold anything.
It holds the option of the field type next to it (`SqlCatalog.nullable_eq`), so that the field
type of a column that may be null is the option of what it would be otherwise
(`SqlCatalog.Column.fieldType?_nullable`), for arrays as for single values. The other column of
the table has no options in it, and a column that is never null has a field type that is none
(`SqlCatalog.Column.not_option_of_isNotNull`).
-/

namespace SqlCatalog

/-- What the field type of a value that may be null begins with. -/
def optionOpening : String := "Option<"

/-- The field type of a value that may be null. -/
def optionOf (field : String) : String :=
  optionOpening ++ field ++ ">"

/-- The field type of arrays of values. -/
def vectorOf (field : String) : String :=
  "Vec<" ++ field ++ ">"

/-! ### Texts in texts -/

theorem occursIn_iff {part text : List Char} : occursIn part text = true ↔ part <:+: text := by
  induction text with
  | nil => rw [occursIn, List.isEmpty_iff, List.infix_nil]
  | cons c text ih =>
    rw [occursIn, Bool.or_eq_true, List.isPrefixOf_iff_prefix, ih, List.infix_cons_iff]

/-- A text stands in another one if it does so with more behind that, where its last character is
not. -/
theorem occursIn_append {part text more : List Char} {c : Char} (h : part.getLast? = some c)
    (hc : c ∉ more) : occursIn part (text ++ more) = occursIn part text := by
  rw [Bool.eq_iff_iff, occursIn_iff, occursIn_iff]
  refine ⟨?_, fun hin => hin.trans (List.prefix_append text more).isInfix⟩
  rintro ⟨front, rest, heq⟩
  rcases List.append_eq_append_iff.mp heq with ⟨behind, htext, -⟩ | ⟨beyond, hpart, hmore⟩
  · exact ⟨front, behind, htext.symm⟩
  · -- what goes over the end of the text would hold the last character
    cases hbeyond : beyond.getLast? with
    | none =>
      rw [List.getLast?_eq_none_iff.mp hbeyond, List.append_nil] at hpart
      exact ⟨front, [], by rw [List.append_nil, hpart]⟩
    | some d =>
      have hlast := congrArg List.getLast? hpart
      rw [List.getLast?_append, List.getLast?_append, h, hbeyond] at hlast
      obtain rfl : c = d := Option.some.inj hlast
      exact absurd (hmore ▸ List.mem_append_left rest (List.mem_of_getLast? hbeyond)) hc

/-! ### Rows -/

/-- **Where null is allowed the table has the option of the field type.** -/
theorem nullable_eq : ∀ row ∈ fieldTypes, row.nullable = optionOf row.field := by
  decide

/-- No field type in the table is an option. -/
theorem field_not_option : ∀ row ∈ fieldTypes, ¬optionOpening.toList <+: row.field.toList := by
  decide

/-- A vector is no option. -/
theorem vec_not_option (field : String) : ¬optionOpening.toList <+: (vectorOf field).toList := by
  rw [vectorOf, String.toList_append, String.toList_append]
  rintro ⟨rest, h⟩
  cases h

/-- It is the vector that may be null, not its elements. -/
theorem optionOf_vec (field : String) :
    "Option<Vec<" ++ field ++ ">>" = optionOf (vectorOf field) := by
  have hopening : "Option<Vec<" = optionOpening ++ "Vec<" := rfl
  have hclosing : ">>" = ">" ++ ">" := rfl
  simp only [optionOf, vectorOf, hopening, hclosing, String.append_assoc]

namespace Column

variable {column : Column}

/-! ### Columns -/

/-- A column is not mapped when its type is not in the table. -/
theorem fieldType?_eq_none_iff :
    column.fieldType? = none ↔ column.mappedType ∉ fieldTypes.map (·.dataType) := by
  rw [fieldType?, Option.map_eq_none_iff, List.find?_eq_none]
  simp only [beq_iff_eq, List.mem_map, not_exists, not_and]

/-- **The field type of a column that may be null** is the option of what it would be
otherwise. -/
theorem fieldType?_nullable (column : Column) :
    { column with isNotNull := false }.fieldType? =
      { column with isNotNull := true }.fieldType?.map optionOf := by
  have hmapped : { column with isNotNull := false }.mappedType =
      { column with isNotNull := true }.mappedType := rfl
  have harray : { column with isNotNull := false }.isArray =
      { column with isNotNull := true }.isArray := rfl
  rw [fieldType?, fieldType?, hmapped, harray, Option.map_map]
  refine Option.map_congr fun row hrow => ?_
  have hrow := nullable_eq row (List.mem_of_find?_eq_some hrow)
  rw [Function.comp_apply]
  cases { column with isNotNull := true }.isArray with
  | false => exact hrow
  | true => exact optionOf_vec row.field

/-- **The field type of a column that is never null** is no option. -/
theorem not_option_of_isNotNull (h : column.isNotNull = true) {field : String}
    (hf : column.fieldType? = some field) : ¬optionOpening.toList <+: field.toList := by
  obtain ⟨row, hrow, rfl⟩ := Option.map_eq_some_iff.mp hf
  rw [h]
  cases column.isArray with
  | false => exact field_not_option row (List.mem_of_find?_eq_some hrow)
  | true => exact vec_not_option row.field

end Column

end SqlCatalog
