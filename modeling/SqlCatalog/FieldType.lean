import SqlCatalog.Catalog.Basic

/-!
# Field types

The type of a record field that can hold the values of a column. A table gives
it for each type of column, with the form it takes where a value may be null
(`SqlCatalog.fieldTypes`). Two things change what the table says:

* a `timestamp` with a time zone has the field type of `timestamptz`;
* a column of arrays has a field of vectors, and it is the vector that may be
  null, not its elements.
-/

namespace SqlCatalog

/-- **A row of the field-type table.** -/
structure FieldRow where
  /-- The column type. -/
  dataType : String
  /-- The field type. -/
  field : String
  /-- The field type where null is allowed. -/
  nullable : String
deriving DecidableEq, Repr

/-- **The field-type table.** -/
def fieldTypes : List FieldRow :=
  [⟨"smallint", "i16", "Option<i16>"⟩,
   ⟨"int2", "i16", "Option<i16>"⟩,
   ⟨"smallserial", "i16", "Option<i16>"⟩,
   ⟨"serial2", "i16", "Option<i16>"⟩,
   ⟨"integer", "i32", "Option<i32>"⟩,
   ⟨"int", "i32", "Option<i32>"⟩,
   ⟨"int4", "i32", "Option<i32>"⟩,
   ⟨"serial", "i32", "Option<i32>"⟩,
   ⟨"serial4", "i32", "Option<i32>"⟩,
   ⟨"bigint", "i64", "Option<i64>"⟩,
   ⟨"int8", "i64", "Option<i64>"⟩,
   ⟨"bigserial", "i64", "Option<i64>"⟩,
   ⟨"serial8", "i64", "Option<i64>"⟩,
   ⟨"bit", "Vec<u8>", "Option<Vec<u8>>"⟩,
   ⟨"varbit", "Vec<u8>", "Option<Vec<u8>>"⟩,
   ⟨"boolean", "bool", "Option<bool>"⟩,
   ⟨"bool", "bool", "Option<bool>"⟩,
   ⟨"numeric", "String", "Option<String>"⟩,
   ⟨"decimal", "String", "Option<String>"⟩,
   ⟨"money", "String", "Option<String>"⟩,
   ⟨"real", "f32", "Option<f32>"⟩,
   ⟨"float4", "f32", "Option<f32>"⟩,
   ⟨"float", "f64", "Option<f64>"⟩,
   ⟨"float8", "f64", "Option<f64>"⟩,
   ⟨"double", "f64", "Option<f64>"⟩,
   ⟨"bytea", "Vec<u8>", "Option<Vec<u8>>"⟩,
   ⟨"json", "Vec<u8>", "Option<Vec<u8>>"⟩,
   ⟨"jsonb", "Vec<u8>", "Option<Vec<u8>>"⟩,
   ⟨"text", "String", "Option<String>"⟩,
   ⟨"varchar", "String", "Option<String>"⟩,
   ⟨"char", "String", "Option<String>"⟩,
   ⟨"bpchar", "String", "Option<String>"⟩,
   ⟨"character", "String", "Option<String>"⟩,
   ⟨"uuid", "uuid::Uuid", "Option<uuid::Uuid>"⟩,
   ⟨"date", "chrono::NaiveDate", "Option<chrono::NaiveDate>"⟩,
   ⟨"time", "chrono::NaiveTime", "Option<chrono::NaiveTime>"⟩,
   ⟨"timetz", "chrono::NaiveTime", "Option<chrono::NaiveTime>"⟩,
   ⟨"timestamp", "chrono::NaiveDateTime", "Option<chrono::NaiveDateTime>"⟩,
   ⟨"timestamptz", "chrono::DateTime<chrono::Utc>", "Option<chrono::DateTime<chrono::Utc>>"⟩]

/-- Whether a text stands somewhere in another. -/
def occursIn (part : List Char) : List Char → Bool
  | [] => part.isEmpty
  | c :: cs => part.isPrefixOf (c :: cs) || occursIn part cs

/-- What the options of a `timestamp` say when it has a time zone. -/
def zoneWords : List Char := "with time zone".toList

/-- The column type to look up for a column: that of its elements, a time zone
counted. -/
def Column.mappedType (column : Column) : String :=
  let element := ArrayMark.element column.dataType
  if element = "timestamp" ∧ occursIn zoneWords column.typeOptions.toList then "timestamptz"
  else element

/-- **The field type of a column**; `none` for a column whose type is not in
the table. -/
def Column.fieldType? (column : Column) : Option String :=
  (fieldTypes.find? (·.dataType == column.mappedType)).map fun row =>
    match column.isArray, column.isNotNull with
    | false, true => row.field
    | false, false => row.nullable
    | true, true => "Vec<" ++ row.field ++ ">"
    | true, false => "Option<Vec<" ++ row.field ++ ">>"

end SqlCatalog
