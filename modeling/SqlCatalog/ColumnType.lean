import SqlCatalog.ArrayMark
import SqlCatalog.Options

/-!
# Column types

The token behind the name of a column says what type the column has. It is a
type name, perhaps with a schema in front and a modifier in brackets behind,
such as `integer`, `varchar(10)`, `public.citext` or `text[]`.

Not every type ends with its token. The *family* of a type
(`SqlCatalog.TypeFamily`) says what may or must follow before the type is
complete.
-/

namespace SqlCatalog

open Identifier

/-- **The built-in types of one token**, each with or without array marks. -/
def scalarTypes : List String :=
  ["smallint", "integer", "int", "int2", "int4", "int8", "bigint", "smallserial", "serial",
   "bigserial", "serial2", "serial4", "serial8", "bit", "varbit", "boolean", "bool", "numeric",
   "decimal", "real", "float", "float4", "float8", "money", "bytea", "json", "jsonb", "text",
   "varchar", "char", "bpchar", "uuid", "date", "timestamptz", "timetz"]

/-- **The families of types**, by what follows the first token. -/
inductive TypeFamily where
  /-- Nothing: the type is complete. -/
  | scalar
  /-- The word `varying`, or a length. -/
  | character
  /-- Perhaps `with time zone` or `without time zone`. -/
  | clock
  /-- The word `precision`. -/
  | double
deriving DecidableEq, Repr

/-- **A type as its first token gives it.** -/
structure ColumnType where
  /-- The type name in normal form, array marks included. -/
  name : String
  /-- The modifier, from its bracket on; empty if there is none. -/
  modifier : String
  /-- What has to follow. -/
  family : TypeFamily
deriving DecidableEq, Repr

namespace ColumnType

/-- A token cut in front of its first bracket. -/
def cutModifier (token : String) : String × String :=
  let cs := token.toList
  (String.ofList (cs.takeWhile (· != '(')), String.ofList (cs.dropWhile (· != '(')))

/-- The family of a type, by the name of its elements and its modifier; `none`
for a type that is not known. -/
def family? (options : Options) (element modifier : String) : Option TypeFamily :=
  if element = "character" then some (if modifier = "" then .character else .scalar)
  else if element = "timestamp" ∨ element = "time" then some .clock
  else if element = "double" ∧ modifier = "" then some .double
  else if scalarTypes.contains element || options.accepts element then some .scalar
  else none

/-- **The type that a token gives**; `none` if it gives none. -/
def ofToken? (options : Options) (token : String) : Option ColumnType :=
  let (base, modifier) := cutModifier token
  let name := normalize base
  (family? options (ArrayMark.element name) modifier).map fun family => ⟨name, modifier, family⟩

end ColumnType

end SqlCatalog
