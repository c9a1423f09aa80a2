import SqlCatalog.Text.Letter

/-!
# Identifiers

The names of tables, columns and constraints. An identifier is *plain* when it
begins with a lower-case ASCII letter or an underscore and goes on with such
characters, digits and dollar signs; a token writes it with or without a double
quote at either end (`SqlCatalog.Identifier.isName`).

* A **table name** is one name or two with a period between them.
* A **column name** is one name, and a one-column key is written as a column
  name in brackets.
* A **primary-key name** is a name that ends in `_pkey` and has something in
  front of it.

Names are compared after double quotes are dropped, and the names that a user
of the library gives are cut down further, to the part behind the last period
and to lower case (`SqlCatalog.Identifier.normalize`).
-/

namespace SqlCatalog

namespace Identifier

open Text

/-- The mark that may enclose a name. -/
def doubleQuote : Char := '\x22'

/-! ### Shapes -/

/-- A character that may begin an identifier. -/
def isStart (c : Char) : Bool :=
  c.isLower || c == '_'

/-- A character that may follow in an identifier. -/
def isRest (c : Char) : Bool :=
  c.isLower || c.isDigit || c == '_' || c == '$'

/-- **A plain identifier.** -/
def isPlain : List Char → Bool
  | [] => false
  | c :: cs => isStart c && cs.all isRest

/-- A text without the double quote it begins with, if it does. -/
def dropOpening : List Char → List Char
  | [] => []
  | c :: cs => if c = doubleQuote then cs else c :: cs

/-- A text without the double quotes at its two ends, where there are any. -/
def dropEnds (text : List Char) : List Char :=
  (dropOpening (dropOpening text).reverse).reverse

/-- **A name**: a plain identifier, with a double quote allowed at either
end. -/
def isName (text : List Char) : Bool :=
  isPlain (dropEnds text)

/-- A text cut at the first place where `mark` stands, which is dropped; `none`
if it stands nowhere. -/
def cutFirst? (mark : Char) (text : List Char) : Option (List Char × List Char) :=
  match text.dropWhile (· != mark) with
  | [] => none
  | _ :: after => some (text.takeWhile (· != mark), after)

/-- **A table name**: a name, or two with a period between them. -/
def isTableName (token : String) : Bool :=
  match cutFirst? '.' token.toList with
  | none => isName token.toList
  | some (schema, name) => isName schema && isName name

/-- **A column name.** -/
def isColumnName (token : String) : Bool :=
  isName token.toList

/-- The ending of the names that primary keys are given. -/
def keyEnding : List Char := "_pkey".toList

/-- Whether a text ends in `_pkey` and has something in front of it. -/
def endsAsKey (text : List Char) : Bool :=
  keyEnding.length < text.length && keyEnding.isSuffixOf text

/-- **A primary-key name.** -/
def isKeyName (token : String) : Bool :=
  isName token.toList && endsAsKey (dropEnds token.toList)

/-- **A one-column key**: the column name that the token encloses in
brackets. -/
def keyColumn? (token : String) : Option String :=
  match token.toList with
  | [] => none
  | c :: cs =>
    if c = '(' ∧ cs.getLast? = some ')' ∧ isName cs.dropLast then some (String.ofList cs.dropLast)
    else none

/-! ### Values -/

/-- A text without its double quotes. -/
def dropQuotes (text : List Char) : List Char :=
  text.filter (· != doubleQuote)

/-- **The name that an identifier stands for**: its text without double
quotes. -/
def unquote (identifier : String) : String :=
  String.ofList (dropQuotes identifier.toList)

/-- The part of a text behind the last place where `mark` stands; all of it if
it stands nowhere. -/
def afterLast (mark : Char) (text : List Char) : List Char :=
  (text.reverse.takeWhile (· != mark)).reverse

/-- **The normal form of a name**: the part behind the last period, without
double quotes, in lower case. -/
def normalize (name : String) : String :=
  String.ofList (lower (dropQuotes (afterLast '.' name.toList)))

end Identifier

end SqlCatalog
