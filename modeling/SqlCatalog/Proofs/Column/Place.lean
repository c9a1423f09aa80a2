import SqlCatalog.Proofs.Column.Spelling
import SqlCatalog.Proofs.Parse
import SqlCatalog.Proofs.Reach

/-!
# The place of a column type in a dump

What a type does to a schema can be told for the type alone when the dump around it is held
fixed. A dump, its noise left out, *shows* a text between some bytes and others
(`SqlCatalog.Shows`), and the bytes in front are a *place for a type*
(`SqlCatalog.TypePlace`) when they end in the name of a column, at the head of an entry of a
column block, and in a blank. The tokens of such a dump are those of its three parts
(`SqlCatalog.TypePlace.tokensOf_eq`), and those of the first part lead to a draft that is known
but for the type (`SqlCatalog.TypePlace.typed`).

The bytes need not be a text, and the noise in the dump may be any. A dump without noise shows the
text that stands in it (`SqlCatalog.shows_of_isCalm`).
-/

namespace SqlCatalog

open Text Noise Token Draft Identifier

/-! ### Dumps and the texts in them -/

/-- **A dump shows a text** between some bytes and others when these are left of it, put together,
without its noise. -/
def Shows (dump front : List UInt8) (text : List Char) (rest : List UInt8) : Prop :=
  strip dump = front ++ bytesOf text ++ rest

/-- A calm text is left as it is. -/
theorem strip_bytesOf_of_isCalm {text : List Char} (h : IsCalm text) :
    strip (bytesOf text) = bytesOf text := by
  have hstrip := h.stripFrom_append []
  rw [List.append_nil, List.map_nil, stripFrom_nil, List.append_nil] at hstrip
  rw [strip, piecesOf, decode_bytesOf]
  exact congrArg encode hstrip

/-- **A dump that is a calm text** shows every part of it. -/
theorem shows_of_isCalm {front text rest : List Char} (h : IsCalm (front ++ text ++ rest)) :
    Shows (bytesOf (front ++ text ++ rest)) (bytesOf front) text (bytesOf rest) := by
  rw [Shows, strip_bytesOf_of_isCalm h, bytesOf_append, bytesOf_append]

/-! ### Outcomes -/

/-- A catalog, unless a token is rejected. -/
def resultUnless (fault? : Option String) (catalog : Catalog) : Except Error Catalog :=
  match fault? with
  | some token => .error (.unexpectedToken token)
  | none => .ok catalog

/-- **A rejected token** is the outcome, whatever stands behind it. -/
theorem result_of_rejected {options : Options} {state : State} {draft : Draft}
    {tokens : List String} {token : String} (h : Leads options .idle {} tokens state draft)
    (hstep : step options state draft token = Step.unexpected token draft) (more : List String) :
    (parseTokens options (tokens ++ token :: more)).result = .error (.unexpectedToken token) :=
  result_parseTokens_of_error (h.outcome_of_rejected (by rw [hstep]; rfl))

/-! ### Places -/

/-- **A place for a type**: bytes that lead to the head of an entry and name a column there. -/
structure TypePlace (options : Options) (front : List UInt8) where
  /-- The tokens in front of the name. -/
  tokens : List String
  /-- The name. -/
  name : String
  /-- The tables declared in front of the one that is open. -/
  tables : List Table
  /-- The open table. -/
  table : Table
  /-- The column that was read last, if there was one. -/
  last : Option Nat
  /-- The bytes end in a blank. -/
  endsInBlank : EndsInBlank front
  /-- Their tokens end in the name. -/
  tokenize_eq : tokenize front = tokens ++ [name]
  /-- It names a column. -/
  isColumnHead : IsColumnHead name
  /-- The tokens in front of it lead to the head of an entry. -/
  leads : Leads options .idle {} tokens .blockEntry (inBlock tables table last)

namespace TypePlace

variable {options : Options} {dump front rest : List UInt8} {text : List Char} {token : String}
  {type : ColumnType} {state : State}

/-- The column as it is named. -/
def column (place : TypePlace options front) : Column :=
  Column.ofIdentifier place.name

/-- **The draft behind a type**: the column is being read. -/
def typed (place : TypePlace options front) (dataType typeOptions : String) : Draft :=
  onColumn place.tables place.table place.table.columns
    { place.column with dataType, typeOptions }

variable (place : TypePlace options front)

/-- **The first token of a type** leads to its family. -/
theorem leads_type (h : ColumnType.ofToken? options token = some type) :
    Leads options .idle {} (tokenize front ++ [token]) type.family.state
      (place.typed type.name type.modifier) := by
  have hhead : Leads options .blockEntry (inBlock place.tables place.table place.last)
      [place.name, token] type.family.state (place.typed type.name type.modifier) :=
    leads_columnHead place.isColumnHead h (pushColumn?_inBlock ..) (modifyColumn?_onColumn ..)
  have hall := place.leads.append hhead
  rwa [place.tokenize_eq, List.append_assoc]

/-- **A type word** with a modifier in its token or without one. -/
theorem leads_typeWord {word : List Char} {family : TypeFamily} (hword : IsTypeWord word)
    (suffix : List Char) (hsuffix : ∀ c ∈ suffix.head?, c = '(')
    (hfamily : ColumnType.family? options (ColumnType.elementOf (wordToken word))
      (wordToken suffix) = some family) :
    Leads options .idle {} (tokenize front ++ [wordToken (word ++ suffix)]) family.state
      (place.typed (normalize (wordToken word)) (wordToken suffix)) := by
  have htype := ColumnType.ofToken?_typeWord options hword suffix hsuffix
  rw [hfamily] at htype
  exact place.leads_type htype

/-- **More tokens of the type**, which change the type options. -/
theorem leads_typeOptions {next : State} {tokens tail : List String}
    {dataType typeOptions typeOptions' : String} {change : Column → Column}
    (h : Leads options .idle {} tokens state (place.typed dataType typeOptions))
    (hchange : Changes options state tail next change)
    (htext : ∀ column : Column, change { column with typeOptions := typeOptions } =
      { column with typeOptions := typeOptions' }) :
    Leads options .idle {} (tokens ++ tail) next (place.typed dataType typeOptions') := by
  have hcolumn := htext { place.column with dataType }
  have hreads := hchange _ _ (modifyColumn?_onColumn place.tables place.table place.table.columns
    { place.column with dataType, typeOptions } change)
  rw [hcolumn] at hreads
  exact h.append hreads

include place in
/-- **The tokens of a dump** with a text in the place. -/
theorem tokensOf_eq (h : Shows dump front text rest) (hpaired : IsPaired text)
    (hrest : EndsWord rest) : tokensOf dump = tokenize front ++ ofText text ++ tokenize rest := by
  rw [tokensOf, h, tokenize_between place.endsInBlank hpaired hrest]

end TypePlace

/-! ### A place in a small dump -/

/-- A table with a key, and the name of its second column. -/
def sampleFront : List Char :=
  "CREATE TABLE t (id integer PRIMARY KEY, c ".toList

/-- **The place of a second column.** -/
def samplePlace : TypePlace {} (bytesOf sampleFront) where
  tokens := ["create", "table", "t", "(", "id", "integer", "primary", "key", ","]
  name := "c"
  tables := []
  table := ⟨"t", "t", none, [⟨"id", "integer", "", true, true, false⟩]⟩
  last := some 0
  endsInBlank := ⟨(bytesOf sampleFront).dropLast, 0x20, by decide, rfl⟩
  tokenize_eq := (tokenize_bytesOf sampleFront).trans rfl
  isColumnHead := by decide
  leads := ⟨rfl, rfl⟩

end SqlCatalog
