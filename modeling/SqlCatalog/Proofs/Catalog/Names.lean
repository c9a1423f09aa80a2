import SqlCatalog.Proofs.Names
import SqlCatalog.Proofs.Parse
import SqlCatalog.Proofs.Selection
import SqlCatalog.Proofs.Tables

/-!
# Names in a catalog

A dump may write a name with a double quote at either end, or at one end only, and a table with
a period behind the name of its schema (`SqlCatalog.SpellsTable`). A catalog has none of this:
the names of its tables, schemas and columns are plain identifiers, and what the dump wrote of
them is left in the identifier of the table alone (`SqlCatalog.names_are_plain`).

Three things come together. A reader takes no text for a name that is none
(`SqlCatalog.Reachable.isNamed`). A table that is declared takes its name and that of its schema
from its identifier, and keeps all three (`SqlCatalog.Table.isDeclared_of_run`). And what it
takes is plain if the identifier is a table name (`SqlCatalog.Table.IsNamed.spells`).
-/

namespace SqlCatalog

open Identifier Text

/-! ### Identifiers of tables -/

/-- **The texts that spell a table** of a name, behind that of a schema and a period if there is
one. -/
def SpellsTable (text : List Char) : Option (List Char) → List Char → Prop
  | none, name => Spells text name
  | some schema, name =>
    ∃ front back, text = front ++ '.' :: back ∧ Spells front schema ∧ Spells back name

section Spelling

variable {identifier : String} {schema : Option (List Char)} {name : List Char}

/-- **The table names** are the texts that spell a table of plain names. -/
theorem isTableName_iff :
    isTableName identifier = true ↔
      ∃ schema name, (∀ s, schema = some s → isPlain s = true) ∧ isPlain name = true ∧
        SpellsTable identifier.toList schema name := by
  rw [isTableName]
  constructor
  · intro h
    cases hcut : cutFirst? '.' identifier.toList with
    | none =>
      rw [hcut] at h
      obtain ⟨name, hn, hname⟩ := isName_iff.mp h
      exact ⟨none, name, nofun, hn, hname⟩
    | some parts =>
      obtain ⟨front, back⟩ := parts
      rw [hcut] at h
      obtain ⟨hfront, hback⟩ := Bool.and_eq_true_iff.mp h
      obtain ⟨schema, hs, hschema⟩ := isName_iff.mp hfront
      obtain ⟨name, hn, hname⟩ := isName_iff.mp hback
      refine ⟨some schema, name, ?_, hn, front, back, (eq_of_cutFirst? hcut).1, hschema, hname⟩
      rintro _ ⟨⟩
      exact hs
  · rintro ⟨schema, name, hs, hn, h⟩
    cases schema with
    | none =>
      rw [cutFirst?_of_not_mem (Spells.period_not_mem h hn)]
      exact isName_iff.mpr ⟨name, hn, h⟩
    | some schema =>
      obtain ⟨front, back, htext, hschema, hname⟩ := h
      rw [htext, cutFirst?_append (hschema.period_not_mem (hs schema rfl))]
      exact Bool.and_eq_true_iff.mpr
        ⟨isName_iff.mpr ⟨schema, hs schema rfl, hschema⟩, isName_iff.mpr ⟨name, hn, hname⟩⟩

/-- **The table that is spelled** has the name and the schema that are spelled. -/
theorem ofIdentifier_of_spellsTable (h : SpellsTable identifier.toList schema name)
    (hs : ∀ s, schema = some s → isPlain s = true) (hn : isPlain name = true) :
    Table.ofIdentifier identifier =
      ⟨identifier, String.ofList name, schema.map String.ofList, []⟩ := by
  rw [Table.ofIdentifier]
  cases schema with
  | none =>
    rw [cutFirst?_of_not_mem (Spells.period_not_mem h hn), unquote, Spells.dropQuotes_eq h hn]
    rfl
  | some schema =>
    obtain ⟨front, back, htext, hschema, hname⟩ := h
    rw [htext, cutFirst?_append (hschema.period_not_mem (hs schema rfl))]
    dsimp only
    rw [hschema.dropQuotes_eq (hs schema rfl), hname.dropQuotes_eq hn]
    rfl

end Spelling

/-! ### Tables that are declared -/

namespace Table

/-- **A table that is declared**: its identifier says what it is called. -/
structure IsDeclared (table : Table) : Prop where
  /-- Its name. -/
  name : table.name = (ofIdentifier table.rawIdentifier).name
  /-- Its schema. -/
  schema : table.schema = (ofIdentifier table.rawIdentifier).schema

variable {table table' : Table} {draft draft' : Draft}

theorem isDeclared_ofIdentifier (identifier : String) : (ofIdentifier identifier).IsDeclared := by
  constructor <;> rw [rawIdentifier_ofIdentifier]

theorem Grows.isDeclared (h : table.Grows table') (hd : table.IsDeclared) : table'.IsDeclared where
  name := by rw [h.name, h.rawIdentifier, hd.name]
  schema := by rw [h.schema, h.rawIdentifier, hd.schema]

/-- **What a run leaves behind is declared**, wherever it ends. -/
theorem isDeclared_of_run (options : Options) (state : State) (tokens : List String)
    (hd : ∀ table ∈ draft.tables, table.IsDeclared) :
    ∀ table ∈ (run options state draft tokens).draft.tables, table.IsDeclared := by
  refine run_keeps (P := fun d => ∀ table ∈ d.tables, table.IsDeclared) ?_ state hd
  intro state draft token hd table' ht
  obtain ⟨i, hi⟩ := List.getElem?_of_mem ht
  rcases (frame_step options state draft token).of_getElem? hi with
    ⟨table, hplace, hframe⟩ | ⟨identifier, -, rfl⟩
  · exact hframe.grows.isDeclared (hd table (List.mem_of_getElem? hplace))
  · exact isDeclared_ofIdentifier identifier

/-- **A table with proper names**: it is declared under a table name, and its columns have plain
names. -/
structure IsNamed (table : Table) : Prop extends table.IsDeclared where
  /-- The identifier. -/
  identifier : isTableName table.rawIdentifier = true
  /-- The names of the columns. -/
  columnNames : ∀ column ∈ table.columns, isPlain column.name.toList = true

/-- **What the identifier of such a table spells** is its schema and its name, and both are
plain. -/
theorem IsNamed.spells (h : table.IsNamed) :
    SpellsTable table.rawIdentifier.toList (table.schema.map String.toList) table.name.toList ∧
      (∀ schema, table.schema = some schema → isPlain schema.toList = true) ∧
      isPlain table.name.toList = true := by
  obtain ⟨schema, name, hs, hn, hspells⟩ := isTableName_iff.mp h.identifier
  have hof := ofIdentifier_of_spellsTable hspells hs hn
  have hname : table.name.toList = name := by rw [h.name, hof, String.toList_ofList]
  have hschema : table.schema.map String.toList = schema := by
    rw [h.schema, hof, Option.map_map]
    simp
  rw [hschema, hname]
  exact ⟨hspells, fun s hsome => hs s.toList (by rw [← hschema, hsome, Option.map_some]), hn⟩

end Table

/-! ### Catalogs -/

variable {options : Options} {dump : List UInt8} {catalog : Catalog} {table : Table}

/-- **The tables that a run declares have proper names**, wherever it has come to. -/
theorem isNamed_of_leads {state : State} {draft : Draft} {tokens : List String}
    (hl : Leads options .idle {} tokens state draft) (ht : table ∈ draft.tables) :
    table.IsNamed := by
  have hnamed : draft.IsNamed := Reachable.isNamed ⟨_, hl⟩
  have hdeclared : ∀ table ∈ draft.tables, table.IsDeclared := by
    rw [← hl.2]
    exact Table.isDeclared_of_run options .idle _ nofun
  obtain ⟨i, hi⟩ := List.getElem?_of_mem ht
  exact {
    hdeclared table ht with
    identifier := (hnamed.identifiers _ (List.mem_map_of_mem ht)).1
    columnNames := fun column hc => hnamed.columnNames i _ (by
      rw [Draft.columnNames_eq hi]
      exact List.mem_map_of_mem hc) }

/-- **The tables of a dump have proper names.** -/
theorem isNamed_of_parse (h : (parse options dump).result = .ok catalog)
    (ht : table ∈ catalog.tables) : table.IsNamed := by
  obtain ⟨draft, hl, rfl⟩ := exists_leads_of_result h
  exact isNamed_of_leads hl (mem_of_mem_finalize ht)

/-- **The names in a catalog are plain identifiers**: those of its tables, of their schemas and
of their columns, whatever the bytes of the dump. The identifier of a table is a table name, and
spells nothing but the two names of it. -/
theorem names_are_plain (h : (parse options dump).result = .ok catalog) :
    ∀ table ∈ catalog.tables,
      isPlain table.name.toList = true ∧
      (∀ schema, table.schema = some schema → isPlain schema.toList = true) ∧
      (∀ column ∈ table.columns, isPlain column.name.toList = true) ∧
      isTableName table.rawIdentifier = true ∧
      SpellsTable table.rawIdentifier.toList (table.schema.map String.toList)
        table.name.toList := by
  intro table ht
  have hnamed := isNamed_of_parse h ht
  obtain ⟨hspells, hschema, hname⟩ := hnamed.spells
  exact ⟨hname, hschema, hnamed.columnNames, hnamed.identifier, hspells⟩

/-- A table with a quote in front of its schema and one behind its name, a column with quotes
and one called `exclude`. -/
theorem names_are_plain_of_quoted :
    let dump := bytesOf
      "CREATE TABLE \x22App.Users\x22 (\x22Id\x22 int PRIMARY KEY, exclude int);".toList
    ∃ catalog, (parse {} dump).result = .ok catalog ∧
      ∃ table ∈ catalog.tables, table.rawIdentifier = "\x22app.users\x22" ∧
        table.schema = some "app" ∧ isPlain "app".toList = true ∧
        table.name = "users" ∧ isPlain table.name.toList = true ∧
        table.columns.map (·.name) = ["id", "exclude"] ∧
        (∀ column ∈ table.columns, isPlain column.name.toList = true) ∧
        isTableName table.rawIdentifier = true := by
  intro dump
  have hdump : (parse {} dump).result = .ok _ :=
    (congrArg Outcome.result (parse_of_isCalm (by decide))).trans rfl
  obtain ⟨hname, hschema, hcolumns, hidentifier, -⟩ :=
    names_are_plain hdump _ List.mem_cons_self
  exact ⟨_, hdump, _, List.mem_cons_self, rfl, rfl, hschema _ rfl, rfl, hname, rfl, hcolumns,
    hidentifier⟩

end SqlCatalog
