import Mathlib.Data.List.Nodup
import SqlCatalog.Proofs.Catalog.Names

/-!
# Lookups in a catalog

A table is looked up by its name or by its identifier, and the first one that has either is
found. Names and identifiers might get into each other's way: the identifier of one table might
be the name of another, and tables of different schemas might share their names.

In the catalog of a dump none of this happens. Read as an identifier, a key names the table that
it finds, be it the name of that table or its identifier
(`SqlCatalog.Table.IsNamed.name_of_isKey`); and no two tables that are selected share a name. So
a lookup finds the one table that has the key (`SqlCatalog.lookup_is_exact`).
-/

namespace SqlCatalog

open Identifier Text

/-- **A key of a table**: its name or its identifier. -/
def Table.IsKey (table : Table) (key : String) : Prop :=
  table.name = key ∨ table.rawIdentifier = key

instance (table : Table) (key : String) : Decidable (table.IsKey key) :=
  inferInstanceAs (Decidable (_ ∨ _))

variable {options : Options} {dump : List UInt8} {catalog : Catalog} {table : Table}
  {key : String}

/-- **A lookup by a key that no two tables share** finds a table if and only if the table is
there and has the key. -/
theorem table?_eq_some_iff
    (hunique : ∀ t ∈ catalog.tables, ∀ u ∈ catalog.tables, t.IsKey key → u.IsKey key → t = u) :
    catalog.table? key = some table ↔ table ∈ catalog.tables ∧ table.IsKey key := by
  have hkey : ∀ table : Table,
      (table.name == key || table.rawIdentifier == key) = true ↔ table.IsKey key := by
    intro table
    rw [Bool.or_eq_true, beq_iff_eq, beq_iff_eq, Table.IsKey]
  rw [Catalog.table?]
  constructor
  · intro h
    have hk := List.find?_some h
    exact ⟨List.mem_of_find?_eq_some h, (hkey table).mp hk⟩
  · rintro ⟨ht, hk⟩
    cases hfind : catalog.tables.find? _ with
    | none => exact absurd ((hkey table).mpr hk) (List.find?_eq_none.mp hfind table ht)
    | some found =>
      have hf := List.find?_some hfind
      rw [hunique found (List.mem_of_find?_eq_some hfind) table ht ((hkey found).mp hf) hk]

/-- **The table that a plain identifier names** has it for name. -/
theorem ofIdentifier_of_isPlain {name : String} (h : isPlain name.toList = true) :
    Table.ofIdentifier name = ⟨name, name, none, []⟩ := by
  rw [Table.ofIdentifier, cutFirst?_of_not_mem (not_mem_of_isPlain h rfl), unquote_of_isPlain h]

/-- **Read as an identifier, a key names its table**, whichever of the two it is: a name is plain,
so it has no schema to split off and no quotes to drop. -/
theorem Table.IsNamed.name_of_isKey (h : table.IsNamed) (hk : table.IsKey key) :
    (Table.ofIdentifier key).name = table.name := by
  rcases hk with rfl | rfl
  · rw [ofIdentifier_of_isPlain h.spells.2.2]
  · exact h.name.symm

/-- **No key has two tables** in the catalog of a dump. -/
theorem eq_of_isKey {other : Table} (h : (parse options dump).result = .ok catalog)
    (ht : table ∈ catalog.tables) (ho : other ∈ catalog.tables) (hk : table.IsKey key)
    (hko : other.IsKey key) : table = other := by
  have hname : table.name = other.name :=
    ((isNamed_of_parse h ht).name_of_isKey hk).symm.trans
      ((isNamed_of_parse h ho).name_of_isKey hko)
  obtain ⟨draft, -, rfl⟩ := exists_leads_of_result h
  exact List.inj_on_of_nodup_map (nodup_names_finalize options _) ht ho hname

/-- **Lookups in the catalog of a dump are exact.** A lookup finds a table if and only if the
table is in the catalog and the key is its name or its identifier; so both of these find the
table itself. And the identifier of a table determines its name and its schema. -/
theorem lookup_is_exact (h : (parse options dump).result = .ok catalog) :
    (∀ key table, catalog.table? key = some table ↔
      table ∈ catalog.tables ∧ (table.name = key ∨ table.rawIdentifier = key)) ∧
    ∀ table ∈ catalog.tables,
      catalog.table? table.name = some table ∧
      catalog.table? table.rawIdentifier = some table ∧
      table.name = (Table.ofIdentifier table.rawIdentifier).name ∧
      table.schema = (Table.ofIdentifier table.rawIdentifier).schema := by
  have hlookup : ∀ key table, catalog.table? key = some table ↔
      table ∈ catalog.tables ∧ table.IsKey key := fun _ _ =>
    table?_eq_some_iff fun _ ht _ hu hk hku => eq_of_isKey h ht hu hk hku
  refine ⟨hlookup, fun table ht => ?_⟩
  have hnamed := isNamed_of_parse h ht
  exact ⟨(hlookup _ table).mpr ⟨ht, Or.inl rfl⟩, (hlookup _ table).mpr ⟨ht, Or.inr rfl⟩,
    hnamed.name, hnamed.schema⟩

/-- A table in a schema and one in quotes, each found by its name and by its identifier. The
name of the first one in another schema finds nothing. -/
theorem lookup_is_exact_beside_quoted :
    let text :=
      "CREATE TABLE a.t (k int PRIMARY KEY);CREATE TABLE \x22u\x22 (k int PRIMARY KEY);".toList
    let key : Column := { name := "k", dataType := "int", isNotNull := true, isPrimaryKey := true }
    let t : Table := ⟨"a.t", "t", some "a", [key]⟩
    let u : Table := ⟨"\x22u\x22", "u", none, [key]⟩
    let catalog : Catalog := ⟨[t, u]⟩
    (parse {} (bytesOf text)).result = .ok catalog ∧
      catalog.table? "t" = some t ∧ catalog.table? "a.t" = some t ∧
      catalog.table? "u" = some u ∧ catalog.table? "\x22u\x22" = some u ∧
      t.schema = (Table.ofIdentifier "a.t").schema ∧
      ∀ table, catalog.table? "b.t" ≠ some table := by
  intro text key t u catalog
  have htokens : Token.ofText text = ["create", "table", "a.t", "(", "k", "int", "primary", "key",
      ")", ";", "create", "table", "\x22u\x22", "(", "k", "int", "primary", "key", ")", ";"] := rfl
  have hparse : (parse {} (bytesOf text)).result = .ok catalog := by
    rw [parse_of_isCalm (by decide), htokens]
    rfl
  obtain ⟨hlookup, htables⟩ := lookup_is_exact hparse
  obtain ⟨ht, htId, -, hschema⟩ := htables t (by decide)
  obtain ⟨hu, huId, -, -⟩ := htables u (by decide)
  refine ⟨hparse, ht, htId, hu, huId, hschema, fun table h => ?_⟩
  have hnone : ∀ table ∈ [t, u], ¬table.IsKey "b.t" := by decide
  obtain ⟨hmem, hkey⟩ := (hlookup "b.t" table).mp h
  exact hnone table hmem hkey

end SqlCatalog
