import SqlCatalog.Proofs.Draft
import SqlCatalog.Proofs.Run

/-!
# The head of a statement

What stands in front of a column block: the words that declare a table, and its
identifier (`SqlCatalog.headTokens`). With the bracket behind it, it leads from
the idle state into the block of a new table, behind the tables there are
(`SqlCatalog.leads_headTokens`).
-/

namespace SqlCatalog

open Identifier

/-- **The tokens in front of a column block.** -/
def headTokens (isUnlogged ifNotExists : Bool) (identifier : String) : List String :=
  "create" :: ((if isUnlogged then ["unlogged"] else []) ++
    "table" :: ((if ifNotExists then ["if", "not", "exists"] else []) ++ [identifier]))

variable {options : Options} {identifier : String}

/-- An identifier in its place waits for what the statement does to its table. -/
theorem leads_identifier (h : isTableName identifier = true)
    (hne : identifier ∉ ["if", "only"]) (draft : Draft) :
    Leads options (.table .create) draft [identifier] (.tableName .create)
      (draft.stash identifier) := by
  obtain ⟨hif, honly⟩ : identifier ≠ "if" ∧ identifier ≠ "only" := by simpa using hne
  have hstep : step options (.table .create) draft identifier =
      Step.goto (.tableName .create) (draft.stash identifier) := by
    rw [step, readTable, if_neg hif, if_neg honly, readTableIdentifier, if_pos h]
  exact .single hstep

/-- **A head and a bracket begin a table.** -/
theorem leads_headTokens (isUnlogged ifNotExists : Bool) (h : isTableName identifier = true)
    (hne : identifier ∉ ["if", "only"]) (tables : List Table) :
    Leads options .idle { tables := tables } (headTokens isUnlogged ifNotExists identifier ++ ["("])
      .blockEntry (.inBlock tables (.ofIdentifier identifier) none) := by
  have hcreate : Leads options .idle { tables := tables }
      ("create" :: if isUnlogged then ["unlogged"] else []) .create { tables := tables } := by
    cases isUnlogged <;> exact ⟨rfl, rfl⟩
  have htable : Leads options .create { tables := tables }
      ("table" :: if ifNotExists then ["if", "not", "exists"] else []) (.table .create)
      { tables := tables } := by
    cases ifNotExists <;> exact ⟨rfl, rfl⟩
  have hbracket : Leads options (.tableName .create) (Draft.stash { tables := tables } identifier)
      ["("] .blockEntry (.inBlock tables (.ofIdentifier identifier) none) := ⟨rfl, rfl⟩
  have hall := hcreate.append (htable.append ((leads_identifier h hne _).append hbracket))
  simpa [headTokens] using hall

end SqlCatalog
