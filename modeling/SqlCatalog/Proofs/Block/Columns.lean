import SqlCatalog.Proofs.Block.Layout
import SqlCatalog.Proofs.Column.Option

/-!
# Blocks of columns

Tokens may be read as a column in whichever block they stand
(`SqlCatalog.ReadsColumn`). A block of such entries is read entry by entry, and the
table then has their columns, in order, behind the columns it had
(`SqlCatalog.leads_blockTokens`).
-/

namespace SqlCatalog

variable {options : Options}

/-- **Tokens that are read as a column**: in any block they put it behind the columns
of the open table, and the definition may end behind them. -/
def ReadsColumn (options : Options) (tokens : List String) (column : Column) : Prop :=
  ∀ (tables : List Table) (table : Table) (place : Option Nat),
    ∃ inDefault last, IsOptionState inDefault last ∧
      Leads options .blockEntry (.inBlock tables table place) tokens last
        (.onColumn tables table table.columns column)

/-- **A block of columns is read**, and the statement ends behind it. -/
theorem leads_blockTokens (tables : List Table) {entries : List (List String × Column)}
    (hne : entries ≠ []) (h : ∀ entry ∈ entries, ReadsColumn options entry.1 entry.2)
    (table : Table) (place : Option Nat) :
    Leads options .blockEntry (.inBlock tables table place) (blockTokens (entries.map Prod.fst))
      .idle { tables := tables ++ [{ table with
        columns := table.columns ++ entries.map Prod.snd }] } := by
  induction entries generalizing table place with
  | nil => exact absurd rfl hne
  | cons entry entries ih =>
    obtain ⟨hentry, h⟩ := List.forall_mem_cons.mp h
    obtain ⟨inDefault, last, hlast, hcolumn⟩ := hentry tables table place
    obtain ⟨hcomma, hbracket⟩ := step_closer options
      (.onColumn tables table table.columns entry.2) hlast
    cases entries with
    | nil =>
      have hend : Leads options .blockEnd (.onColumn tables table table.columns entry.2) [";"] .idle
          { tables := tables ++ [{ table with columns := table.columns ++ [entry.2] }] } :=
        ⟨rfl, rfl⟩
      rw [List.map_singleton, blockTokens_singleton]
      exact hcolumn.append (.append (.single hbracket) hend)
    | cons next entries =>
      have hrest := ih (List.cons_ne_nil _ _) h
        { table with columns := table.columns ++ [entry.2] } (some table.columns.length)
      rw [List.append_assoc] at hrest
      simp only [List.map_cons, blockTokens_cons_cons] at hrest ⊢
      exact hcolumn.append (.append (.single hcomma) hrest)

end SqlCatalog
