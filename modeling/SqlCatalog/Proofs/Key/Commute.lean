import SqlCatalog.Proofs.Key.Frame
import SqlCatalog.Proofs.Key.Reading

/-!
# Keys and later statements

A dump gives a table its key in a statement that may come long after that of the table. It
makes no difference how long (`SqlCatalog.keyStatement_comm`): the statements between may
declare other tables, one of the same identifier among them, and give keys to any tables, the
same columns included. The table and the columns that the key means are the first of their
names, and those are the first ones however many are declared behind them; and no rule of the
reader looks at what the key has marked.
-/

namespace SqlCatalog

open Identifier Draft

variable {options : Options} {draft draft' : Draft} {identifier name : String}
  {columns key statements : List String}

namespace Draft

variable {i j : Nat}

/-- Columns that are there keep their places in an extension. -/
theorem Extends.keyPlaces (h : draft.Extends draft')
    (hcolumns : ∀ column ∈ columns, unquote column ∈ draft.columnNames i) :
    draft'.keyPlaces i columns = draft.keyPlaces i columns :=
  List.map_congr_left fun column hmem => h.idxOf_columnNames (hcolumns column hmem)

/-- Columns that are there are behind a reader outside tables. -/
theorem isBehind_of_mem_keyPlaces
    (hcolumns : ∀ column ∈ columns, unquote column ∈ draft.columnNames i)
    (hj : j ∈ draft.keyPlaces i columns) : draft.IsBehind .outside i j := by
  obtain ⟨column, hmem, rfl⟩ := List.mem_map.mp hj
  exact ⟨List.idxOf_lt_length_of_mem (hcolumns column hmem), nofun⟩

end Draft

/-- **A key statement goes past later statements.** Some statements have declared a table, and
all columns of its key; others follow and are read without a rejection. Then a statement that
gives the table its key is read in front of the others and behind them, and both lead to the
same draft. -/
theorem keyStatement_comm (hdraft : Reachable options .idle draft)
    (hmem : identifier ∈ draft.identifiers) (hname : isKeyName name = true)
    (hcolumns : ∀ column ∈ columns,
      IsColumnOf (draft.columnNames (draft.identifiers.idxOf identifier)) column)
    (hkey : KeyList columns key) (only : Bool)
    (h : Leads options .idle draft statements .idle draft') :
    ∃ keyed,
      Leads options .idle draft (keyStatement only identifier name key ++ statements) .idle keyed ∧
        Leads options .idle draft (statements ++ keyStatement only identifier name key) .idle
          keyed := by
  have hidentifier := hdraft.isNamed.identifiers identifier hmem
  have hnames := fun column hcolumn => hdraft.isNamed.of_isColumnOf (hcolumns column hcolumn)
  have hthere := fun column hcolumn => (hnames column hcolumn).2
  have hplace := h.extends.idxOf_identifiers hmem
  -- in front of the others, which then are read from a marked draft
  have hbefore : Leads options .idle draft (keyStatement only identifier name key) .idle
      (draft.markAll (draft.identifiers.idxOf identifier)
        (draft.keyPlaces (draft.identifiers.idxOf identifier) columns)) :=
    leads_keyStatement only hidentifier hname hmem hdraft.fits.1 hkey hnames
  have hmarked := h.markAll fun j => isBehind_of_mem_keyPlaces (j := j) hthere
  -- behind the others, where the table and the columns have kept their places
  have hbehind : Leads options .idle draft' (keyStatement only identifier name key) .idle
      (draft'.markAll (draft.identifiers.idxOf identifier)
        (draft.keyPlaces (draft.identifiers.idxOf identifier) columns)) := by
    rw [← h.extends.keyPlaces hthere, ← hplace]
    refine leads_keyStatement only hidentifier hname (h.extends.identifiers.subset hmem)
      (h.fits hdraft.fits).1 hkey fun column hcolumn => ?_
    rw [hplace]
    exact ⟨(hnames column hcolumn).1, (h.extends.columnNames _).subset (hthere column hcolumn)⟩
  exact ⟨_, hbefore.append hmarked, h.append hbehind⟩

/-- Between a table and its key, another table of its identifier and a key with the same
column. -/
theorem keyStatement_comm_second_table :
    let columns : List Column :=
      [{ name := "a", dataType := "int" }, { name := "b", dataType := "int" }]
    let draft : Draft := { tables := [⟨"t", "t", none, columns⟩] }
    let key := keyStatement true "t" "t_pkey" ["(", "a", ",", "b", ")"]
    let statements := ["create", "table", "t", "(", "b", "text", ")", ";", "alter", "table", "t",
      "add", "constraint", "b_pkey", "primary", "key", "(b)", ";"]
    ∃ keyed, Leads {} .idle draft (key ++ statements) .idle keyed ∧
      Leads {} .idle draft (statements ++ key) .idle keyed := by
  intro columns draft key statements
  have hdraft : Reachable {} .idle draft :=
    ⟨["create", "table", "t", "(", "a", "int", ",", "b", "int", ")", ";"], rfl, rfl⟩
  have hcolumns : ∀ column ∈ ["a", "b"], IsColumnOf ["a", "b"] column := by decide
  have hstatements : Leads {} .idle draft statements .idle _ := ⟨rfl, rfl⟩
  exact keyStatement_comm hdraft (by decide) (by decide) hcolumns (.apart ["a", "b"]) true
    hstatements

end SqlCatalog
