import SqlCatalog.Proofs.Identifier
import SqlCatalog.Proofs.Key.Mark
import SqlCatalog.Proofs.Names

/-!
# Reading keys

What a key constraint does to a draft: it marks its columns, each in the place where a column
of its name stands first, and nothing else. How the list of columns is cut into tokens
(`SqlCatalog.KeyList`) makes no difference (`SqlCatalog.leads_keyList_of_isKeyTable`), and where the
constraint stands makes one only for the table that is meant
(`SqlCatalog.Draft.IsKeyTable`). A statement that gives a table its key is one such list
behind a head (`SqlCatalog.leads_keyStatement`).
-/

namespace SqlCatalog

open Identifier Step

/-! ### Tokens of keys -/

/-- **How the columns of a key are written.** -/
inductive KeyList : List String → List String → Prop where
  /-- Every column, comma and bracket is a token. -/
  | apart (columns : List String) : KeyList columns ("(" :: (columns.intersperse "," ++ [")"]))
  /-- A single column makes one token with its brackets. -/
  | joined (column : String) : KeyList [column] ["(" ++ column ++ ")"]

/-- **The tokens of a statement that gives a table its key**, with the word `only` or
without it. -/
def keyStatement (only : Bool) (identifier name : String) (key : List String) : List String :=
  "alter" :: "table" :: ((if only then ["only"] else []) ++
    identifier :: "add" :: "constraint" :: name :: "primary" :: "key" :: (key ++ [";"]))

/-- **A token for a column** of which only the name is known: the name as it stands, or any
other token that stands for it. -/
def IsColumnOf (names : List String) (column : String) : Prop :=
  column ∈ names ∨ isColumnName column = true ∧ unquote column ∈ names

instance (names : List String) (column : String) : Decidable (IsColumnOf names column) :=
  inferInstanceAs (Decidable (_ ∨ _))

namespace Draft

variable {draft : Draft} {i j k : Nat} {scope : KeyScope} {identifier column : String}
  {columns : List String}

/-! ### Tables and columns of keys -/

/-- **The table of a key constraint** stands in a place, whichever column is looked for. -/
def IsKeyTable (draft : Draft) (scope : KeyScope) (i : Nat) : Prop :=
  ∀ column, ∃ table, draft.keyTable scope column = .ok (i, table)

/-- In a column block it is the open table. -/
theorem isKeyTable_block (h : draft.openTable = some i) (hi : i < draft.tables.length) :
    draft.IsKeyTable .block i := by
  intro column
  refine ⟨draft.tables[i], ?_⟩
  have hcurrent : draft.current? = some (i, draft.tables[i]) := by
    rw [current?, h, Option.bind_some, List.getElem?_eq_getElem hi, Option.map_some]
  rw [keyTable, hcurrent]

/-- In a statement of its own it is the first one of the identifier that waits. -/
theorem isKeyTable_statement (h : draft.pending = some identifier)
    (hmem : identifier ∈ draft.identifiers) :
    draft.IsKeyTable .statement (draft.identifiers.idxOf identifier) := by
  intro column
  have hlt : draft.identifiers.idxOf identifier < draft.tables.length := by
    have hlt := List.idxOf_lt_length_of_mem hmem
    rwa [identifiers, List.length_map] at hlt
  refine ⟨draft.tables[draft.identifiers.idxOf identifier], ?_⟩
  simp only [keyTable, h, findIdx_rawIdentifier, List.getElem?_eq_getElem hlt]

/-- A mark leaves a key constraint its table. -/
theorem IsKeyTable.markAt (h : draft.IsKeyTable scope i) (k j : Nat) :
    (draft.markAt k j).IsKeyTable scope i := by
  intro column
  obtain ⟨table, ht⟩ := h column
  rw [markAt_eq_changeAt, keyTable_changeAt, ht]
  exact ⟨_, rfl⟩

/-- **The places of the columns of a key**, given by tokens. -/
def keyPlaces (draft : Draft) (i : Nat) (columns : List String) : List Nat :=
  columns.map fun column => (draft.columnNames i).idxOf (unquote column)

@[simp] theorem keyPlaces_markAt :
    (draft.markAt k j).keyPlaces i columns = draft.keyPlaces i columns := by
  simp only [keyPlaces, columnNames_markAt]

/-- **A column of the table of a key is marked** where a column of its name stands first. -/
theorem IsKeyTable.markKey (h : draft.IsKeyTable scope i)
    (hmem : unquote column ∈ draft.columnNames i) :
    ∃ event, draft.markKey scope column =
      .ok (draft.markAt i ((draft.columnNames i).idxOf (unquote column)), event) := by
  obtain ⟨table, ht⟩ := h (unquote column)
  rw [columnNames_eq (of_keyTable ht)] at hmem ⊢
  exact ⟨_, by rw [markKey_eq ht, if_pos hmem]⟩

/-- In a draft that holds names, a token for a column is the name of a column, and stands for
one that is there. -/
theorem IsNamed.of_isColumnOf (h : draft.IsNamed)
    (hcolumn : IsColumnOf (draft.columnNames i) column) :
    isColumnName column = true ∧ unquote column ∈ draft.columnNames i := by
  rcases hcolumn with hmem | hcolumn
  · have hplain := h.columnNames i column hmem
    rw [unquote_of_isPlain hplain]
    exact ⟨isColumnName_of_isPlain hplain, hmem⟩
  · exact hcolumn

end Draft

open Draft

/-! ### Readings -/

variable {options : Options} {draft : Draft} {scope : KeyScope} {i : Nat}
  {identifier name column : String} {columns key : List String}

/-- A column in a list. -/
theorem step_keyColumn (options : Options) (hk : draft.IsKeyTable scope i)
    (hname : isColumnName column = true) (hmem : unquote column ∈ draft.columnNames i) :
    ∃ event, step options (.keyColumns scope) draft column =
      ⟨.ok (.keyColumns scope),
        draft.markAt i ((draft.columnNames i).idxOf (unquote column)), [event]⟩ := by
  obtain ⟨event, hmark⟩ := hk.markKey hmem
  have hne : ∀ word : String, isColumnName word = false → column ≠ word := by
    rintro word hword rfl
    rw [hname] at hword
    cases hword
  refine ⟨event, ?_⟩
  rw [step, readKeyColumns, if_neg (hne "," (by decide)), if_neg (hne ")" (by decide)),
    if_pos hname, readKeyColumn, hmark]

/-- **A list of columns is read**, up to its bracket: they are marked one by one. -/
theorem leads_intersperse (hk : draft.IsKeyTable scope i)
    (h : ∀ column ∈ columns, isColumnName column = true ∧ unquote column ∈ draft.columnNames i) :
    Leads options (.keyColumns scope) draft (columns.intersperse "," ++ [")"]) (.keyEnd scope)
      (draft.markAll i (draft.keyPlaces i columns)) := by
  induction columns generalizing draft with
  | nil => exact ⟨rfl, rfl⟩
  | cons column columns ih =>
    obtain ⟨⟨hname, hmem⟩, h⟩ := List.forall_mem_cons.mp h
    obtain ⟨event, hstep⟩ := step_keyColumn options hk hname hmem
    cases columns with
    | nil => exact .cons hstep ⟨rfl, rfl⟩
    | cons next columns =>
      have hrest := ih (hk.markAt i ((draft.columnNames i).idxOf (unquote column)))
        (by simpa only [columnNames_markAt] using h)
      rw [keyPlaces_markAt] at hrest
      have hcomma : ∀ marked, Leads options (.keyColumns scope) marked [","]
          (.keyColumns scope) marked := fun _ => ⟨rfl, rfl⟩
      rw [List.intersperse_cons_cons]
      exact .cons hstep ((hcomma _).append hrest)

/-- **The columns of a key are marked**, however they are written. -/
theorem leads_keyList_of_isKeyTable (hk : draft.IsKeyTable scope i) (hkey : KeyList columns key)
    (h : ∀ column ∈ columns, isColumnName column = true ∧ unquote column ∈ draft.columnNames i) :
    Leads options (.key scope) draft key (.keyEnd scope)
      (draft.markAll i (draft.keyPlaces i columns)) := by
  cases hkey with
  | apart =>
    have hopen : Leads options (.key scope) draft ["("] (.keyColumns scope) draft := ⟨rfl, rfl⟩
    exact hopen.append (leads_intersperse hk h)
  | joined column =>
    obtain ⟨hname, hmem⟩ := h column List.mem_cons_self
    obtain ⟨event, hmark⟩ := hk.markKey hmem
    have htoken : "(" ++ column ++ ")" = String.ofList ('(' :: (column.toList ++ [')'])) := by
      apply String.toList_injective
      simp
    have hopen : "(" ++ column ++ ")" ≠ "(" := by
      intro h
      have hlength := congrArg (List.length ∘ String.toList) h
      simp at hlength
    have hcolumn : keyColumn? ("(" ++ column ++ ")") = some column := by
      rw [htoken, keyColumn?_ofList hname, String.ofList_toList]
    have hstep : step options (.key scope) draft ("(" ++ column ++ ")") =
        ⟨.ok (.keyEnd scope), draft.markAll i (draft.keyPlaces i [column]), [event]⟩ := by
      rw [step, readKey, if_neg hopen, hcolumn]
      dsimp only
      rw [readKeyColumn, hmark]
      rfl
    exact .single hstep

/-- The head of a statement that gives a table its key. -/
theorem leads_keyStatementHead (only : Bool) (hidentifier : IsTableIdentifier identifier)
    (hname : isKeyName name = true) (draft : Draft) :
    Leads options .idle draft
      ("alter" :: "table" :: ((if only then ["only"] else []) ++
        [identifier, "add", "constraint", name, "primary", "key"]))
      (.key .statement) (draft.stash identifier) := by
  obtain ⟨htable, hwords⟩ := hidentifier
  obtain ⟨hif, honly⟩ : identifier ≠ "if" ∧ identifier ≠ "only" := by simpa using hwords
  have hidentifier : readTableIdentifier .alter identifier draft =
      goto (.tableName .alter) (draft.stash identifier) := by
    rw [readTableIdentifier, if_pos htable]
  have htable : Leads options .idle draft
      ("alter" :: "table" :: ((if only then ["only"] else []) ++ [identifier])) (.tableName .alter)
      (draft.stash identifier) := by
    have halter : Leads options .idle draft ["alter", "table"] (.table .alter) draft := ⟨rfl, rfl⟩
    cases only with
    | true =>
      have hstep : step options .only draft identifier =
          goto (.tableName .alter) (draft.stash identifier) := hidentifier
      have honly : Leads options (.table .alter) draft ["only"] .only draft := ⟨rfl, rfl⟩
      exact halter.append (honly.append (.single hstep))
    | false =>
      have hstep : step options (.table .alter) draft identifier =
          goto (.tableName .alter) (draft.stash identifier) := by
        rw [step, readTable, if_neg hif, if_neg honly, hidentifier]
      exact halter.append (.single hstep)
  have hadd : Leads options (.tableName .alter) (draft.stash identifier) ["add", "constraint"]
      (.constraint .statement) (draft.stash identifier) := ⟨rfl, rfl⟩
  have hconstraint : step options (.constraint .statement) (draft.stash identifier) name =
      goto (.keyName .statement) (draft.stash identifier) := by
    rw [step, readConstraint, if_pos hname]
  have hkey : Leads options (.keyName .statement) (draft.stash identifier) ["primary", "key"]
      (.key .statement) (draft.stash identifier) := ⟨rfl, rfl⟩
  have hall := htable.append (hadd.append ((Leads.single hconstraint).append hkey))
  simpa using hall

/-- **A statement that gives a table its key is read**: the columns of the key are marked in
the first table of the identifier. -/
theorem leads_keyStatement (only : Bool) (hidentifier : IsTableIdentifier identifier)
    (hname : isKeyName name = true) (hmem : identifier ∈ draft.identifiers)
    (hp : draft.pending = none) (hkey : KeyList columns key)
    (h : ∀ column ∈ columns, isColumnName column = true ∧
      unquote column ∈ draft.columnNames (draft.identifiers.idxOf identifier)) :
    Leads options .idle draft (keyStatement only identifier name key) .idle
      (draft.markAll (draft.identifiers.idxOf identifier)
        (draft.keyPlaces (draft.identifiers.idxOf identifier) columns)) := by
  have hk : (draft.stash identifier).IsKeyTable .statement
      (draft.identifiers.idxOf identifier) := isKeyTable_statement rfl hmem
  have hlist : Leads options (.key .statement) (draft.stash identifier) key (.keyEnd .statement)
      ((draft.stash identifier).markAll (draft.identifiers.idxOf identifier)
        (draft.keyPlaces (draft.identifiers.idxOf identifier) columns)) :=
    leads_keyList_of_isKeyTable hk hkey h
  have hend : ∀ marked : Draft, Leads options (.keyEnd .statement) marked [";"] .idle
      marked.discardPending := fun _ => ⟨rfl, rfl⟩
  have hall := (leads_keyStatementHead only hidentifier hname draft).append
    (hlist.append (hend _))
  have hdiscard : (draft.stash identifier).discardPending = draft := by
    rw [stash, discardPending, ← hp]
  rw [discardPending_markAll, hdiscard] at hall
  simpa [keyStatement] using hall

end SqlCatalog
