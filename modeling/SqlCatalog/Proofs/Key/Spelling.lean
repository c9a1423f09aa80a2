import SqlCatalog.Proofs.Block.Head
import SqlCatalog.Proofs.Column.Type
import SqlCatalog.Proofs.ColumnType
import SqlCatalog.Proofs.Key.Frame
import SqlCatalog.Proofs.Key.Reading

/-!
# The spellings of a key

A dump may say in several ways which columns make the key of a table:

* in an entry at the end of the column block, with a name for the constraint or without one;
* in a statement behind that of the table, with the word `only` or without it;
* if the key is one column, behind the type of that column.

They all come to the same draft (`SqlCatalog.keys_agree`). The first two mark the columns of
the table that is open and of the first table of an identifier, and the table that has just
been declared is both if no other one has its identifier. The third marks a column before the
columns behind it are read, and a mark goes past all that is read afterwards.

An entry may follow where a comma ends one. That the same holds of the bracket that closes
the block needs care in one place: behind the word `exclude`, a user's type decides what the
entry is, and that type has to be no comma and no bracket
(`SqlCatalog.Options.HasPlainTypes`).
-/

namespace SqlCatalog

open Identifier Step Draft

variable {options : Options} {state : State} {draft : Draft}

/-! ### The end of an entry -/

/-- **The types of the user are given by identifiers**, when they are put in normal form. -/
def Options.HasPlainTypes (options : Options) : Prop :=
  ∀ custom ∈ options.customTypes.toList, isPlain (normalize custom).toList = true

/-- A text in normal form that is no identifier is no type of the user. -/
theorem Options.HasPlainTypes.accepts_eq (h : options.HasPlainTypes) {name : String}
    (hn : normalize name = name) (hplain : isPlain name.toList = false) :
    options.accepts name = false := by
  have hcustom : ∀ custom ∈ options.customTypes.toList, normalize custom ≠ name := by
    rintro custom hmem rfl
    rw [h custom hmem] at hplain
    cases hplain
  rw [accepts, NameSet.covers, Bool.or_eq_false_iff]
  constructor
  · rw [Bool.eq_false_iff, Ne, NameSet.contains_iff]
    exact fun hmem => hcustom name hmem hn
  · rw [List.any_eq_false]
    exact fun custom hmem heq => hcustom custom hmem (beq_iff_eq.mp heq)

/-- **Where a comma leads to the next entry**, it does no more, and a bracket closes the
block. -/
theorem step_entryEnd (hoptions : options.HasPlainTypes)
    (h : (step options state draft ",").outcome = .ok .blockEntry) (other : Draft) :
    step options state other "," = goto .blockEntry other ∧
      step options state other ")" = goto .blockEnd other := by
  have hcomma : ColumnType.ofToken? options "," = none :=
    ofToken?_mark (by decide) (hoptions.accepts_eq (by decide) (by decide))
  have hclose : ColumnType.ofToken? options ")" = none :=
    ofToken?_mark (by decide) (hoptions.accepts_eq (by decide) (by decide))
  cases state with
  | columnType | clockType | columnOption => exact ⟨rfl, rfl⟩
  | keyEnd scope =>
    cases scope with
    | statement => cases h
    | block => exact ⟨rfl, rfl⟩
  | columnDefault depth | tableConstraint depth =>
    cases depth with
    | zero => exact ⟨rfl, rfl⟩
    | succ depth => cases h
  | excludeEntry =>
    simp only [step, readExclude, hcomma, hclose]
    exact ⟨rfl, rfl⟩
  | columnName =>
    have hstep : readType options "," draft = unexpected "," draft := by
      delta readType
      rw [hcomma]
    rw [step, hstep] at h
    cases h
  | typeModifier =>
    have hmodifier : step options .typeModifier draft "," =
        gotoWith .typeModifier (draft.modifyColumn? (Column.appendOption ",")) "," draft := rfl
    rw [hmodifier] at h
    cases hm : draft.modifyColumn? (Column.appendOption ",") <;> rw [hm] at h <;> cases h
  | table verb | tableName verb => cases verb <;> cases h
  | constraint scope | keyName scope | primary scope | key scope | keyColumns scope =>
    cases scope <;> cases h
  | _ => cases h

/-! ### Statements and lists of columns -/

/-- The tokens in front of the entries of a table. -/
def tableHead (identifier : String) : List String :=
  headTokens false false identifier ++ ["("]

/-- **The tokens of a statement that declares a table.** -/
def tableStatement (identifier : String) (entries : List String) : List String :=
  tableHead identifier ++ entries ++ [")", ";"]

/-- **The tokens of a key constraint in a column block**, with a name or without one. -/
def keyEntry (name? : Option String) (key : List String) : List String :=
  name?.elim [] (fun name => ["constraint", name]) ++ "primary" :: "key" :: key

/-- **A list of columns is read** behind the head of a table: it leads to a state and a draft
inside the block of that table, and a comma leads on to the next entry. -/
structure ReadsColumns (options : Options) (before : Draft) (identifier : String)
    (entries : List String) (state : State) (draft : Draft) : Prop where
  /-- The list is read. -/
  leads : Leads options .idle before (tableHead identifier ++ entries) state draft
  /-- The table is still the open one: tokens that leave its block are no list of its columns. -/
  inside : draft.openTable = some before.tables.length
  /-- Its last entry may end here. -/
  ends : (step options state draft ",").outcome = .ok .blockEntry

/-- **A column in a list that is defined by its name and its type** and nothing else. -/
structure IsBareColumn (options : Options) (before : Draft) (identifier : String)
    (entries : List String) (name : String) (type others : List String) : Prop where
  /-- The entries in front of it have come to an end. -/
  leads : ∃ draft, Leads options .idle before (tableHead identifier ++ entries) .blockEntry draft
  /-- Its name. -/
  name : IsColumnHead name
  /-- Its type, which is complete. -/
  type : TypeTokens options type
  /-- The list ends behind the type, or another entry follows. -/
  others : others = [] ∨ others.head? = some ","

variable {before : Draft} {identifier name column : String} {name? : Option String}
  {first entries others type columns key : List String} {i : Nat}

/-- The head of a table opens its block. -/
theorem leads_tableHead (hb : before.Fits .outside) (hidentifier : IsTableIdentifier identifier) :
    Leads options .idle before (tableHead identifier) .blockEntry
      (.inBlock before.tables (.ofIdentifier identifier) none) := by
  obtain ⟨tables, openTable, openColumn, pending⟩ := before
  obtain ⟨rfl, rfl, rfl⟩ := hb
  exact leads_headTokens false false hidentifier.1 hidentifier.2 tables

/-- The end of a statement that declares a table. -/
theorem leads_tableEnd (options : Options) (draft : Draft) :
    Leads options .blockEnd draft [";"] .idle draft.closeTable := ⟨rfl, rfl⟩

namespace ReadsColumns

variable (h : ReadsColumns options before identifier entries state draft)
include h

/-- Behind a list of columns the draft is one inside a block. -/
theorem fits (hoptions : options.HasPlainTypes) (hb : before.Fits .outside) :
    draft.Fits .block := by
  have hstep := (step_entryEnd hoptions h.ends draft).1
  have hfits := fits_step (h.leads.fits hb) h.ends
  rwa [hstep] at hfits

/-- There is one more table than before. -/
theorem length_tables (hoptions : options.HasPlainTypes) (hb : before.Fits .outside) :
    draft.tables.length = before.tables.length + 1 := by
  obtain ⟨-, hne, hopen⟩ := h.fits hoptions hb
  have hplace := Option.some.inj (hopen.symm.trans h.inside)
  have hpos := List.length_pos_iff.mpr hne
  omega

/-- It is the table that the statement declares. -/
theorem identifiers (hoptions : options.HasPlainTypes) (hb : before.Fits .outside)
    (hidentifier : IsTableIdentifier identifier) :
    draft.identifiers = before.identifiers ++ [identifier] := by
  have hextends := (h.leads.after (leads_tableHead hb hidentifier)).extends
  have hopened : (inBlock before.tables (.ofIdentifier identifier) none).identifiers =
      before.identifiers ++ [identifier] := by
    simp [inBlock, Draft.identifiers, rawIdentifier_ofIdentifier]
  rw [← hopened]
  refine (hextends.identifiers.eq_of_length ?_).symm
  rw [hopened, Draft.identifiers, Draft.identifiers, List.length_append, List.length_map,
    List.length_map, List.length_singleton, h.length_tables hoptions hb]

/-! ### Entries and statements of keys -/

/-- **A key in an entry of its own** behind the list. -/
theorem leads_keyEntry (hoptions : options.HasPlainTypes) (hb : before.Fits .outside)
    (hname : ∀ name ∈ name?, isKeyName name = true) (hkey : KeyList columns key)
    (hcolumns : ∀ column ∈ columns, isColumnName column = true ∧
      unquote column ∈ draft.columnNames before.tables.length) :
    Leads options .idle before (tableStatement identifier (entries ++ "," :: keyEntry name? key))
      .idle (draft.markAll before.tables.length
        (draft.keyPlaces before.tables.length columns)).closeTable := by
  have hcomma : Leads options state draft [","] .blockEntry draft :=
    .single (step_entryEnd hoptions h.ends draft).1
  have hhead : Leads options .blockEntry draft
      (name?.elim [] (fun name => ["constraint", name]) ++ ["primary", "key"]) (.key .block)
      draft := by
    cases name? with
    | none => exact ⟨rfl, rfl⟩
    | some name =>
      have hconstraint : Leads options .blockEntry draft ["constraint"] (.constraint .block)
          draft := ⟨rfl, rfl⟩
      have hstep : step options (.constraint .block) draft name = goto (.keyName .block) draft := by
        rw [step, readConstraint, if_pos (hname name rfl)]
      have hkey : Leads options (.keyName .block) draft ["primary", "key"] (.key .block) draft :=
        ⟨rfl, rfl⟩
      exact hconstraint.append ((Leads.single hstep).append hkey)
  have htable : draft.IsKeyTable .block before.tables.length :=
    isKeyTable_block h.inside (by rw [h.length_tables hoptions hb]; exact Nat.lt_succ_self _)
  have hlist : Leads options (.key .block) draft key (.keyEnd .block)
      (draft.markAll before.tables.length (draft.keyPlaces before.tables.length columns)) :=
    leads_keyList_of_isKeyTable htable hkey hcolumns
  have hclose : ∀ marked : Draft, Leads options (.keyEnd .block) marked [")"] .blockEnd marked :=
    fun _ => ⟨rfl, rfl⟩
  have hall := h.leads.append (hcomma.append (hhead.append (hlist.append
    ((hclose _).append (leads_tableEnd options _)))))
  simpa [tableStatement, keyEntry] using hall

/-- The list ends the block. -/
theorem leads_end (hoptions : options.HasPlainTypes) :
    Leads options .idle before (tableStatement identifier entries) .idle draft.closeTable := by
  have hclose : Leads options state draft [")"] .blockEnd draft :=
    .single (step_entryEnd hoptions h.ends draft).2
  have hall := h.leads.append (hclose.append (leads_tableEnd options draft))
  simpa [tableStatement] using hall

/-- **A key in a statement of its own** behind that of the table, when the identifier is
new. -/
theorem leads_keyBehind (hoptions : options.HasPlainTypes) (hb : before.Fits .outside)
    (hidentifier : IsTableIdentifier identifier) (hnew : identifier ∉ before.identifiers)
    (only : Bool) (hname : isKeyName name = true) (hkey : KeyList columns key)
    (hcolumns : ∀ column ∈ columns, isColumnName column = true ∧
      unquote column ∈ draft.columnNames before.tables.length) :
    Leads options .idle before
      (tableStatement identifier entries ++ keyStatement only identifier name key) .idle
      (draft.markAll before.tables.length
        (draft.keyPlaces before.tables.length columns)).closeTable := by
  have hidentifiers : draft.closeTable.identifiers = before.identifiers ++ [identifier] :=
    h.identifiers hoptions hb hidentifier
  have hmem : identifier ∈ draft.closeTable.identifiers := by
    rw [hidentifiers]
    exact List.mem_append_right _ List.mem_cons_self
  have hplace : draft.closeTable.identifiers.idxOf identifier = before.tables.length := by
    rw [hidentifiers, List.idxOf_append, if_neg hnew, List.idxOf_cons_self, Nat.zero_add,
      Draft.identifiers, List.length_map]
  have hkeyed : Leads options .idle draft.closeTable (keyStatement only identifier name key)
      .idle _ :=
    leads_keyStatement only hidentifier hname hmem (h.fits hoptions hb).1 hkey
      (by rw [hplace]; exact hcolumns)
  rw [hplace] at hkeyed
  rw [closeTable_markAll]
  exact (h.leads_end hoptions).append hkeyed

end ReadsColumns

/-! ### Columns that are keys -/

/-- The column being read is marked in its place. -/
theorem markAt_onColumn (tables : List Table) (table : Table) (columns : List Column)
    (column : Column) :
    (onColumn tables table columns column).markAt tables.length columns.length =
      onColumn tables table columns column.asKey :=
  changeAt_onColumn ..

/-- The words `primary key` behind a type mark the column. -/
theorem leads_columnKey (options : Options) (h : state.IsTyped) (tables : List Table)
    (table : Table) (columns : List Column) (column : Column) :
    Leads options state (onColumn tables table columns column) ["primary", "key"] .columnOption
      ((onColumn tables table columns column).markAt tables.length columns.length) := by
  have hprimary : step options state (onColumn tables table columns column) "primary" =
      goto .columnPrimary (onColumn tables table columns column) :=
    h.step_eq (by decide) (by decide)
  have hkey : step options .columnPrimary (onColumn tables table columns column) "key" =
      goto .columnOption (onColumn tables table columns column.asKey) := by
    rw [step, readColumnPrimary, if_pos rfl, modifyColumn?_onColumn]
    rfl
  rw [markAt_onColumn]
  exact .cons hprimary (.single hkey)

/-- **A name and a type** lead to a draft in which the column of that name is being read, in
the place behind the others. -/
theorem leads_bareColumn (h : draft.Fits .block) (hname : IsColumnHead name)
    (htype : TypeTokens options type) :
    ∃ last tables table columns column, last.IsTyped ∧ column.name = unquote name ∧
      Leads options .blockEntry draft (name :: type) last
        (onColumn tables table columns column) := by
  obtain ⟨last, typed, dataType, text, hlast, hl, hcolumn⟩ :=
    leads_typed_column hname h.current? htype
  have hplace : last.place = .column := by rcases hlast with rfl | rfl <;> rfl
  have hfits := hl.fits h
  rw [hplace] at hfits
  obtain ⟨tables, table, columns, column, rfl⟩ := fits_column_iff.mp hfits
  rw [column?_onColumn] at hcolumn
  obtain rfl := Option.some.inj hcolumn
  exact ⟨last, tables, table, columns, _, hlast, rfl, hl⟩

/-- A name that stands once in a list stands first where it stands. -/
theorem idxOf_of_count {names more names' : List String} (h : names ++ [name] ++ more = names')
    (hcount : names'.count name = 1) : names'.idxOf name = names.length := by
  have hmem : name ∉ names := by
    intro hmem
    have hpos := List.count_pos_iff.mpr hmem
    rw [← h, List.count_append, List.count_append, List.count_singleton_self] at hcount
    omega
  rw [← h, List.append_assoc, List.idxOf_append, if_neg hmem, List.singleton_append,
    List.idxOf_cons_self, Nat.zero_add]

/-- A column that is read inside the block of a table is one of that table: no other table is
declared behind it. -/
theorem ReadsColumns.length_of_onColumn
    (h : ReadsColumns options before identifier entries state draft)
    (hoptions : options.HasPlainTypes) (hb : before.Fits .outside)
    (hidentifier : IsTableIdentifier identifier) {last : State} {tables : List Table}
    {table : Table} {columns : List Column} {column : Column}
    (hfirst : Leads options .idle before (tableHead identifier ++ first) last
      (onColumn tables table columns column))
    (hothers : Leads options last (onColumn tables table columns column) others state draft) :
    before.tables.length = tables.length := by
  have hlow := (hfirst.after (leads_tableHead hb hidentifier)).extends.identifiers.length_le
  have hhigh := hothers.extends.identifiers.length_le
  rw [h.identifiers hoptions hb hidentifier] at hhigh
  simp only [Draft.identifiers, onColumn, inBlock, List.length_map, List.length_append,
    List.length_singleton] at hlow hhigh
  omega

/-- **What stands behind a column** that is no more than its name and its type is read behind a
key of that column as well, up to the bracket that closes the block: the mark goes past it. -/
theorem leads_behindKey (hoptions : options.HasPlainTypes) {last : State} (hlast : last.IsTyped)
    {tables : List Table} {table : Table} {columns : List Column} {column : Column}
    (hothers : Leads options last (onColumn tables table columns column) others state draft)
    (hends : (step options state draft ",").outcome = .ok .blockEntry)
    (hcut : others = [] ∨ others.head? = some ",") :
    Leads options .columnOption
      ((onColumn tables table columns column).markAt tables.length columns.length)
      (others ++ [")"]) .blockEnd (draft.markAt tables.length columns.length) := by
  have hbehind : (onColumn tables table columns column).IsBehind .block tables.length
      columns.length := by
    refine ⟨?_, fun hplace => by cases hplace⟩
    rw [columnNames_onColumn]
    simp
  rcases hcut with rfl | hcut
  · obtain ⟨rfl, rfl⟩ := leads_nil.mp hothers
    exact ⟨rfl, rfl⟩
  · obtain ⟨others, rfl⟩ := List.head?_eq_some_iff.mp hcut
    obtain ⟨s, hs, hothers⟩ := leads_cons.mp hothers
    rw [hlast.step_eq (by decide) (by decide)] at hs hothers
    cases hs
    have hcomma : ∀ marked : Draft, Leads options .columnOption marked [","] .blockEntry marked :=
      fun _ => ⟨rfl, rfl⟩
    have hclose : ∀ marked : Draft, Leads options state marked [")"] .blockEnd marked :=
      fun marked => .single (step_entryEnd hoptions hends marked).2
    exact (hcomma _).append ((hothers.markAt hbehind).append (hclose _))

/-- **A key behind the type of its column**, which is the only one of its name. -/
theorem ReadsColumns.leads_keyedColumn
    (h : ReadsColumns options before identifier (first ++ name :: (type ++ others)) state draft)
    (hoptions : options.HasPlainTypes) (hb : before.Fits .outside)
    (hidentifier : IsTableIdentifier identifier)
    (hbare : IsBareColumn options before identifier first name type others)
    (hcount : (draft.columnNames before.tables.length).count (unquote name) = 1) :
    Leads options .idle before
      (tableStatement identifier (first ++ name :: (type ++ "primary" :: "key" :: others))) .idle
      (draft.markAt before.tables.length
        ((draft.columnNames before.tables.length).idxOf (unquote name))).closeTable := by
  obtain ⟨reached, hfirst⟩ := hbare.leads
  obtain ⟨last, tables, table, columns, column, hlast, hname, htyped⟩ :=
    leads_bareColumn (hfirst.fits hb) hbare.name hbare.type
  have htyped : Leads options .idle before (tableHead identifier ++ (first ++ name :: type)) last
      (onColumn tables table columns column) := by
    rw [← List.append_assoc]
    exact hfirst.append htyped
  have hothers : Leads options last (onColumn tables table columns column) others state draft := by
    have hleads := h.leads
    rw [← List.cons_append, ← List.append_assoc, ← List.append_assoc] at hleads
    exact hleads.after htyped
  -- the column is marked in its place
  have hplace := h.length_of_onColumn hoptions hb hidentifier htyped hothers
  have hindex : (draft.columnNames before.tables.length).idxOf (unquote name) =
      columns.length := by
    obtain ⟨more, hmore⟩ := hothers.extends.columnNames tables.length
    rw [columnNames_onColumn, hname, ← hplace] at hmore
    rw [idxOf_of_count hmore hcount, List.length_map]
  rw [hindex, hplace]
  have hkey := leads_columnKey options hlast tables table columns column
  have hrest := leads_behindKey hoptions hlast hothers h.ends hbare.others
  have hall := htyped.append (hkey.append (hrest.append (leads_tableEnd options _)))
  simpa [tableStatement] using hall

/-! ### All spellings -/

/-- **All spellings of a key agree.** A new table is declared with some columns, and some of
them are its key. An entry behind the columns says so, with a name or without one, or a
statement behind that of the table does, with the word `only` or without it; and the columns
of the key are written with their brackets apart or, if there is one, in one token. All this
leads to one draft. And if the key is one column that is no more than its name and its type,
and the only one of its name, the words `primary key` behind that type lead there too. -/
theorem keys_agree (hoptions : options.HasPlainTypes) (hb : Reachable options .idle before)
    (hidentifier : IsTableIdentifier identifier) (hnew : identifier ∉ before.identifiers)
    (h : ReadsColumns options before identifier entries state draft)
    (hname : isKeyName name = true)
    (hcolumns : ∀ column ∈ columns,
      IsColumnOf (draft.columnNames before.tables.length) column) :
    ∃ declared,
      (∀ key, KeyList columns key →
        Leads options .idle before
            (tableStatement identifier (entries ++ "," :: keyEntry (some name) key)) .idle
            declared ∧
          Leads options .idle before
            (tableStatement identifier (entries ++ "," :: keyEntry none key)) .idle declared ∧
          ∀ only, Leads options .idle before
            (tableStatement identifier entries ++ keyStatement only identifier name key) .idle
            declared) ∧
      ∀ first column type others, entries = first ++ column :: (type ++ others) →
        IsBareColumn options before identifier first column type others →
        (draft.columnNames before.tables.length).count (unquote column) = 1 →
        (∃ token, columns = [token] ∧ unquote token = unquote column) →
        Leads options .idle before
          (tableStatement identifier (first ++ column :: (type ++ "primary" :: "key" :: others)))
          .idle declared := by
  have hnamed : draft.IsNamed := by
    obtain ⟨tokens, htokens⟩ := hb
    exact Reachable.isNamed ⟨_, htokens.append h.leads⟩
  have hcolumns' := fun column hmem => hnamed.of_isColumnOf (hcolumns column hmem)
  refine ⟨(draft.markAll before.tables.length
    (draft.keyPlaces before.tables.length columns)).closeTable,
    fun key hkey => ⟨?_, ?_, fun only => ?_⟩, ?_⟩
  · exact h.leads_keyEntry hoptions hb.fits (by simpa using hname) hkey hcolumns'
  · exact h.leads_keyEntry hoptions hb.fits nofun hkey hcolumns'
  · exact h.leads_keyBehind hoptions hb.fits hidentifier hnew only hname hkey hcolumns'
  · rintro first column type others rfl hbare hcount ⟨token, rfl, htoken⟩
    have hplaces : draft.keyPlaces before.tables.length [token] =
        [(draft.columnNames before.tables.length).idxOf (unquote column)] := by
      rw [keyPlaces, List.map_singleton, htoken]
    rw [hplaces]
    exact h.leads_keyedColumn hoptions hb.fits hidentifier hbare hcount

/-- The key of a table behind another one, whose column of the same name stays as it is: in an
entry, in a statement, and at the column. -/
theorem keys_agree_second_table :
    let id : Column := { name := "id", dataType := "uuid" }
    let before : Draft := { tables := [⟨"a", "a", none, [id]⟩] }
    let entries := ["id", "uuid", ",", "n", "int"]
    ∃ declared,
      Leads {} .idle before
          (tableStatement "b" (entries ++ "," :: keyEntry (some "b_pkey") ["(id)"])) .idle
          declared ∧
        Leads {} .idle before
          (tableStatement "b" entries ++ keyStatement true "b" "b_pkey" ["(", "id", ")"]) .idle
          declared ∧
        Leads {} .idle before
          (tableStatement "b" ["id", "uuid", "primary", "key", ",", "n", "int"]) .idle
          declared := by
  intro id before entries
  have hb : Reachable {} .idle before := ⟨tableStatement "a" ["id", "uuid"], rfl, rfl⟩
  have hread : ReadsColumns {} before "b" entries .columnType
      (onColumn before.tables ⟨"b", "b", none, []⟩ [id] { name := "n", dataType := "int" }) :=
    ⟨⟨rfl, rfl⟩, rfl, rfl⟩
  have hbare : IsBareColumn {} before "b" [] "id" ["uuid"] [",", "n", "int"] :=
    ⟨⟨_, rfl, rfl⟩, by decide, ⟨"uuid", _, [], rfl, rfl, .scalar⟩, Or.inr rfl⟩
  have hcolumns : ∀ column ∈ ["id"], IsColumnOf ["id", "n"] column := by decide
  have hoptions : Options.HasPlainTypes {} := fun _ hmem => absurd hmem List.not_mem_nil
  obtain ⟨declared, hkeys, hcolumn⟩ := keys_agree hoptions hb (by decide) (by decide) hread
    (by decide : isKeyName "b_pkey" = true) hcolumns
  exact ⟨declared, (hkeys _ (.joined "id")).1, (hkeys _ (.apart ["id"])).2.2 true,
    hcolumn [] "id" ["uuid"] [",", "n", "int"] rfl hbare rfl ⟨"id", rfl, rfl⟩⟩

end SqlCatalog
