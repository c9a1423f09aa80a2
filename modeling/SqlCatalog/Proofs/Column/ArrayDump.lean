import SqlCatalog.Proofs.Column.Array
import SqlCatalog.Proofs.Column.Place

/-!
# Dumps with arrays of a type

What becomes of a catalog when the array mark is put behind a type in the dump? The mark ends up
with the last token of the type, and what that is depends on the type and on how its modifier is
cut.

| the type ends in | the mark | is put behind |
|---|---|---|
| the token that names it | touches that | the data type, or the modifier in the token |
| the word `varying`, or a modifier of its own | touches that | the type options |
| the bracket of a modifier that is cut | is a token | the type options |
| the words `precision` or `zone` | touches that | nothing, the token is rejected |

So arrays of all types are read but of those that end in a word for which no more than the word is
known. In all other rows the draft behind the type is the one without the mark, but for the column
being read (`SqlCatalog.TypePlace.leads_typeTokens`). Behind a complete type no more is said of it
(`SqlCatalog.EndsType`), so the rest of the dump is read past that difference
(`SqlCatalog.EndsType.leads_changeAt`), and the catalogs differ in that column alone
(`SqlCatalog.arrays_of_type`).
-/

namespace SqlCatalog

open Text Noise Token Draft Identifier ArrayMark

/-! ### The mark behind a text -/

namespace Token

variable {word text : List Char} {depth : Nat}

/-- **The bracket that closes what is open in front of a word**, and is loose therefore. Behind it
the brackets of the word pair up. -/
theorem exists_loose_close (hword : IsWord word) (h : depth? (depth + 1) word = some 0) :
    ∃ u v, word = u ++ ')' :: v ∧ depth? depth u = some 0 ∧ IsPaired v := by
  induction word generalizing depth with
  | nil => cases h
  | cons c word ih =>
    obtain ⟨hbreak, hrest⟩ := isWord_cons.mp hword
    obtain ⟨hsemicolon, ⟨rfl, h⟩ | ⟨rfl, -, h⟩ | ⟨hopen, hclose, -, h⟩⟩ := depth?_cons h
    · obtain ⟨u, v, rfl, hu, hv⟩ := ih hrest h
      exact ⟨'(' :: u, v, rfl, by rw [depth?, if_neg (by simp), if_pos rfl, hu], hv⟩
    · cases depth with
      | zero => exact ⟨[], word, rfl, rfl, h⟩
      | succ depth =>
        obtain ⟨u, v, rfl, hu, hv⟩ := ih hrest h
        refine ⟨')' :: u, v, rfl, ?_, hv⟩
        rw [depth?, if_neg (by simp), if_neg (by decide), if_pos rfl, Nat.add_sub_cancel, hu]
    · obtain ⟨u, v, rfl, hu, hv⟩ := ih hrest h
      have hcomma : c ≠ ',' := by
        rintro rfl
        cases hbreak
      refine ⟨c :: u, v, rfl, ?_, hv⟩
      rw [depth?, if_neg (by simp [hsemicolon, hcomma, hclose]), if_neg hopen, if_neg hclose, hu]

/-- The mark touches a word whose brackets pair up. -/
theorem ofText_append_mark_of_isPaired (hword : IsWord word) (h : IsPaired word) :
    ofText (word ++ mark) = markLast (ofText word) := by
  have hmark : IsWord (word ++ mark) := isWord_append.mpr ⟨hword, by decide⟩
  have hpaired : IsPaired (word ++ mark) := by
    rw [IsPaired, depth?_append, h]
    rfl
  rw [ofText_paired hmark (List.append_ne_nil_of_right_ne_nil _ (List.cons_ne_nil _ _)) hpaired]
  by_cases hempty : word = []
  · rw [hempty]
    rfl
  · have hclose : String.ofList (lower word) ≠ ")" := by
      intro heq
      have hlist : lower word = [')'] := by
        rw [← String.toList_ofList (l := lower word), heq]
        rfl
      have hdepth := @depth?_lower 0 word
      rw [hlist, h] at hdepth
      cases hdepth
    rw [ofText_paired hword hempty h, markLast_singleton hclose, lower, List.map_append,
      String.ofList_append]
    rfl

/-- A text that does not end in a break has a token. -/
theorem ofText_ne_nil {c : Char} (h : text.getLast? = some c) (hc : isBreak c = false) :
    ofText text ≠ [] := by
  intro hnil
  have hchars := flatMap_toList_ofText text
  have hgap : isGap c = false := (Bool.or_eq_false_iff.mp hc).2
  have hmem : c ∈ text.filter fun c => !isGap c :=
    List.mem_filter.mpr ⟨List.mem_of_getLast? h, by rw [hgap]; rfl⟩
  rw [hnil, List.flatMap_nil] at hchars
  rw [List.map_eq_nil_iff.mp hchars.symm] at hmem
  cases hmem

/-- **The mark behind a text** is behind its last token, in a token of its own if that is a
bracket. -/
theorem ofText_append_mark (h : depth? depth text = some 0)
    (hend : ∀ c ∈ text.getLast?, isBreak c = false) :
    ofText (text ++ mark) = markLast (ofText text) := by
  induction text using break_induction generalizing depth with
  | word w hw =>
    cases depth with
    | zero => exact ofText_append_mark_of_isPaired hw h
    | succ depth =>
      obtain ⟨u, v, rfl, hu, hv⟩ := exists_loose_close hw h
      have hvword : IsWord v := (isWord_cons.mp (isWord_append.mp hw).2).2
      rw [List.append_assoc, List.cons_append, ofText_append_close hu, ofText_append_close hu,
        markLast_append _ (List.cons_ne_nil _ _), ofText_append_mark_of_isPaired hvword hv]
      by_cases hempty : v = []
      · rw [hempty]
        rfl
      · rw [ofText_paired hvword hempty hv]
        rfl
  | append w c text hw hc ih =>
    -- the word does not end the text, since a break does not
    cases hlast : text.getLast? with
    | none =>
      rw [List.getLast?_eq_none_iff.mp hlast] at hend
      have hno := hend c (by rw [List.getLast?_concat]; rfl)
      rw [hc] at hno
      cases hno
    | some d =>
      have hd : isBreak d = false :=
        hend d (by rw [List.getLast?_append, List.getLast?_cons, hlast]; rfl)
      rw [depth?_append] at h
      obtain ⟨inner, -, h⟩ := Option.bind_eq_some_iff.mp h
      have htext : ∃ depth, depth? depth text = some 0 := by
        obtain ⟨-, ⟨-, h⟩ | ⟨-, -, h⟩ | ⟨-, -, -, h⟩⟩ := depth?_cons h <;> exact ⟨_, h⟩
      obtain ⟨depth', htext⟩ := htext
      rw [List.append_assoc, List.cons_append, ofText_append hc, ofText_append hc,
        ih htext (by rw [hlast]; rintro _ ⟨⟩; exact hd), ← List.append_assoc, ← List.append_assoc,
        markLast_append _ (ofText_ne_nil hlast hd)]

end Token

/-! ### Types and what stands behind them -/

/-- **A type as it is written**, with nothing behind it. -/
structure IsTypeText (options : Options) (text : List Char) : Prop where
  /-- Its tokens are those of a type. -/
  tokens : TypeTokens options (ofText text)
  /-- Its brackets pair up. -/
  paired : IsPaired text
  /-- It does not end in a blank. -/
  ends : ∀ c ∈ text.getLast?, isBreak c = false

/-- The words and marks that may stand behind a type and say nothing of it. -/
def typeEndings : List String :=
  [",", ")", "not", "null", "default", "primary"]

/-- **Tokens behind which a type is complete**: collations may come, and then a word or a mark that
says nothing of the type. -/
inductive EndsType : List String → Prop where
  /-- A word or a mark comes. -/
  | word {token : String} {tokens : List String} (h : token ∈ typeEndings) :
    EndsType (token :: tokens)
  /-- A collation comes. -/
  | collation {collation : String} {tokens : List String} (h : EndsType tokens) :
    EndsType ("collate" :: collation :: tokens)

/-- **The tables that a dump declares.** -/
def tablesOf (options : Options) (dump : List UInt8) : List Table :=
  (run options .idle {} (tokensOf dump)).draft.tables

variable {options : Options} {state state' last : State} {draft draft' : Draft} {token : String}
  {tokens : List String} {f : Column → Column} {i j : Nat} {family : TypeFamily}

/-- A type without a tail is complete. -/
theorem TypeTail.isTyped_of_nil (h : TypeTail family tokens) (hnil : tokens = []) :
    family.state.IsTyped := by
  cases h with
  | scalar => exact Or.inl rfl
  | clock => exact Or.inr rfl
  | mark | modifier =>
    exact absurd hnil (List.append_ne_nil_of_right_ne_nil _ (List.cons_ne_nil _ _))
  | _ => cases hnil

/-- What a word or a mark behind a complete type does does not depend on the state. -/
theorem step_typeEnding (options : Options) (h : token ∈ typeEndings) :
    ∃ next : State, next.isPastType = true ∧
      ((∀ state : State, state.IsTyped → ∀ draft,
          step options state draft token = Step.goto next draft) ∨
        ∀ state : State, state.IsTyped → ∀ draft, step options state draft token =
          Step.gotoWith next (draft.modifyColumn? fun column => { column with hasDefault := true })
            token draft) := by
  have htail : ∀ state : State, state.IsTyped → ∀ draft,
      step options state draft token = readColumnTail token draft := by
    intro state hstate draft
    have hzone : token ≠ "with" ∧ token ≠ "without" := by
      constructor <;> rintro rfl <;> exact absurd h (by decide)
    exact hstate.step_eq hzone.1 hzone.2
  simp only [typeEndings, List.mem_cons, List.not_mem_nil, or_false] at h
  rcases h with rfl | rfl | rfl | rfl | rfl | rfl
  · exact ⟨.blockEntry, rfl, Or.inl htail⟩
  · exact ⟨.blockEnd, rfl, Or.inl htail⟩
  · exact ⟨.columnNot, rfl, Or.inl htail⟩
  · exact ⟨.columnOption, rfl, Or.inl htail⟩
  · exact ⟨.columnDefault 0, rfl, Or.inr htail⟩
  · exact ⟨.columnPrimary, rfl, Or.inl htail⟩

/-- **What stands behind a complete type** is read past a change of the type, from one state in
which the type is complete as from another. -/
theorem EndsType.leads_changeAt (h : EndsType tokens) (hf : Column.PassesFlags f)
    (hstate : state.IsTyped) (hstate' : state'.IsTyped)
    (hthere : j < (draft.columnNames i).length)
    (hl : Leads options state draft tokens last draft') :
    Leads options state' (draft.changeAt f i j) tokens last (draft'.changeAt f i j) := by
  induction h generalizing state state' draft with
  | @collation collation tokens h ih =>
    have hcollate : ∀ state : State, state.IsTyped → ∀ draft,
        step options state draft "collate" = Step.goto .collation draft :=
      fun state hstate draft => hstate.step_eq (by decide) (by decide)
    obtain ⟨next, hnext, hl⟩ := leads_cons.mp hl
    rw [hcollate state hstate] at hnext hl
    obtain rfl := Except.ok.inj hnext
    obtain ⟨next, hnext, hl⟩ := leads_cons.mp hl
    by_cases hmark : collation = "," ∨ collation = ")" ∨ collation = ";"
    · have hstep : ∀ draft, step options .collation draft collation =
          Step.unexpected collation draft := fun draft => if_pos hmark
      rw [hstep] at hnext
      cases hnext
    · have hstep : ∀ draft, step options .collation draft collation =
          Step.goto .columnType draft := fun draft => if_neg hmark
      rw [hstep] at hnext hl
      obtain rfl := Except.ok.inj hnext
      exact .cons (hcollate state' hstate' _)
        (.cons (hstep _) (ih (Or.inl rfl) (Or.inl rfl) hthere hl))
  | @word token tokens h =>
    have hadmits : ∀ {draft : Draft} {next : State}, j < (draft.columnNames i).length →
        next.isPastType = true → draft.Admits f next i j := fun hthere hpast =>
      ⟨hf.toPassesKeys, hthere, fun _ _ _ => ⟨hpast, hf⟩⟩
    obtain ⟨after, hafter, hl⟩ := leads_cons.mp hl
    obtain ⟨next, hpast, hstep | hstep⟩ := step_typeEnding options h
    · rw [hstep state hstate] at hafter hl
      obtain rfl := Except.ok.inj hafter
      exact .cons (hstep state' hstate' _) (hl.changeAt (hadmits hthere hpast))
    · rw [hstep state hstate] at hafter hl
      cases hread : draft.modifyColumn? fun column => { column with hasDefault := true } with
      | none =>
        rw [hread] at hafter
        cases hafter
      | some read =>
        rw [hread] at hafter hl
        obtain rfl := Except.ok.inj hafter
        have hnames := (of_modifyColumn? (by exact fun _ => rfl) hread).2.2.2 i
        have hstep' := hstep state' hstate' (draft.changeAt f i j)
        rw [modifyColumn?_changeAt hf.name fun _ _ => hf.hasDefault, hread] at hstep'
        exact .cons hstep' (hl.changeAt (hadmits (hnames ▸ hthere) hpast))

/-! ### Types in their place -/

namespace TypePlace

variable {front : List UInt8} {type : ColumnType} {dataType typeOptions : String}
  (place : TypePlace options front)

/-- **The draft behind arrays of a type.** -/
def arrayTyped (dataType typeOptions : String) : Draft :=
  (place.typed dataType typeOptions).changeAt Column.asArray place.tables.length
    place.table.columns.length

/-- The mark stands behind the data type when there are no options. -/
theorem arrayTyped_empty (dataType : String) :
    place.arrayTyped dataType "" = place.typed (dataType ++ markToken) "" := by
  rw [arrayTyped, typed, changeAt_onColumn, Column.asArray, if_pos rfl, typed]

/-- The mark stands behind the options when there are any. -/
theorem arrayTyped_of_ne (dataType : String) (h : typeOptions ≠ "") :
    place.arrayTyped dataType typeOptions = place.typed dataType (typeOptions ++ markToken) := by
  rw [arrayTyped, typed, changeAt_onColumn, Column.asArray, if_neg h, typed]

/-- **A type of one token** is complete with the mark behind it as it is without. -/
theorem leads_arrayToken (h : ColumnType.ofToken? options token = some type) :
    Leads options .idle {} (tokenize front ++ [token ++ markToken]) type.family.state
      (place.arrayTyped type.name type.modifier) := by
  have htype : ColumnType.ofToken? options (token ++ markToken) = some type.asArray := by
    rw [ColumnType.ofToken?_append_mark, h, Option.map_some]
  have hread := place.leads_type htype
  by_cases hempty : type.modifier = ""
  · have harray : type.asArray = { type with name := type.name ++ markToken } := if_pos hempty
    rw [harray, hempty] at hread
    rw [hempty, arrayTyped_empty]
    exact hread
  · rw [ColumnType.asArray_of_ne hempty] at hread
    rw [arrayTyped_of_ne _ _ hempty]
    exact hread

/-- **A type and its arrays** are read alike. Behind both the type is complete, and the column of
arrays is what the mark makes of the column, unless the mark touches a word that stands alone. -/
theorem leads_typeTokens (h : TypeTokens options tokens) (hhead : tokens.head? ≠ some ")") :
    ∃ last dataType typeOptions, last.IsTyped ∧
      Leads options .idle {} (tokenize front ++ tokens) last (place.typed dataType typeOptions) ∧
      ((∀ token ∈ tokens, '[' ∉ token.toList) →
        '[' ∉ dataType.toList ∧ '[' ∉ typeOptions.toList) ∧
      (arrayFault? tokens = none → ∃ last', last'.IsTyped ∧
        Leads options .idle {} (tokenize front ++ markLast tokens) last'
          (place.arrayTyped dataType typeOptions)) := by
  obtain ⟨token, type, tail, rfl, htoken, htail⟩ := h
  have hread := place.leads_type htoken
  have hjoin : ∀ text, IsJoined tail text → (∀ word ∈ token :: tail, '[' ∉ word.toList) →
      '[' ∉ type.name.toList ∧ '[' ∉ (text type.modifier).toList := by
    intro text hjoined hplain
    obtain ⟨hfirst, hplain⟩ := List.forall_mem_cons.mp hplain
    obtain ⟨hname, hmodifier⟩ := ColumnType.not_mem_of_ofToken? htoken hfirst
    refine ⟨hname, fun hmem => ?_⟩
    rcases hjoined _ _ hmem with hblank | hmem | ⟨word, hword, hmem⟩
    · cases hblank
    · exact hmodifier hmem
    · exact hplain word hword hmem
  by_cases hnil : tail = []
  · subst hnil
    refine ⟨_, _, _, htail.isTyped_of_nil rfl, hread, hjoin _ .nil, fun _ => ?_⟩
    rw [markLast_singleton fun hclose => hhead (congrArg some hclose)]
    exact ⟨_, htail.isTyped_of_nil rfl, place.leads_arrayToken htoken⟩
  by_cases hlast : ∀ word ∈ tail.getLast?, word ≠ "precision" ∧ word ≠ "zone"
  · obtain ⟨text, hjoined, hne, htype, harray⟩ := changes_arrayTail options htail hnil hlast
    refine ⟨.columnType, type.name, text type.modifier, Or.inl rfl, ?_, hjoin text hjoined,
      fun _ => ⟨.columnType, Or.inl rfl, ?_⟩⟩
    · rw [List.append_cons]
      exact place.leads_typeOptions hread htype fun _ => rfl
    · have hmark : markLast (token :: tail) = token :: markLast tail :=
        markLast_append [token] hnil
      rw [hmark, List.append_cons, arrayTyped_of_ne _ _ (hne _)]
      exact place.leads_typeOptions hread harray fun _ => rfl
  · obtain ⟨last, text, htyped, hjoined, htype⟩ := changes_typeTail options htail
    refine ⟨last, type.name, text type.modifier, htyped, ?_, hjoin text hjoined, fun hfault => ?_⟩
    · rw [List.append_cons]
      exact place.leads_typeOptions hread htype fun _ => rfl
    · refine absurd (fun word hword => ?_) hlast
      have hno := Option.filter_eq_none_iff.mp (Option.map_eq_none_iff.mp hfault) word hword
      simpa using hno

include place in
/-- **A word that stands alone** is rejected with the mark behind it. -/
theorem result_of_arrayFault {fault : String} (h : TypeTokens options tokens)
    (hfault : arrayFault? tokens = some fault) (more : List String) :
    (parseTokens options (tokenize front ++ markLast tokens ++ more)).result =
      .error (.unexpectedToken fault) := by
  obtain ⟨token, type, tail, rfl, htoken, htail⟩ := h
  obtain ⟨word, hlast, rfl⟩ := Option.map_eq_some_iff.mp hfault
  obtain ⟨hlast, hword⟩ := Option.filter_eq_some_iff.mp hlast
  have hword : word = "precision" ∨ word = "zone" := by simpa using hword
  obtain ⟨before, state, change, rfl, hchange, hreject⟩ :=
    htail.exists_rejected options hlast hword
  have hclose : word ≠ ")" := by
    rintro rfl
    exact absurd hword (by decide)
  have hmark : markLast (token :: (before ++ [word])) = token :: before ++ [word ++ markToken] := by
    rw [← List.cons_append, markLast_append _ (List.cons_ne_nil _ _), markLast_singleton hclose]
  have hread := (place.leads_type htoken).append
    (hchange _ _ (modifyColumn?_onColumn place.tables place.table place.table.columns _ change))
  have hresult := result_of_rejected hread (hreject _) more
  rw [hmark]
  simpa using hresult

/-- The column is there. -/
theorem lt_length_columnNames (dataType typeOptions : String) :
    place.table.columns.length <
      ((place.typed dataType typeOptions).columnNames place.tables.length).length := by
  rw [typed, columnNames_onColumn]
  simp

/-- **The column behind the rest of the dump** has its place and its type still. -/
theorem exists_column {rest : List String} (hends : EndsType rest) (hstate : state.IsTyped)
    (hrest : Leads options state (place.typed dataType typeOptions) rest last draft) :
    ∃ table column, draft.tables[place.tables.length]? = some table ∧
      table.columns[place.table.columns.length]? = some column ∧
      column.name = place.column.name ∧ column.dataType = dataType ∧
      column.typeOptions = typeOptions := by
  have hnames := columnNames_onColumn place.tables place.table place.table.columns
    { place.column with dataType, typeOptions }
  -- the name is where it was
  have hname : (draft.columnNames place.tables.length)[place.table.columns.length]? =
      some place.column.name := by
    obtain ⟨more, hmore⟩ := hrest.extends.columnNames place.tables.length
    rw [← hmore, typed, hnames]
    simp
  obtain ⟨table, htable⟩ : ∃ table, draft.tables[place.tables.length]? = some table := by
    cases htable : draft.tables[place.tables.length]? with
    | some table => exact ⟨table, rfl⟩
    | none =>
      rw [columnNames, htable] at hname
      cases hname
  rw [columnNames_eq htable, Table.columnNames, List.getElem?_map] at hname
  obtain ⟨column, hcolumn, hname⟩ := Option.map_eq_some_iff.mp hname
  -- to give the column its type again is to change nothing, in front of the rest as behind it
  let retype (column : Column) : Column := { column with dataType, typeOptions }
  have hretype : Column.PassesFlags retype :=
    ⟨⟨fun _ => rfl, fun _ => rfl⟩, fun _ => rfl, fun _ => rfl⟩
  have hthere := place.lt_length_columnNames dataType typeOptions
  have hagain := hends.leads_changeAt hretype hstate hstate hthere hrest
  rw [typed, changeAt_onColumn] at hagain
  have hsame : draft = draft.changeAt retype place.tables.length place.table.columns.length :=
    (hrest.unique hagain).2
  have htype : table.changeAt retype place.table.columns.length = table := by
    have hplace := congrArg (fun draft => draft.tables[place.tables.length]?) hsame
    rw [getElem?_changeAt, htable, Option.map_some, if_pos rfl] at hplace
    exact (Option.some.inj hplace).symm
  have hfixed : retype column = column := by
    have hplace := congrArg (fun table => table.columns[place.table.columns.length]?) htype
    dsimp only [Table.changeAt] at hplace
    rw [List.getElem?_modify_eq, hcolumn] at hplace
    exact Option.some.inj hplace
  exact ⟨table, column, htable, hcolumn, hname, (congrArg Column.dataType hfixed).symm,
    (congrArg Column.typeOptions hfixed).symm⟩

end TypePlace

/-! ### Dumps -/

/-- The tokens of a text hold no bracket that the text does not hold. -/
theorem not_mem_of_mem_ofText {text : List Char} (h : '[' ∉ text) :
    ∀ token ∈ ofText text, '[' ∉ token.toList := by
  intro token htoken hmem
  have hchars : '[' ∈ (ofText text).flatMap String.toList :=
    List.mem_flatMap.mpr ⟨token, htoken, hmem⟩
  rw [flatMap_toList_ofText] at hchars
  obtain ⟨c, hc, hlower⟩ := List.mem_map.mp hchars
  rw [(toLower_eq_iff_of_not_isWord rfl).mp hlower] at hc
  exact h (List.mem_filter.mp hc).1

/-- The tokens of a text whose brackets pair up do not begin with a closing one. -/
theorem head?_ofText_ne {text : List Char} (h : IsPaired text) :
    (ofText text).head? ≠ some ")" := by
  intro hhead
  have hdepth := expressionDepth?_ofText h
  obtain ⟨more, hmore⟩ := List.head?_eq_some_iff.mp hhead
  rw [hmore] at hdepth
  cases hdepth

/-- Arrays have the key that the column has. -/
theorem Table.hasPrimaryKey_changeAt_asArray (table : Table) (j : Nat) :
    (table.changeAt Column.asArray j).hasPrimaryKey = table.hasPrimaryKey := by
  have hkey : ∀ column : Column, column.asArray.isPrimaryKey = column.isPrimaryKey := by
    intro column
    rw [Column.asArray]
    split <;> rfl
  have hany : ∀ columns : List Column, columns.any (·.isPrimaryKey) =
      (columns.map (·.isPrimaryKey)).any id := fun columns => by rw [List.any_map]; rfl
  rw [hasPrimaryKey, hasPrimaryKey, hany, hany, changeAt, map_modify_of_eq _ _ hkey]

/-- A column of arrays in the place of a column leaves the selection of tables as it is. -/
theorem finalize_changeAt_asArray (options : Options) (tables : List Table) (j : Nat) :
    (Catalog.mk (tables.map (Table.changeAt Column.asArray j))).finalize options =
      ⟨((Catalog.mk tables).finalize options).tables.map (Table.changeAt Column.asArray j)⟩ := by
  have hname : ∀ table, (Table.changeAt Column.asArray j table).name = table.name := fun _ => rfl
  have hkey := fun table => Table.hasPrimaryKey_changeAt_asArray table j
  exact congrArg Catalog.mk (kept_map hname hkey [] tables)

/-- **Arrays of a type, in full.** A dump that gives a catalog declares a single table, and it shows
the name of a column, a type, and behind it nothing that says more of the type. Then the dump with
the mark behind the type gives the catalog in which the column is one of arrays, unless the mark
touches a word that stands alone. That column holds arrays, and its field type is the vector of what
it would be otherwise, or the option of it where null is allowed. -/
theorem arrays_of_type {front rest : List UInt8} {text : List Char}
    (place : TypePlace options front) (htype : IsTypeText options text) (hrest : EndsWord rest)
    (hends : EndsType (tokenize rest)) {dump arrayDump : List UInt8}
    (hdump : Shows dump front text rest) (harray : Shows arrayDump front (text ++ mark) rest)
    (hsingle : (tablesOf options dump).length = 1) {catalog : Catalog}
    (hparse : (parse options dump).result = .ok catalog) :
    (parse options arrayDump).result =
        resultUnless (arrayFault? (ofText text))
          ⟨catalog.tables.map (Table.changeAt Column.asArray place.table.columns.length)⟩ ∧
      ∀ table ∈ catalog.tables, ∃ column,
        table.columns[place.table.columns.length]? = some column ∧
        column.name = place.column.name ∧
        column.asArray.isArray = true ∧
        ('[' ∉ text → column.isArray = false) ∧
        (column.isArray = false → column.asArray.fieldType? =
          { column with isNotNull := true }.fieldType?.map fun field =>
            if column.isNotNull then vectorOf field else optionOf (vectorOf field)) := by
  have hmarked : IsPaired (text ++ mark) := by
    rw [IsPaired, depth?_append, htype.paired]
    rfl
  have htokens := place.tokensOf_eq hdump htype.paired hrest
  have harrayTokens := place.tokensOf_eq harray hmarked hrest
  rw [ofText_append_mark htype.paired htype.ends] at harrayTokens
  rw [parse, htokens] at hparse
  obtain ⟨draft, hall, hcatalog⟩ := exists_leads_of_result hparse
  obtain ⟨last, dataType, typeOptions, hlast, hread, hplain, harrays⟩ :=
    place.leads_typeTokens htype.tokens (head?_ofText_ne htype.paired)
  have hmore := hall.after hread
  obtain ⟨table, column, htable, hcolumn, hname, hdata, hoptions⟩ :=
    place.exists_column hends hlast hmore
  -- the table is the only one
  rw [tablesOf, htokens, hall.2] at hsingle
  obtain ⟨only, honly⟩ := List.length_eq_one_iff.mp hsingle
  have hfirst : place.tables.length = 0 := by
    have hlt := (List.getElem?_eq_some_iff.mp htable).1
    omega
  rw [honly, hfirst] at htable
  obtain rfl : only = table := Option.some.inj htable
  refine ⟨?_, fun kept hkept => ?_⟩
  · rw [parse, harrayTokens]
    cases hfault : arrayFault? (ofText text) with
    | some fault => exact place.result_of_arrayFault htype.tokens hfault (tokenize rest)
    | none =>
      obtain ⟨last', hlast', harray⟩ := harrays hfault
      have hthere := place.lt_length_columnNames dataType typeOptions
      have hbehind := hends.leads_changeAt Column.passesFlags_asArray hlast hlast' hthere hmore
      have htables : (draft.changeAt Column.asArray place.tables.length
          place.table.columns.length).tables =
          draft.tables.map (Table.changeAt Column.asArray place.table.columns.length) := by
        rw [tables_changeAt, honly, hfirst]
        rfl
      rw [(harray.append hbehind).result_parseTokens, htables, finalize_changeAt_asArray, ← hcatalog]
      rfl
  · rw [hcatalog] at hkept
    have hmem := mem_of_mem_finalize hkept
    rw [honly] at hmem
    obtain rfl := List.mem_singleton.mp hmem
    refine ⟨column, hcolumn, hname, column.isArray_asArray, fun htext => ?_,
      fun hcolumn => Column.fieldType?_asArray hcolumn⟩
    obtain ⟨hdata', hoptions'⟩ := hplain (not_mem_of_mem_ofText htext)
    exact Column.isArray_eq_false (hdata ▸ hdata') (hoptions ▸ hoptions')

/-- A column of character strings, with an option behind it, and one of arrays of them. -/
theorem arrays_of_varying :
    let front := "CREATE TABLE t (id integer PRIMARY KEY, c ".toList
    let text := "character varying(10)".toList
    let rest := " NOT NULL);".toList
    let column : Column := ⟨"c", "character", "varying(10)[]", true, false, false⟩
    (parse {} (bytesOf (front ++ (text ++ mark) ++ rest))).result =
        .ok ⟨[⟨"t", "t", none, [⟨"id", "integer", "", true, true, false⟩, column]⟩]⟩ ∧
      column.fieldType? = some "Vec<String>" := by
  intro front text rest column
  have hcalm : IsCalm (front ++ text ++ rest) := by decide
  have hcalm' : IsCalm (front ++ (text ++ mark) ++ rest) := by decide
  have hbehind : tokenize (bytesOf rest) = ["not", "null", ")", ";"] :=
    (tokenize_bytesOf rest).trans rfl
  have hrest : EndsWord (bytesOf rest) := ⟨0x20, (bytesOf rest).tail, by decide, Or.inl rfl⟩
  have htokens : tokensOf (bytesOf (front ++ text ++ rest)) =
      samplePlace.tokens ++ ["c", "character", "varying(10)", "not", "null", ")", ";"] :=
    (tokensOf_of_isCalm hcalm).trans rfl
  have htext : ofText text = ["character", "varying(10)"] := rfl
  have htype : TypeTokens {} (ofText text) := by
    rw [htext]
    exact ⟨_, ⟨"character", "", .character⟩, _, rfl, by decide, .character rfl⟩
  have hsingle : (tablesOf {} (bytesOf (front ++ text ++ rest))).length = 1 := by
    rw [tablesOf, htokens]
    rfl
  have hparse : (parse {} (bytesOf (front ++ text ++ rest))).result =
      .ok ⟨[⟨"t", "t", none, [⟨"id", "integer", "", true, true, false⟩,
        ⟨"c", "character", "varying(10)", true, false, false⟩]⟩]⟩ := by
    rw [parse, htokens]
    rfl
  have hresult := arrays_of_type samplePlace ⟨htype, by decide, by decide⟩ hrest
    (hbehind ▸ .word (by decide)) (shows_of_isCalm hcalm) (shows_of_isCalm hcalm') hsingle hparse
  exact ⟨hresult.1.trans rfl, by decide⟩

/-- **Arrays of timestamps with a time zone are refused**, and timestamps with one are not. -/
theorem arrays_of_zoned_timestamps_rejected :
    let dump (type : String) :=
      bytesOf ("CREATE TABLE t (id integer PRIMARY KEY, c ".toList ++ type.toList ++ ");".toList)
    (∃ catalog, (parse {} (dump "timestamp with time zone")).result = .ok catalog) ∧
      (parse {} (dump "timestamp with time zone[]")).result =
        .error (.unexpectedToken "zone[]") := by
  intro dump
  let tokens := ["create", "table", "t", "(", "id", "integer", "primary", "key", ",", "c",
    "timestamp", "with", "time"]
  have hplain : tokensOf (dump "timestamp with time zone") = tokens ++ ["zone", ")", ";"] :=
    (tokensOf_of_isCalm (by decide)).trans rfl
  have harray : tokensOf (dump "timestamp with time zone[]") = tokens ++ ["zone[]", ")", ";"] :=
    (tokensOf_of_isCalm (by decide)).trans rfl
  refine ⟨⟨⟨[⟨"t", "t", none, [⟨"id", "integer", "", true, true, false⟩,
      ⟨"c", "timestamp", "with time zone", false, false, false⟩]⟩]⟩, ?_⟩, ?_⟩
  · rw [parse, hplain]
    rfl
  · rw [parse, harray]
    rfl

end SqlCatalog
