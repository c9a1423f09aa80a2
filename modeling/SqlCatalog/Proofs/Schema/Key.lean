import SqlCatalog.Proofs.Schema.Table

/-!
# Plain keys

The statement that gives a table its key (`SqlCatalog.PlainTable.keyText`). It is an
alteration of the table that adds a constraint, and the pass over a dump keeps the
constraint for its name (`SqlCatalog.PlainTable.isKept_keyText`).

The key is read in two ways. The column of a key of one column stays with its
brackets and makes one token, and of a longer key each column, comma and bracket is
a token of its own. In both cases the columns of the key are marked one by one in
the table that the statement names (`SqlCatalog.PlainTable.leads_key`).
-/

namespace SqlCatalog

open Text Noise Token Identifier

/-! ### Texts that are kept -/

/-- **A text that the pass keeps**, whatever follows. -/
def IsKept (text : List Char) : Prop :=
  ∀ rest : List Char, stripFrom .clear ((text ++ rest).map .char) =
    text.map .char ++ stripFrom .clear (rest.map .char)

theorem isKept_nil : IsKept [] := fun _ => rfl

theorem isKept_of_isCalm {text : List Char} (h : IsCalm text) : IsKept text :=
  h.stripFrom_append

theorem IsKept.append {a b : List Char} (ha : IsKept a) (hb : IsKept b) : IsKept (a ++ b) := by
  intro rest
  rw [List.append_assoc, ha, hb, List.map_append, List.append_assoc]

/-! ### Lists of names -/

/-- The characters of a list in brackets are those of its entries, and commas. -/
theorem of_mem_intercalate {p : Char → Prop} {entries : List (List Char)} (hcomma : p ',')
    (h : ∀ entry ∈ entries, ∀ c ∈ entry, p c) : ∀ c ∈ [','].intercalate entries, p c := by
  induction entries with
  | nil => exact nofun
  | cons entry entries ih =>
    obtain ⟨hentry, h⟩ := List.forall_mem_cons.mp h
    cases entries with
    | nil => rwa [List.intercalate_singleton]
    | cons next entries =>
      rw [List.intercalate_cons_cons]
      exact List.forall_mem_append.mpr ⟨List.forall_mem_append.mpr
        ⟨hentry, List.forall_mem_singleton.mpr hcomma⟩, ih h⟩

/-- A character that may stand in a list of names. -/
def isListChar (c : Char) : Bool :=
  isPlainChar c || c == ',' || c == ' '

/-- Neither brackets nor semicolons nor quotes stand in a list of names. -/
theorem ne_of_isListChar {c d : Char} (h : isListChar c) (hd : d ∈ ['(', ')', ';', quote]) :
    c ≠ d := by
  have hno : ∀ d ∈ ['(', ')', ';', quote], isListChar d = false := by decide
  rintro rfl
  rw [hno c hd] at h
  cases h

/-- No bracket of a list is opened or closed. -/
theorem depth?_list {list : List Char} (h : ∀ c ∈ list, isListChar c) :
    depth? 1 list = some 1 := by
  induction list with
  | nil => rfl
  | cons c list ih =>
    obtain ⟨hc, h⟩ := List.forall_mem_cons.mp h
    have hend : ¬(c = ';' ∨ (c = ',' ∨ c = ')') ∧ 1 = 0) := by
      rintro (rfl | ⟨-, hzero⟩)
      · exact ne_of_isListChar hc (by decide) rfl
      · cases hzero
    rw [depth?, if_neg hend, if_neg (ne_of_isListChar hc (by decide)),
      if_neg (ne_of_isListChar hc (by decide)), ih h]

/-- The brackets around a list are not nested. -/
theorem nesting_list {list : List Char} (h : ∀ c ∈ list, isListChar c) :
    nesting 1 (list ++ [')']) = 1 := by
  induction list with
  | nil => rfl
  | cons c list ih =>
    obtain ⟨hc, h⟩ := List.forall_mem_cons.mp h
    rw [List.cons_append, nesting, if_neg (ne_of_isListChar hc (by decide)),
      if_neg (ne_of_isListChar hc (by decide)), ih h]

/-- **A list of names in brackets** is the tail of a clause that is a key. -/
theorem isTail_list {list : List Char} (h : ∀ c ∈ list, isListChar c) :
    IsTail (" PRIMARY KEY (".toList ++ (list ++ [')'])) := by
  refine ⟨fun hmem => ?_, ?_, ?_⟩
  · have hwords : quote ∉ " PRIMARY KEY (".toList := by decide
    rcases List.mem_append.mp hmem with hmem | hmem
    · exact hwords hmem
    · rcases List.mem_append.mp hmem with hmem | hmem
      · exact ne_of_isListChar (h _ hmem) (by decide) rfl
      · exact absurd hmem (by decide)
  · have hwords : depth? 0 " PRIMARY KEY (".toList = some 1 := rfl
    rw [IsPaired, depth?_append, hwords, Option.bind_some, depth?_append, depth?_list h]
    rfl
  · have hwords : ∀ rest, nesting 0 (" PRIMARY KEY (".toList ++ rest) = nesting 1 rest :=
      fun _ => rfl
    rw [hwords, nesting_list h]
    decide

/-- **A name in brackets** is one token: the brackets pair up in the word, so they stay with it. -/
theorem PlainName.ofText_bracketed (name : PlainName) :
    ofText ('(' :: (name.text ++ [')'])) = [String.ofList ('(' :: (name.text ++ [')']))] := by
  have hword : IsWord ('(' :: (name.text ++ [')'])) :=
    isWord_cons.mpr ⟨rfl, isWord_append.mpr ⟨name.isPlainWord.isWord, by decide⟩⟩
  have hpaired : IsPaired ('(' :: (name.text ++ [')'])) := by
    have hdepth := depth?_add name.isPlainWord.isPaired 1
    rw [Nat.zero_add] at hdepth
    rw [IsPaired, depth?, if_neg (by decide), if_pos rfl, depth?_append, hdepth]
    rfl
  have hlower : lower ('(' :: (name.text ++ [')'])) = '(' :: (name.text ++ [')']) := by
    have hmap : lower ('(' :: (name.text ++ [')'])) = '(' :: (lower name.text ++ [')']) := by
      simp [lower]
    rw [hmap, name.isPlainWord.lower_eq]
  rw [ofText_paired hword (List.cons_ne_nil _ _) hpaired, hlower]

/-- A name behind a blank is one token. -/
theorem PlainName.ofText_spaced (name : PlainName) : ofText (' ' :: name.text) = [name.value] :=
  (@ofText_append_gap ' ' rfl [] name.text).trans name.ofText_text

namespace PlainTable

variable (table : PlainTable)

/-! ### The statement -/

/-- The name of the key of a table. -/
def keyName : List Char :=
  table.name.text ++ keyEnding

theorem isPlainWord_keyName : IsPlainWord table.keyName := by
  have hending : ∀ c ∈ keyEnding, isPlainChar c := by decide
  exact ⟨List.append_ne_nil_of_left_ne_nil table.name.isPlainWord.1 _,
    List.forall_mem_append.mpr ⟨table.name.isPlainWord.2, hending⟩⟩

theorem endsAsKey_keyName : endsAsKey table.keyName = true := by
  rw [endsAsKey, Bool.and_eq_true, decide_eq_true_iff, List.isSuffixOf_iff_suffix, keyName,
    List.length_append]
  exact ⟨Nat.lt_add_of_pos_left (List.length_pos_iff.mpr table.name.isPlainWord.1),
    List.suffix_append _ _⟩

/-- **The name of a key is that of a primary key.** -/
theorem isKeyName_keyName : Identifier.isKeyName (String.ofList table.keyName) = true := by
  have hplain : isPlain table.keyName = true := by
    have hname := table.name.isPlain
    have hending : keyEnding.all isRest = true := by decide
    rw [← PlainName.text] at hname
    rw [keyName]
    cases htext : table.name.text with
    | nil => rw [htext] at hname; cases hname
    | cons c text =>
      rw [htext] at hname
      rw [isPlain, Bool.and_eq_true] at hname
      rw [List.cons_append, isPlain, List.all_append, hname.1, hname.2, hending]
      rfl
  rw [Identifier.isKeyName, String.toList_ofList, Identifier.isName,
    dropEnds_of_isPlainWord table.isPlainWord_keyName, hplain, table.endsAsKey_keyName]
  rfl

/-- The columns of a key as its list has them: a blank stands in front of each but
the first. -/
def keyEntries : List (List Char) :=
  match table.key with
  | [] => []
  | first :: others => first.text :: others.map fun name => ' ' :: name.text

/-- **The statement that gives a table its key.** -/
def keyText : List Char :=
  phrase ["ALTER".toList, "TABLE".toList, "ONLY".toList,
    identifierText table.schema table.name] ++ (indent ++
  (phrase ["ADD".toList, "CONSTRAINT".toList, table.keyName, "PRIMARY".toList, "KEY".toList] ++
    ' ' :: '(' :: blockText table.keyEntries [] []))

theorem keyEntries_ne_nil : table.keyEntries ≠ [] := by
  rw [keyEntries]
  cases hkey : table.key with
  | nil => exact absurd hkey table.key_ne_nil
  | cons first others => exact List.cons_ne_nil _ _

/-- **What an entry of the list of a key is**: a plain word, perhaps behind a
blank. -/
theorem of_mem_keyEntries {entry : List Char} (h : entry ∈ table.keyEntries) :
    ∃ name : PlainName, entry = name.text ∨ entry = ' ' :: name.text := by
  rw [keyEntries] at h
  cases hkey : table.key with
  | nil => exact absurd hkey table.key_ne_nil
  | cons first others =>
    rw [hkey] at h
    rcases List.mem_cons.mp h with rfl | h
    · exact ⟨first, Or.inl rfl⟩
    · obtain ⟨name, -, rfl⟩ := List.mem_map.mp h
      exact ⟨name, Or.inr rfl⟩

/-! ### The constraint is kept -/

/-- The list of a key. -/
def keyList : List Char :=
  [','].intercalate table.keyEntries

theorem isListChar_of_mem : ∀ c ∈ table.keyList, isListChar c := by
  refine of_mem_intercalate rfl fun entry hmem c hc => ?_
  obtain ⟨name, rfl | rfl⟩ := table.of_mem_keyEntries hmem
  · rw [isListChar, name.isPlainWord.2 c hc]
    rfl
  · rcases List.mem_cons.mp hc with rfl | hc
    · rfl
    · rw [isListChar, name.isPlainWord.2 c hc]
      rfl

/-- **The constraint of a key** as a clause. -/
def keyClause : ClauseText where
  keyword := "CONSTRAINT".toList
  gap := [' ']
  name := ⟨false, table.keyName, false, table.isPlainWord_keyName.1, fun c hc => by
    rw [isNameChar, (of_isPlainChar (table.isPlainWord_keyName.2 c hc)).1]
    rfl⟩
  blank := ' '
  body := "PRIMARY KEY (".toList ++ (table.keyList ++ [')'])
  fold_keyword := map_fold_constraint
  gap_ne_nil := singleBlank_ne_nil
  isBlank_of_mem := isBlank_of_mem_singleBlank
  isBlank_blank := isBlank_singleBlank
  isTail := isTail_list table.isListChar_of_mem

theorem text_name_keyClause : table.keyClause.name.text = table.keyName :=
  List.append_nil _

/-- The clause is kept for its name. -/
theorem isKey_keyClause : table.keyClause.isKey = true := by
  have hchars : (table.keyName.map Glyph.char).map Glyph.toChar = table.keyName := by
    rw [List.map_map]
    exact List.map_id _
  rw [ClauseText.isKey, text_name_keyClause, Noise.isKeyName, hchars,
    dropQuotes_of_not_mem (table.isPlainWord_keyName.not_mem rfl),
    table.isPlainWord_keyName.lower_eq, table.endsAsKey_keyName]

/-- The clause in the statement of a key. -/
theorem keyText_eq :
    table.keyText = (phrase ["ALTER".toList, "TABLE".toList, "ONLY".toList,
      identifierText table.schema table.name] ++ (indent ++ "ADD ".toList)) ++
        (table.keyClause.text ++ [';']) := by
  have hphrase : phrase ["ADD".toList, "CONSTRAINT".toList, table.keyName, "PRIMARY".toList,
      "KEY".toList] = "ADD ".toList ++ ("CONSTRAINT ".toList ++ (table.keyName ++
        " PRIMARY KEY".toList)) := by
    rw [phrase_cons_cons, phrase_cons_cons, phrase_cons_cons, phrase_cons_cons, phrase_singleton]
    rfl
  have hclause : table.keyClause.text = "CONSTRAINT ".toList ++ (table.keyName ++
      (" PRIMARY KEY".toList ++ (" (".toList ++ (table.keyList ++ [')'])))) := by
    rw [ClauseText.text, text_name_keyClause]
    rfl
  have hblock : ' ' :: '(' :: blockText table.keyEntries [] [] =
      " (".toList ++ (table.keyList ++ ([')'] ++ [';'])) := rfl
  rw [keyText, hphrase, hclause, hblock]
  simp only [List.append_assoc]

/-- **The pass keeps the statement of a key.** -/
theorem isKept_keyText : IsKept table.keyText := by
  have hhead : IsSteady (phrase ["ALTER".toList, "TABLE".toList, "ONLY".toList,
      identifierText table.schema table.name]) := by
    have hwords : ∀ word ∈ ["ALTER".toList, "TABLE".toList, "ONLY".toList], IsSteady word := by
      decide
    refine isSteady_phrase (List.cons_ne_nil _ _) ?_
    simp only [List.forall_mem_cons] at hwords ⊢
    exact ⟨hwords.1, hwords.2.1, hwords.2.2.1, isSteady_identifierText _ _, nofun⟩
  have hadd : IsCalm ("    ".toList ++ "ADD ".toList) := by decide
  have hclause : IsKept (table.keyClause.text ++ [';']) := by
    intro rest
    have hstrip := table.keyClause.stripFrom_append (by decide : IsClauseEnd ';') rest
    rw [table.isKey_keyClause, if_pos rfl] at hstrip
    rwa [List.append_assoc, List.singleton_append]
  rw [keyText_eq]
  exact (isKept_of_isCalm (hhead.isCalm_append (by decide) hadd)).append hclause

/-! ### The tokens of the statement -/

/-- The tokens in front of the list of a key. -/
def keyHeadTokens : List String :=
  ["alter", "table", "only", table.identifier, "add", "constraint", String.ofList table.keyName,
    "primary", "key"]

/-- **The tokens of the list of a key**: one for a key of one column, and otherwise
one for each column, comma and bracket. -/
def keyListTokens (key : List PlainName) : List String :=
  match key with
  | [name] => [String.ofList ('(' :: (name.text ++ [')'])), ";"]
  | key => "(" :: blockTokens (key.map fun name => [name.value])

/-- **The tokens of the list** are those of its text. -/
theorem ofText_keyList :
    ofText ('(' :: blockText table.keyEntries [] []) = keyListTokens table.key := by
  have hpaired : ∀ entry ∈ table.keyEntries, IsPaired entry := by
    intro entry hmem
    have hblank : IsPaired [' '] := rfl
    obtain ⟨name, rfl | rfl⟩ := table.of_mem_keyEntries hmem
    · exact name.isPlainWord.isPaired
    · exact isPaired_append hblank name.isPlainWord.isPaired
  have hempty : ∀ c ∈ ([] : List Char), isGap c := by decide
  have hblock := ofText_blockText table.keyEntries_ne_nil hpaired hempty hempty
  rw [keyEntries] at hblock ⊢
  match hkey : table.key with
  | [] => exact absurd hkey table.key_ne_nil
  | [name] =>
    have htext : '(' :: blockText [name.text] [] [] = '(' :: (name.text ++ [')']) ++ ';' :: [] := by
      simp [blockText_singleton]
    dsimp only
    rw [List.map_nil, htext, ofText_append_semicolon, name.ofText_bracketed]
    rfl
  | first :: next :: others =>
    have hentries : (first.text :: (next :: others).map fun name => ' ' :: name.text).map ofText =
        (first :: next :: others).map fun name => [name.value] := by
      rw [List.map_cons, first.ofText_text, List.map_map]
      exact congrArg _ (List.map_congr_left fun name _ => name.ofText_spaced)
    rw [hkey] at hblock
    dsimp only at hblock ⊢
    rw [hentries, List.map_cons, blockText_cons_cons] at hblock
    rw [List.map_cons, blockText_cons_cons]
    have hopen := @ofText_append_open first.text ',' first.isPlainWord.isWord
      first.isPlainWord.surplus_eq rfl [] (blockText ((' ' :: next.text) ::
        others.map fun name => ' ' :: name.text) [] [])
    rw [hblock] at hopen
    exact hopen

theorem ofText_keyText : ofText table.keyText = table.keyHeadTokens ++ keyListTokens table.key := by
  have hidentifier : ofText (identifierText table.schema table.name) = [table.identifier] :=
    ofText_identifierText _ _
  have hname := table.isPlainWord_keyName.ofText_eq
  have hindent : ∀ rest, indent ++ rest = '\n' :: ("    ".toList ++ rest) := fun _ => rfl
  rw [keyText, hindent, ofText_append_gap rfl, ofText_gaps_append (by decide), ofText_append_gap rfl,
    ofText_keyList, ofText_phrase, ofText_phrase]
  simp only [List.flatMap_cons, List.flatMap_nil, hidentifier, hname]
  rfl

/-! ### Marking columns -/

/-- The first column of a name is the only one, so a key that takes it in is the same
for the others. -/
theorem modifyFirst?_toColumn (key : List PlainName) (name : PlainName)
    {columns : List PlainColumn} (hnodup : (columns.map (·.name.value)).Nodup)
    (hmem : name.value ∈ columns.map (·.name.value)) :
    modifyFirst? (·.name == name.value) (fun c => some c.asKey)
        (columns.map fun column => column.toColumn (column.isIn key)) =
      some (columns.map fun column => column.toColumn (column.isIn (key ++ [name]))) := by
  induction columns with
  | nil => cases hmem
  | cons column columns ih =>
    obtain ⟨hfirst, hnodup⟩ := List.nodup_cons.mp hnodup
    have hname : ∀ isKey, (column.toColumn isKey).name = column.name.value := fun _ => rfl
    have hsame : ∀ other : PlainColumn, name.value ≠ other.name.value →
        other.isIn (key ++ [name]) = other.isIn key := by
      intro other hne
      rw [other.isIn_append, beq_eq_false_iff_ne.mpr hne, Bool.or_false]
    rw [List.map_cons, List.map_cons, modifyFirst?, hname]
    by_cases he : column.name.value = name.value
    · have hothers : columns.map (fun column => column.toColumn (column.isIn (key ++ [name]))) =
          columns.map fun column => column.toColumn (column.isIn key) := by
        refine List.map_congr_left fun other hother => ?_
        rw [hsame other]
        intro heq
        refine hfirst ?_
        dsimp only
        rw [he, heq]
        exact List.mem_map_of_mem hother
      rw [if_pos (beq_iff_eq.mpr he), hothers, column.isIn_append, beq_iff_eq.mpr he.symm,
        Bool.or_true, column.asKey_toColumn]
      rfl
    · have hrest : name.value ∈ columns.map (·.name.value) :=
        (List.mem_cons.mp hmem).resolve_left (Ne.symm he)
      rw [if_neg (by simpa using he), ih hnodup hrest, hsame column (Ne.symm he)]
      rfl

/-- **A column marked** joins the key. -/
theorem markKey?_withKey (key : List PlainName) {name : PlainName}
    (h : name.value ∈ table.columns.map (·.name.value)) :
    (table.withKey key).markKey? name.value = some (table.withKey (key ++ [name])) := by
  rw [Table.markKey?, withKey, modifyFirst?_toColumn key name table.nodup h]
  rfl

/-- **A draft in the statement of a key**: the table waits, behind and in front of
others, and some of its columns are marked. -/
def keyDraft (before after : List Table) (key : List PlainName) : Draft :=
  Draft.stash { tables := before ++ table.withKey key :: after } table.identifier

variable {before : List Table} (after : List Table) (options : Options)

/-- A column of the waiting table is marked in it. -/
theorem markKey_keyDraft (hbefore : ∀ other ∈ before, other.rawIdentifier ≠ table.identifier)
    (key : List PlainName) {name : PlainName}
    (h : name.value ∈ table.columns.map (·.name.value)) :
    (table.keyDraft before after key).markKey .statement name.value =
      .ok (table.keyDraft before after (key ++ [name]),
        .primaryKey table.identifier name.value) := by
  have hunquote : unquote name.value = name.value := by
    rw [unquote, ← PlainName.text, dropQuotes_of_not_mem (name.isPlainWord.not_mem rfl),
      name.ofList_text]
  have hindex : (before ++ table.withKey key :: after).findIdx
      (·.rawIdentifier == table.identifier) = before.length := by
    have hno : before.findIdx (·.rawIdentifier == table.identifier) = before.length :=
      List.findIdx_eq_length_of_false fun other hother =>
        beq_eq_false_iff_ne.mpr (hbefore other hother)
    have hself : ((table.withKey key).rawIdentifier == table.identifier) = true := beq_self_eq_true _
    rw [List.findIdx_append, hno, if_neg (Nat.lt_irrefl _), List.findIdx_cons, hself, cond_true,
      Nat.zero_add]
  have hplace : (before ++ table.withKey key :: after)[before.length]? =
      some (table.withKey key) := by simp
  have htable : (table.keyDraft before after key).keyTable .statement name.value =
      .ok (before.length, table.withKey key) := by
    simp only [keyDraft, Draft.stash, Draft.keyTable, hindex, hplace]
  rw [Draft.markKey, hunquote, htable]
  simp only [table.markKey?_withKey key h, keyDraft, Draft.stash, Draft.setTable]
  simp [withKey]

/-! ### Reading the statement -/

/-- What stands in front of the list names the table, and the constraint is that of
a key. -/
theorem leads_keyHead (tables : List Table) :
    Leads options .idle { tables := tables } table.keyHeadTokens (.key .statement)
      (Draft.stash { tables := tables } table.identifier) := by
  have halter : Leads options .idle { tables := tables } ["alter", "table", "only"] .only
      { tables := tables } := ⟨rfl, rfl⟩
  have htable : Leads options .only { tables := tables } [table.identifier] (.tableName .alter)
      (Draft.stash { tables := tables } table.identifier) := by
    have hstep : step options .only { tables := tables } table.identifier =
        Step.goto (.tableName .alter) (Draft.stash { tables := tables } table.identifier) := by
      rw [step, readTableIdentifier, identifier, if_pos (isTableName_identifierText _ _)]
    exact .single hstep
  have hadd : Leads options (.tableName .alter)
      (Draft.stash { tables := tables } table.identifier) ["add", "constraint"]
      (.constraint .statement) (Draft.stash { tables := tables } table.identifier) := ⟨rfl, rfl⟩
  have hname : Leads options (.constraint .statement)
      (Draft.stash { tables := tables } table.identifier) [String.ofList table.keyName]
      (.keyName .statement) (Draft.stash { tables := tables } table.identifier) := by
    have hstep : step options (.constraint .statement)
        (Draft.stash { tables := tables } table.identifier) (String.ofList table.keyName) =
        Step.goto (.keyName .statement) (Draft.stash { tables := tables } table.identifier) := by
      rw [step, readConstraint, if_pos table.isKeyName_keyName]
    exact .single hstep
  have hkey : Leads options (.keyName .statement)
      (Draft.stash { tables := tables } table.identifier) ["primary", "key"] (.key .statement)
      (Draft.stash { tables := tables } table.identifier) := ⟨rfl, rfl⟩
  exact halter.append (htable.append (hadd.append (hname.append hkey)))

variable {key : List PlainName}

/-- The columns of a key of several columns are marked one by one. -/
theorem leads_keyColumns (hbefore : ∀ other ∈ before, other.rawIdentifier ≠ table.identifier)
    (marked : List PlainName) (hne : key ≠ [])
    (hkey : ∀ name ∈ key, name.value ∈ table.columns.map (·.name.value)) :
    Leads options (.keyColumns .statement) (table.keyDraft before after marked)
      (blockTokens (key.map fun name => [name.value])) .idle
      { tables := before ++ table.withKey (marked ++ key) :: after } := by
  induction key generalizing marked with
  | nil => exact absurd rfl hne
  | cons name key ih =>
    obtain ⟨hname, hkey⟩ := List.forall_mem_cons.mp hkey
    have hstep : step options (.keyColumns .statement) (table.keyDraft before after marked)
        name.value = ⟨.ok (.keyColumns .statement),
          table.keyDraft before after (marked ++ [name]),
          [.primaryKey table.identifier name.value]⟩ := by
      have hne : ∀ word : String, isColumnName word = false → name.value ≠ word := by
        rintro word hword rfl
        rw [name.isColumnName] at hword
        cases hword
      rw [step, readKeyColumns, if_neg (hne "," (by decide)), if_neg (hne ")" (by decide)),
        if_pos name.isColumnName, readKeyColumn, table.markKey_keyDraft after hbefore marked hname]
    cases key with
    | nil =>
      have hend : Leads options (.keyColumns .statement)
          (table.keyDraft before after (marked ++ [name])) [")", ";"] .idle
          { tables := before ++ table.withKey (marked ++ [name]) :: after } := ⟨rfl, rfl⟩
      rw [List.map_singleton, blockTokens_singleton]
      exact .cons hstep hend
    | cons next key =>
      have hcomma : Leads options (.keyColumns .statement)
          (table.keyDraft before after (marked ++ [name])) [","] (.keyColumns .statement)
          (table.keyDraft before after (marked ++ [name])) := ⟨rfl, rfl⟩
      have hrest := ih (marked ++ [name]) (List.cons_ne_nil _ _) hkey
      rw [List.append_assoc] at hrest
      simp only [List.map_cons, blockTokens_cons_cons] at hrest ⊢
      exact .cons hstep (hcomma.append hrest)

/-- **The list of a key is read**, in one of the two ways. -/
theorem leads_keyList (hbefore : ∀ other ∈ before, other.rawIdentifier ≠ table.identifier)
    (hne : key ≠ []) (hkey : ∀ name ∈ key, name.value ∈ table.columns.map (·.name.value)) :
    Leads options (.key .statement) (table.keyDraft before after []) (keyListTokens key) .idle
      { tables := before ++ table.withKey key :: after } := by
  match key, hne with
  | [name], _ =>
    have hcolumn : keyColumn? (String.ofList ('(' :: (name.text ++ [')']))) = some name.value := by
      rw [keyColumn?_ofList name.isName, name.ofList_text]
    have hopen : String.ofList ('(' :: (name.text ++ [')'])) ≠ "(" := by
      intro h
      have hcons : '(' :: (name.text ++ [')']) = ['('] := String.ofList_injective h
      simp at hcons
    have hstep : step options (.key .statement) (table.keyDraft before after [])
        (String.ofList ('(' :: (name.text ++ [')']))) = ⟨.ok (.keyEnd .statement),
          table.keyDraft before after [name], [.primaryKey table.identifier name.value]⟩ := by
      have hmark := table.markKey_keyDraft after hbefore [] (hkey name List.mem_cons_self)
      rw [step, readKey, if_neg hopen, hcolumn]
      dsimp only
      rw [readKeyColumn, hmark]
      rfl
    have hend : Leads options (.keyEnd .statement) (table.keyDraft before after [name]) [";"] .idle
        { tables := before ++ table.withKey [name] :: after } := ⟨rfl, rfl⟩
    exact .cons hstep hend
  | first :: next :: others, hne =>
    have hopen : Leads options (.key .statement) (table.keyDraft before after []) ["("]
        (.keyColumns .statement) (table.keyDraft before after []) := ⟨rfl, rfl⟩
    exact hopen.append (table.leads_keyColumns after options hbefore [] hne hkey)

/-- **The statement of a key is read**: the columns of the key are marked in the
table, and in no other one. -/
theorem leads_key (hbefore : ∀ other ∈ before, other.rawIdentifier ≠ table.identifier) :
    Leads options .idle { tables := before ++ table.withKey [] :: after }
      (table.keyHeadTokens ++ keyListTokens table.key) .idle
      { tables := before ++ table.withKey table.key :: after } :=
  (table.leads_keyHead options _).append
    (table.leads_keyList after options hbefore table.key_ne_nil table.mem_of_mem_key)

end PlainTable

end SqlCatalog
