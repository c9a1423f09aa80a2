import SqlCatalog.Proofs.Options.Normal

/-!
# Options that agree

Options are asked two things: whether a type is accepted and whether a table is left out. A
reader asks them of names in normal form only, so options that give the same answers for
these (`SqlCatalog.Options.Agrees`) give the same outcome for every dump
(`SqlCatalog.Options.Agrees.parse_eq`).

Names may be stored as a configuration has them, or added one by one, in normal form. Both
ways give options that agree: it makes no difference whether a name is cut down when it is
stored or when it is looked up, nor in which order the names are added
(`SqlCatalog.parse_build`).

Only the rules for the type of a column look at the options while tokens are read, and only at
what the token is as a type (`SqlCatalog.step_congr`).
-/

namespace SqlCatalog

open Identifier Text

variable {options options' : Options} {state : State} {draft : Draft} {token : String}
  {tokens : List String}

/-! ### What a reading sees of the options -/

/-- A type is looked up by its elements. -/
theorem ofToken?_congr
    (h : options.accepts (ColumnType.elementOf token) =
      options'.accepts (ColumnType.elementOf token)) :
    ColumnType.ofToken? options token = ColumnType.ofToken? options' token := by
  rw [ColumnType.ofToken?_eq, ColumnType.ofToken?_eq, ColumnType.family?, ColumnType.family?, h]

/-- **A token is read alike** under options under which it is the same type. -/
theorem step_congr (h : ColumnType.ofToken? options token = ColumnType.ofToken? options' token)
    (state : State) (draft : Draft) :
    step options state draft token = step options' state draft token := by
  cases state with
  | columnName => simp only [step, readType, h]
  | excludeEntry => simp only [step, readExclude, readType, h]
  | _ => rfl

/-- So are tokens one behind the other. -/
theorem run_congr
    (h : ∀ token ∈ tokens, ColumnType.ofToken? options token = ColumnType.ofToken? options' token)
    (state : State) (draft : Draft) :
    run options state draft tokens = run options' state draft tokens := by
  induction tokens generalizing state draft with
  | nil => rfl
  | cons token tokens ih =>
    obtain ⟨htoken, h⟩ := List.forall_mem_cons.mp h
    rw [run, run, step_congr htoken]
    dsimp only
    split
    · rfl
    · rw [ih h]

/-- **Tables are selected alike** under options under which the same are left out. -/
theorem selectFrom_congr {tables : List Table}
    (h : ∀ table ∈ tables, options.ignores table.name = options'.ignores table.name)
    (seen : List String) : selectFrom options seen tables = selectFrom options' seen tables := by
  induction tables generalizing seen with
  | nil => rfl
  | cons table tables ih =>
    obtain ⟨htable, h⟩ := List.forall_mem_cons.mp h
    have hskip : skipReason? options seen table = skipReason? options' seen table := by
      rw [skipReason?, skipReason?, htable]
    rw [selectFrom, selectFrom, hskip]
    split
    · rw [ih h]
    · rw [ih h]

/-- **The outcome of reading tokens** is settled by the run over them and by which of the tables
it declares are left out. -/
theorem parseTokens_congr
    (hrun : run options .idle {} tokens = run options' .idle {} tokens)
    (hignores : ∀ table ∈ (run options .idle {} tokens).draft.tables,
      options.ignores table.name = options'.ignores table.name) :
    parseTokens options tokens = parseTokens options' tokens := by
  rw [parseTokens, parseTokens, ← hrun, Catalog.select, Catalog.select,
    selectFrom_congr hignores]

/-! ### Agreement -/

/-- **Options that agree**: of names in normal form they accept the same types and leave out the
same tables. -/
structure Options.Agrees (options options' : Options) : Prop where
  /-- The types. -/
  accepts : ∀ type, IsNormal type → options.accepts type = options'.accepts type
  /-- The tables. -/
  ignores : ∀ table, IsNormal table → options.ignores table = options'.ignores table

/-- **Options that agree give the same outcome**, events included. -/
theorem Options.Agrees.parse_eq (h : options.Agrees options') (dump : List UInt8) :
    parse options dump = parse options' dump := by
  have hrun : run options .idle {} (tokensOf dump) = run options' .idle {} (tokensOf dump) :=
    run_congr (fun token _ => ofToken?_congr (h.accepts _ (isNormal_elementOf token))) _ _
  cases ho : (run options .idle {} (tokensOf dump)).outcome with
  | error e => rw [parse, parse, parseTokens, parseTokens, ← hrun, ho]
  | ok last =>
    have hl : Leads options .idle {} (tokensOf dump) last _ := ⟨ho, rfl⟩
    exact parseTokens_congr hrun fun table ht =>
      h.ignores _ (isNamed_of_leads hl ht).isNormal

/-! ### Names that are added -/

/-- **A call that adds a name to options.** -/
inductive Addition where
  /-- A type that is accepted. -/
  | type (name : String)
  /-- A table that is left out. -/
  | table (name : String)
deriving DecidableEq, Repr

namespace Options

/-- The options with a name more. -/
def add (options : Options) : Addition → Options
  | .type name => options.acceptType name
  | .table name => options.ignoreTable name

/-- **The options that some calls build**, one behind the other. -/
def build (calls : List Addition) : Options :=
  calls.foldl add {}

/-- **The calls for the names that options store**, one for each. -/
def additions (options : Options) : List Addition :=
  options.customTypes.toList.map .type ++ options.ignoredTables.toList.map .table

variable {calls : List Addition} {name : String}

theorem type_mem_additions : .type name ∈ options.additions ↔ name ∈ options.customTypes.toList := by
  simp [additions]

theorem table_mem_additions :
    .table name ∈ options.additions ↔ name ∈ options.ignoredTables.toList := by
  simp [additions]

/-- **What calls add to options** is looked up in normal form. -/
theorem foldl_add (calls : List Addition) (options : Options) (name : String) :
    ((calls.foldl add options).accepts name = true ↔
      options.accepts name = true ∨ ∃ added, .type added ∈ calls ∧ normalize added = name) ∧
    ((calls.foldl add options).ignores name = true ↔
      options.ignores name = true ∨ ∃ added, .table added ∈ calls ∧ normalize added = name) := by
  induction calls generalizing options with
  | nil => simp
  | cons call calls ih =>
    rw [List.foldl_cons, (ih _).1, (ih _).2]
    cases call with
    | type added =>
      have haccepts : (options.acceptType added).accepts name =
          (options.accepts name || normalize added == name) :=
        NameSet.covers_insert_normalize options.customTypes added name
      have hignores : (options.acceptType added).ignores name = options.ignores name := rfl
      rw [add, haccepts, hignores]
      simp [or_assoc, or_and_right, exists_or]
    | table added =>
      have haccepts : (options.ignoreTable added).accepts name = options.accepts name := rfl
      have hignores : (options.ignoreTable added).ignores name =
          (options.ignores name || normalize added == name) :=
        NameSet.covers_insert_normalize options.ignoredTables added name
      rw [add, haccepts, hignores]
      simp [or_assoc, or_and_right, exists_or]

/-- **Options agree with what their calls build.** -/
theorem agrees_build (h : ∀ call, call ∈ calls ↔ call ∈ options.additions) :
    (build calls).Agrees options := by
  constructor
  · intro type hnormal
    have hbuilt := (foldl_add calls {} type).1
    rw [Bool.eq_iff_iff, build, hbuilt, accepts, accepts, NameSet.covers_iff_of_isNormal hnormal,
      NameSet.covers_iff_of_isNormal hnormal]
    simp [h, type_mem_additions, NameSet.empty]
  · intro table hnormal
    have hbuilt := (foldl_add calls {} table).2
    rw [Bool.eq_iff_iff, build, hbuilt, ignores, ignores, NameSet.covers_iff_of_isNormal hnormal,
      NameSet.covers_iff_of_isNormal hnormal]
    simp [h, table_mem_additions, NameSet.empty]

end Options

/-- **Stored or added, names mean the same**: options give every dump the outcome that it has
under the options that are built from nothing by adding each of their names, once or several
times and in any order. The names may be stored in any form. -/
theorem parse_build {calls : List Addition}
    (h : ∀ call, call ∈ calls ↔ call ∈ options.additions) (dump : List UInt8) :
    parse (Options.build calls) dump = parse options dump :=
  (Options.agrees_build h).parse_eq dump

/-- Names with a schema, with quotes and in upper case, added with the table first. -/
theorem parse_build_of_loose_names :
    let options : Options := ⟨.ofList ["public.CITEXT", "\x22Mood\x22"], .ofList ["App.Audit"]⟩
    let calls : List Addition := [.table "App.Audit", .type "public.CITEXT", .type "\x22Mood\x22"]
    let dump := bytesOf ("CREATE TABLE t (id citext PRIMARY KEY, m mood[]); " ++
      "CREATE TABLE audit (id mood PRIMARY KEY);").toList
    (∀ call, call ∈ calls ↔ call ∈ options.additions) ∧
      parse (Options.build calls) dump = parse options dump ∧
      (parse options dump).result.toOption.map (fun catalog => catalog.tables.map Table.name) =
        some ["t"] := by
  intro options calls dump
  have hperm : calls.Perm options.additions := by decide
  exact ⟨fun _ => hperm.mem_iff, parse_build (fun _ => hperm.mem_iff) dump, by decide +kernel⟩

end SqlCatalog
