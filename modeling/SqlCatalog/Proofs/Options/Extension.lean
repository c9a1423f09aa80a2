import SqlCatalog.Proofs.History
import SqlCatalog.Proofs.Options.Agreement

/-!
# A type more

Accepting a type more changes nothing for the dumps that are read without it. A token that is
a type already is the same type as before, with the same name, modifier and family, even if it
is one of the types that more tokens follow (`SqlCatalog.ofToken?_acceptType`). So two runs, one
under the options as they were and one under those with the type more, go together until a token
is read as a type which was none before. Where the type of a column is due the run without the
type ends there, since such a token is unexpected (`SqlCatalog.run_acceptType`).

There is one other place where it is asked whether a token is a type: behind the word `exclude`
at the head of an entry, which begins a constraint unless a type follows. There a type more may
turn a constraint into a column, so the dumps that this file speaks of have no such word.

| the token that is a type now | without the type | with it |
|---|---|---|
| behind the name of a column | is unexpected | is the type of the column |
| behind `exclude` | begins a constraint | is the type of a column called `exclude` |
| anywhere else | is not read as a type | is not read as a type |
-/

namespace SqlCatalog

open Identifier Text

variable {options options' : Options} {state next : State} {draft : Draft} {token : String}
  {tokens : List String} {type : ColumnType} {dump : List UInt8} {name : String}

/-! ### Types -/

/-- **A token keeps its type** where no type is accepted less. -/
theorem ofToken?_mono (h : ∀ name, options.accepts name = true → options'.accepts name = true)
    (htype : ColumnType.ofToken? options token = some type) :
    ColumnType.ofToken? options' token = some type := by
  rw [ColumnType.ofToken?_eq, Option.map_eq_some_iff] at htype ⊢
  obtain ⟨family, hfamily, rfl⟩ := htype
  refine ⟨family, ?_, rfl⟩
  rw [ColumnType.family?] at hfamily ⊢
  split
  next hcharacter => rwa [if_pos hcharacter] at hfamily
  next hcharacter =>
    rw [if_neg hcharacter] at hfamily
    split
    next hclock => rwa [if_pos hclock] at hfamily
    next hclock =>
      rw [if_neg hclock] at hfamily
      split
      next hdouble => rwa [if_pos hdouble] at hfamily
      next hdouble =>
        rw [if_neg hdouble] at hfamily
        split at hfamily
        next hknown =>
          rw [Bool.or_eq_true] at hknown
          rwa [if_pos (Bool.or_eq_true_iff.mpr (hknown.imp_right (h _)))]
        next => cases hfamily

/-- **A type more**: the types that were accepted, and the normal form of the name. -/
theorem accepts_acceptType (options : Options) (name type : String) :
    (options.acceptType name).accepts type = (options.accepts type || normalize name == type) :=
  NameSet.covers_insert_normalize options.customTypes name type

/-- **What a type more changes in a token**: nothing, or it was no type and its elements are of
the type that is accepted now. -/
theorem ofToken?_acceptType (options : Options) (name token : String) :
    ColumnType.ofToken? (options.acceptType name) token = ColumnType.ofToken? options token ∨
      ColumnType.ofToken? options token = none ∧ ColumnType.elementOf token = normalize name := by
  by_cases helement : ColumnType.elementOf token = normalize name
  · cases htype : ColumnType.ofToken? options token with
    | none => exact Or.inr ⟨rfl, helement⟩
    | some type =>
      refine Or.inl (ofToken?_mono (fun other haccepts => ?_) htype)
      rw [accepts_acceptType, haccepts, Bool.true_or]
  · refine Or.inl (ofToken?_congr ?_)
    rw [accepts_acceptType, beq_eq_false_iff_ne.mpr (Ne.symm helement), Bool.or_false]

/-! ### Runs -/

/-- Where no type may come, the options do not count. -/
theorem step_eq_of_ne (hname : state ≠ .columnName) (hexclude : state ≠ .excludeEntry) :
    step options state draft token = step options' state draft token := by
  cases state with
  | columnName => exact absurd rfl hname
  | excludeEntry => exact absurd rfl hexclude
  | _ => rfl

/-- Only the word `exclude` leads to the place behind it. -/
theorem ne_excludeEntry (h : (step options state draft token).outcome = .ok next)
    (htoken : token ≠ "exclude") : next ≠ .excludeEntry := by
  rintro rfl
  obtain ⟨edit, ht, -⟩ := exists_transition h
  exact htoken (List.mem_singleton.mp (ht.mem_lastWords (List.cons_ne_nil _ _)))

/-- **A column that is missing its type**: the tokens lead to a column whose type is due, and the
token behind them is no type, though its elements are of the type named. -/
def LacksType (options : Options) (state : State) (draft : Draft) (tokens : List String)
    (type : String) (token : String) : Prop :=
  ∃ front rest draft', tokens = front ++ token :: rest ∧
    Leads options state draft front .columnName draft' ∧
    (step options .columnName draft' token).outcome = .error (.unexpectedToken token) ∧
    ColumnType.elementOf token = type

/-- A token more in front. -/
theorem LacksType.cons {first : String}
    (hs : (step options state draft first).outcome = .ok next)
    (h : LacksType options next (step options state draft first).draft tokens name token) :
    LacksType options state draft (first :: tokens) name token := by
  obtain ⟨front, rest, draft', rfl, hl, herror, helement⟩ := h
  exact ⟨first :: front, rest, draft', rfl, leads_cons.mpr ⟨next, hs, hl⟩, herror, helement⟩

/-- A token that is a type now and was none ends the run where a type was due. -/
theorem lacksType_of_ofToken? (h : ColumnType.ofToken? options token = none) :
    LacksType options .columnName draft (token :: tokens) (ColumnType.elementOf token) token := by
  refine ⟨[], tokens, draft, rfl, .refl, ?_, rfl⟩
  simp only [step, readType, h]
  rfl

/-- The run ends with the error of that token. -/
theorem LacksType.outcome_run (h : LacksType options state draft tokens name token) :
    (run options state draft tokens).outcome = .error (.unexpectedToken token) := by
  obtain ⟨front, rest, draft', rfl, hl, herror, -⟩ := h
  exact hl.outcome_of_rejected herror

/-- **Two runs that go together**: with a type more the run is the same, or the run without it
ends at a column that is missing the type. -/
theorem run_acceptType (options : Options) (name : String) (hexclude : "exclude" ∉ tokens)
    (hstate : state ≠ .excludeEntry) (draft : Draft) :
    run (options.acceptType name) state draft tokens = run options state draft tokens ∨
      ∃ token, LacksType options state draft tokens (normalize name) token := by
  induction tokens generalizing state draft with
  | nil => exact Or.inl rfl
  | cons token tokens ih =>
    rw [List.mem_cons, not_or] at hexclude
    obtain ⟨htoken, hexclude⟩ := hexclude
    have hgo : step (options.acceptType name) state draft token = step options state draft token →
        run (options.acceptType name) state draft (token :: tokens) =
            run options state draft (token :: tokens) ∨
          ∃ token', LacksType options state draft (token :: tokens) (normalize name) token' := by
      intro hstep
      cases ho : (step options state draft token).outcome with
      | error e =>
        have ho' := ho
        rw [← hstep] at ho'
        rw [run_cons_of_error ho, run_cons_of_error ho', hstep]
        exact Or.inl rfl
      | ok next =>
        rcases ih hexclude (ne_excludeEntry ho (Ne.symm htoken))
          (step options state draft token).draft with hrun | ⟨last, hlacks⟩
        · left
          simp only [run, hstep, ho, hrun]
        · exact Or.inr ⟨last, hlacks.cons ho⟩
    rcases ofToken?_acceptType options name token with hsame | ⟨hnone, helement⟩
    · exact hgo (step_congr hsame state draft)
    · by_cases hname : state = .columnName
      · subst hname
        exact Or.inr ⟨token, helement ▸ lacksType_of_ofToken? hnone⟩
      · exact hgo (step_eq_of_ne hname hstate)

/-! ### Dumps -/

/-- **With a type more the outcome is the same**, events included, unless it was an error at a
column that is missing the type. -/
theorem parse_acceptType (options : Options) (name : String) (h : "exclude" ∉ tokensOf dump) :
    parse (options.acceptType name) dump = parse options dump ∨
      ∃ token, LacksType options .idle {} (tokensOf dump) (normalize name) token ∧
        (parse options dump).result = .error (.unexpectedToken token) := by
  rcases run_acceptType options name h (by simp : State.idle ≠ .excludeEntry) {} with
    hrun | ⟨token, hlacks⟩
  · -- the tables that are left out are the same
    exact Or.inl (parseTokens_congr hrun fun _ _ => rfl)
  · exact Or.inr ⟨token, hlacks, result_parseTokens_of_error hlacks.outcome_run⟩

/-- **Types extend a reader conservatively.** A dump without the word `exclude` that is read under
some options is read under the same options with a type more, and has the same catalog. If it is
not read, it is not read for the same reason, unless the token that was unexpected stands where the
type of a column is due and its elements are of that type. -/
theorem acceptType_is_conservative (options : Options) (name : String)
    (h : "exclude" ∉ tokensOf dump) :
    (∀ catalog, (parse options dump).result = .ok catalog →
      (parse (options.acceptType name) dump).result = .ok catalog) ∧
    ∀ e, (parse options dump).result = .error e →
      (parse (options.acceptType name) dump).result = .error e ∨
        ∃ token, e = .unexpectedToken token ∧
          LacksType options .idle {} (tokensOf dump) (normalize name) token := by
  rcases parse_acceptType options name h with hsame | ⟨token, hlacks, herror⟩
  · rw [hsame]
    exact ⟨fun _ => id, fun _ => Or.inl⟩
  · rw [herror]
    refine ⟨nofun, fun e he => Or.inr ⟨token, ?_, hlacks⟩⟩
    exact (Except.error.inj he).symm

/-- A type that is one already, under another name, and a type that is new. -/
theorem acceptType_of_time_and_citext :
    let clock := bytesOf "CREATE TABLE t (id integer PRIMARY KEY, at time with time zone);".toList
    let mail := bytesOf "CREATE TABLE t (id integer PRIMARY KEY, mail citext[]);".toList
    ("exclude" ∉ tokensOf clock ∧
      ∃ catalog, (parse {} clock).result = .ok catalog ∧
        (parse (Options.acceptType {} "pg_catalog.TIME") clock).result = .ok catalog) ∧
    "exclude" ∉ tokensOf mail ∧ (parse {} mail).result = .error (.unexpectedToken "citext[]") ∧
      (parse (Options.acceptType {} "public.CITEXT") mail).result.isOk = true ∧
      LacksType {} .idle {} (tokensOf mail) "citext" "citext[]" := by
  intro clock mail
  have hclock : "exclude" ∉ tokensOf clock := by decide +kernel
  have hmail : "exclude" ∉ tokensOf mail := by decide +kernel
  have hread : (parse {} clock).result.isOk = true := by decide +kernel
  have herror : (parse {} mail).result = .error (.unexpectedToken "citext[]") := by decide +kernel
  have hmore : (parse (Options.acceptType {} "public.CITEXT") mail).result.isOk = true := by
    decide +kernel
  have hname : normalize "public.CITEXT" = "citext" := by decide +kernel
  refine ⟨⟨hclock, ?_⟩, hmail, herror, hmore, ?_⟩
  · cases hresult : (parse {} clock).result with
    | error e => rw [hresult] at hread; cases hread
    | ok catalog => exact ⟨catalog, rfl, (acceptType_is_conservative {} _ hclock).1 _ hresult⟩
  · rcases (acceptType_is_conservative {} "public.CITEXT" hmail).2 _ herror with
      hsame | ⟨token, htoken, hlacks⟩
    · rw [hsame] at hmore
      cases hmore
    · obtain rfl := Error.unexpectedToken.inj htoken
      rwa [hname] at hlacks

/-- A type that is named as the word behind `exclude` makes a column of a constraint, and the dump
is not read any more. -/
example :
    let dump := bytesOf
      "CREATE TABLE t (id integer PRIMARY KEY, EXCLUDE USING gist (id WITH =));".toList
    (parse {} dump).result.isOk = true ∧
      (parse (Options.acceptType {} "using") dump).result = .error (.unexpectedToken "gist") := by
  decide +kernel

end SqlCatalog
