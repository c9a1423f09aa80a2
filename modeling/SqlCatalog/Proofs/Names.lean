import SqlCatalog.Proofs.Growth

/-!
# Names in a run

A reader accepts names only, so a draft that a run leads to holds no other texts in their
place: every table is declared under an identifier that may stand behind `create table`
(`SqlCatalog.IsTableIdentifier`), and the name of every column is a plain identifier
(`SqlCatalog.Reachable.isNamed`).

For columns this is read off how a draft grows. For tables it is not, since between the name
of a table and the bracket behind it the name waits: an alteration may name a table `only`,
which no declaration can. So the state has to say which of the two a name waits for, and all
that is needed of the states is how the one in front of the bracket is entered and left
(`SqlCatalog.step_tableName`, `SqlCatalog.Transition.opens`).
-/

namespace SqlCatalog

open Identifier Step

/-- **An identifier that a table may be declared under**: a table name, but none of the words
that have another meaning behind `create table`. -/
def IsTableIdentifier (identifier : String) : Prop :=
  isTableName identifier = true ∧ identifier ∉ ["if", "only"]

instance (identifier : String) : Decidable (IsTableIdentifier identifier) :=
  inferInstanceAs (Decidable (_ ∧ _))

/-- **A draft holds names**: the identifiers of its tables are such as tables may be declared
under, and the names of its columns are plain. -/
structure Draft.IsNamed (draft : Draft) : Prop where
  /-- The identifiers of the tables. -/
  identifiers : ∀ identifier ∈ draft.identifiers, IsTableIdentifier identifier
  /-- The names of the columns. -/
  columnNames : ∀ i, ∀ name ∈ draft.columnNames i, isPlain name.toList = true

theorem Draft.isNamed_empty : Draft.IsNamed {} :=
  ⟨nofun, fun _ _ h => by cases h⟩

variable {options : Options} {state next : State} {draft draft' : Draft} {token : String}
  {tokens : List String}

/-! ### The name of a table that is declared -/

/-- A bracket is all that leads from the name of a table into a block. -/
theorem Edit.Moves.eq_openTable {edit : Edit} (h : edit.Moves .named .block) :
    edit = .openTable := by
  generalize hp : Place.named = p at h
  generalize hq : Place.block = q at h
  cases h with
  | openTable => rfl
  | stay | markKey => cases hp.trans hq.symm
  | discard => cases hq
  | _ => cases hp

/-- **A block is opened** behind the name of a table that is declared, and nowhere else. -/
theorem Transition.opens {edit : Edit} (h : Transition options token state edit next)
    (hs : state.place = .named) (hn : next.place = .block) : state = .tableName .create := by
  have hmoves := h.moves
  rw [hs, hn] at hmoves
  obtain rfl := hmoves.eq_openTable
  cases h
  rfl

/-- **Where the name of a table to be declared comes from**: the token in front of the bracket
is that name. -/
theorem step_tableName (h : (step options state draft token).outcome = .ok (.tableName .create)) :
    IsTableIdentifier token ∧
      (step options state draft token).draft = draft.stash token := by
  obtain ⟨edit, ht, hp⟩ := exists_transition h
  obtain ⟨-, rfl, hname⟩ := ht.declares rfl
  rw [hp]
  exact ⟨hname, rfl⟩

/-! ### Runs -/

/-- **One token keeps names**: those in the draft, and the one that waits to be declared. -/
theorem isNamed_step (hd : draft.IsNamed)
    (hp : state = .tableName .create → ∀ identifier, draft.pending = some identifier →
      IsTableIdentifier identifier)
    (h : (step options state draft token).outcome = .ok next) :
    (step options state draft token).draft.IsNamed ∧
      (next = .tableName .create → ∀ identifier,
        (step options state draft token).draft.pending = some identifier →
          IsTableIdentifier identifier) := by
  constructor
  · have hgrowth := growth_step h
    generalize hs : state.place = p at hgrowth
    generalize hn : next.place = q at hgrowth
    cases hgrowth with
    | same hi hc =>
      exact ⟨by rw [hi]; exact hd.identifiers, fun k => by rw [hc k]; exact hd.columnNames k⟩
    | table hpending hi hc =>
      -- a block is opened, so the table that waited was to be declared
      obtain ⟨edit, ht, -⟩ := exists_transition h
      have hstate := ht.opens hs hn
      refine ⟨fun identifier hmem => ?_, fun k => by rw [hc k]; exact hd.columnNames k⟩
      rw [hi, List.mem_append, List.mem_singleton] at hmem
      rcases hmem with hmem | rfl
      · exact hd.identifiers identifier hmem
      · exact hp hstate _ hpending
    | column hname _ hi hc =>
      refine ⟨by rw [hi]; exact hd.identifiers, fun k name hmem => ?_⟩
      rw [hc k] at hmem
      split at hmem
      · rcases List.mem_append.mp hmem with hmem | hmem
        · exact hd.columnNames _ name hmem
        · rw [List.mem_singleton.mp hmem]
          exact isPlain_unquote hname
      · exact hd.columnNames k name hmem
  · rintro rfl identifier hidentifier
    obtain ⟨htoken, hstash⟩ := step_tableName h
    rw [hstash] at hidentifier
    cases hidentifier
    exact htoken

/-- A reading keeps names. -/
theorem Leads.isNamed (h : Leads options state draft tokens next draft') (hd : draft.IsNamed)
    (hp : state = .tableName .create → ∀ identifier, draft.pending = some identifier →
      IsTableIdentifier identifier) : draft'.IsNamed := by
  induction tokens generalizing state draft with
  | nil =>
    obtain ⟨-, rfl⟩ := leads_nil.mp h
    exact hd
  | cons token tokens ih =>
    obtain ⟨s, hs, h⟩ := leads_cons.mp h
    obtain ⟨hnamed, hpending⟩ := isNamed_step hd hp hs
    exact ih h hnamed hpending

/-- **A draft that a run leads to holds names.** -/
theorem Reachable.isNamed (h : Reachable options state draft) : draft.IsNamed :=
  h.elim fun _ hl => hl.isNamed Draft.isNamed_empty nofun

end SqlCatalog
