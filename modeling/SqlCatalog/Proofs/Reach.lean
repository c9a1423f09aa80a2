import SqlCatalog.Proofs.Run
import SqlCatalog.Proofs.Transition

/-!
# What a run keeps

Reading begins outside all statements, with an empty draft. Whatever tokens have
been read since, the state and the draft agree: the draft is as the place of the
state says (`SqlCatalog.Draft.Fits`). The table of edits in
`SqlCatalog.Proofs.Place` makes this a statement about ten edits and not about
thirty states (`SqlCatalog.Edit.Moves.perform_fits`), and a run carries it along
(`SqlCatalog.Leads.fits`).

The operations on drafts have a way out for a draft in which what they are about
is missing. In a run this never happens: a state asks nothing of the draft that
is not there (`SqlCatalog.Draft.Serves`), and a token that is unexpected is so
whatever the draft holds (`SqlCatalog.fits_and_serves_of_reachable`).
-/

namespace SqlCatalog

open Identifier Step

namespace Draft

/-! ### Drafts at their places -/

/-- **What a draft looks like at a place.** -/
def Fits (draft : Draft) : Place → Prop
  | .outside => draft.pending = none ∧ draft.openTable = none ∧ draft.openColumn = none
  | .named =>
    (∃ identifier, draft.pending = some identifier ∧ isTableName identifier = true) ∧
      draft.openTable = none ∧ draft.openColumn = none
  | .block =>
    draft.pending = none ∧ draft.tables ≠ [] ∧
      draft.openTable = some (draft.tables.length - 1)
  | .column =>
    draft.pending = none ∧ draft.openTable = some (draft.tables.length - 1) ∧
      ∃ table, draft.tables.getLast? = some table ∧ table.columns ≠ [] ∧
        draft.openColumn = some (table.columns.length - 1)

variable {draft : Draft}

theorem fits_empty : Fits {} .outside := ⟨rfl, rfl, rfl⟩

/-- A draft fits between entries when its last table is the open one. -/
theorem fits_block_iff :
    draft.Fits .block ↔ ∃ tables table place, draft = inBlock tables table place := by
  constructor
  · rintro ⟨hp, hne, ho⟩
    obtain ⟨tables, table, ht⟩ := (List.eq_nil_or_concat _).resolve_left hne
    rw [List.concat_eq_append] at ht
    refine ⟨tables, table, draft.openColumn, ?_⟩
    rw [ht, List.length_append, List.length_singleton, Nat.add_sub_cancel] at ho
    cases draft
    simp_all [inBlock]
  · rintro ⟨tables, table, place, rfl⟩
    simp [Fits, inBlock]

/-- A draft fits in a column definition when the last column of its last table
is the one being read. -/
theorem fits_column_iff :
    draft.Fits .column ↔
      ∃ tables table columns column, draft = onColumn tables table columns column := by
  constructor
  · rintro ⟨hp, ho, table, hlast, hne, hc⟩
    obtain ⟨tables, ht⟩ := List.getLast?_eq_some_iff.mp hlast
    obtain ⟨columns, column, hcs⟩ := (List.eq_nil_or_concat _).resolve_left hne
    rw [List.concat_eq_append] at hcs
    refine ⟨tables, table, columns, column, ?_⟩
    rw [ht, List.length_append, List.length_singleton, Nat.add_sub_cancel] at ho
    rw [hcs, List.length_append, List.length_singleton, Nat.add_sub_cancel] at hc
    have htable : { table with columns := columns ++ [column] } = table := by rw [← hcs]
    rw [onColumn, htable]
    cases draft
    simp_all [inBlock]
  · rintro ⟨tables, table, columns, column, rfl⟩
    simp [Fits, onColumn, inBlock]

/-- The end of a column definition is between two entries. -/
theorem Fits.leave (h : draft.Fits .column) : draft.Fits .block := by
  obtain ⟨tables, table, columns, column, rfl⟩ := fits_column_iff.mp h
  exact fits_block_iff.mpr ⟨_, _, _, rfl⟩

/-- The draft in a column definition has a column being read. -/
theorem Fits.column? (h : draft.Fits .column) : draft.column?.isSome = true := by
  obtain ⟨tables, table, columns, column, rfl⟩ := fits_column_iff.mp h
  rw [column?_onColumn, Option.isSome_some]

/-- The draft in a column block has an open table. -/
theorem Fits.current? (h : draft.Fits .block) : draft.current?.isSome = true := by
  obtain ⟨tables, table, place, rfl⟩ := fits_block_iff.mp h
  rw [current?_inBlock, Option.isSome_some]

/-! ### Keys at their places -/

/-- What can be wrong with a key whose table and column are looked for: one of
the two is not there. -/
def IsUnknown (e : Error) : Prop :=
  (∃ table, e = .unknownTable table) ∨ ∃ table column, e = .unknownColumn table column

/-- The table of a key is looked for in a draft that fits, and found unless none
of its identifier is declared. -/
theorem keyTable_of_fits {scope : KeyScope} (h : draft.Fits scope.place) (column : String) :
    (∃ place, draft.keyTable scope column = .ok place) ∨
      ∃ table, draft.keyTable scope column = .error (.unknownTable table) := by
  cases scope with
  | block =>
    obtain ⟨place, hplace⟩ := Option.isSome_iff_exists.mp h.current?
    exact Or.inl ⟨place, by rw [keyTable, hplace]⟩
  | statement =>
    obtain ⟨⟨identifier, hp, -⟩, -⟩ := h
    simp only [keyTable, hp]
    split
    · exact Or.inl ⟨_, rfl⟩
    · exact Or.inr ⟨_, rfl⟩

/-- **A key column at its place**: it is marked in a draft that fits as before,
or it or its table is unknown. -/
theorem markKey_of_fits {scope : KeyScope} (h : draft.Fits scope.place) (identifier : String) :
    (∃ marked event, draft.markKey scope identifier = .ok (marked, event) ∧
        marked.Fits scope.place) ∨
      ∃ e, draft.markKey scope identifier = .error e ∧ IsUnknown e := by
  rcases keyTable_of_fits h (unquote identifier) with ⟨⟨i, table⟩, ht⟩ | ⟨table, ht⟩
  · simp only [markKey, ht]
    cases hm : table.markKey? (unquote identifier) with
    | none => exact Or.inr ⟨_, rfl, Or.inr ⟨_, _, rfl⟩⟩
    | some marked =>
      refine Or.inl ⟨_, _, rfl, ?_⟩
      cases scope with
      | statement => exact h
      | block =>
        obtain ⟨hp, hne, ho⟩ := h
        exact ⟨hp, by simpa [setTable] using hne, by simpa [setTable] using ho⟩
  · exact Or.inr ⟨.unknownTable table, by simp only [markKey, ht], Or.inl ⟨_, rfl⟩⟩

end Draft

open Draft

/-! ### Steps and runs -/

variable {options : Options} {state next : State} {draft draft' : Draft} {token : String}
  {tokens : List String}

/-- **What an edit does to a draft that fits**: it is performed and leaves a
draft that fits the next place, or it marks a key whose table or column is
unknown. Nothing an edit is about is missing. -/
theorem Edit.Moves.perform_fits {edit : Edit} {place : Place}
    (h : edit.Moves place next.place) (hd : draft.Fits place) :
    ((edit.perform next token draft).outcome = .ok next ∧
        (edit.perform next token draft).draft.Fits next.place) ∨
      ∃ e, (edit.perform next token draft).outcome = .error e ∧ IsUnknown e := by
  generalize hq : next.place = q at h
  cases h with
  | stay => exact Or.inl ⟨rfl, hd⟩
  | leave => exact Or.inl ⟨rfl, hd.leave⟩
  | stash hname => exact Or.inl ⟨rfl, ⟨_, rfl, hname⟩, hd.2⟩
  | discard => exact Or.inl ⟨rfl, rfl, hd.2⟩
  | openTable =>
    obtain ⟨⟨identifier, hp, -⟩, -⟩ := hd
    refine Or.inl ?_
    simp only [perform, openPending?, hp, Option.map_some, true_and]
    exact fits_block_iff.mpr ⟨_, _, none, rfl⟩
  | closeTable => exact Or.inl ⟨rfl, hd.1, rfl, rfl⟩
  | addColumn =>
    obtain ⟨tables, table, place, rfl⟩ := fits_block_iff.mp hd
    simp only [perform, pushColumn?_inBlock, gotoWith]
    exact Or.inl ⟨rfl, fits_column_iff.mpr ⟨_, _, _, _, rfl⟩⟩
  | change =>
    obtain ⟨tables, table, columns, column, rfl⟩ := fits_column_iff.mp hd
    simp only [perform, modifyColumn?_onColumn, gotoWith]
    exact Or.inl ⟨rfl, fits_column_iff.mpr ⟨_, _, _, _, rfl⟩⟩
  | addTyped =>
    obtain ⟨tables, table, place, rfl⟩ := fits_block_iff.mp hd
    simp only [perform, pushColumn?_inBlock, Option.bind_some, modifyColumn?_onColumn, gotoWith]
    exact Or.inl ⟨rfl, fits_column_iff.mpr ⟨_, _, _, _, rfl⟩⟩
  | markKey scope identifier =>
    simp only [perform, readKeyColumn]
    rcases markKey_of_fits hd identifier with ⟨marked, event, hm, hfits⟩ | ⟨e, hm, he⟩
    · exact Or.inl (by simpa only [hm, true_and] using hfits)
    · exact Or.inr ⟨e, by simp only [hm, Step.fail], he⟩

/-- **A step keeps state and draft in agreement.** -/
theorem fits_step (hd : draft.Fits state.place)
    (h : (step options state draft token).outcome = .ok next) :
    (step options state draft token).draft.Fits next.place := by
  obtain ⟨edit, ht, hp⟩ := exists_transition h
  rw [hp] at h ⊢
  rcases ht.moves.perform_fits hd with ⟨-, hfits⟩ | ⟨e, ho, -⟩
  · exact hfits
  · cases ho.symm.trans h

/-- **A reading keeps state and draft in agreement.** -/
theorem Leads.fits (h : Leads options state draft tokens next draft')
    (hd : draft.Fits state.place) : draft'.Fits next.place := by
  induction tokens generalizing state draft with
  | nil =>
    obtain ⟨rfl, rfl⟩ := leads_nil.mp h
    exact hd
  | cons token tokens ih =>
    obtain ⟨s, hs, h⟩ := leads_cons.mp h
    exact ih h (fits_step hd hs)

/-! ### What a reader never misses -/

/-- **What may be reached**: a state and a draft to which some tokens lead from
the start. -/
def Reachable (options : Options) (state : State) (draft : Draft) : Prop :=
  ∃ tokens, Leads options .idle {} tokens state draft

theorem Reachable.fits (h : Reachable options state draft) : draft.Fits state.place :=
  h.elim fun _ hl => hl.fits fits_empty

/-- **A draft serves a state** when every operation that the rules of the state
perform finds what it is about. -/
structure Draft.Serves (draft : Draft) (state : State) : Prop where
  /-- A table waits where one may be opened. -/
  opens : state = .tableName .create → draft.openPending?.isSome = true
  /-- A table is open where a column may be added. -/
  adds : state = .blockEntry ∨ state = .excludeEntry →
    ∀ identifier, (draft.pushColumn? identifier).isSome = true
  /-- A column added is there for its type. -/
  addsTyped : state = .excludeEntry → ∀ identifier f,
    ((draft.pushColumn? identifier).bind (·.modifyColumn? f)).isSome = true
  /-- A column is being read where one may be changed. -/
  changes : state.place = .column → ∀ f, (draft.modifyColumn? f).isSome = true
  /-- A key column is refused only because it or its table is unknown. -/
  marks : ∀ scope, state = .key scope ∨ state = .keyColumns scope →
    ∀ identifier e, draft.markKey scope identifier = .error e → IsUnknown e

/-- A draft that fits the place of a state serves the state. -/
theorem Draft.Fits.serves (h : draft.Fits state.place) : draft.Serves state where
  opens hs := by
    subst hs
    obtain ⟨⟨identifier, hp, -⟩, -⟩ := h
    rw [isSome_openPending?, hp, Option.isSome_some]
  adds hs identifier := by
    rw [isSome_pushColumn?]
    rcases hs with rfl | rfl <;> exact h.current?
  addsTyped hs identifier f := by
    subst hs
    obtain ⟨tables, table, place, rfl⟩ := fits_block_iff.mp h
    rw [pushColumn?_inBlock, Option.bind_some, modifyColumn?_onColumn, Option.isSome_some]
  changes hs f := by
    rw [hs] at h
    rw [isSome_modifyColumn?]
    exact h.column?
  marks scope hs identifier e he := by
    have hfits : draft.Fits scope.place := by rcases hs with rfl | rfl <;> exact h
    rcases markKey_of_fits hfits identifier with ⟨marked, event, hm, -⟩ | ⟨e', hm, hu⟩
    · rw [hm] at he
      cases he
    · rw [hm] at he
      cases he
      exact hu

/-- **A token is unexpected whatever the draft**: where a draft fits, it is never
for something missing in it that a token is called unexpected. -/
theorem step_eq_unexpected_of_fits {e : String} (hd : draft.Fits state.place)
    (h : (step options state draft token).outcome = .error (.unexpectedToken e))
    (other : Draft) : step options state other token = unexpected token other := by
  rcases step_ruled token options state with hu | ⟨next, edit, hmoves, hp⟩
  · exact hu other
  · rw [hp draft] at h
    rcases hmoves.perform_fits hd with ⟨ho, -⟩ | ⟨e', ho, hu⟩
    · cases ho.symm.trans h
    · cases ho.symm.trans h
      rcases hu with ⟨_, hu⟩ | ⟨_, _, hu⟩ <;> cases hu

/-- **State and draft agree in every run.** Whatever tokens have been read, the
draft is as the place of the state says, everything that the rules of the state
ask of it is there, and whether a token is unexpected is settled by the state
and the token alone. -/
theorem fits_and_serves_of_reachable (h : Reachable options state draft) :
    draft.Fits state.place ∧ draft.Serves state ∧
      ∀ token e, (step options state draft token).outcome = .error (.unexpectedToken e) →
        ∀ other, step options state other token = unexpected token other :=
  ⟨h.fits, h.fits.serves, fun _ _ he => step_eq_unexpected_of_fits h.fits he⟩

/-- The draft behind the second column of a second table: the places of both are
the last ones. -/
theorem fits_and_serves_in_second_table :
    ∃ draft, Reachable {} .columnOption draft ∧ draft.openTable = some 1 ∧
      draft.openColumn = some 1 ∧ draft.Fits .column ∧ draft.Serves .columnOption := by
  have h : Reachable {} .columnOption
      (run {} .idle {} ["create", "table", "a", "(", "id", "uuid", ")", ";", "create", "table",
        "b", "(", "id", "uuid", ",", "n", "int", "not", "null"]).draft := ⟨_, rfl, rfl⟩
  exact ⟨_, h, rfl, rfl, (fits_and_serves_of_reachable h).1, (fits_and_serves_of_reachable h).2.1⟩

end SqlCatalog
