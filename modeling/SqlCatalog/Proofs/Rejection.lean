import SqlCatalog.Proofs.Key.Mark
import SqlCatalog.Proofs.Reach

/-!
# What a rejection says

The error that ends a run has to be found again in the dump. Most rules reject a token by name,
but one error is made below the rules: a column of a key is looked for in the draft, and what
is said there is said with the name that the token stands for. Such a name would be no token of
the dump. It is said in a fault of the key (`SqlCatalog.Draft.KeyFault`): the table or the column
that the key means was not declared. The other errors that the draft can make are about a table
that neither waits nor is open, and no run comes to that (`SqlCatalog.Draft.Fits`).

So a run names the very token that it rejects, unless the token is a column of a key
(`SqlCatalog.IsKeyColumn`); and a column of a key is rejected exactly for the faults of the key
(`SqlCatalog.rejection_names_token`).
-/

namespace SqlCatalog

open Identifier Step

/-! ### Columns of keys -/

/-- **A column of a key**, in the states in which one is due. -/
inductive IsKeyColumn : State → String → KeyScope → String → Prop where
  /-- The only one, which makes a token with its brackets. -/
  | joined {scope : KeyScope} {token column : String} (h : keyColumn? token = some column) :
    IsKeyColumn (.key scope) token scope column
  /-- One in a list. -/
  | listed {scope : KeyScope} {token : String} (h : isColumnName token = true) :
    IsKeyColumn (.keyColumns scope) token scope token

/-- **What may be wrong with a column of a key**, and what is said of it. -/
inductive Draft.KeyFault (draft : Draft) : KeyScope → String → Error → Prop where
  /-- No table has the identifier that waits. -/
  | table {identifier column : String} (hp : draft.pending = some identifier)
    (h : identifier ∉ draft.identifiers) :
    KeyFault draft .statement column (.unknownTable identifier)
  /-- The table of the key has no column of the name. -/
  | column {scope : KeyScope} {column : String} {i : Nat} {table : Table}
    (hi : draft.keyPlace? scope = some i) (ht : draft.tables[i]? = some table)
    (h : unquote column ∉ table.columnNames) :
    KeyFault draft scope column (.unknownColumn table.rawIdentifier (unquote column))

namespace Draft

variable {draft : Draft} {scope : KeyScope} {column : String} {i : Nat} {table : Table}
  {e : Error}

/-- Where a table is found nothing but its column can be missing. -/
theorem KeyFault.iff_of_keyTable (h : draft.keyTable scope (unquote column) = .ok (i, table)) :
    draft.KeyFault scope column e ↔ unquote column ∉ table.columnNames ∧
      e = .unknownColumn table.rawIdentifier (unquote column) := by
  obtain ⟨hi, ht⟩ := keyTable_eq_ok_iff.mp h
  constructor
  · intro hfault
    cases hfault with
    | @table identifier _ hp hmem =>
      rw [keyPlace?, hp, Option.map_some, Option.some_inj] at hi
      obtain ⟨hlt, -⟩ := List.getElem?_eq_some_iff.mp ht
      refine absurd (List.idxOf_lt_length_iff.mp ?_) hmem
      rwa [hi, identifiers, List.length_map]
    | column hi' ht' hmem =>
      obtain rfl := Option.some.inj (hi.symm.trans hi')
      obtain rfl := Option.some.inj (ht.symm.trans ht')
      exact ⟨hmem, rfl⟩
  · rintro ⟨hmem, rfl⟩
    exact .column hi ht hmem

/-- A table is not found because none of the identifier is declared. -/
theorem of_keyTable_error (hd : draft.Fits scope.place)
    (h : draft.keyTable scope column = .error e) :
    ∃ identifier, scope = .statement ∧ draft.pending = some identifier ∧
      identifier ∉ draft.identifiers ∧ e = .unknownTable identifier := by
  cases scope with
  | block =>
    obtain ⟨place, hplace⟩ := Option.isSome_iff_exists.mp hd.current?
    rw [keyTable, hplace] at h
    cases h
  | statement =>
    obtain ⟨⟨identifier, hp, -⟩, -⟩ := hd
    simp only [keyTable, hp, findIdx_rawIdentifier] at h
    split at h
    next => cases h
    next hnone =>
      cases h
      refine ⟨identifier, rfl, hp, fun hmem => ?_, rfl⟩
      have hlt := List.idxOf_lt_length_of_mem hmem
      rw [identifiers, List.length_map] at hlt
      exact absurd hlt (Nat.not_lt.mpr (List.getElem?_eq_none_iff.mp hnone))

/-- **A column of a key is refused for a fault of the key** and for nothing else, where the draft
is as the place of the key says. -/
theorem markKey_eq_error_iff (hd : draft.Fits scope.place) :
    draft.markKey scope column = .error e ↔ draft.KeyFault scope column e := by
  cases hk : draft.keyTable scope (unquote column) with
  | ok place =>
    rw [KeyFault.iff_of_keyTable hk, markKey_eq hk]
    by_cases hmem : unquote column ∈ place.2.columnNames
    · simp [hmem]
    · simp [hmem, eq_comm]
  | error unknown =>
    obtain ⟨identifier, rfl, hp, hmem, rfl⟩ := of_keyTable_error hd hk
    have hmark : draft.markKey .statement column = .error (.unknownTable identifier) := by
      simp only [markKey, hk]
    rw [hmark]
    constructor
    · rintro ⟨⟩
      exact .table hp hmem
    · intro hfault
      cases hfault with
      | table hp' =>
        obtain rfl := Option.some.inj (hp.symm.trans hp')
        rfl
      | column hi ht => cases hk.symm.trans (keyTable_eq_ok_iff.mpr ⟨hi, ht⟩)

end Draft

open Draft

/-! ### Rejected tokens -/

variable {options : Options} {state next : State} {draft : Draft} {token column : String}
  {scope : KeyScope} {edit : Edit} {e : Error}

/-- **A column of a key** is looked for in the draft, and what is said of it is all that is said
of the token. -/
theorem IsKeyColumn.outcome_eq_error_iff (h : IsKeyColumn state token scope column) :
    (step options state draft token).outcome = .error e ↔
      draft.markKey scope column = .error e := by
  have hread : ∀ next, (readKeyColumn scope next column draft).outcome = .error e ↔
      draft.markKey scope column = .error e := by
    intro next
    rw [readKeyColumn]
    cases draft.markKey scope column <;> simp [fail]
  cases h with
  | joined h =>
    have hne : token ≠ "(" := by
      rintro rfl
      cases h
    rw [step, readKey, if_neg hne, h]
    exact hread _
  | listed h =>
    have hne : ∀ word : String, isColumnName word = false → token ≠ word := by
      rintro word hword rfl
      rw [h] at hword
      cases hword
    rw [step, readKeyColumns, if_neg (hne "," (by decide)), if_neg (hne ")" (by decide)), if_pos h]
    exact hread _

/-- An edit that marks no key can only find the token unexpected. -/
theorem Edit.of_perform_error (h : (edit.perform next token draft).outcome = .error e) :
    e = .unexpectedToken token ∨ ∃ scope identifier, edit = .markKey scope identifier := by
  cases edit with
  | keep | stash | discard | closeTable => cases h
  | openTable =>
    rw [perform] at h
    split at h <;> cases h
    exact Or.inl rfl
  | addColumn | change | addTyped =>
    simp only [perform, gotoWith] at h
    split at h <;> cases h
    exact Or.inl rfl
  | markKey scope identifier => exact Or.inr ⟨scope, identifier, rfl⟩

/-- A key is marked by the columns of keys. -/
theorem Transition.isKeyColumn (h : Transition options token state (.markKey scope column) next) :
    IsKeyColumn state token scope column := by
  cases h with
  | keyColumn h => exact .joined h
  | listedColumn h => exact .listed h

/-- **A token that is rejected** is unexpected, or a column of a key that the draft refuses. -/
theorem of_step_error (h : (step options state draft token).outcome = .error e) :
    e = .unexpectedToken token ∨ ∃ scope column, IsKeyColumn state token scope column ∧
      draft.markKey scope column = .error e := by
  rcases step_transition options token state with hu | ⟨next, edit, ht, hp⟩
  · rw [hu] at h
    cases h
    exact Or.inl rfl
  · have hperform := h
    rw [hp] at hperform
    rcases Edit.of_perform_error hperform with he | ⟨scope, column, rfl⟩
    · exact Or.inl he
    · exact Or.inr ⟨scope, column, ht.isKeyColumn, ht.isKeyColumn.outcome_eq_error_iff.mp h⟩

theorem IsKeyColumn.place (h : IsKeyColumn state token scope column) : state.place = scope.place := by
  cases h <;> rfl

/-- **A rejection names the token, or the fault of a key.** A run from the start that fails has
read the tokens in front of one that is rejected, and fails for the reason of that one. Wherever
a run has come to, the reason is that the token is unexpected, and then the whole token is given,
or it is a fault of the key of which the token is a column. A column of a key is rejected exactly
if there is such a fault, which is then the reason: it is never called unexpected. -/
theorem rejection_names_token (options : Options) :
    (∀ tokens e, (run options .idle {} tokens).outcome = .error e ↔
      ∃ front token rest state draft, tokens = front ++ token :: rest ∧
        Leads options .idle {} front state draft ∧
        (step options state draft token).outcome = .error e) ∧
    ∀ front state draft, Leads options .idle {} front state draft → ∀ token e,
      ((step options state draft token).outcome = .error e →
        e = .unexpectedToken token ∨ ∃ scope column,
          IsKeyColumn state token scope column ∧ draft.KeyFault scope column e) ∧
      ∀ scope column, IsKeyColumn state token scope column →
        ((step options state draft token).outcome = .error e ↔
          draft.KeyFault scope column e) := by
  refine ⟨fun tokens e => run_outcome_eq_error_iff, fun front state draft hl token e => ?_⟩
  have hfits := hl.fits fits_empty
  have hkey : ∀ scope column, IsKeyColumn state token scope column →
      (draft.markKey scope column = .error e ↔ draft.KeyFault scope column e) :=
    fun scope column h => markKey_eq_error_iff (h.place ▸ hfits)
  refine ⟨fun h => ?_, fun scope column h => ?_⟩
  · refine (of_step_error h).imp_right ?_
    rintro ⟨scope, column, hcolumn, hmark⟩
    exact ⟨scope, column, hcolumn, (hkey scope column hcolumn).mp hmark⟩
  · exact h.outcome_eq_error_iff.trans (hkey scope column h)

/-- A column that is not there, in a key of the first of two tables of one identifier: the second
one has it. The same token is unexpected at the head of an entry, and is named as it stands. -/
theorem rejection_names_missing_column :
    let front := ["create", "table", "t", "(", "id", "int", ")", ";", "create", "table", "t",
      "(", "n", "int", ")", ";", "alter", "table", "only", "t", "add", "constraint", "t_pkey",
      "primary", "key"]
    (∃ draft, Leads {} .idle {} front (.key .statement) draft ∧
      (run {} .idle {} (front ++ ["(\x22n\x22)", ";"])).outcome =
        .error (.unknownColumn "t" "n") ∧
      IsKeyColumn (.key .statement) "(\x22n\x22)" .statement "\x22n\x22" ∧
      draft.KeyFault .statement "\x22n\x22" (.unknownColumn "t" "n")) ∧
    (run {} .idle {} ["create", "table", "t", "(", "(\x22n\x22)"]).outcome =
      .error (.unexpectedToken "(\x22n\x22)") := by
  intro front
  have hfront : Leads {} .idle {} front (.key .statement) (run {} .idle {} front).draft :=
    ⟨rfl, rfl⟩
  have hcolumn : IsKeyColumn (.key .statement) "(\x22n\x22)" .statement "\x22n\x22" :=
    .joined (by decide)
  obtain ⟨hrun, hstep⟩ := rejection_names_token {}
  have hfault := (hstep front _ _ hfront "(\x22n\x22)" (.unknownColumn "t" "n")).2 _ _ hcolumn
  refine ⟨⟨_, hfront, ?_, hcolumn, hfault.mp rfl⟩, rfl⟩
  exact (hrun _ _).mpr ⟨front, "(\x22n\x22)", [";"], _, _, rfl, hfront, rfl⟩

end SqlCatalog
