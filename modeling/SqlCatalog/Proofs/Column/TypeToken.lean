import SqlCatalog.Proofs.Origin

/-!
# The token that gives a column its type

A column is found in a draft by its place and that of its table
(`SqlCatalog.Draft.columnAt?`), and places never change. One token of a reading gives the column
in a place its type (`SqlCatalog.IsTypedAt`): the one behind its name, at which the column is the
one being read. There is such a token for every column that is complete
(`SqlCatalog.Leads.exists_isTypedAt`), and no second one (`SqlCatalog.IsTypedAt.unique`).

| what follows that token | may change of the column |
|---|---|
| the rest of its definition | type options, default, key, null |
| whatever comes behind that | key |

So its type stays (`SqlCatalog.HasType.of_leads`). A column is changed while it is being read and
as a column of a key, and in no other way (`SqlCatalog.Edit.columnAt?_perform`); and no column is
read a second time, since a name at the head of an entry makes a new one
(`SqlCatalog.Growth.isReading`).
-/

namespace SqlCatalog

open Identifier Step

/-! ### Columns at their places -/

namespace Draft

variable {draft draft' : Draft} {i j k l : Nat} {column : Column} {f : Column → Column}
  {identifier : String}

/-- **The column in a place** of the table in a place. -/
def columnAt? (draft : Draft) (i j : Nat) : Option Column :=
  draft.tables[i]?.bind (·.columns[j]?)

theorem columnAt?_eq_some_iff :
    draft.columnAt? i j = some column ↔
      ∃ table, draft.tables[i]? = some table ∧ table.columns[j]? = some column :=
  Option.bind_eq_some_iff

/-- A column stands in a place when the table has so many names. -/
theorem exists_columnAt?_iff :
    (∃ column, draft.columnAt? i j = some column) ↔ j < (draft.columnNames i).length := by
  rw [columnAt?, columnNames]
  cases draft.tables[i]? with
  | none => simp
  | some table =>
    dsimp only
    rw [Option.bind_some, Table.columnNames, List.length_map]
    constructor
    · rintro ⟨column, h⟩
      exact (List.getElem?_eq_some_iff.mp h).1
    · intro h
      exact ⟨_, List.getElem?_eq_getElem h⟩

/-- The columns of a changed draft. -/
theorem columnAt?_changeAt (draft : Draft) (f : Column → Column) (i j k l : Nat) :
    (draft.changeAt f k l).columnAt? i j =
      (draft.columnAt? i j).map fun column => if k = i ∧ l = j then f column else column := by
  rw [columnAt?, columnAt?, getElem?_changeAt]
  cases draft.tables[i]? with
  | none => rfl
  | some table =>
    rw [Option.map_some, Option.bind_some, Option.bind_some]
    by_cases hk : k = i
    · rw [if_pos hk, Table.changeAt, List.getElem?_modify]
      by_cases hl : l = j
      · simp [hk, hl]
      · simp [hk, hl]
    · simp [hk]

/-- A column that is added leaves the others in their places. -/
theorem columnAt?_of_pushColumn? (hp : draft.pushColumn? identifier = some draft')
    (h : draft.columnAt? i j = some column) : draft'.columnAt? i j = some column := by
  obtain ⟨k, table, -, -, rfl⟩ := eq_of_pushColumn? hp
  obtain ⟨before, hbefore, hcolumn⟩ := columnAt?_eq_some_iff.mp h
  have hkept : (before.push (Column.ofIdentifier identifier)).columns[j]? = some column := by
    rw [Table.push, List.getElem?_append_left (List.getElem?_eq_some_iff.mp hcolumn).1, hcolumn]
  rw [columnAt?, List.getElem?_modify, hbefore, Option.map_eq_map, Option.map_some,
    Option.bind_some]
  split
  · exact hkept
  · exact hcolumn

/-- So does a table that is declared. -/
theorem columnAt?_of_openPending? (ho : draft.openPending? = some (draft', identifier))
    (h : draft.columnAt? i j = some column) : draft'.columnAt? i j = some column := by
  obtain ⟨name, -, ho⟩ := Option.map_eq_some_iff.mp ho
  cases ho
  obtain ⟨before, hbefore, hcolumn⟩ := columnAt?_eq_some_iff.mp h
  refine columnAt?_eq_some_iff.mpr ⟨before, ?_, hcolumn⟩
  rw [List.getElem?_append_left (List.getElem?_eq_some_iff.mp hbefore).1, hbefore]

/-- The place of a column that is added is one in which no column was. -/
theorem of_pushColumn?_openColumn (hp : draft.pushColumn? identifier = some draft')
    (hi : draft'.openTable = some i) (hj : draft'.openColumn = some j) :
    draft.columnAt? i j = none ∧
      draft'.columnAt? i j = some (Column.ofIdentifier identifier) := by
  obtain ⟨k, table, hopen, ht, rfl⟩ := eq_of_pushColumn? hp
  obtain rfl : k = i := Option.some.inj (hopen.symm.trans hi)
  obtain rfl := Option.some.inj hj
  rw [columnAt?, columnAt?, List.getElem?_modify, ht]
  simp [Table.push]

end Draft

open Draft

variable {options : Options} {state next last : State} {draft draft' : Draft} {token : String}
  {tokens : List String} {edit : Edit} {i j : Nat} {column : Column}

/-! ### What an edit makes of a column -/

/-- **What may become of a column** in a place: it is changed if it is the open one, it becomes a
column of a key, or it stays as it is. -/
theorem Edit.columnAt?_perform (h : draft.columnAt? i j = some column) (edit : Edit)
    (next : State) (token : String) :
    ∃ column', (edit.perform next token draft).draft.columnAt? i j = some column' ∧
      (column' = column ∨ column' = column.asKey ∨
        ∃ f, edit = .change f ∧ draft.openTable = some i ∧ draft.openColumn = some j ∧
          column' = f column) := by
  have hsame : ∀ {draft' : Draft}, draft'.columnAt? i j = some column →
      ∃ column', draft'.columnAt? i j = some column' ∧ (column' = column ∨ column' = column.asKey ∨
        ∃ f, edit = .change f ∧ draft.openTable = some i ∧ draft.openColumn = some j ∧
          column' = f column) := fun h' => ⟨column, h', Or.inl rfl⟩
  cases edit with
  | keep | stash | discard | closeTable => exact hsame h
  | openTable =>
    rw [perform]
    split
    next ho => exact hsame (columnAt?_of_openPending? ho h)
    next => exact hsame h
  | addColumn identifier =>
    rw [perform]
    cases hp : draft.pushColumn? identifier with
    | none => exact hsame h
    | some pushed => exact hsame (columnAt?_of_pushColumn? hp h)
  | change f =>
    rw [perform]
    cases hm : draft.modifyColumn? f with
    | none => exact hsame h
    | some changed =>
      obtain ⟨k, l, hk, hl, rfl⟩ := eq_of_modifyColumn? hm
      have hcolumn := draft.columnAt?_changeAt f i j k l
      rw [h, Option.map_some] at hcolumn
      refine ⟨_, hcolumn, ?_⟩
      split
      next hplace => exact Or.inr (Or.inr ⟨f, rfl, hplace.1 ▸ hk, hplace.2 ▸ hl, rfl⟩)
      next => exact Or.inl rfl
  | addTyped identifier f =>
    rw [perform]
    cases hm : (draft.pushColumn? identifier).bind (·.modifyColumn? f) with
    | none => exact hsame h
    | some changed =>
      obtain ⟨pushed, hp, hm⟩ := Option.bind_eq_some_iff.mp hm
      obtain ⟨k, l, hk, hl, rfl⟩ := eq_of_modifyColumn? hm
      -- the column that is changed is the new one
      have hother : ¬(k = i ∧ l = j) := by
        rintro ⟨rfl, rfl⟩
        have hnew := (of_pushColumn?_openColumn hp hk hl).1
        cases hnew.symm.trans h
      have hcolumn := pushed.columnAt?_changeAt f i j k l
      rw [columnAt?_of_pushColumn? hp h, Option.map_some, if_neg hother] at hcolumn
      exact hsame hcolumn
  | markKey scope identifier =>
    rw [perform, readKeyColumn]
    split
    next marked event hmark =>
      obtain ⟨k, l, rfl⟩ := exists_markAt_of_markKey hmark
      have hcolumn := draft.columnAt?_changeAt Column.asKey i j k l
      rw [h, Option.map_some] at hcolumn
      refine ⟨_, hcolumn, ?_⟩
      split
      · exact Or.inr (Or.inl rfl)
      · exact Or.inl rfl
    next => exact hsame h

/-! ### The column being read -/

/-- **A column is being read**: the state is one of a column definition, and the column is the
open one. -/
def IsReading (state : State) (draft : Draft) (i j : Nat) : Prop :=
  state.place = .column ∧ draft.openTable = some i ∧ draft.openColumn = some j

/-- **A column that is there** is being read behind a token only if it was in front of it. -/
theorem Growth.isReading (h : Growth draft draft' state.place next.place)
    (hthere : draft.columnAt? i j = some column) (hr : IsReading next draft' i j) :
    IsReading state draft i j := by
  obtain ⟨hplace, hi, hj⟩ := hr
  have hlt := exists_columnAt?_iff.mp ⟨column, hthere⟩
  generalize hp : state.place = p at h
  generalize hq : next.place = q at h
  cases h with
  | same _ _ ho =>
    obtain ⟨rfl, hi', hj'⟩ := ho (hq.symm.trans hplace)
    exact ⟨hp, hi' ▸ hi, hj' ▸ hj⟩
  | table => cases hq.symm.trans hplace
  | column _ ho =>
    -- the column being read is a new one
    obtain ⟨hi', hj'⟩ := ho
    obtain rfl := Option.some.inj (hi'.symm.trans hi)
    have hj := Option.some.inj (hj'.symm.trans hj)
    omega

/-- A transition changes a column only while one is being read. -/
theorem Transition.place_of_change {f : Column → Column}
    (h : Transition options token state (.change f) next) : state.place = .column := by
  have hmoves := h.moves
  generalize state.place = p at hmoves
  generalize next.place = q at hmoves
  cases hmoves with
  | change => rfl

/-- **One token**, for a column that is there: what a transition that changes the column being
read leaves of it, is left of it if it is a column of a key and if nothing is done to it. -/
theorem Transition.columnAt? {α : Type} {g : Column → α} {x : α}
    (ht : Transition options token state edit next) (hkey : ∀ c : Column, g c.asKey = g c)
    (h : (draft.columnAt? i j).map g = some x)
    (hchange : IsReading state draft i j → ∀ f, edit = .change f → ∀ c, g c = x → g (f c) = x) :
    ((edit.perform next token draft).draft.columnAt? i j).map g = some x := by
  obtain ⟨column, hcolumn, rfl⟩ := Option.map_eq_some_iff.mp h
  obtain ⟨column', hcolumn', hcases⟩ := Edit.columnAt?_perform hcolumn edit next token
  rw [hcolumn', Option.map_some]
  refine congrArg some ?_
  rcases hcases with rfl | rfl | ⟨f, rfl, hi, hj, rfl⟩
  · rfl
  · exact hkey column
  · exact hchange ⟨ht.place_of_change, hi, hj⟩ f rfl column rfl

/-! ### Types stay -/

/-- **A column that has its type**: it is there with the type, and it does not wait for one. -/
structure HasType (name : String) (i j : Nat) (state : State) (draft : Draft) : Prop where
  /-- The type of the column in the place. -/
  dataType : (draft.columnAt? i j).map (·.dataType) = some name
  /-- If it is being read, then what follows its type is. -/
  settled : IsReading state draft i j → state ≠ .columnName

variable {name : String} {type : ColumnType}

/-- Only a column that is added waits for its type. -/
theorem Transition.ne_columnName (h : Transition options token state edit next)
    (hplace : state.place = .column) : next ≠ .columnName := by
  rintro rfl
  generalize hn : State.columnName = next at h
  cases h with
  | keep hf =>
    subst hn
    exact hf
  | addColumn => cases hplace
  | @assign type | @addTyped type =>
    exact State.ne_of_isTyping type.family.isTyping_state rfl hn.symm
  | typeText _ hnext => exact State.ne_of_isTyping hnext rfl hn.symm
  | _ => cases hn

/-- **One token** takes the type from no column, -/
theorem HasType.step (h : HasType name i j state draft)
    (ht : Transition options token state edit next)
    (ho : (edit.perform next token draft).outcome = .ok next) :
    HasType name i j next (edit.perform next token draft).draft := by
  obtain ⟨column, hcolumn, -⟩ := Option.map_eq_some_iff.mp h.dataType
  refine ⟨ht.columnAt? (fun _ => rfl) h.dataType ?_, fun hr => ?_⟩
  · rintro hr f rfl c hc
    cases ht with
    | assign => exact absurd rfl (h.settled hr)
    | typeText | hasDefault | notNull | asKey => exact hc
  · exact ht.ne_columnName ((ht.moves.grows ho).isReading hcolumn hr).1

/-- and **a reading** does not. -/
theorem HasType.of_leads (h : HasType name i j state draft)
    (hl : Leads options state draft tokens last draft') : HasType name i j last draft' := by
  induction tokens generalizing state draft with
  | nil =>
    obtain ⟨rfl, rfl⟩ := leads_nil.mp hl
    exact h
  | cons token tokens ih =>
    obtain ⟨s, hs, hl⟩ := leads_cons.mp hl
    obtain ⟨edit, ht, hp⟩ := exists_transition hs
    rw [hp] at hs hl
    exact ih (h.step ht hs) hl

/-! ### The token of a type -/

/-- **The token that gives a column its type**: it is a type and stands behind the name of a
column, and the column is the one being read then. Behind the word `exclude` a type makes a name
of that word. -/
def IsTypedAt (options : Options) (tokens : List String) (n i j : Nat) : Prop :=
  ∃ state draft token type, tokens[n]? = some token ∧
    Leads options .idle {} (tokens.take n) state draft ∧
    (state = .columnName ∨ state = .excludeEntry) ∧
    ColumnType.ofToken? options token = some type ∧
    (step options state draft token).draft.openTable = some i ∧
    (step options state draft token).draft.openColumn = some j

/-- **The column behind its type.** -/
structure TypeRead (type : ColumnType) (i j : Nat) (state : State) (draft : Draft) : Prop where
  /-- What may follow the type is due. -/
  family : state = type.family.state
  /-- The column is being read. -/
  isReading : IsReading state draft i j
  /-- It has the type and its modifier. -/
  columnAt? : (draft.columnAt? i j).map (fun c => (c.dataType, c.typeOptions)) =
    some (type.name, type.modifier)

theorem TypeRead.hasType (h : TypeRead type i j state draft) :
    HasType type.name i j state draft := by
  obtain ⟨column, hcolumn, htexts⟩ := Option.map_eq_some_iff.mp h.columnAt?
  refine ⟨by rw [hcolumn, Option.map_some, (Prod.mk.inj htexts).1], fun _ => ?_⟩
  rw [h.family]
  exact State.ne_of_isTyping type.family.isTyping_state rfl

/-- The rule for a type gives it to the column being read. -/
theorem typeRead_of_readType (htype : ColumnType.ofToken? options token = some type)
    (ho : (readType options token draft).outcome = .ok next) :
    ∃ i j, draft.openTable = some i ∧ draft.openColumn = some j ∧
      (∃ column, draft.columnAt? i j = some column) ∧
      TypeRead type i j next (readType options token draft).draft := by
  have hrule : readType options token draft =
      gotoWith type.family.state (draft.modifyColumn? type.assign) token draft := by
    delta readType
    rw [htype]
    rfl
  rw [hrule] at ho ⊢
  cases hm : draft.modifyColumn? type.assign with
  | none =>
    rw [hm] at ho
    cases ho
  | some changed =>
    rw [hm] at ho
    obtain rfl := Except.ok.inj ho
    rw [modifyColumn?_eq_changeAt] at hm
    obtain ⟨i, hi, hm⟩ := Option.bind_eq_some_iff.mp hm
    obtain ⟨j, hj, hm⟩ := Option.bind_eq_some_iff.mp hm
    split at hm
    next hlt =>
      obtain rfl := Option.some.inj hm
      obtain ⟨column, hcolumn⟩ := exists_columnAt?_iff.mpr hlt
      refine ⟨i, j, hi, hj, ⟨column, hcolumn⟩, rfl, ⟨?_, hi, hj⟩, ?_⟩
      · cases type.family <;> rfl
      · change ((draft.changeAt type.assign i j).columnAt? i j).map _ = _
        rw [columnAt?_changeAt, hcolumn]
        simp [ColumnType.assign]
    next => cases hm

/-- **Behind the token of a type** the column has that type. In front of it the column waited for
it, or was not there. -/
theorem typeRead_of_step (hs : state = .columnName ∨ state = .excludeEntry)
    (htype : ColumnType.ofToken? options token = some type)
    (ho : (step options state draft token).outcome = .ok next) :
    ∃ i j, TypeRead type i j next (step options state draft token).draft ∧
      (state = .columnName ∧ IsReading state draft i j ∨
        state = .excludeEntry ∧ draft.columnAt? i j = none) := by
  rcases hs with rfl | rfl
  · have hrule : step options .columnName draft token = readType options token draft := rfl
    rw [hrule] at ho ⊢
    obtain ⟨i, j, hi, hj, -, hread⟩ := typeRead_of_readType htype ho
    exact ⟨i, j, hread, Or.inl ⟨rfl, rfl, hi, hj⟩⟩
  · have hrule : step options .excludeEntry draft token = readExclude options token draft := rfl
    rw [hrule, readExclude, htype, Option.isSome_some, if_pos rfl] at ho ⊢
    cases hp : draft.pushColumn? "exclude" with
    | none =>
      rw [hp] at ho
      cases ho
    | some pushed =>
      rw [hp] at ho
      obtain ⟨i, j, hi, hj, -, hread⟩ := typeRead_of_readType htype ho
      exact ⟨i, j, hread, Or.inr ⟨rfl, (of_pushColumn?_openColumn hp hi hj).1⟩⟩

/-- A token of a longer reading. -/
theorem IsTypedAt.append {n : Nat} (h : IsTypedAt options tokens n i j) (more : List String) :
    IsTypedAt options (tokens ++ more) n i j := by
  obtain ⟨state, draft, token, type, htoken, hl, h⟩ := h
  have hlt := (List.getElem?_eq_some_iff.mp htoken).1
  refine ⟨state, draft, token, type, ?_, ?_, h⟩
  · rw [List.getElem?_append_left hlt, htoken]
  · rwa [List.take_append_of_le_length (Nat.le_of_lt hlt)]

/-- A reading at one of its tokens. -/
theorem Leads.step_of_take {n : Nat} {start : State} {draft₀ : Draft}
    (h : Leads options start draft₀ tokens last draft')
    (hfront : Leads options start draft₀ (tokens.take n) state draft)
    (htoken : tokens[n]? = some token) :
    ∃ next, (step options state draft token).outcome = .ok next ∧
      Leads options next (step options state draft token).draft (tokens.drop (n + 1)) last
        draft' := by
  obtain ⟨hlt, hget⟩ := List.getElem?_eq_some_iff.mp htoken
  have hcut : tokens = tokens.take n ++ token :: tokens.drop (n + 1) := by
    rw [← hget, List.getElem_cons_drop, List.take_append_drop]
  rw [hcut] at h
  exact leads_cons.mp (h.after hfront)

/-- **What follows the token of a type.** -/
theorem IsTypedAt.leads {n : Nat} (h : IsTypedAt options tokens n i j)
    (hl : Leads options .idle {} tokens last draft') :
    ∃ token type state draft, tokens[n]? = some token ∧
      ColumnType.ofToken? options token = some type ∧ TypeRead type i j state draft ∧
      Leads options state draft (tokens.drop (n + 1)) last draft' := by
  obtain ⟨state, draft, token, type, htoken, hfront, hs, htype, hi, hj⟩ := h
  obtain ⟨next, hstep, hrest⟩ := hl.step_of_take hfront htoken
  obtain ⟨k, l, hread, -⟩ := typeRead_of_step hs htype hstep
  obtain rfl := Option.some.inj (hread.isReading.2.1.symm.trans hi)
  obtain rfl := Option.some.inj (hread.isReading.2.2.symm.trans hj)
  exact ⟨token, type, next, _, htoken, htype, hread, hrest⟩

/-! ### There is one, and only one -/

/-- **A column that is new** is the one being read, behind a token that begins its definition. -/
theorem Growth.of_new {p q : Place} (h : Growth draft draft' p q)
    (hnew : draft.columnAt? i j = none) (hthere : draft'.columnAt? i j = some column) :
    p = .block ∧ q = .column ∧ draft'.openTable = some i ∧ draft'.openColumn = some j := by
  have hlt := exists_columnAt?_iff.mp ⟨column, hthere⟩
  have hle : ¬j < (draft.columnNames i).length := fun hlt' => by
    obtain ⟨other, hother⟩ := exists_columnAt?_iff.mpr hlt'
    cases hnew.symm.trans hother
  cases h with
  | same _ hc => exact absurd (hc i ▸ hlt) hle
  | table _ _ hc => exact absurd (hc i ▸ hlt) hle
  | @column identifier k _ ho _ hc =>
    rw [hc i] at hlt
    split at hlt
    next hk =>
      subst hk
      rw [List.length_append, List.length_singleton] at hlt
      obtain rfl : j = (draft.columnNames i).length := by omega
      exact ⟨rfl, rfl, ho⟩
    next => exact absurd hlt hle

/-- Behind the name of a column comes its type. -/
theorem Transition.of_columnName (h : Transition options token .columnName edit next) :
    ∃ type, ColumnType.ofToken? options token = some type := by
  generalize hs : State.columnName = state at h
  cases h with
  | keep hf => exact absurd hs.symm (State.Follows.ne_columnName hf)
  | @assign type htype => exact ⟨type, htype⟩
  | refer hstate => rcases hstate with rfl | rfl <;> cases hs
  | discard hplace =>
    subst hs
    cases hplace
  | typeText htyping =>
    subst hs
    cases htyping
  | hasDefault hstate => rcases hstate with (rfl | rfl) | rfl <;> cases hs
  | _ => cases hs

/-- A column definition begins with a name, or with a type behind the word `exclude`. -/
theorem Transition.of_place (h : Transition options token state edit next)
    (hp : state.place = .block) (hq : next.place = .column) :
    next = .columnName ∨
      state = .excludeEntry ∧ ∃ type, ColumnType.ofToken? options token = some type := by
  cases h with
  | addColumn => exact Or.inl rfl
  | @addTyped type htype => exact Or.inr ⟨rfl, type, htype⟩
  | keep hf =>
    have hkeep : Transition options token state .keep next := .keep hf
    have hmoves := hkeep.moves
    rw [hp, hq] at hmoves
    cases hmoves
  | @keyColumn scope | @listedColumn scope => cases scope <;> cases hq
  | refer hs => rcases hs with rfl | rfl <;> cases hp
  | discard hplace => cases hp.symm.trans hplace
  | typeText hs hn hsemi =>
    cases hp.symm.trans (State.isTyping_place hs)
  | hasDefault hs => rcases hs with (rfl | rfl) | rfl <;> cases hp
  | _ => cases hp <;> cases hq

/-- **Every column has the token of its type**, save one that waits for it. -/
theorem Leads.exists_isTypedAt (h : Leads options .idle {} tokens state draft)
    (hthere : draft.columnAt? i j = some column) :
    (∃ n, IsTypedAt options tokens n i j) ∨ state = .columnName ∧ IsReading state draft i j := by
  induction tokens using List.reverseRecOn generalizing state draft column with
  | nil =>
    obtain ⟨rfl, rfl⟩ := leads_nil.mp h
    cases hthere
  | append_singleton tokens token ih =>
    obtain ⟨s, d, hfront, hs, rfl⟩ := leads_concat.mp h
    have hgrowth := growth_step hs
    obtain ⟨edit, ht, -⟩ := exists_transition hs
    -- the last token is that of the type if it is one and the column is being read behind it
    have hlast : ∀ {type : ColumnType}, (s = .columnName ∨ s = .excludeEntry) →
        ColumnType.ofToken? options token = some type →
        (step options s d token).draft.openTable = some i →
        (step options s d token).draft.openColumn = some j →
        IsTypedAt options (tokens ++ [token]) tokens.length i j := by
      intro type hstate htype hi hj
      exact ⟨s, d, token, type, List.getElem?_concat_length, by rwa [List.take_left], hstate, htype,
        hi, hj⟩
    cases hbefore : d.columnAt? i j with
    | some before =>
      rcases ih hfront hbefore with ⟨n, hn⟩ | ⟨rfl, -, hi, hj⟩
      · exact Or.inl ⟨n, hn.append [token]⟩
      · obtain ⟨type, htype⟩ := ht.of_columnName
        obtain ⟨k, l, hread, ⟨-, -, hk, hl⟩ | ⟨hstate, -⟩⟩ := typeRead_of_step (Or.inl rfl) htype hs
        · obtain rfl := Option.some.inj (hi.symm.trans hk)
          obtain rfl := Option.some.inj (hj.symm.trans hl)
          exact Or.inl ⟨_, hlast (Or.inl rfl) htype hread.isReading.2.1 hread.isReading.2.2⟩
        · cases hstate
    | none =>
      obtain ⟨hp, hq, hi, hj⟩ := hgrowth.of_new hbefore hthere
      rcases ht.of_place hp hq with rfl | ⟨rfl, type, htype⟩
      · exact Or.inr ⟨rfl, rfl, hi, hj⟩
      · exact Or.inl ⟨_, hlast (Or.inr rfl) htype hi hj⟩

/-- The token of a type is read before the end of a reading that goes on. -/
theorem IsTypedAt.take {m n : Nat} (h : IsTypedAt options tokens m i j) (hlt : m < n) :
    IsTypedAt options (tokens.take n) m i j := by
  obtain ⟨state, draft, token, type, htoken, hl, h⟩ := h
  refine ⟨state, draft, token, type, ?_, ?_, h⟩
  · rw [List.getElem?_take_of_lt hlt, htoken]
  · rwa [List.take_take, Nat.min_eq_left (Nat.le_of_lt hlt)]

/-- **No column gets its type twice.** -/
theorem IsTypedAt.unique {m n : Nat} (h : IsTypedAt options tokens m i j)
    (h' : IsTypedAt options tokens n i j) (hl : Leads options .idle {} tokens last draft) :
    m = n := by
  have hle : ∀ {m n : Nat}, IsTypedAt options tokens m i j → IsTypedAt options tokens n i j →
      n ≤ m := by
    rintro m n h ⟨state, d, token, type, htoken, hfront, hs, htype, hi, hj⟩
    refine Nat.le_of_not_lt fun hlt => ?_
    obtain ⟨-, type', s, d', -, -, hread, hrest⟩ := (h.take hlt).leads hfront
    have hhas := hread.hasType.of_leads hrest
    obtain ⟨next, hstep, -⟩ := hl.step_of_take hfront htoken
    obtain ⟨k, l, hread', hwaits⟩ := typeRead_of_step hs htype hstep
    obtain rfl := Option.some.inj (hread'.isReading.2.1.symm.trans hi)
    obtain rfl := Option.some.inj (hread'.isReading.2.2.symm.trans hj)
    -- the column had its type, so it does not wait for one and it is there
    rcases hwaits with ⟨hname, hreading⟩ | ⟨-, hnone⟩
    · exact hhas.settled hreading hname
    · have htype := hhas.dataType
      rw [hnone] at htype
      cases htype
  exact Nat.le_antisymm (hle h' h) (hle h h')

end SqlCatalog
