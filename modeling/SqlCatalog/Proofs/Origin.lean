import Mathlib.Data.List.Forall2
import SqlCatalog.Proofs.Column.All
import SqlCatalog.Proofs.History
import SqlCatalog.Proofs.Parse
import SqlCatalog.Proofs.Reach
import SqlCatalog.Proofs.Selection

/-!
# Where declarations come from

Nothing in a draft is invented. Every table that is declared, and every column of it, has a
place in the tokens, and the places increase in the order of the declarations
(`SqlCatalog.Declared`):

* the identifier of a table stands between one of the words `table` and `exists` and a bracket;
* the name of a column stands in front of its type, behind the identifier of its table and in
  front of that of the next one.

Most transitions leave identifiers, names and types alone (`SqlCatalog.Edit.KeepsHeads`). The
others are about tokens that have been read before: the bracket declares the table whose name
is the last token (`SqlCatalog.Leads.waiting`), and a type completes the column whose name is
the last token, be it there already or a word `exclude` that turns out to be a name. So a
column without a type is the one case in which what is declared is not all that is there
(`SqlCatalog.Witnessed`).

A key comes from the words `primary key`. Where these do not stand next to each other no column
is in a key (`SqlCatalog.Leads.keyless`), and no table is selected
(`SqlCatalog.declared_of_leads`).
-/

namespace SqlCatalog

open Identifier Step Draft

/-! ### Lists member by member -/

section Lists

variable {α β : Type} {R : α → β → Prop} {xs : List α} {ys : List β}

/-- What stands in a place stands there when the list goes on. -/
theorem getElem?_append_of_eq_some {i : Nat} {x : α} (h : xs[i]? = some x) (more : List α) :
    (xs ++ more)[i]? = some x := by
  rw [List.getElem?_append_left (List.getElem?_eq_some_iff.mp h).1, h]

theorem forall₂_modify (h : List.Forall₂ R xs ys) {f : β → β}
    (hf : ∀ x y, R x y → R x (f y)) (i : Nat) : List.Forall₂ R xs (ys.modify i f) := by
  induction h generalizing i with
  | nil =>
    rw [List.modify_nil]
    exact .nil
  | cons hxy hs ih =>
    cases i with
    | zero => exact .cons (hf _ _ hxy) hs
    | succ i => exact .cons hxy (ih i)

theorem forall₂_concat {x : α} {y : β} (h : List.Forall₂ R xs ys) (hxy : R x y) :
    List.Forall₂ R (xs ++ [x]) (ys ++ [y]) :=
  List.rel_append h (.cons hxy .nil)

/-- The last member has its partner at the end. -/
theorem exists_of_forall₂_concat {y : β} (h : List.Forall₂ R xs (ys ++ [y])) :
    ∃ front x, xs = front ++ [x] ∧ List.Forall₂ R front ys ∧ R x y := by
  induction ys generalizing xs with
  | nil =>
    cases h with
    | cons hxy hs =>
      cases hs
      exact ⟨[], _, rfl, .nil, hxy⟩
  | cons z ys ih =>
    cases h with
    | cons hxz hs =>
      obtain ⟨front, x, rfl, hfront, hxy⟩ := ih hs
      exact ⟨_ :: front, x, rfl, .cons hxz hfront, hxy⟩

/-- Every member on the right has a partner. -/
theorem exists_of_forall₂ {y : β} (h : List.Forall₂ R xs ys) (hy : y ∈ ys) :
    ∃ x ∈ xs, R x y := by
  induction h with
  | nil => cases hy
  | cons hxy hs ih =>
    rcases List.mem_cons.mp hy with rfl | hy
    · exact ⟨_, List.mem_cons_self, hxy⟩
    · obtain ⟨x, hx, hr⟩ := ih hy
      exact ⟨x, List.mem_cons_of_mem _ hx, hr⟩

/-- What every partner has. -/
theorem forall_left_of_forall₂ {P : α → Prop} (h : List.Forall₂ R xs ys)
    (hp : ∀ x y, R x y → P x) : ∀ x ∈ xs, P x :=
  ((List.forall₂_and_left xs ys).mp (h.imp fun x y hxy => ⟨hp x y hxy, hxy⟩)).1

/-- Increasing places, and one more behind them. -/
theorem pairwise_concat {places : List Nat} {place : Nat} (h : places.Pairwise (· < ·))
    (hlt : ∀ p ∈ places, p < place) : (places ++ [place]).Pairwise (· < ·) := by
  refine List.pairwise_append.mpr ⟨h, List.pairwise_singleton _ _, fun p hp q hq => ?_⟩
  rw [List.mem_singleton.mp hq]
  exact hlt p hp

end Lists

/-! ### Declarations -/

/-- **Where a table is declared**: the place of its identifier, and those of the names of its
columns. -/
structure Declaration where
  /-- The place of the identifier. -/
  table : Nat
  /-- The places of the names. -/
  columns : List Nat

/-- The places of a declaration. -/
def Declaration.places (declaration : Declaration) : List Nat :=
  declaration.table :: declaration.columns

/-- **A column stands in a place of the tokens**: its name is there, and its type behind it. -/
structure Column.StandsAt (options : Options) (tokens : List String) (place : Nat)
    (column : Column) : Prop where
  /-- The token without double quotes is the name. -/
  name : tokens[place]?.map unquote = some column.name
  /-- The next token gives the type. -/
  dataType : (tokens[place + 1]?.bind (ColumnType.ofToken? options)).map (·.name) =
    some column.dataType

/-- **A table stands in the places of a declaration.** -/
structure Table.StandsAt (options : Options) (tokens : List String) (declaration : Declaration)
    (table : Table) : Prop where
  /-- The token is the identifier. -/
  identifier : tokens[declaration.table]? = some table.rawIdentifier
  /-- The word in front of it. -/
  word : ∃ place, declaration.table = place + 1 ∧
    (tokens[place]? = some "table" ∨ tokens[place]? = some "exists")
  /-- The bracket behind it. -/
  bracket : tokens[declaration.table + 1]? = some "("
  /-- The columns. -/
  columns : List.Forall₂ (Column.StandsAt options tokens) declaration.columns table.columns

/-- **Tables are declared by tokens**: each has its declaration, and the places increase, from
one to the next in a declaration and from one declaration to the next. -/
def Declared (options : Options) (tokens : List String) (tables : List Table) : Prop :=
  ∃ declarations : List Declaration,
    (declarations.flatMap Declaration.places).Pairwise (· < ·) ∧
      List.Forall₂ (Table.StandsAt options tokens) declarations tables

section Declarations

variable {options : Options} {tokens : List String} {declaration : Declaration}
  {declarations : List Declaration} {table : Table} {tables : List Table} {place : Nat}
  {column : Column} {f : Column → Column}

/-- A column stands in front of the last token. -/
theorem Column.StandsAt.lt (h : column.StandsAt options tokens place) :
    place + 1 < tokens.length := by
  obtain ⟨type, htype, -⟩ := Option.map_eq_some_iff.mp h.dataType
  obtain ⟨token, htoken, -⟩ := Option.bind_eq_some_iff.mp htype
  exact (List.getElem?_eq_some_iff.mp htoken).1

theorem Column.StandsAt.append (h : column.StandsAt options tokens place)
    (more : List String) : column.StandsAt options (tokens ++ more) place := by
  constructor
  · obtain ⟨token, htoken, hname⟩ := Option.map_eq_some_iff.mp h.name
    rw [getElem?_append_of_eq_some htoken, Option.map_some, hname]
  · rw [List.getElem?_append_left h.lt, h.dataType]

/-- A change that leaves name and type alone. -/
theorem Column.StandsAt.change (h : column.StandsAt options tokens place)
    (hf : ∀ c, (f c).name = c.name ∧ (f c).dataType = c.dataType) :
    (f column).StandsAt options tokens place :=
  ⟨by rw [(hf column).1, h.name], by rw [(hf column).2, h.dataType]⟩

/-- All of a declaration stands in front of the last token. -/
theorem Table.StandsAt.lt (h : table.StandsAt options tokens declaration) :
    ∀ place ∈ declaration.places, place + 1 < tokens.length := by
  intro place hplace
  rcases List.mem_cons.mp hplace with rfl | hplace
  · exact (List.getElem?_eq_some_iff.mp h.bracket).1
  · exact forall_left_of_forall₂ h.columns (fun _ _ hcolumn => hcolumn.lt) place hplace

theorem Table.StandsAt.append (h : table.StandsAt options tokens declaration)
    (more : List String) : table.StandsAt options (tokens ++ more) declaration where
  identifier := getElem?_append_of_eq_some h.identifier more
  word := by
    obtain ⟨place, hplace, hword⟩ := h.word
    exact ⟨place, hplace, hword.imp (getElem?_append_of_eq_some · more)
      (getElem?_append_of_eq_some · more)⟩
  bracket := getElem?_append_of_eq_some h.bracket more
  columns := h.columns.imp fun _ _ hcolumn => hcolumn.append more

theorem Table.StandsAt.changeAt (h : table.StandsAt options tokens declaration)
    (hf : ∀ c, (f c).name = c.name ∧ (f c).dataType = c.dataType) (j : Nat) :
    (table.changeAt f j).StandsAt options tokens declaration :=
  { h with columns := forall₂_modify h.columns (fun _ _ hcolumn => hcolumn.change hf) j }

/-- All declarations stand in front of the last token. -/
theorem lt_of_forall₂_standsAt
    (h : List.Forall₂ (Table.StandsAt options tokens) declarations tables) :
    ∀ place ∈ declarations.flatMap Declaration.places, place + 1 < tokens.length := by
  intro place hplace
  obtain ⟨declaration, hmem, hplace⟩ := List.mem_flatMap.mp hplace
  exact forall_left_of_forall₂ h (fun _ _ htable => htable.lt) declaration hmem place hplace

/-! ### What may happen to tables that are declared -/

theorem Declared.nil : Declared options tokens [] :=
  ⟨[], .nil, .nil⟩

/-- More tokens come. -/
theorem Declared.append (h : Declared options tokens tables) (more : List String) :
    Declared options (tokens ++ more) tables := by
  obtain ⟨declarations, hplaces, htables⟩ := h
  exact ⟨declarations, hplaces, htables.imp fun _ _ htable => htable.append more⟩

/-- A column is changed, but not in its name and its type. -/
theorem Declared.changeAt (h : Declared options tokens tables)
    (hf : ∀ c, (f c).name = c.name ∧ (f c).dataType = c.dataType) (i j : Nat) :
    Declared options tokens (tables.modify i (Table.changeAt f j)) := by
  obtain ⟨declarations, hplaces, htables⟩ := h
  exact ⟨declarations, hplaces, forall₂_modify htables (fun _ _ htable => htable.changeAt hf j) i⟩

variable {front : List String}

/-- **The bracket behind the identifier of a table.** -/
theorem Declared.openTable {word identifier : String}
    (h : Declared options (front ++ [word, identifier]) tables)
    (hw : word ∈ ["table", "exists"]) :
    Declared options (front ++ [word, identifier] ++ ["("])
      (tables ++ [Table.ofIdentifier identifier]) := by
  obtain ⟨declarations, hplaces, htables⟩ := h
  have hlt := lt_of_forall₂_standsAt htables
  refine ⟨declarations ++ [⟨front.length + 1, []⟩], ?_, ?_⟩
  · rw [List.flatMap_append]
    refine pairwise_concat hplaces fun place hplace => ?_
    have hplace := hlt place hplace
    rw [List.length_append, List.length_cons, List.length_singleton] at hplace
    exact Nat.lt_of_succ_lt_succ hplace
  · refine forall₂_concat (htables.imp fun _ _ htable => htable.append _) ?_
    constructor
    · rw [rawIdentifier_ofIdentifier]
      simp
    · refine ⟨front.length, rfl, ?_⟩
      rcases List.mem_pair.mp hw with rfl | rfl <;> simp
    · have hlength : (front ++ [word, identifier]).length = front.length + 1 + 1 :=
        List.length_append
      have hbracket := List.getElem?_concat_length (l := front ++ [word, identifier]) (a := "(")
      rwa [hlength] at hbracket
    · rw [columns_ofIdentifier]
      exact .nil

/-- **The type behind the name of a column.** -/
theorem Declared.addColumn {name token : String} {type : ColumnType}
    (h : Declared options (front ++ [name]) (tables ++ [table]))
    (ht : ColumnType.ofToken? options token = some type) :
    Declared options (front ++ [name] ++ [token])
      (tables ++ [{ table with
        columns := table.columns ++ [type.assign (Column.ofIdentifier name)] }]) := by
  obtain ⟨declarations, hplaces, htables⟩ := h
  have hlt := lt_of_forall₂_standsAt htables
  obtain ⟨others, last, rfl, hothers, hlast⟩ := exists_of_forall₂_concat htables
  refine ⟨others ++ [⟨last.table, last.columns ++ [front.length]⟩], ?_, ?_⟩
  · have hsnoc : (others ++ [Declaration.mk last.table (last.columns ++ [front.length])]).flatMap
        Declaration.places = (others ++ [last]).flatMap Declaration.places ++ [front.length] := by
      simp [Declaration.places]
    rw [hsnoc]
    refine pairwise_concat hplaces fun place hplace => ?_
    have hplace := hlt place hplace
    rw [List.length_append, List.length_singleton] at hplace
    omega
  · have hcolumn : (type.assign (Column.ofIdentifier name)).StandsAt options
        (front ++ [name] ++ [token]) front.length := by
      constructor
      · simp [ColumnType.assign, Column.ofIdentifier]
      · simp [ht, ColumnType.assign]
    have hlast := hlast.append [token]
    exact forall₂_concat (hothers.imp fun _ _ htable => htable.append _)
      { hlast with columns := forall₂_concat hlast.columns hcolumn }

end Declarations

/-! ### What transitions do to declarations -/

/-- **An edit that leaves identifiers, names and types alone.** -/
def Edit.KeepsHeads : Edit → Prop
  | .keep | .stash _ | .discard | .closeTable | .markKey _ _ => True
  | .change f => ∀ column, (f column).name = column.name ∧ (f column).dataType = column.dataType
  | .openTable | .addColumn _ | .addTyped _ _ => False

variable {options : Options} {state next last : State} {draft draft' : Draft} {token : String}
  {tokens : List String} {edit : Edit}

/-- Such an edit leaves tables declared, be it performed or not. -/
theorem Declared.perform (h : Declared options tokens draft.tables) (he : edit.KeepsHeads)
    (next : State) (token : String) :
    Declared options tokens (edit.perform next token draft).draft.tables := by
  cases edit with
  | keep | stash | discard | closeTable => exact h
  | change f =>
    rw [Edit.perform]
    cases hm : draft.modifyColumn? f with
    | none => exact h
    | some changed =>
      obtain ⟨i, j, ht⟩ := exists_changeAt_of_modifyColumn? hm
      have hchanged := h.changeAt he i j
      rwa [← ht] at hchanged
  | markKey scope identifier =>
    rw [Edit.perform, readKeyColumn]
    split
    next marked event hmark =>
      obtain ⟨i, j, ht⟩ := exists_changeAt_of_markKey hmark
      have hmarked := h.changeAt (f := Column.asKey) (fun _ => ⟨rfl, rfl⟩) i j
      rwa [← ht] at hmarked
    next => exact h
  | openTable | addColumn | addTyped => cases he

/-- Behind the name of a column no token leaves the draft alone. -/
theorem State.Follows.ne_columnName (h : next.Follows state token) : state ≠ .columnName := by
  rintro rfl
  have htyped : ¬State.IsTyped .columnName := by rintro (hs | hs) <;> cases hs
  cases next with
  | idle => cases h
  | table verb => cases verb <;> simp [State.Follows] at h
  | constraint scope | primary scope | keyColumns scope =>
    cases scope <;> simp [State.Follows] at h
  | columnPrimary | columnNot | collation | columnOption =>
    simp [State.Follows, htyped] at h
  | _ => simp [State.Follows, State.endsEntry] at h

/-! ### What has been read -/

/-- **The table that waits**: in front of the bracket of a declaration the last token is the
identifier, and the word in front of it is `table` or `exists`. -/
theorem Leads.waiting (h : Leads options .idle {} tokens (.tableName .create) draft) :
    ∃ front word identifier, tokens = front ++ [word, identifier] ∧
      word ∈ ["table", "exists"] ∧ draft.pending = some identifier := by
  refine Leads.induction (P := fun tokens state draft => state = .tableName .create →
    ∃ front word identifier, tokens = front ++ [word, identifier] ∧
      word ∈ ["table", "exists"] ∧ draft.pending = some identifier) ?_ ?_ h rfl
  · exact fun hs => by cases hs
  · intro tokens token state next draft edit hl _ ht _ hn
    obtain ⟨rfl, rfl, -⟩ := ht.declares hn
    obtain ⟨front, word, rfl, hw⟩ := hl.last_mem (by decide)
    exact ⟨front, word, token, List.append_assoc .., hw, rfl⟩

/-- An edit that gives a draft if it is accepted. -/
theorem of_gotoWith {result : Option Draft}
    (h : (gotoWith next result token draft).outcome = .ok last) :
    result = some (gotoWith next result token draft).draft := by
  cases result with
  | none => cases h
  | some draft' => rfl

/-- **The type behind the name of a column**, in the draft. -/
theorem Declared.addTyped {front : List String} {name : String} {type : ColumnType}
    (h : Declared options (front ++ [name]) draft.tables) (hd : draft.Fits .block)
    (ht : ColumnType.ofToken? options token = some type)
    (hp : (draft.pushColumn? name).bind (·.modifyColumn? type.assign) = some draft') :
    Declared options (front ++ [name] ++ [token]) draft'.tables := by
  obtain ⟨tables, table, place, rfl⟩ := fits_block_iff.mp hd
  rw [pushColumn?_inBlock, Option.bind_some, modifyColumn?_onColumn] at hp
  cases hp
  exact Declared.addColumn h ht

/-- **Where a draft comes from.** Its tables are declared by the tokens, save that behind the
name of a column the last column is that name. -/
structure Witnessed (options : Options) (tokens : List String) (state : State) (draft : Draft) :
    Prop where
  /-- As a rule all that is there is declared. -/
  declared : state ≠ .columnName → Declared options tokens draft.tables
  /-- The name of a column waits for its type. -/
  column : state = .columnName → ∃ (front : List String) (name : String) (before : Draft),
    tokens = front ++ [name] ∧ before.Fits .block ∧ Declared options tokens before.tables ∧
      before.pushColumn? name = some draft

theorem witnessed_of_declared (h : Declared options tokens draft.tables)
    (hs : state ≠ .columnName) : Witnessed options tokens state draft :=
  ⟨fun _ => h, fun hcolumn => absurd hcolumn hs⟩

/-- **One token**, by the transition that it makes. -/
theorem Witnessed.concat (h : Witnessed options tokens state draft)
    (hl : Leads options .idle {} tokens state draft)
    (ht : Transition options token state edit next)
    (ho : (edit.perform next token draft).outcome = .ok next) :
    Witnessed options (tokens ++ [token]) next (edit.perform next token draft).draft := by
  have hkeeps : state ≠ .columnName → next ≠ .columnName → edit.KeepsHeads →
      Witnessed options (tokens ++ [token]) next (edit.perform next token draft).draft :=
    fun hs hn he => witnessed_of_declared
      (((h.declared hs).append [token]).perform he next token) hn
  cases ht with
  | keep hf => exact hkeeps hf.ne_columnName (by rintro rfl; exact hf) trivial
  | declare | closeTable | keyColumn | listedColumn => exact hkeeps nofun nofun trivial
  | refer hs => exact hkeeps (by rcases hs with rfl | rfl <;> nofun) nofun trivial
  | discard hs => exact hkeeps (by rintro rfl; cases hs) nofun trivial
  | typeText hs hn =>
    exact hkeeps (State.ne_of_isTyping hs rfl) (State.ne_of_isTyping hn rfl) fun _ => ⟨rfl, rfl⟩
  | hasDefault hs =>
    exact hkeeps (by rintro rfl; rcases hs with (hs | hs) | hs <;> cases hs) nofun
      fun _ => ⟨rfl, rfl⟩
  | notNull | asKey => exact hkeeps nofun nofun fun _ => ⟨rfl, rfl⟩
  | openTable hopen =>
    obtain ⟨front, word, identifier, rfl, hw, hp⟩ := hl.waiting
    refine witnessed_of_declared ?_ nofun
    have hopened := (h.declared nofun).openTable hw
    simpa only [hopen, Edit.perform, openPending?, hp, Option.map_some] using hopened
  | addColumn =>
    exact ⟨absurd rfl, fun _ => ⟨tokens, token, draft, rfl, hl.fits fits_empty,
      (h.declared nofun).append [token], of_gotoWith ho⟩⟩
  | @assign type htype =>
    obtain ⟨front, name, before, rfl, hfits, hbefore, hpush⟩ := h.column rfl
    refine witnessed_of_declared (hbefore.addTyped hfits htype ?_)
      (State.ne_of_isTyping type.family.isTyping_state rfl)
    rw [hpush]
    exact of_gotoWith ho
  | @addTyped type htype =>
    obtain ⟨front, word, rfl, hword⟩ := hl.last_mem (by decide)
    obtain rfl := List.mem_singleton.mp hword
    have hdeclared := h.declared (by rintro ⟨⟩)
    exact witnessed_of_declared
      (hdeclared.addTyped (hl.fits fits_empty) htype (of_gotoWith ho))
      (State.ne_of_isTyping type.family.isTyping_state rfl)

/-- **Every reading.** -/
theorem Leads.witnessed (h : Leads options .idle {} tokens state draft) :
    Witnessed options tokens state draft :=
  h.induction (witnessed_of_declared .nil nofun) fun hl hw ht ho => hw.concat hl ht ho

/-! ### Keys -/

/-- Whether columns of a key are due. -/
def State.readsKey : State → Bool
  | .key _ | .keyColumns _ => true
  | _ => false

theorem State.readsKey_of_isTyping (h : state.isTyping = true) : state.readsKey = false := by
  cases state with
  | key | keyColumns => cases h
  | _ => rfl

/-- **One token**, which is not the word `key` behind the word `primary`, leaves columns outside
of keys. -/
theorem keyless_step (hall : draft.All (·.isPrimaryKey = false)) (hstate : state.readsKey = false)
    (hword : state.lastWords = ["primary"] → token ≠ "key")
    (ht : Transition options token state edit next) :
    (edit.perform next token draft).draft.All (·.isPrimaryKey = false) ∧
      next.readsKey = false := by
  have hkeeps : edit.Keeps (·.isPrimaryKey = false) →
      (edit.perform next token draft).draft.All (·.isPrimaryKey = false) :=
    fun he => Edit.perform_all he hall next token
  cases ht with
  | keep hf =>
    refine ⟨hall, ?_⟩
    cases next with
    | key scope =>
      obtain ⟨rfl, htoken⟩ := hf
      exact absurd htoken (hword rfl)
    | keyColumns scope => rcases hf with ⟨rfl, -⟩ | ⟨rfl, -⟩ <;> cases hstate
    | _ => rfl
  | declare | refer | discard | openTable | closeTable => exact ⟨hkeeps trivial, rfl⟩
  | addColumn => exact ⟨hkeeps rfl, rfl⟩
  | @assign type =>
    exact ⟨hkeeps fun _ hc => hc, State.readsKey_of_isTyping type.family.isTyping_state⟩
  | @addTyped type =>
    exact ⟨hkeeps ⟨rfl, fun _ hc => hc⟩, State.readsKey_of_isTyping type.family.isTyping_state⟩
  | typeText _ hn => exact ⟨hkeeps fun _ hc => hc, State.readsKey_of_isTyping hn⟩
  | hasDefault | notNull => exact ⟨hkeeps fun _ hc => hc, rfl⟩
  | asKey htoken => exact absurd htoken (hword rfl)
  | keyColumn | listedColumn => cases hstate

/-- **No key without its words**: where `primary` and `key` do not stand next to each other, no
column is in a key, and none is about to be. -/
theorem Leads.keyless (h : Leads options .idle {} tokens state draft)
    (hkey : ¬["primary", "key"] <:+: tokens) :
    draft.All (·.isPrimaryKey = false) ∧ state.readsKey = false := by
  refine Leads.induction (P := fun tokens state draft => ¬["primary", "key"] <:+: tokens →
    draft.All (·.isPrimaryKey = false) ∧ state.readsKey = false) ?_ ?_ h hkey
  · exact fun _ => ⟨all_empty, rfl⟩
  · intro tokens token state next draft edit hl ih ht _ hkey
    obtain ⟨hall, hstate⟩ := ih fun hpart => hkey (hpart.trans (List.infix_append [] _ _))
    refine keyless_step hall hstate ?_ ht
    rintro hlast rfl
    obtain ⟨front, word, rfl, hmem⟩ := hl.last_mem (by rw [hlast]; nofun)
    rw [hlast, List.mem_singleton] at hmem
    subst hmem
    exact hkey ⟨front, [], by simp⟩

/-! ### Dumps -/

/-- **Nothing is invented.** Where tokens lead back to the idle state, the tables of the draft
are declared by them. If the words `primary` and `key` do not stand next to each other, no
column is in a key, and a dump of these tokens is read to a catalog without tables. -/
theorem declared_of_leads (h : Leads options .idle {} tokens .idle draft) :
    Declared options tokens draft.tables ∧
      (¬["primary", "key"] <:+: tokens →
        (∀ table ∈ draft.tables, ∀ column ∈ table.columns, column.isPrimaryKey = false) ∧
          ∀ dump, tokensOf dump = tokens → (parse options dump).result = .ok {}) := by
  refine ⟨h.witnessed.declared nofun, fun hkey => ?_⟩
  obtain ⟨hall, -⟩ := h.keyless hkey
  refine ⟨hall, fun dump hdump => ?_⟩
  have hnone : ((Catalog.mk draft.tables).finalize options).tables = [] := by
    refine List.eq_nil_iff_forall_not_mem.mpr fun table hmem => ?_
    obtain ⟨column, hcolumn, hk⟩ := List.any_eq_true.mp (hasPrimaryKey_of_mem_finalize hmem)
    exact absurd hk (Bool.eq_false_iff.mp (hall table (mem_of_mem_finalize hmem) column hcolumn))
  rw [parse, hdump, h.result_parseTokens]
  exact congrArg (Except.ok ∘ Catalog.mk) hnone

/-- Two tables, one with a column that is called `exclude`; and a dump without a key. -/
theorem declared_of_two_tables :
    let tokens := ["create", "table", "a", "(", "id", "int", "primary", "key", ",", "exclude",
      "text", ")", ";", "create", "table", "if", "not", "exists", "\x22b\x22", "(", "n",
      "varchar(3)", ")", ";"]
    let dump := Text.bytesOf "CREATE TABLE t (id int);".toList
    (∃ draft, Leads {} .idle {} tokens .idle draft ∧ draft.tables.length = 2 ∧
      Declared {} tokens draft.tables) ∧
    ¬["primary", "key"] <:+: tokensOf dump ∧ (parse {} dump).result = .ok {} := by
  intro tokens dump
  have htables : Leads {} .idle {} tokens .idle _ := ⟨rfl, rfl⟩
  have hdump : tokensOf dump = ["create", "table", "t", "(", "id", "int", ")", ";"] :=
    tokensOf_of_isCalm (by decide)
  have hkey : ¬["primary", "key"] <:+: tokensOf dump := by
    rw [hdump]
    decide
  obtain ⟨draft, hdraft⟩ : ∃ draft, Leads {} .idle {} (tokensOf dump) .idle draft := by
    rw [hdump]
    exact ⟨_, rfl, rfl⟩
  exact ⟨⟨_, htables, rfl, (declared_of_leads htables).1⟩, hkey,
    ((declared_of_leads hdraft).2 hkey).2 dump rfl⟩

end SqlCatalog
