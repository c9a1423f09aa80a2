import SqlCatalog.Proofs.Column.Change
import SqlCatalog.Proofs.Place

/-!
# Types in column definitions

The tokens of a column type are one token that names the type, and a *tail* that
depends on the family of the type (`SqlCatalog.TypeTail`): the word that completes
`character` or `double`, the time zone of a clock type, and behind any complete
type modifiers and array marks, each in a token of its own or cut into several.
`SqlCatalog.TypeTokens` puts the two together.

Behind the name of a column such tokens lead to a state in which the type is
complete (`SqlCatalog.State.IsTyped`), and on the way nothing of the column but
its type and its type options changes (`SqlCatalog.leads_typed_column`).
-/

namespace SqlCatalog

open Identifier

/-! ### The tokens of a type -/

/-- Whether a token is a modifier or an array mark as it stands. -/
def isMarkToken (token : String) : Bool :=
  (beginsWith "[" token || beginsWith "(" token) && token != "("

/-- **What may stand behind the first token of a type** of a family. -/
inductive TypeTail : TypeFamily → List String → Prop where
  /-- A scalar type is complete. -/
  | scalar : TypeTail .scalar []
  /-- Behind `character` comes `varying`, with or without a length, or a length. -/
  | character {word : String} (h : beginsWith "varying" word || beginsWith "(" word) :
    TypeTail .character [word]
  /-- A clock type is complete. -/
  | clock : TypeTail .clock []
  /-- A clock type may be given a time zone. -/
  | zone {word : String} (h : word = "with" ∨ word = "without") :
    TypeTail .clock [word, "time", "zone"]
  /-- Behind `double` comes `precision`. -/
  | double : TypeTail .double ["precision"]
  /-- A complete type takes modifiers and array marks. -/
  | mark {family : TypeFamily} {tokens : List String} {token : String}
    (h : TypeTail family tokens) (hm : isMarkToken token) : TypeTail family (tokens ++ [token])
  /-- A modifier may be cut at its commas and brackets. -/
  | modifier {family : TypeFamily} {tokens inner : List String} (h : TypeTail family tokens)
    (hi : ∀ token ∈ inner, token ≠ ")" ∧ token ≠ ";") :
    TypeTail family (tokens ++ "(" :: (inner ++ [")"]))

/-- **The tokens of a type**: one that names it and its tail. -/
def TypeTokens (options : Options) (tokens : List String) : Prop :=
  ∃ token type tail, tokens = token :: tail ∧ ColumnType.ofToken? options token = some type ∧
    TypeTail type.family tail

/-! ### Complete types -/

variable {options : Options} {state last : State} {draft draft' : Draft} {column : Column}
  {token : String} {tokens : List String}

/-- Behind a complete type a token is read as the tail of a column, unless it
begins a time zone. -/
theorem State.IsTyped.step_eq (h : state.IsTyped) (hw : token ≠ "with") (hwo : token ≠ "without") :
    step options state draft token = readColumnTail token draft := by
  rcases h with rfl | rfl
  · rfl
  · rw [step, readClock, if_neg (not_or.mpr ⟨hw, hwo⟩)]

/-- A modifier or an array mark is no token that is none. -/
theorem ne_of_isMarkToken (hm : isMarkToken token = true) (word : String)
    (hw : isMarkToken word = false) : token ≠ word := by
  rintro rfl
  exact Bool.false_ne_true (hw.symm.trans hm)

/-- A token of a modifier or an array mark leaves the type complete. -/
theorem changes_mark (options : Options) (h : state.IsTyped) (hm : isMarkToken token) :
    Changes options state [token] .columnType (Column.appendOption token) := by
  obtain ⟨hb, hne⟩ := Bool.and_eq_true_iff.mp hm
  -- no word that the tail of a column knows begins with a bracket, but the bracket itself
  have hword := ne_of_isMarkToken hm
  refine .of_step fun draft => ?_
  rw [h.step_eq (hword _ rfl) (hword _ rfl), readColumnTail, if_neg (hword _ rfl),
    if_neg (hword _ rfl), if_neg (hword _ rfl), if_neg (hword _ rfl), if_neg (hword _ rfl),
    if_neg (hword _ rfl), if_neg (hword _ rfl), if_neg (by simpa using hne), if_pos hb]

/-- A column with the text of tokens in its type options. -/
def Column.appendOptions (tokens : List String) (column : Column) : Column :=
  { column with typeOptions := tokens.foldl (· ++ ·) column.typeOptions }

/-- The tokens between the brackets of a modifier. -/
theorem changes_inner (options : Options) (hi : ∀ token ∈ tokens, token ≠ ")" ∧ token ≠ ";") :
    Changes options .typeModifier tokens .typeModifier (Column.appendOptions tokens) := by
  induction tokens with
  | nil => exact .refl
  | cons token tokens ih =>
    obtain ⟨⟨hclose, hsemi⟩, hi⟩ := List.forall_mem_cons.mp hi
    have htoken : Changes options .typeModifier [token] .typeModifier (Column.appendOption token) :=
      .of_step fun draft => by rw [step, readModifier, if_neg hsemi, if_neg hclose]
    exact htoken.append (ih hi)

/-- **A modifier that is cut into tokens** is put together again. -/
theorem changes_modifier (options : Options) (h : state.IsTyped)
    (hi : ∀ token ∈ tokens, token ≠ ")" ∧ token ≠ ";") :
    Changes options state ("(" :: (tokens ++ [")"])) .columnType
      (Column.appendOptions ("(" :: (tokens ++ [")"]))) := by
  have hopen : Changes options state ["("] .typeModifier (Column.appendOption "(") :=
    .of_step fun draft => h.step_eq (by decide) (by decide)
  have hclose : Changes options .typeModifier [")"] .columnType (Column.appendOption ")") :=
    .of_step fun draft => rfl
  have hall := hopen.append ((changes_inner options hi).append hclose)
  have hchange : (Column.appendOption ")" ∘ Column.appendOptions tokens) ∘ Column.appendOption "(" =
      Column.appendOptions ("(" :: (tokens ++ [")"])) := by
    funext column
    rw [Column.appendOptions, List.foldl_cons, List.foldl_append]
    rfl
  rwa [hchange] at hall

/-- A word of a type. -/
theorem changes_typeWord {word : String}
    (h : ∀ draft, step options state draft word = readTypeWord word last word draft) :
    Changes options state [word] last (Column.appendWord word) :=
  .of_step fun draft => (h draft).trans (by rw [readTypeWord, if_pos rfl, readOptionWord])

/-- A word behind `character`. -/
theorem changes_characterWord (options : Options)
    (h : beginsWith "varying" token || beginsWith "(" token) :
    Changes options .characterType [token] .columnType (Column.appendWord token) :=
  .of_step fun draft => by rw [step, readCharacter, if_pos h, readOptionWord]

/-- The words of a time zone but the last one. -/
theorem changes_zoneTime (options : Options) (h : token = "with" ∨ token = "without") :
    Changes options .clockType [token, "time"] .timeZoneName
      (Column.appendWord "time" ∘ Column.appendWord token) := by
  have hword : Changes options .clockType [token] .timeZone (Column.appendWord token) :=
    .of_step fun draft => by rw [step, readClock, if_pos h, readOptionWord]
  have htime : Changes options .timeZone ["time"] .timeZoneName (Column.appendWord "time") :=
    changes_typeWord fun _ => rfl
  exact hword.append htime

/-- The words of a time zone. -/
theorem changes_zone (options : Options) (h : token = "with" ∨ token = "without") :
    Changes options .clockType [token, "time", "zone"] .columnType
      (Column.appendWord "zone" ∘ Column.appendWord "time" ∘ Column.appendWord token) := by
  have hzone : Changes options .timeZoneName ["zone"] .columnType (Column.appendWord "zone") :=
    changes_typeWord fun _ => rfl
  exact (changes_zoneTime options h).append hzone

/-- The word behind `double`. -/
theorem changes_precision (options : Options) :
    Changes options .doubleType ["precision"] .columnType (Column.appendWord "precision") :=
  changes_typeWord fun _ => rfl

/-- **A text put together** of another one, of tokens and of blanks. -/
def IsJoined (tokens : List String) (text : String → String) : Prop :=
  ∀ typeOptions, ∀ c ∈ (text typeOptions).toList,
    c = ' ' ∨ c ∈ typeOptions.toList ∨ ∃ token ∈ tokens, c ∈ token.toList

namespace IsJoined

variable {text : String → String}

/-- A text is put together of itself. -/
theorem nil : IsJoined [] fun typeOptions => typeOptions :=
  fun _ _ hc => Or.inr (Or.inl hc)

/-- Some tokens are put behind it. -/
theorem append (h : IsJoined tokens text) (more : List String) :
    IsJoined (tokens ++ more) fun typeOptions => more.foldl (· ++ ·) (text typeOptions) := by
  induction more generalizing tokens text with
  | nil => rwa [List.append_nil]
  | cons token more ih =>
    have hone : IsJoined (tokens ++ [token]) fun typeOptions => text typeOptions ++ token := by
      intro typeOptions c hc
      rw [String.toList_append] at hc
      rcases List.mem_append.mp hc with hc | hc
      · refine (h typeOptions c hc).imp_right (Or.imp_right ?_)
        rintro ⟨other, hmem, hc⟩
        exact ⟨other, List.mem_append_left _ hmem, hc⟩
      · exact Or.inr (Or.inr ⟨token, List.mem_append_right _ List.mem_cons_self, hc⟩)
    rw [List.append_cons]
    exact ih hone

/-- A word is put behind it. -/
theorem word (h : IsJoined tokens text) (word : String) :
    IsJoined (tokens ++ [word]) fun typeOptions =>
      (if text typeOptions = "" then "" else text typeOptions ++ " ") ++ word := by
  have hblank : IsJoined tokens fun typeOptions =>
      if text typeOptions = "" then "" else text typeOptions ++ " " := by
    intro typeOptions c hc
    dsimp only at hc
    split at hc
    · cases hc
    · rw [String.toList_append] at hc
      rcases List.mem_append.mp hc with hc | hc
      · exact h typeOptions c hc
      · exact Or.inl (List.mem_singleton.mp hc)
  exact hblank.append [word]

end IsJoined

/-- **The tail of a type completes it**, and it changes the type options alone, to which it puts
its tokens. -/
theorem changes_typeTail (options : Options) {family : TypeFamily} (h : TypeTail family tokens) :
    ∃ (last : State) (text : String → String), last.IsTyped ∧ IsJoined tokens text ∧
      Changes options family.state tokens last
        fun column => { column with typeOptions := text column.typeOptions } := by
  induction h with
  | scalar => exact ⟨_, _, Or.inl rfl, .nil, .refl⟩
  | clock => exact ⟨_, _, Or.inr rfl, .nil, .refl⟩
  | character hword =>
    exact ⟨_, _, Or.inl rfl, IsJoined.nil.word _, changes_characterWord options hword⟩
  | zone hword =>
    exact ⟨_, _, Or.inl rfl, ((IsJoined.nil.word _).word "time").word "zone",
      changes_zone options hword⟩
  | double => exact ⟨_, _, Or.inl rfl, IsJoined.nil.word _, changes_precision options⟩
  | @mark _ _ token _ hm ih =>
    obtain ⟨last, text, ht, hjoined, hl⟩ := ih
    exact ⟨_, _, Or.inl rfl, hjoined.append [token], hl.append (changes_mark options ht hm)⟩
  | @modifier _ _ inner _ hi ih =>
    obtain ⟨last, text, ht, hjoined, hl⟩ := ih
    exact ⟨_, _, Or.inl rfl, hjoined.append ("(" :: (inner ++ [")"])),
      hl.append (changes_modifier options ht hi)⟩

/-! ### Names and types -/

/-- The words at the head of an entry that begin a constraint, whatever comes
behind them. -/
def constraintWords : List String := ["constraint", "primary", "unique", "check", "foreign"]

/-- **A token that names a column** at the head of an entry, when a type comes
behind it. -/
def IsColumnHead (name : String) : Prop :=
  isColumnName name = true ∧ name ∉ constraintWords

instance (name : String) : Decidable (IsColumnHead name) :=
  inferInstanceAs (Decidable (_ ∧ _))

/-- At the head of an entry the name of a column is read as one, or as the word
`exclude`, of which the type behind it decides. -/
theorem step_columnHead {name : String} (h : IsColumnHead name) :
    step options .blockEntry draft name =
      if name = "exclude" then Step.goto .excludeEntry draft
      else Step.gotoWith .columnName (draft.pushColumn? name) name draft := by
  obtain ⟨hname, hwords⟩ := h
  have hclose : name ≠ ")" := by
    rintro rfl
    exact absurd hname (by decide)
  simp only [constraintWords, List.mem_cons, List.not_mem_nil, or_false, not_or] at hwords
  rw [step, readEntry, if_neg hclose, if_neg hwords.1, if_neg hwords.2.1,
    if_neg (not_or.mpr ⟨hwords.2.2.1, not_or.mpr hwords.2.2.2⟩), if_pos hname]

/-- **A name and the first token of a type** begin a column, the column `exclude`
as any other. -/
theorem leads_columnHead {name : String} {type : ColumnType} {pushed : Draft}
    (h : IsColumnHead name) (ht : ColumnType.ofToken? options token = some type)
    (hp : draft.pushColumn? name = some pushed)
    (hm : pushed.modifyColumn? (fun column =>
      { column with dataType := type.name, typeOptions := type.modifier }) = some draft') :
    Leads options .blockEntry draft [name, token] type.family.state draft' := by
  have htype : readType options token pushed = ⟨.ok type.family.state, draft', []⟩ := by
    delta readType
    rw [ht]
    dsimp only
    rw [hm]
    rfl
  by_cases he : name = "exclude"
  · subst he
    have hstep : step options .excludeEntry draft token =
        ⟨.ok type.family.state, draft', []⟩ := by
      rw [← htype, step, readExclude, if_pos (by rw [ht]; rfl), hp]
    exact .cons (step_columnHead h) (.single hstep)
  · have hstep : step options .blockEntry draft name = ⟨.ok .columnName, pushed, []⟩ := by
      rw [step_columnHead h, if_neg he, hp]
      rfl
    exact .cons hstep (.single htype)

/-- **A name and a type give a typed column**, without options. -/
theorem leads_typed_column {name : String} (h : IsColumnHead name) (hd : draft.current?.isSome)
    (ht : TypeTokens options tokens) :
    ∃ last draft' type text, last.IsTyped ∧
      Leads options .blockEntry draft (name :: tokens) last draft' ∧
      draft'.column? = some { Column.ofIdentifier name with
        dataType := type, typeOptions := text } := by
  obtain ⟨token, type, tail, rfl, ht, htail⟩ := ht
  obtain ⟨pushed, hpush⟩ := Option.isSome_iff_exists.mp
    ((Draft.isSome_pushColumn? name).trans hd)
  obtain ⟨d, hm, hc⟩ := Draft.modifyColumn?_of_column? (Draft.column?_of_pushColumn? hpush)
    fun column => { column with dataType := type.name, typeOptions := type.modifier }
  obtain ⟨last, text, hlast, -, hchange⟩ := changes_typeTail options htail
  obtain ⟨d', hl, hc'⟩ := hchange.leads hc
  exact ⟨last, d', _, _, hlast, (leads_columnHead h ht hpush hm).append hl, hc'⟩

end SqlCatalog
