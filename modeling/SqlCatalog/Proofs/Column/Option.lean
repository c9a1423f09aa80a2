import SqlCatalog.Proofs.Column.Expression
import SqlCatalog.Proofs.Column.Type

/-!
# The order of column options

Behind its type a column may be said not to be null, to have a default value and
to be the primary key. Which of these the reader finds hardly depends on their
order. `SqlCatalog.readOptions` is what the reader makes of a column: every
option has its effect, with one exception. A default expression runs on up to the
next `not`, comma or closing bracket outside its brackets, so the words
`primary key` right behind it belong to the expression and make no key.

`SqlCatalog.Leads.flags_of_options` is that rule for all orders that are
accepted, and `SqlCatalog.flags_agree_iff` compares two orders of the same
options: they give the same column unless just one of them has its key right
behind its default (`SqlCatalog.default_hides_key`).
-/

namespace SqlCatalog

/-- **The options of a column** that say something about its values. -/
inductive ColumnOption where
  /-- It is never null. -/
  | notNull
  /-- It has a default value. -/
  | default
  /-- It is the primary key. -/
  | primaryKey
deriving DecidableEq, Repr

/-- The tokens of an option, when the default value is that of an expression. -/
def ColumnOption.tokens (expression : List String) : ColumnOption → List String
  | .notNull => ["not", "null"]
  | .default => "default" :: expression
  | .primaryKey => ["primary", "key"]

/-- The tokens of options in their order. -/
def optionTokens (expression : List String) (order : List ColumnOption) : List String :=
  order.flatMap (ColumnOption.tokens expression)

/-- **What the options make of a column**, when the ones in front of them end in
a default expression or not. A default expression takes in everything but
`not null`. -/
def readOptions : (inDefault : Bool) → (order : List ColumnOption) → Column → Column
  | _, [], column => column
  | _, .notNull :: order, column => readOptions false order { column with isNotNull := true }
  | _, .default :: order, column => readOptions true order { column with hasDefault := true }
  | true, .primaryKey :: order, column => readOptions true order column
  | false, .primaryKey :: order, column => readOptions false order column.asKey

/-- **The key stands right behind the default**, and so inside its expression. -/
def HidesKey (order : List ColumnOption) : Prop :=
  [ColumnOption.default, .primaryKey] <:+: order

instance (order : List ColumnOption) : Decidable (HidesKey order) :=
  inferInstanceAs (Decidable (_ <:+: _))

theorem hidesKey_cons {option : ColumnOption} {order : List ColumnOption} :
    HidesKey (option :: order) ↔
      (option = .default ∧ order.head? = some .primaryKey) ∨ HidesKey order := by
  rw [HidesKey, List.infix_cons_iff, HidesKey]
  refine or_congr ?_ Iff.rfl
  cases order with
  | nil => simp
  | cons next order => simp [List.cons_prefix_cons, eq_comm]

/-- No key is hidden where there is none. -/
theorem HidesKey.mem {order : List ColumnOption} (h : HidesKey order) :
    ColumnOption.primaryKey ∈ order :=
  h.subset (by simp)

/-! ### The flags that options set -/

section Flags

variable {inDefault : Bool} {order : List ColumnOption} {column : Column}

/-- A default is found wherever it stands. -/
theorem hasDefault_readOptions :
    (readOptions inDefault order column).hasDefault = true ↔
      column.hasDefault = true ∨ .default ∈ order := by
  induction order generalizing inDefault column with
  | nil => simp [readOptions]
  | cons option order ih =>
    cases option with
    | notNull => simp [readOptions, ih]
    | default => simp [readOptions, ih]
    | primaryKey => cases inDefault <;> simp [readOptions, ih, Column.asKey]

/-- **A key is found unless a default hides it.** -/
theorem isPrimaryKey_readOptions (h : order.Nodup) :
    (readOptions inDefault order column).isPrimaryKey = true ↔
      column.isPrimaryKey = true ∨ (.primaryKey ∈ order ∧ ¬HidesKey order ∧
        ¬(inDefault = true ∧ order.head? = some .primaryKey)) := by
  induction order generalizing inDefault column with
  | nil => simp [readOptions]
  | cons option order ih =>
    obtain ⟨hmem, hnodup⟩ := List.nodup_cons.mp h
    cases option with
    | notNull => simp [readOptions, ih hnodup, hidesKey_cons]
    | default =>
      simp only [readOptions, ih hnodup, hidesKey_cons, true_and, List.mem_cons, reduceCtorEq,
        false_or, List.head?_cons, Option.some.injEq, and_false, not_false_eq_true, and_true,
        not_or]
      exact or_congr Iff.rfl (and_congr Iff.rfl and_comm)
    | primaryKey =>
      -- there is no second key, neither to be found nor to be hidden
      have hhid : ¬HidesKey order := fun hc => hmem hc.mem
      cases inDefault with
      | true => simp [readOptions, ih hnodup, hmem]
      | false => simp [readOptions, ih hnodup, hidesKey_cons, hhid, Column.asKey]

/-- **A column is not null** if it is said to be so or is found to be a key. -/
theorem isNotNull_readOptions (h : order.Nodup)
    (hkey : column.isPrimaryKey = true → column.isNotNull = true) :
    (readOptions inDefault order column).isNotNull = true ↔
      column.isNotNull = true ∨ .notNull ∈ order ∨
        (readOptions inDefault order column).isPrimaryKey = true := by
  induction order generalizing inDefault column with
  | nil =>
    simp only [readOptions, List.not_mem_nil, false_or]
    exact ⟨Or.inl, fun h => h.elim id hkey⟩
  | cons option order ih =>
    obtain ⟨-, hnodup⟩ := List.nodup_cons.mp h
    cases option with
    | notNull =>
      have hread : (readOptions false order { column with isNotNull := true }).isNotNull = true :=
        (ih hnodup fun _ => rfl).mpr (Or.inl rfl)
      exact iff_of_true hread (Or.inr (Or.inl List.mem_cons_self))
    | default =>
      simpa [readOptions] using @ih true { column with hasDefault := true } hnodup hkey
    | primaryKey =>
      cases inDefault with
      | true => simpa [readOptions] using ih hnodup hkey
      | false =>
        -- a key that is found stays one, and it is not null
        have hfound : (readOptions false order column.asKey).isPrimaryKey = true :=
          (isPrimaryKey_readOptions hnodup).mpr (Or.inl rfl)
        have hread : (readOptions false order column.asKey).isNotNull = true :=
          (ih hnodup fun _ => rfl).mpr (Or.inl rfl)
        exact iff_of_true hread (Or.inr (Or.inr hfound))

end Flags

/-! ### Reading the options -/

variable {options : Options} {state last last₁ last₂ : State} {draft draft' draft₁ draft₂ : Draft}
  {column : Column} {name close close₁ close₂ : String} {type expression : List String}
  {order order₁ order₂ : List ColumnOption}

/-- **A state in which the options of a column may go on or end**: behind a type
or an option, or in a default expression outside its brackets. -/
def IsOptionState : (inDefault : Bool) → State → Prop
  | false, state => state.IsTyped ∨ state = .columnOption
  | true, state => state = .columnDefault 0

/-- A column definition ends at a comma or at the bracket that closes the
block. -/
def IsCloser (token : String) : Prop := token = "," ∨ token = ")"

/-- **The end of a column definition** leaves the draft alone: a comma leads to the
next entry, and a closing bracket to the end of the block. -/
theorem step_closer (options : Options) (draft : Draft) {inDefault : Bool}
    (h : IsOptionState inDefault state) :
    step options state draft "," = Step.goto .blockEntry draft ∧
      step options state draft ")" = Step.goto .blockEnd draft := by
  cases inDefault with
  | false =>
    rcases h with h | rfl
    · rw [h.step_eq (by decide) (by decide), h.step_eq (by decide) (by decide)]
      exact ⟨rfl, rfl⟩
    · exact ⟨rfl, rfl⟩
  | true =>
    obtain rfl := h
    exact ⟨rfl, rfl⟩

/-- Behind a type and behind an option the words `default` and `primary` are read
alike. -/
theorem step_optionWord (h : IsOptionState false state) {word : String}
    (hword : word = "default" ∨ word = "primary") :
    step options state draft word = readColumnOption word draft := by
  rcases h with h | rfl
  · rw [h.step_eq (by rcases hword with rfl | rfl <;> decide)
      (by rcases hword with rfl | rfl <;> decide)]
    rcases hword with rfl | rfl <;> rfl
  · rfl

/-- The word `not` is rejected behind an option, and read behind a type and in a
default expression. -/
theorem step_not {inDefault : Bool} (h : IsOptionState inDefault state) {next : State}
    (ho : (step options state draft "not").outcome = .ok next) :
    step options state draft "not" = Step.goto .columnNot draft := by
  cases inDefault with
  | false =>
    rcases h with h | rfl
    · rw [h.step_eq (by decide) (by decide)]
      rfl
    · cases ho
  | true =>
    obtain rfl := h
    rfl

/-- The last word of `not null`. -/
theorem changes_null (options : Options) :
    Changes options .columnNot ["null"] .columnOption fun column =>
      { column with isNotNull := true } :=
  .of_step fun _ => rfl

/-- The last word of `primary key`. -/
theorem changes_key (options : Options) :
    Changes options .columnPrimary ["key"] .columnOption Column.asKey :=
  .of_step fun _ => rfl

/-- The word `default`. -/
theorem changes_default (options : Options) (h : IsOptionState false state) :
    Changes options state ["default"] (.columnDefault 0) fun column =>
      { column with hasDefault := true } :=
  .of_step fun _ => step_optionWord h (Or.inl rfl)

/-- The reading of one option. Where it is accepted at all, the column is as
`SqlCatalog.readOptions` says. -/
theorem Leads.readOption {inDefault : Bool} {option : ColumnOption}
    (hs : IsOptionState inDefault state) (hc : draft.column? = some column)
    (he : expressionDepth? 0 expression = some 0) (hnot : "not" ∉ expression)
    (hd : inDefault = true → option ≠ .default)
    (h : Leads options state draft (option.tokens expression) last draft') :
    ∃ inDefault' column', IsOptionState inDefault' last ∧ draft'.column? = some column' ∧
      (inDefault' = true → inDefault = true ∨ option = .default) ∧
      ∀ order, readOptions inDefault (option :: order) column =
        readOptions inDefault' order column' := by
  cases option with
  | notNull =>
    obtain ⟨next, hnext, h⟩ := leads_cons.mp h
    have hstep := step_not hs hnext
    rw [hstep] at hnext h
    obtain rfl := Except.ok.inj hnext
    obtain ⟨d, hl, hd⟩ := (changes_null options).leads hc
    obtain ⟨rfl, rfl⟩ := h.unique hl
    exact ⟨false, _, Or.inr rfl, hd, nofun, fun _ => by cases inDefault <;> rfl⟩
  | default =>
    cases inDefault with
    | true => exact absurd rfl (hd rfl)
    | false =>
      obtain ⟨d, hl, hd⟩ := (changes_default options hs).leads hc
      obtain ⟨rfl, rfl⟩ := h.unique (hl.append (leads_expression he hnot))
      exact ⟨true, _, rfl, hd, fun _ => Or.inr rfl, fun _ => rfl⟩
  | primaryKey =>
    cases inDefault with
    | true =>
      -- the words of the key are two more tokens of the expression
      obtain rfl := hs
      have hskip : Leads options (.columnDefault 0) draft ["primary", "key"]
          (.columnDefault 0) draft := leads_expression rfl (by decide)
      obtain ⟨rfl, rfl⟩ := h.unique hskip
      exact ⟨true, _, rfl, hc, fun _ => Or.inl rfl, fun _ => rfl⟩
    | false =>
      obtain ⟨d, hl, hd⟩ := (changes_key options).leads hc
      have hp : Leads options state draft ["primary"] .columnPrimary draft :=
        .single (step_optionWord hs (Or.inr rfl))
      obtain ⟨rfl, rfl⟩ := h.unique (hp.append hl)
      exact ⟨false, _, Or.inr rfl, hd, nofun, fun _ => rfl⟩

/-- **The reading of the options**: where they are accepted, in whatever order,
the column is as `SqlCatalog.readOptions` says. -/
theorem Leads.readOptions {inDefault : Bool} (hs : IsOptionState inDefault state)
    (hc : draft.column? = some column) (he : expressionDepth? 0 expression = some 0)
    (hnot : "not" ∉ expression) (hnodup : order.Nodup)
    (hd : inDefault = true → .default ∉ order) (hclose : IsCloser close)
    (h : Leads options state draft (optionTokens expression order ++ [close]) last draft') :
    draft'.column? = some (readOptions inDefault order column) := by
  induction order generalizing state draft column inDefault with
  | nil =>
    obtain ⟨hcomma, hbracket⟩ := step_closer options draft hs
    have hdraft : draft' = draft := by
      rcases hclose with rfl | rfl
      · exact (h.unique (.single hcomma)).2
      · exact (h.unique (.single hbracket)).2
    rw [hdraft, hc, SqlCatalog.readOptions]
  | cons option order ih =>
    obtain ⟨hmem, hnodup'⟩ := List.nodup_cons.mp hnodup
    rw [optionTokens, List.flatMap_cons, List.append_assoc] at h
    obtain ⟨s, d, hl, h⟩ := leads_append.mp h
    obtain ⟨b, column', hb, hc', hkind, hread⟩ := hl.readOption hs hc he hnot fun hi heq =>
      hd hi (heq ▸ List.mem_cons_self)
    rw [hread order]
    refine ih hb hc' hnodup' (fun hb' hin => ?_) h
    rcases hkind hb' with hi | rfl
    · exact hd hi (List.mem_cons_of_mem _ hin)
    · exact hmem hin

/-! ### Columns with options -/

/-- **The tokens of a column definition** with its options in their order. -/
def columnTokens (name : String) (type expression : List String) (order : List ColumnOption) :
    List String :=
  name :: (type ++ optionTokens expression order)

/-- **The flags of a column whose options are accepted**, in whatever order they
stand. -/
theorem Leads.flags_of_options (hname : IsColumnHead name) (htype : TypeTokens options type)
    (he : IsExpression expression) (hnot : "not" ∉ expression) (hnodup : order.Nodup)
    (hclose : IsCloser close) (hopen : draft.current?.isSome)
    (h : Leads options .blockEntry draft (columnTokens name type expression order ++ [close])
      last draft') :
    ∃ column, draft'.column? = some column ∧
      (column.hasDefault = true ↔ .default ∈ order) ∧
      (column.isPrimaryKey = true ↔ .primaryKey ∈ order ∧ ¬HidesKey order) ∧
      (column.isNotNull = true ↔ .notNull ∈ order ∨ column.isPrimaryKey = true) := by
  obtain ⟨typed, d, word, text, htyped, hl, hc⟩ := leads_typed_column hname hopen htype
  rw [columnTokens, ← List.cons_append, List.append_assoc] at h
  have hrest := h.after hl
  have hread := hrest.readOptions (show IsOptionState false typed from Or.inl htyped) hc he.2 hnot hnodup nofun hclose
  refine ⟨_, hread, ?_, ?_, ?_⟩
  · simp [hasDefault_readOptions, Column.ofIdentifier]
  · simp [isPrimaryKey_readOptions hnodup, Column.ofIdentifier]
  · rw [isNotNull_readOptions hnodup fun hkey => by cases hkey]
    simp [Column.ofIdentifier]

/-- **Two orders of the same options** give a column with the same flags, unless
the key stands right behind the default in just one of them. Then one column is
a key and the other is none, and it is not null by `not null` alone. -/
theorem flags_agree_iff (hname : IsColumnHead name) (htype : TypeTokens options type)
    (he : IsExpression expression) (hnot : "not" ∉ expression) (hnodup : order₁.Nodup)
    (hperm : order₁.Perm order₂) (hclose₁ : IsCloser close₁) (hclose₂ : IsCloser close₂)
    (hopen : draft.current?.isSome)
    (h₁ : Leads options .blockEntry draft (columnTokens name type expression order₁ ++ [close₁])
      last₁ draft₁)
    (h₂ : Leads options .blockEntry draft (columnTokens name type expression order₂ ++ [close₂])
      last₂ draft₂) :
    ∃ column₁ column₂, draft₁.column? = some column₁ ∧ draft₂.column? = some column₂ ∧
      column₁.hasDefault = column₂.hasDefault ∧
      (column₁.isPrimaryKey = column₂.isPrimaryKey ↔ (HidesKey order₁ ↔ HidesKey order₂)) ∧
      (column₁.isNotNull = column₂.isNotNull ↔
        .notNull ∈ order₁ ∨ (HidesKey order₁ ↔ HidesKey order₂)) := by
  obtain ⟨column₁, hc₁, hdefault₁, hkey₁, hnull₁⟩ :=
    h₁.flags_of_options hname htype he hnot hnodup hclose₁ hopen
  obtain ⟨column₂, hc₂, hdefault₂, hkey₂, hnull₂⟩ :=
    h₂.flags_of_options hname htype he hnot (hperm.nodup_iff.mp hnodup) hclose₂ hopen
  refine ⟨column₁, column₂, hc₁, hc₂, ?_, ?_, ?_⟩
  · rw [Bool.eq_iff_iff, hdefault₁, hdefault₂, hperm.mem_iff]
  · -- an order without a key hides none, so a hidden key is one that both orders have
    have hhidden₁ : HidesKey order₁ → .primaryKey ∈ order₁ := HidesKey.mem
    have hhidden₂ : HidesKey order₂ → .primaryKey ∈ order₁ := fun h => hperm.mem_iff.mpr h.mem
    rw [Bool.eq_iff_iff, hkey₁, hkey₂, ← hperm.mem_iff]
    grind
  · have hhidden₁ : HidesKey order₁ → .primaryKey ∈ order₁ := HidesKey.mem
    have hhidden₂ : HidesKey order₂ → .primaryKey ∈ order₁ := fun h => hperm.mem_iff.mpr h.mem
    rw [Bool.eq_iff_iff, hnull₁, hnull₂, hkey₁, hkey₂, ← hperm.mem_iff, ← hperm.mem_iff]
    grind

/-- A default in front of `not null` and one behind the key. -/
theorem flags_agree_of_default_moved :
    ∃ draft₁ draft₂ column₁ column₂,
      Leads {} .blockEntry (.inBlock [] (.ofIdentifier "t") none)
        (columnTokens "id" ["integer"] ["nextval", "(", "s", ")"]
          [.default, .notNull, .primaryKey] ++ [","]) .blockEntry draft₁ ∧
      Leads {} .blockEntry (.inBlock [] (.ofIdentifier "t") none)
        (columnTokens "id" ["integer"] ["nextval", "(", "s", ")"]
          [.notNull, .primaryKey, .default] ++ [")"]) .blockEnd draft₂ ∧
      draft₁.column? = some column₁ ∧ draft₂.column? = some column₂ ∧
      column₁.hasDefault = column₂.hasDefault ∧ column₁.isPrimaryKey = column₂.isPrimaryKey ∧
      column₁.isNotNull = column₂.isNotNull := by
  have h₁ : Leads {} .blockEntry (.inBlock [] (.ofIdentifier "t") none)
      (columnTokens "id" ["integer"] ["nextval", "(", "s", ")"]
        [.default, .notNull, .primaryKey] ++ [","]) .blockEntry _ := ⟨rfl, rfl⟩
  have h₂ : Leads {} .blockEntry (.inBlock [] (.ofIdentifier "t") none)
      (columnTokens "id" ["integer"] ["nextval", "(", "s", ")"]
        [.notNull, .primaryKey, .default] ++ [")"]) .blockEnd _ := ⟨rfl, rfl⟩
  obtain ⟨column₁, column₂, hc₁, hc₂, hdefault, hkey, hnull⟩ :=
    flags_agree_iff (by decide) ⟨"integer", _, [], rfl, rfl, .scalar⟩ (by decide) (by decide)
      (by decide) (by decide) (Or.inl rfl) (Or.inr rfl) rfl h₁ h₂
  exact ⟨_, _, column₁, column₂, h₁, h₂, hc₁, hc₂, hdefault, hkey.mpr (by decide),
    hnull.mpr (by decide)⟩

/-- **A default hides the key behind it**: of two orders of the same two options
one makes a key of the column and the other does not. -/
theorem default_hides_key :
    ∃ draft₁ draft₂ column₁ column₂,
      Leads {} .blockEntry (.inBlock [] (.ofIdentifier "t") none)
        (columnTokens "id" ["integer"] ["0"] [.default, .primaryKey] ++ [","])
        .blockEntry draft₁ ∧
      Leads {} .blockEntry (.inBlock [] (.ofIdentifier "t") none)
        (columnTokens "id" ["integer"] ["0"] [.primaryKey, .default] ++ [","])
        .blockEntry draft₂ ∧
      draft₁.column? = some column₁ ∧ draft₂.column? = some column₂ ∧
      column₁.isPrimaryKey = false ∧ column₂.isPrimaryKey = true ∧
      column₁.isNotNull = false ∧ column₂.isNotNull = true :=
  ⟨_, _, _, _, ⟨rfl, rfl⟩, ⟨rfl, rfl⟩, rfl, rfl, rfl, rfl, rfl, rfl⟩

end SqlCatalog
