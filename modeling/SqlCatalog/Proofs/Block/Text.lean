import SqlCatalog.Proofs.Block.Head
import SqlCatalog.Proofs.Block.Layout
import SqlCatalog.Proofs.Column.Option
import SqlCatalog.Proofs.Noise.Clause

/-!
# Statements with constraint clauses

A statement that declares a table is its head, a block of entries with commas
between them, and a semicolon (`SqlCatalog.TableStatement`). An entry is a column
definition or a constraint clause that is no primary key, and what is said of a
statement is said of its text: there may be white space in it wherever tokens
end, and letters of either case.

The pass over a dump drops the clauses and leaves the commas around them
(`SqlCatalog.TableStatement.stripFrom_text`). What is left has the tokens of the
entries with a comma between any two of them, and a clause has none
(`SqlCatalog.TableStatement.ofText_kept`).
-/

namespace SqlCatalog

open Text Noise Token Identifier

variable {options : Options}

/-! ### Entries -/

/-- **The text of a column definition**: a name, a type, and perhaps that the
column is not null or is the primary key. -/
structure ColumnText (options : Options) where
  /-- The text. -/
  text : List Char
  /-- The token that names the column. -/
  name : String
  /-- The tokens of the type. -/
  type : List String
  /-- The options. -/
  order : List ColumnOption
  /-- The name is one. -/
  isColumnHead : IsColumnHead name
  /-- The type is supported. -/
  typeTokens : TypeTokens options type
  /-- There is one option at most, and it is no default. -/
  order_mem : order ∈ [[], [.notNull], [.primaryKey]]
  /-- These are the tokens of the text. -/
  ofText_text : ofText text = columnTokens name type [] order
  /-- The brackets of the text pair up, and no comma stands outside them. -/
  isPaired : IsPaired text
  /-- No noise opens in the text. -/
  calm_text : calm true text = true

/-- **An entry of a column block.** -/
inductive Entry (options : Options) where
  /-- A column definition. -/
  | column (column : ColumnText options)
  /-- A constraint clause that is no primary key, behind blanks. -/
  | clause (gap : List Char) (clause : ClauseText) (isGap_of_mem : ∀ c ∈ gap, isGap c)
    (not_isKey : clause.isKey = false)

namespace Entry

/-- Whether an entry is a column definition. -/
def isColumn : Entry options → Bool
  | column _ => true
  | clause .. => false

/-- The text of an entry. -/
def text : Entry options → List Char
  | column c => c.text
  | clause gap c _ _ => gap ++ c.text

/-- What is left of an entry without its noise. -/
def kept : Entry options → List Char
  | column c => c.text
  | clause gap .. => gap

/-- The tokens of what is left of an entry. -/
def tokens : Entry options → List String
  | column c => columnTokens c.name c.type [] c.order
  | clause .. => []

/-- What is left of an entry is paired. -/
theorem isPaired_kept (entry : Entry options) : IsPaired entry.kept := by
  cases entry with
  | column c => exact c.isPaired
  | clause gap c hgap _ => exact isPaired_gaps hgap

theorem ofText_kept (entry : Entry options) : ofText entry.kept = entry.tokens := by
  cases entry with
  | column c => exact c.ofText_text
  | clause gap c hgap _ => exact ofText_gaps hgap

/-- **What the pass makes of an entry** and the comma or bracket behind it. -/
theorem stripFrom_text (entry : Entry options) {c : Char} (hc : IsClauseEnd c)
    (rest : List Char) :
    stripFrom .clear ((entry.text ++ c :: rest).map .char) =
      (entry.kept ++ [c]).map .char ++ stripFrom .clear (rest.map .char) := by
  cases entry with
  | column column =>
    have hcalm : IsCalm (column.text ++ [c]) := isCalm_append_end column.calm_text hc
    have hstrip := hcalm.stripFrom_append rest
    rwa [List.append_assoc] at hstrip
  | clause gap clause hgap hkey =>
    have hstrip := (isCalm_gaps hgap).stripFrom_append (clause.text ++ c :: rest)
    rw [clause.stripFrom_append hc, hkey] at hstrip
    rw [text, List.append_assoc, hstrip, kept]
    simp

end Entry

/-- **A column definition holds a break**, since it has more than one token. -/
theorem ColumnText.exists_break (column : ColumnText options) :
    ∃ v c b, column.text = v ++ c :: b ∧ IsWord v ∧ surplus v = 0 ∧ isBreak c := by
  have htokens := column.ofText_text
  have hpaired := column.isPaired
  generalize column.text = text at htokens hpaired ⊢
  obtain ⟨token, type, tail, htype, -⟩ := column.typeTokens
  induction text using break_induction with
  | word w hw =>
    have hlen : (ofText w).length ≤ 1 := by
      by_cases hne : w = []
      · subst hne
        exact Nat.zero_le _
      · rw [ofText_paired hw hne hpaired]
        exact Nat.le_refl _
    rw [htokens, htype, columnTokens] at hlen
    simp at hlen
  | append v c b hv hc _ =>
    rw [IsPaired, depth?_append] at hpaired
    obtain ⟨depth, hdepth, -⟩ := Option.bind_eq_some_iff.mp hpaired
    exact ⟨v, c, b, rfl, hv, Nat.le_zero.mp (surplus_of_depth? hdepth).1, hc⟩

/-! ### Statements -/

/-- **The text of a statement that declares a table.** -/
structure TableStatement (options : Options) where
  /-- What stands in front of the block. -/
  head : List Char
  /-- Whether the table is declared as one without a log. -/
  isUnlogged : Bool
  /-- Whether the table may be there already. -/
  ifNotExists : Bool
  /-- The identifier of the table. -/
  identifier : String
  /-- The entries of the block, in order. -/
  entries : List (Entry options)
  /-- The blanks between the block and the semicolon. -/
  foot : List Char
  /-- The identifier names a table. -/
  isTableName : isTableName identifier = true
  /-- It is none of the words that may stand in its place. -/
  not_mem : identifier ∉ ["if", "only"]
  /-- These are the tokens of the head. -/
  ofText_head : ofText head = headTokens isUnlogged ifNotExists identifier
  /-- No noise opens in the head, nor with the bracket behind it. -/
  isCalm_head : IsCalm (head ++ ['('])
  /-- There is a column. -/
  exists_column : ∃ column, Entry.column column ∈ entries
  /-- The foot is blank. -/
  isGap_of_mem : ∀ c ∈ foot, isGap c

namespace TableStatement

variable (statement : TableStatement options)

/-- The text of a statement. -/
def text : List Char :=
  statement.head ++ '(' :: blockText (statement.entries.map Entry.text) [] statement.foot

/-- What is left of a statement without its noise. -/
def kept : List Char :=
  statement.head ++ '(' :: blockText (statement.entries.map Entry.kept) [] statement.foot

/-- **The statement without its clauses**, and without the commas that separate
them from other entries. -/
def withoutClauses : TableStatement options :=
  { statement with
    entries := statement.entries.filter Entry.isColumn
    exists_column := by
      obtain ⟨column, hmem⟩ := statement.exists_column
      exact ⟨column, List.mem_filter.mpr ⟨hmem, rfl⟩⟩ }

end TableStatement

/-! ### Blocks -/

variable {entries : List (Entry options)} {foot : List Char}

/-- What the pass makes of a block. -/
theorem stripFrom_blockText (hne : entries ≠ []) (hfoot : ∀ c ∈ foot, isGap c) :
    stripFrom .clear ((blockText (entries.map Entry.text) [] foot).map .char) =
      (blockText (entries.map Entry.kept) [] foot).map .char := by
  induction entries with
  | nil => exact absurd rfl hne
  | cons entry entries ih =>
    cases entries with
    | nil =>
      have hend : IsCalm (foot ++ [';']) := (isCalm_gaps hfoot).append (by decide)
      have hclose := hend.stripFrom_append []
      rw [List.append_nil, List.map_nil, stripFrom_nil, List.append_nil] at hclose
      simp only [List.map_cons, List.map_nil, blockText_singleton, List.nil_append]
      rw [entry.stripFrom_text (by decide), hclose]
      simp
    | cons next entries =>
      have hrest := ih (List.cons_ne_nil _ _)
      simp only [List.map_cons, blockText_cons_cons] at hrest ⊢
      rw [entry.stripFrom_text (by decide), hrest]
      simp

/-- The tokens of what is left of a block. -/
theorem ofText_kept_blockText (hne : entries ≠ []) (hfoot : ∀ c ∈ foot, isGap c) :
    ofText (blockText (entries.map Entry.kept) [] foot) = blockTokens (entries.map Entry.tokens) := by
  have hpaired : ∀ kept ∈ entries.map Entry.kept, IsPaired kept := by
    intro kept hmem
    obtain ⟨entry, -, rfl⟩ := List.mem_map.mp hmem
    exact entry.isPaired_kept
  have htokens : ofText ∘ Entry.kept = @Entry.tokens options := funext Entry.ofText_kept
  have hgap : ∀ c ∈ ([] : List Char), isGap c := nofun
  rw [ofText_blockText (by simpa using hne) hpaired hgap hfoot, List.map_map, htokens]

/-- What is left of a block begins with a word that closes no bracket. -/
theorem exists_break_blockText (h : ∃ column, Entry.column column ∈ entries) (foot : List Char) :
    ∃ v c b, blockText (entries.map Entry.kept) [] foot = v ++ c :: b ∧ IsWord v ∧ surplus v = 0 ∧
      isBreak c := by
  have hcolumn : ∀ (column : ColumnText options) rest, ∃ v c b, column.text ++ rest = v ++ c :: b ∧
      IsWord v ∧ surplus v = 0 ∧ isBreak c := by
    intro column rest
    obtain ⟨v, c, b, htext, hv⟩ := column.exists_break
    exact ⟨v, c, b ++ rest, by rw [htext]; simp, hv⟩
  have hgap : ∀ (gap rest : List Char), (∀ c ∈ gap, isGap c) → ∃ v c b,
      gap ++ ',' :: rest = v ++ c :: b ∧ IsWord v ∧ surplus v = 0 ∧ isBreak c := by
    intro gap rest hgap
    cases gap with
    | nil => exact ⟨[], ',', rest, rfl, nofun, rfl, rfl⟩
    | cons c gap =>
      refine ⟨[], c, gap ++ ',' :: rest, rfl, nofun, rfl, ?_⟩
      rw [isBreak, hgap c List.mem_cons_self, Bool.or_true]
  obtain ⟨column, hmem⟩ := h
  rcases entries with _ | ⟨entry, _ | ⟨entry', entries⟩⟩
  · cases hmem
  · cases entry with
    | column column =>
      rw [List.map_singleton, blockText_singleton]
      exact hcolumn _ _
    | clause gap clause hisGap hkey => simp at hmem
  · simp only [List.map_cons, blockText_cons_cons]
    cases entry with
    | column column => exact hcolumn _ _
    | clause gap clause hisGap hkey => exact hgap gap _ hisGap

namespace TableStatement

variable (statement : TableStatement options)

theorem entries_ne_nil : statement.entries ≠ [] := by
  obtain ⟨column, hmem⟩ := statement.exists_column
  exact List.ne_nil_of_mem hmem

/-- **The pass over a statement** drops its clauses and leaves their commas. -/
theorem stripFrom_text :
    stripFrom .clear (statement.text.map .char) = statement.kept.map .char := by
  have hhead := statement.isCalm_head.stripFrom_append
    (blockText (statement.entries.map Entry.text) [] statement.foot)
  rw [stripFrom_blockText statement.entries_ne_nil statement.isGap_of_mem, List.append_assoc,
    List.singleton_append] at hhead
  rw [text, hhead, kept]
  simp

/-- **The tokens of what is left** of a statement. -/
theorem ofText_kept :
    ofText statement.kept =
      headTokens statement.isUnlogged statement.ifNotExists statement.identifier ++
        "(" :: blockTokens (statement.entries.map Entry.tokens) := by
  obtain ⟨v, c, b, hblock, hv, hs, hc⟩ :=
    exists_break_blockText statement.exists_column statement.foot
  have htokens := ofText_kept_blockText statement.entries_ne_nil statement.isGap_of_mem
  rw [kept]
  rw [hblock] at htokens ⊢
  rw [ofText_append_open hv hs hc, statement.ofText_head, htokens]

end TableStatement

end SqlCatalog
