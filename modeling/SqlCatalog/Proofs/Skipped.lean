import Mathlib.Data.List.Infix
import SqlCatalog.Proofs.Run

/-!
# Statements that are skipped

Outside the statements that matter the reader has three states: it has read nothing, or
`create`, or `alter`. Only the word `table` leads out of them, and only behind the words
that begin the head of a table statement (`SqlCatalog.IsTableHead`). Tokens in which no
such head stands are read and forgotten, whatever else they hold: the reader may begin to
read a head in them, and drops it again.

What a state has read of a head is a list of words in front of the tokens to come
(`SqlCatalog.State.headWords`), and the tokens are skipped when no head stands in the two
put together. One token keeps this (`SqlCatalog.step_of_namesNoTable`), and so do all of
them. Behind a semicolon nothing has been read of a head, so tokens that end in one may
stand between any two statements (`SqlCatalog.run_skip`).
-/

namespace SqlCatalog

open Step

/-! ### Heads of table statements -/

/-- **The heads of statements about tables**, up to the word `table`. -/
inductive IsTableHead : List String → Prop where
  /-- The head of an alteration. -/
  | alter : IsTableHead ["alter", "table"]
  /-- The head of a declaration, in which a word may be repeated. -/
  | create (n : Nat) : IsTableHead ("create" :: (List.replicate n "unlogged" ++ ["table"]))

/-- **Tokens without the head of a table statement.** The word `table` may stand in them, but
neither right behind `alter` nor behind `create` with nothing but `unlogged` between. -/
def NamesNoTable (tokens : List String) : Prop :=
  ∀ head, IsTableHead head → ¬head <:+: tokens

variable {options : Options} {state next last : State} {draft draft' : Draft} {token : String}
  {tokens tokens' others : List String}

/-- No head begins with the first token, and none stands behind it. -/
theorem namesNoTable_cons :
    NamesNoTable (token :: tokens) ↔
      (∀ head, IsTableHead head → ¬head <+: token :: tokens) ∧ NamesNoTable tokens := by
  simp only [NamesNoTable, List.infix_cons_iff, not_or]
  exact ⟨fun h => ⟨fun head hh => (h head hh).1, fun head hh => (h head hh).2⟩,
    fun h head hh => ⟨h.1 head hh, h.2 head hh⟩⟩

theorem NamesNoTable.of_infix (h : NamesNoTable tokens) (hin : tokens' <:+: tokens) :
    NamesNoTable tokens' :=
  fun head hh ht => h head hh (ht.trans hin)

/-- No head is longer than the tokens it stands in. -/
theorem namesNoTable_iff :
    NamesNoTable tokens ↔ ¬["alter", "table"] <:+: tokens ∧ ∀ n < tokens.length,
      ¬("create" :: (List.replicate n "unlogged" ++ ["table"])) <:+: tokens := by
  constructor
  · exact fun h => ⟨h _ .alter, fun n _ => h _ (.create n)⟩
  · rintro ⟨halter, hcreate⟩ head hh hin
    cases hh with
    | alter => exact halter hin
    | create n =>
      have hlen := hin.length_le
      rw [List.length_cons, List.length_append, List.length_replicate] at hlen
      exact hcreate n (by omega) hin

instance (tokens : List String) : Decidable (NamesNoTable tokens) :=
  decidable_of_iff _ namesNoTable_iff.symm

/-! ### States outside table statements -/

/-- **The states in which tokens are skipped.** -/
inductive State.Skips : State → Prop where
  /-- Nothing of a head has been read. -/
  | idle : Skips .idle
  /-- The word `create`, and perhaps `unlogged`. -/
  | create : Skips .create
  /-- The word `alter`. -/
  | alter : Skips .alter

/-- **The words of a head** that a state has read. How often one was repeated does not
matter. -/
def State.headWords : State → List String
  | .create => ["create"]
  | .alter => ["alter"]
  | _ => []

/-- A head that goes on behind `unlogged` is one without that word, too. -/
theorem namesNoTable_create_of_unlogged (h : NamesNoTable ("create" :: "unlogged" :: tokens)) :
    NamesNoTable ("create" :: tokens) := by
  obtain ⟨hfirst, hrest⟩ := namesNoTable_cons.mp h
  refine namesNoTable_cons.mpr ⟨fun head hh hpre => ?_, (namesNoTable_cons.mp hrest).2⟩
  cases hh with
  | alter => exact absurd (List.cons_prefix_cons.mp hpre).1 (by decide)
  | create n =>
    refine hfirst _ (.create (n + 1)) (List.cons_prefix_cons.mpr ⟨rfl, ?_⟩)
    rw [List.replicate_succ, List.cons_append]
    exact List.cons_prefix_cons.mpr ⟨rfl, (List.cons_prefix_cons.mp hpre).2⟩

/-- **One token is skipped**: it leaves the draft as it is, and no head stands in what the
state has read of one and the tokens to come. -/
theorem step_of_namesNoTable (hs : state.Skips)
    (h : NamesNoTable (state.headWords ++ token :: tokens)) :
    ∃ next : State, next.Skips ∧ NamesNoTable (next.headWords ++ tokens) ∧
      ∀ options draft, step options state draft token = goto next draft := by
  cases hs with
  | idle =>
    have hrest : NamesNoTable tokens := (namesNoTable_cons.mp h).2
    by_cases hcreate : token = "create"
    · subst hcreate
      exact ⟨.create, .create, h, fun _ _ => rfl⟩
    by_cases halter : token = "alter"
    · subst halter
      exact ⟨.alter, .alter, h, fun _ _ => rfl⟩
    · refine ⟨.idle, .idle, hrest, fun options draft => ?_⟩
      rw [step, readIdle, if_neg hcreate, if_neg halter]
  | create =>
    have hrest : NamesNoTable tokens := (namesNoTable_cons.mp (namesNoTable_cons.mp h).2).2
    have htable : token ≠ "table" := by
      rintro rfl
      exact h _ (.create 0) (List.prefix_append ["create", "table"] tokens).isInfix
    by_cases hunlogged : token = "unlogged"
    · subst hunlogged
      exact ⟨.create, .create, namesNoTable_create_of_unlogged h, fun _ _ => rfl⟩
    · refine ⟨.idle, .idle, hrest, fun options draft => ?_⟩
      rw [step, readCreate, if_neg htable, if_neg hunlogged]
  | alter =>
    have hrest : NamesNoTable tokens := (namesNoTable_cons.mp (namesNoTable_cons.mp h).2).2
    have htable : token ≠ "table" := by
      rintro rfl
      exact h _ .alter (List.prefix_append ["alter", "table"] tokens).isInfix
    refine ⟨.idle, .idle, hrest, fun options draft => ?_⟩
    rw [step, readAlter, if_neg htable]

/-- A semicolon ends every head. -/
theorem step_semicolon (options : Options) (hs : state.Skips) (draft : Draft) :
    step options state draft ";" = goto .idle draft := by
  cases hs <;> rfl

/-! ### Runs -/

/-- A token that does no more than to change the state. -/
theorem run_cons_of_goto (h : step options state draft token = goto next draft')
    (tokens : List String) :
    run options state draft (token :: tokens) = run options next draft' tokens := by
  rw [run, h]
  rfl

/-- **Tokens without the head of a table statement are skipped**, from any state outside such
statements. -/
theorem run_of_namesNoTable (hs : state.Skips) (h : NamesNoTable (state.headWords ++ tokens)) :
    ∃ next : State, next.Skips ∧ ∀ options draft others,
      run options state draft (tokens ++ others) = run options next draft others := by
  induction tokens generalizing state with
  | nil => exact ⟨state, hs, fun _ _ _ => rfl⟩
  | cons token tokens ih =>
    obtain ⟨s, hskips, hnames, hstep⟩ := step_of_namesNoTable hs h
    obtain ⟨next, hnext, hrun⟩ := ih hskips hnames
    refine ⟨next, hnext, fun options draft others => ?_⟩
    rw [List.cons_append, run_cons_of_goto (hstep options draft), hrun]

/-- What comes behind a reading is read as it is from there. -/
theorem Leads.run_append_congr (h : Leads options state draft tokens next draft')
    (heq : run options next draft' tokens' = run options next draft' others) :
    run options state draft (tokens ++ tokens') = run options state draft (tokens ++ others) := by
  induction tokens generalizing state draft with
  | nil =>
    obtain ⟨rfl, rfl⟩ := leads_nil.mp h
    exact heq
  | cons token tokens ih =>
    obtain ⟨s, hs, h⟩ := leads_cons.mp h
    simp only [List.cons_append, run, hs, ih h]

/-- **Statements that are skipped may stand anywhere between others.** Tokens without the head
of a table statement that end in a semicolon are read from the idle state without a
rejection, without an event and without an effect on the draft, and so is each beginning of
them; and behind tokens that lead back to the idle state they change nothing in the outcome,
the draft and the events of the whole run, whatever follows. -/
theorem run_skip {skipped : List String} (hnames : NamesNoTable skipped)
    (hend : skipped.getLast? = some ";") (h : Leads options .idle {} tokens .idle draft)
    (others : List String) :
    (∀ other, run options .idle other skipped = goto .idle other ∧
        ∀ first, first <+: skipped → ∃ s, run options .idle other first = goto s other) ∧
      run options .idle {} (tokens ++ (skipped ++ others)) =
        run options .idle {} (tokens ++ others) := by
  have hall : ∀ other others : _, run options .idle other (skipped ++ others) =
      run options .idle other others := by
    intro other others
    obtain ⟨front, rfl⟩ := List.getLast?_eq_some_iff.mp hend
    obtain ⟨next, hnext, hrun⟩ :=
      run_of_namesNoTable .idle (hnames.of_infix (List.prefix_append front [";"]).isInfix)
    rw [List.append_assoc, hrun]
    exact run_cons_of_goto (step_semicolon options hnext other) others
  refine ⟨fun other => ⟨?_, fun first hfirst => ?_⟩, h.run_append_congr (hall draft others)⟩
  · rw [← List.append_nil skipped, hall]
    rfl
  · obtain ⟨next, -, hrun⟩ := run_of_namesNoTable .idle (hnames.of_infix hfirst.isInfix)
    refine ⟨next, ?_⟩
    rw [← List.append_nil first, hrun]
    rfl

/-- A comment on a table and a sequence between a table and its key. -/
theorem run_skip_comment :
    let table := ["create", "table", "t", "(", "id", "uuid", ")", ";"]
    let skipped := ["comment", "on", "table", "t", "is", "''", ";", "create", "unlogged",
      "sequence", "s", ";", "alter", ";"]
    let key := ["alter", "table", "t", "add", "constraint", "t_pkey", "primary", "key", "(id)",
      ";"]
    NamesNoTable skipped ∧ skipped.getLast? = some ";" ∧
      (∃ draft, Leads {} .idle {} table .idle draft) ∧
      run {} .idle {} (table ++ (skipped ++ key)) = run {} .idle {} (table ++ key) := by
  intro table skipped key
  have hnames : NamesNoTable skipped := by decide
  have htable : Leads {} .idle {} table .idle _ := ⟨rfl, rfl⟩
  exact ⟨hnames, rfl, ⟨_, htable⟩, (run_skip hnames rfl htable key).2⟩

end SqlCatalog
