import SqlCatalog.Proofs.Noise.Form
import SqlCatalog.Proofs.Text.Brackets

/-!
# The pass over constraint clauses

A constraint clause in a dump runs as far as the block or statement around it
allows: up to the next comma, semicolon or closing bracket outside its own
brackets (`SqlCatalog.Noise.IsClauseEnd`). The pass over a dump keeps the clause or
drops it, by its name, and goes on at the character behind it
(`SqlCatalog.Noise.ClauseForm.stripFrom_append`).

Most clauses hold no quote, and then it is enough to count brackets: a clause has
its form when they pair up and are not nested too deeply
(`SqlCatalog.Noise.IsTail.isClauseTail`).
-/

namespace SqlCatalog

open Text

namespace Noise

section Texts

variable {text : List Char} {c : Char} {depth level d : Nat}

/-! ### The pass -/

/-- **The pass keeps or drops a clause**, by its name, and goes on behind the
character that ends it. -/
theorem ClauseForm.stripFrom_append (form : ClauseForm) (hc : IsClauseEnd c) (rest : List Char) :
    stripFrom .clear ((form.text ++ c :: rest).map .char) =
      ((if form.isKey then form.text else []) ++ [c]).map .char ++
        stripFrom .clear (rest.map .char) := by
  have hnoise : noise? Sight.clear.atBoundary ((form.text ++ c :: rest).map .char) = _ :=
    form.noise?_append fun d hd => Option.some.inj hd ▸ hc
  have hend : ∀ sight : Sight, stripFrom sight ((c :: rest).map .char) =
      .char c :: stripFrom .clear (rest.map .char) := by
    intro sight
    have hseal : IsSeal c ∧ ∀ atBoundary, calm atBoundary [c] = true := by
      simp only [IsClauseEnd, List.mem_cons, List.not_mem_nil, or_false] at hc
      rcases hc with rfl | rfl | rfl <;> decide
    exact Noise.stripFrom_append (a := []) hseal.1 (hseal.2 _) rest
  rw [stripFrom_noise hnoise]
  dsimp only
  rw [hend, Kind.remains, isKey]
  split <;> simp

/-! ### Nesting -/

/-- **How deep the brackets of a text are nested**, when `depth` are open in front
of it. -/
def nesting : (depth : Nat) → List Char → Nat
  | depth, [] => depth
  | depth, c :: text =>
    if c = '(' then nesting (depth + 1) text
    else if c = ')' then max depth (nesting (depth - 1) text)
    else nesting depth text

theorem le_nesting : depth ≤ nesting depth text := by
  induction text generalizing depth with
  | nil => exact Nat.le_refl _
  | cons c text ih =>
    rw [nesting]
    split
    · exact Nat.le_trans (Nat.le_succ _) ih
    · split
      · exact Nat.le_max_left _ _
      · exact ih

/-- **The inside of a bracket group in a text** whose brackets pair up: it ends at
a bracket, and what follows pairs up too. -/
theorem exists_isInner (hquote : quote ∉ text) (h : depth? (level + 1) text = some 0)
    (hdeep : nesting (level + 1) text ≤ level + 1 + d) :
    ∃ inner rest, text = inner ++ ')' :: rest ∧ IsInner d inner ∧ depth? level rest = some 0 ∧
      nesting level rest ≤ level + 1 + d := by
  -- a group inside is taken off as a whole
  generalize hn : text.length = n
  induction n using Nat.strongRecOn generalizing text level d with
  | ind n ih =>
  cases text with
  | nil => cases h
  | cons c text =>
    obtain ⟨hc, htext⟩ := not_or.mp fun hq => hquote (List.mem_cons.mpr hq)
    have hshorter : text.length < n := by
      rw [← hn]
      exact Nat.lt_succ_self _
    rw [nesting] at hdeep
    rcases (depth?_cons h).2 with ⟨rfl, h⟩ | ⟨rfl, -, h⟩ | ⟨hopen, hclose, -, h⟩
    · rw [if_pos rfl] at hdeep
      obtain ⟨d, rfl⟩ : ∃ e, d = e + 1 := Nat.exists_eq_add_one.mpr <| by
        have := Nat.le_trans le_nesting hdeep
        omega
      have hdeep' : nesting (level + 1 + 1) text ≤ level + 1 + 1 + d := by omega
      obtain ⟨inner, rest, rfl, hinner, h, hdeep⟩ := ih _ hshorter htext h hdeep' rfl
      have hrest : rest.length < n := by
        rw [List.length_append, List.length_cons] at hshorter
        omega
      have hquote' : quote ∉ rest :=
        fun hq => htext (List.mem_append_right _ (List.mem_cons_of_mem _ hq))
      have hdeep'' : nesting (level + 1) rest ≤ level + 1 + (d + 1) := by omega
      obtain ⟨inner', rest, rfl, hinner', h, hdeep⟩ := ih _ hrest hquote' h hdeep'' rfl
      exact ⟨'(' :: (inner ++ ')' :: inner'), rest, by simp, .group hinner hinner', h, hdeep⟩
    · rw [if_neg (by decide), if_pos rfl] at hdeep
      exact ⟨[], text, rfl, .nil, h, Nat.le_trans (Nat.le_max_right _ _) hdeep⟩
    · rw [if_neg hopen, if_neg hclose] at hdeep
      obtain ⟨inner, rest, rfl, hinner, h, hdeep⟩ := ih _ hshorter htext h hdeep rfl
      have hplain : c ∉ ['(', ')', quote] := by
        simp [hopen, hclose, Ne.symm hc]
      exact ⟨c :: inner, rest, rfl, .plain hplain hinner, h, hdeep⟩

/-! ### Tails -/

/-- **The text of a clause behind its name**: no quote stands in it, it is paired,
and its brackets are not nested more deeply than a group may be. -/
structure IsTail (text : List Char) : Prop where
  /-- There is no quote. -/
  quote : quote ∉ text
  /-- The brackets pair up, and no comma stands outside them. -/
  paired : IsPaired text
  /-- The brackets are nested as deeply as in a group that is removed. -/
  nesting : nesting 0 text ≤ maxNesting

/-- **Such a text can be read as the tail of a clause.** -/
theorem IsTail.isClauseTail (h : IsTail text) : IsClauseTail text := by
  generalize hn : text.length = n
  induction n using Nat.strongRecOn generalizing text with
  | ind n ih =>
  cases text with
  | nil => exact .nil
  | cons c text =>
    obtain ⟨hc, hquote⟩ := not_or.mp fun hq => h.quote (List.mem_cons.mpr hq)
    have hshorter : text.length < n := by
      rw [← hn]
      exact Nat.lt_succ_self _
    have hnest := h.nesting
    rw [Noise.nesting] at hnest
    obtain ⟨hsemi, hcases⟩ := depth?_cons h.paired
    rcases hcases with ⟨rfl, hpaired⟩ | ⟨-, hpos, -⟩ | ⟨hopen, hclose, hcomma, hpaired⟩
    · rw [if_pos rfl] at hnest
      obtain ⟨inner, rest, rfl, hinner, hpaired, hnest⟩ :=
        exists_isInner (d := 3) hquote hpaired hnest
      have hrest : IsTail rest :=
        ⟨fun hq => hquote (List.mem_append_right _ (List.mem_cons_of_mem _ hq)), hpaired, hnest⟩
      refine .group (by decide) hinner (ih _ ?_ hrest rfl)
      rw [List.length_append, List.length_cons] at hshorter
      omega
    · cases hpos
    · have hplain : endsTail c = false := by
        have hcomma' : c ≠ ',' := fun he => Nat.lt_irrefl 0 (hcomma he)
        simp [endsTail, hopen, hclose, hcomma', hsemi, Ne.symm hc]
      rw [if_neg hopen, if_neg hclose] at hnest
      exact .plain hplain (ih _ hshorter ⟨hquote, hpaired, hnest⟩ rfl)

/-! ### Calm texts around clauses -/

/-- Blanks are calm. -/
theorem isCalm_gaps (h : ∀ c ∈ text, Token.isGap c) : IsCalm text := by
  induction text with
  | nil => exact isCalm_nil
  | cons c text ih =>
    obtain ⟨hc, h⟩ := List.forall_mem_cons.mp h
    have hgap : IsCalm [c] := by
      simp only [Token.isGap, Bool.or_eq_true, beq_iff_eq] at hc
      rcases hc with (((rfl | rfl) | rfl) | rfl) | rfl <;> decide
    exact hgap.append (ih h)

/-- A character that ends a clause stands in no opening. -/
theorem isCalm_append_end (h : calm true text = true) (hc : IsClauseEnd c) :
    IsCalm (text ++ [c]) := by
  have hseal : IsSeal c ∧ fold c = c ∧ isBlank c = false ∧
      ∀ opening ∈ openings ++ (wordOpenings ++ [clauseKeyword]), c ∉ opening := by
    simp only [IsClauseEnd, List.mem_cons, List.not_mem_nil, or_false] at hc
    rcases hc with rfl | rfl | rfl <;> decide
  obtain ⟨hseal, hfold, hblank, hno⟩ := hseal
  refine isCalm_concat hseal (calm_concat hfold ?_ h)
  rintro atBoundary opening (ho | ⟨-, ho | ⟨blank, hb, rfl⟩⟩) hmem
  · exact hno opening (List.mem_append_left _ ho) hmem
  · exact hno opening (List.mem_append_right _ (List.mem_append_left _ ho)) hmem
  · rcases List.mem_append.mp hmem with hmem | hmem
    · exact hno clauseKeyword (by simp) hmem
    · rw [← List.mem_singleton.mp hmem, hblank] at hb
      cases hb

end Texts

/-! ### Clauses without quotes -/

/-- **A constraint clause as it is written**, from its keyword on, in any letter
case. -/
structure ClauseText where
  /-- The keyword. -/
  keyword : List Char
  /-- The white space behind the keyword. -/
  gap : List Char
  /-- The name of the constraint. -/
  name : ClauseName
  /-- The white space behind the name. -/
  blank : Char
  /-- What the clause says of the constraint. -/
  body : List Char
  /-- It is the keyword, in any letter case. -/
  fold_keyword : keyword.map fold = clauseKeyword
  /-- There is white space behind the keyword. -/
  gap_ne_nil : gap ≠ []
  /-- It is white space. -/
  isBlank_of_mem : ∀ c ∈ gap, isBlank c
  /-- There is white space behind the name. -/
  isBlank_blank : isBlank blank
  /-- What stands behind the name can be read as the tail of a clause. -/
  isTail : IsTail (blank :: body)

/-- The text of a clause. -/
def ClauseText.text (clause : ClauseText) : List Char :=
  clause.keyword ++ (clause.gap ++ (clause.name.text ++ clause.blank :: clause.body))

/-- **Whether a clause declares a primary key**, by its name. -/
def ClauseText.isKey (clause : ClauseText) : Bool :=
  isKeyName (clause.name.text.map .char)

namespace ClauseText

variable (clause : ClauseText) {c : Char}

/-- A clause without quotes has the form of a clause. -/
def form : ClauseForm where
  keyword := clause.keyword
  gap := clause.gap
  name := clause.name
  tail := clause.blank :: clause.body
  fold_keyword := clause.fold_keyword
  gap_ne_nil := clause.gap_ne_nil
  isBlank_of_mem := clause.isBlank_of_mem
  endsName := fun _ hc => Option.some.inj hc ▸ endsName_of_isBlank clause.isBlank_blank
  isClauseTail := clause.isTail.isClauseTail

/-- **The pass keeps or drops a clause**, by its name, and goes on behind the
character that ends it. -/
theorem stripFrom_append (hc : IsClauseEnd c) (rest : List Char) :
    stripFrom .clear ((clause.text ++ c :: rest).map .char) =
      ((if clause.isKey then clause.text else []) ++ [c]).map .char ++
        stripFrom .clear (rest.map .char) :=
  clause.form.stripFrom_append hc rest

end ClauseText

end Noise

end SqlCatalog
