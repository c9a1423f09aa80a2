import SqlCatalog.Proofs.Run

/-!
# Default expressions

A default expression is not read but skipped: the reader counts the brackets
that are open and goes on until a comma, a bracket that closes none or the word
`not` stands outside brackets. Table constraints are skipped in the same way,
except that the word does not end them, and `SqlCatalog.IsSkipping` is what the
two have in common.

`SqlCatalog.expressionDepth?` says which tokens may stand in an expression and
how many brackets are open behind them. Such tokens, the word `not` apart, lead
from a default state to a default state and leave the draft alone
(`SqlCatalog.leads_expression`), whatever words there are among them. This holds
for the words that begin an option of a column too: behind a default expression
they are part of it.
-/

namespace SqlCatalog

/-! ### States that skip -/

/-- **A family of states that skips** up to some words: at every token but a semicolon it counts
the brackets, and at those words and closing brackets it does so if a bracket is open. -/
structure IsSkipping (options : Options) (skip : Nat → State) (ends : List String) : Prop where
  /-- One token is skipped. -/
  step_eq : ∀ depth draft token, token ≠ ";" → (token ∈ ")" :: ends → 0 < depth) →
    step options (skip depth) draft token =
      Step.goto (skip (if token = "(" then depth + 1 else if token = ")" then depth - 1 else depth))
        draft

/-- Default expressions are skipped up to a comma or the word `not`. -/
theorem isSkipping_columnDefault (options : Options) :
    IsSkipping options .columnDefault [",", "not"] where
  step_eq depth draft token hsemicolon hends := by
    have hinside : ∀ word ∈ [")", ",", "not"], ¬(token = word ∧ depth = 0) := by
      rintro word hword ⟨rfl, rfl⟩
      exact absurd (hends hword) (Nat.lt_irrefl 0)
    rw [step, readDefaultToken, if_neg (hinside "," (by simp)), if_neg (hinside ")" (by simp)),
      if_neg (hinside "not" (by simp)), if_neg hsemicolon]
    split
    · rfl
    · split <;> rfl

/-- Table constraints are skipped up to a comma. -/
theorem isSkipping_tableConstraint (options : Options) :
    IsSkipping options .tableConstraint [","] where
  step_eq depth draft token hsemicolon hends := by
    have hinside : ∀ word ∈ [")", ","], ¬(token = word ∧ depth = 0) := by
      rintro word hword ⟨rfl, rfl⟩
      exact absurd (hends hword) (Nat.lt_irrefl 0)
    rw [step, readTableConstraint, if_neg (hinside "," (by simp)), if_neg (hinside ")" (by simp)),
      if_neg hsemicolon]
    split
    · rfl
    · split <;> rfl

/-! ### Expressions -/

/-- **The number of brackets open behind a part of an expression**, in front of
which `depth` are open. There is none when the tokens hold a semicolon, a comma
outside brackets, or a bracket that closes none. -/
def expressionDepth? : (depth : Nat) → (tokens : List String) → Option Nat
  | depth, [] => some depth
  | depth, token :: tokens =>
    if token = ";" ∨ (token = "," ∨ token = ")") ∧ depth = 0 then none
    else if token = "(" then expressionDepth? (depth + 1) tokens
    else if token = ")" then expressionDepth? (depth - 1) tokens
    else expressionDepth? depth tokens

/-- **An expression**: tokens with balanced brackets, at least one. -/
def IsExpression (tokens : List String) : Prop :=
  tokens ≠ [] ∧ expressionDepth? 0 tokens = some 0

instance (tokens : List String) : Decidable (IsExpression tokens) :=
  inferInstanceAs (Decidable (_ ∧ _))

/-- One part of an expression behind another. -/
theorem expressionDepth?_append {depth : Nat} {tokens tokens' : List String} :
    expressionDepth? depth (tokens ++ tokens') =
      (expressionDepth? depth tokens).bind (expressionDepth? · tokens') := by
  induction tokens generalizing depth with
  | nil => rfl
  | cons token tokens ih =>
    simp only [List.cons_append, expressionDepth?]
    split
    · rfl
    · split
      · exact ih
      · split <;> exact ih

variable {options : Options} {depth depth' : Nat} {draft : Draft} {tokens : List String}

/-- **A part of an expression is skipped.** -/
theorem leads_expression (h : expressionDepth? depth tokens = some depth')
    (hnot : "not" ∉ tokens) :
    Leads options (.columnDefault depth) draft tokens (.columnDefault depth') draft := by
  induction tokens generalizing depth with
  | nil =>
    obtain rfl := Option.some.inj h
    exact .refl
  | cons token tokens ih =>
    obtain ⟨hne, hnot⟩ := not_or.mp fun h' => hnot (List.mem_cons.mpr h')
    rw [expressionDepth?] at h
    split at h
    · cases h
    · next hend =>
      obtain ⟨hsemicolon, hend⟩ := not_or.mp hend
      -- outside brackets none of the tokens stands that end the expression
      have hinside : token ∈ [")", ",", "not"] → 0 < depth := by
        intro hmem
        refine Nat.pos_of_ne_zero fun hdepth => ?_
        simp only [List.mem_cons, List.not_mem_nil, or_false] at hmem
        rcases hmem with hclose | hcomma | hword
        · exact hend ⟨Or.inr hclose, hdepth⟩
        · exact hend ⟨Or.inl hcomma, hdepth⟩
        · exact hne hword.symm
      have hstep := (isSkipping_columnDefault options).step_eq depth draft token hsemicolon hinside
      split at h
      · next hopen => exact .cons (by rw [hstep, if_pos hopen]; rfl) (ih h hnot)
      · next hopen =>
        split at h
        · next hshut =>
          exact .cons (by rw [hstep, if_neg hopen, if_pos hshut]; rfl) (ih h hnot)
        · next hshut =>
          exact .cons (by rw [hstep, if_neg hopen, if_neg hshut]; rfl) (ih h hnot)

end SqlCatalog
