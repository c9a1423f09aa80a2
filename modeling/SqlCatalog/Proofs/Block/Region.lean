import Mathlib.Data.List.Induction
import SqlCatalog.Proofs.Column.Expression
import SqlCatalog.Proofs.Skipped

/-!
# Regions that are skipped

Default expressions and table constraints are not read but skipped. Two families of states do so,
each with the number of brackets that are open, and they differ in the tokens at which they stop
outside brackets:

| state | stops outside brackets at |
|---|---|
| `SqlCatalog.State.columnDefault` | a comma, the word `not`, a bracket that closes none |
| `SqlCatalog.State.tableConstraint` | a comma, a bracket that closes none |

What they have in common is `SqlCatalog.IsSkipping`. A *region* is what can be skipped as a whole
(`SqlCatalog.IsRegion`): its brackets are balanced and nothing at which the state stops stands
outside them. It leads back to the state in front of it, and behind each part of it the state
counts the brackets that part leaves open (`SqlCatalog.IsSkipping.run_eq_goto`). Hence a table
constraint that is skipped is an entry of the block that might as well not be there
(`SqlCatalog.run_skips_regions`).
-/

namespace SqlCatalog

open Identifier Step

/-! ### Regions -/

/-- **The number of brackets that tokens leave open.** -/
def openBrackets (tokens : List String) : Nat :=
  tokens.count "(" - tokens.count ")"

/-- **The beginning of a region** that ends at some words: there is no semicolon in it, no bracket
closes none, and outside brackets none of the words stands. -/
structure BeginsRegion (ends tokens : List String) : Prop where
  /-- There is no semicolon. -/
  semicolon : ";" ∉ tokens
  /-- No bracket closes none. -/
  closes : ∀ front, front <+: tokens → front.count ")" ≤ front.count "("
  /-- In front of a word at which the region ends a bracket is open. -/
  inside : ∀ front word, front ++ [word] <+: tokens → word ∈ ends →
    front.count ")" < front.count "("

/-- **A region** that ends at some words: all brackets are closed in it. -/
structure IsRegion (ends tokens : List String) : Prop extends BeginsRegion ends tokens where
  /-- As many brackets are closed as are opened. -/
  total : tokens.count ")" = tokens.count "("

variable {options : Options} {skip : Nat → State} {ends front tokens clause : List String}
  {draft : Draft} {depth : Nat} {token : String}

theorem beginsRegion_iff :
    BeginsRegion ends tokens ↔ ";" ∉ tokens ∧
      (∀ front ∈ tokens.inits, front.count ")" ≤ front.count "(") ∧
      ∀ front ∈ tokens.inits, ∀ word ∈ ends, front ++ [word] <+: tokens →
        front.count ")" < front.count "(" := by
  constructor
  · exact fun h => ⟨h.semicolon, fun front hf => h.closes front ((List.mem_inits _ _).mp hf),
      fun front _ word hword hf => h.inside front word hf hword⟩
  · exact fun ⟨hsemicolon, hcloses, hinside⟩ =>
      ⟨hsemicolon, fun front hf => hcloses front ((List.mem_inits _ _).mpr hf),
        fun front word hf hword => hinside front
          ((List.mem_inits _ _).mpr ((List.prefix_append _ _).trans hf)) word hword hf⟩

instance (ends tokens : List String) : Decidable (BeginsRegion ends tokens) :=
  decidable_of_iff _ beginsRegion_iff.symm

instance (ends tokens : List String) : Decidable (IsRegion ends tokens) :=
  decidable_of_iff (BeginsRegion ends tokens ∧ tokens.count ")" = tokens.count "(")
    ⟨fun h => ⟨h.1, h.2⟩, fun h => ⟨h.toBeginsRegion, h.total⟩⟩

/-- What begins a beginning of a region begins a region. -/
theorem BeginsRegion.of_prefix (h : BeginsRegion ends tokens) (hf : front <+: tokens) :
    BeginsRegion ends front where
  semicolon hmem := h.semicolon (hf.subset hmem)
  closes other ho := h.closes other (ho.trans hf)
  inside other word ho := h.inside other word (ho.trans hf)

/-- **One token more in a region** opens a bracket, closes one or is skipped. -/
theorem BeginsRegion.openBrackets_concat (h : BeginsRegion ends (front ++ [token])) :
    openBrackets (front ++ [token]) =
      if token = "(" then openBrackets front + 1
      else if token = ")" then openBrackets front - 1
      else openBrackets front := by
  have hcloses := h.closes front (List.prefix_append _ _)
  rw [openBrackets, openBrackets, List.count_append, List.count_append, List.count_singleton,
    List.count_singleton]
  by_cases hopen : token = "("
  · subst hopen
    rw [if_pos rfl, if_pos (by decide), if_neg (by decide)]
    omega
  by_cases hclose : token = ")"
  · subst hclose
    rw [if_neg (by decide), if_pos (by decide), if_neg (by decide), if_pos rfl]
    omega
  · rw [if_neg hopen, if_neg hclose, if_neg (by simpa using hopen), if_neg (by simpa using hclose)]
    rfl

/-- **A bracket is open in front of a closing one** and of a word at which the region ends. -/
theorem BeginsRegion.openBrackets_pos (h : BeginsRegion ends (front ++ [token]))
    (hends : token ∈ ")" :: ends) : 0 < openBrackets front := by
  rcases List.mem_cons.mp hends with rfl | hends
  · have hcloses := h.closes _ List.prefix_rfl
    rw [List.count_append, List.count_append, List.count_singleton_self,
      List.count_singleton, if_neg (by decide)] at hcloses
    exact Nat.sub_pos_of_lt hcloses
  · exact Nat.sub_pos_of_lt (h.inside front token List.prefix_rfl hends)

theorem IsRegion.openBrackets_eq (h : IsRegion ends tokens) : openBrackets tokens = 0 := by
  rw [openBrackets, h.total, Nat.sub_self]

/-! ### Skipping them -/

/-- **A run goes on behind its first part**, if that rejects no token. -/
theorem run_append_of_ok {state next : State}
    (h : (run options state draft front).outcome = .ok next) (tokens : List String) :
    run options state draft (front ++ tokens) =
      let first := run options state draft front
      let others := run options next first.draft tokens
      { others with events := first.events ++ others.events } := by
  induction front generalizing state draft with
  | nil =>
    obtain rfl := Except.ok.inj h
    rfl
  | cons token front ih =>
    cases hfirst : (step options state draft token).outcome with
    | error e =>
      rw [run_cons_of_error hfirst, hfirst] at h
      cases h
    | ok s =>
      rw [(run_cons_of_ok front hfirst).1] at h
      simp only [List.cons_append, run, hfirst, ih h, List.append_assoc]

/-- What comes behind tokens that do no more than to change the state. -/
theorem run_append_of_goto {state next : State} {draft' : Draft}
    (h : run options state draft front = goto next draft') (tokens : List String) :
    run options state draft (front ++ tokens) = run options next draft' tokens := by
  rw [run_append_of_ok (by rw [h]; rfl), h]
  rfl

/-- **A region is skipped**: behind each beginning of it the state counts the brackets that are
open, and nothing else has changed. -/
theorem IsSkipping.run_eq_goto (hskip : IsSkipping options skip ends)
    (h : BeginsRegion ends tokens) (depth : Nat) (draft : Draft) :
    run options (skip depth) draft tokens = goto (skip (depth + openBrackets tokens)) draft := by
  -- tokens come off the end, since a region is told by its beginnings
  induction tokens using List.reverseRecOn with
  | nil => rfl
  | append_singleton front token ih =>
    have hsemicolon : token ≠ ";" := by
      rintro rfl
      exact h.semicolon (by simp)
    have hends : token ∈ ")" :: ends → 0 < depth + openBrackets front := fun hmem =>
      Nat.add_pos_right depth (h.openBrackets_pos hmem)
    rw [run_append_of_goto (ih (h.of_prefix (List.prefix_append _ _))),
      run_cons_of_goto (hskip.step_eq _ draft token hsemicolon hends), h.openBrackets_concat]
    by_cases hopen : token = "("
    · rw [if_pos hopen, if_pos hopen]
      rfl
    rw [if_neg hopen, if_neg hopen]
    by_cases hclose : token = ")"
    · have hpos := h.openBrackets_pos (List.mem_cons.mpr (Or.inl hclose))
      rw [if_pos hclose, if_pos hclose, Nat.add_sub_assoc hpos]
      rfl
    · rw [if_neg hclose, if_neg hclose]
      rfl

/-! ### Regions as a whole -/

/-- **Tokens that are skipped** as a whole, by states that have some tokens to be left by. -/
structure IsSkipped (options : Options) (skip : Nat → State) (exits : List (String × State))
    (tokens : List String) : Prop where
  /-- They lead back to the state in front of them. -/
  run_eq : ∀ depth draft, run options (skip depth) draft tokens = goto (skip depth) draft
  /-- Behind each part of them the state counts the brackets that are open. -/
  run_front : ∀ depth draft front, front <+: tokens →
    run options (skip depth) draft front = goto (skip (depth + openBrackets front)) draft
  /-- Outside brackets each token by which the state is left ends them. -/
  run_exit : ∀ exit ∈ exits, ∀ draft rest,
    run options (skip 0) draft (tokens ++ exit.1 :: rest) = run options exit.2 draft rest

/-- **Regions are skipped as a whole.** -/
theorem IsSkipping.isSkipped {exits : List (String × State)}
    (hskip : IsSkipping options skip ends)
    (hexits : ∀ exit ∈ exits, ∀ draft, step options (skip 0) draft exit.1 = goto exit.2 draft)
    (h : IsRegion ends tokens) : IsSkipped options skip exits tokens := by
  have hrun : ∀ depth draft, run options (skip depth) draft tokens = goto (skip depth) draft :=
    fun depth draft => by rw [hskip.run_eq_goto h.toBeginsRegion, h.openBrackets_eq, Nat.add_zero]
  refine ⟨hrun, fun depth draft front hfront => ?_, fun exit hexit draft rest => ?_⟩
  · exact hskip.run_eq_goto (h.toBeginsRegion.of_prefix hfront) depth draft
  · rw [run_append_of_goto (hrun 0 draft), run_cons_of_goto (hexits exit hexit draft)]

/-- Default expressions end at a comma, a bracket or the word `not`. -/
theorem isSkipped_columnDefault (options : Options) (h : IsRegion [",", "not"] tokens) :
    IsSkipped options .columnDefault
      [(",", .blockEntry), (")", .blockEnd), ("not", .columnNot)] tokens := by
  refine (isSkipping_columnDefault options).isSkipped (fun exit hexit draft => ?_) h
  simp only [List.mem_cons, List.not_mem_nil, or_false] at hexit
  rcases hexit with rfl | rfl | rfl <;> rfl

/-- Table constraints end at a comma or a bracket. -/
theorem isSkipped_tableConstraint (options : Options) (h : IsRegion [","] tokens) :
    IsSkipped options .tableConstraint [(",", .blockEntry), (")", .blockEnd)] tokens := by
  refine (isSkipping_tableConstraint options).isSkipped (fun exit hexit draft => ?_) h
  simp only [List.mem_cons, List.not_mem_nil, or_false] at hexit
  rcases hexit with rfl | rfl <;> rfl

/-! ### Table constraints -/

/-- **A table constraint that is skipped**: the way into it and a region. -/
inductive IsSkippedClause (options : Options) : List String → Prop where
  /-- A constraint that is told by its first word. -/
  | kind (word : String) (region : List String) (hword : word ∈ ["unique", "check", "foreign"])
    (hregion : IsRegion [","] region) : IsSkippedClause options (word :: region)
  /-- A constraint with a name that is not the name of a key. -/
  | named (name : String) (region : List String) (hname : isKeyName name = false)
    (hregion : IsRegion [","] region) : IsSkippedClause options ("constraint" :: name :: region)
  /-- An exclusion: no type stands behind the word, which would be the name of a column then. -/
  | exclude (first : String) (region : List String)
    (hfirst : ColumnType.ofToken? options first = none)
    (hregion : IsRegion [","] (first :: region)) :
    IsSkippedClause options ("exclude" :: first :: region)

/-- **A constraint that is skipped leads to where constraints are skipped.** -/
theorem IsSkippedClause.run_eq_goto (h : IsSkippedClause options clause) (draft : Draft) :
    run options .blockEntry draft clause = goto (.tableConstraint 0) draft := by
  cases h with
  | kind word region hword hregion =>
    have hentry : step options .blockEntry draft word = goto (.tableConstraint 0) draft := by
      simp only [List.mem_cons, List.not_mem_nil, or_false] at hword
      rcases hword with rfl | rfl | rfl <;> rfl
    rw [run_cons_of_goto hentry, (isSkipped_tableConstraint options hregion).run_eq]
  | named name region hname hregion =>
    have hentry : step options .blockEntry draft "constraint" = goto (.constraint .block) draft :=
      rfl
    have hconstraint : step options (.constraint .block) draft name =
        goto (.tableConstraint 0) draft := by
      rw [step, readConstraint, if_neg (by rw [hname]; decide)]
    rw [run_cons_of_goto hentry, run_cons_of_goto hconstraint,
      (isSkipped_tableConstraint options hregion).run_eq]
  | exclude first region hfirst hregion =>
    have hentry : step options .blockEntry draft "exclude" = goto .excludeEntry draft := rfl
    -- the token behind the word is read as the first of the region
    have hexclude : step options .excludeEntry draft first =
        step options (.tableConstraint 0) draft first := by
      rw [step, readExclude, hfirst, if_neg (by decide), step]
    have hregion' : run options .excludeEntry draft (first :: region) =
        run options (.tableConstraint 0) draft (first :: region) := by
      rw [run, hexclude, run]
    rw [run_cons_of_goto hentry, hregion', (isSkipped_tableConstraint options hregion).run_eq]

/-- **What is skipped ends at the first delimiter outside brackets.** Regions of a default
expression and of a table constraint are skipped, whatever brackets are open in front of them; and
a table constraint that is skipped is read as if it were not there, whether another entry or the end
of the block follows. -/
theorem run_skips_regions (options : Options) :
    (∀ tokens, IsRegion [",", "not"] tokens → IsSkipped options .columnDefault
      [(",", .blockEntry), (")", .blockEnd), ("not", .columnNot)] tokens) ∧
    (∀ tokens, IsRegion [","] tokens → IsSkipped options .tableConstraint
      [(",", .blockEntry), (")", .blockEnd)] tokens) ∧
    ∀ clause, IsSkippedClause options clause → ∀ draft rest,
      run options .blockEntry draft (clause ++ "," :: rest) = run options .blockEntry draft rest ∧
        run options .blockEntry draft (clause ++ ")" :: rest) =
          run options .blockEnd draft rest := by
  refine ⟨fun tokens h => isSkipped_columnDefault options h,
    fun tokens h => isSkipped_tableConstraint options h, fun clause h draft rest => ?_⟩
  have hbehind := run_append_of_goto (h.run_eq_goto draft)
  exact ⟨(hbehind _).trans (run_cons_of_goto rfl _), (hbehind _).trans (run_cons_of_goto rfl _)⟩

/-- The regions `now() at ( not null , ( 1 ) )` and `( a , b )`, and constraints around the second
one. -/
theorem run_skips_regions_in_block :
    let expression := ["now()", "at", "(", "not", "null", ",", "(", "1", ")", ")"]
    let columns := ["(", "a", ",", "b", ")"]
    let others := ["id", "integer", ")", ";"]
    run {} (.columnDefault 2) {} expression = goto (.columnDefault 2) {} ∧
      run {} (.columnDefault 2) {} (expression.take 8) = goto (.columnDefault 4) {} ∧
      run {} (.tableConstraint 0) {} columns = goto (.tableConstraint 0) {} ∧
      ∀ clause ∈ ["unique" :: columns, "constraint" :: "t_check" :: columns,
          "exclude" :: "using" :: "gist" :: columns],
        run {} .blockEntry {} (clause ++ "," :: others) = run {} .blockEntry {} others := by
  intro expression columns others
  obtain ⟨hexpression, hconstraint, hclauses⟩ := run_skips_regions {}
  refine ⟨(hexpression expression (by decide)).run_eq 2 {},
    (hexpression expression (by decide)).run_front 2 {} _ (List.take_prefix 8 _),
    (hconstraint columns (by decide)).run_eq 0 {}, fun clause hclause => ?_⟩
  simp only [List.mem_cons, List.not_mem_nil, or_false] at hclause
  rcases hclause with rfl | rfl | rfl
  · exact (hclauses _ (.kind "unique" _ (by decide) (by decide)) {} others).1
  · exact (hclauses _ (.named "t_check" _ (by decide) (by decide)) {} others).1
  · exact (hclauses _ (.exclude "using" _ rfl (by decide)) {} others).1

end SqlCatalog
