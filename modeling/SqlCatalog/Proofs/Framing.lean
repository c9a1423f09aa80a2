import SqlCatalog.Proofs.ColumnType
import SqlCatalog.Proofs.History
import SqlCatalog.Proofs.Reach

/-!
# Statements and their semicolons

Every state decides for itself what to do with a semicolon. In all but one of them it is
rejected or it ends the statement, so that the reader is idle and has no table open
(`SqlCatalog.Transition.of_semicolon`). The one is the state in which the name of a constraint
in a column block is due: any token is a name there, and a semicolon begins a constraint that
is skipped.

So tokens that are read are statements, each of which leads from the idle state back to it and
holds the semicolon at its end only, and some tokens behind the last of them
(`SqlCatalog.Framed`), if and only if no semicolon stands where such a name is due
(`SqlCatalog.framed_iff`). Where the word `constraint` is in front of no semicolon they are.
Where a semicolon is a name, the body of the table goes on behind it, and may take in all of
the next statement (`SqlCatalog.semicolon_is_name`).
-/

namespace SqlCatalog

open Identifier Step Draft

variable {options : Options} {state next last : State} {draft draft' : Draft} {edit : Edit}
  {tokens : List String}

/-! ### One semicolon -/

/-- A semicolon that leaves the draft alone. -/
theorem State.Follows.of_semicolon (h : next.Follows state ";") :
    next = .idle ∨ state = .constraint .block ∧ next = .tableConstraint 0 := by
  cases next with
  | idle => exact Or.inl rfl
  | tableConstraint depth =>
    rcases h with ⟨rfl, rfl, -⟩ | ⟨-, hne⟩
    · exact Or.inr ⟨rfl, rfl⟩
    · exact absurd rfl hne
  | columnType | columnDefault => exact absurd rfl h.2
  | table verb =>
    cases verb with
    | create => rcases h with ⟨-, hword⟩ | ⟨-, hword⟩ <;> exact absurd hword (by decide)
    | alter => exact absurd h.2 (by decide)
  | create | keyColumns => rcases h with ⟨-, hword⟩ | ⟨-, hword⟩ <;> exact absurd hword (by decide)
  | constraint scope | primary scope => cases scope <;> exact absurd h.2 (by decide)
  | tableName | columnName | typeModifier | characterType | doubleType | clockType | timeZone
  | timeZoneName => exact h.elim
  | _ => exact absurd h.2 (by decide)

/-- **What a semicolon does** that is accepted: it ends the statement, or it is the name of a
constraint in a column block. -/
theorem Transition.of_semicolon (hsemi : options.accepts ";" = false)
    (h : Transition options ";" state edit next) :
    next = .idle ∨ state = .constraint .block ∧ next = .tableConstraint 0 := by
  have htype : ColumnType.ofToken? options ";" = none := ofToken?_mark (by decide) hsemi
  cases h with
  | keep hf => exact hf.of_semicolon
  | discard | closeTable => exact Or.inl rfl
  | declare h | refer _ h | addColumn h | listedColumn h => exact absurd h (by decide)
  | keyColumn h => cases h
  | assign h | addTyped h =>
    rw [htype] at h
    cases h
  | typeText _ _ hne => exact absurd rfl hne
  | openTable h | hasDefault _ h | notNull h | asKey h => exact absurd h (by decide)

/-- Where the name of a constraint in a block is due, a semicolon is one. -/
theorem step_constraint_semicolon (draft : Draft) :
    step options (.constraint .block) draft ";" = goto (.tableConstraint 0) draft :=
  rfl

/-- **Behind a semicolon** that has been read the reader is idle and no table is open, unless
the semicolon is the name of a constraint. -/
theorem Leads.semicolon (hsemi : options.accepts ";" = false)
    (h : Leads options .idle draft (tokens ++ [";"]) next draft') (hd : draft.Fits .outside) :
    next = .idle ∧ draft'.openTable = none ∨
      (∃ d, Leads options .idle draft tokens (.constraint .block) d) ∧
        next = .tableConstraint 0 := by
  have hfits := h.fits hd
  obtain ⟨state, d, hfront, hs, -⟩ := leads_concat.mp h
  obtain ⟨edit, ht, -⟩ := exists_transition hs
  rcases ht.of_semicolon hsemi with rfl | ⟨rfl, rfl⟩
  · exact Or.inl ⟨rfl, hfits.2.1⟩
  · exact Or.inr ⟨⟨d, hfront⟩, rfl⟩

/-! ### Statements -/

/-- **Tokens are read as statements** from the idle state: each but the last part ends with the
one semicolon in it, behind which the reader is idle and no table is open. -/
inductive Framed (options : Options) : Draft → List String → State → Draft → Prop where
  /-- What stands behind the last semicolon. -/
  | rest {draft draft' : Draft} {tokens : List String} {last : State} (hno : ";" ∉ tokens)
    (h : Leads options .idle draft tokens last draft') : Framed options draft tokens last draft'
  /-- A statement. -/
  | statement {draft between draft' : Draft} {statement tokens : List String} {last : State}
    (hno : ";" ∉ statement) (h : Leads options .idle draft (statement ++ [";"]) .idle between)
    (hopen : between.openTable = none) (hf : Framed options between tokens last draft') :
    Framed options draft (statement ++ ";" :: tokens) last draft'

/-- A place behind the first of several members is that one or stands behind it. -/
theorem append_cons_cases {α : Type} {mark : α} {xs ys front back : List α} (hno : mark ∉ xs)
    (h : xs ++ mark :: ys = front ++ mark :: back) :
    front = xs ∨ ∃ inner, front = xs ++ mark :: inner ∧ ys = inner ++ mark :: back := by
  rcases List.append_eq_append_iff.mp h with ⟨more, rfl, hys⟩ | ⟨more, rfl, hback⟩
  · cases more with
    | nil => exact Or.inl (List.append_nil xs)
    | cons c inner =>
      obtain ⟨rfl, rfl⟩ := List.cons.inj hys
      exact Or.inr ⟨inner, rfl, rfl⟩
  · cases more with
    | nil => exact Or.inl (List.append_nil front).symm
    | cons c inner =>
      obtain ⟨rfl, -⟩ := List.cons.inj hback
      exact absurd (List.mem_append_right front List.mem_cons_self) hno

/-- **Behind each semicolon of statements** the reader is idle, and no table is open. -/
theorem Framed.idle {front back : List String} (h : Framed options draft tokens last draft')
    (ht : tokens = front ++ ";" :: back) :
    ∃ d, Leads options .idle draft (front ++ [";"]) .idle d ∧ d.openTable = none := by
  induction h generalizing front with
  | rest hno =>
    subst ht
    exact absurd (List.mem_append_right front List.mem_cons_self) hno
  | statement hno h hopen _ ih =>
    rcases append_cons_cases hno ht with rfl | ⟨inner, rfl, hinner⟩
    · exact ⟨_, h, hopen⟩
    · obtain ⟨d, hd, ho⟩ := ih hinner
      refine ⟨d, ?_, ho⟩
      have happend := h.append hd
      rwa [List.append_assoc, List.singleton_append, ← List.cons_append, ← List.append_assoc]
        at happend

/-- **Tokens are read as statements** where no semicolon is the name of a constraint. -/
theorem framed_of_forall (hsemi : options.accepts ";" = false)
    (h : Leads options .idle draft tokens last draft') (hd : draft.Fits .outside)
    (hname : ∀ front back d, tokens = front ++ ";" :: back →
      ¬Leads options .idle draft front (.constraint .block) d) :
    Framed options draft tokens last draft' := by
  induction hn : tokens.length using Nat.strongRecOn generalizing tokens draft with
  | ind n ih =>
    by_cases hmem : ";" ∈ tokens
    · obtain ⟨statement, others, rfl, hno⟩ := List.eq_append_cons_of_mem hmem
      have hsplit : statement ++ ";" :: others = (statement ++ [";"]) ++ others := by simp
      rw [hsplit] at h
      obtain ⟨next, between, hfirst, hothers⟩ := leads_append.mp h
      rcases hfirst.semicolon hsemi hd with ⟨rfl, hopen⟩ | ⟨⟨d, hbad⟩, -⟩
      · refine .statement hno hfirst hopen (ih others.length ?_ hothers (hfirst.fits hd) ?_ rfl)
        · rw [← hn, List.length_append, List.length_cons]
          omega
        · intro front back d ht hbad
          refine hname (statement ++ ";" :: front) back d (by rw [ht]; simp) ?_
          have happend := hfirst.append hbad
          rwa [List.append_assoc, List.singleton_append] at happend
      · exact absurd hbad (hname statement others d rfl)
    · exact .rest hmem h

/-- **Where tokens are read as statements.** Behind each semicolon of a reading the reader is
idle and no table is open, or the semicolon is the name of a constraint and the table stays
open. The tokens are read as statements if and only if none is such a name, and so they are
where no semicolon stands behind the word `constraint`. -/
theorem framed_iff (hsemi : options.accepts ";" = false)
    (h : Leads options .idle {} tokens last draft) :
    (∀ front back, tokens = front ++ ";" :: back →
      ∃ state d, Leads options .idle {} (front ++ [";"]) state d ∧
        (state = .idle ∧ d.openTable = none ∨
          state = .tableConstraint 0 ∧ d.openTable.isSome = true ∧
            Leads options .idle {} front (.constraint .block) d)) ∧
    (Framed options {} tokens last draft ↔ ∀ front back d, tokens = front ++ ";" :: back →
      ¬Leads options .idle {} front (.constraint .block) d) ∧
    (¬["constraint", ";"] <:+: tokens → Framed options {} tokens last draft) := by
  have hname : ∀ {front d}, Leads options .idle {} front (.constraint .block) d →
      Leads options .idle {} (front ++ [";"]) (.tableConstraint 0) d :=
    fun hfront => leads_concat.mpr ⟨_, _, hfront,
      congrArg Step.outcome (step_constraint_semicolon _),
      congrArg Step.draft (step_constraint_semicolon _)⟩
  refine ⟨fun front back ht => ?_, ⟨fun hf front back d ht hfront => ?_,
    framed_of_forall hsemi h fits_empty⟩, fun hno => ?_⟩
  · have hsplit : tokens = (front ++ [";"]) ++ back := by rw [ht]; simp
    rw [hsplit] at h
    obtain ⟨state, d, hd, -⟩ := leads_append.mp h
    rcases hd.semicolon hsemi fits_empty with hidle | ⟨⟨d', hfront⟩, rfl⟩
    · exact ⟨state, d, hd, Or.inl hidle⟩
    · obtain ⟨-, rfl⟩ := (hname hfront).unique hd
      have hfits : d'.Fits .block := hd.fits fits_empty
      exact ⟨_, d', hd, Or.inr ⟨rfl, by rw [hfits.2.2, Option.isSome_some], hfront⟩⟩
  · obtain ⟨d', hd', -⟩ := hf.idle ht
    cases ((hname hfront).unique hd').1
  · refine framed_of_forall hsemi h fits_empty fun front back d ht hfront => hno ?_
    obtain ⟨before, word, rfl, hword⟩ := hfront.last_mem (by decide)
    obtain rfl := List.mem_singleton.mp hword
    exact ⟨before, back, by rw [ht]; simp⟩

/-- Two statements of a dump. -/
theorem framed_of_two_statements :
    ∃ draft, Framed {} {} ["create", "table", "t", "(", "id", "integer", "primary", "key", ")",
      ";", "select", "1", ";"] .idle draft :=
  ⟨_, (framed_iff rfl ⟨rfl, rfl⟩).2.2 (by decide)⟩

/-- **A semicolon behind the word `constraint`** in a column block does not end the statement:
the next statement goes into the constraint, and its bracket closes the block. -/
theorem semicolon_is_name :
    let front := ["create", "table", "t", "(", "id", "integer", "primary", "key", ",", "constraint"]
    let tokens := front ++ ";" :: ["select", "1", ")", ";"]
    ∃ d draft, Leads {} .idle {} (front ++ [";"]) (.tableConstraint 0) d ∧ d.openTable = some 0 ∧
      Leads {} .idle {} tokens .idle draft ∧ ¬Framed {} {} tokens .idle draft := by
  intro front tokens
  have hname : Leads {} .idle {} (front ++ [";"]) (.tableConstraint 0) _ := ⟨rfl, rfl⟩
  refine ⟨_, _, hname, rfl, ⟨rfl, rfl⟩, fun hf => ?_⟩
  obtain ⟨d, hd, -⟩ := hf.idle rfl
  cases (hname.unique hd).1

end SqlCatalog
