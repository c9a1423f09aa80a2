import SqlCatalog.Proofs.Run
import SqlCatalog.Proofs.Transition

/-!
# What a rejection leaves behind

A session goes on behind a token that is rejected, so it matters what such a token has done
before it was found out. It has done nothing: the draft is the one in front of it and no event is
reported (`SqlCatalog.rejection_leaves_draft`). This does not ask for a draft that a run can come
to. The open table and the open column may stand beyond the ends of their lists, and a table may
wait in a state that knows of none.

The edits make it easy to see. A token is unexpected before any draft is looked at, or it performs
one edit (`SqlCatalog.step_transition`), and an edit gives a draft only when all that it is about
has been found. The one edit of two parts is that of a type behind the word `exclude`, which adds
a column and gives it the type. It is refused as a whole, because the column that has just been
added is always there to be changed.

So a session that meets a rejected token is the session in front of it
(`SqlCatalog.Session.feed_of_error`), and what is left of a run that fails is the draft to which
the tokens in front of the rejected one lead (`SqlCatalog.Leads.of_run_error`).
-/

namespace SqlCatalog

open Step

variable {options : Options} {state next : State} {draft : Draft} {token : String} {e : Error}
  {tokens : List String}

/-! ### Refused edits -/

/-- An operation that finds nothing leaves the draft as it is. -/
theorem Step.gotoWith_of_error {result : Option Draft}
    (h : (gotoWith next result token draft).outcome = .error e) :
    gotoWith next result token draft = fail e draft := by
  cases result with
  | some _ => cases h
  | none =>
    cases h
    rfl

/-- **An edit that is refused does nothing.** -/
theorem Edit.perform_of_error {edit : Edit}
    (h : (edit.perform next token draft).outcome = .error e) :
    edit.perform next token draft = fail e draft := by
  cases edit with
  | keep | stash | discard | closeTable => cases h
  | openTable =>
    cases hopen : draft.openPending? with
    | some opened =>
      simp only [perform, hopen] at h
      cases h
    | none =>
      simp only [perform, hopen] at h ⊢
      cases h
      rfl
  | addColumn | change | addTyped => exact gotoWith_of_error h
  | markKey scope identifier =>
    cases hmark : draft.markKey scope identifier with
    | ok marked =>
      simp only [perform, readKeyColumn, hmark] at h
      cases h
    | error reason =>
      simp only [perform, readKeyColumn, hmark] at h ⊢
      cases h
      rfl

/-! ### Rejected tokens -/

/-- **A step that rejects its token does nothing else.** -/
theorem step_of_error (h : (step options state draft token).outcome = .error e) :
    step options state draft token = fail e draft := by
  rcases step_transition options token state with hunexpected | ⟨next, edit, -, hperform⟩
  · rw [hunexpected] at h ⊢
    cases h
    rfl
  · rw [hperform] at h ⊢
    exact Edit.perform_of_error h

/-- **A rejected token leaves the draft as it was**, whatever the state and the draft are, and
nothing is reported of it. -/
theorem rejection_leaves_draft (options : Options) (state : State) (draft : Draft) (token : String)
    (e : Error) (h : (step options state draft token).outcome = .error e) :
    (step options state draft token).draft = draft ∧
      (step options state draft token).events = [] := by
  rw [step_of_error h]
  exact ⟨rfl, rfl⟩

/-- Drafts that no run comes to, in each of which something is missing that the token is about: the
open table, the open column, the table that waits, and the table that is meant by it. -/
theorem rejection_leaves_broken_drafts :
    let tables := [Table.ofIdentifier "t"]
    let lost : Draft := { tables, openTable := some 7, openColumn := some 3, pending := some "u" }
    let bare : Draft := { tables, openTable := some 0, openColumn := some 3 }
    (∃ e, (step {} .excludeEntry lost "integer").outcome = .error e ∧
      (step {} .excludeEntry lost "integer").draft = lost) ∧
    (∃ e, (step {} .typeModifier bare "10").outcome = .error e ∧
      (step {} .typeModifier bare "10").draft = bare) ∧
    (∃ e, (step {} (.tableName .create) bare "(").outcome = .error e ∧
      (step {} (.tableName .create) bare "(").draft = bare) ∧
    ∃ e, (step {} (.keyColumns .statement) lost "id").outcome = .error e ∧
      (step {} (.keyColumns .statement) lost "id").draft = lost :=
  ⟨⟨_, rfl, (rejection_leaves_draft _ _ _ _ _ rfl).1⟩,
    ⟨_, rfl, (rejection_leaves_draft _ _ _ _ _ rfl).1⟩,
    ⟨_, rfl, (rejection_leaves_draft _ _ _ _ _ rfl).1⟩,
    ⟨_, rfl, (rejection_leaves_draft _ _ _ _ _ rfl).1⟩⟩

/-! ### Sessions and runs -/

/-- **A session is what it was** behind a token that is rejected. -/
theorem Session.feed_of_error {session : Session}
    (h : (session.feed options token).2 = some e) : (session.feed options token).1 = session := by
  cases ho : (step options session.state session.draft token).outcome with
  | ok next =>
    simp only [feed, ho] at h
    cases h
  | error reason =>
    simp only [feed, step_of_error ho]
    rfl

/-- **What a run that fails leaves** is what the tokens in front of the rejected one lead to. -/
theorem Leads.of_run_error (h : (run options state draft tokens).outcome = .error e) :
    ∃ front token rest next, tokens = front ++ token :: rest ∧
      Leads options state draft front next (run options state draft tokens).draft ∧
      (step options next (run options state draft tokens).draft token).outcome = .error e := by
  induction tokens generalizing state draft with
  | nil => cases h
  | cons token tokens ih =>
    cases ho : (step options state draft token).outcome with
    | error reason =>
      rw [run_cons_of_error ho] at h ⊢
      rw [ho] at h
      cases h
      have hdraft : (step options state draft token).draft = draft := by rw [step_of_error ho]; rfl
      rw [hdraft]
      exact ⟨[], token, tokens, state, rfl, .refl, ho⟩
    | ok next =>
      obtain ⟨houtcome, hdraft⟩ := run_cons_of_ok tokens ho
      rw [houtcome] at h
      obtain ⟨front, rejected, rest, last, rfl, hfront, hrejected⟩ := ih h
      rw [hdraft]
      exact ⟨token :: front, rejected, rest, last, rfl, leads_cons.mpr ⟨next, ho, hfront⟩,
        hrejected⟩

end SqlCatalog
