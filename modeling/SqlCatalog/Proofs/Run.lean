import SqlCatalog.Statement.Run

/-!
# Readings

A run that rejects no token is a *reading*: it leads from one state and draft to
another (`SqlCatalog.Leads`). Readings are put together one behind the other
(`SqlCatalog.Leads.append`) and taken apart again (`SqlCatalog.leads_append`), so
what a statement does is found from what its parts do. A run that rejects a
token is a reading up to that token
(`SqlCatalog.run_outcome_eq_error_iff`).
-/

namespace SqlCatalog

variable {options : Options} {state next last : State} {draft draft' draft'' : Draft}
  {token : String} {tokens tokens' : List String}

/-- **A reading**: the tokens lead from one state and draft to another, and none
of them is rejected. -/
def Leads (options : Options) (state : State) (draft : Draft) (tokens : List String)
    (last : State) (draft' : Draft) : Prop :=
  (run options state draft tokens).outcome = .ok last ∧
    (run options state draft tokens).draft = draft'

/-! ### Runs -/

theorem run_cons_of_ok (tokens : List String)
    (h : (step options state draft token).outcome = .ok next) :
    (run options state draft (token :: tokens)).outcome =
        (run options next (step options state draft token).draft tokens).outcome ∧
      (run options state draft (token :: tokens)).draft =
        (run options next (step options state draft token).draft tokens).draft := by
  simp only [run, h, and_self]

theorem run_cons_of_error {e : Error}
    (h : (step options state draft token).outcome = .error e) :
    run options state draft (token :: tokens) = step options state draft token := by
  simp only [run, h]

/-- **What every step keeps a run keeps**, be there a rejection or not. -/
theorem run_keeps {P : Draft → Prop} {tokens : List String}
    (hstep : ∀ state draft token, P draft → P (step options state draft token).draft)
    (state : State) (h : P draft) : P (run options state draft tokens).draft := by
  induction tokens generalizing state draft with
  | nil => exact h
  | cons token tokens ih =>
    have hfirst := hstep state draft token h
    cases ho : (step options state draft token).outcome with
    | error e => rwa [run_cons_of_error ho]
    | ok next =>
      rw [(run_cons_of_ok tokens ho).2]
      exact ih next hfirst

/-! ### Putting readings together -/

@[simp] theorem leads_nil :
    Leads options state draft [] last draft' ↔ last = state ∧ draft' = draft := by
  simp [Leads, run, Step.goto, eq_comm]

theorem Leads.refl : Leads options state draft [] state draft := leads_nil.mpr ⟨rfl, rfl⟩

/-- **A reading by its first token.** -/
theorem leads_cons :
    Leads options state draft (token :: tokens) last draft' ↔
      ∃ next, (step options state draft token).outcome = .ok next ∧
        Leads options next (step options state draft token).draft tokens last draft' := by
  constructor
  · rintro ⟨ho, hd⟩
    cases h : (step options state draft token).outcome with
    | error e =>
      rw [run_cons_of_error h, h] at ho
      cases ho
    | ok next =>
      obtain ⟨ho', hd'⟩ := run_cons_of_ok tokens h
      exact ⟨next, rfl, ho'.symm.trans ho, hd'.symm.trans hd⟩
  · rintro ⟨next, h, ho, hd⟩
    obtain ⟨ho', hd'⟩ := run_cons_of_ok tokens h
    exact ⟨ho'.trans ho, hd'.trans hd⟩

theorem Leads.cons {events : List Event}
    (h : step options state draft token = ⟨.ok next, draft', events⟩)
    (hs : Leads options next draft' tokens last draft'') :
    Leads options state draft (token :: tokens) last draft'' :=
  leads_cons.mpr ⟨next, by rw [h], by rw [h]; exact hs⟩

/-- A reading of one token. -/
theorem Leads.single {events : List Event}
    (h : step options state draft token = ⟨.ok next, draft', events⟩) :
    Leads options state draft [token] next draft' :=
  .cons h .refl

/-- **One reading behind another**, in both directions: the tokens of the first
part lead somewhere, and those of the second part from there. -/
theorem leads_append :
    Leads options state draft (tokens ++ tokens') last draft'' ↔
      ∃ next draft', Leads options state draft tokens next draft' ∧
        Leads options next draft' tokens' last draft'' := by
  induction tokens generalizing state draft with
  | nil =>
    simp only [List.nil_append, leads_nil]
    exact ⟨fun h => ⟨state, draft, ⟨rfl, rfl⟩, h⟩, fun ⟨_, _, ⟨hs, hd⟩, h⟩ => by
      rwa [hs, hd] at h⟩
  | cons token tokens ih =>
    simp only [List.cons_append, leads_cons, ih]
    constructor
    · rintro ⟨s, hs, s', d', h, h'⟩
      exact ⟨s', d', ⟨s, hs, h⟩, h'⟩
    · rintro ⟨s', d', ⟨s, hs, h⟩, h'⟩
      exact ⟨s, hs, s', d', h, h'⟩

theorem Leads.append (h : Leads options state draft tokens next draft')
    (h' : Leads options next draft' tokens' last draft'') :
    Leads options state draft (tokens ++ tokens') last draft'' :=
  leads_append.mpr ⟨next, draft', h, h'⟩

/-! ### What a reading determines -/

/-- **A reading leads to one place only.** -/
theorem Leads.unique {last' : State} (h : Leads options state draft tokens last draft')
    (h' : Leads options state draft tokens last' draft'') : last = last' ∧ draft' = draft'' :=
  ⟨Except.ok.inj (h.1.symm.trans h'.1), h.2.symm.trans h'.2⟩

/-- A reading goes on behind its first part. -/
theorem Leads.after (h : Leads options state draft (tokens ++ tokens') last draft'')
    (h' : Leads options state draft tokens next draft') :
    Leads options next draft' tokens' last draft'' := by
  obtain ⟨s, d, hs, h⟩ := leads_append.mp h
  obtain ⟨rfl, rfl⟩ := h'.unique hs
  exact h

/-- **A token that is rejected ends the run**, and what stands behind it does not
matter. -/
theorem Leads.outcome_of_rejected {e : Error}
    (h : Leads options state draft tokens next draft')
    (he : (step options next draft' token).outcome = .error e) :
    (run options state draft (tokens ++ token :: tokens')).outcome = .error e := by
  induction tokens generalizing state draft with
  | nil =>
    obtain ⟨rfl, rfl⟩ := leads_nil.mp h
    rw [List.nil_append, run_cons_of_error he, he]
  | cons first tokens ih =>
    obtain ⟨s, hs, h⟩ := leads_cons.mp h
    rw [List.cons_append, (run_cons_of_ok _ hs).1, ih h]

/-- **A run that rejects a token** is a reading up to that token, and gives its error. -/
theorem run_outcome_eq_error_iff {e : Error} :
    (run options state draft tokens).outcome = .error e ↔
      ∃ front token rest next draft', tokens = front ++ token :: rest ∧
        Leads options state draft front next draft' ∧
        (step options next draft' token).outcome = .error e := by
  constructor
  · intro h
    induction tokens generalizing state draft with
    | nil => cases h
    | cons token tokens ih =>
      cases ho : (step options state draft token).outcome with
      | error e' =>
        rw [run_cons_of_error ho, ho] at h
        cases h
        exact ⟨[], token, tokens, state, draft, rfl, .refl, ho⟩
      | ok next =>
        rw [(run_cons_of_ok tokens ho).1] at h
        obtain ⟨front, last, rest, s, d, rfl, hfront, hs⟩ := ih h
        exact ⟨token :: front, last, rest, s, d, rfl, leads_cons.mpr ⟨next, ho, hfront⟩, hs⟩
  · rintro ⟨front, token, rest, next, draft', rfl, hfront, hs⟩
    exact hfront.outcome_of_rejected hs

end SqlCatalog
