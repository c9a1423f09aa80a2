import SqlCatalog.Proofs.Column.Frame

/-!
# Marks and runs

Whether a column belongs to a key is nothing that the reader ever looks at. So a run over a
draft with a mark is the run over the draft without it, with the mark put on what it leaves
behind (`SqlCatalog.run_markAt`): the same states, the same rejection if there is one, and
the same events.

There are two conditions on the marked column, put together in
`SqlCatalog.Draft.IsBehind`. It has to be there, for a mark in a place without a column is
lost when one is added; and it must not be the column being read, since the reader may give
that one another type or other flags. A mark is admitted there as any change is that goes past
keys (`SqlCatalog.Draft.IsBehind.admits`).
-/

namespace SqlCatalog

open Draft

variable {options : Options} {state last : State} {draft draft' : Draft} {tokens : List String}
  {place : Place} {i j : Nat}

/-! ### Columns behind the reader -/

namespace Draft

/-- **A column is behind the reader** in a place of a run: it is there, and it is not the one
being read. -/
structure IsBehind (draft : Draft) (place : Place) (i j : Nat) : Prop where
  /-- The column is there. -/
  there : j < (draft.columnNames i).length
  /-- It is not the column being read. -/
  apart : place = .column → ¬(draft.openTable = some i ∧ draft.openColumn = some j)

theorem IsBehind.markAt (h : draft.IsBehind place i j) (k l : Nat) :
    (draft.markAt k l).IsBehind place i j :=
  ⟨by simpa using h.there, by simpa using h.apart⟩

/-- **A mark is admitted** behind the reader. -/
theorem IsBehind.admits (h : draft.IsBehind state.place i j) :
    draft.Admits Column.asKey state i j where
  passes := ⟨fun _ => rfl, fun _ => rfl⟩
  there := h.there
  past hplace hopen hcolumn := absurd ⟨hopen, hcolumn⟩ (h.apart hplace)

end Draft

/-! ### Runs over a marked draft -/

/-- **A run goes past a mark**: its outcome and its events are the same, and what it leaves
behind is marked. -/
theorem run_markAt (tokens : List String) (hb : draft.IsBehind state.place i j) :
    run options state (draft.markAt i j) tokens =
      (run options state draft tokens).mapDraft (·.markAt i j) :=
  run_changeAt tokens hb.admits

/-- A reading from a marked draft. -/
theorem Leads.markAt (h : Leads options state draft tokens last draft')
    (hb : draft.IsBehind state.place i j) :
    Leads options state (draft.markAt i j) tokens last (draft'.markAt i j) :=
  h.changeAt hb.admits

/-- **A reading goes past several marks** in a table. -/
theorem Leads.markAll {places : List Nat} (h : Leads options state draft tokens last draft')
    (hb : ∀ j ∈ places, draft.IsBehind state.place i j) :
    Leads options state (draft.markAll i places) tokens last (draft'.markAll i places) := by
  induction places generalizing draft draft' with
  | nil => exact h
  | cons j places ih =>
    obtain ⟨hj, hb⟩ := List.forall_mem_cons.mp hb
    exact ih (h.markAt hj) fun k hk => (hb k hk).markAt i j

end SqlCatalog
