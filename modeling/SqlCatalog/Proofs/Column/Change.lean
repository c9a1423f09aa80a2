import SqlCatalog.Proofs.Draft
import SqlCatalog.Proofs.Run

/-!
# Readings of a column

Inside a column definition all that a token does to a draft is to change the
column being read, wherever that column stands. So a reading of a column
definition is told by its states and by the change
(`SqlCatalog.Changes`), with no word on the draft. Changes are put together as
readings are (`SqlCatalog.Changes.append`).
-/

namespace SqlCatalog

/-- **Tokens that change the column being read**: in any draft with such a column
they lead from one state to another, and leave the draft with the column
changed. -/
def Changes (options : Options) (state : State) (tokens : List String) (last : State)
    (change : Column → Column) : Prop :=
  ∀ draft draft', draft.modifyColumn? change = some draft' →
    Leads options state draft tokens last draft'

variable {options : Options} {state next last : State} {draft : Draft} {column : Column}
  {token : String} {tokens tokens' : List String} {f g : Column → Column}

/-- A draft that can be changed has a column being read. -/
theorem exists_column?_of_modifyColumn? {draft' : Draft}
    (h : draft.modifyColumn? f = some draft') : ∃ column, draft.column? = some column := by
  have hsome := @Draft.isSome_modifyColumn? draft f
  rw [h] at hsome
  exact Option.isSome_iff_exists.mp hsome.symm

/-- **The column after a change.** -/
theorem Changes.leads (h : Changes options state tokens last f)
    (hc : draft.column? = some column) :
    ∃ draft', Leads options state draft tokens last draft' ∧
      draft'.column? = some (f column) := by
  obtain ⟨draft', hm, hc'⟩ := Draft.modifyColumn?_of_column? hc f
  exact ⟨draft', h draft draft' hm, hc'⟩

/-- **One change behind another.** -/
theorem Changes.append (h : Changes options state tokens next f)
    (h' : Changes options next tokens' last g) :
    Changes options state (tokens ++ tokens') last (g ∘ f) := by
  intro draft draft' hm
  obtain ⟨column, hc⟩ := exists_column?_of_modifyColumn? hm
  rw [Draft.modifyColumn?_comp hc] at hm
  obtain ⟨between, hf, hg⟩ := Option.bind_eq_some_iff.mp hm
  exact (h draft between hf).append (h' between draft' hg)

/-- A token that changes the column. -/
theorem Changes.of_step (h : ∀ draft, step options state draft token =
      Step.gotoWith last (draft.modifyColumn? f) token draft) :
    Changes options state [token] last f := by
  intro draft draft' hm
  have hstep : step options state draft token = Step.goto last draft' := by
    rw [h, hm]
    rfl
  exact .single hstep

/-- Tokens that leave any draft as it is. -/
theorem Changes.of_leads (h : ∀ draft, Leads options state draft tokens last draft) :
    Changes options state tokens last id := by
  intro draft draft' hm
  obtain ⟨column, hc⟩ := exists_column?_of_modifyColumn? hm
  obtain rfl := Option.some.inj ((Draft.modifyColumn?_id hc).symm.trans hm)
  exact h draft

/-- No tokens change nothing. -/
theorem Changes.refl : Changes options state [] state id :=
  .of_leads fun _ => .refl

/-- A token that changes no more than the state. -/
theorem Changes.of_goto (h : ∀ draft, step options state draft token = Step.goto last draft) :
    Changes options state [token] last id :=
  .of_leads fun draft => .single (h draft)

end SqlCatalog
