import Mathlib.Data.List.Induction
import SqlCatalog.Proofs.Run
import SqlCatalog.Proofs.Transition

/-!
# What a state remembers

A reading is told from its end: the last token makes a transition from where the tokens in
front of it lead. What holds at the start and is kept by every transition therefore holds of
every reading (`SqlCatalog.Leads.induction`), and it may speak of the tokens that have been
read.

Some states are entered by certain words only (`SqlCatalog.State.lastWords`). In such a state
the last token that has been read is known (`SqlCatalog.Leads.last_mem`).
-/

namespace SqlCatalog

variable {options : Options} {state next : State} {draft draft' : Draft} {token : String}
  {tokens : List String}

/-! ### Readings from their end -/

/-- **A reading by its last token.** -/
theorem leads_concat {start : State} :
    Leads options start draft (tokens ++ [token]) next draft' ↔
      ∃ state d, Leads options start draft tokens state d ∧
        (step options state d token).outcome = .ok next ∧
          (step options state d token).draft = draft' := by
  simp only [leads_append, leads_cons, leads_nil]
  constructor
  · rintro ⟨state, d, h, s, hs, rfl, rfl⟩
    exact ⟨state, d, h, hs, rfl⟩
  · rintro ⟨state, d, h, hs, rfl⟩
    exact ⟨state, d, h, next, hs, rfl, rfl⟩

/-- **Induction on a reading from the start**: a statement about the tokens read, the state and
the draft holds if it holds at the start and every transition keeps it. -/
theorem Leads.induction {P : List String → State → Draft → Prop} (hstart : P [] .idle {})
    (hstep : ∀ {tokens token state next draft edit},
      Leads options .idle {} tokens state draft → P tokens state draft →
      Transition options token state edit next →
      (edit.perform next token draft).outcome = .ok next →
        P (tokens ++ [token]) next (edit.perform next token draft).draft)
    (h : Leads options .idle {} tokens state draft) : P tokens state draft := by
  induction tokens using List.reverseRecOn generalizing state draft with
  | nil =>
    obtain ⟨rfl, rfl⟩ := leads_nil.mp h
    exact hstart
  | append_singleton tokens token ih =>
    obtain ⟨s, d, hfront, hs, rfl⟩ := leads_concat.mp h
    obtain ⟨edit, ht, hp⟩ := exists_transition hs
    rw [hp] at hs ⊢
    exact hstep hfront (ih hfront) ht hs

/-! ### The last word -/

/-- **The words by which a state is entered**, for states that only words lead to. -/
def State.lastWords : State → List String
  | .table .create => ["table", "exists"]
  | .constraint _ => ["constraint"]
  | .primary _ | .columnPrimary => ["primary"]
  | .excludeEntry => ["exclude"]
  | _ => []

/-- Such a state is entered by one of its words. -/
theorem State.Follows.mem_lastWords (h : next.Follows state token) (hw : next.lastWords ≠ []) :
    token ∈ next.lastWords := by
  cases next with
  | table verb =>
    cases verb with
    | create => rcases h with ⟨-, rfl⟩ | ⟨-, rfl⟩ <;> decide
    | alter => exact absurd rfl hw
  | constraint scope | primary scope =>
    cases scope <;> obtain ⟨-, rfl⟩ := h <;> exact List.mem_singleton.mpr rfl
  | columnPrimary | excludeEntry =>
    obtain ⟨-, rfl⟩ := h
    exact List.mem_singleton.mpr rfl
  | _ => exact absurd rfl hw

theorem State.lastWords_of_isTyping (h : state.isTyping = true) : state.lastWords = [] := by
  cases state with
  | columnType | typeModifier | characterType | doubleType | clockType | timeZone
  | timeZoneName => rfl
  | _ => cases h

/-- A token that performs an edit enters no such state. -/
theorem Transition.mem_lastWords {edit : Edit} (h : Transition options token state edit next)
    (hw : next.lastWords ≠ []) : token ∈ next.lastWords := by
  cases h with
  | keep h => exact h.mem_lastWords hw
  | @assign type => exact absurd (State.lastWords_of_isTyping type.family.isTyping_state) hw
  | @addTyped type => exact absurd (State.lastWords_of_isTyping type.family.isTyping_state) hw
  | typeText _ hn => exact absurd (State.lastWords_of_isTyping hn) hw
  | _ => exact absurd rfl hw

/-- **A state remembers the word it was entered by.** -/
theorem Leads.last_mem (h : Leads options .idle {} tokens state draft)
    (hw : state.lastWords ≠ []) :
    ∃ front word, tokens = front ++ [word] ∧ word ∈ state.lastWords := by
  refine Leads.induction (P := fun tokens state _ => state.lastWords ≠ [] →
    ∃ front word, tokens = front ++ [word] ∧ word ∈ state.lastWords) ?_ ?_ h hw
  · exact fun hne => absurd rfl hne
  · intro tokens token state next draft edit _ _ ht _ hne
    exact ⟨tokens, token, rfl, ht.mem_lastWords hne⟩

end SqlCatalog
