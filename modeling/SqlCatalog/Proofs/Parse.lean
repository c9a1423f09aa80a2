import SqlCatalog.Parse
import SqlCatalog.Proofs.Noise.Calm
import SqlCatalog.Proofs.Run

/-!
# Reading texts

What reading a dump comes to, when the dump is a text and it is known what of the
text is left without its noise and where its tokens lead: the outcome is that of
the tokens of what is left (`SqlCatalog.parse_bytesOf`). Tokens that lead back to
the idle state give the selection from the tables of the draft
(`SqlCatalog.Leads.result_parseTokens`), and tokens of which one is rejected give
its error (`SqlCatalog.result_parseTokens_of_error`).
-/

namespace SqlCatalog

open Text Noise

variable {options : Options} {draft : Draft} {tokens : List String}

/-- **The tokens of a dump** are those of what is left of it. -/
theorem tokensOf_bytesOf {text kept : List Char}
    (h : stripFrom .clear (text.map .char) = kept.map .char) :
    tokensOf (bytesOf text) = Token.ofText kept := by
  have hstrip : strip (bytesOf text) = bytesOf kept := by
    rw [strip, piecesOf, decode_bytesOf, bytesOf, ← h]
    rfl
  rw [tokensOf, hstrip, Token.tokenize_bytesOf]

/-- **Reading a text** is reading the tokens of what is left of it. -/
theorem parse_bytesOf {text kept : List Char}
    (h : stripFrom .clear (text.map .char) = kept.map .char) :
    parse options (bytesOf text) = parseTokens options (Token.ofText kept) := by
  rw [parse, tokensOf_bytesOf h]

/-- **A text that holds no noise** has the tokens that stand in it. -/
theorem tokensOf_of_isCalm {text : List Char} (h : IsCalm text) :
    tokensOf (bytesOf text) = Token.ofText text := by
  refine tokensOf_bytesOf ?_
  have hstrip := h.stripFrom_append []
  rwa [List.append_nil, List.map_nil, stripFrom_nil, List.append_nil] at hstrip

/-- Such a text is read as it stands. -/
theorem parse_of_isCalm {text : List Char} (h : IsCalm text) :
    parse options (bytesOf text) = parseTokens options (Token.ofText text) := by
  rw [parse, tokensOf_of_isCalm h]

/-- Tokens that lead back to the idle state give a catalog. -/
theorem Leads.result_parseTokens (h : Leads options .idle {} tokens .idle draft) :
    (parseTokens options tokens).result = .ok ((Catalog.mk draft.tables).finalize options) := by
  obtain ⟨ho, hd⟩ := h
  simp only [parseTokens, ho, hd]
  rfl

/-- **A catalog comes from a reading** that leads back to the idle state. -/
theorem exists_leads_of_result {catalog : Catalog}
    (h : (parseTokens options tokens).result = .ok catalog) :
    ∃ draft, Leads options .idle {} tokens .idle draft ∧
      catalog = (Catalog.mk draft.tables).finalize options := by
  have hrun : ∀ state, (run options .idle {} tokens).outcome = .ok state → state = .idle := by
    intro state ho
    simp only [parseTokens, ho] at h
    cases state with
    | idle => rfl
    | _ => cases h
  cases ho : (run options .idle {} tokens).outcome with
  | error e =>
    simp only [parseTokens, ho] at h
    cases h
  | ok state =>
    obtain rfl := hrun state ho
    have hl : Leads options .idle {} tokens .idle _ := ⟨ho, rfl⟩
    exact ⟨_, hl, Except.ok.inj (h.symm.trans hl.result_parseTokens)⟩

/-- A token that is rejected gives its error. -/
theorem result_parseTokens_of_error {e : Error}
    (h : (run options .idle {} tokens).outcome = .error e) :
    (parseTokens options tokens).result = .error e := by
  simp only [parseTokens, h]

end SqlCatalog
