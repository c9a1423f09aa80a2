import SqlCatalog.Catalog.Selection
import SqlCatalog.Noise.Strip
import SqlCatalog.Statement.Run
import SqlCatalog.Token

/-!
# From a dump to a catalog

Reading a dump (`SqlCatalog.parse`) strips it of noise, cuts it into tokens,
runs over the tokens from the idle state with an empty draft, and selects the
tables of the draft. The run has to end in the idle state: a dump that stops
inside a statement is refused.
-/

namespace SqlCatalog

/-- **The outcome of reading a dump**: a catalog or an error, and the events up
to there. -/
structure Outcome where
  /-- The catalog, or what was wrong. -/
  result : Except Error Catalog
  /-- The events, in order. -/
  events : List Event

/-- **The tokens of a dump** without its noise. -/
def tokensOf (dump : List UInt8) : List String :=
  tokenize (Noise.strip dump)

/-- **The outcome of reading tokens.** -/
def parseTokens (options : Options) (tokens : List String) : Outcome :=
  let result := run options .idle {} tokens
  match result.outcome with
  | .error e => ⟨.error e, result.events⟩
  | .ok .idle =>
    let selection := Catalog.select options ⟨result.draft.tables⟩
    let summary :=
      Event.parsed tokens.length result.draft.tables.length selection.kept.length
    ⟨.ok ⟨selection.kept⟩, result.events ++ selection.warnings ++ [summary]⟩
  | .ok state => ⟨.error (.unterminated state), result.events⟩

/-- **The outcome of reading a dump.** -/
def parse (options : Options) (dump : List UInt8) : Outcome :=
  parseTokens options (tokensOf dump)

end SqlCatalog
