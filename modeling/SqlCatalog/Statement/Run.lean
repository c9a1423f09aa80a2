import SqlCatalog.Statement.Step

/-!
# Runs and sessions

Two ways of reading many tokens. A *run* (`SqlCatalog.run`) stops at the first
token that is rejected, as reading a dump does. A *session*
(`SqlCatalog.Session`) stays in its state when a token is rejected and goes on
with the next one, and its state can be set from outside.
-/

namespace SqlCatalog

/-- **The run over some tokens**: the state behind the last one, or the reason
for which one is rejected, with the draft left behind and all events. -/
def run (options : Options) (state : State) (draft : Draft) : List String → Step
  | [] => Step.goto state draft
  | token :: tokens =>
    let first := step options state draft token
    match first.outcome with
    | .error _ => first
    | .ok next =>
      let others := run options next first.draft tokens
      { others with events := first.events ++ others.events }

/-! ### Sessions -/

/-- **A session**: a state and a draft. -/
structure Session where
  /-- The state. -/
  state : State := .idle
  /-- The draft. -/
  draft : Draft := {}
deriving DecidableEq, Repr, Inhabited

namespace Session

/-- **The session behind a token**, and the reason if the token is rejected. -/
def feed (options : Options) (session : Session) (token : String) : Session × Option Error :=
  let result := step options session.state session.draft token
  match result.outcome with
  | .ok next => (⟨next, result.draft⟩, none)
  | .error e => (⟨session.state, result.draft⟩, some e)

/-- The session put into another state. -/
def jump (session : Session) (state : State) : Session :=
  { session with state }

end Session

end SqlCatalog
