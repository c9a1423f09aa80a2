import SqlCatalog.Statement.Draft

/-!
# Steps

What one token does to a reader: it goes on to another state or rejects the
token, leaves a draft behind in both cases, and reports events
(`SqlCatalog.Step`). The rules for the single states are put together from the
few steps of this file. A token for which a rule has no case is *unexpected*.
-/

namespace SqlCatalog

/-- **What a token did.** -/
structure Step where
  /-- The state that follows, or the reason for which the token is rejected. -/
  outcome : Except Error State
  /-- The draft left behind. -/
  draft : Draft
  /-- The events of the token. -/
  events : List Event

namespace Step

/-- The step into a state. -/
def goto (state : State) (draft : Draft) : Step :=
  ⟨.ok state, draft, []⟩

/-- The step that rejects a token for a reason. -/
def fail (error : Error) (draft : Draft) : Step :=
  ⟨.error error, draft, []⟩

/-- The step that rejects a token which does not belong here. -/
def unexpected (token : String) (draft : Draft) : Step :=
  fail (.unexpectedToken token) draft

/-- The step into a state with the draft that an operation gives; without one
the token does not belong here. -/
def gotoWith (state : State) (result : Option Draft) (token : String) (draft : Draft) : Step :=
  match result with
  | some draft => goto state draft
  | none => unexpected token draft

end Step

open Step

/-- A token that has to be the given word. -/
def readWord (word : String) (next : State) (token : String) (draft : Draft) : Step :=
  if token = word then goto next draft else unexpected token draft

end SqlCatalog
