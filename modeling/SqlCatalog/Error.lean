import SqlCatalog.Statement.State

/-!
# Errors

The causes for which getting a catalog fails, and their wording. Each of them
is final: no part of a catalog comes out.
-/

namespace SqlCatalog

/-- **The causes of failure.** -/
inductive Error where
  /-- A token that does not belong where it stands. -/
  | unexpectedToken (token : String)
  /-- A key for a table that was not declared. -/
  | unknownTable (table : String)
  /-- A key with a column that its table does not have. -/
  | unknownColumn (table column : String)
  /-- The end of the dump inside a statement. -/
  | unterminated (state : State)
  /-- A dump in a file of the wrong kind. -/
  | unsupportedSource (path : String)
  /-- A dump tool that failed, with its exit status and its complaint. -/
  | dumpFailed (status : UInt8) (complaint : String)
  /-- A dump that could not be read. -/
  | unreadable
deriving DecidableEq, Repr

/-- **The wording of an error.** An unreadable dump has none of its own: what
was wrong is for the system to say. -/
def Error.message? : Error → Option String
  | .unexpectedToken token => some ("unexpected token: `" ++ token ++ "`")
  | .unknownTable table =>
    some ("invalid primary key: table `" ++ table ++ "` was not declared")
  | .unknownColumn table column =>
    some ("invalid primary key: column `" ++ column ++ "` not found in table `" ++ table ++ "`")
  | .unterminated state =>
    some ("unterminated statement: input ended in state " ++ state.label)
  | .unsupportedSource path =>
    some ("unsupported dump source: " ++ path ++ " (expected a .sql file)")
  | .dumpFailed status complaint =>
    some ("pg_dump exited with exit status: " ++ toString status.toNat ++ ": " ++ complaint)
  | .unreadable => none

end SqlCatalog
