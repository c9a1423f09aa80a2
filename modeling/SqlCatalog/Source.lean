import SqlCatalog.Connection
import SqlCatalog.Error
import SqlCatalog.Text.Blank
import SqlCatalog.Text.Letter
import SqlCatalog.Text.Utf8

/-!
# Sources

Where the bytes of a dump come from: a file, a dump tool or a stream of chunks.

A file counts as a dump by its extension, which is what stands behind the last
period of its name, provided that something stands in front of that period. The
name is the last part of the path, where empty parts and parts that say *here*
do not count.

Reading from the outside is not done in this library; what the outside answers
is a parameter (`SqlCatalog.Access`).
-/

namespace SqlCatalog

open Text

/-- **A source of dumps.** -/
inductive Source where
  /-- A file, read as it is. -/
  | file (path : String)
  /-- The dump tool, run on a database. -/
  | database (connection : Connection)
deriving DecidableEq, Repr

/-! ### Files -/

/-- The parts of a path, with slashes between them. -/
def pathParts : List Char → List (List Char)
  | [] => [[]]
  | c :: cs =>
    if c = '/' then [] :: pathParts cs
    else
      match pathParts cs with
      | [] => [[c]]
      | part :: parts => (c :: part) :: parts

/-- **The name of the file** that a path leads to; `none` if it leads to none
by name. -/
def fileName? (path : String) : Option (List Char) :=
  let parts := (pathParts path.toList).filter fun part => !(part.isEmpty || part == ['.'])
  parts.getLast?.filter (· != ['.', '.'])

/-- **The extension of a file name**; `none` if it has no period, or none
behind its first character. -/
def extension? (name : List Char) : Option (List Char) :=
  match name.reverse.dropWhile (· != '.') with
  | [] => none
  | [_] => none
  | _ :: _ :: _ => some (name.reverse.takeWhile (· != '.')).reverse

/-- **The source that a path leads to**: a file whose extension is `sql`, in
any letter case. -/
def Source.ofPath (path : String) : Except Error Source :=
  if ((fileName? path).bind extension?).map lower = some "sql".toList then .ok (.file path)
  else .error (.unsupportedSource path)

/-! ### The dump tool -/

/-- **What a program left behind** when it ended. -/
structure Completion where
  /-- Its exit status, zero for success. -/
  status : UInt8
  /-- What it wrote. -/
  output : List UInt8
  /-- What it complained of. -/
  complaint : List UInt8
deriving DecidableEq, Repr

/-- **The dump that a program wrote.** A program that failed wrote none; its
complaint is kept, as far as it can be read and without white space at its
ends. -/
def Completion.dump (completion : Completion) : Except Error (List UInt8) :=
  if completion.status = 0 then .ok completion.output
  else
    .error (.dumpFailed completion.status (String.ofList (trim (lossy completion.complaint))))

/-! ### Loading -/

/-- **What the outside answers.** -/
structure Access where
  /-- The bytes of a file; `none` if it cannot be read. -/
  contents : String → Option (List UInt8)
  /-- What a command leaves behind; `none` if there is no such program. -/
  execute : Command → Option Completion

/-- **What a command leaves behind**, provided that it can be run. -/
def Access.run? (access : Access) (command : Command) : Option Completion :=
  if command.isRunnable then access.execute command else none

/-- **The dump that a source gives.** -/
def Source.load (access : Access) : Source → Except Error (List UInt8)
  | .file path =>
    match access.contents path with
    | some bytes => .ok bytes
    | none => .error .unreadable
  | .database connection =>
    match access.run? connection.command with
    | some completion => completion.dump
    | none => .error .unreadable

/-! ### Streams -/

/-- **A stream**: the chunks that come from it, and whether it breaks behind
them instead of ending. -/
structure Stream where
  /-- The chunks, in order. -/
  chunks : List (List UInt8)
  /-- Whether the stream breaks. -/
  breaks : Bool := false
deriving DecidableEq, Repr

/-- **The dump that a stream carries**: all of its chunks, unless it breaks. -/
def Stream.readAll (stream : Stream) : Except Error (List UInt8) :=
  if stream.breaks then .error .unreadable else .ok stream.chunks.flatten

end SqlCatalog
