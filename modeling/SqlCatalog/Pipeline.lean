import SqlCatalog.Parse
import SqlCatalog.Source

/-!
# From a dump to generated code

The whole way: a dump is read, its catalog is handed to a *generator*, and what
the generator makes of it is written. Each stage may fail, and the first to fail
ends the way (`SqlCatalog.Failure`). The generator is called only with a
catalog, and nothing is written but what it made.
-/

namespace SqlCatalog

/-- **A generator**: what it makes of a catalog, or its own account of why it
makes nothing. -/
abbrev Generator := Catalog → Except String (List UInt8)

/-- **The stages at which the way may end.** -/
inductive Failure where
  /-- Getting a catalog. -/
  | input (error : Error)
  /-- The generator. -/
  | generator (message : String)
  /-- Writing: the writer took less than there was. -/
  | output
deriving DecidableEq, Repr

/-- **The report of a whole way.** -/
structure Report where
  /-- What was written. -/
  written : List UInt8
  /-- Whether the generator was called. -/
  called : Bool
  /-- What went wrong. -/
  failure : Option Failure
deriving DecidableEq, Repr

/-- **Writing**, to a writer that takes as many bytes as its capacity says, or
all of them. -/
def write (capacity : Option Nat) (output : List UInt8) : Report :=
  match capacity with
  | none => ⟨output, true, none⟩
  | some n =>
    if output.length ≤ n then ⟨output, true, none⟩
    else ⟨output.take n, true, some .output⟩

/-- **The way from a dump**, which getting may have failed, to what is
written. -/
def generate (options : Options) (generator : Generator) (capacity : Option Nat)
    (input : Except Error (List UInt8)) : Report :=
  match input with
  | .error e => ⟨[], false, some (.input e)⟩
  | .ok dump =>
    match (parse options dump).result with
    | .error e => ⟨[], false, some (.input e)⟩
    | .ok catalog =>
      match generator catalog with
      | .error message => ⟨[], true, some (.generator message)⟩
      | .ok output => write capacity output

/-- **The way from a stream.** -/
def generateFromStream (options : Options) (generator : Generator) (capacity : Option Nat)
    (stream : Stream) : Report :=
  generate options generator capacity stream.readAll

/-- **The way from a source** to a writer that takes everything. -/
def generateFromSource (access : Access) (options : Options) (generator : Generator)
    (source : Source) : Report :=
  generate options generator none (source.load access)

end SqlCatalog
