import SqlCatalog.Text.Decimal

/-!
# Connections

The parameters with which the dump tool reaches a database
(`SqlCatalog.Connection`), where they come from and what becomes of them.

* They may come from variables (`SqlCatalog.Connection.ofVariables`). An empty
  variable counts as none, and so does a port that is no port number.
* They become the arguments of the tool
  (`SqlCatalog.Connection.arguments`) – all but the password, which the tool
  gets through a variable of its own and which nobody sees on a command line.
* Program, arguments and password make up a command (`SqlCatalog.Command`), and
  not every command can be run: a text that is handed to a program ends at its
  first null character, so none may stand in it.
-/

namespace SqlCatalog

open Text

/-- **The parameters of a connection.** Those that are not given are left to
the tool. -/
structure Connection where
  /-- The dump tool. -/
  binary : String := "pg_dump"
  /-- The host of the database. -/
  host : Option String := none
  /-- Its port. -/
  port : Option UInt16 := none
  /-- The user. -/
  user : Option String := none
  /-- The database. -/
  database : Option String := none
  /-- The password of the user. -/
  password : Option String := none
deriving DecidableEq, Repr, Inhabited

namespace Connection

/-! ### Variables -/

/-- A text without the plus sign it begins with, if it does. -/
def dropPlus : List Char → List Char
  | [] => []
  | c :: cs => if c = '+' then cs else c :: cs

/-- **The port number that a text writes**: decimal digits, with a plus sign
allowed in front, of a number below 65536. -/
def portNumber? (text : String) : Option UInt16 :=
  let digits := dropPlus text.toList
  if !digits.isEmpty && digits.all Char.isDigit && decimal digits < 65536 then
    some (UInt16.ofNat (decimal digits))
  else none

/-- **The connection that some variables describe.** -/
def ofVariables (lookup : String → Option String) : Connection :=
  let given (name : String) : Option String := (lookup name).filter (· != "")
  { host := given "PGHOST"
    port := (given "PGPORT").bind portNumber?
    user := given "PGUSER"
    database := given "PGDATABASE"
    password := given "PGPASSWORD" }

/-! ### Arguments -/

/-- **The arguments of the dump tool** for a dump of the schema alone. -/
def arguments (connection : Connection) : List String :=
  ["--schema-only", "--no-owner"]
    ++ (connection.host.map ("--host=" ++ ·)).toList
    ++ (connection.port.map fun port => "--port=" ++ toString port.toNat).toList
    ++ (connection.user.map ("--username=" ++ ·)).toList
    ++ connection.database.toList

end Connection

/-- **A command**: what is run to get a dump. -/
structure Command where
  /-- The program. -/
  program : String
  /-- Its arguments. -/
  arguments : List String
  /-- The password it finds among its variables. -/
  password : Option String
deriving DecidableEq, Repr

/-- **The texts of a command**: all that is handed over when it is run. -/
def Command.texts (command : Command) : List String :=
  command.program :: command.arguments ++ command.password.toList

/-- **A command that can be run**: no null character stands in its texts. -/
def Command.isRunnable (command : Command) : Bool :=
  command.texts.all fun text => !text.toList.contains '\x00'

/-- The command for a dump through a connection. -/
def Connection.command (connection : Connection) : Command :=
  ⟨connection.binary, connection.arguments, connection.password⟩

end SqlCatalog
