import SqlCatalog.Identifier
import SqlCatalog.NameSet

/-!
# Reading options

What a user of the library may add to the built-in rules: types that a column
may have (`SqlCatalog.Options.acceptType`) and tables that are left out of the
catalog (`SqlCatalog.Options.ignoreTable`). The names that these two take are
stored in normal form. Options may also come from a configuration, which stores
names as it has them; so a name is looked up both as it is stored and in normal
form.
-/

namespace SqlCatalog

open Identifier

/-- **Reading options**, empty by default. -/
structure Options where
  /-- Types accepted besides the built-in ones. -/
  customTypes : NameSet := NameSet.empty
  /-- Tables left out besides the built-in ones. -/
  ignoredTables : NameSet := NameSet.empty
deriving DecidableEq, Inhabited

/-- Whether a set holds a name, as it is stored or in normal form. -/
def NameSet.covers (set : NameSet) (name : String) : Bool :=
  set.contains name || set.toList.any fun stored => normalize stored == name

namespace Options

/-- The options under which a type is accepted too. -/
def acceptType (options : Options) (name : String) : Options :=
  { options with customTypes := options.customTypes.insert (normalize name) }

/-- The options under which a table is left out too. -/
def ignoreTable (options : Options) (name : String) : Options :=
  { options with ignoredTables := options.ignoredTables.insert (normalize name) }

/-- **Whether a type is a custom one.** -/
def accepts (options : Options) (type : String) : Bool :=
  options.customTypes.covers type

/-- **Whether a table is to be left out.** -/
def ignores (options : Options) (table : String) : Bool :=
  options.ignoredTables.covers table

end Options

end SqlCatalog
