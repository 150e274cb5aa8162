import Std.Data.TreeMap
import Dql.Builtin
import Dql.Event
import Dql.Extension

/-!
# Catalogs

A catalog says which extension a function name stands for. Names differing only in ASCII letter
case are one name, and a later registration replaces an earlier one.

* `Catalog`, `Catalog.find?`, `Catalog.names` - look-up and listing;
* `Catalog.register` - a new entry, if its name is a name and no built-in function has it;
* `Catalog.mysql`, `Catalog.oracle`, `Catalog.defaults` - the packs.

`find?_put` is the law of look-up after registration.
-/

namespace Dql

/-- What a name stands for, and the category that it is filed under. -/
structure Entry where
  extension : Extension
  category : Category
  deriving DecidableEq

/-- The entries by name, in upper case. -/
structure Catalog where
  entries : Std.TreeMap String Entry := {}

/-- Why a name cannot be registered. -/
inductive NameError where
  | invalid (name : String)
  | reserved (name : String)
  deriving DecidableEq

namespace NameError

/-- The name as it was given. -/
def name : NameError → String
  | invalid name => name
  | reserved name => name

/-- The text shown for a rejected name. -/
def message : NameError → String
  | invalid name => "'" ++ name ++ "' is not a valid function name"
  | reserved name => "'" ++ name ++ "' is a built-in DQL function and can't be overridden"

end NameError

namespace Catalog

/-- The catalog in which only built-in functions can be called. -/
def empty : Catalog := {}

/-- The entry of a name, letter case ignored. -/
def find? (c : Catalog) (name : String) : Option Entry := c.entries[foldCase name]?

/-- The number of names. -/
def size (c : Catalog) : Nat := c.entries.size

/-- The names in order, each with its category. -/
def names (c : Catalog) : List (String × Category) :=
  c.entries.toList.map fun (name, entry) => (name, entry.category)

/-- Puts an entry under a name; what the name stood for before is replaced. -/
def put (c : Catalog) (name : String) (entry : Entry) : Catalog :=
  ⟨c.entries.insert (foldCase name) entry⟩

/-- A name can be registered if it is a name and no built-in function has it. -/
def checkName (name : String) : Except NameError Unit :=
  if !isName name then .error (.invalid name)
  else if (Builtin.ofName? name).isSome then .error (.reserved name)
  else .ok ()

/-- Registers an extension under a name. The event tells whether the name stood for something. -/
def register (c : Catalog) (name : String) (extension : Extension) (category : Category) :
    Except NameError (Catalog × Event) := do
  checkName name
  return (c.put name ⟨extension, category⟩, .registered name category (c.find? name).isSome)

/-- Puts a shipped extension under its own name and category. -/
def ship (c : Catalog) (e : Shipped) : Catalog := c.put e.name ⟨.shipped e, e.category⟩

/-- The MySQL pack. -/
def mysql : Catalog := empty.ship .dateFormat

/-- The Oracle pack. -/
def oracle : Catalog := (empty.ship .extract).ship .nvl2

/-- All packs together. -/
def defaults : Catalog := (mysql.ship .extract).ship .nvl2

/-- The listing of a catalog for diagnosis. -/
def debugText (c : Catalog) : String :=
  let label : Category → String
    | .string => "String"
    | .numeric => "Numeric"
    | .datetime => "Datetime"
  let items := c.names.map fun (name, category) => "(\"" ++ name ++ "\", " ++ label category ++ ")"
  "Registry \x7b functions: [" ++ String.intercalate ", " items ++ "] \x7d"

/-! ## Look-up -/

theorem find?_empty (name : String) : empty.find? name = none := by
  simp [find?, empty]

/-- After a registration its name is found, and all other names as before. -/
theorem find?_put (c : Catalog) (name other : String) (entry : Entry) :
    (c.put name entry).find? other =
      if foldCase name = foldCase other then some entry else c.find? other := by
  simp [find?, put, Std.TreeMap.getElem?_insert]

end Catalog

end Dql
