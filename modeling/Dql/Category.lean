import Dql.Name

/-!
# Categories of functions

Every function beyond the built-in ones is filed under one of three categories. Parsing treats them
alike; a category only orders and labels.

* `Category`, `Category.name`, `Category.ofName?` - the categories and their names;
* `Category.sort` - string before numeric before datetime.
-/

namespace Dql

/-- What a function returns, as its configuration files it. -/
inductive Category where
  | string
  | numeric
  | datetime
  deriving DecidableEq, Inhabited

namespace Category

/-- The name of a category. -/
def name : Category → String
  | string => "string"
  | numeric => "numeric"
  | datetime => "datetime"

/-- The categories in order. -/
def all : List Category := [string, numeric, datetime]

/-- The category of a name, letter case ignored. -/
def ofName? (text : String) : Option Category :=
  all.find? fun c => foldCase c.name == foldCase text

/-- The category of a name, letter case as it is. -/
def ofExactName? (text : String) : Option Category := all.find? fun c => c.name == text

/-- The place of a category in the order. -/
def rank : Category → Nat
  | string => 0
  | numeric => 1
  | datetime => 2

/-- Categories in ascending order. -/
def sort (cs : List Category) : List Category := cs.mergeSort fun a b => a.rank ≤ b.rank

end Category

end Dql
