import Dql.Category
import Dql.Name

/-!
# Extensions

An extension is a function outside the language's own set, with a call form of its own between the
parentheses. The form is data: a list of pieces, which parsing fills and SQL writes back.

* `PrimaryClass` - which primaries a place accepts;
* `Piece` - the pieces of a form;
* `Shipped` - the extensions that packs and manifests know;
* `Extension` - those and `IFNULL`, which a catalog can hold besides.
-/

namespace Dql

/-- Which primaries a place accepts: any, or only those that may stand for a string, which leaves
out numbers, parentheses and bare names. -/
inductive PrimaryClass where
  | arithmetic
  | string
  deriving DecidableEq

/-- A piece of the text between the parentheses of an extension's call. -/
inductive Piece where
  /-- an identifier, kept as written -/
  | word
  /-- an identifier, whatever it is; SQL has this text in its place, between blanks -/
  | keyword (sql : String)
  | comma
  /-- a slot for any expression -/
  | expression
  /-- a slot for a primary -/
  | primary (accepts : PrimaryClass)
  deriving DecidableEq

/-- The extensions that come in packs and that a manifest can name. -/
inductive Shipped where
  | dateFormat
  | extract
  | nvl2
  deriving DecidableEq, Inhabited

namespace Shipped

/-- The canonical name, as SQL has it. -/
def name : Shipped → String
  | dateFormat => "DATE_FORMAT"
  | extract => "EXTRACT"
  | nvl2 => "NVL2"

/-- Every shipped extension. -/
def all : List Shipped := [dateFormat, extract, nvl2]

/-- The shipped extension of a canonical name, letter case ignored. -/
def ofName? (text : String) : Option Shipped := all.find? fun e => e.name == foldCase text

/-- The shipped extension of a canonical name, letter case as it is. -/
def ofExactName? (text : String) : Option Shipped := all.find? fun e => e.name == text

/-- The category under which packs file an extension. -/
def category : Shipped → Category
  | dateFormat => .string
  | extract => .numeric
  | nvl2 => .string

/-- The call form: `DATE_FORMAT(date, pattern)`, `EXTRACT(unit FROM date)`, `NVL2(a, b, c)`. -/
def form : Shipped → List Piece
  | dateFormat => [.expression, .comma, .primary .string]
  | extract => [.word, .keyword "from", .primary .arithmetic]
  | nvl2 => [.primary .arithmetic, .comma, .primary .arithmetic, .comma, .primary .arithmetic]

end Shipped

/-- The extensions that a catalog can hold. -/
inductive Extension where
  | shipped (extension : Shipped)
  | ifNull
  deriving DecidableEq, Inhabited

namespace Extension

/-- The canonical name, as SQL has it. -/
def name : Extension → String
  | shipped e => e.name
  | ifNull => "IFNULL"

/-- The call form: that of a shipped extension, or `IFNULL(expression, fallback)`. -/
def form : Extension → List Piece
  | shipped e => e.form
  | ifNull => [.expression, .comma, .expression]

/-- The extension of a text that is given on its own: `IFNULL` exactly, or the name of a shipped
one with letter case ignored. -/
def ofName? (text : String) : Option Extension :=
  if text = "IFNULL" then some ifNull else (Shipped.ofName? text).map shipped

end Extension

end Dql
