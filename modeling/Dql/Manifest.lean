import Dql.Catalog
import Dql.Json

/-!
# Manifests

A manifest configures a catalog: for each category, the shipped extension of each name. Names are
kept as given, and each of the three maps is ordered by name.

* `Manifest`, `Manifest.functions`, `Manifest.insert` - the maps;
* `Manifest.entries`, `Catalog.ofManifest` - the catalog that a manifest describes;
* `Manifest.ofJson?`, `Manifest.toJsonText` - the stored form.
-/

namespace Dql

/-- The extensions by name, one map for each category. -/
structure Manifest where
  string : Std.TreeMap String Shipped := {}
  numeric : Std.TreeMap String Shipped := {}
  datetime : Std.TreeMap String Shipped := {}

namespace Manifest

/-- The map of a category. -/
def functions (m : Manifest) : Category → Std.TreeMap String Shipped
  | .string => m.string
  | .numeric => m.numeric
  | .datetime => m.datetime

/-- Puts an extension under a name in the map of a category. -/
def insert (m : Manifest) (category : Category) (name : String) (e : Shipped) : Manifest :=
  match category with
  | .string => { m with string := m.string.insert name e }
  | .numeric => { m with numeric := m.numeric.insert name e }
  | .datetime => { m with datetime := m.datetime.insert name e }

/-- Every shipped extension under its own name and category. -/
def defaults : Manifest :=
  Shipped.all.foldl (fun m e => m.insert e.category e.name e) {}

/-- All entries: string, numeric, datetime functions, each in the order of names. -/
def entries (m : Manifest) : List (String × Shipped × Category) :=
  Category.all.flatMap fun c => (m.functions c).toList.map fun (name, e) => (name, e, c)

/-- Two manifests are equal if they have the same entries. -/
instance : BEq Manifest := ⟨fun a b => a.entries == b.entries⟩

end Manifest

namespace Catalog

/-- Registers entries in turn, up to the first that is rejected; the events are those of the entries
before it. -/
def registerAll (c : Catalog) :
    List (String × Shipped × Category) → Except NameError Catalog × List Event
  | [] => (.ok c, [])
  | (name, e, category) :: more =>
    match c.register name (.shipped e) category with
    | .error err => (.error err, [])
    | .ok (c, event) =>
      let (answer, events) := c.registerAll more
      (answer, event :: events)

/-- The catalog that a manifest describes. -/
def ofManifest (m : Manifest) : Except NameError Catalog × List Event :=
  empty.registerAll m.entries

end Catalog

/-! ## The stored form -/

namespace Manifest

/-- The key of a category's map in the stored form. -/
def key : Category → String
  | .string => "string_functions"
  | .numeric => "numeric_functions"
  | .datetime => "datetime_functions"

/-- An extension is stored as its canonical name, or as an object that has this name as its only
key, with nothing under it. -/
def shippedOfJson? : Json → Option Shipped
  | .string name => Shipped.ofExactName? name
  | .object [(name, .null)] => Shipped.ofExactName? name
  | _ => none

/-- Adds the stored entries of one map to a manifest. -/
def insertFields (m : Manifest) (category : Category) : List (String × Json) → Option Manifest
  | [] => some m
  | (name, value) :: more =>
    match shippedOfJson? value with
    | some e => (m.insert category name e).insertFields category more
    | none => none

/-- Adds one stored map to a manifest. -/
def insertMap (m : Manifest) (category : Category) : Json → Option Manifest
  | .object fields => m.insertFields category fields
  | _ => none

/-- The manifest that is stored as an object with the three maps, or as an array of them in order.
Missing maps are empty, and keys that mean nothing are skipped. -/
def ofJson? : Json → Option Manifest
  | .object fields =>
    Category.all.foldlM (fun m c =>
      match Json.field? fields (key c) with
      | some map => m.insertMap c map
      | none => some m) {}
  | .array maps =>
    if maps.length ≤ Category.all.length then
      (maps.zip Category.all).foldlM (fun m (map, c) => m.insertMap c map) {}
    else none
  | _ => none

/-- One map as JSON text. -/
def mapText (functions : Std.TreeMap String Shipped) : String :=
  let items := functions.toList.map fun (name, e) => Json.quote name ++ ":" ++ Json.quote e.name
  "\x7b" ++ String.intercalate "," items ++ "\x7d"

/-- A manifest as JSON text without blanks. -/
def toJsonText (m : Manifest) : String :=
  let items := Category.all.map fun c => Json.quote (key c) ++ ":" ++ mapText (m.functions c)
  "\x7b" ++ String.intercalate "," items ++ "\x7d"

end Manifest

end Dql
