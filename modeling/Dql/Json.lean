/-!
# JSON

The JSON values that manifests are read from, and how a string is written.

* `Json`, `Json.field?` - values;
* `Json.quote` - a string as JSON text, with as few escapes as the format allows.
-/

namespace Dql

/-- A JSON value. A number is kept as its text, an object as its fields. -/
inductive Json where
  | null
  | bool (value : Bool)
  | number (text : String)
  | string (text : String)
  | array (items : List Json)
  | object (fields : List (String × Json))
  deriving Inhabited

namespace Json

/-- The field of a key; the last one if the key is repeated. -/
def field? (fields : List (String × Json)) (key : String) : Option Json :=
  fields.reverse.lookup key

/-- The escapes of JSON: quote, backslash and the control characters, five of which have a short
form. Every other character stands for itself. -/
def escapeChar (c : Char) : List Char :=
  if c = '"' then ['\\', '"']
  else if c = '\\' then ['\\', '\\']
  else if c = '\n' then ['\\', 'n']
  else if c = '\t' then ['\\', 't']
  else if c = '\r' then ['\\', 'r']
  else if c = '\x08' then ['\\', 'b']
  else if c = '\x0c' then ['\\', 'f']
  else if c.toNat < 0x20 then
    ['\\', 'u', '0', '0', Nat.digitChar (c.toNat / 16), Nat.digitChar (c.toNat % 16)]
  else [c]

/-- A string as JSON text. -/
def quote (text : String) : String :=
  String.ofList ('"' :: text.toList.flatMap escapeChar ++ ['"'])

end Json

end Dql
