import Dql.Parse.Grammar

/-!
# Compilation

From the text of an expression to SQL.

* `compile` - one expression, with the events on the way;
* `recompiles` - the check that compiled SQL, as far as it is an expression again, stays the same.
-/

namespace Dql

/-- The SQL of the expression that a text stands for, or why it stands for none; and the events. -/
def compile (catalog : Catalog) (style : Style) (text : String) :
    Except ParseError String × List Event :=
  match parseNodes catalog text with
  | (.ok (root, table), events) =>
    let sql := (table.toSql? style root).getD ""
    (.ok sql, events ++ [.compiled text sql])
  | (.error err, events) => (.error err, events)

/-- Compiles a text with all packs in the default style, and the SQL once more. The answer is no
only if that gives other SQL; a text or an SQL that is no expression is all right. -/
def recompiles (text : String) : Bool × List Event :=
  match parseNodes .defaults text with
  | (.ok (root, table), events) =>
    let sql := (table.toSql? {} root).getD ""
    match compile .defaults {} sql with
    | (.ok again, more) => (sql == again, events ++ more)
    | (.error _, more) => (true, events ++ more)
  | (.error _, events) => (true, events)

end Dql
