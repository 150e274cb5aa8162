import Dql.Expr

/-!
# SQL of an expression

SQL is written part by part, in the order of the text. A style says how paths and parameters are
written; whoever writes a part asks it there and then.

* `ParameterStyle`, `Style` - styles;
* `Builtin.write`, `arrange`, `Extension.write` - calls, given the SQL of their parts;
* `Expr.toSql` - the SQL of an expression.
-/

namespace Dql

/-! ## Styles -/

/-- How an input parameter is written: as `?`, to be bound in order, or as it is. -/
inductive ParameterStyle where
  | positional
  | verbatim
  deriving DecidableEq, Inhabited

namespace ParameterStyle

/-- The name of a parameter style. -/
def name : ParameterStyle → String
  | positional => "Positional"
  | verbatim => "Verbatim"

/-- The parameter style of a name, letter case as it is. -/
def ofName? (text : String) : Option ParameterStyle :=
  [positional, verbatim].find? fun s => s.name == text

end ParameterStyle

/-- A path as the expression has it. -/
def verbatimPath (entity : String) : Option String → String
  | none => entity
  | some field => entity ++ "." ++ field

/-- A column name for a field: an upper-case letter becomes an underscore and its lower case. -/
def snakeCase (field : String) : String :=
  String.ofList <| field.toList.flatMap fun c => if c.isUpper then ['_', c.toLower] else [c]

/-- A path as table alias and column: `u.createdAt` becomes `u0_.created_at`. -/
def snakePath (entity : String) : Option String → String
  | none => entity ++ "0_"
  | some field => entity ++ "0_." ++ snakeCase field

/-- How paths and parameters are written. -/
structure Style where
  path : String → Option String → String := verbatimPath
  parameters : ParameterStyle := .positional

/-- A parameter in SQL. -/
def Style.parameter (style : Style) (text : String) : String :=
  match style.parameters with
  | .positional => "?"
  | .verbatim => text

/-! ## Writing -/

/-- A call of a built-in function, given the SQL of its arguments. -/
def Builtin.write (function : Builtin) (args : List String) : String :=
  function.name ++ "(" ++ ", ".intercalate args ++ ")"

/-- What stands between the parentheses of an extension's call: the form, with the words and the SQL
of the slots put in. -/
def arrange : List Piece → List String → List String → String
  | .word :: form, word :: words, slots => word ++ arrange form words slots
  | .keyword sql :: form, words, slots => " " ++ sql ++ " " ++ arrange form words slots
  | .comma :: form, words, slots => ", " ++ arrange form words slots
  | .expression :: form, words, slot :: slots => slot ++ arrange form words slots
  | .primary _ :: form, words, slot :: slots => slot ++ arrange form words slots
  | _, _, _ => ""

/-- A call of an extension, given its words and the SQL of its slots. -/
def Extension.write (function : Extension) (words slots : List String) : String :=
  function.name ++ "(" ++ arrange function.form words slots ++ ")"

mutual

/-- The SQL of an expression. -/
def Expr.toSql (style : Style) : Expr → String
  | .number text => text
  | .string contents => "'" ++ contents ++ "'"
  | .path entity field => style.path entity field
  | .parameter text => style.parameter text
  | .call function args => function.write (toSqlOfList style args)
  | .extension function words slots => function.write words (toSqlOfList style slots)
  | .binary left op right => left.toSql style ++ " " ++ op.symbol ++ " " ++ right.toSql style
  | .signed sign operand => sign.symbol ++ operand.toSql style
  | .paren inner => "(" ++ inner.toSql style ++ ")"

/-- The SQL of each expression of a list. -/
def toSqlOfList (style : Style) : List Expr → List String
  | [] => []
  | e :: es => e.toSql style :: toSqlOfList style es

end

end Dql
