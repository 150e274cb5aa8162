import Dql.Builtin
import Dql.Extension

/-!
# Scalar expressions

The trees that texts stand for. Parentheses are kept, because SQL is to have them where the text has
them. Literals, paths and parameters keep their text.

* `Sign`, `BinaryOp` - the operators;
* `Expr` - expressions.
-/

namespace Dql

/-- The signs that can stand before an operand. -/
inductive Sign where
  | plus
  | minus
  deriving DecidableEq

/-- How a sign is written. -/
def Sign.symbol : Sign → String
  | plus => "+"
  | minus => "-"

/-- The operators between two operands. -/
inductive BinaryOp where
  | add
  | sub
  | mul
  | div
  deriving DecidableEq

/-- How an operator is written. -/
def BinaryOp.symbol : BinaryOp → String
  | add => "+"
  | sub => "-"
  | mul => "*"
  | div => "/"

/-- How tightly an operator binds. -/
def BinaryOp.power : BinaryOp → Nat
  | add | sub => 50
  | mul | div => 60

/-- Scalar expressions. -/
inductive Expr where
  /-- a number, as written -/
  | number (text : String)
  /-- a string literal: the text between its quotes, doubled quotes kept -/
  | string (contents : String)
  /-- `entity` or `entity.field`; a field can have dots -/
  | path (entity : String) (field : Option String)
  /-- an input parameter with its mark, `:name` or `?1` -/
  | parameter (text : String)
  /-- a call of a built-in function -/
  | call (function : Builtin) (args : List Expr)
  /-- a call of an extension: the words of its form as written, and what is in its slots -/
  | extension (function : Extension) (words : List String) (slots : List Expr)
  | binary (left : Expr) (op : BinaryOp) (right : Expr)
  | signed (sign : Sign) (operand : Expr)
  | paren (inner : Expr)
  deriving Inhabited

end Dql
