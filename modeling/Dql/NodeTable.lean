import Dql.Sql

/-!
# Node tables

Expressions in flat storage. Every node has the id of its place in the table and refers to other
nodes by their ids. The argument lists of built-in functions are packed into one array, the calls of
extensions into another. A node is appended when its parts are there, so that a whole expression
ends up in the last place.

* `NodeTable.push`, `NodeTable.pushCall`, `NodeTable.pushExtension` - how nodes get into a table;
* `NodeTable.store` - how a whole expression is laid out;
* `NodeTable.toSql?` - the SQL of the node under an id;
* `NodeTable.expr?` - the expression under an id.
-/

namespace Dql

/-- The place of a node in its table. -/
abbrev NodeId := Nat

/-- A stretch of the packed arguments. -/
structure Span where
  start : Nat
  length : Nat
  deriving DecidableEq

/-- A node: an expression with ids for its parts. -/
inductive Node where
  | number (text : String)
  | string (contents : String)
  | path (entity : String) (field : Option String)
  | parameter (text : String)
  | call (function : Builtin) (args : Span)
  /-- the extension call of this index -/
  | extension (index : Nat)
  | binary (left : NodeId) (op : BinaryOp) (right : NodeId)
  | signed (sign : Sign) (operand : NodeId)
  | paren (inner : NodeId)
  deriving DecidableEq

/-- A call of an extension: the words of its form as written, and what is in its slots. -/
structure ExtensionCall where
  function : Extension
  words : List String
  slots : List NodeId
  deriving DecidableEq

/-- Nodes in the order of their ids, the packed arguments, and the calls of extensions. -/
structure NodeTable where
  nodes : Array Node := #[]
  args : Array NodeId := #[]
  calls : Array ExtensionCall := #[]
  deriving DecidableEq

namespace NodeTable

/-- The table with nothing in it. -/
def empty : NodeTable := {}

/-- The number of nodes, which is the id of the next one. -/
def size (t : NodeTable) : Nat := t.nodes.size

/-! ## Adding nodes -/

/-- Appends a node. -/
def push (t : NodeTable) (node : Node) : NodeId × NodeTable :=
  (t.size, { t with nodes := t.nodes.push node })

/-- Appends a call of a built-in function, and its arguments to the packed ones. -/
def pushCall (t : NodeTable) (function : Builtin) (args : List NodeId) : NodeId × NodeTable :=
  { t with args := t.args ++ args }.push (.call function ⟨t.args.size, args.length⟩)

/-- Appends a call of an extension. -/
def pushExtension (t : NodeTable) (call : ExtensionCall) : NodeId × NodeTable :=
  { t with calls := t.calls.push call }.push (.extension t.calls.size)

mutual

/-- Appends the nodes of an expression, children first and from left to right. Gives the id of the
last one, which stands for the whole. -/
def store (t : NodeTable) : Expr → NodeId × NodeTable
  | .number text => t.push (.number text)
  | .string contents => t.push (.string contents)
  | .path entity field => t.push (.path entity field)
  | .parameter text => t.push (.parameter text)
  | .call function args =>
    let (ids, t) := t.storeAll args
    t.pushCall function ids
  | .extension function words slots =>
    let (ids, t) := t.storeAll slots
    t.pushExtension ⟨function, words, ids⟩
  | .binary left op right =>
    let (l, t) := t.store left
    let (r, t) := t.store right
    t.push (.binary l op r)
  | .signed sign operand =>
    let (id, t) := t.store operand
    t.push (.signed sign id)
  | .paren inner =>
    let (id, t) := t.store inner
    t.push (.paren id)

/-- Appends the nodes of several expressions in turn, and gives the id of each. -/
def storeAll (t : NodeTable) : List Expr → List NodeId × NodeTable
  | [] => ([], t)
  | e :: es =>
    let (id, t) := t.store e
    let (ids, t) := t.storeAll es
    (id :: ids, t)

end

/-! ## Reading nodes -/

/-- The arguments of a span. -/
def argsOf (t : NodeTable) (span : Span) : List NodeId :=
  (t.args.extract span.start (span.start + span.length)).toList

/-- The SQL of the node under an id, as long as no path of links is longer than `depth`. Paths and
parameters are written as the style says. -/
def toSqlWithin (t : NodeTable) (style : Style) : (depth : Nat) → NodeId → Option String
  | 0, _ => none
  | depth + 1, id => do
    match ← t.nodes[id]? with
    | .number text => return text
    | .string contents => return "'" ++ contents ++ "'"
    | .path entity field => return style.path entity field
    | .parameter text => return style.parameter text
    | .call function span =>
      return function.write (← (t.argsOf span).mapM (t.toSqlWithin style depth))
    | .extension index =>
      let call ← t.calls[index]?
      return call.function.write call.words (← call.slots.mapM (t.toSqlWithin style depth))
    | .binary left op right =>
      let left ← t.toSqlWithin style depth left
      let right ← t.toSqlWithin style depth right
      return left ++ " " ++ op.symbol ++ " " ++ right
    | .signed sign operand => return sign.symbol ++ (← t.toSqlWithin style depth operand)
    | .paren inner => return "(" ++ (← t.toSqlWithin style depth inner) ++ ")"

/-- The SQL of the node under an id; none if a link leads nowhere or in a circle. A path of links
that does neither has at most as many nodes as the table. -/
def toSql? (t : NodeTable) (style : Style) (id : NodeId) : Option String :=
  t.toSqlWithin style t.size id

/-- The SQL of a call of an extension whose slots are in the table, though it need not be itself. -/
def callToSql? (t : NodeTable) (style : Style) (call : ExtensionCall) : Option String := do
  return call.function.write call.words (← call.slots.mapM (t.toSql? style))

/-- The expression under an id, as long as no path of links is longer than `depth`. -/
def exprWithin (t : NodeTable) : (depth : Nat) → NodeId → Option Expr
  | 0, _ => none
  | depth + 1, id => do
    match ← t.nodes[id]? with
    | .number text => return .number text
    | .string contents => return .string contents
    | .path entity field => return .path entity field
    | .parameter text => return .parameter text
    | .call function span => return .call function (← (t.argsOf span).mapM (t.exprWithin depth))
    | .extension index =>
      let call ← t.calls[index]?
      return .extension call.function call.words (← call.slots.mapM (t.exprWithin depth))
    | .binary left op right =>
      return .binary (← t.exprWithin depth left) op (← t.exprWithin depth right)
    | .signed sign operand => return .signed sign (← t.exprWithin depth operand)
    | .paren inner => return .paren (← t.exprWithin depth inner)

/-- The expression under an id; none where there is no SQL. -/
def expr? (t : NodeTable) (id : NodeId) : Option Expr := t.exprWithin t.size id

end NodeTable

end Dql
