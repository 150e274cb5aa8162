import Dql.Catalog
import Dql.Parse.Parser

/-!
# The grammar of expressions

Terms joined by `+` and `-`, factors joined by `*` and `/`, a factor being a primary with at most
one sign before it. Operators are joined by precedence climbing, and all are left-associative.

The parsers for everything above primaries take the parser for primaries as an argument. `primary`
ties the knot. In `limitedPrimary` the open primaries are counted: when there are as many as may be,
the text nests too deep.

* `operators`, `expression` - operators by binding power;
* `arguments`, `builtinCall` - calls of built-in functions;
* `fill`, `extensionCall` - calls of extensions, piece by piece along the form;
* `nestedPrimary`, `limitedPrimary`, `primary` - primaries;
* `parseNodes`, `parse` - a whole text.
-/

namespace Dql

/-- The sign that a token can be. -/
def TokenKind.sign? : TokenKind → Option Sign
  | .plus => some .plus
  | .minus => some .minus
  | _ => none

/-- The operator that a token can be. -/
def TokenKind.operator? : TokenKind → Option BinaryOp
  | .plus => some .add
  | .minus => some .sub
  | .asterisk => some .mul
  | .slash => some .div
  | _ => none

/-- The entity and the field of a dotted name: the entity is the part before the first dot. -/
def splitPath (name : String) : String × Option String :=
  let cs := name.toList
  match cs.dropWhile (· != '.') with
  | [] => (name, none)
  | _ :: field => (String.ofList (cs.takeWhile (· != '.')), some (String.ofList field))

namespace Parser

/-- The parser for primaries of either class, as the other parsers use it. -/
abbrev Primary := PrimaryClass → ParserM NodeId

/-! ## Operators -/

/-- A primary with at most one sign before it. Two signs in a row would open a comment in SQL. -/
def factor (primary : Primary) : ParserM NodeId := do
  match (← peek).kind?.bind TokenKind.sign? with
  | some sign =>
    advance
    push (.signed sign (← primary .arithmetic))
  | none => primary .arithmetic

/-- Extends a left operand by the operators that bind at least as tightly as `least`. The operand to
the right of an operator takes those that bind more tightly. Every operator is a token, so a `bound`
of the number of tokens ahead never cuts a chain short. -/
def operators (primary : Primary) (bound least : Nat) (left : NodeId) : ParserM NodeId := do
  match (← peek).kind?.bind TokenKind.operator? with
  | none => return left
  | some op =>
    if op.power < least then return left
    else match bound with
      | 0 => return left
      | bound + 1 =>
        advance
        let right ← operators primary bound (op.power + 1) (← factor primary)
        operators primary bound least (← push (.binary left op right))

/-- An operand with the operators after it that bind at least as tightly as `least`. -/
def operation (primary : Primary) (least : Nat) : ParserM NodeId := do
  let operand ← factor primary
  operators primary (← tokensAhead) least operand

/-- An expression. -/
def expression (primary : Primary) : ParserM NodeId := operation primary 0

/-! ## Calls -/

/-- The arguments after the first one, each after a comma. They are left on the stack. A `bound` of
the number of tokens ahead never cuts the list short. -/
def moreArguments (primary : Primary) : Nat → ParserM Unit
  | 0 => return
  | bound + 1 => do
    if ← takeIf .comma then
      pushArgument (← expression primary)
      moreArguments primary bound

/-- Any number of arguments, separated by commas. They are left on the stack. -/
def arguments (primary : Primary) : ParserM Unit := do
  if (← peek).kind? = some .parenRight then return
  else
    pushArgument (← expression primary)
    moreArguments primary (← tokensAhead)

/-- The name of a function and the parenthesis that opens its call. -/
def callHead : ParserM Unit := do
  discard <| take .identifier
  discard <| take .parenLeft

/-- A call of a built-in function. Calls around this one have their arguments on the same stack, so
its own are those above what is there at the start. -/
def builtinCall (primary : Primary) (function : Builtin) : ParserM NodeId := do
  let start ← waiting
  callHead
  arguments primary
  discard <| take .parenRight
  pushCall function (← drain start)

/-- Fills the pieces of a form, up to and with the closing parenthesis. Gives what was written for
the words, and the nodes in the slots. -/
def fill (primary : Primary) : List Piece → ParserM (List String × List NodeId)
  | [] => do
    discard <| take .parenRight
    return ([], [])
  | .word :: form => do
    let word ← take .identifier
    let (words, slots) ← fill primary form
    return (word.text :: words, slots)
  | .keyword _ :: form => do
    discard <| take .identifier
    fill primary form
  | .comma :: form => do
    discard <| take .comma
    fill primary form
  | .expression :: form => do
    let slot ← expression primary
    let (words, slots) ← fill primary form
    return (words, slot :: slots)
  | .primary accepts :: form => do
    let slot ← primary accepts
    let (words, slots) ← fill primary form
    return (words, slot :: slots)

/-- A call of an extension, whatever name it is called by. Its slots are in the table, but not the
call itself. -/
def extensionCall (primary : Primary) (function : Extension) : ParserM ExtensionCall := do
  callHead
  let (words, slots) ← fill primary function.form
  return { function, words, slots }

/-! ## Primaries -/

/-- A call, given its name token, which is still ahead. Built-in functions win over the catalog. -/
def functionCall (catalog : Catalog) (primary : Primary) (name : Token) : ParserM NodeId := do
  match Builtin.ofName? name.text with
  | some function => builtinCall primary function
  | none =>
    match catalog.find? name.text with
    | some entry =>
      dispatch name
      pushExtension (← extensionCall primary entry.extension)
    | none => throw (mismatch .knownFunction (.token name))

/-- A primary whose parts are parsed by `primary`. An identifier is a call if a parenthesis comes
next, and otherwise the name of an entity, which is no string. -/
def nestedPrimary (catalog : Catalog) (primary : Primary) (accepts : PrimaryClass) :
    ParserM NodeId := do
  let seen ← peek
  match seen with
  | .endOfText _ => throw (mismatch (.primary accepts) seen)
  | .token t =>
    match t.kind, accepts with
    | .parenLeft, .arithmetic =>
      advance
      let inner ← expression primary
      discard <| take .parenRight
      push (.paren inner)
    | .integer, .arithmetic | .float, .arithmetic =>
      advance
      push (.number t.text)
    | .string, _ =>
      advance
      push (.string t.contents)
    | .parameter, _ =>
      advance
      push (.parameter t.text)
    | .path, _ =>
      advance
      let (entity, field) := splitPath t.text
      push (.path entity field)
    | .identifier, _ =>
      if (← peekSecond).kind? = some .parenLeft then functionCall catalog primary t
      else match accepts with
        | .arithmetic =>
          advance
          push (.path t.text none)
        | .string => throw (mismatch (.primary accepts) seen)
    | _, _ => throw (mismatch (.primary accepts) seen)

/-- A primary whose parts are parsed by `primary`, opened only if it does not nest too deep. -/
def limitedPrimary (catalog : Catalog) (primary : Primary) (accepts : PrimaryClass) :
    ParserM NodeId := do
  if maxNesting ≤ (← openPrimaries) then throw (.tooDeep (← peek).position)
  else nested (nestedPrimary catalog primary accepts)

/-- A primary, with the primaries in it, for which one level less is left. -/
def primaryWithin (catalog : Catalog) : (levels : Nat) → Primary
  | 0, _ => do throw (.tooDeep (← peek).position)
  | levels + 1, accepts => limitedPrimary catalog (primaryWithin catalog levels) accepts

/-- A primary. No more than `maxNesting` are ever open, so the levels do not run out before. -/
def primary (catalog : Catalog) : Primary := primaryWithin catalog (maxNesting + 1)

/-! ## Whole texts -/

/-- The start of a text. -/
def start (text : String) : Parser := { progress := { stream := .ofText text } }

/-- An expression and nothing after it. -/
def wholeText (primary : Primary) : ParserM NodeId := do
  let root ← expression primary
  expectEnd
  return root

/-- The node that a text is parsed to and the table that it is in, or why there is none; and the
calls of extensions that were found. -/
def parseWith (primary : Primary) (text : String) :
    Except ParseError (NodeId × NodeTable) × List Event :=
  match wholeText primary (start text) with
  | .ok root s => (.ok (root, s.table), s.progress.dispatched)
  | .error err s => (.error err, s.progress.dispatched)

end Parser

/-- The node that a text is parsed to and the table that it is in, or why there is none; and the
calls of extensions that were found. -/
def parseNodes (catalog : Catalog) (text : String) :
    Except ParseError (NodeId × NodeTable) × List Event :=
  Parser.parseWith (Parser.primary catalog) text

/-- The expression that a text stands for, or why it stands for none; and the calls of extensions
that were found. -/
def parse (catalog : Catalog) (text : String) : Except ParseError Expr × List Event :=
  match parseNodes catalog text with
  | (.ok (root, table), events) => (.ok ((table.expr? root).getD default), events)
  | (.error err, events) => (.error err, events)

end Dql
