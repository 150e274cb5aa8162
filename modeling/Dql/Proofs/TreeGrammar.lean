import Dql.Parse.Grammar
import Dql.Proofs.TreeSteps

/-!
# Parsing to trees

The grammar of expressions once more, with parsers that give expressions instead of nodes. In place
of the count of open primaries there is room for so many more, which each level of nesting uses up.

* `operators`, `expression` - operators by binding power;
* `arguments`, `builtinCall` - calls of built-in functions;
* `fill`, `extensionCall` - calls of extensions, piece by piece along the form;
* `nestedPrimary`, `primary` - primaries;
* `wholeWith`, `wholeExpression` - a whole text.
-/

namespace Dql

/-- The parser for primaries of either class, as the other parsers use it. -/
abbrev PrimaryParser := PrimaryClass → Parse Expr

/-! ## Operators -/

/-- A primary with at most one sign before it. Two signs in a row would open a comment in SQL. -/
def factor (primary : PrimaryParser) : Parse Expr := do
  match (← peek).kind?.bind TokenKind.sign? with
  | some sign =>
    advance
    return .signed sign (← primary .arithmetic)
  | none => primary .arithmetic

/-- Extends a left operand by the operators that bind at least as tightly as `least`. The operand to
the right of an operator takes those that bind more tightly. Every operator is a token, so a `bound`
of the number of tokens ahead never cuts a chain short. -/
def operators (primary : PrimaryParser) (bound least : Nat) (left : Expr) : Parse Expr := do
  match (← holding left peek).kind?.bind TokenKind.operator? with
  | none => return left
  | some op =>
    if op.power < least then return left
    else match bound with
      | 0 => return left
      | bound + 1 =>
        advance
        let operand ← holding left (factor primary)
        let right ← holding left (operators primary bound (op.power + 1) operand)
        operators primary bound least (.binary left op right)

/-- An operand with the operators after it that bind at least as tightly as `least`. -/
def operation (primary : PrimaryParser) (least : Nat) : Parse Expr := do
  let operand ← factor primary
  operators primary (← tokensAhead) least operand

/-- An expression. -/
def expression (primary : PrimaryParser) : Parse Expr := operation primary 0

/-! ## Calls -/

/-- The arguments after the first one, each after a comma. A `bound` of the number of tokens ahead
never cuts the list short. -/
def moreArguments (primary : PrimaryParser) : Nat → Parse (List Expr)
  | 0 => return []
  | bound + 1 => do
    if ← takeIf .comma then
      let arg ← expression primary
      return arg :: (← holding (.argument arg) (moreArguments primary bound))
    else return []

/-- Any number of arguments, separated by commas. -/
def arguments (primary : PrimaryParser) : Parse (List Expr) := do
  if (← peek).kind? = some .parenRight then return []
  else
    let arg ← expression primary
    return arg :: (← holding (.argument arg) (do moreArguments primary (← tokensAhead)))

/-- The name of a function and the parenthesis that opens its call. -/
def callHead : Parse Unit := do
  discard <| take .identifier
  discard <| take .parenLeft

/-- A call of a built-in function. -/
def builtinCall (primary : PrimaryParser) (function : Builtin) : Parse Expr := do
  callHead
  let args ← arguments primary
  discard <| holdingAll args (take .parenRight)
  return .call function args

/-- Fills the pieces of a form, up to and with the closing parenthesis. Gives what was written for
the words, and the expressions in the slots. -/
def fill (primary : PrimaryParser) : List Piece → Parse (List String × List Expr)
  | [] => do
    discard <| take .parenRight
    return ([], [])
  | .word :: form => do
    let word ← take .identifier
    let (words, slots) ← fill primary form
    return (word.text :: words, slots)
  | .keyword _ :: form => do
    discard <| take .identifier
    fill primary form
  | .comma :: form => do
    discard <| take .comma
    fill primary form
  | .expression :: form => do
    let slot ← expression primary
    let (words, slots) ← holding slot (fill primary form)
    return (words, slot :: slots)
  | .primary accepts :: form => do
    let slot ← primary accepts
    let (words, slots) ← holding slot (fill primary form)
    return (words, slot :: slots)

/-- A call of an extension, whatever name it is called by. -/
def extensionCall (primary : PrimaryParser) (function : Extension) :
    Parse (List String × List Expr) := do
  callHead
  fill primary function.form

/-! ## Primaries -/

/-- The path that a dotted name stands for. -/
def pathOfName (name : String) : Expr := .path (splitPath name).1 (splitPath name).2

/-- A call, given its name token, which is still ahead. Built-in functions win over the catalog. -/
def functionCall (catalog : Catalog) (primary : PrimaryParser) (name : Token) : Parse Expr := do
  match Builtin.ofName? name.text with
  | some function => builtinCall primary function
  | none =>
    match catalog.find? name.text with
    | some entry =>
      dispatch name
      let (words, slots) ← extensionCall primary entry.extension
      return .extension entry.extension words slots
    | none => Parse.fail (mismatch .knownFunction (.token name))

/-- A primary whose parts are parsed by `primary`. An identifier is a call if a parenthesis comes
next, and otherwise the name of an entity, which is no string. -/
def nestedPrimary (catalog : Catalog) (primary : PrimaryParser) (accepts : PrimaryClass) :
    Parse Expr := do
  let seen ← peek
  match seen with
  | .endOfText _ => Parse.fail (mismatch (.primary accepts) seen)
  | .token t =>
    match t.kind, accepts with
    | .parenLeft, .arithmetic =>
      advance
      let inner ← expression primary
      discard <| holding inner (take .parenRight)
      return .paren inner
    | .integer, .arithmetic | .float, .arithmetic =>
      advance
      return .number t.text
    | .string, _ =>
      advance
      return .string t.contents
    | .parameter, _ =>
      advance
      return .parameter t.text
    | .path, _ =>
      advance
      return pathOfName t.text
    | .identifier, _ =>
      if (← peekSecond).kind? = some .parenLeft then functionCall catalog primary t
      else match accepts with
        | .arithmetic =>
          advance
          return .path t.text none
        | .string => Parse.fail (mismatch (.primary accepts) seen)
    | _, _ => Parse.fail (mismatch (.primary accepts) seen)

/-- A primary with room for so many primaries inside one another, itself included. -/
def primary (catalog : Catalog) : (room : Nat) → PrimaryParser
  | 0, _ => do Parse.fail (.tooDeep (← peek).position)
  | room + 1, accepts => nestedPrimary catalog (primary catalog room) accepts

/-! ## Whole texts -/

/-- An expression and nothing after it. -/
def wholeWith (primary : PrimaryParser) : Parse Expr := do
  let e ← expression primary
  holding e expectEnd
  return e

/-- An expression and nothing after it, within the limit on nesting. -/
def wholeExpression (catalog : Catalog) : Parse Expr := wholeWith (primary catalog maxNesting)

end Dql
