import Dql.Expr
import Dql.Parse.Parser

/-!
# Steps of parsing to trees

To reason about a parser it helps to have the expressions themselves instead of nodes that refer to
one another. So here are its steps once more without the table: they give expressions. The steps of
a parser that stores nodes do the same, and what is in its table is told by the expressions.

When such a parser fails, it may leave behind fragments: expressions that were finished but found no
place in a larger one.

* `Fragment`, `Failure`, `Parse` - what a failure leaves behind, and parsers;
* `peek`, `advance`, `take`, `takeIf`, `expectEnd` - steps over tokens;
* `holding` - a parser that runs while a finished expression waits for its place.
-/

namespace Dql

/-- An expression that was finished but found no place in a larger one. It may be an argument of a
call that was not closed. -/
structure Fragment where
  expr : Expr
  isArgument : Bool := false

instance : Coe Expr Fragment := ⟨fun e => { expr := e }⟩

/-- An argument of a call that is not closed. -/
def Fragment.argument (e : Expr) : Fragment := ⟨e, true⟩

/-- An error, and the fragments left behind, in the order in which they were finished. -/
structure Failure where
  error : ParseError
  fragments : List Fragment := []

/-- The expressions left behind. -/
def Failure.exprs (f : Failure) : List Expr := f.fragments.map Fragment.expr

/-- Parsers. The progress made is kept when a parser fails. -/
abbrev Parse := EStateM Failure Progress

/-- Fails, with no fragments. -/
def Parse.fail {α : Type} (e : ParseError) : Parse α := throw { error := e }

/-- What comes next, left in place. -/
def peek : Parse Ahead := do
  match (← get).stream.lookahead with
  | .ok seen => return seen
  | .error cause => Parse.fail (.lexical cause)

/-- What comes after the next token, both left in place. -/
def peekSecond : Parse Ahead := do
  match (← get).stream.skip.lookahead with
  | .ok seen => return seen
  | .error cause => Parse.fail (.lexical cause)

/-- Goes over the next token. -/
def advance : Parse Unit := modify fun s => { s with stream := s.stream.skip }

/-- Takes the next token, which must be of this kind. -/
def take (kind : TokenKind) : Parse Token := do
  let seen ← peek
  match seen with
  | .token t =>
    if t.kind = kind then
      advance
      return t
    else Parse.fail (mismatch (.token kind) seen)
  | .endOfText _ => Parse.fail (mismatch (.token kind) seen)

/-- Goes over the next token if it is of this kind; says whether it was. Never fails. -/
def takeIf (kind : TokenKind) : Parse Bool := do
  match (← get).stream.ahead with
  | t :: _ =>
    if t.kind = kind then
      advance
      return true
    else return false
  | [] => return false

/-- Fails unless the text is at its end. -/
def expectEnd : Parse Unit := do
  let seen ← peek
  match seen with
  | .endOfText _ => return
  | .token _ => Parse.fail (mismatch .endOfText seen)

/-- Reports that a call of an extension was found. -/
def dispatch (name : Token) : Parse Unit :=
  modify fun s => { s with dispatched := s.dispatched ++ [.dispatching name.text name.start] }

/-- The number of tokens not yet taken. -/
def tokensAhead : Parse Nat := return (← get).stream.ahead.length

/-- Runs a parser while a finished expression waits for its place; it is left behind if the parser
fails. -/
def holding {α : Type} (e : Fragment) (p : Parse α) : Parse α :=
  p.adaptExcept fun f => { f with fragments := e :: f.fragments }

/-- Runs a parser while several arguments wait for their call to be closed. -/
def holdingAll {α : Type} (es : List Expr) (p : Parse α) : Parse α :=
  p.adaptExcept fun f => { f with fragments := es.map .argument ++ f.fragments }

end Dql
