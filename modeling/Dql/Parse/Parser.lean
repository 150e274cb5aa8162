import Dql.Event
import Dql.NodeTable
import Dql.Parse.Error
import Dql.Token.Stream

/-!
# Parsers at work

A parser goes over the tokens of a text and appends nodes to a table, each as soon as its parts are
there. The arguments of a call wait on a stack until the call is closed. Calls inside one another
share that stack. How many primaries are open is counted, because they may nest only so deep.

A step that fails has still taken the tokens before the offending one. The nodes stay in the table
and the arguments on the stack, as they are at that moment; only the count is unwound.

* `Progress`, `Parser`, `ParserM` - the state, and steps over it;
* `peek`, `advance`, `take`, `takeIf`, `expectEnd` - tokens;
* `push`, `pushCall`, `pushExtension` - nodes;
* `pushArgument`, `drain` - the stack of arguments;
* `nested` - the count of open primaries.
-/

namespace Dql

/-- How far a parser has come: the tokens not yet taken, and the calls of extensions found. -/
structure Progress where
  stream : Stream
  dispatched : List Event := []

/-- The state of a parser. -/
structure Parser where
  progress : Progress
  table : NodeTable := {}
  /-- the arguments of the calls that are open, and what failed calls have left there -/
  scratch : Array NodeId := #[]
  /-- how many primaries are open -/
  depth : Nat := 0

/-- Steps of a parser. A step that fails leaves the state behind too. -/
abbrev ParserM := EStateM ParseError Parser

/-- The error for seeing something else than what was looked for. -/
def mismatch (expected : Expected) (seen : Ahead) : ParseError :=
  .mismatch seen.position expected (seen.token?.map Token.text)

namespace Parser

/-! ## Tokens -/

/-- What comes next, left in place. -/
def peek : ParserM Ahead := do
  match (← get).progress.stream.lookahead with
  | .ok seen => return seen
  | .error cause => throw (.lexical cause)

/-- What comes after the next token, both left in place. -/
def peekSecond : ParserM Ahead := do
  match (← get).progress.stream.skip.lookahead with
  | .ok seen => return seen
  | .error cause => throw (.lexical cause)

/-- Goes over the next token. -/
def advance : ParserM Unit :=
  modify fun s => { s with progress := { s.progress with stream := s.progress.stream.skip } }

/-- Takes the next token, which must be of this kind. -/
def take (kind : TokenKind) : ParserM Token := do
  let seen ← peek
  match seen with
  | .token t =>
    if t.kind = kind then
      advance
      return t
    else throw (mismatch (.token kind) seen)
  | .endOfText _ => throw (mismatch (.token kind) seen)

/-- Goes over the next token if it is of this kind; says whether it was. Never fails. -/
def takeIf (kind : TokenKind) : ParserM Bool := do
  match (← get).progress.stream.ahead with
  | t :: _ =>
    if t.kind = kind then
      advance
      return true
    else return false
  | [] => return false

/-- Fails unless the text is at its end. -/
def expectEnd : ParserM Unit := do
  let seen ← peek
  match seen with
  | .endOfText _ => return
  | .token _ => throw (mismatch .endOfText seen)

/-- The number of tokens not yet taken. -/
def tokensAhead : ParserM Nat := return (← get).progress.stream.ahead.length

/-- Reports that a call of an extension was found. -/
def dispatch (name : Token) : ParserM Unit :=
  modify fun s =>
    let event := .dispatching name.text name.start
    { s with progress := { s.progress with dispatched := s.progress.dispatched ++ [event] } }

/-! ## Nodes -/

/-- Appends something to the table. -/
def append (add : NodeTable → NodeId × NodeTable) : ParserM NodeId :=
  modifyGet fun s =>
    let (id, table) := add s.table
    (id, { s with table })

/-- Appends a node. -/
def push (node : Node) : ParserM NodeId := append (·.push node)

/-- Appends a call of a built-in function and its arguments. -/
def pushCall (function : Builtin) (args : List NodeId) : ParserM NodeId :=
  append (·.pushCall function args)

/-- Appends a call of an extension. -/
def pushExtension (call : ExtensionCall) : ParserM NodeId := append (·.pushExtension call)

/-! ## The stack of arguments -/

/-- Puts an argument on the stack. -/
def pushArgument (id : NodeId) : ParserM Unit :=
  modify fun s => { s with scratch := s.scratch.push id }

/-- How many arguments are on the stack. -/
def waiting : ParserM Nat := return (← get).scratch.size

/-- Takes all arguments but the first `start` from the stack, and gives them in their order. -/
def drain (start : Nat) : ParserM (List NodeId) :=
  modifyGet fun s =>
    let args := (s.scratch.extract start s.scratch.size).toList
    (args, { s with scratch := s.scratch.shrink start })

/-! ## Nesting -/

/-- Runs a step with one more primary open. It is closed again whatever becomes of the step. -/
def nested {α : Type} (p : ParserM α) : ParserM α := fun s =>
  match p { s with depth := s.depth + 1 } with
  | .ok a s => .ok a { s with depth := s.depth - 1 }
  | .error e s => .error e { s with depth := s.depth - 1 }

/-- How many primaries are open. -/
def openPrimaries : ParserM Nat := return (← get).depth

end Parser

end Dql
