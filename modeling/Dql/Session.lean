import Dql.Parse.Grammar

/-!
# Parsing sessions

A session goes through one text step by step, with one parser. A failing step leaves the session at
the offending token, and what was parsed until then stays in the table.

* `Session`, `Session.start` - sessions;
* `Step`, `Answer` - what can be asked for, and what is given;
* `Session.step`, `Session.run` - one step, and a list of them.
-/

namespace Dql

/-- A text that is being parsed: the parser, and the functions that the text can call. -/
structure Session extends Parser where
  catalog : Catalog

/-- What can be asked of a session. -/
inductive Step where
  /-- a token of this kind -/
  | take (kind : TokenKind)
  /-- the end of the text -/
  | finish
  | expression
  | primary (accepts : PrimaryClass)
  /-- a call of this extension, under whatever name -/
  | extension (function : Extension)
  deriving DecidableEq

/-- What a successful step gives. The call of an extension is not in the table, its slots are. -/
inductive Answer where
  | token (token : Token)
  | done
  | node (id : NodeId)
  | call (call : ExtensionCall)
  deriving DecidableEq

/-- How a parser takes a step. -/
def Step.parser (catalog : Catalog) : Step → ParserM Answer
  | .take kind => return .token (← Parser.take kind)
  | .finish => do
    Parser.expectEnd
    return .done
  | .expression => return .node (← Parser.expression (Parser.primary catalog))
  | .primary accepts => return .node (← Parser.primary catalog accepts)
  | .extension function => return .call (← Parser.extensionCall (Parser.primary catalog) function)

namespace Session

/-- A session at the start of a text. -/
def start (catalog : Catalog) (text : String) : Session := { Parser.start text with catalog }

/-- What comes next, left in place. -/
def lookahead (s : Session) : Except LexicalError Ahead := s.progress.stream.lookahead

/-- One step. -/
def step (s : Session) (what : Step) : Except ParseError Answer × Session :=
  match what.parser s.catalog s.toParser with
  | .ok answer parser => (.ok answer, { s with toParser := parser })
  | .error err parser => (.error err, { s with toParser := parser })

/-- The session after several steps, whatever became of each. -/
def run (s : Session) (steps : List Step) : Session := steps.foldl (fun s what => (s.step what).2) s

end Session

end Dql
