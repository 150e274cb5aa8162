import Dql.Extension
import Dql.Token

/-!
# Parse errors

Why a text is no expression. Every error tells where, and all but the lexical ones what would have
been fitting there.

* `Expected` - what was looked for;
* `ParseError`, `ParseError.message` - the errors and their texts;
* `maxNesting` - how deep primaries may nest.
-/

namespace Dql

/-- How many primaries may stand inside one another. -/
def maxNesting : Nat := 256

/-- What was looked for. -/
inductive Expected where
  | token (kind : TokenKind)
  | primary (accepts : PrimaryClass)
  | knownFunction
  | endOfText
  deriving DecidableEq

/-- How an error message names what was looked for. -/
def Expected.describe : Expected → String
  | token kind => kind.describe
  | primary .arithmetic => "arithmetic primary"
  | primary .string => "string primary"
  | knownFunction => "known function"
  | endOfText => "end of string"

/-- Why a text is no expression. -/
inductive ParseError where
  /-- no token can be read where one was needed -/
  | lexical (cause : LexicalError)
  /-- another token was found, or, if there is none, the end of the text -/
  | mismatch (position : Nat) (expected : Expected) (found : Option String)
  /-- a primary starts inside `maxNesting` others -/
  | tooDeep (position : Nat)
  deriving DecidableEq

namespace ParseError

/-- How an error message names what was found. -/
def describeFound : Option String → String
  | some text => "'" ++ text ++ "'"
  | none => "end of string"

/-- The text shown for an error. -/
def message : ParseError → String
  | lexical cause => "[Syntax Error] " ++ cause.message
  | mismatch position expected found =>
    s!"[Syntax Error] col {position}: Expected " ++ expected.describe ++ ", got " ++
      describeFound found
  | tooDeep position =>
    s!"[Syntax Error] col {position}: Expressions can't nest deeper than {maxNesting} levels"

end ParseError

end Dql
