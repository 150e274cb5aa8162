/-!
# Tokens

The vocabulary of scalar expressions. A token remembers its text and the byte offset at which the
text starts, so that errors can point at it.

* `TokenKind`, `TokenKind.describe` - the kinds and what error messages call them;
* `Token`, `Token.stop`, `Token.contents` - a token with its place in the text;
* `LexicalError`, `LexicalError.message` - why no token can be read.
-/

namespace Dql

/-- The kinds of token. A dotted name such as `u.createdAt` is one `path` token. -/
inductive TokenKind where
  | parenLeft
  | parenRight
  | comma
  | plus
  | minus
  | asterisk
  | slash
  | integer
  | float
  | string
  | identifier
  | path
  | parameter
  deriving DecidableEq, Inhabited

/-- How an error message names a kind of token. -/
def TokenKind.describe : TokenKind → String
  | .parenLeft => "'('"
  | .parenRight => "')'"
  | .comma => "','"
  | .plus => "'+'"
  | .minus => "'-'"
  | .asterisk => "'*'"
  | .slash => "'/'"
  | .integer => "integer"
  | .float => "float"
  | .string => "string"
  | .identifier => "identifier"
  | .path => "path expression"
  | .parameter => "input parameter"

/-- A token: its kind, its text as written, and the byte offset of that text. -/
structure Token where
  kind : TokenKind
  text : String
  start : Nat
  deriving DecidableEq, Inhabited

/-- The byte offset just after a token. -/
def Token.stop (t : Token) : Nat := t.start + t.text.utf8ByteSize

/-- What a token stands for: a string literal without its two outer quotes, any other token as it
is. Doubled quotes inside a literal stay doubled. -/
def Token.contents (t : Token) : String :=
  match t.kind with
  | .string => String.ofList t.text.toList.tail.dropLast
  | _ => t.text

/-- What is wrong where no token can be read. -/
inductive LexicalFault where
  | unterminatedString
  | unexpectedCharacter
  deriving DecidableEq

/-- A fault and the byte offset at which the offending lexeme starts. -/
structure LexicalError where
  fault : LexicalFault
  position : Nat
  deriving DecidableEq

/-- The text shown for a lexical error. -/
def LexicalError.message (e : LexicalError) : String :=
  match e.fault with
  | .unterminatedString => s!"Unterminated string literal starting at {e.position}"
  | .unexpectedCharacter => s!"Unexpected character at {e.position}"

end Dql
