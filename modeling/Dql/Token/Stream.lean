import Dql.Token.Cursor

/-!
# Token streams

A text as the sequence of its tokens. The sequence stops at the end of the text or at the first
place where no token can be read; which of the two it was is only noticed by whoever looks there.

* `Ending`, `TokenList`, `TokenList.ofText` - all tokens of a text, and what comes after the last;
* `Ahead` - what a look ahead sees;
* `Stream`, `Stream.lookahead`, `Stream.skip` - the tokens not yet taken.
-/

namespace Dql

/-- What comes after the last token of a text. -/
inductive Ending where
  | endOfText (position : Nat)
  | fault (error : LexicalError)
  deriving DecidableEq

/-- The tokens of a text up to its end or to the first place where none can be read. -/
structure TokenList where
  tokens : List Token
  ending : Ending
  deriving DecidableEq

/-- The tokens of the characters `cs`, which start at byte offset `position`. -/
def TokenList.ofChars (position : Nat) (cs : List Char) : TokenList :=
  match _h : Reading.ofChars position cs with
  | .token t rest =>
    let after := TokenList.ofChars t.stop rest
    ⟨t :: after.tokens, after.ending⟩
  | .endOfText position => ⟨[], .endOfText position⟩
  | .unterminated start => ⟨[], .fault ⟨.unterminatedString, start⟩⟩
  | .unexpected start _ _ => ⟨[], .fault ⟨.unexpectedCharacter, start⟩⟩
termination_by cs.length
decreasing_by exact rest_lt_of_ofChars_eq_token _h

/-- The tokens of a text. -/
def TokenList.ofText (text : String) : TokenList := .ofChars 0 text.toList

/-- What a look ahead sees: a token, or the end of the text at some byte offset. -/
inductive Ahead where
  | token (token : Token)
  | endOfText (position : Nat)
  deriving DecidableEq

namespace Ahead

/-- Where an error about what is seen points. -/
def position : Ahead → Nat
  | .token t => t.start
  | .endOfText position => position

/-- The token that is seen, if any. -/
def token? : Ahead → Option Token
  | .token t => some t
  | .endOfText _ => none

/-- The kind of the token that is seen, if any. -/
def kind? (a : Ahead) : Option TokenKind := a.token?.map Token.kind

end Ahead

/-- The tokens not yet taken, what comes after them, and the byte offset just after the last token
taken (zero at the start). -/
structure Stream where
  ahead : List Token
  ending : Ending
  position : Nat
  deriving DecidableEq

namespace Stream

/-- All tokens of a text, none of them taken. -/
def ofText (text : String) : Stream :=
  let list := TokenList.ofText text
  ⟨list.tokens, list.ending, 0⟩

/-- What comes next, left in place. -/
def lookahead (s : Stream) : Except LexicalError Ahead :=
  match s.ahead with
  | t :: _ => .ok (.token t)
  | [] =>
    match s.ending with
    | .endOfText position => .ok (.endOfText position)
    | .fault e => .error e

/-- The stream after its next token. -/
def skip (s : Stream) : Stream :=
  match s.ahead with
  | t :: ts => { s with ahead := ts, position := t.stop }
  | [] => s

end Stream

end Dql
