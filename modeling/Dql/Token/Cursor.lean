import Dql.Text
import Dql.Token.Lexeme

/-!
# Reading one token at a time

A cursor stands between two bytes of a text. It can be moved by single bytes, so it may come to
stand inside a character; there no token starts.

* `Reading`, `Reading.ofChars` - what stands at a place between two characters, after blanks;
* `Cursor`, `Cursor.next`, `Cursor.peek`, `Cursor.peekSecond` - tokens one by one;
* `Cursor.step?`, `Cursor.byte?`, `Cursor.takeByte` - single bytes.

After an error a cursor can still be used: it has gone over the first byte of an unexpected
character, or to the end of the text if a string literal is not closed.
-/

namespace Dql

/-- What stands at a place in a text, blanks skipped. -/
inductive Reading where
  | token (token : Token) (rest : List Char)
  | endOfText (position : Nat)
  | unterminated (start : Nat)
  | unexpected (start : Nat) (char : Char) (rest : List Char)

/-- Reads the characters `cs`, which start at byte offset `position`. Every blank is one byte. -/
def Reading.ofChars (position : Nat) (cs : List Char) : Reading :=
  let start := position + (cs.takeWhile Char.isWhitespace).length
  match cs.dropWhile Char.isWhitespace with
  | [] => .endOfText start
  | d :: ds =>
    match Cut.first d ds with
    | .ok cut => .token ⟨cut.kind, String.ofList cut.lexeme, start⟩ cut.rest
    | .error .unterminatedString => .unterminated start
    | .error .unexpectedCharacter => .unexpected start d ds

/-- A token takes at least one character of the text. -/
theorem rest_lt_of_ofChars_eq_token {position : Nat} {cs rest : List Char} {t : Token}
    (h : Reading.ofChars position cs = .token t rest) : rest.length < cs.length := by
  unfold Reading.ofChars at h
  split at h
  · cases h
  · rename_i d ds hd
    split at h <;> cases h
    rename_i hc
    have hcut := Cut.rest_lt_of_first hc
    have hdrop := (List.dropWhile_suffix (l := cs) Char.isWhitespace).length_le
    rw [hd] at hdrop
    omega

/-- A place in a text: its byte offset, what is left of a character that the cursor stands in,
and the characters after it. -/
structure Cursor where
  position : Nat
  inside : List UInt8
  rest : List Char
  deriving DecidableEq

namespace Cursor

/-- The cursor before the first byte of a text. -/
def ofText (text : String) : Cursor := ⟨0, [], text.toList⟩

/-- The bytes from the cursor to the end of the text. -/
def bytesAhead (c : Cursor) : List UInt8 := c.inside ++ bytes c.rest

/-- Whether the cursor stands at the end of the text. -/
def isAtEnd (c : Cursor) : Bool := c.inside.isEmpty && c.rest.isEmpty

/-- The byte `offset` bytes after the cursor. -/
def byte? (c : Cursor) (offset : Nat) : Option UInt8 := c.bytesAhead[offset]?

/-- The next byte and the cursor after it; none at the end of the text. -/
def step? (c : Cursor) : Option (UInt8 × Cursor) :=
  match c.inside, c.rest with
  | b :: bs, rest => some (b, ⟨c.position + 1, bs, rest⟩)
  | [], d :: ds =>
    match String.utf8EncodeChar d with
    | b :: bs => some (b, ⟨c.position + 1, bs, ds⟩)
    | [] => none
  | [], [] => none

/-- Goes over the next byte if it is `b`; says whether it was. -/
def takeByte (c : Cursor) (b : UInt8) : Bool × Cursor :=
  match c.step? with
  | some (b', after) => if b' = b then (true, after) else (false, c)
  | none => (false, c)

/-- Reads the next token and goes over it; `none` at the end of the text. -/
def next (c : Cursor) : Except LexicalError (Option Token) × Cursor :=
  match c.inside with
  | _ :: bs => (.error ⟨.unexpectedCharacter, c.position⟩, ⟨c.position + 1, bs, c.rest⟩)
  | [] =>
    match Reading.ofChars c.position c.rest with
    | .token t rest => (.ok (some t), ⟨t.stop, [], rest⟩)
    | .endOfText position => (.ok none, ⟨position, [], []⟩)
    | .unterminated start =>
      (.error ⟨.unterminatedString, start⟩, ⟨c.position + byteSize c.rest, [], []⟩)
    | .unexpected start d ds =>
      (.error ⟨.unexpectedCharacter, start⟩, ⟨start + 1, (String.utf8EncodeChar d).tail, ds⟩)

/-- The next token, left in place. -/
def peek (c : Cursor) : Except LexicalError (Option Token) := c.next.1

/-- The token after the next one, both left in place; `none` if there is no next one. -/
def peekSecond (c : Cursor) : Except LexicalError (Option Token) :=
  match c.next with
  | (.ok (some _), after) => after.peek
  | (answer, _) => answer

end Cursor

end Dql
