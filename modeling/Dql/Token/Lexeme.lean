import Dql.Name
import Dql.Token

/-!
# Lexemes

How the first lexeme is cut off a text that starts with no blank. Each kind of lexeme takes the
longest run of characters that it can.

* `Cut` - a lexeme and the text after it;
* `quotedTail`, `dottedTail`, `numberCut`, `markedCut` - the four shapes longer than one character;
* `Cut.first` - the lexeme that a text starts with, chosen by the first character.

`Cut.first_append` says that a cut loses nothing, `Cut.rest_lt_of_first` that it leaves less text.
-/

namespace Dql

/-- A lexeme cut off the front of a text: its kind, its characters and the text after it. -/
structure Cut where
  kind : TokenKind
  lexeme : List Char
  rest : List Char
  deriving DecidableEq

/-- The characters that are tokens on their own. -/
def punctuation? : Char → Option TokenKind
  | '(' => some .parenLeft
  | ')' => some .parenRight
  | ',' => some .comma
  | '+' => some .plus
  | '-' => some .minus
  | '*' => some .asterisk
  | '/' => some .slash
  | _ => none

/-- The part of a string literal after its opening quote, up to and with the closing quote, and the
text after it. Two quotes in a row stand for one inside the literal. -/
def quotedTail : List Char → Option (List Char × List Char)
  | [] => none
  | '\'' :: '\'' :: cs => (quotedTail cs).map fun (tail, rest) => ('\'' :: '\'' :: tail, rest)
  | c :: cs =>
    if c = '\'' then some (['\''], cs)
    else (quotedTail cs).map fun (tail, rest) => (c :: tail, rest)

/-- The rest of a possibly dotted name, and the text after it. A dot belongs to the name only if
another name starts right after it. -/
def dottedTail : List Char → List Char × List Char
  | [] => ([], [])
  | [c] => if isNamePart c then ([c], []) else ([], [c])
  | c :: d :: cs =>
    if isNamePart c || (c == '.' && isNameStart d) then
      let (tail, rest) := dottedTail (d :: cs)
      (c :: tail, rest)
    else ([], c :: d :: cs)

/-- A number that starts with the digit `c`. A dot belongs to it only if a digit follows. -/
def numberCut (c : Char) (cs : List Char) : Cut :=
  let whole := c :: cs.takeWhile Char.isDigit
  match cs.dropWhile Char.isDigit with
  | '.' :: d :: ds =>
    if d.isDigit then
      ⟨.float, whole ++ '.' :: d :: ds.takeWhile Char.isDigit, ds.dropWhile Char.isDigit⟩
    else ⟨.integer, whole, '.' :: d :: ds⟩
  | rest => ⟨.integer, whole, rest⟩

/-- A mark that must be followed by a character of one class, and goes on with those of another. -/
def markedCut (kind : TokenKind) (mark : Char) (starts continues : Char → Bool) :
    List Char → Except LexicalFault Cut
  | [] => .error .unexpectedCharacter
  | c :: cs =>
    if starts c then
      .ok ⟨kind, mark :: c :: cs.takeWhile continues, cs.dropWhile continues⟩
    else .error .unexpectedCharacter

/-- The lexeme at the front of the text `c :: cs`, whose first character is no blank. -/
def Cut.first (c : Char) (cs : List Char) : Except LexicalFault Cut :=
  if let some kind := punctuation? c then .ok ⟨kind, [c], cs⟩
  else if c = '\'' then
    match quotedTail cs with
    | some (tail, rest) => .ok ⟨.string, c :: tail, rest⟩
    | none => .error .unterminatedString
  else if isNameStart c then
    let (tail, rest) := dottedTail cs
    .ok ⟨if '.' ∈ tail then .path else .identifier, c :: tail, rest⟩
  else if c.isDigit then .ok (numberCut c cs)
  else if c = '.' then markedCut .float c Char.isDigit Char.isDigit cs
  else if c = '?' then markedCut .parameter c Char.isDigit Char.isDigit cs
  else if c = ':' then markedCut .parameter c isNameStart isNamePart cs
  else .error .unexpectedCharacter

/-! ## Cuts lose nothing -/

theorem quotedTail_append {cs tail rest : List Char} (h : quotedTail cs = some (tail, rest)) :
    tail ++ rest = cs := by
  fun_induction quotedTail cs generalizing tail rest with
  | case1 => cases h
  | case2 cs ih =>
    obtain ⟨⟨t, r⟩, ht, he⟩ := Option.map_eq_some_iff.1 h
    cases he
    simp [ih ht]
  | case3 => cases h; rfl
  | case4 c cs _ _ ih =>
    obtain ⟨⟨t, r⟩, ht, he⟩ := Option.map_eq_some_iff.1 h
    cases he
    simp [ih ht]

theorem dottedTail_append (cs : List Char) : (dottedTail cs).1 ++ (dottedTail cs).2 = cs := by
  fun_induction dottedTail cs with
  | case1 | case2 | case3 | case5 => rfl
  | case4 c d cs _ tail rest ht ih =>
    rw [ht] at ih
    simpa using ih

theorem numberCut_append (c : Char) (cs : List Char) :
    (numberCut c cs).lexeme ++ (numberCut c cs).rest = c :: cs := by
  have h := List.takeWhile_append_dropWhile (p := Char.isDigit) (l := cs)
  unfold numberCut
  split
  · rename_i d ds hd
    rw [hd] at h
    split <;> simp [h, List.takeWhile_append_dropWhile]
  · simp [h]

theorem markedCut_append {kind : TokenKind} {mark : Char} {p q : Char → Bool} {cs : List Char}
    {cut : Cut} (h : markedCut kind mark p q cs = .ok cut) :
    cut.lexeme ++ cut.rest = mark :: cs := by
  unfold markedCut at h
  split at h
  · cases h
  · split at h <;> cases h
    simp [List.takeWhile_append_dropWhile]

/-- A cut loses nothing: the lexeme and the rest together are the text. -/
theorem Cut.first_append {c : Char} {cs : List Char} {cut : Cut} (h : Cut.first c cs = .ok cut) :
    cut.lexeme ++ cut.rest = c :: cs := by
  unfold Cut.first at h
  split at h
  · cases h; rfl
  split at h
  · split at h
    · rename_i heq
      cases h
      simp [quotedTail_append heq]
    · cases h
  split at h
  · cases h
    simp [dottedTail_append]
  split at h
  · cases h
    exact numberCut_append c cs
  split at h
  · exact markedCut_append h
  split at h
  · exact markedCut_append h
  split at h
  · exact markedCut_append h
  · cases h

theorem numberCut_lexeme_ne_nil (c : Char) (cs : List Char) : (numberCut c cs).lexeme ≠ [] := by
  unfold numberCut
  split
  · split <;> simp
  · simp

theorem markedCut_lexeme_ne_nil {kind : TokenKind} {mark : Char} {p q : Char → Bool}
    {cs : List Char} {cut : Cut} (h : markedCut kind mark p q cs = .ok cut) : cut.lexeme ≠ [] := by
  unfold markedCut at h
  split at h
  · cases h
  · split at h <;> cases h
    simp

theorem Cut.lexeme_ne_nil_of_first {c : Char} {cs : List Char} {cut : Cut}
    (h : Cut.first c cs = .ok cut) : cut.lexeme ≠ [] := by
  unfold Cut.first at h
  split at h
  · cases h; simp
  split at h
  · split at h <;> cases h
    simp
  split at h
  · cases h
    simp
  split at h
  · cases h
    exact numberCut_lexeme_ne_nil c cs
  split at h
  · exact markedCut_lexeme_ne_nil h
  split at h
  · exact markedCut_lexeme_ne_nil h
  split at h
  · exact markedCut_lexeme_ne_nil h
  · cases h

/-- What is left after a cut is shorter than the text. -/
theorem Cut.rest_lt_of_first {c : Char} {cs : List Char} {cut : Cut}
    (h : Cut.first c cs = .ok cut) :
    cut.rest.length < (c :: cs).length := by
  have hl := congrArg List.length (Cut.first_append h)
  have hp := List.length_pos_iff.2 (Cut.lexeme_ne_nil_of_first h)
  simp only [List.length_append] at hl
  omega

end Dql
