import Dql.Proofs.Lexeme

/-!
# Reading a text piece by piece

A text that is put together from pieces reads as the lexemes of its pieces, as long as no lexeme
runs over the seam.

* `TokenList.lexemes`, `TokenList.prepend` - the lexemes of a text, and more tokens before them;
* `Reads` - a piece of text reads as certain lexemes, whatever text of some class follows it.

`Reads.append` joins pieces, `Reads.lexemes_ofText` is what follows for a whole text, and
`valid_of_mem_ofText` says that only lexemes are ever read.
-/

namespace Dql

namespace TokenList

/-- The lexemes of a text. -/
def lexemes (l : TokenList) : List Lexeme := l.tokens.map Token.lexeme

/-- The list with more tokens before it. -/
def prepend (tokens : List Token) (l : TokenList) : TokenList := ⟨tokens ++ l.tokens, l.ending⟩

@[simp] theorem prepend_nil (l : TokenList) : l.prepend [] = l := rfl

@[simp] theorem prepend_prepend (ts us : List Token) (l : TokenList) :
    (l.prepend us).prepend ts = l.prepend (ts ++ us) := by
  simp [prepend]

@[simp] theorem lexemes_prepend (ts : List Token) (l : TokenList) :
    (l.prepend ts).lexemes = ts.map Token.lexeme ++ l.lexemes := by
  simp [prepend, lexemes]

@[simp] theorem ending_prepend (ts : List Token) (l : TokenList) :
    (l.prepend ts).ending = l.ending := rfl

end TokenList

/-! ## The front of a text -/

theorem ofChars_of_token {position : Nat} {cs rest : List Char} {t : Token}
    (h : Reading.ofChars position cs = .token t rest) :
    TokenList.ofChars position cs = (TokenList.ofChars t.stop rest).prepend [t] := by
  rw [TokenList.ofChars]
  split <;> simp_all [TokenList.prepend]

theorem ofChars_nil (position : Nat) :
    TokenList.ofChars position [] = ⟨[], .endOfText position⟩ := by
  rw [TokenList.ofChars]
  rfl

/-- A blank is skipped. -/
theorem ofChars_blank (position : Nat) {c : Char} (cs : List Char) (h : c.isWhitespace = true) :
    TokenList.ofChars position (c :: cs) = TokenList.ofChars (position + 1) cs := by
  have hr : Reading.ofChars position (c :: cs) = Reading.ofChars (position + 1) cs := by
    unfold Reading.ofChars
    simp only [List.takeWhile_cons, h, List.dropWhile_cons, ↓reduceIte, List.length_cons]
    rw [Nat.add_assoc, Nat.add_comm 1]
  rw [TokenList.ofChars, TokenList.ofChars]
  split <;> rename_i h₁ <;> rw [hr] at h₁ <;> split <;> simp_all

theorem reading_of_first {position : Nat} {c : Char} {cs : List Char} {cut : Cut}
    (hc : c.isWhitespace = false) (h : Cut.first c cs = .ok cut) :
    Reading.ofChars position (c :: cs) =
      .token ⟨cut.kind, String.ofList cut.lexeme, position⟩ cut.rest := by
  simp [Reading.ofChars, hc, h]

/-- What the scanner cuts off first is the first token. -/
theorem ofChars_of_first (position : Nat) {c : Char} {cs : List Char} {cut : Cut}
    (hc : c.isWhitespace = false) (h : Cut.first c cs = .ok cut) :
    TokenList.ofChars position (c :: cs) =
      (TokenList.ofChars (position + byteSize cut.lexeme) cut.rest).prepend
        [⟨cut.kind, String.ofList cut.lexeme, position⟩] := by
  rw [ofChars_of_token (reading_of_first hc h), Token.stop, utf8ByteSize_ofList]

theorem isWhitespace_of_isLexeme {kind : TokenKind} {c : Char} {cs : List Char}
    (h : IsLexeme kind (c :: cs)) : c.isWhitespace = false := by
  cases kind with
  | parenLeft | parenRight | comma | plus | minus | asterisk | slash =>
    cases h
    rfl
  | integer => exact isWhitespace_eq_false_of Char.isDigit (h.2 c List.mem_cons_self) rfl
  | float =>
    obtain ⟨whole, fraction, heq, hwhole, -⟩ := h
    cases whole with
    | nil =>
      cases heq
      rfl
    | cons w ws =>
      cases heq
      exact isWhitespace_eq_false_of Char.isDigit (hwhole c List.mem_cons_self) rfl
  | string =>
    obtain ⟨contents, heq, -⟩ := h
    cases heq
    rfl
  | identifier =>
    obtain ⟨d, ds, heq, hd, -⟩ := h
    cases heq
    exact isWhitespace_eq_false_of isNameStart hd rfl
  | path =>
    obtain ⟨name, more, heq, -, ⟨d, ds, rfl, hd, -⟩, -⟩ := h
    cases heq
    exact isWhitespace_eq_false_of isNameStart hd rfl
  | parameter =>
    rcases h with ⟨name, heq, -⟩ | ⟨digits, heq, -⟩ <;> cases heq <;> rfl

theorem ne_nil_of_isLexeme {kind : TokenKind} {cs : List Char} (h : IsLexeme kind cs) :
    cs ≠ [] := by
  rintro rfl
  cases kind with
  | parenLeft | parenRight | comma | plus | minus | asterisk | slash => cases h
  | integer => exact h.1 rfl
  | float => obtain ⟨whole, _, heq, _⟩ := h; cases whole <;> cases heq
  | string => obtain ⟨_, heq, _⟩ := h; cases heq
  | identifier => obtain ⟨_, _, heq, _⟩ := h; cases heq
  | path => obtain ⟨_, _, heq, _, ⟨_, _, rfl, _⟩, _⟩ := h; cases heq
  | parameter => rcases h with ⟨_, heq, _⟩ | ⟨_, heq, _⟩ <;> cases heq

/-- A lexeme before a delimited text is the first token. -/
theorem ofChars_of_lexeme {kind : TokenKind} {text : String} (h : IsLexeme kind text.toList)
    (position : Nat) {rest : List Char} (hr : Delimited rest) :
    TokenList.ofChars position (text.toList ++ rest) =
      (TokenList.ofChars (position + text.utf8ByteSize) rest).prepend [⟨kind, text, position⟩] := by
  obtain ⟨c, ds, hcs⟩ := List.exists_cons_of_ne_nil (ne_nil_of_isLexeme h)
  rw [hcs] at h
  have hfirst := ofChars_of_first position (isWhitespace_of_isLexeme h) (first_of_isLexeme h hr)
  rw [← List.cons_append, ← hcs, ← utf8ByteSize_eq_byteSize, String.ofList_toList] at hfirst
  exact hfirst

/-! ## Only lexemes are read -/

theorem ofChars_valid (position : Nat) (cs : List Char) :
    ∀ t ∈ (TokenList.ofChars position cs).tokens, t.lexeme.Valid := by
  fun_induction TokenList.ofChars position cs with
  | case1 position cs t rest h after ih =>
    intro u hu
    rcases List.mem_cons.1 hu with rfl | hu
    · unfold Reading.ofChars at h
      split at h
      · cases h
      · split at h <;> cases h
        rename_i hcut
        simpa [Token.lexeme, Lexeme.Valid] using isLexeme_of_first hcut
    · exact ih u hu
  | case2 | case3 | case4 =>
    intro u hu
    cases hu

/-- Every token of a text is a lexeme of its kind. -/
theorem valid_of_mem_ofText {text : String} {l : Lexeme}
    (h : l ∈ (TokenList.ofText text).lexemes) : l.Valid := by
  obtain ⟨t, ht, rfl⟩ := List.mem_map.1 h
  exact ofChars_valid 0 text.toList t ht

/-! ## Pieces of text -/

/-- Whatever text of the class `follow` comes after the characters `cs`, they read as the lexemes
`ls`, and reading goes on with that text. -/
def Reads (cs : List Char) (ls : List Lexeme) (follow : List Char → Prop) : Prop :=
  ∀ position rest, follow rest → ∃ tokens, tokens.map Token.lexeme = ls ∧
    TokenList.ofChars position (cs ++ rest) =
      (TokenList.ofChars (position + byteSize cs) rest).prepend tokens

/-- Any text may follow. -/
def Anything (_rest : List Char) : Prop := True

namespace Reads

variable {cs ds : List Char} {ls ms : List Lexeme} {p q : List Char → Prop}

theorem mono (h : Reads cs ls p) (hpq : ∀ rest, q rest → p rest) : Reads cs ls q :=
  fun position rest hr => h position rest (hpq rest hr)

/-- Two pieces that meet without a lexeme running over the seam. -/
theorem append (h₁ : Reads cs ls p) (h₂ : Reads ds ms q) (hseam : ∀ rest, q rest → p (ds ++ rest)) :
    Reads (cs ++ ds) (ls ++ ms) q := by
  intro position rest hr
  obtain ⟨ts, hts, he₁⟩ := h₁ position (ds ++ rest) (hseam rest hr)
  obtain ⟨us, hus, he₂⟩ := h₂ (position + byteSize cs) rest hr
  refine ⟨ts ++ us, by rw [List.map_append, hts, hus], ?_⟩
  rw [List.append_assoc, he₁, he₂, TokenList.prepend_prepend, byteSize_append, Nat.add_assoc]

theorem nil : Reads [] [] Anything := by
  intro position rest _
  exact ⟨[], rfl, rfl⟩

theorem blank : Reads [' '] [] Anything := by
  intro position rest _
  exact ⟨[], rfl, ofChars_blank position rest rfl⟩

/-- A token of one character needs nothing special after it. -/
theorem punctuation {c : Char} {kind : TokenKind} (h : punctuation? c = some kind) :
    Reads [c] [⟨kind, String.singleton c⟩] Anything := by
  intro position rest _
  have hc : c.isWhitespace = false := isWhitespace_of_isLexeme (isLexeme_punctuation h)
  have hfirst := ofChars_of_first position hc (first_of_punctuation h rest)
  exact ⟨_, rfl, hfirst⟩

/-- A lexeme needs a delimited text after it. -/
theorem lexeme {kind : TokenKind} {text : String} (h : IsLexeme kind text.toList) :
    Reads text.toList [⟨kind, text⟩] Delimited := by
  intro position rest hr
  rw [← utf8ByteSize_eq_byteSize]
  exact ⟨_, rfl, ofChars_of_lexeme h position hr⟩

/-- A whole text reads as the lexemes of its pieces, and ends after them. -/
theorem lexemes_ofText {text : String} (h : Reads text.toList ls p) (hp : p []) :
    (TokenList.ofText text).lexemes = ls ∧
      (TokenList.ofText text).ending = .endOfText text.utf8ByteSize := by
  obtain ⟨tokens, htokens, he⟩ := h 0 [] hp
  rw [List.append_nil, ofChars_nil] at he
  rw [TokenList.ofText, he, utf8ByteSize_eq_byteSize]
  exact ⟨by simp [TokenList.lexemes, TokenList.prepend, htokens], by simp⟩

end Reads

end Dql
