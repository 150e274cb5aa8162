import Dql.Proofs.Parsing
import Dql.Proofs.Positions
import Dql.Proofs.Viability

/-!
# Errors at the earliest token

A parse error points at the first token by which the text cannot go on as an expression: the tokens
before it could still be completed, and with it they cannot. There are two exceptions, where a name
is only found wrong by the token after it.

* `Expected.LooksBeyond` - the errors given for a name because of the token after it;
* `Reached` - parsing could get to a byte offset: up to there all is readable and can be completed;
* `ParseError.Earliest` - what each kind of error promises.

Principal result: `earliest_of_parse_error`.
-/

namespace Dql

variable {catalog : Catalog} {text : String}

/-! ## What errors promise -/

/-- The errors that are given for a name because of the token after it: where the function that it
calls is not known, and where only what may stand for a string is accepted. -/
def Expected.LooksBeyond (expected : Expected) (t : Token) : Prop :=
  expected = .knownFunction ∨ expected = .primary .string ∧ t.kind = .identifier

instance (expected : Expected) (t : Token) : Decidable (expected.LooksBeyond t) :=
  inferInstanceAs (Decidable (_ ∨ _))

/-- The lexemes of tokens. -/
def lexemesOf (ts : List Token) : List Lexeme := ts.map Token.lexeme

/-- Before a byte offset no lexeme is wrong, and the tokens before it can be completed. -/
def Reached (catalog : Catalog) (text : String) (position : Nat) : Prop :=
  (∀ e, (TokenList.ofText text).ending = .fault e → position ≤ e.position) ∧
    Viable catalog (lexemesOf ((TokenList.ofText text).before position))

/-- The tokens without the last one if that is a name, which is not taken before the token after it
is seen. -/
def TokenList.withoutLastName (l : TokenList) : List Token :=
  if l.tokens.getLast?.map Token.kind = some .identifier then l.tokens.dropLast else l.tokens

/-- What an error promises about the text. The whole text is no sentence, if its end was found; or
the tokens up to the one that was found cannot be completed. A lexical error is the first one, and
the tokens before it can be completed. -/
def ParseError.Earliest (catalog : Catalog) (text : String) (err : ParseError) : Prop :=
  let list := TokenList.ofText text
  match err with
  | .mismatch position _ none =>
    Reached catalog text position ∧ position = text.utf8ByteSize ∧ ReadsToEnd text ∧
      ¬ Sentence catalog list.lexemes
  | .mismatch position expected (some found) =>
    Reached catalog text position ∧ ∃ t after, list.tokens = list.before position ++ t :: after ∧
      t.start = position ∧ t.text = found ∧
      if expected.LooksBeyond t then
        match after with
        | [] => ReadsToEnd text ∧ ¬ Sentence catalog (lexemesOf (list.before position ++ [t]))
        | u :: _ => ¬ Viable catalog (lexemesOf (list.before position ++ [t, u]))
      else ¬ Viable catalog (lexemesOf (list.before position ++ [t]))
  | .lexical e => list.ending = .fault e ∧ Viable catalog (lexemesOf list.withoutLastName)
  | .tooDeep position => Reached catalog text position

/-! ## What cannot be completed -/

/-- Lexemes as tokens at no place in particular. -/
def tokensOf (ls : List Lexeme) : List Token := ls.map fun l => ⟨l.kind, l.text, 0⟩

theorem lexemesOf_tokensOf (ls : List Lexeme) : lexemesOf (tokensOf ls) = ls := by
  rw [lexemesOf, tokensOf, List.map_map]
  exact List.map_id ls

theorem lexemesOf_append (ts us : List Token) :
    lexemesOf (ts ++ us) = lexemesOf ts ++ lexemesOf us :=
  List.map_append

/-- Where a mismatch was found, no sentence starts like the text. If one did, a parser with room for
it would accept it; but it finds the same mismatch, since up to there it sees the same. -/
theorem not_sentence_of_mismatch {f : Failure} {s s' : Progress} {taken : List Token}
    (h : wholeExpression catalog s = .error f s') (hlist : s.list = s'.list.prepend taken)
    (hmismatch : f.error.IsMismatch) (rest : TokenList) (hend : ∃ n, rest.ending = .endOfText n)
    (hrest : rest.lookahead = s'.list.lookahead)
    (hbeyond : f.error.LooksBeyond s'.list → rest.tail.lookahead = s'.list.tail.lookahead) :
    ¬ Sentence catalog (lexemesOf taken ++ rest.lexemes) := by
  rintro ⟨d⟩
  obtain ⟨taken', htakes, -, hreplay⟩ :=
    (wholeWithin_replays (Nat.le_max_left maxNesting d.nesting) s).error h
  obtain rfl : taken' = taken :=
    List.append_cancel_right (congrArg TokenList.tokens (htakes.list.symm.trans hlist))
  let again : Progress := { stream := ⟨taken' ++ rest.tokens, rest.ending, 0⟩ }
  obtain ⟨g, s₁, herror, -⟩ := hreplay rest again hrest hbeyond rfl hmismatch
  have hlexemes : again.lexemes = lexemesOf taken' ++ rest.lexemes := List.map_append
  obtain ⟨s₂, hok⟩ := d.wholeWithin_ok (Nat.le_max_right maxNesting d.nesting) hlexemes hend
  rw [herror] at hok
  cases hok

/-- Nor can these tokens be completed, if they look the same whatever comes after them. -/
theorem not_viable_of_mismatch {f : Failure} {s s' : Progress} {taken seen : List Token}
    (h : wholeExpression catalog s = .error f s') (hlist : s.list = s'.list.prepend taken)
    (hmismatch : f.error.IsMismatch)
    (hseen : ∀ more, TokenList.lookahead ⟨seen ++ more, .endOfText 0⟩ = s'.list.lookahead)
    (hbeyond : f.error.LooksBeyond s'.list → ∀ more,
      TokenList.lookahead ⟨(seen ++ more).tail, .endOfText 0⟩ = s'.list.tail.lookahead) :
    ¬ Viable catalog (lexemesOf (taken ++ seen)) := by
  rintro ⟨more, -, hsentence⟩
  refine not_sentence_of_mismatch h hlist hmismatch ⟨seen ++ tokensOf more, .endOfText 0⟩
    ⟨0, rfl⟩ (hseen _) (fun hb => hbeyond hb _) ?_
  have hlexemes : TokenList.lexemes ⟨seen ++ tokensOf more, .endOfText 0⟩ =
      lexemesOf seen ++ more :=
    (lexemesOf_append seen _).trans (by rw [lexemesOf_tokensOf])
  rwa [hlexemes, ← List.append_assoc, ← lexemesOf_append]

/-! ## The tokens before an error -/

/-- What was taken before something is seen are the tokens before it. -/
theorem before_of_lookahead {taken : List Token} {l : TokenList} {seen : Ahead}
    (hlist : TokenList.ofText text = l.prepend taken) (hseen : l.lookahead = .ok seen) :
    (TokenList.ofText text).before seen.position = taken ∧
      ∀ e, (TokenList.ofText text).ending = .fault e → seen.position ≤ e.position := by
  have horder := ofChars_inOrder 0 text.toList
  rw [← TokenList.ofText, hlist] at horder
  have hposition : seen.position = (l.tokens.head?.map Token.start).getD l.ending.position ∧
      seen.position ≤ l.ending.position := by
    cases seen with
    | endOfText n =>
      rw [TokenList.eq_of_lookahead_endOfText hseen]
      exact ⟨rfl, Nat.le_refl _⟩
    | token t =>
      obtain ⟨position, -, hahead, -⟩ := horder.append
      rw [TokenList.eq_prepend_of_lookahead hseen] at hahead ⊢
      obtain ⟨-, hstop, hahead⟩ := hahead
      exact ⟨rfl, Nat.le_trans (Nat.le_of_lt hstop) hahead.le_ending⟩
  rw [TokenList.before, hlist]
  refine ⟨horder.filter_start_lt hposition.1, fun e he => ?_⟩
  rw [show l.ending = .fault e from he] at hposition
  exact hposition.2

/-- **Parsing got to where the error is.** -/
theorem reached_of_lookahead {taken : List Token} {l : TokenList} {seen : Ahead}
    (hlist : TokenList.ofText text = l.prepend taken) (hseen : l.lookahead = .ok seen)
    (hviable : Viable catalog (lexemesOf taken)) : Reached catalog text seen.position := by
  obtain ⟨hbefore, hfault⟩ := before_of_lookahead hlist hseen
  exact ⟨hfault, by rwa [hbefore]⟩

/-- What was taken of a text before a failure, and where the failure is. -/
theorem exists_taken_of_error {f : Failure} {s s' : Progress}
    (h : wholeExpression catalog s = .error f s') :
    ∃ taken, s.list = s'.list.prepend taken ∧ f.error.StopsAt s'.list ∧
      Viable catalog (lexemesOf taken) := by
  obtain ⟨ls, hls, hviable⟩ := viable_of_wholeExpression h
  obtain ⟨taken, htakes, hstops, -⟩ := (wholeWithin_replays (Nat.le_refl _) s).error h
  have hlexemes : s.lexemes = lexemesOf taken ++ s'.lexemes := by
    rw [show s.lexemes = s.list.lexemes from rfl, htakes.list]
    exact TokenList.lexemes_prepend taken s'.list
  rw [List.append_cancel_right (hls.symm.trans hlexemes)] at hviable
  exact ⟨taken, htakes.list, hstops, hviable⟩

/-- A lexical error is the first one of the text, and only a name before it may not be taken. -/
theorem lexical_earliest {taken : List Token} {l : TokenList} {cause : LexicalError}
    (hlist : TokenList.ofText text = l.prepend taken)
    (hstops : (ParseError.lexical cause).StopsAt l) (hviable : Viable catalog (lexemesOf taken)) :
    (ParseError.lexical cause).Earliest catalog text := by
  rcases hstops with h | ⟨t, ht, hname, h⟩
  · have hl := TokenList.eq_of_lookahead_error h
    have htokens : (TokenList.ofText text).tokens = taken := by
      rw [hlist, hl]
      exact List.append_nil taken
    refine ⟨by rw [hlist, hl]; rfl, ?_⟩
    rw [TokenList.withoutLastName, htokens]
    split
    · obtain ⟨last, hlast⟩ := List.dropLast_prefix taken
      rw [← hlast, lexemesOf_append] at hviable
      have hmem : ∀ m ∈ lexemesOf last, m ∈ (TokenList.ofText text).lexemes := by
        intro m hm
        rw [TokenList.lexemes, htokens, ← hlast, List.map_append]
        exact List.mem_append_right _ hm
      exact hviable.of_append fun m hm => valid_of_mem_ofText (hmem m hm)
    · exact hviable
  · have hl := TokenList.eq_prepend_of_lookahead ht
    rw [TokenList.eq_of_lookahead_error h] at hl
    have htokens : (TokenList.ofText text).tokens = taken ++ [t] := by
      rw [hlist, hl]
      rfl
    refine ⟨by rw [hlist, hl]; rfl, ?_⟩
    rw [TokenList.withoutLastName, htokens, List.getLast?_concat, Option.map_some, hname,
      if_pos rfl, List.dropLast_concat]
    exact hviable

section Mismatch

variable {f : Failure} {s' : Progress} {taken : List Token} {expected : Expected}

/-- Where the end of the text is found, the whole text is no sentence. -/
theorem endOfText_earliest {n : Nat}
    (hparse : wholeExpression catalog (.ofText text) = .error f s')
    (hlist : TokenList.ofText text = s'.list.prepend taken)
    (hviable : Viable catalog (lexemesOf taken)) (herr : f.error = mismatch expected (.endOfText n))
    (hseen : s'.list.lookahead = .ok (.endOfText n)) : f.error.Earliest catalog text := by
  have hreached := reached_of_lookahead hlist hseen hviable
  have hrest := TokenList.eq_of_lookahead_endOfText hseen
  have hend : (TokenList.ofText text).ending = .endOfText n := by rw [hlist, hrest]; rfl
  have hsize : n = text.utf8ByteSize := by
    rw [position_of_endOfText hend, Nat.zero_add, utf8ByteSize_eq_byteSize]
  have hnot : ¬ Sentence catalog (TokenList.ofText text).lexemes := by
    rw [hlist, TokenList.lexemes_prepend]
    exact not_sentence_of_mismatch hparse hlist (herr ▸ trivial) s'.list ⟨n, by rw [hrest]⟩ rfl
      fun _ => rfl
  rw [herr]
  exact ⟨hreached, hsize, ⟨n, hend⟩, hnot⟩

theorem looksBeyond_mismatch_iff {t : Token} {l : TokenList}
    (hseen : l.lookahead = .ok (.token t)) :
    (mismatch expected (.token t)).LooksBeyond l ↔ expected.LooksBeyond t := by
  simp [mismatch, ParseError.LooksBeyond, Expected.LooksBeyond, hseen]

/-- Where a token is found, what is up to it cannot be completed, or, for a name, what is up to the
token after it. -/
theorem token_earliest {t : Token}
    (hparse : wholeExpression catalog (.ofText text) = .error f s')
    (hlist : TokenList.ofText text = s'.list.prepend taken)
    (hviable : Viable catalog (lexemesOf taken)) (herr : f.error = mismatch expected (.token t))
    (hstops : f.error.StopsAt s'.list) (hseen : s'.list.lookahead = .ok (.token t)) :
    f.error.Earliest catalog text := by
  have hreached := reached_of_lookahead hlist hseen hviable
  obtain ⟨hbefore, -⟩ := before_of_lookahead hlist hseen
  have hrest := TokenList.eq_prepend_of_lookahead hseen
  have hmismatch : f.error.IsMismatch := herr ▸ trivial
  have hlooks : f.error.LooksBeyond s'.list ↔ expected.LooksBeyond t := by
    rw [herr]
    exact looksBeyond_mismatch_iff hseen
  obtain ⟨-, hsecond⟩ : _ ∧ (f.error.LooksBeyond s'.list → _) := by
    rw [herr] at hstops ⊢
    exact hstops
  rw [herr]
  refine ⟨hreached, t, s'.list.tail.tokens, ?_, rfl, rfl, ?_⟩
  · rw [hbefore, hlist]
    exact congrArg (taken ++ ·) (congrArg TokenList.tokens hrest)
  rw [hbefore]
  split
  · rename_i hbeyond
    obtain ⟨second, hsecond⟩ := hsecond (hlooks.2 hbeyond)
    cases hafter : s'.list.tail.tokens with
    | nil =>
      -- no token comes after the name, and it is no error to look there, so the text ends there
      have hend : ∃ n, s'.list.ending = .endOfText n := by
        cases second with
        | token u =>
          rw [TokenList.eq_prepend_of_lookahead hsecond] at hafter
          cases hafter
        | endOfText n =>
          exact ⟨n, congrArg TokenList.ending (TokenList.eq_of_lookahead_endOfText hsecond)⟩
      have hlexemes : s'.list.lexemes = lexemesOf [t] := by
        rw [hrest, TokenList.prepend, hafter]
        rfl
      refine ⟨hend.imp fun n hn => by rw [hlist]; exact hn, ?_⟩
      rw [lexemesOf_append, ← hlexemes]
      exact not_sentence_of_mismatch hparse hlist hmismatch s'.list hend rfl fun _ => rfl
    | cons u us =>
      have hu : s'.list.tail.lookahead = .ok (.token u) := by
        simp only [TokenList.lookahead, Stream.lookahead, hafter]
      exact not_viable_of_mismatch hparse hlist hmismatch (fun _ => hseen.symm) fun _ _ => hu.symm
  · rename_i hnear
    exact not_viable_of_mismatch hparse hlist hmismatch (fun _ => hseen.symm)
      fun hb => absurd (hlooks.1 hb) hnear

end Mismatch

/-! ## Errors -/

/-- **Errors are reported at the earliest possible token.** What comes before the error can be read
and completed. What is found there cannot be, or, where the error is about a name for what comes
after it, cannot be together with that. -/
theorem earliest_of_parse_error {err : ParseError} (h : (parse catalog text).1 = .error err) :
    err.Earliest catalog text := by
  obtain ⟨f, s', hparse, rfl⟩ := parse_eq_error_iff.1 h
  obtain ⟨taken, hlist, hstops, hviable⟩ := exists_taken_of_error hparse
  cases herr : f.error with
  | lexical cause =>
    rw [herr] at hstops
    exact lexical_earliest hlist hstops hviable
  | tooDeep position =>
    rw [herr] at hstops
    obtain ⟨seen, hseen, rfl⟩ := hstops
    exact reached_of_lookahead hlist hseen hviable
  | mismatch position expected found =>
    obtain ⟨⟨seen, hseen, heq⟩, -⟩ : (∃ seen, s'.list.lookahead = .ok seen ∧
        f.error = mismatch expected seen) ∧ _ := by
      rw [herr] at hstops ⊢
      exact hstops
    rw [← herr]
    cases seen with
    | endOfText n => exact endOfText_earliest hparse hlist hviable heq hseen
    | token t => exact token_earliest hparse hlist hviable heq hstops hseen

/-- A closing parenthesis where an operand is due: what is before it could go on, but not so. -/
theorem earliest_of_parse_error_operand :
    (parse .empty "1 + )").1 = .error (.mismatch 4 (.primary .arithmetic) (some ")")) ∧
      Viable .empty [⟨.integer, "1"⟩, ⟨.plus, "+"⟩] ∧
      ¬ Viable .empty [⟨.integer, "1"⟩, ⟨.plus, "+"⟩, ⟨.parenRight, ")"⟩] := by
  have hrun : (match (parse .empty "1 + )").1 with
      | .ok _ => none
      | .error e => some e) = some (.mismatch 4 (.primary .arithmetic) (some ")")) := by
    decide +kernel
  have h : (parse .empty "1 + )").1 = .error (.mismatch 4 (.primary .arithmetic) (some ")")) := by
    split at hrun
    · cases hrun
    · rename_i e he
      rw [he, Option.some.inj hrun]
  obtain ⟨⟨-, hviable⟩, t, after, htokens, -, -, hnot⟩ := earliest_of_parse_error h
  have hbefore : (TokenList.ofText "1 + )").before 4 = [⟨.integer, "1", 0⟩, ⟨.plus, "+", 2⟩] := by
    decide +kernel
  have hall : (TokenList.ofText "1 + )").tokens =
      [⟨.integer, "1", 0⟩, ⟨.plus, "+", 2⟩, ⟨.parenRight, ")", 4⟩] := by
    decide +kernel
  rw [hbefore] at hviable htokens hnot
  rw [hall] at htokens
  cases htokens
  exact ⟨h, hviable, hnot⟩

end Dql
