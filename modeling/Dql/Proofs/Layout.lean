import Mathlib.Data.List.Basic
import Dql.Proofs.Lookahead
import Dql.Proofs.Mirroring
import Dql.Proofs.Parsing
import Dql.Proofs.Positions

/-!
# Layout and the letter case of function names

What a text compiles to is decided by its tokens and not by the blanks between them, and the name of
a call may be written in any letter case. Only the byte offsets that errors point to depend on where
the tokens stand, and only the text that an error shows on how it is written.

* `TokenList.offset` - where a token stands, by its index;
* `ParseError.SameAt` - errors of the same kind about the same token.

Principal result: `compile_ignores_layout_and_case`.
-/

namespace Dql

/-- The byte offset of the token with this index, or, after the last one, of what comes there. -/
def TokenList.offset (l : TokenList) (i : Nat) : Nat :=
  (l.tokens[i]?.map Token.start).getD l.ending.position

/-- Errors about two texts: both say the same, and they say it about the tokens with the same index,
or both about the ends of the texts. What is found there is the same if letter case is ignored. -/
inductive ParseError.SameAt (l l' : TokenList) : ParseError → ParseError → Prop where
  | mismatch (i : Nat) (expected : Expected)
      (sameText : (l.tokens[i]?.map fun t => foldCase t.text) =
        l'.tokens[i]?.map fun t => foldCase t.text) :
      SameAt l l' (.mismatch (l.offset i) expected (l.tokens[i]?.map Token.text))
        (.mismatch (l'.offset i) expected (l'.tokens[i]?.map Token.text))
  | tooDeep (i : Nat) : SameAt l l' (.tooDeep (l.offset i)) (.tooDeep (l'.offset i))

/-- What is seen after some tokens is the one with the next index. -/
theorem seen_after {l rest : TokenList} {taken : List Token} {seen : Ahead}
    (hl : l = rest.prepend taken) (hseen : rest.lookahead = .ok seen) :
    seen.token? = l.tokens[taken.length]? ∧ seen.position = l.offset taken.length := by
  cases seen with
  | token t =>
    have hget : l.tokens[taken.length]? = some t := by
      rw [hl, TokenList.eq_prepend_of_lookahead hseen]
      simp [TokenList.prepend]
    exact ⟨hget.symm, by rw [TokenList.offset, hget]; rfl⟩
  | endOfText n =>
    have hrest := TokenList.eq_of_lookahead_endOfText hseen
    have hget : l.tokens[taken.length]? = none := by
      rw [hl, hrest]
      simp [TokenList.prepend]
    have hending : l.ending = .endOfText n := by rw [hl, hrest]; rfl
    exact ⟨hget.symm, by rw [TokenList.offset, hget, hending]; rfl⟩

/-- Errors that are alike are about the tokens with the same index. -/
theorem sameAt_of_errorsAlike {l l' : TokenList} {taken taken' : List Token} {s s' : Progress}
    {e e' : ParseError} (hl : l = s.list.prepend taken) (hl' : l' = s'.list.prepend taken')
    (hlength : taken.length = taken'.length) (hs : Mirrors none s s')
    (he : ErrorsAlike s s' e e') : ParseError.SameAt l l' e e' := by
  obtain ⟨seen, seen', hseen, hseen', herror⟩ := he
  obtain ⟨htoken, hposition⟩ := seen_after hl hseen
  obtain ⟨htoken', hposition'⟩ := seen_after hl' hseen'
  rw [← hlength] at htoken' hposition'
  have htext := hs.seen hseen hseen'
  obtain ⟨expected, rfl, rfl⟩ | ⟨rfl, rfl⟩ := herror
  · rw [mismatch, mismatch, hposition, hposition', htoken, htoken']
    rw [htoken, htoken'] at htext
    exact .mismatch taken.length expected htext
  · rw [hposition, hposition']
    exact .tooDeep taken.length

/-- **Layout and the letter case of function names do not matter.** If two texts can be read to
their ends and have the same tokens, but for the letter case of names right before an opening
parenthesis, then under every catalog and in every style both compile to the same SQL, or both fail
with the same error, about the same token. -/
theorem compile_ignores_layout_and_case (catalog : Catalog) (style : Style) {text text' : String}
    (hread : ReadsToEnd text) (hread' : ReadsToEnd text')
    (halike : Alike (TokenList.ofText text).lexemes (TokenList.ofText text').lexemes) :
    (∃ sql, (compile catalog style text).1 = .ok sql ∧ (compile catalog style text').1 = .ok sql) ∨
      ∃ err err', (compile catalog style text).1 = .error err ∧
        (compile catalog style text').1 = .error err' ∧
        ParseError.SameAt (TokenList.ofText text) (TokenList.ofText text') err err' := by
  have hs : Mirrors none (.ofText text) (.ofText text') := by
    refine ⟨⟨[], ?_, fun _ => rfl⟩, fun _ => ⟨hread, hread'⟩, nofun⟩
    rw [List.append_nil]
    exact halike
  have houtcome : MirroredAt none Eq (wholeExpression catalog) (wholeExpression catalog)
      (.ofText text) (.ofText text') := wholeExpression_mirrored _ _ hs
  cases houtcome with
  | @ok e _ s₁ s₁' run run' related =>
    subst related
    left
    have hparse : (parse catalog text).1 = .ok e := parse_eq_ok_iff_run.2 ⟨_, run⟩
    have hparse' : (parse catalog text').1 = .ok e := parse_eq_ok_iff_run.2 ⟨_, run'⟩
    exact ⟨e.toSql style, compile_eq_ok_iff.2 ⟨e, hparse, rfl⟩,
      compile_eq_ok_iff.2 ⟨e, hparse', rfl⟩⟩
  | @error f f' s₁ s₁' run run' alike after =>
    right
    have herror := parse_eq_error_iff.2 ⟨f, s₁, run, rfl⟩
    have herror' := parse_eq_error_iff.2 ⟨f', s₁', run', rfl⟩
    refine ⟨f.error, f'.error, compile_eq_error_iff.2 herror, compile_eq_error_iff.2 herror', ?_⟩
    obtain ⟨taken, htakes, -⟩ := (wholeWithin_replays (Nat.le_refl maxNesting) _).error run
    obtain ⟨taken', htakes', -⟩ := (wholeWithin_replays (Nat.le_refl maxNesting) _).error run'
    refine sameAt_of_errorsAlike htakes.list htakes'.list ?_ after alike
    -- of as many tokens in all, as many are left
    have hall := hs.length_eq
    have hahead := after.length_eq
    have hlength := htakes.length_eq
    have hlength' := htakes'.length_eq
    omega
  | broken hcut => cases hcut

/-- An unknown function, once after a blank and in lower case: the errors are about the same
token. -/
theorem compile_ignores_layout_and_case_unknown :
    (compile .defaults {} " foo (u.a)").1 = .error (.mismatch 1 .knownFunction (some "foo")) ∧
      (compile .defaults {} "Foo( u.a )").1 = .error (.mismatch 0 .knownFunction (some "Foo")) ∧
      ParseError.SameAt (TokenList.ofText " foo (u.a)") (TokenList.ofText "Foo( u.a )")
        (.mismatch 1 .knownFunction (some "foo")) (.mismatch 0 .knownFunction (some "Foo")) := by
  have h : (compile .defaults {} " foo (u.a)").1 =
      .error (.mismatch 1 .knownFunction (some "foo")) := by decide +kernel
  have h' : (compile .defaults {} "Foo( u.a )").1 =
      .error (.mismatch 0 .knownFunction (some "Foo")) := by decide +kernel
  have hread : ReadsToEnd " foo (u.a)" := ⟨10, by decide +kernel⟩
  have hread' : ReadsToEnd "Foo( u.a )" := ⟨10, by decide +kernel⟩
  have halike : Alike (TokenList.ofText " foo (u.a)").lexemes
      (TokenList.ofText "Foo( u.a )").lexemes := by decide +kernel
  obtain ⟨sql, hok, -⟩ | ⟨err, err', herr, herr', hsame⟩ :=
    compile_ignores_layout_and_case .defaults {} hread hread' halike
  · rw [h] at hok
    cases hok
  · obtain rfl := Except.error.inj (herr.symm.trans h)
    obtain rfl := Except.error.inj (herr'.symm.trans h')
    exact ⟨h, h', hsame⟩

end Dql
