import Dql.Proofs.LongestLexeme
import Dql.Proofs.Parsing
import Dql.Proofs.Positions

/-!
# Reading more text after a text

A text that is read to its end reads the same if a delimited text comes after it: no lexeme of it
goes on there, and what was cut off first is still the longest.

* `first_append` - the first cut of a longer text;
* `reads_of_endOfText` - all of them.

Principal result: `ReadsToEnd.reads`.
-/

namespace Dql

variable {kind : TokenKind} {c : Char} {cs front rest : List Char}

/-- After their first character lexemes other than literals go on with names, numbers and dots. -/
theorem inner_of_isLexeme (h : IsLexeme kind (c :: cs)) (hc : c ≠ '\'') :
    ∀ d ∈ cs, isNamePart d = true ∨ d = '.' := by
  have hdigits : ∀ {ds : List Char}, (∀ d ∈ ds, d.isDigit = true) →
      ∀ d ∈ ds, isNamePart d = true ∨ d = '.' :=
    fun h d hd => .inl (isNamePart_of_isDigit (h d hd))
  have hname : ∀ {ds : List Char}, NameText ds → ∀ d ∈ ds, isNamePart d = true ∨ d = '.' := by
    rintro _ ⟨e, es, rfl, he, hes⟩ d hd
    rcases List.mem_cons.1 hd with rfl | hd
    · exact .inl (isNamePart_of_isNameStart he)
    · exact .inl (hes d hd)
  cases kind with
  | parenLeft | parenRight | comma | plus | minus | asterisk | slash =>
    cases h
    exact nofun
  | integer => exact hdigits fun d hd => h.2 d (List.mem_cons_of_mem c hd)
  | float =>
    obtain ⟨whole, fraction, heq, hwhole, hfraction⟩ := h
    intro d hd
    have hmem : d ∈ whole ++ '.' :: fraction := heq ▸ List.mem_cons_of_mem c hd
    rcases List.mem_append.1 hmem with hd | hd
    · exact hdigits hwhole d hd
    · rcases List.mem_cons.1 hd with rfl | hd
      · exact .inr rfl
      · exact hdigits hfraction.2 d hd
  | string => exact absurd ((starts_with_quote_iff h).2 rfl) hc
  | identifier => exact fun d hd => hname h d (List.mem_cons_of_mem c hd)
  | path =>
    obtain ⟨name, more, heq, -, hfirst, hmore⟩ := h
    intro d hd
    have hmem : d ∈ name ++ dotted more := heq ▸ List.mem_cons_of_mem c hd
    rcases List.mem_append.1 hmem with hd | hd
    · exact hname hfirst d hd
    · obtain ⟨n, hn, hd⟩ := List.mem_flatMap.1 hd
      rcases List.mem_cons.1 hd with rfl | hd
      · exact .inr rfl
      · exact hname (hmore n hn) d hd
  | parameter =>
    rcases h with ⟨name, heq, h⟩ | ⟨digits, heq, h⟩ <;> cases heq
    · exact hname h
    · exact hdigits h.2

/-- No lexeme goes on in a delimited text. -/
theorem front_of_delimited (h : IsLexeme kind front) (hc : c ≠ '\'') (hr : Delimited rest)
    (hfront : front <+: c :: cs ++ rest) : front <+: c :: cs := by
  obtain hshort | ⟨more, rfl⟩ :=
    List.prefix_or_prefix_of_prefix hfront (List.prefix_append (c :: cs) rest)
  · exact hshort
  · cases more with
    | nil => simp
    | cons r more =>
      obtain ⟨after, heq⟩ := hfront
      have hrest : rest = r :: more ++ after := by simpa using heq.symm
      obtain ⟨hpart, hdot, -⟩ := hr r (by rw [hrest]; rfl)
      rcases inner_of_isLexeme h hc r (by simp) with hinner | hinner
      · rw [hpart] at hinner
        cases hinner
      · exact absurd hinner hdot

/-- **What is cut off first is cut off first of a longer text, too.** -/
theorem first_append {cut : Cut} (h : Cut.first c cs = .ok cut) (hr : Delimited rest) :
    Cut.first c (cs ++ rest) = .ok ⟨cut.kind, cut.lexeme, cut.rest ++ rest⟩ := by
  by_cases hc : c = '\''
  · subst hc
    rw [first_of_quote] at h
    split at h <;> cases h
    rename_i tail after htail
    obtain ⟨contents, rfl, hcontents, rfl, hafter⟩ := quotedTail_eq_some_iff.1 htail
    have hquote : (after ++ rest).head? ≠ some '\'' := by
      cases after with
      | nil => exact fun hq => absurd rfl (hr '\'' hq).2.2
      | cons => exact hafter
    rw [first_of_quote, quotedTail_eq_some_iff.2 ⟨contents, rfl, hcontents, by simp, hquote⟩]
  · have hall := Cut.first_append h
    have hlexeme := isLexeme_of_first h
    obtain ⟨d, ds, hds⟩ := List.exists_cons_of_ne_nil (Cut.lexeme_ne_nil_of_first h)
    rw [hds, List.cons_append, List.cons.injEq] at hall
    obtain ⟨rfl, hall⟩ := hall
    obtain ⟨cut', hcut', hlonger⟩ := first_of_front (hds ▸ hlexeme) hc (cut.rest ++ rest)
    rw [← List.append_assoc, hall] at hcut'
    -- the cut of the longer text lies in the shorter one, where `cut` is the longest
    have hall' := Cut.first_append hcut'
    have hinside := front_of_delimited (isLexeme_of_first hcut') hc hr ⟨_, hall'⟩
    have hsame : cut'.lexeme = cut.lexeme :=
      (front_of_first h hc (isLexeme_of_first hcut') hinside).eq_of_length_le
        (hds ▸ hlonger.length_le)
    have hkind := kind_unique (hsame ▸ isLexeme_of_first hcut') hlexeme
    have hrest : cut'.rest = cut.rest ++ rest := by
      rw [hsame, hds, List.cons_append, List.cons.injEq, ← hall, List.append_assoc,
        List.append_cancel_left_eq] at hall'
      exact hall'.2
    rw [hcut', ← hkind, ← hsame, ← hrest]

/-! ## All of a text -/

theorem ofChars_blanks {blanks : List Char} (h : ∀ c ∈ blanks, c.isWhitespace = true)
    (position : Nat) (cs : List Char) :
    TokenList.ofChars position (blanks ++ cs) =
      TokenList.ofChars (position + blanks.length) cs := by
  induction blanks generalizing position with
  | nil => rfl
  | cons c blanks ih =>
    obtain ⟨hc, hblanks⟩ := List.forall_mem_cons.1 h
    rw [List.cons_append, ofChars_blank position _ hc, ih hblanks, List.length_cons, Nat.add_assoc,
      Nat.add_comm 1]

/-- A token is what is cut off after some blanks. -/
theorem exists_cut_of_token {position : Nat} {t : Token} {after : List Char}
    (h : Reading.ofChars position cs = .token t after) :
    ∃ blanks d ds cut, (∀ b ∈ blanks, b.isWhitespace = true) ∧ cs = blanks ++ d :: ds ∧
      Cut.first d ds = .ok cut ∧ t.lexeme = ⟨cut.kind, String.ofList cut.lexeme⟩ ∧
      after = cut.rest := by
  have hcs := List.takeWhile_append_dropWhile (p := Char.isWhitespace) (l := cs)
  unfold Reading.ofChars at h
  split at h
  · cases h
  · rename_i d ds hd
    split at h <;> cases h
    rename_i cut hcut
    rw [hd] at hcs
    exact ⟨_, d, ds, cut, fun b hb => List.all_eq_true.1 List.all_takeWhile b hb, hcs.symm, hcut,
      rfl, rfl⟩

/-- Before the end of a text there are blanks only. -/
theorem blank_of_endOfText {position n : Nat} (h : Reading.ofChars position cs = .endOfText n) :
    ∀ c ∈ cs, c.isWhitespace = true := by
  unfold Reading.ofChars at h
  split at h
  · rename_i hd
    have hcs := List.takeWhile_append_dropWhile (p := Char.isWhitespace) (l := cs)
    rw [hd, List.append_nil] at hcs
    rw [← hcs]
    exact fun c hc => List.all_eq_true.1 List.all_takeWhile c hc
  · split at h <;> cases h

/-- What is cut off after some blanks is read before anything that the rest is read before. -/
theorem Reads.cut {blanks ds : List Char} {d : Char} {cut : Cut} {ls : List Lexeme}
    (hblanks : ∀ b ∈ blanks, b.isWhitespace = true) (hcut : Cut.first d ds = .ok cut)
    (h : Reads cut.rest ls Delimited) :
    Reads (blanks ++ d :: ds) (⟨cut.kind, String.ofList cut.lexeme⟩ :: ls) Delimited := by
  intro position rest hr
  have hall : d :: ds = cut.lexeme ++ cut.rest := (Cut.first_append hcut).symm
  obtain ⟨e, es, hes⟩ := List.exists_cons_of_ne_nil (Cut.lexeme_ne_nil_of_first hcut)
  have hd : d.isWhitespace = false := by
    have hlexeme := isLexeme_of_first hcut
    rw [hes, List.cons_append, List.cons.injEq] at hall
    rw [hes, ← hall.1] at hlexeme
    exact isWhitespace_of_isLexeme hlexeme
  obtain ⟨tokens, htokens, he⟩ :=
    h (position + blanks.length + byteSize cut.lexeme) rest hr
  refine ⟨⟨cut.kind, String.ofList cut.lexeme, position + blanks.length⟩ :: tokens, ?_, ?_⟩
  · rw [List.map_cons, htokens, Token.lexeme]
  · rw [List.append_assoc, ofChars_blanks hblanks, List.cons_append,
      ofChars_of_first _ hd (first_append hcut hr), he, TokenList.prepend_prepend, hall,
      byteSize_append, byteSize_append, byteSize_of_blank hblanks]
    simp only [Nat.add_assoc, List.singleton_append]

/-- **A text that is read to its end reads the same before a delimited text.** -/
theorem reads_of_endOfText {position n : Nat}
    (h : (TokenList.ofChars position cs).ending = .endOfText n) :
    Reads cs (TokenList.ofChars position cs).lexemes Delimited := by
  fun_induction TokenList.ofChars position cs with
  | case1 position cs t after hread more ih =>
    obtain ⟨blanks, d, ds, cut, hblanks, rfl, hcut, hlexeme, rfl⟩ := exists_cut_of_token hread
    rw [TokenList.lexemes, List.map_cons, hlexeme]
    exact .cut hblanks hcut (ih h)
  | case2 position cs m hread =>
    have hblanks := blank_of_endOfText hread
    intro position rest _
    exact ⟨[], rfl, by rw [ofChars_blanks hblanks, byteSize_of_blank hblanks]; rfl⟩
  | case3 | case4 => cases h

/-- A text that is read to its end reads as its lexemes, also before a delimited text. -/
theorem ReadsToEnd.reads {text : String} (h : ReadsToEnd text) :
    Reads text.toList (TokenList.ofText text).lexemes Delimited :=
  reads_of_endOfText h.choose_spec

end Dql
