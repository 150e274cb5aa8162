import Dql.Proofs.Bytes
import Dql.Proofs.Concatenation
import Dql.Proofs.EarliestError
import Dql.Proofs.LiteralSafety
import Dql.Proofs.TokenPreservation

/-!
# Which characters are said about a text

SQL and error messages repeat pieces of the text. All else in them is printable: names of functions,
marks, numbers, words and single spaces. So any other character, be it a line break or a letter
beyond ASCII, is in what is said about a text only if it is in the text.

* `isPrintable` - the printable characters of ASCII;
* `Repeats` - characters that are printable or repeat some of others.

Principal results: `repeats_of_compile` and `repeats_of_error`.
-/

namespace Dql

/-- The printable characters of ASCII, from the space to the tilde. -/
def isPrintable (c : Char) : Bool := 0x20 ≤ c.toNat && c.toNat < 0x7F

/-- Each of the characters `cs` is printable or one of `source`. -/
def Repeats (source cs : List Char) : Prop := ∀ c ∈ cs, isPrintable c = true ∨ c ∈ source

variable {source cs ds : List Char}

namespace Repeats

theorem of_printable (h : ∀ c ∈ cs, isPrintable c = true) : Repeats source cs :=
  fun c hc => .inl (h c hc)

theorem of_all (h : cs.all isPrintable = true) : Repeats source cs :=
  of_printable (List.all_eq_true.1 h)

theorem of_subset (h : cs ⊆ source) : Repeats source cs := fun _ hc => .inr (h hc)

theorem append (hcs : Repeats source cs) (hds : Repeats source ds) : Repeats source (cs ++ ds) :=
  List.forall_mem_append.2 ⟨hcs, hds⟩

theorem append_string {s t : String} (hs : Repeats source s.toList)
    (ht : Repeats source t.toList) : Repeats source (s ++ t).toList := by
  rw [String.toList_append]
  exact hs.append ht

/-- What repeats a repetition repeats the source. -/
theorem trans {middle : List Char} (h : Repeats middle cs) (hmiddle : Repeats source middle) :
    Repeats source cs :=
  fun c hc => (h c hc).elim .inl (hmiddle c)

theorem mono {source' : List Char} (h : Repeats source cs) (hsource : source ⊆ source') :
    Repeats source' cs :=
  h.trans (of_subset hsource)

/-- A character that is not printable is not in what repeats a text without it. -/
theorem not_mem (h : Repeats source cs) {c : Char} (hc : isPrintable c = false)
    (hsource : c ∉ source) : c ∉ cs := by
  intro hmem
  rcases h c hmem with hprintable | hrepeated
  · rw [hc] at hprintable
    cases hprintable
  · exact hsource hrepeated

end Repeats

/-! ## Printable text -/

theorem isPrintable_of_isNamePart {c : Char} (h : isNamePart c = true) :
    isPrintable c = true := by
  have hrange := range_of_isNamePart h
  simp only [isPrintable, Bool.and_eq_true, decide_eq_true_eq]
  omega

theorem isPrintable_of_isPlain {c : Char} (h : isPlain c = true) : isPrintable c = true := by
  have hmarks : (".,()+?: ".toList.all isPrintable) = true := by decide
  simp only [isPlain, Bool.or_eq_true, decide_eq_true_eq] at h
  exact h.elim isPrintable_of_isNamePart fun hc => List.all_eq_true.1 hmarks c hc

theorem PlainText.repeats (h : PlainText cs) : Repeats source cs :=
  .of_printable fun c hc => isPrintable_of_isPlain (h.2 c hc)

theorem repeats_of_isName {name : String} (h : isName name = true) : Repeats source name.toList :=
  (plainText_of_name (isName_iff.1 h)).repeats

theorem repeats_toString (n : Nat) : Repeats source (toString n).toList := by
  apply Repeats.of_printable
  intro c hc
  have hdigit : c.isDigit = true := by
    rw [Nat.toString_eq_repr, Nat.repr, String.toList_ofList] at hc
    exact Nat.isDigit_of_mem_toDigits (by decide) (by decide) hc
  exact isPrintable_of_isNamePart (isNamePart_of_isDigit hdigit)

/-! ## SQL -/

/-- The characters of lexemes, one after another. -/
def charsOf (ls : List Lexeme) : List Char := ls.flatMap fun l => l.text.toList

theorem repeats_composes : Composes fun cs ls _ => Repeats (charsOf ls) cs := by
  refine .of_punctuation (fun h _ => h) ?append (fun _ hc => nomatch hc) (.of_all rfl) ?kept
    ?punctuation
  case append =>
    intro cs ds ls ms _ _ hcs hds _
    rw [charsOf, List.flatMap_append]
    exact (hcs.mono (List.subset_append_left _ _)).append (hds.mono (List.subset_append_right _ _))
  case kept =>
    intro kind text _ _
    exact .of_subset (by simp [charsOf])
  case punctuation =>
    intro c kind _
    exact .of_subset (by simp [charsOf])

/-- **SQL of an expression in normal form repeats its lexemes.** -/
theorem Normal.repeats {style : Style} (hstyle : style.Tame) {e : Expr} (h : Normal e) :
    Repeats (charsOf e.lexemes) (style.chars e.segments) := by
  refine repeats_composes.normal (fun _ _ h => (hstyle _ _ h).opens)
    (fun _ _ h => (hstyle _ _ h).repeats) (fun text _ => ?_) h
  have hmark : Repeats (charsOf [⟨.parameter, text⟩]) ['?'] := .of_all rfl
  cases hparameters : style.parameters with
  | positional => simpa [Style.write, Style.parameter, hparameters] using hmark
  | verbatim => exact .of_subset (by simp [Style.write, Style.parameter, hparameters, charsOf])

/-- What is written for a lexeme repeats it, or is a name. -/
theorem Part.repeats_written {catalog : Catalog} {part : Part}
    (h : part.role.Suits catalog part.lexeme) :
    Repeats part.lexeme.text.toList part.written.text.toList := by
  obtain ⟨l, role⟩ := part
  cases role with
  | kept => exact .of_subset (List.Subset.refl _)
  | callee name =>
    obtain ⟨-, ⟨function, -, rfl⟩ | ⟨-, entry, -, rfl⟩⟩ := h
    · exact repeats_of_isName function.isName_name
    · exact repeats_of_isName entry.extension.isName_name
  | keyword sql =>
    obtain ⟨-, rfl⟩ := h
    have hfrom : ("from".toList.all isPrintable) = true := by decide
    exact .of_all hfrom

/-- Every token of a text is a piece of it. -/
theorem infix_of_mem_ofChars {position : Nat} {t : Token}
    (h : t ∈ (TokenList.ofChars position cs).tokens) : t.text.toList <:+: cs := by
  fun_induction TokenList.ofChars position cs with
  | case1 position cs u rest hread after ih =>
    obtain ⟨blanks, d, ds, cut, -, rfl, hcut, hlexeme, rfl⟩ := exists_cut_of_token hread
    have hall := Cut.first_append hcut
    rcases List.mem_cons.1 h with rfl | h
    · have htext : t.text = String.ofList cut.lexeme := congrArg Lexeme.text hlexeme
      rw [htext, String.toList_ofList, ← hall]
      exact ⟨blanks, cut.rest, by simp⟩
    · obtain ⟨front, back, hrest⟩ := ih h
      exact ⟨blanks ++ cut.lexeme ++ front, back, by simp [← hall, ← hrest]⟩
  | case2 | case3 | case4 => cases h

theorem subset_of_mem_ofText {text : String} {t : Token}
    (h : t ∈ (TokenList.ofText text).tokens) : t.text.toList ⊆ text.toList :=
  (infix_of_mem_ofChars h).subset

/-- **Compiled SQL repeats the text.** All else in it is printable. -/
theorem repeats_of_compile {catalog : Catalog} {style : Style} {text sql : String}
    (hstyle : style.Tame) (h : (compile catalog style text).1 = .ok sql) :
    Repeats text.toList sql.toList := by
  obtain ⟨e, he, rfl⟩ := compile_eq_ok_iff.1 h
  obtain ⟨-, d, rfl, -⟩ := parse_eq_ok_iff.1 he
  have hvalid : ∀ l ∈ (TokenList.ofText text).lexemes, l.Valid := fun _ => valid_of_mem_ofText
  have hsuits : ∀ part ∈ d.parts, part.role.Suits catalog part.lexeme :=
    d.suits_parts fun _ h => nomatch h
  have hsource : ∀ l ∈ d.parts.map Part.lexeme, l.text.toList ⊆ text.toList := by
    rw [d.lexemes_parts_of_whole]
    exact List.forall_mem_map.2 fun _ => subset_of_mem_ofText
  have hlexemes : Repeats text.toList (charsOf d.tree.lexemes) := by
    rw [d.written_parts hvalid]
    intro c hc
    obtain ⟨l, hl, hc⟩ := List.mem_flatMap.1 hc
    obtain ⟨part, hpart, rfl⟩ := List.mem_map.1 hl
    have hpiece := hsource part.lexeme (List.mem_map_of_mem hpart)
    exact (Part.repeats_written (hsuits part hpart)).mono hpiece c hc
  rw [toList_toSql]
  exact ((d.normal_tree hvalid).repeats hstyle).trans hlexemes

/-! ## Error messages -/

theorem Expected.repeats_describe (expected : Expected) :
    Repeats source expected.describe.toList := by
  refine .of_all ?_
  cases expected with
  | token kind => cases kind <;> decide
  | primary accepts => cases accepts <;> decide
  | knownFunction | endOfText => decide

theorem LexicalError.repeats_message (e : LexicalError) : Repeats source e.message.toList := by
  obtain ⟨fault, position⟩ := e
  cases fault with
  | unterminatedString =>
    have hwords : Repeats source "Unterminated string literal starting at ".toList :=
      .of_all (by decide)
    exact hwords.append_string (repeats_toString position)
  | unexpectedCharacter =>
    have hwords : Repeats source "Unexpected character at ".toList := .of_all (by decide)
    exact hwords.append_string (repeats_toString position)

theorem ParseError.repeats_describeFound {found : Option String}
    (h : ∀ text, found = some text → text.toList ⊆ source) :
    Repeats source (describeFound found).toList := by
  cases found with
  | none =>
    have hwords : Repeats source "end of string".toList := .of_all (by decide)
    exact hwords
  | some text =>
    have hquote : Repeats source "'".toList := .of_all (by decide)
    exact (hquote.append_string (.of_subset (h text rfl))).append_string hquote

/-- A message is printable but for what it says was found. -/
theorem ParseError.repeats_message {err : ParseError}
    (h : ∀ position expected found, err = .mismatch position expected (some found) →
      found.toList ⊆ source) : Repeats source err.message.toList := by
  cases err with
  | lexical cause =>
    have hwords : Repeats source "[Syntax Error] ".toList := .of_all (by decide)
    exact hwords.append_string cause.repeats_message
  | tooDeep position =>
    have hplace : Repeats source "[Syntax Error] col ".toList := .of_all (by decide)
    have hwords : Repeats source ": Expressions can't nest deeper than ".toList :=
      .of_all (by decide)
    have hlevels : Repeats source " levels".toList := .of_all (by decide)
    exact (((hplace.append_string (repeats_toString position)).append_string hwords).append_string
      (repeats_toString maxNesting)).append_string hlevels
  | mismatch position expected found =>
    have hplace : Repeats source "[Syntax Error] col ".toList := .of_all (by decide)
    have hwords : Repeats source ": Expected ".toList := .of_all (by decide)
    have hgot : Repeats source ", got ".toList := .of_all (by decide)
    have hfound := repeats_describeFound fun text hfound => h position expected text (hfound ▸ rfl)
    exact ((((hplace.append_string (repeats_toString position)).append_string hwords).append_string
      expected.repeats_describe).append_string hgot).append_string hfound

/-- What a mismatch found is a token of the text. -/
theorem subset_of_mismatch {catalog : Catalog} {text : String} {position : Nat}
    {expected : Expected} {found : String}
    (h : (parse catalog text).1 = .error (.mismatch position expected (some found))) :
    found.toList ⊆ text.toList := by
  obtain ⟨f, s, hparse, hf⟩ := parse_eq_error_iff.1 h
  obtain ⟨taken, hlist, hstops, -⟩ := exists_taken_of_error hparse
  rw [hf] at hstops
  obtain ⟨⟨seen, hseen, hfound⟩, -⟩ := hstops
  cases seen with
  | endOfText => cases hfound
  | token t =>
    cases hfound
    apply subset_of_mem_ofText
    have htokens : (TokenList.ofText text).tokens = taken ++ t :: s.list.tail.tokens := by
      rw [TokenList.eq_prepend_of_lookahead hseen] at hlist
      exact congrArg TokenList.tokens hlist
    rw [htokens]
    exact List.mem_append_right _ List.mem_cons_self

/-- **Error messages repeat the text.** All else in them is printable. -/
theorem repeats_of_error {catalog : Catalog} {style : Style} {text : String} {err : ParseError}
    (h : (compile catalog style text).1 = .error err) : Repeats text.toList err.message.toList := by
  apply ParseError.repeats_message
  rintro position expected found rfl
  exact subset_of_mismatch (compile_eq_error_iff.1 h)

end Dql
