import Dql.Proofs.LiteralSafety
import Dql.Proofs.Mirroring
import Dql.Proofs.TokenPreservation

/-!
# Compiling compiled SQL

Compiled SQL is an expression again, if every extension can also be called by its own name, and it
compiles to itself. Where parameters are written as question marks, this is so only for SQL without
parameters: a question mark alone is no token, so SQL that has one is rejected at the first one that
stands outside literals, and for no other reason.

* `Catalog.KnowsOwn` - catalogs that have every extension under its own name, too;
* `Unmarked`, `firstMark?` - texts without question marks outside literals, and where the first one
  is;
* `Breaks` - a piece of text breaks off at such a question mark, whatever follows it;
* `ReadsOrBreaks` - what becomes of a piece of SQL.

Principal results: `readsOrBreaks_toSql`, `parse_of_broken` and `compiled_again`.
-/

namespace Dql

/-! ## Extensions under their own names -/

/-- Every extension of the catalog is also found under its own name. -/
def Catalog.KnowsOwn (catalog : Catalog) : Prop :=
  ∀ name entry, catalog.find? name = some entry → catalog.Knows entry.extension

theorem Extension.eq_of_foldCase_name {x y : Extension} (h : foldCase x.name = foldCase y.name) :
    x = y := by
  rw [← String.toList_inj, toList_foldCase, toList_foldCase] at h
  rcases x with (_ | _ | _) | _ <;> rcases y with (_ | _ | _) | _ <;>
    first | rfl | exact absurd h (by decide +kernel)

/-- Shipping an extension puts it under its own name, and no other one was there. -/
theorem Catalog.KnowsOwn.ship {catalog : Catalog} (h : catalog.KnowsOwn) (e : Shipped) :
    (catalog.ship e).KnowsOwn := by
  intro name entry hentry
  rw [Catalog.ship, find?_put] at hentry
  rw [Knows, Catalog.ship, find?_put]
  by_cases hown : foldCase e.name = foldCase entry.extension.name
  · have hsame : .shipped e = entry.extension := Extension.eq_of_foldCase_name hown
    rw [if_pos hown, ← hsame]
    rfl
  · rw [if_neg hown]
    split at hentry
    · exact absurd (by rw [← Option.some.inj hentry]; rfl) hown
    · exact h name entry hentry

theorem Catalog.empty_knowsOwn : empty.KnowsOwn := by
  intro name entry hentry
  rw [find?_empty] at hentry
  cases hentry

/-- The packs file every extension under its own name. -/
theorem Catalog.defaults_knowsOwn : defaults.KnowsOwn :=
  ((empty_knowsOwn.ship .dateFormat).ship .extract).ship .nvl2

/-- What a phrase stands for has calls of these extensions only. -/
def Phrase.CallsOnly (known : Extension → Prop) : (p : Phrase) → p.Meaning → Prop
  | .expression, e | .term, e | .factor, e | .primary _, e => ∀ x ∈ e.extensions, known x
  | .moreTerms, f | .moreFactors, f => ∀ left : Expr,
    (∀ x ∈ left.extensions, known x) → ∀ x ∈ (f left).extensions, known x
  | .arguments, es | .moreArguments, es => ∀ x ∈ extensionsOfList es, known x
  | .form _, filled => ∀ x ∈ extensionsOfList filled.2, known x

/-- What derives has calls of the catalog's extensions only. -/
theorem Derivation.callsOnly_tree {catalog : Catalog} {p : Phrase} {ls rest : List Lexeme}
    (h : catalog.KnowsOwn) (d : Derivation catalog p ls rest) :
    p.CallsOnly catalog.Knows d.tree := by
  induction d with
  | expression first _ ihfirst ihmore | term first _ ihfirst ihmore =>
    exact ihmore first.tree ihfirst
  | noTerm | noFactor => exact fun _ hleft => hleft
  | moreTerms _ _ _ _ _ ihnext ihmore | moreFactors _ _ _ _ _ ihnext ihmore =>
    exact fun _ hleft => ihmore _ (List.forall_mem_append.2 ⟨hleft, ihnext⟩)
  | signed _ _ _ _ ih | unsigned _ ih | paren _ _ _ _ _ ih | call _ _ _ _ _ _ _ _ _ ih
  | word _ _ _ ih | keyword _ _ _ ih | comma _ _ _ ih => exact ih
  | number | name | string | parameter | path | noArgument | noMoreArgument | formEnd =>
    exact fun _ hx => nomatch hx
  | extension _ _ entry _ _ _ hfind _ _ ih =>
    exact List.forall_mem_cons.2 ⟨h _ entry hfind, ih⟩
  | arguments _ _ ihfirst ihmore | moreArguments _ _ _ _ ihfirst ihmore
  | expressionSlot _ _ ihfirst ihmore | primarySlot _ _ ihfirst ihmore =>
    exact List.forall_mem_append.2 ⟨ihfirst, ihmore⟩

theorem knows_of_parse {catalog : Catalog} (h : catalog.KnowsOwn) {text : String} {e : Expr}
    (he : (parse catalog text).1 = .ok e) : ∀ x ∈ e.extensions, catalog.Knows x := by
  obtain ⟨-, d, rfl, -⟩ := parse_eq_ok_iff.1 he
  exact d.callsOnly_tree h

/-! ## Question marks -/

/-- The text closes its literals and has no question mark outside them. -/
structure Unmarked (cs : List Char) : Prop where
  closed : insideAfter false cs = false
  noMark : some '?' ∉ outside false cs

/-- The byte offset of the first question mark outside the literals of a text. -/
def firstMark? (text : String) : Option Nat :=
  ((outside false text.toList).idxOf? (some '?')).map fun i => byteSize (text.toList.take i)

theorem firstMark?_of_unmarked {text : String} {front back : List Char}
    (htext : text.toList = front ++ '?' :: back) (hfront : Unmarked front) :
    firstMark? text = some (byteSize front) := by
  have hout : outside false text.toList =
      outside false front ++ some '?' :: outside false back := by
    rw [htext, outside_append, hfront.closed]
    rfl
  have hnone : (outside false front).findIdx? (· == some '?') = none :=
    List.idxOf?_eq_none_iff.2 hfront.noMark
  have hindex : (outside false text.toList).idxOf? (some '?') = some front.length := by
    rw [hout, List.idxOf?, List.findIdx?_append, hnone, length_outside]
    simp [List.findIdx?_cons]
  rw [firstMark?, hindex, htext]
  simp

example : firstMark? "'?' + ?" = some 6 := by decide

namespace Unmarked

variable {cs ds : List Char}

theorem append (hcs : Unmarked cs) (hds : Unmarked ds) : Unmarked (cs ++ ds) := by
  constructor
  · rw [insideAfter_append, hcs.closed, hds.closed]
  · rw [outside_append, hcs.closed]
    exact fun h => (List.mem_append.1 h).elim hcs.noMark hds.noMark

theorem of_unquoted (h : ∀ c ∈ cs, c ≠ '\'' ∧ c ≠ '?') : Unmarked cs := by
  obtain ⟨hout, hend⟩ := outside_of_unquoted fun c hc => (h c hc).1
  refine ⟨hend, fun hmark => ?_⟩
  rw [hout] at hmark
  obtain ⟨c, hc, heq⟩ := List.mem_map.1 hmark
  exact (h c hc).2 (Option.some.inj heq)

/-- The characters of names, numbers and paths. -/
theorem of_isNamePart (h : ∀ c ∈ cs, isNamePart c = true ∨ c = '.') : Unmarked cs := by
  refine of_unquoted fun c hc => ?_
  constructor <;> rintro rfl <;> exact (h _ hc).elim (by decide) (by decide)

end Unmarked

theorem NameText.isNamePart {cs : List Char} (h : NameText cs) :
    ∀ c ∈ cs, Dql.isNamePart c = true := by
  obtain ⟨c, ds, rfl, hc, hds⟩ := h
  exact List.forall_mem_cons.2 ⟨isNamePart_of_isNameStart hc, hds⟩

/-- Only parameters have question marks outside literals. -/
theorem unmarked_of_isLexeme {kind : TokenKind} {cs : List Char} (h : IsLexeme kind cs)
    (hkind : kind ≠ .parameter) : Unmarked cs := by
  cases kind with
  | parenLeft | parenRight | comma | plus | minus | asterisk | slash =>
    cases h
    exact .of_unquoted (List.forall_mem_singleton.2 (by decide))
  | integer => exact .of_isNamePart fun c hc => .inl (isNamePart_of_isDigit (h.2 c hc))
  | float =>
    obtain ⟨whole, fraction, rfl, hwhole, -, hfraction⟩ := h
    refine .of_isNamePart (List.forall_mem_append.2 ⟨fun c hc => ?_, ?_⟩)
    · exact .inl (isNamePart_of_isDigit (hwhole c hc))
    · exact List.forall_mem_cons.2
        ⟨.inr rfl, fun c hc => .inl (isNamePart_of_isDigit (hfraction c hc))⟩
  | string =>
    obtain ⟨contents, rfl, hcontents⟩ := h
    obtain ⟨hout, hend⟩ := outside_of_literal hcontents
    exact ⟨hend, hout _⟩
  | identifier => exact .of_isNamePart fun c hc => .inl (h.isNamePart c hc)
  | path =>
    obtain ⟨name, more, rfl, -, hname, hmore⟩ := h
    refine .of_isNamePart (List.forall_mem_append.2 ⟨fun c hc => .inl (hname.isNamePart c hc), ?_⟩)
    intro c hc
    obtain ⟨n, hn, hc⟩ := List.mem_flatMap.1 hc
    exact (List.mem_cons.1 hc).elim .inr fun hc => .inl ((hmore n hn).isNamePart c hc)
  | parameter => exact absurd rfl hkind

/-! ## Where reading breaks off -/

/-- Whatever text of the class `follow` comes after the characters `cs`, reading breaks off at the
first question mark outside literals, and `cs` has it. What is read up to there is the start of the
lexemes `ls`, which have a parameter. -/
def Breaks (cs : List Char) (ls : List Lexeme) (follow : List Char → Prop) : Prop :=
  (∃ l ∈ ls, l.kind = .parameter) ∧
    ∃ front back, cs = front ++ '?' :: back ∧ Unmarked front ∧
      ∀ position rest, follow rest → ∃ tokens, tokens.map Token.lexeme <+: ls ∧
        TokenList.ofChars position (cs ++ rest) =
          ⟨tokens, .fault ⟨.unexpectedCharacter, position + byteSize front⟩⟩

/-- What becomes of characters that were written for certain lexemes, with question marks for the
parameters: without parameters they read as these lexemes, otherwise reading breaks off. -/
inductive ReadsOrBreaks (cs : List Char) (ls : List Lexeme) (follow : List Char → Prop) : Prop where
  | reads (h : Reads cs ls follow) (unmarked : Unmarked cs) (hls : ∀ l ∈ ls, l.kind ≠ .parameter)
  | breaks (h : Breaks cs ls follow)

section Pieces

variable {cs ds : List Char} {ls ms : List Lexeme} {p q : List Char → Prop}

/-- A question mark before a text with which it makes no parameter. -/
theorem Breaks.mark (text : String) : Breaks ['?'] [⟨.parameter, text⟩] Delimited := by
  refine ⟨⟨_, List.mem_singleton_self _, rfl⟩, [], [], rfl, .of_unquoted nofun, ?_⟩
  intro position rest hr
  refine ⟨[], List.nil_prefix, ?_⟩
  have hcut : Cut.first '?' rest = .error .unexpectedCharacter := by
    have hfirst : Cut.first '?' rest =
        markedCut .parameter '?' Char.isDigit Char.isDigit rest := rfl
    rw [hfirst]
    cases rest with
    | nil => rfl
    | cons c cs => simp [markedCut, hr.isDigit c rfl]
  have hreading : Reading.ofChars position ('?' :: rest) = .unexpected position '?' rest := by
    simp [Reading.ofChars, hcut]
  rw [List.singleton_append, TokenList.ofChars]
  split <;> rename_i h <;> rw [hreading] at h <;> cases h
  rfl

theorem Breaks.mono (h : Breaks cs ls p) (hpq : ∀ rest, q rest → p rest) : Breaks cs ls q := by
  obtain ⟨hls, front, back, hcs, hfront, hbreaks⟩ := h
  exact ⟨hls, front, back, hcs, hfront, fun position rest hr => hbreaks position rest (hpq rest hr)⟩

/-- What comes after the place is never read. -/
theorem Breaks.append (h : Breaks cs ls p) (ds : List Char) (ms : List Lexeme)
    (hseam : ∀ rest, q rest → p (ds ++ rest)) : Breaks (cs ++ ds) (ls ++ ms) q := by
  obtain ⟨⟨l, hl, hkind⟩, front, back, rfl, hfront, hbreaks⟩ := h
  refine ⟨⟨l, List.mem_append_left _ hl, hkind⟩, front, back ++ ds, by simp, hfront, ?_⟩
  intro position rest hr
  obtain ⟨tokens, htokens, hread⟩ := hbreaks position (ds ++ rest) (hseam rest hr)
  exact ⟨tokens, htokens.trans (List.prefix_append _ _), by rw [List.append_assoc, hread]⟩

/-- Reading goes on to the place. -/
theorem Reads.append_breaks (h : Reads cs ls p) (hcs : Unmarked cs) (hds : Breaks ds ms q)
    (hseam : ∀ rest, q rest → p (ds ++ rest)) : Breaks (cs ++ ds) (ls ++ ms) q := by
  obtain ⟨⟨l, hl, hkind⟩, front, back, rfl, hfront, hbreaks⟩ := hds
  refine ⟨⟨l, List.mem_append_right _ hl, hkind⟩, cs ++ front, back, by simp,
    hcs.append hfront, ?_⟩
  intro position rest hr
  obtain ⟨ts, rfl, hread⟩ := h position _ (hseam rest hr)
  obtain ⟨us, hus, hread'⟩ := hbreaks (position + byteSize cs) rest hr
  refine ⟨ts ++ us, by simpa using hus, ?_⟩
  rw [List.append_assoc, hread, hread', byteSize_append, ← Nat.add_assoc]
  rfl

namespace ReadsOrBreaks

theorem mono (h : ReadsOrBreaks cs ls p) (hpq : ∀ rest, q rest → p rest) :
    ReadsOrBreaks cs ls q := by
  cases h with
  | reads h hcs hls => exact .reads (h.mono hpq) hcs hls
  | breaks h => exact .breaks (h.mono hpq)

theorem append (h₁ : ReadsOrBreaks cs ls p) (h₂ : ReadsOrBreaks ds ms q)
    (hseam : ∀ rest, q rest → p (ds ++ rest)) : ReadsOrBreaks (cs ++ ds) (ls ++ ms) q := by
  cases h₁ with
  | breaks h₁ => exact .breaks (h₁.append _ _ hseam)
  | reads h₁ hcs hls =>
    cases h₂ with
    | breaks h₂ => exact .breaks (h₁.append_breaks hcs h₂ hseam)
    | reads h₂ hds hms =>
      exact .reads (h₁.append h₂ hseam) (hcs.append hds) (List.forall_mem_append.2 ⟨hls, hms⟩)

theorem composes : Composes ReadsOrBreaks := by
  refine .of_punctuation mono append (.reads .nil (.of_unquoted nofun) nofun)
    (.reads .blank (.of_unquoted (List.forall_mem_singleton.2 (by decide))) nofun) ?_ ?_
  · intro kind text h hkind
    have hparameter : kind ≠ .parameter := by
      rintro rfl
      cases hkind
    exact .reads (.lexeme h) (unmarked_of_isLexeme h hparameter)
      (List.forall_mem_singleton.2 hparameter)
  · intro c kind h
    have hlexeme := isLexeme_punctuation h
    have hparameter : kind ≠ .parameter := by
      rintro rfl
      exact nomatch hlexeme
    exact .reads (.punctuation h) (unmarked_of_isLexeme hlexeme hparameter)
      (List.forall_mem_singleton.2 hparameter)

end ReadsOrBreaks

end Pieces

/-- **SQL with question marks for parameters breaks off at the first one, or reads as the lexemes of
its expression if there is none.** -/
theorem readsOrBreaks_toSql {e : Expr} (h : Normal e) :
    ReadsOrBreaks (e.toSql {}).toList e.lexemes Delimited := by
  have hparameter : ∀ text : String, IsLexeme .parameter text.toList →
      ReadsOrBreaks (Style.write {} (.parameter text)).toList [⟨.parameter, text⟩] Delimited := by
    intro text _
    have hmark : (Style.write {} (.parameter text)).toList = ['?'] := by
      simp [Style.write, Style.parameter]
    rw [hmark]
    exact .breaks (.mark text)
  rw [toList_toSql]
  exact ReadsOrBreaks.composes.normal (opening_of_verbatimPath rfl)
    (fun _ _ h => ReadsOrBreaks.composes.verbatimPath h) hparameter h

/-! ## The second run -/

section Again

variable {catalog : Catalog}

/-- **A text that goes on like an expression and then breaks off is rejected where it does.** -/
theorem parse_of_broken {text text' : String} {e : Expr} {cause : LexicalError}
    (h : (parse catalog text).1 = .ok e)
    (hls : (TokenList.ofText text').lexemes <+: (TokenList.ofText text).lexemes)
    (hending : (TokenList.ofText text').ending = .fault cause) :
    (parse catalog text').1 = .error (.lexical cause) := by
  obtain ⟨beyond, hbeyond⟩ := hls
  have hs : Mirrors (some cause) (.ofText text) (.ofText text') := by
    refine ⟨⟨beyond, ?_, nofun⟩, nofun, ?_⟩
    · have halike : Alike (TokenList.ofText text).lexemes
          ((TokenList.ofText text').lexemes ++ beyond) := by
        rw [hbeyond]
        exact .refl _
      exact halike
    · rintro _ ⟨⟩
      exact hending
  have houtcome : MirroredAt (some cause) Eq (wholeExpression catalog) (wholeExpression catalog)
      (.ofText text) (.ofText text') := wholeExpression_mirrored _ _ hs
  cases houtcome with
  | ok _ run' =>
    obtain ⟨⟨n, hn⟩, -⟩ := parse_eq_ok_iff.1 (parse_eq_ok_iff_run.2 ⟨_, run'⟩)
    rw [hending] at hn
    cases hn
  | error run =>
    have herror := parse_eq_error_iff.2 ⟨_, _, run, rfl⟩
    rw [h] at herror
    cases herror
  | broken hcut run' lexical =>
    cases hcut
    exact parse_eq_error_iff.2 ⟨_, _, run', lexical⟩

/-- SQL of a well-formed expression, with paths and parameters as they are, compiles to itself. -/
theorem WellFormed.compile_verbatim {e : Expr} (h : WellFormed e)
    (hc : ∀ x ∈ e.extensions, catalog.Knows x) :
    (compile catalog .verbatim (e.toSql .verbatim)).1 = .ok (e.toSql .verbatim) :=
  compile_eq_ok_iff.2 ⟨e, h.parse_toSql hc, rfl⟩

/-- With question marks for parameters, SQL of a well-formed expression compiles to itself if there
are none; otherwise it is rejected at the first one. -/
theorem WellFormed.compile_positional {e : Expr} (h : WellFormed e)
    (hc : ∀ x ∈ e.extensions, catalog.Knows x) :
    ((∀ l ∈ e.lexemes, l.kind ≠ .parameter) ∧
      (compile catalog {} (e.toSql {})).1 = .ok (e.toSql {})) ∨
    (∃ l ∈ e.lexemes, l.kind = .parameter) ∧ ∃ offset, firstMark? (e.toSql {}) = some offset ∧
      (compile catalog {} (e.toSql {})).1 = .error (.lexical ⟨.unexpectedCharacter, offset⟩) := by
  cases readsOrBreaks_toSql h.normal with
  | reads hreads _ hls =>
    obtain ⟨hlexemes, hend⟩ := hreads.lexemes_ofText delimited_nil
    exact .inl ⟨hls, compile_eq_ok_iff.2 ⟨e, h.parse_eq_ok hc hlexemes ⟨_, hend⟩, rfl⟩⟩
  | breaks hbreaks =>
    obtain ⟨hls, front, back, hsql, hfront, hbroken⟩ := hbreaks
    obtain ⟨tokens, htokens, hread⟩ := hbroken 0 [] delimited_nil
    rw [List.append_nil, Nat.zero_add] at hread
    have htext : TokenList.ofText (e.toSql {}) =
      ⟨tokens, .fault ⟨.unexpectedCharacter, byteSize front⟩⟩ := hread
    refine .inr ⟨hls, byteSize front, firstMark?_of_unmarked hsql hfront, compile_eq_error_iff.2 ?_⟩
    refine parse_of_broken (h.parse_toSql hc) ?_ (by rw [htext])
    rw [htext, h.normal.lexemes_toSql.1]
    exact htokens

end Again

/-- Whether a text has parameters can be seen from its expression. -/
theorem exists_parameter_iff {catalog : Catalog} {text : String} {e : Expr}
    (h : (parse catalog text).1 = .ok e) : (∃ l ∈ e.lexemes, l.kind = .parameter) ↔
      ∃ l ∈ (TokenList.ofText text).lexemes, l.kind = .parameter := by
  have hkinds := kinds_of_parse h
  have hmem : ∀ ls : List Lexeme, (∃ l ∈ ls, l.kind = .parameter) ↔
      TokenKind.parameter ∈ ls.map Lexeme.kind := fun _ => List.mem_map.symm
  rw [hmem, hmem, hkinds]

/-- SQL that the packs compile is the same when it is compiled again, or is rejected. -/
theorem recompiles_eq_true (text : String) : (recompiles text).1 = true := by
  rw [recompiles_eq]
  split
  · rename_i e events hparse
    have he : (parse .defaults text).1 = .ok e := congrArg Prod.fst hparse
    have hknows := knows_of_parse Catalog.defaults_knowsOwn he
    split
    · rename_i again more hcompile
      have hagain : (compile .defaults {} (e.toSql {})).1 = .ok again := congrArg Prod.fst hcompile
      obtain ⟨-, hsame⟩ | ⟨-, _, -, hfails⟩ := (wellFormed_of_parse he).compile_positional hknows
      · obtain rfl := Except.ok.inj (hsame.symm.trans hagain)
        exact beq_self_eq_true _
      · cases hfails.symm.trans hagain
    · rfl
  · rfl

/-- **Compiling compiled SQL changes nothing.** Under a catalog that has every extension also under
its own name, SQL with paths and parameters as they are compiles to itself. In the default style
this is so for texts without parameters; the SQL of any other text is rejected at its first question
mark outside literals. All packs together are such a catalog, and so the check that `recompiles`
makes never says no. -/
theorem compiled_again :
    (∀ (catalog : Catalog) (text sql : String), catalog.KnowsOwn →
      (compile catalog .verbatim text).1 = .ok sql →
        (compile catalog .verbatim sql).1 = .ok sql) ∧
    (∀ (catalog : Catalog) (text sql : String), catalog.KnowsOwn →
      (compile catalog {} text).1 = .ok sql →
        ((∀ l ∈ (TokenList.ofText text).lexemes, l.kind ≠ .parameter) →
          (compile catalog {} sql).1 = .ok sql) ∧
        ((∃ l ∈ (TokenList.ofText text).lexemes, l.kind = .parameter) →
          ∃ offset, firstMark? sql = some offset ∧
            (compile catalog {} sql).1 = .error (.lexical ⟨.unexpectedCharacter, offset⟩))) ∧
    Catalog.defaults.KnowsOwn ∧ ∀ text : String, (recompiles text).1 = true := by
  refine ⟨?_, ?_, Catalog.defaults_knowsOwn, recompiles_eq_true⟩
  · intro catalog text sql hcatalog h
    obtain ⟨e, he, rfl⟩ := compile_eq_ok_iff.1 h
    exact (wellFormed_of_parse he).compile_verbatim (knows_of_parse hcatalog he)
  · intro catalog text sql hcatalog h
    obtain ⟨e, he, rfl⟩ := compile_eq_ok_iff.1 h
    have hparameter := exists_parameter_iff he
    obtain ⟨hnone, hsame⟩ | ⟨hsome, offset, hmark, hfails⟩ :=
      (wellFormed_of_parse he).compile_positional (knows_of_parse hcatalog he)
    · refine ⟨fun _ => hsame, fun h => ?_⟩
      obtain ⟨l, hl, hkind⟩ := hparameter.2 h
      exact absurd hkind (hnone l hl)
    · refine ⟨fun h => ?_, fun _ => ⟨offset, hmark, hfails⟩⟩
      obtain ⟨l, hl, hkind⟩ := hparameter.1 hsome
      exact absurd hkind (h l hl)

/-- The question mark in the literal does not count. -/
theorem compiled_again_parameter :
    (compile .defaults {} "concat('?', :p)").1 = .ok "CONCAT('?', ?)" ∧
      (compile .defaults {} "CONCAT('?', ?)").1 =
        .error (.lexical ⟨.unexpectedCharacter, 12⟩) := by
  have h : (compile .defaults {} "concat('?', :p)").1 = .ok "CONCAT('?', ?)" := by decide +kernel
  have hparameter : ⟨.parameter, ":p"⟩ ∈ (TokenList.ofText "concat('?', :p)").lexemes := by
    decide +kernel
  have hfirst : firstMark? "CONCAT('?', ?)" = some 12 := by decide +kernel
  obtain ⟨offset, hmark, hfails⟩ :=
    (compiled_again.2.1 _ _ _ Catalog.defaults_knowsOwn h).2 ⟨_, hparameter, rfl⟩
  obtain rfl := Option.some.inj (hfirst.symm.trans hmark)
  exact ⟨h, hfails⟩

end Dql
