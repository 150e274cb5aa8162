import Dql.Proofs.Parsing
import Dql.Proofs.Segments

/-!
# What a style has a say in

A style writes paths and parameters and nothing else. What SQL leaves open for it are the paths,
bare names and parameters of the text, each once and in the order of the text.

* `Segment.isOpen`, `Segment.parameter?` - the segments that a style writes;
* `Catalog.innerWords`, `openings` - what is left open, read off the tokens of the text alone;
* `Phrase.HasOpenings` - what is left open by what a phrase stands for.

Principal result: `compile_fills_segments`.
-/

namespace Dql

/-! ## Segments -/

/-- Whether a style has a say in how the segment is written. -/
def Segment.isOpen : Segment → Bool
  | .fixed _ => false
  | .path _ _ | .parameter _ => true

/-- The parameter that a segment is. -/
def Segment.parameter? : Segment → Option String
  | .parameter text => some text
  | .fixed _ | .path _ _ => none

/-- What the SQL of an expression leaves open, in the order in which it is written. -/
def Expr.openings (e : Expr) : List Segment := e.segments.filter Segment.isOpen

theorem filterMap_parameter?_filter_isOpen (segments : List Segment) :
    (segments.filter Segment.isOpen).filterMap Segment.parameter? =
      segments.filterMap Segment.parameter? := by
  rw [List.filterMap_filter]
  congr 1
  funext s
  cases s <;> rfl

namespace Expr

theorem openings_call (function : Builtin) (args : List Expr) :
    (call function args).openings = args.flatMap openings := by
  have hargs : ∀ as : List Expr,
      (List.intercalate [.fixed ", "] (segmentsOfList as)).filter Segment.isOpen =
        as.flatMap openings := by
    intro as
    induction as with
    | nil => rfl
    | cons a as ih =>
      cases as with
      | nil => simp [segmentsOfList, openings]
      | cons b bs =>
        simp only [segmentsOfList, List.intercalate_cons_cons, List.filter_append] at ih ⊢
        rw [ih, List.flatMap_cons]
        simp [openings, Segment.isOpen]
  simp [openings, segments, hargs, Segment.isOpen]

theorem openings_extension (function : Extension) (words : List String) (slots : List Expr) :
    (extension function words slots).openings =
      (arrangeSegments function.form words (segmentsOfList slots)).filter Segment.isOpen := by
  simp [openings, segments, Segment.isOpen]

theorem openings_binary (left : Expr) (op : BinaryOp) (right : Expr) :
    (binary left op right).openings = left.openings ++ right.openings := by
  simp [openings, segments, Segment.isOpen]

theorem openings_signed (sign : Sign) (operand : Expr) :
    (signed sign operand).openings = operand.openings := by
  simp [openings, segments, Segment.isOpen]

theorem openings_paren (inner : Expr) : (paren inner).openings = inner.openings := by
  simp [openings, segments, Segment.isOpen]

end Expr

/-! ## Tokens -/

/-- How many identifiers inside a call of this name are words of its form: the unit and the keyword
of `EXTRACT`. -/
def Catalog.innerWords (catalog : Catalog) (name : String) : Nat :=
  if Builtin.ofName? name = none ∧
      (catalog.find? name).map Entry.extension = some (.shipped .extract) then 2
  else 0

/-- What the tokens of a text leave open, in the order of the text. The next `words` identifiers are
words of a form; any other identifier is a path, unless a parenthesis after it makes it the name of
a call. -/
def openings (catalog : Catalog) : (words : Nat) → List Lexeme → List Segment
  | _, [] => []
  | words, l :: ls =>
    match l.kind, words with
    | .parameter, words => .parameter l.text :: openings catalog words ls
    | .path, words => .path l.entity l.field? :: openings catalog words ls
    | .identifier, words + 1 => openings catalog words ls
    | .identifier, 0 =>
      if NextIs .parenLeft ls then openings catalog (catalog.innerWords l.text) ls
      else .path l.text none :: openings catalog 0 ls
    | _, words => openings catalog words ls

section Openings

variable {catalog : Catalog} {words : Nat} {l : Lexeme} {ls : List Lexeme}

theorem openings_parameter (h : l.kind = .parameter) :
    openings catalog words (l :: ls) = .parameter l.text :: openings catalog words ls := by
  simp only [openings, h]

theorem openings_path (h : l.kind = .path) :
    openings catalog words (l :: ls) =
      .path l.entity l.field? :: openings catalog words ls := by
  simp only [openings, h]

theorem openings_word (h : l.kind = .identifier) :
    openings catalog (words + 1) (l :: ls) = openings catalog words ls := by
  simp only [openings, h]

theorem openings_callee (h : l.kind = .identifier) (hcall : NextIs .parenLeft ls) :
    openings catalog 0 (l :: ls) = openings catalog (catalog.innerWords l.text) ls := by
  simp only [openings, h, if_pos hcall]

theorem openings_name (h : l.kind = .identifier) (hcall : ¬ NextIs .parenLeft ls) :
    openings catalog 0 (l :: ls) = .path l.text none :: openings catalog 0 ls := by
  simp only [openings, h, if_neg hcall]

/-- Tokens of all other kinds leave nothing open. -/
theorem openings_mark (h : l.kind ∉ [TokenKind.parameter, .path, .identifier]) :
    openings catalog words (l :: ls) = openings catalog words ls := by
  rw [openings.eq_def]
  cases hk : l.kind <;> simp_all

theorem filterMap_parameter?_openings (catalog : Catalog) (words : Nat) (ls : List Lexeme) :
    (openings catalog words ls).filterMap Segment.parameter? =
      (ls.filter fun l => l.kind = .parameter).map Lexeme.text := by
  induction ls generalizing words with
  | nil => rfl
  | cons l ls ih =>
    cases hk : l.kind with
    | parameter => simp [openings_parameter hk, Segment.parameter?, hk, ih]
    | path =>
      rw [openings_path hk, List.filterMap_cons_none rfl, ih]
      simp [hk]
    | identifier =>
      have hskip : ((l :: ls).filter fun l => l.kind = .parameter) =
          ls.filter fun l => l.kind = .parameter := by
        simp [hk]
      rw [hskip]
      cases words with
      | succ words => rw [openings_word hk, ih]
      | zero =>
        by_cases hcall : NextIs .parenLeft ls
        · rw [openings_callee hk hcall, ih]
        · rw [openings_name hk hcall, List.filterMap_cons_none rfl, ih]
    | _ =>
      rw [openings_mark (by simp [hk]), ih]
      simp [hk]

end Openings

/-! ## What a phrase leaves open -/

/-- The words and keywords of a form, counted. -/
def wordCount : List Piece → Nat
  | [] => 0
  | .word :: form | .keyword _ :: form => wordCount form + 1
  | .comma :: form | .expression :: form | .primary _ :: form => wordCount form

/-- Words and keywords come before all slots. -/
def wordsFirst : List Piece → Bool
  | [] => true
  | .expression :: form | .primary _ :: form => wordCount form = 0 && wordsFirst form
  | .word :: form | .keyword _ :: form | .comma :: form => wordsFirst form

/-- How many identifiers at the start of a phrase are words of a form. -/
def Phrase.words : Phrase → Nat
  | .form pieces => wordCount pieces
  | _ => 0

/-- A phrase that is no form with a word after a slot. -/
def Phrase.WordsFirst : Phrase → Prop
  | .form pieces => wordsFirst pieces = true
  | _ => True

theorem wordsFirst_form (e : Extension) : wordsFirst e.form = true := by
  rcases e with (_ | _ | _) | _ <;> rfl

theorem Catalog.innerWords_eq {catalog : Catalog} {name : String} {entry : Entry}
    (hb : Builtin.ofName? name = none) (hf : catalog.find? name = some entry) :
    catalog.innerWords name = (Phrase.form entry.extension.form).words := by
  simp only [innerWords, hb, hf, Option.map_some, Option.some.injEq, true_and]
  rcases entry.extension with (_ | _ | _) | _ <;> rfl

theorem Catalog.innerWords_of_builtin {catalog : Catalog} {name : String} {function : Builtin}
    (hb : Builtin.ofName? name = some function) : catalog.innerWords name = 0 := by
  simp [innerWords, hb]

/-- What a phrase stands for leaves this open. -/
def Phrase.HasOpenings : (p : Phrase) → p.Meaning → List Segment → Prop
  | .expression, e, os | .term, e, os | .factor, e, os | .primary _, e, os => e.openings = os
  | .moreTerms, f, os | .moreFactors, f, os =>
    ∀ left : Expr, (f left).openings = left.openings ++ os
  | .arguments, es, os | .moreArguments, es, os => es.flatMap Expr.openings = os
  | .form pieces, filled, os =>
    (arrangeSegments pieces filled.1 (segmentsOfList filled.2)).filter Segment.isOpen = os

namespace Derivation

variable {catalog : Catalog} {p : Phrase} {ls rest : List Lexeme}

/-- **What a text leaves open is what the expression leaves open that it stands for.** -/
theorem openings_tree (d : Derivation catalog p ls rest) (hp : p.WordsFirst) :
    ∃ os, p.HasOpenings d.tree os ∧
      openings catalog p.words ls = os ++ openings catalog 0 rest := by
  induction d with
  | expression first more ihfirst ihmore | term first more ihfirst ihmore =>
    obtain ⟨os, hos, hls⟩ := ihfirst trivial
    obtain ⟨os', hos', hmid⟩ := ihmore trivial
    have hfirst : first.tree.openings = os := hos
    refine ⟨os ++ os', (hos' _).trans (by rw [hfirst]), ?_⟩
    rw [List.append_assoc, ← hmid]
    exact hls
  | noTerm | noFactor => exact ⟨[], fun left => (List.append_nil _).symm, rfl⟩
  | moreTerms sign op isOp next more ihnext ihmore
  | moreFactors sign op isOp next more ihnext ihmore =>
    obtain ⟨os, hos, hls⟩ := ihnext trivial
    obtain ⟨os', hos', hmid⟩ := ihmore trivial
    have hnext : next.tree.openings = os := hos
    have hmark : sign.kind ∉ [TokenKind.parameter, .path, .identifier] := by
      cases hk : sign.kind <;> rw [hk] at isOp <;> cases isOp <;> decide
    refine ⟨os ++ os', fun left => (hos' _).trans ?_, ?_⟩
    · rw [Expr.openings_binary, hnext, List.append_assoc]
    · rw [List.append_assoc, ← hmid]
      exact (openings_mark hmark).trans hls
  | signed mark sign isSign operand ih =>
    obtain ⟨os, hos, hls⟩ := ih trivial
    have hmark : mark.kind ∉ [TokenKind.parameter, .path, .identifier] := by
      cases hk : mark.kind <;> rw [hk] at isSign <;> cases isSign <;> decide
    exact ⟨os, (Expr.openings_signed _ _).trans hos, (openings_mark hmark).trans hls⟩
  | unsigned operand ih => exact ih trivial
  | paren left right hl hr inner ih =>
    obtain ⟨os, hos, hls⟩ := ih trivial
    rw [openings_mark (by rw [hr]; decide)] at hls
    exact ⟨os, (Expr.openings_paren _).trans hos, (openings_mark (by rw [hl]; decide)).trans hls⟩
  | number l hl =>
    refine ⟨[], rfl, openings_mark ?_⟩
    rcases hl with hk | hk <;> rw [hk] <;> decide
  | string l hl => exact ⟨[], rfl, openings_mark (by rw [hl]; decide)⟩
  | name l hl hcall => exact ⟨[.path l.text none], rfl, openings_name hl hcall⟩
  | parameter l hl => exact ⟨[.parameter l.text], rfl, openings_parameter hl⟩
  | path l hl => exact ⟨[.path l.entity l.field?], rfl, openings_path hl⟩
  | call l left right function hn hl hr hb args ih =>
    obtain ⟨os, hos, hls⟩ := ih trivial
    rw [openings_mark (by rw [hr]; decide)] at hls
    refine ⟨os, (Expr.openings_call _ _).trans hos, ?_⟩
    refine (openings_callee hn (by simp [NextIs, hl])).trans ?_
    rw [Catalog.innerWords_of_builtin (Builtin.ofName?_eq_some_iff.2 hb)]
    exact (openings_mark (by rw [hl]; decide)).trans hls
  | extension l left entry hn hl hb hf production pieces ih =>
    obtain rfl := production_iff.1 production
    obtain ⟨os, hos, hls⟩ := ih (wordsFirst_form _)
    refine ⟨os, (Expr.openings_extension _ _ _).trans hos, ?_⟩
    refine (openings_callee hn (by simp [NextIs, hl])).trans ?_
    rw [Catalog.innerWords_eq (Builtin.ofName?_eq_none_iff.2 hb) hf]
    exact (openings_mark (by rw [hl]; decide)).trans hls
  | noArgument | noMoreArgument => exact ⟨[], rfl, rfl⟩
  | arguments first more ihfirst ihmore =>
    obtain ⟨os, hos, hls⟩ := ihfirst trivial
    obtain ⟨os', hos', hmid⟩ := ihmore trivial
    refine ⟨os ++ os', congr (congrArg _ hos) hos', ?_⟩
    rw [List.append_assoc, ← hmid]
    exact hls
  | moreArguments comma hc next more ihnext ihmore =>
    obtain ⟨os, hos, hls⟩ := ihnext trivial
    obtain ⟨os', hos', hmid⟩ := ihmore trivial
    refine ⟨os ++ os', congr (congrArg _ hos) hos', ?_⟩
    rw [List.append_assoc, ← hmid]
    exact (openings_mark (by rw [hc]; decide)).trans hls
  | formEnd right hr => exact ⟨[], rfl, openings_mark (by rw [hr]; decide)⟩
  | word l hl more ih | keyword l hl more ih =>
    obtain ⟨os, hos, hls⟩ := ih hp
    exact ⟨os, hos, (openings_word hl).trans hls⟩
  | comma l hl more ih =>
    obtain ⟨os, hos, hls⟩ := ih hp
    exact ⟨os, hos, (openings_mark (by rw [hl]; decide)).trans hls⟩
  | expressionSlot slot more ihslot ihmore | primarySlot slot more ihslot ihmore =>
    obtain ⟨hwords, hmore⟩ : _ ∧ _ := by simpa [Phrase.WordsFirst, wordsFirst] using hp
    obtain ⟨os, hos, hls⟩ := ihslot trivial
    obtain ⟨os', hos', hmid⟩ := ihmore hmore
    rw [Phrase.words, hwords] at hmid
    refine ⟨os ++ os', ?_, ?_⟩
    · rw [← hos', ← show slot.tree.openings = os from hos]
      exact List.filter_append _ _
    rw [List.append_assoc, ← hmid, Phrase.words, wordCount, hwords]
    exact hls

end Derivation

/-- **A style writes paths and parameters, each once and in the order of the text, and nothing
else.** If a text does not compile, it does not compile in any style, and for the same reason.
Otherwise it is parsed to a node of a table, and there is one list of segments that every style
fills: what is written under that node, and so what the text compiles to, is one text after another
for the segments, fixed text as it is, paths by the resolver, and parameters as `?` or as they are.
The segments left open are those of the tokens of the text; in particular the parameters are its
parameters. -/
theorem compile_fills_segments (catalog : Catalog) (text : String) :
    (∃ err, ∀ style, (compile catalog style text).1 = .error err) ∨
    ∃ root table, (parseNodes catalog text).1 = .ok (root, table) ∧ ∃ segments : List Segment,
      (∀ style, ∃ texts, List.Forall₂ (Written style) segments texts ∧
        table.toSql? style root = some (String.join texts) ∧
        (compile catalog style text).1 = .ok (String.join texts)) ∧
      segments.filter Segment.isOpen = openings catalog 0 (TokenList.ofText text).lexemes ∧
      segments.filterMap Segment.parameter? =
        ((TokenList.ofText text).lexemes.filter fun l => l.kind = .parameter).map Lexeme.text := by
  cases hparse : (parse catalog text).1 with
  | error err => exact .inl ⟨err, fun style => compile_eq_error_iff.2 hparse⟩
  | ok e =>
    have hnodes : (parseNodes catalog text).1 = .ok (NodeTable.empty.store e) := by
      rw [parseNodes_eq_parse, hparse]
      rfl
    refine .inr ⟨_, _, hnodes, e.segments, fun style => ?_, ?_⟩
    · obtain ⟨texts, hwritten, hsql⟩ := toSql_written style e
      refine ⟨texts, hwritten, ?_, compile_eq_ok_iff.2 ⟨e, hparse, hsql⟩⟩
      rw [NodeTable.toSql?_store, hsql]
    · obtain ⟨-, d, rfl, -⟩ := parse_eq_ok_iff.1 hparse
      obtain ⟨os, hos, hls⟩ := d.openings_tree trivial
      have htokens : d.tree.segments.filter Segment.isOpen =
          openings catalog 0 (TokenList.ofText text).lexemes := by
        rw [show openings catalog 0 _ = _ from hls]
        exact hos.trans (List.append_nil os).symm
      refine ⟨htokens, ?_⟩
      rw [← filterMap_parameter?_filter_isOpen, htokens, filterMap_parameter?_openings]

/-- Neither the name of a call nor the words of its form are paths; a name that stands alone is. -/
example : openings .defaults 0 (TokenList.ofText "EXTRACT(YEAR FROM u.d) + f * :p").lexemes =
    [.path "u" (some "d"), .path "f" none, .parameter ":p"] := by
  decide +kernel

end Dql
