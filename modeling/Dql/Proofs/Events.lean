import Dql.Proofs.EarliestError
import Dql.Proofs.Marks
import Dql.Proofs.NestingLimit
import Dql.Proofs.Postorder

/-!
# What a compilation reports

A call of an extension is reported when its name is seen, and stored when all of it is parsed. So
reports come in the order of the names in the text, and nodes in the order in which calls are
finished; but there is one report for each call that is stored, and some more if parsing fails in
the middle of calls.

* `Derivation.marks` - the names in calls, as a derivation has them;
* `CalledIn` - a token of a text that is the name in a call;
* `calls_storeAll` - how many calls are stored.

Principal result: `compile_reports_calls`.
-/

namespace Dql

variable {catalog : Catalog}

/-! ## Names in derivations -/

namespace Derivation

variable {p : Phrase} {ls rest : List Lexeme}

/-- For each lexeme of a derivation, the extension in whose call it is the name, if it is one. -/
def marks {p : Phrase} {ls rest : List Lexeme} : Derivation catalog p ls rest → List Mark
  | .expression first more => first.marks ++ more.marks
  | .noTerm => []
  | .moreTerms _ _ _ next more => none :: (next.marks ++ more.marks)
  | .term first more => first.marks ++ more.marks
  | .noFactor => []
  | .moreFactors _ _ _ next more => none :: (next.marks ++ more.marks)
  | .signed _ _ _ operand => none :: operand.marks
  | .unsigned operand => operand.marks
  | .paren _ _ _ _ inner => none :: inner.marks ++ [none]
  | .number _ _ => [none]
  | .name _ _ _ => [none]
  | .string _ _ => [none]
  | .parameter _ _ => [none]
  | .path _ _ => [none]
  | .call _ _ _ _ _ _ _ _ args => none :: none :: args.marks ++ [none]
  | .extension _ _ entry _ _ _ _ _ pieces => some entry.extension :: none :: pieces.marks
  | .noArgument => []
  | .arguments first more => first.marks ++ more.marks
  | .noMoreArgument => []
  | .moreArguments _ _ next more => none :: (next.marks ++ more.marks)
  | .formEnd _ _ => [none]
  | .word _ _ more => none :: more.marks
  | .keyword _ _ more => none :: more.marks
  | .comma _ _ more => none :: more.marks
  | .expressionSlot slot more => slot.marks ++ more.marks
  | .primarySlot slot more => slot.marks ++ more.marks

end Derivation

/-- The marks of what a phrase stands for. -/
def Phrase.HasMarks : (p : Phrase) → p.Meaning → List Mark → Prop
  | .expression, e, ms | .term, e, ms | .factor, e, ms | .primary _, e, ms => e.marks = ms
  | .moreTerms, f, ms | .moreFactors, f, ms => ∀ left : Expr, (f left).marks = left.marks ++ ms
  | .arguments, es, ms => List.intercalate [none] (marksOfList es) = ms
  | .moreArguments, es, ms => (es.flatMap fun e => none :: e.marks) = ms
  | .form pieces, filled, ms => markForm pieces (marksOfList filled.2) ++ [none] = ms

/-- **An expression marks the names in its calls**: those that its derivation has there. -/
theorem Derivation.marks_tree {p : Phrase} {ls rest : List Lexeme}
    (d : Derivation catalog p ls rest) : p.HasMarks d.tree d.marks := by
  induction d with
  | expression first more ihfirst ihmore | term first more ihfirst ihmore =>
    have hfirst : first.tree.marks = first.marks := ihfirst
    exact (ihmore first.tree).trans (by rw [hfirst]; rfl)
  | noTerm | noFactor => exact fun left => (List.append_nil _).symm
  | moreTerms _ op _ next more ihnext ihmore | moreFactors _ op _ next more ihnext ihmore =>
    intro left
    have hnext : next.tree.marks = next.marks := ihnext
    refine (ihmore (.binary left op next.tree)).trans ?_
    rw [Expr.marks, hnext, List.append_assoc]
    rfl
  | signed _ _ _ _ ih => exact congrArg (none :: ·) ih
  | unsigned _ ih => exact ih
  | paren _ _ _ _ _ ih => exact congrArg (none :: · ++ [none]) ih
  | call _ _ _ _ _ _ _ _ _ ih => exact congrArg (none :: none :: · ++ [none]) ih
  | extension _ _ entry _ _ _ _ production _ ih =>
    obtain rfl := production_iff.1 production
    exact congrArg (some entry.extension :: none :: ·) ih
  | path => rfl
  | number | name | string | parameter | noArgument | noMoreArgument | formEnd => rfl
  | arguments first more ihfirst ihmore =>
    refine (intercalate_marks first.tree more.tree).trans ?_
    exact congr (congrArg HAppend.hAppend ihfirst) ihmore
  | moreArguments _ _ first more ihfirst ihmore =>
    exact congrArg (none :: ·) (congr (congrArg HAppend.hAppend ihfirst) ihmore)
  | expressionSlot first more ihfirst ihmore | primarySlot first more ihfirst ihmore =>
    exact (List.append_assoc ..).trans (congr (congrArg HAppend.hAppend ihfirst) ihmore)
  | word _ _ _ ih | keyword _ _ _ ih | comma _ _ _ ih => exact congrArg (none :: ·) ih

/-! ## Names in texts -/

/-- A token of a text that is the name in a call of an extension: an identifier before an opening
parenthesis that is registered and not the name of a built-in function. -/
structure CalledIn (catalog : Catalog) (tokens : List Token) (name : Token) : Prop where
  identifier : name.kind = .identifier
  parenthesis : ∃ left : Token, [name, left] <:+: tokens ∧ left.kind = .parenLeft
  registered : (catalog.find? name.text).isSome = true
  notBuiltin : Builtin.ofName? name.text = none

section Names

variable {tokens tokens' taken : List Token} {marks : List Mark} {name : Token}

theorem CalledIn.mono (h : CalledIn catalog tokens name) (hpart : tokens <:+: tokens') :
    CalledIn catalog tokens' name := by
  obtain ⟨left, hleft, hkind⟩ := h.parenthesis
  exact ⟨h.identifier, ⟨left, hleft.trans hpart, hkind⟩, h.registered, h.notBuiltin⟩

/-- Tokens that the catalog says are names in calls are that. -/
theorem Noted.calledIn (h : Noted catalog taken marks) :
    ∀ name ∈ callNames taken marks, CalledIn catalog taken name := by
  induction h with
  | nil => exact nofun
  | plain t _ ih => exact fun name hname => (ih name hname).mono (List.suffix_cons t _).isInfix
  | @call name left entry taken marks hname hleft hbuiltin hfind _ ih =>
    have hnames : callNames (name :: left :: taken) (some entry.extension :: none :: marks) =
        name :: callNames taken marks := rfl
    rw [hnames, List.forall_mem_cons]
    constructor
    · exact ⟨hname, ⟨left, ⟨[], taken, rfl⟩, hleft⟩, by rw [hfind]; rfl, hbuiltin⟩
    · exact fun other hother => (ih other hother).mono
        ((List.suffix_cons left _).trans (List.suffix_cons name _)).isInfix

theorem callNames_sublist : (taken : List Token) → (marks : List Mark) →
    (callNames taken marks).Sublist taken
  | [], _ => .refl _
  | _ :: _, [] => List.nil_sublist _
  | t :: taken, none :: marks => (callNames_sublist taken marks).cons t
  | t :: taken, some _ :: marks => (callNames_sublist taken marks).cons_cons t

theorem Noted.length_callNames (h : Noted catalog taken marks) :
    (callNames taken marks).length = (marks.filterMap id).length := by
  induction h with
  | nil => rfl
  | plain _ _ ih => exact ih
  | call _ _ _ _ _ ih => exact congrArg (· + 1) ih

/-- Tokens in order start one after another. -/
theorem InOrder.pairwise_start {position : Nat} {ending : Ending}
    (h : InOrder position tokens ending) : tokens.Pairwise fun t u => t.start < u.start := by
  induction tokens generalizing position with
  | nil => exact .nil
  | cons t ts ih =>
    obtain ⟨-, hstop, hts⟩ := h
    exact .cons (fun u hu => Nat.lt_of_lt_of_le hstop (hts.le_start u hu)) (ih hts)

theorem callNames_pairwise {text : String}
    (h : taken <+: (TokenList.ofText text).tokens) (marks : List Mark) :
    (callNames taken marks).Pairwise fun t u => t.start < u.start :=
  (ofChars_inOrder 0 text.toList).pairwise_start.sublist
    ((callNames_sublist taken marks).trans h.sublist)

end Names

/-! ## Calls in tables -/

namespace NodeTable

mutual

theorem calls_store (t : NodeTable) : (e : Expr) →
    (t.store e).2.calls.size = t.calls.size + e.extensions.length
  | .number _ | .string _ | .path _ _ | .parameter _ => rfl
  | .call _ args => calls_storeAll t args
  | .extension function words slots => by
    calc (t.store (.extension function words slots)).2.calls.size
        = (t.storeAll slots).2.calls.size + 1 := Array.size_push _
      _ = t.calls.size + (extensionsOfList slots).length + 1 := by rw [calls_storeAll t slots]
  | .binary left _ right => by
    have hleft := calls_store t left
    have hright := calls_store (t.store left).2 right
    rw [Expr.extensions, List.length_append, ← Nat.add_assoc, ← hleft, ← hright]
    rfl
  | .signed _ operand => calls_store t operand
  | .paren inner => calls_store t inner

/-- Storing expressions adds one call for each call in them. -/
theorem calls_storeAll (t : NodeTable) : (es : List Expr) →
    (t.storeAll es).2.calls.size = t.calls.size + (extensionsOfList es).length
  | [] => rfl
  | e :: es => by
    have hfirst := calls_store t e
    have hmore := calls_storeAll (t.store e).2 es
    rw [extensionsOfList, List.length_append, ← Nat.add_assoc, ← hfirst, ← hmore]
    rfl

end

end NodeTable

/-! ## Whole texts -/

theorem after_expectEnd (s : Progress) : expectEnd.after s = s := by
  cases hseen : s.stream.lookahead with
  | error cause =>
    exact Parse.after_of_error (Parse.bind_of_error (peek_eq_error hseen) _)
  | ok seen =>
    have hpeek : peek s = .ok seen s := peek_ok_iff.2 ⟨hseen, rfl⟩
    cases seen with
    | endOfText => exact Parse.after_of_ok (Parse.bind_of_ok hpeek _)
    | token t => exact Parse.after_of_error (Parse.bind_of_ok hpeek _)

theorem after_holding (e : Expr) (s : Progress) : (holding e expectEnd).after s = s := by
  have hafter := after_expectEnd s
  unfold Parse.after holding EStateM.adaptExcept at *
  cases hend : expectEnd s <;> simpa only [hend] using hafter

/-- Nothing is taken to see that an expression is all of a text. -/
theorem after_wholeExpression (catalog : Catalog) (s : Progress) :
    (wholeExpression catalog).after s =
      (expression (Dql.primary catalog maxNesting)).after s := by
  cases hexpr : expression (Dql.primary catalog maxNesting) s with
  | error f s₁ =>
    rw [Parse.after_of_error hexpr]
    exact Parse.after_of_error (Parse.bind_of_error hexpr _)
  | ok e s₁ =>
    rw [Parse.after_of_ok hexpr]
    have hafter := after_holding e s₁
    cases hend : holding e expectEnd s₁ with
    | error f s₂ =>
      rw [Parse.after_of_error hend] at hafter
      subst hafter
      exact Parse.after_of_error ((Parse.bind_of_ok hexpr _).trans (Parse.bind_of_error hend _))
    | ok u s₂ =>
      rw [Parse.after_of_ok hend] at hafter
      subst hafter
      exact Parse.after_of_ok ((Parse.bind_of_ok hexpr _).trans (Parse.bind_of_ok hend _))

theorem after_map {α β : Type} (p : Parse α) (f : α → β) (s : Progress) :
    (p >>= fun a => pure (f a)).after s = p.after s := by
  cases hp : p s with
  | ok a s₁ =>
    have hmap : (p >>= fun a => pure (f a)) s = .ok (f a) s₁ := Parse.bind_of_ok hp _
    rw [Parse.after_of_ok hp, Parse.after_of_ok hmap]
  | error g s₁ => rw [Parse.after_of_error hp, Parse.after_of_error (Parse.bind_of_error hp _)]

theorem Session.progress_step (s : Session) (what : Step) :
    (s.step what).2.progress =
      (what.treeParser s.catalog (maxNesting - s.depth)).after s.progress := by
  rw [step_eq]
  unfold Parse.after
  cases what.treeParser s.catalog (maxNesting - s.depth) s.progress <;> rfl

/-- A text is parsed as a session does it in two steps. -/
theorem progress_run_whole (catalog : Catalog) (text : String) :
    ((Session.start catalog text).run [.expression, .finish]).progress =
      (wholeExpression catalog).after (.ofText text) := by
  have hfinish : ∀ s : Session, (s.step .finish).2.progress = s.progress := fun s =>
    (s.progress_step .finish).trans ((after_map expectEnd _ _).trans (after_expectEnd _))
  have hexpression : ((Session.start catalog text).step .expression).2.progress =
      (expression (Dql.primary catalog maxNesting)).after (.ofText text) :=
    (Session.progress_step _ .expression).trans (after_map _ _ _)
  rw [after_wholeExpression]
  exact (hfinish _).trans hexpression

theorem events_parse (catalog : Catalog) (text : String) :
    (parse catalog text).2 = ((wholeExpression catalog).after (.ofText text)).dispatched := by
  rw [parse_eq]
  unfold Parse.after
  cases wholeExpression catalog (.ofText text) <;> rfl

/-- What a successful compilation reports. -/
theorem reports_of_ok {catalog : Catalog} {style : Style} {text sql : String}
    (h : (compile catalog style text).1 = .ok sql) :
    (compile catalog style text).2 = (parse catalog text).2 ++ [.compiled text sql] := by
  rw [compile_eq] at h ⊢
  generalize parse catalog text = outcome at h ⊢
  obtain ⟨_ | e, events⟩ := outcome <;> cases h
  rfl

theorem reports_of_error {catalog : Catalog} {style : Style} {text : String} {err : ParseError}
    (h : (compile catalog style text).1 = .error err) :
    (compile catalog style text).2 = (parse catalog text).2 := by
  rw [compile_eq] at h ⊢
  generalize parse catalog text = outcome at h ⊢
  obtain ⟨_ | e, events⟩ := outcome <;> cases h
  rfl

/-- A whole text is taken to its end. -/
theorem lexemes_of_wholeExpression {catalog : Catalog} {s s₁ : Progress} {e : Expr}
    (h : wholeExpression catalog s = .ok e s₁) : s₁.lexemes = [] := by
  obtain ⟨e', s₂, -, h⟩ := Parse.bind_ok_iff.1 h
  obtain ⟨_, s₃, hend, hpure⟩ := Parse.bind_ok_iff.1 h
  obtain ⟨-, rfl⟩ := Parse.pure_ok_iff.1 hpure
  obtain ⟨seen, s₄, hpeek, hseen⟩ := Parse.bind_ok_iff.1 (holding_ok_iff.1 hend)
  obtain ⟨hlookahead, rfl⟩ := peek_ok_iff.1 hpeek
  cases seen with
  | token t => exact absurd hseen Parse.fail_ne_ok
  | endOfText n =>
    obtain ⟨-, rfl⟩ := Parse.pure_ok_iff.1 hseen
    exact (Progress.lexemes_eq_nil_of_lookahead hlookahead).1

/-- A text that is parsed is taken with the marks of the expression. -/
theorem noted_of_parse {catalog : Catalog} {text : String} {e : Expr}
    (h : (parse catalog text).1 = .ok e) :
    Noted catalog (TokenList.ofText text).tokens e.marks ∧ (parse catalog text).2 =
      (callNames (TokenList.ofText text).tokens e.marks).map Token.dispatching := by
  obtain ⟨s₁, hwhole⟩ := parse_eq_ok_iff_run.1 h
  obtain ⟨taken, marks, hreports, hmarks⟩ :=
    (wholeExpression_marked (.ofText text)).ok hwhole
  replace hmarks : e.marks = marks := hmarks
  have htaken : (TokenList.ofText text).tokens = taken := by
    have htokens : (TokenList.ofText text).tokens = taken ++ s₁.stream.ahead :=
      congrArg TokenList.tokens hreports.takes.list
    have hnil : s₁.stream.ahead = [] := List.map_eq_nil_iff.1 (lexemes_of_wholeExpression hwhole)
    rw [htokens, hnil, List.append_nil]
  rw [htaken, hmarks, events_parse, Parse.after_of_ok hwhole, hreports.dispatched]
  exact ⟨hreports.noted, List.nil_append _⟩

theorem filterMap_flatMap_marks (es : List Expr) :
    (es.flatMap Expr.marks).filterMap id = extensionsOfList es := by
  rw [List.filterMap_flatMap, ← filterMap_marksOfList, marksOfList_eq_map, List.flatMap_map]

/-- **Reports match calls.** A successful compilation reports the calls of extensions that are in
the expression, each with the text and the place of its name as the derivation of the text has it,
in the order of the names, then the compilation itself, and nothing else; and as many calls are
stored. A failing one reports calls only, of names that are registered, before opening parentheses,
in their order and before the place of the error, and as many at least as calls are stored. -/
theorem compile_reports_calls (catalog : Catalog) (style : Style) (text : String) :
    let outcome := compile catalog style text
    let tokens := (TokenList.ofText text).tokens
    let table := ((Session.start catalog text).run [.expression, .finish]).table
    (∀ sql, outcome.1 = .ok sql →
      ∃ d : Derivation catalog .expression (TokenList.ofText text).lexemes [],
        (parse catalog text).1 = .ok d.tree ∧ d.tree.toSql style = sql ∧
        d.marks.length = tokens.length ∧ d.marks.filterMap id = d.tree.extensions ∧
        let names := callNames tokens d.marks
        outcome.2 = names.map Token.dispatching ++ [.compiled text sql] ∧
        names.Pairwise (fun t u => t.start < u.start) ∧
        (∀ name ∈ names, CalledIn catalog tokens name) ∧ names.length = table.calls.size ∧
        ∃ root, (parseNodes catalog text).1 = .ok (root, table)) ∧
    ∀ err, outcome.1 = .error err → ∃ names : List Token,
      outcome.2 = names.map Token.dispatching ∧ names.Sublist tokens ∧
      names.Pairwise (fun t u => t.start < u.start) ∧
      (∀ name ∈ names, CalledIn catalog tokens name ∧ name.start < err.position) ∧
      table.calls.size ≤ names.length := by
  intro outcome tokens table
  constructor
  case left =>
    intro sql hsql
    obtain ⟨e, hparse, rfl⟩ := compile_eq_ok_iff.1 hsql
    obtain ⟨-, d, rfl, -⟩ := parse_eq_ok_iff.1 hparse
    have hmarks : d.tree.marks = d.marks := d.marks_tree
    obtain ⟨hnoted, hevents⟩ := noted_of_parse hparse
    rw [hmarks] at hnoted hevents
    have hextensions : d.marks.filterMap id = d.tree.extensions := by
      rw [← hmarks, d.tree.filterMap_marks]
    have htable : table = (NodeTable.empty.store d.tree).2 := (Session.answers_of_parse hparse).2
    refine ⟨d, hparse, rfl, hnoted.length_eq.symm, hextensions, ?_,
      callNames_pairwise (List.prefix_refl _) d.marks, hnoted.calledIn, ?_, ?_⟩
    · rw [← hevents]
      exact reports_of_ok hsql
    · rw [hnoted.length_callNames, hextensions, htable, NodeTable.calls_store]
      exact (Nat.zero_add _).symm
    · exact ⟨(NodeTable.empty.store d.tree).1, by rw [parseNodes_eq_parse, hparse, htable]; rfl⟩
  case right =>
    intro err herr
    obtain ⟨f, s₁, hwhole, rfl⟩ := parse_eq_error_iff.1 (compile_eq_error_iff.1 herr)
    obtain ⟨taken, marks, stored, hspends⟩ :=
      (Session.start catalog text).run_spends [.expression, .finish]
    have hreports := hspends.reports
    have htable := hspends.table
    rw [progress_run_whole, Parse.after_of_error hwhole] at hreports
    have htokens : tokens = taken ++ s₁.stream.ahead :=
      congrArg TokenList.tokens hreports.takes.list
    have hprefix : taken <+: tokens := ⟨_, htokens.symm⟩
    refine ⟨callNames taken marks, ?_, (callNames_sublist taken marks).trans hprefix.sublist,
      callNames_pairwise hprefix marks, fun name hname => ⟨?_, ?_⟩, ?_⟩
    · rw [show outcome.2 = (parse catalog text).2 from reports_of_error herr, events_parse,
        Parse.after_of_error hwhole, hreports.dispatched]
      exact List.nil_append _
    · exact (hreports.noted.calledIn name hname).mono hprefix.isInfix
    · -- what is taken starts before the place where the parser stops
      obtain ⟨-, -, hstops, -⟩ := (wholeWithin_replays (Nat.le_refl maxNesting) _).error hwhole
      have hlist : TokenList.ofText text = s₁.list.prepend taken := hreports.takes.list
      have horder := ofChars_inOrder 0 text.toList
      rw [← TokenList.ofText, hlist] at horder
      obtain ⟨position, -, hahead, htaken⟩ := horder.append
      exact Nat.lt_of_lt_of_le (htaken name ((callNames_sublist taken marks).subset hname))
        (hstops.le_position hahead)
    · have hcalls : table.calls.size = ((stored.flatMap Expr.marks).filterMap id).length := by
        rw [filterMap_flatMap_marks, show table = _ from htable, NodeTable.calls_storeAll]
        exact Nat.zero_add _
      rw [hcalls, hreports.noted.length_callNames]
      exact (hspends.sublist.filterMap id).length_le

end Dql
