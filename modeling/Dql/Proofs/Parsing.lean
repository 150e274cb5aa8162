import Dql.Compile
import Dql.Proofs.Completeness
import Dql.Proofs.Lexing
import Dql.Proofs.Refinement
import Dql.Proofs.Storage

/-!
# The parser and its grammar

A text is parsed if and only if it can be read to its end and its lexemes derive as an expression in
which no more than `maxNesting` primaries stand inside one another. There is then one derivation,
and what is parsed is its tree.

Principal results: `parse_eq_ok_iff` and `parses_exactly_the_grammar`.
-/

namespace Dql

/-- Every character of the text is read, blanks and lexemes. -/
def ReadsToEnd (text : String) : Prop := ∃ n, (TokenList.ofText text).ending = .endOfText n

/-- There is at most one derivation of a whole text. -/
theorem Derivation.eq_of_whole {catalog : Catalog} {ls : List Lexeme}
    (d d' : Derivation catalog .expression ls []) : d = d' := by
  have hclosed := Phrase.closed_nil .expression
  have h := Derivation.unique (p := .expression) trivial d d' hclosed hclosed
  exact eq_of_heq (Sigma.mk.inj h).2

/-! ## What is parsed, told by trees -/

/-- Whether a text is parsed, and to what, is told by the parser to trees: the table that is given
holds the nodes of the tree and nothing else. -/
theorem parseNodes_eq (catalog : Catalog) (text : String) :
    parseNodes catalog text = storedResult (wholeExpression catalog (.ofText text)) :=
  Parser.parseWith_eq (storesPrimaries catalog 0) text

theorem parse_eq (catalog : Catalog) (text : String) :
    parse catalog text =
      match wholeExpression catalog (.ofText text) with
      | .ok e s => (.ok e, s.dispatched)
      | .error f s => (.error f.error, s.dispatched) := by
  rw [parse, parseNodes_eq]
  cases wholeExpression catalog (.ofText text) with
  | ok e s => simp only [storedResult, NodeTable.expr?_store, Option.getD_some]
  | error f s => rfl

/-- The table of a text holds the nodes of the expression that it stands for. -/
theorem parseNodes_eq_parse (catalog : Catalog) (text : String) :
    parseNodes catalog text =
      ((parse catalog text).1.map NodeTable.empty.store, (parse catalog text).2) := by
  rw [parseNodes_eq, parse_eq]
  cases wholeExpression catalog (.ofText text) <;> rfl

theorem parseNodes_eq_error_iff {catalog : Catalog} {text : String} {err : ParseError} :
    (parseNodes catalog text).1 = .error err ↔ (parse catalog text).1 = .error err := by
  rw [parseNodes_eq_parse]
  cases (parse catalog text).1 <;> simp [Except.map]

/-- What is compiled is the SQL of the expression that the text stands for. -/
theorem compile_eq (catalog : Catalog) (style : Style) (text : String) :
    compile catalog style text =
      match parse catalog text with
      | (.ok e, events) => (.ok (e.toSql style), events ++ [.compiled text (e.toSql style)])
      | (.error err, events) => (.error err, events) := by
  rw [compile, parseNodes_eq_parse]
  obtain ⟨_ | e, events⟩ := parse catalog text
  · rfl
  · simp only [Except.map, NodeTable.toSql?_store, Option.getD_some]

theorem recompiles_eq (text : String) :
    recompiles text =
      match parse .defaults text with
      | (.ok e, events) =>
        match compile .defaults {} (e.toSql {}) with
        | (.ok again, more) => (e.toSql {} == again, events ++ more)
        | (.error _, more) => (true, events ++ more)
      | (.error _, events) => (true, events) := by
  rw [recompiles, parseNodes_eq_parse]
  obtain ⟨_ | e, events⟩ := parse .defaults text
  · rfl
  · dsimp only [Except.map]
    rw [NodeTable.toSql?_store]
    rfl

/-! ## The grammar -/

/-- **A text is parsed as an expression if and only if it derives as that expression**, within the
limit on nesting. -/
theorem parse_eq_ok_iff {catalog : Catalog} {text : String} {e : Expr} :
    (parse catalog text).1 = .ok e ↔ ReadsToEnd text ∧
      Derives catalog .expression maxNesting (TokenList.ofText text).lexemes [] e := by
  rw [parse_eq]
  constructor
  · intro h
    split at h
    · rename_i s hparse
      cases h
      exact wholeWithin_sound hparse
    · cases h
  · rintro ⟨hend, d, rfl, hd⟩
    have hlexemes : (Progress.ofText text).lexemes = (TokenList.ofText text).lexemes := rfl
    obtain ⟨s, hparse⟩ := d.wholeWithin_ok hd hlexemes hend
    rw [show wholeExpression catalog (.ofText text) = .ok d.tree s from hparse]

/-- A text stands for what the parser succeeds with. -/
theorem parse_eq_ok_iff_run {catalog : Catalog} {text : String} {e : Expr} :
    (parse catalog text).1 = .ok e ↔ ∃ s, wholeExpression catalog (.ofText text) = .ok e s := by
  rw [parse_eq]
  cases wholeExpression catalog (.ofText text) <;> simp

/-- A text is rejected by the error that the parser fails with. -/
theorem parse_eq_error_iff {catalog : Catalog} {text : String} {err : ParseError} :
    (parse catalog text).1 = .error err ↔
      ∃ f s, wholeExpression catalog (.ofText text) = .error f s ∧ f.error = err := by
  rw [parse_eq]
  cases wholeExpression catalog (.ofText text) <;> simp

/-- **The parser accepts exactly its grammar and builds the tree of the derivation.** Parsing
succeeds if and only if the text is read to its end and derives as an expression in which at most
256 primaries stand inside one another. Then the derivation is the only one, and its tree is under
the root in the table that the parser gives. -/
theorem parses_exactly_the_grammar (catalog : Catalog) (text : String) :
    ((∃ root table, (parseNodes catalog text).1 = .ok (root, table)) ↔ ReadsToEnd text ∧
      ∃ d : Derivation catalog .expression (TokenList.ofText text).lexemes [], d.nesting ≤ 256) ∧
    ∀ root table, (parseNodes catalog text).1 = .ok (root, table) →
      ∃ d : Derivation catalog .expression (TokenList.ofText text).lexemes [],
        (∀ d', d' = d) ∧ table.expr? root = some d.tree ∧ (parse catalog text).1 = .ok d.tree := by
  have hnodes : ∀ root table, (parseNodes catalog text).1 = .ok (root, table) ↔
      ∃ e, (parse catalog text).1 = .ok e ∧ NodeTable.empty.store e = (root, table) := by
    intro root table
    rw [parseNodes_eq_parse]
    cases (parse catalog text).1 <;> simp [Except.map]
  refine ⟨⟨?_, ?_⟩, ?_⟩
  · rintro ⟨root, table, h⟩
    obtain ⟨e, he, -⟩ := (hnodes root table).1 h
    obtain ⟨hend, d, -, hd⟩ := parse_eq_ok_iff.1 he
    exact ⟨hend, d, hd⟩
  · rintro ⟨hend, d, hd⟩
    exact ⟨_, _, (hnodes _ _).2 ⟨d.tree, parse_eq_ok_iff.2 ⟨hend, d, rfl, hd⟩, rfl⟩⟩
  · intro root table h
    obtain ⟨e, he, hstore⟩ := (hnodes root table).1 h
    obtain ⟨-, d, rfl, -⟩ := parse_eq_ok_iff.1 he
    refine ⟨d, fun d' => d'.eq_of_whole d, ?_, he⟩
    have hread := NodeTable.expr?_store NodeTable.empty d.tree
    rwa [hstore] at hread

/-- A text compiles if it is parsed, and to the SQL of what is parsed. -/
theorem compile_eq_ok_iff {catalog : Catalog} {style : Style} {text sql : String} :
    (compile catalog style text).1 = .ok sql ↔
      ∃ e, (parse catalog text).1 = .ok e ∧ e.toSql style = sql := by
  rw [compile_eq]
  obtain ⟨_ | e, events⟩ := parse catalog text <;> simp

/-- A text fails to compile if it fails to parse, and for the same reason. -/
theorem compile_eq_error_iff {catalog : Catalog} {style : Style} {text : String}
    {err : ParseError} :
    (compile catalog style text).1 = .error err ↔ (parse catalog text).1 = .error err := by
  rw [compile_eq]
  obtain ⟨_ | e, events⟩ := parse catalog text <;> simp

end Dql
