import Dql.Proofs.RoundTrip
import Dql.Proofs.Stretches

/-!
# Chains of operators

An expression written as a chain: factors with operators between them, in the order of the text. How
tightly the operators bind decides the tree, but not what is written for it, so two chains with an
operator between them are a chain again.

* `Derivation.before` - a derivation before more lexemes;
* `Chain` - factors joined by operators, and what is written for them.

Principal results: `Chain.append`, and `Derivation.chain_expression` and
`Chain.exists_derivation` - chains are what expressions are.
-/

namespace Dql

variable {catalog : Catalog} {ls ms mid rest tail : List Lexeme}

namespace Derivation

/-! ## More lexemes -/

/-- The same derivation before more lexemes. These start with no parenthesis, which would make a
call of a name before it. -/
def before (h : ¬ NextIs .parenLeft tail) {p : Phrase} {ls rest : List Lexeme} :
    Derivation catalog p ls rest → Derivation catalog p (ls ++ tail) (rest ++ tail)
  | .expression first more => .expression (first.before h) (more.before h)
  | .noTerm => .noTerm
  | .moreTerms sign op isOp next more =>
    .moreTerms sign op isOp (next.before h) (more.before h)
  | .term first more => .term (first.before h) (more.before h)
  | .noFactor => .noFactor
  | .moreFactors sign op isOp next more =>
    .moreFactors sign op isOp (next.before h) (more.before h)
  | .signed mark sign isSign operand => .signed mark sign isSign (operand.before h)
  | .unsigned operand => .unsigned (operand.before h)
  | .paren left right isLeft isRight inner => .paren left right isLeft isRight (inner.before h)
  | .number l isNumber => .number l isNumber
  | .name l isName noCall => .name l isName (Stretch.not_nextIs_append noCall h)
  | .string l isString => .string l isString
  | .parameter l isParameter => .parameter l isParameter
  | .path l isPath => .path l isPath
  | .call l left right function isName isLeft isRight builtin args =>
    .call l left right function isName isLeft isRight builtin (args.before h)
  | .extension l left entry isName isLeft notBuiltin found production pieces =>
    .extension l left entry isName isLeft notBuiltin found production (pieces.before h)
  | .noArgument => .noArgument
  | .arguments first more => .arguments (first.before h) (more.before h)
  | .noMoreArgument => .noMoreArgument
  | .moreArguments mark isComma next more =>
    .moreArguments mark isComma (next.before h) (more.before h)
  | .formEnd right isRight => .formEnd right isRight
  | .word l isName more => .word l isName (more.before h)
  | .keyword l isName more => .keyword l isName (more.before h)
  | .comma l isComma more => .comma l isComma (more.before h)
  | .expressionSlot slot more => .expressionSlot (slot.before h) (more.before h)
  | .primarySlot slot more => .primarySlot (slot.before h) (more.before h)

theorem tree_before (h : ¬ NextIs .parenLeft tail) {p : Phrase}
    (d : Derivation catalog p ls rest) : (d.before h).tree = d.tree := by
  induction d with
  | expression _ _ ih ih' | moreTerms _ _ _ _ _ ih ih' | term _ _ ih ih'
  | moreFactors _ _ _ _ _ ih ih' | arguments _ _ ih ih' | moreArguments _ _ _ _ ih ih'
  | expressionSlot _ _ ih ih' | primarySlot _ _ ih ih' => rw [before, tree, ih, ih', tree]
  | signed _ _ _ _ ih | unsigned _ ih | paren _ _ _ _ _ ih | call _ _ _ _ _ _ _ _ _ ih
  | extension _ _ _ _ _ _ _ _ _ ih | word _ _ _ ih | keyword _ _ _ ih | comma _ _ _ ih =>
    rw [before, tree, ih, tree]
  | noTerm | noFactor | number | name | string | parameter | path | noArgument | noMoreArgument
  | formEnd => rfl

end Derivation

/-- What derives at the end of a text derives before other lexemes, too. -/
theorem spells_iff {p : Phrase} {meaning : p.Meaning} :
    Spells catalog p ls meaning ↔ ∃ d : Derivation catalog p ls [], d.tree = meaning :=
  ⟨Spells.exists_whole, fun ⟨d, hd⟩ _ hrest => ⟨d.before hrest, (d.tree_before hrest).trans hd⟩⟩

/-! ## Chains -/

/-- Factors with an operator between each two, from the lexemes `ls` with `rest` left over, and what
is written for them. No more than `room` primaries stand inside one another in a factor. -/
inductive Chain (catalog : Catalog) (room : Nat) :
    List Lexeme → List Lexeme → List Segment → Prop where
  | factor {ls rest : List Lexeme} (d : Derivation catalog .factor ls rest) (h : d.nesting ≤ room) :
      Chain catalog room ls rest d.tree.segments
  | more {ls mid rest : List Lexeme} {segments : List Segment} (sign : Lexeme) (op : BinaryOp)
      (isOp : sign.kind.operator? = some op) (d : Derivation catalog .factor ls (sign :: mid))
      (h : d.nesting ≤ room) (next : Chain catalog room mid rest segments) :
      Chain catalog room ls rest (d.tree.segments ++ .fixed (" " ++ op.symbol ++ " ") :: segments)

section

variable {room : Nat} {sign : Lexeme} {op : BinaryOp} {front back segments : List Segment}

/-- **Two chains with an operator between them are a chain**, however tightly the operator binds. -/
theorem Chain.append (isOp : sign.kind.operator? = some op)
    (h : Chain catalog room ls (sign :: mid) front) (h' : Chain catalog room mid rest back) :
    Chain catalog room ls rest (front ++ .fixed (" " ++ op.symbol ++ " ") :: back) := by
  generalize hms : sign :: mid = ms at h
  induction h with
  | factor d hd =>
    subst hms
    exact .more sign op isOp d hd h'
  | more sign' op' isOp' d hd _ ih =>
    rw [List.append_assoc]
    exact .more sign' op' isOp' d hd (ih hms)

namespace Derivation

/-- Factors after a chain are more of the chain. -/
theorem chain_moreFactors {mid rest : List Lexeme} {left : Expr} :
    (more : Derivation catalog .moreFactors mid rest) → more.nesting ≤ room →
      Chain catalog room ls mid left.segments →
        Chain catalog room ls rest (more.tree left).segments
  | .noFactor, _, h => h
  | .moreFactors _ _ isOp next more, hroom, h =>
    have ⟨hnext, hmore⟩ := Nat.max_le.1 hroom
    chain_moreFactors more hmore (h.append isOp.operator?_eq (.factor next hnext))

theorem chain_term :
    (d : Derivation catalog .term ls rest) → d.nesting ≤ room →
      Chain catalog room ls rest d.tree.segments
  | .term first more, hroom =>
    have ⟨hfirst, hmore⟩ := Nat.max_le.1 hroom
    chain_moreFactors more hmore (.factor first hfirst)

/-- Terms after a chain are more of the chain. -/
theorem chain_moreTerms {mid rest : List Lexeme} {left : Expr} :
    (more : Derivation catalog .moreTerms mid rest) → more.nesting ≤ room →
      Chain catalog room ls mid left.segments →
        Chain catalog room ls rest (more.tree left).segments
  | .noTerm, _, h => h
  | .moreTerms _ _ isOp next more, hroom, h =>
    have ⟨hnext, hmore⟩ := Nat.max_le.1 hroom
    chain_moreTerms more hmore (h.append isOp.operator?_eq (next.chain_term hnext))

/-- **An expression is a chain of factors.** -/
theorem chain_expression :
    (d : Derivation catalog .expression ls rest) → d.nesting ≤ room →
      Chain catalog room ls rest d.tree.segments
  | .expression first more, hroom =>
    have ⟨hfirst, hmore⟩ := Nat.max_le.1 hroom
    chain_moreTerms more hmore (first.chain_term hfirst)

/-- What is written for factors after others does not depend on the others. -/
theorem exists_segments_moreFactors {ls rest : List Lexeme} :
    (more : Derivation catalog .moreFactors ls rest) →
      ∃ back, ∀ left : Expr, (more.tree left).segments = left.segments ++ back
  | .noFactor => ⟨[], fun _ => (List.append_nil _).symm⟩
  | .moreFactors _ _ _ _ more => by
    obtain ⟨back, hback⟩ := exists_segments_moreFactors more
    exact ⟨_, fun left => (hback _).trans (List.append_assoc left.segments _ back)⟩

/-- What is written for terms after others does not depend on the others. -/
theorem exists_segments_moreTerms {ls rest : List Lexeme} :
    (more : Derivation catalog .moreTerms ls rest) →
      ∃ back, ∀ left : Expr, (more.tree left).segments = left.segments ++ back
  | .noTerm => ⟨[], fun _ => (List.append_nil _).symm⟩
  | .moreTerms _ _ _ _ more => by
    obtain ⟨back, hback⟩ := exists_segments_moreTerms more
    exact ⟨_, fun left => (hback _).trans (List.append_assoc left.segments _ back)⟩

end Derivation

/-- A factor with an operator before an expression makes a longer expression. The operator joins
either two terms, or two factors of the first term. -/
theorem Derivation.exists_cons
    (isOp : sign.kind.operator? = some op) (d : Derivation catalog .factor ls (sign :: mid)) :
    (d' : Derivation catalog .expression mid rest) →
      ∃ whole : Derivation catalog .expression ls rest,
        whole.tree.segments =
          d.tree.segments ++ .fixed (" " ++ op.symbol ++ " ") :: d'.tree.segments ∧
        whole.nesting = max d.nesting d'.nesting
  | .expression (.term first factors) terms => by
    obtain ⟨back, hback⟩ := factors.exists_segments_moreFactors
    obtain ⟨back', hback'⟩ := terms.exists_segments_moreTerms
    cases hop : op.isAdditive with
    | true =>
      refine ⟨.expression (.term d .noFactor)
        (.moreTerms sign op (joinsTerms_of_operator? isOp hop) (.term first factors) terms), ?_, ?_⟩
      · show (terms.tree (.binary d.tree op (factors.tree first.tree))).segments =
          _ ++ _ :: (terms.tree (factors.tree first.tree)).segments
        rw [hback', hback', hback, Expr.segments, hback, List.append_assoc, List.cons_append]
      · show max (max d.nesting 0) _ = _
        rw [Nat.max_zero]
        rfl
    | false =>
      refine ⟨.expression (.term d
        (.moreFactors sign op (joinsFactors_of_operator? isOp hop) first factors)) terms, ?_, ?_⟩
      · show (terms.tree (factors.tree (.binary d.tree op first.tree))).segments =
          _ ++ _ :: (terms.tree (factors.tree first.tree)).segments
        rw [hback', hback', hback, hback, Expr.segments]
        simp only [List.append_assoc, List.cons_append]
      · exact Nat.max_assoc ..

/-- **A chain of factors is an expression.** -/
theorem Chain.exists_derivation (h : Chain catalog room ls rest segments) :
    ∃ d : Derivation catalog .expression ls rest,
      d.tree.segments = segments ∧ d.nesting ≤ room := by
  induction h with
  | factor d hd =>
    exact ⟨.expression (.term d .noFactor) .noTerm, rfl,
      Nat.max_le.2 ⟨Nat.max_le.2 ⟨hd, Nat.zero_le room⟩, Nat.zero_le room⟩⟩
  | more sign op isOp d hd _ ih =>
    obtain ⟨d', rfl, hroom⟩ := ih
    obtain ⟨whole, hwhole, hnesting⟩ := Derivation.exists_cons isOp d d'
    exact ⟨whole, hwhole, hnesting ▸ Nat.max_le.2 ⟨hd, hroom⟩⟩

end

end Dql
