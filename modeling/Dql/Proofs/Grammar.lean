import Dql.Proofs.TreeGrammar
import Dql.Proofs.Lexeme

/-!
# The grammar of expressions, declaratively

The productions, with a derivation tree as data. A derivation is of a phrase, and goes from the
lexemes ahead to those left over.

* `Phrase` - the nonterminals: expressions, terms, factors, primaries of either class, argument
  lists, and what is between the parentheses of an extension's call;
* `Lexeme.contents`, `Lexeme.entity`, `Lexeme.field?` - what string literals and dotted names hold;
* `JoinsTerms`, `JoinsFactors`, `IsSign` - which tokens are operators and signs;
* `Production` - what is between the parentheses of each extension's calls;
* `Derivation` - one constructor for each production;
* `Derivation.tree` - the expression that a derivation stands for;
* `Derivation.nesting` - how many primaries stand inside one another in it.

Principal result: `Derivation.unique` - before a text by which the phrase cannot go on, there is at
most one derivation, and it says itself where it stops.
-/

namespace Dql

/-! ## Phrases -/

/-- The nonterminals of the grammar. -/
inductive Phrase where
  | expression
  /-- any number of terms, each after `+` or `-` -/
  | moreTerms
  | term
  /-- any number of factors, each after `*` or `/` -/
  | moreFactors
  | factor
  | primary (accepts : PrimaryClass)
  /-- any number of expressions, separated by commas -/
  | arguments
  /-- any number of expressions, each after a comma -/
  | moreArguments
  /-- the pieces of a form, up to and with the closing parenthesis -/
  | form (pieces : List Piece)

/-- What a phrase stands for. Operands that follow an operator wait for the operand before them. -/
abbrev Phrase.Meaning : Phrase → Type
  | .expression | .term | .factor | .primary _ => Expr
  | .moreTerms | .moreFactors => Expr → Expr
  | .arguments | .moreArguments => List Expr
  | .form _ => List String × List Expr

/-- A string literal without its quotes. -/
def Lexeme.contents (l : Lexeme) : String := String.ofList l.text.toList.tail.dropLast

/-- The entity of a dotted name: what is before the first dot. -/
def Lexeme.entity (l : Lexeme) : String := String.ofList (l.text.toList.takeWhile (· != '.'))

/-- The field of a dotted name: what is after the first dot, if there is one. -/
def Lexeme.field? (l : Lexeme) : Option String :=
  (l.text.toList.dropWhile (· != '.')).tail?.map String.ofList

/-- The parser splits a dotted name into the entity and the field. -/
theorem Lexeme.pathOfName_text (l : Lexeme) : pathOfName l.text = .path l.entity l.field? := by
  have happend : l.text.toList.takeWhile (· != '.') ++ l.text.toList.dropWhile (· != '.') =
      l.text.toList := List.takeWhile_append_dropWhile
  unfold pathOfName splitPath entity field?
  cases h : l.text.toList.dropWhile (· != '.') with
  | nil =>
    rw [h, List.append_nil] at happend
    simp [h, happend]
  | cons dot field => simp [h]

/-- The operators between terms. -/
def BinaryOp.isAdditive : BinaryOp → Bool
  | .add | .sub => true
  | .mul | .div => false

theorem BinaryOp.power_eq (op : BinaryOp) : op.power = if op.isAdditive then 50 else 60 := by
  cases op <;> rfl

/-- Whether a lexeme of this kind comes next. -/
def NextIs (kind : TokenKind) (rest : List Lexeme) : Prop := rest.head?.map Lexeme.kind = some kind

instance (kind : TokenKind) (rest : List Lexeme) : Decidable (NextIs kind rest) :=
  inferInstanceAs (Decidable (_ = _))

/-! ## Tokens and forms -/

/-- The tokens between terms, and their operators. -/
inductive JoinsTerms : TokenKind → BinaryOp → Prop where
  | plus : JoinsTerms .plus .add
  | minus : JoinsTerms .minus .sub

/-- The tokens between factors, and their operators. -/
inductive JoinsFactors : TokenKind → BinaryOp → Prop where
  | asterisk : JoinsFactors .asterisk .mul
  | slash : JoinsFactors .slash .div

/-- The tokens that can stand before a primary, and the signs that they are. -/
inductive IsSign : TokenKind → Sign → Prop where
  | plus : IsSign .plus .plus
  | minus : IsSign .minus .minus

/-- What stands between the parentheses in the calls of each extension. -/
inductive Production : Extension → List Piece → Prop where
  /-- `DATE_FORMAT(expression, string primary)` -/
  | dateFormat : Production (.shipped .dateFormat) [.expression, .comma, .primary .string]
  /-- `EXTRACT(word keyword primary)` -/
  | extract : Production (.shipped .extract) [.word, .keyword "from", .primary .arithmetic]
  /-- `NVL2(primary, primary, primary)` -/
  | nvl2 : Production (.shipped .nvl2)
      [.primary .arithmetic, .comma, .primary .arithmetic, .comma, .primary .arithmetic]
  /-- `IFNULL(expression, expression)` -/
  | ifNull : Production .ifNull [.expression, .comma, .expression]

section Tables

variable {k : TokenKind} {op : BinaryOp}

theorem JoinsTerms.operator?_eq (h : JoinsTerms k op) : k.operator? = some op := by
  cases h <;> rfl

theorem JoinsTerms.isAdditive (h : JoinsTerms k op) : op.isAdditive = true := by
  cases h <;> rfl

theorem JoinsFactors.operator?_eq (h : JoinsFactors k op) : k.operator? = some op := by
  cases h <;> rfl

theorem JoinsFactors.isAdditive (h : JoinsFactors k op) : op.isAdditive = false := by
  cases h <;> rfl

/-- An operator of the parser that binds as `+` does joins terms. -/
theorem joinsTerms_of_operator? (h : k.operator? = some op) (hop : op.isAdditive = true) :
    JoinsTerms k op := by
  cases k <;> cases h
  · exact .plus
  · exact .minus
  all_goals cases hop

/-- An operator of the parser that binds as `*` does joins factors. -/
theorem joinsFactors_of_operator? (h : k.operator? = some op) (hop : op.isAdditive = false) :
    JoinsFactors k op := by
  cases k <;> cases h
  all_goals first | exact .asterisk | exact .slash | cases hop

/-- The parser's signs are the signs of the grammar. -/
theorem isSign_iff {sign : Sign} : IsSign k sign ↔ k.sign? = some sign := by
  constructor
  · rintro (_ | _) <;> rfl
  · intro h
    cases k <;> cases h
    · exact .plus
    · exact .minus

/-- The parser's forms are the productions of the grammar. -/
theorem production_iff {function : Extension} {pieces : List Piece} :
    Production function pieces ↔ pieces = function.form := by
  constructor
  · rintro (_ | _ | _ | _) <;> rfl
  · rintro rfl
    rcases function with (_ | _ | _) | _
    · exact .dateFormat
    · exact .extract
    · exact .nvl2
    · exact .ifNull

end Tables

/-! ## Derivations -/

/-- Derivations of a phrase from the lexemes `ls`, of which `rest` are left over. -/
inductive Derivation (catalog : Catalog) : Phrase → List Lexeme → List Lexeme → Type where
  | expression {ls mid rest : List Lexeme} (first : Derivation catalog .term ls mid)
      (more : Derivation catalog .moreTerms mid rest) : Derivation catalog .expression ls rest
  | noTerm {rest : List Lexeme} : Derivation catalog .moreTerms rest rest
  | moreTerms {ls mid rest : List Lexeme} (sign : Lexeme) (op : BinaryOp)
      (isOp : JoinsTerms sign.kind op)
      (next : Derivation catalog .term ls mid) (more : Derivation catalog .moreTerms mid rest) :
      Derivation catalog .moreTerms (sign :: ls) rest
  | term {ls mid rest : List Lexeme} (first : Derivation catalog .factor ls mid)
      (more : Derivation catalog .moreFactors mid rest) : Derivation catalog .term ls rest
  | noFactor {rest : List Lexeme} : Derivation catalog .moreFactors rest rest
  | moreFactors {ls mid rest : List Lexeme} (sign : Lexeme) (op : BinaryOp)
      (isOp : JoinsFactors sign.kind op)
      (next : Derivation catalog .factor ls mid) (more : Derivation catalog .moreFactors mid rest) :
      Derivation catalog .moreFactors (sign :: ls) rest
  | signed {ls rest : List Lexeme} (mark : Lexeme) (sign : Sign)
      (isSign : IsSign mark.kind sign)
      (operand : Derivation catalog (.primary .arithmetic) ls rest) :
      Derivation catalog .factor (mark :: ls) rest
  | unsigned {ls rest : List Lexeme} (operand : Derivation catalog (.primary .arithmetic) ls rest) :
      Derivation catalog .factor ls rest
  | paren {ls rest : List Lexeme} (left right : Lexeme) (isLeft : left.kind = .parenLeft)
      (isRight : right.kind = .parenRight)
      (inner : Derivation catalog .expression ls (right :: rest)) :
      Derivation catalog (.primary .arithmetic) (left :: ls) rest
  | number {rest : List Lexeme} (l : Lexeme) (isNumber : l.kind = .integer ∨ l.kind = .float) :
      Derivation catalog (.primary .arithmetic) (l :: rest) rest
  /-- an entity: a name before which nothing says that it is a call -/
  | name {rest : List Lexeme} (l : Lexeme) (isName : l.kind = .identifier)
      (noCall : ¬ NextIs .parenLeft rest) :
      Derivation catalog (.primary .arithmetic) (l :: rest) rest
  | string {accepts : PrimaryClass} {rest : List Lexeme} (l : Lexeme)
      (isString : l.kind = .string) :
      Derivation catalog (.primary accepts) (l :: rest) rest
  | parameter {accepts : PrimaryClass} {rest : List Lexeme} (l : Lexeme)
      (isParameter : l.kind = .parameter) : Derivation catalog (.primary accepts) (l :: rest) rest
  | path {accepts : PrimaryClass} {rest : List Lexeme} (l : Lexeme) (isPath : l.kind = .path) :
      Derivation catalog (.primary accepts) (l :: rest) rest
  | call {accepts : PrimaryClass} {ls rest : List Lexeme} (l left right : Lexeme)
      (function : Builtin) (isName : l.kind = .identifier) (isLeft : left.kind = .parenLeft)
      (isRight : right.kind = .parenRight) (builtin : function.name = foldCase l.text)
      (args : Derivation catalog .arguments ls (right :: rest)) :
      Derivation catalog (.primary accepts) (l :: left :: ls) rest
  | extension {accepts : PrimaryClass} {form : List Piece} {ls rest : List Lexeme}
      (l left : Lexeme) (entry : Entry) (isName : l.kind = .identifier)
      (isLeft : left.kind = .parenLeft)
      (notBuiltin : ∀ function : Builtin, function.name ≠ foldCase l.text)
      (found : catalog.find? l.text = some entry) (production : Production entry.extension form)
      (pieces : Derivation catalog (.form form) ls rest) :
      Derivation catalog (.primary accepts) (l :: left :: ls) rest
  | noArgument {rest : List Lexeme} : Derivation catalog .arguments rest rest
  | arguments {ls mid rest : List Lexeme} (first : Derivation catalog .expression ls mid)
      (more : Derivation catalog .moreArguments mid rest) : Derivation catalog .arguments ls rest
  | noMoreArgument {rest : List Lexeme} : Derivation catalog .moreArguments rest rest
  | moreArguments {ls mid rest : List Lexeme} (comma : Lexeme) (isComma : comma.kind = .comma)
      (next : Derivation catalog .expression ls mid)
      (more : Derivation catalog .moreArguments mid rest) :
      Derivation catalog .moreArguments (comma :: ls) rest
  | formEnd {rest : List Lexeme} (right : Lexeme) (isRight : right.kind = .parenRight) :
      Derivation catalog (.form []) (right :: rest) rest
  | word {pieces : List Piece} {ls rest : List Lexeme} (l : Lexeme) (isName : l.kind = .identifier)
      (more : Derivation catalog (.form pieces) ls rest) :
      Derivation catalog (.form (.word :: pieces)) (l :: ls) rest
  | keyword {pieces : List Piece} {ls rest : List Lexeme} {sql : String} (l : Lexeme)
      (isName : l.kind = .identifier) (more : Derivation catalog (.form pieces) ls rest) :
      Derivation catalog (.form (.keyword sql :: pieces)) (l :: ls) rest
  | comma {pieces : List Piece} {ls rest : List Lexeme} (l : Lexeme) (isComma : l.kind = .comma)
      (more : Derivation catalog (.form pieces) ls rest) :
      Derivation catalog (.form (.comma :: pieces)) (l :: ls) rest
  | expressionSlot {pieces : List Piece} {ls mid rest : List Lexeme}
      (slot : Derivation catalog .expression ls mid)
      (more : Derivation catalog (.form pieces) mid rest) :
      Derivation catalog (.form (.expression :: pieces)) ls rest
  | primarySlot {pieces : List Piece} {accepts : PrimaryClass} {ls mid rest : List Lexeme}
      (slot : Derivation catalog (.primary accepts) ls mid)
      (more : Derivation catalog (.form pieces) mid rest) :
      Derivation catalog (.form (.primary accepts :: pieces)) ls rest

namespace Derivation

variable {catalog : Catalog}

/-- The expression that a derivation stands for. Operators associate to the left. -/
def tree {p : Phrase} {ls rest : List Lexeme} : Derivation catalog p ls rest → p.Meaning
  | .expression first more => more.tree first.tree
  | .noTerm => id
  | .moreTerms _ op _ next more => fun left => more.tree (.binary left op next.tree)
  | .term first more => more.tree first.tree
  | .noFactor => id
  | .moreFactors _ op _ next more => fun left => more.tree (.binary left op next.tree)
  | .signed _ sign _ operand => .signed sign operand.tree
  | .unsigned operand => operand.tree
  | .paren _ _ _ _ inner => .paren inner.tree
  | .number l _ => .number l.text
  | .name l _ _ => .path l.text none
  | .string l _ => .string l.contents
  | .parameter l _ => .parameter l.text
  | .path l _ => .path l.entity l.field?
  | .call _ _ _ function _ _ _ _ args => .call function args.tree
  | .extension _ _ entry _ _ _ _ _ pieces =>
    .extension entry.extension pieces.tree.1 pieces.tree.2
  | .noArgument => []
  | .arguments first more => first.tree :: more.tree
  | .noMoreArgument => []
  | .moreArguments _ _ next more => next.tree :: more.tree
  | .formEnd _ _ => ([], [])
  | .word l _ more => (l.text :: more.tree.1, more.tree.2)
  | .keyword _ _ more => more.tree
  | .comma _ _ more => more.tree
  | .expressionSlot slot more => (more.tree.1, slot.tree :: more.tree.2)
  | .primarySlot slot more => (more.tree.1, slot.tree :: more.tree.2)

/-- How many primaries stand inside one another. -/
def nesting {p : Phrase} {ls rest : List Lexeme} : Derivation catalog p ls rest → Nat
  | .expression first more => max first.nesting more.nesting
  | .noTerm => 0
  | .moreTerms _ _ _ next more => max next.nesting more.nesting
  | .term first more => max first.nesting more.nesting
  | .noFactor => 0
  | .moreFactors _ _ _ next more => max next.nesting more.nesting
  | .signed _ _ _ operand => operand.nesting
  | .unsigned operand => operand.nesting
  | .paren _ _ _ _ inner => inner.nesting + 1
  | .number _ _ => 1
  | .name _ _ _ => 1
  | .string _ _ => 1
  | .parameter _ _ => 1
  | .path _ _ => 1
  | .call _ _ _ _ _ _ _ _ args => args.nesting + 1
  | .extension _ _ _ _ _ _ _ _ pieces => pieces.nesting + 1
  | .noArgument => 0
  | .arguments first more => max first.nesting more.nesting
  | .noMoreArgument => 0
  | .moreArguments _ _ next more => max next.nesting more.nesting
  | .formEnd _ _ => 0
  | .word _ _ more => more.nesting
  | .keyword _ _ more => more.nesting
  | .comma _ _ more => more.nesting
  | .expressionSlot slot more => max slot.nesting more.nesting
  | .primarySlot slot more => max slot.nesting more.nesting

end Derivation

/-! ## Where phrases end -/

/-- The kinds of token by which a phrase can go on. -/
def Phrase.continuesWith : Phrase → TokenKind → Bool
  | .primary _, k | .factor, k => k = .parenLeft
  | .term, k | .moreFactors, k => k = .parenLeft ∨ k.operator?.any fun op => !op.isAdditive
  | .expression, k | .moreTerms, k => k = .parenLeft ∨ k.operator?.isSome
  | .moreArguments, k => k = .parenLeft ∨ k.operator?.isSome ∨ k = .comma
  | .arguments, k => k ≠ .parenRight
  | .form _, _ => false

/-- What is left over does not start with something by which the phrase goes on. -/
def Phrase.Closed (p : Phrase) (rest : List Lexeme) : Prop :=
  ∀ l ∈ rest.head?, p.continuesWith l.kind = false

theorem Phrase.closed_nil (p : Phrase) : p.Closed [] := by
  intro l hl
  cases hl

theorem Phrase.closed_cons {p : Phrase} {l : Lexeme} {rest : List Lexeme}
    (h : p.continuesWith l.kind = false) : p.Closed (l :: rest) := by
  rintro _ ⟨⟩
  exact h

theorem Phrase.Closed.mono {p q : Phrase} {rest : List Lexeme} (h : p.Closed rest)
    (hpq : ∀ k, q.continuesWith k = true → p.continuesWith k = true) : q.Closed rest := by
  intro l hl
  cases hq : q.continuesWith l.kind with
  | false => rfl
  | true => rw [← h l hl, hpq _ hq]

/-- Where no expression goes on, no primary does. -/
theorem Phrase.Closed.primary {accepts : PrimaryClass} {rest : List Lexeme}
    (h : Phrase.expression.Closed rest) : (Phrase.primary accepts).Closed rest :=
  h.mono fun k hk => by simp_all [Phrase.continuesWith]

/-- An argument list that is at its end has no more arguments. -/
theorem Phrase.Closed.moreArguments {rest : List Lexeme} (h : Phrase.arguments.Closed rest) :
    Phrase.moreArguments.Closed rest :=
  h.mono fun k hk => by cases k <;> simp_all [Phrase.continuesWith, TokenKind.operator?]

/-- In a form every slot is followed by a comma or by the end. -/
def separated : List Piece → Bool
  | [] => true
  | .expression :: pieces | .primary _ :: pieces =>
    (pieces = [] ∨ pieces.head? = some .comma) && separated pieces
  | _ :: pieces => separated pieces

theorem separated_form (e : Extension) : separated e.form = true := by
  rcases e with (_ | _ | _) | _ <;> rfl

/-- A phrase that is no badly made form. -/
def Phrase.Proper : Phrase → Prop
  | .form pieces => separated pieces = true
  | _ => True

namespace Derivation

variable {catalog : Catalog}

/-! ## Uniqueness -/

/-- A primary starts with a lexeme, which is neither a sign nor a closing parenthesis. -/
theorem head_of_primary {accepts : PrimaryClass} {ls rest : List Lexeme}
    (d : Derivation catalog (.primary accepts) ls rest) :
    ∃ l more, ls = l :: more ∧ l.kind.sign? = none ∧ l.kind ≠ .parenRight := by
  cases d with
  | number l h => rcases h with h | h <;> exact ⟨l, _, rfl, by rw [h]; rfl, by rw [h]; decide⟩
  | paren l _ h | name l h | string l h | parameter l h | path l h | call l _ _ _ h
  | extension l _ _ h => exact ⟨l, _, rfl, by rw [h]; rfl, by rw [h]; decide⟩

theorem head_of_factor {ls rest : List Lexeme} (d : Derivation catalog .factor ls rest) :
    ∃ l more, ls = l :: more ∧ l.kind ≠ .parenRight := by
  cases d with
  | signed mark sign h =>
    refine ⟨mark, _, rfl, ?_⟩
    intro hk
    rw [hk] at h
    cases h
  | unsigned operand =>
    obtain ⟨l, more, hls, -, hk⟩ := operand.head_of_primary
    exact ⟨l, more, hls, hk⟩

/-- An expression starts with a lexeme, which is no closing parenthesis. -/
theorem head_of_expression {ls rest : List Lexeme} (d : Derivation catalog .expression ls rest) :
    ∃ l more, ls = l :: more ∧ l.kind ≠ .parenRight := by
  cases d with
  | expression first _ =>
    cases first with
    | term first _ => exact first.head_of_factor

/-- A term ends before the terms after it. -/
theorem closed_term {mid rest : List Lexeme} (more : Derivation catalog .moreTerms mid rest)
    (h : Phrase.expression.Closed rest) : Phrase.term.Closed mid := by
  cases more with
  | noTerm =>
    refine h.mono fun k hk => ?_
    cases k <;> simp_all [Phrase.continuesWith, TokenKind.operator?, BinaryOp.isAdditive]
  | moreTerms sign op isOp =>
    apply Phrase.closed_cons
    generalize sign.kind = k at isOp
    cases isOp <;> rfl

/-- A factor ends before the factors after it. -/
theorem closed_factor {mid rest : List Lexeme} (more : Derivation catalog .moreFactors mid rest)
    (h : Phrase.term.Closed rest) : Phrase.factor.Closed mid := by
  cases more with
  | noFactor => exact h.mono fun k hk => by simp_all [Phrase.continuesWith]
  | moreFactors sign op isOp =>
    apply Phrase.closed_cons
    generalize sign.kind = k at isOp
    cases isOp <;> rfl

/-- An argument ends before the arguments after it. -/
theorem closed_argument {mid rest : List Lexeme}
    (more : Derivation catalog .moreArguments mid rest)
    (h : Phrase.moreArguments.Closed rest) : Phrase.expression.Closed mid := by
  cases more with
  | noMoreArgument =>
    refine h.mono fun k hk => ?_
    cases k <;> simp_all [Phrase.continuesWith, TokenKind.operator?]
  | moreArguments comma isComma =>
    apply Phrase.closed_cons
    rw [isComma]
    rfl

/-- A slot of a form ends before the pieces after it. -/
theorem closed_slot {pieces : List Piece} {mid rest : List Lexeme}
    (more : Derivation catalog (.form pieces) mid rest)
    (h : pieces = [] ∨ pieces.head? = some .comma) : Phrase.expression.Closed mid := by
  cases more with
  | formEnd l hk | comma l hk =>
    apply Phrase.closed_cons
    rw [hk]
    rfl
  | word | keyword | expressionSlot | primarySlot => simp at h

/-- **Before a text by which the phrase cannot go on there is at most one derivation.** Where it
stops is part of what is determined. -/
theorem unique {p : Phrase} {ls rest rest' : List Lexeme} (hp : p.Proper)
    (d : Derivation catalog p ls rest) (d' : Derivation catalog p ls rest') (h : p.Closed rest)
    (h' : p.Closed rest') : (⟨rest, d⟩ : Σ r, Derivation catalog p ls r) = ⟨rest', d'⟩ := by
  induction d generalizing rest' with
  | expression first more ihfirst ihmore =>
    cases d' with
    | expression first' more' =>
      cases ihfirst trivial first' (closed_term more h) (closed_term more' h')
      cases ihmore trivial more' h h'
      rfl
  | noTerm =>
    cases d' with
    | noTerm => rfl
    | moreTerms sign op isOp =>
      simp [Phrase.Closed, Phrase.continuesWith, isOp.operator?_eq] at h
  | moreTerms sign op isOp next more ihnext ihmore =>
    cases d' with
    | noTerm => simp [Phrase.Closed, Phrase.continuesWith, isOp.operator?_eq] at h'
    | moreTerms _ op' isOp' next' more' =>
      obtain rfl : op = op' := Option.some.inj (isOp.operator?_eq.symm.trans isOp'.operator?_eq)
      cases ihnext trivial next' (closed_term more h) (closed_term more' h')
      cases ihmore trivial more' h h'
      rfl
  | term first more ihfirst ihmore =>
    cases d' with
    | term first' more' =>
      cases ihfirst trivial first' (closed_factor more h) (closed_factor more' h')
      cases ihmore trivial more' h h'
      rfl
  | noFactor =>
    cases d' with
    | noFactor => rfl
    | moreFactors sign op isOp =>
      simp [Phrase.Closed, Phrase.continuesWith, isOp.operator?_eq, isOp.isAdditive] at h
  | moreFactors sign op isOp next more ihnext ihmore =>
    cases d' with
    | noFactor =>
      simp [Phrase.Closed, Phrase.continuesWith, isOp.operator?_eq, isOp.isAdditive] at h'
    | moreFactors _ op' isOp' next' more' =>
      obtain rfl : op = op' := Option.some.inj (isOp.operator?_eq.symm.trans isOp'.operator?_eq)
      cases ihnext trivial next' (closed_factor more h) (closed_factor more' h')
      cases ihmore trivial more' h h'
      rfl
  | signed mark sign isSign operand ih =>
    cases d' with
    | signed _ sign' isSign' operand' =>
      obtain rfl : sign = sign' :=
        Option.some.inj ((isSign_iff.1 isSign).symm.trans (isSign_iff.1 isSign'))
      cases ih trivial operand' h h'
      rfl
    | unsigned operand' =>
      obtain ⟨l, more, hls, hk, -⟩ := operand'.head_of_primary
      cases hls
      rw [isSign_iff.1 isSign] at hk
      cases hk
  | unsigned operand ih =>
    cases d' with
    | signed mark sign isSign =>
      obtain ⟨l, more, hls, hk, -⟩ := operand.head_of_primary
      cases hls
      rw [isSign_iff.1 isSign] at hk
      cases hk
    | unsigned operand' =>
      cases ih trivial operand' h h'
      rfl
  | paren left right hl hr inner ih =>
    have hclosed : ∀ (r : Lexeme) (more : List Lexeme), r.kind = .parenRight →
        Phrase.expression.Closed (r :: more) := fun r more hk =>
      Phrase.closed_cons (by rw [hk]; rfl)
    cases d' with
    | paren _ right' _ hr' inner' =>
      cases ih trivial inner' (hclosed _ _ hr) (hclosed _ _ hr')
      rfl
    | _ => grind
  | number => cases d' <;> first | rfl | grind
  | name l _ noCall =>
    cases d' with
    | name => rfl
    | call _ left _ _ _ isLeft | extension _ left _ _ isLeft => simp [NextIs, isLeft] at noCall
    | _ => grind
  | string => cases d' <;> first | rfl | grind
  | parameter => cases d' <;> first | rfl | grind
  | path => cases d' <;> first | rfl | grind
  | call l left right function hn hl hr hb args ih =>
    have hclosed : ∀ (r : Lexeme) (more : List Lexeme), r.kind = .parenRight →
        Phrase.arguments.Closed (r :: more) := fun r more hk =>
      Phrase.closed_cons (by rw [hk]; rfl)
    cases d' with
    | call _ _ right' function' _ _ hr' hb' args' =>
      obtain rfl : function = function' := Builtin.name_injective (hb.trans hb'.symm)
      cases ih trivial args' (hclosed _ _ hr) (hclosed _ _ hr')
      rfl
    | name _ _ noCall => simp [NextIs, hl] at noCall
    | _ => grind
  | extension l left entry hn hl hb hf production pieces ih =>
    cases d' with
    | extension _ _ entry' _ _ _ hf' production' pieces' =>
      obtain rfl : entry = entry' := by simpa [hf] using hf'
      obtain rfl := production_iff.1 production
      obtain rfl := production_iff.1 production'
      cases ih (separated_form _) pieces' (fun _ _ => rfl) (fun _ _ => rfl)
      rfl
    | name _ _ noCall => simp [NextIs, hl] at noCall
    | _ => grind
  | noArgument =>
    cases d' with
    | noArgument => rfl
    | arguments first' more' =>
      obtain ⟨l, more, rfl, hk⟩ := first'.head_of_expression
      simp [Phrase.Closed, Phrase.continuesWith, hk] at h
  | arguments first more ihfirst ihmore =>
    cases d' with
    | noArgument =>
      obtain ⟨l, more, rfl, hk⟩ := first.head_of_expression
      simp [Phrase.Closed, Phrase.continuesWith, hk] at h'
    | arguments first' more' =>
      have hm := h.moreArguments
      have hm' := h'.moreArguments
      cases ihfirst trivial first' (closed_argument more hm) (closed_argument more' hm')
      cases ihmore trivial more' hm hm'
      rfl
  | noMoreArgument =>
    cases d' with
    | noMoreArgument => rfl
    | moreArguments comma isComma => simp [Phrase.Closed, Phrase.continuesWith, isComma] at h
  | moreArguments comma isComma next more ihnext ihmore =>
    cases d' with
    | noMoreArgument => simp [Phrase.Closed, Phrase.continuesWith, isComma] at h'
    | moreArguments _ _ next' more' =>
      cases ihnext trivial next' (closed_argument more h) (closed_argument more' h')
      cases ihmore trivial more' h h'
      rfl
  | formEnd =>
    cases d' with
    | formEnd => rfl
  | word l _ more ih =>
    cases d' with
    | word _ _ more' =>
      cases ih hp more' h h'
      rfl
  | keyword l _ more ih =>
    cases d' with
    | keyword _ _ more' =>
      cases ih hp more' h h'
      rfl
  | comma l _ more ih =>
    cases d' with
    | comma _ _ more' =>
      cases ih hp more' h h'
      rfl
  | expressionSlot slot more ihslot ihmore =>
    obtain ⟨hnext, hmore⟩ : _ ∧ _ := by simpa [Phrase.Proper, separated] using hp
    cases d' with
    | expressionSlot slot' more' =>
      cases ihslot trivial slot' (closed_slot more hnext) (closed_slot more' hnext)
      cases ihmore hmore more' h h'
      rfl
  | primarySlot slot more ihslot ihmore =>
    obtain ⟨hnext, hmore⟩ : _ ∧ _ := by simpa [Phrase.Proper, separated] using hp
    cases d' with
    | primarySlot slot' more' =>
      cases ihslot trivial slot' (closed_slot more hnext).primary (closed_slot more' hnext).primary
      cases ihmore hmore more' h h'
      rfl

end Derivation

end Dql
