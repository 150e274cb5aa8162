import Dql.Proofs.Grammar
import Dql.Sql

/-!
# Expressions in normal form

SQL is written without adding parentheses. So an expression comes back from its SQL only if its tree
is one that the text itself calls for: every operand binds tightly enough for its place, and every
literal, name and parameter is a lexeme.

* `Expr.nesting`, `Expr.rank` - how deep an expression nests, and how loosely it is joined;
* `Fills`, `Normal` - slots that suit their form, and expressions in normal form;
* `WellFormed` - normal, and within the limit on nesting.

Principal results: `Derivation.nesting_tree` and `Derivation.normal_tree` - what a text stands for
is in normal form, and nests as deep as the text.
-/

namespace Dql

/-! ## Nesting and rank -/

mutual

/-- How many primaries stand inside one another. -/
def Expr.nesting : Expr → Nat
  | .number _ | .string _ | .path _ _ | .parameter _ => 1
  | .call _ args => nestingOfList args + 1
  | .extension _ _ slots => nestingOfList slots + 1
  | .binary left _ right => max left.nesting right.nesting
  | .signed _ operand => operand.nesting
  | .paren inner => inner.nesting + 1

/-- The nesting of the deepest expression of a list. -/
def nestingOfList : List Expr → Nat
  | [] => 0
  | e :: es => max e.nesting (nestingOfList es)

end

theorem nestingOfList_le_iff {n : Nat} {es : List Expr} :
    nestingOfList es ≤ n ↔ ∀ e ∈ es, e.nesting ≤ n := by
  induction es with
  | nil => simp [nestingOfList]
  | cons e es ih => rw [nestingOfList, Nat.max_le, ih, List.forall_mem_cons]

/-- How loosely an operator joins its operands. -/
def BinaryOp.rank (op : BinaryOp) : Nat := if op.isAdditive then 3 else 2

/-- How loosely an expression is joined: primaries not at all, then signs, products and sums. -/
def Expr.rank : Expr → Nat
  | .binary _ op _ => op.rank
  | .signed _ _ => 1
  | _ => 0

theorem BinaryOp.rank_of_isAdditive {op : BinaryOp} (h : op.isAdditive = true) : op.rank = 3 := by
  simp [rank, h]

theorem BinaryOp.rank_of_not_isAdditive {op : BinaryOp} (h : op.isAdditive = false) :
    op.rank = 2 := by
  simp [rank, h]

theorem BinaryOp.rank_le (op : BinaryOp) : 2 ≤ op.rank ∧ op.rank ≤ 3 := by
  cases op <;> decide

theorem Expr.rank_le (e : Expr) : e.rank ≤ 3 := by
  cases e with
  | binary _ op _ => exact op.rank_le.2
  | _ => simp [rank]

/-! ## Normal form -/

/-- The expressions that are primaries of a class. A name alone is no string. -/
def PrimaryClass.Accepts : PrimaryClass → Expr → Prop
  | .arithmetic, e => e.rank = 0
  | .string, .string _ | .string, .path _ (some _) | .string, .parameter _ | .string, .call _ _
  | .string, .extension _ _ _ => True
  | .string, _ => False

theorem PrimaryClass.Accepts.rank_eq {accepts : PrimaryClass} {e : Expr} (h : accepts.Accepts e) :
    e.rank = 0 := by
  cases accepts with
  | arithmetic => exact h
  | string => cases e <;> first | rfl | exact h.elim

/-- A form is filled by words that are names and by slots that suit their places. -/
inductive Fills : List Piece → List String → List Expr → Prop where
  | nil : Fills [] [] []
  | word {form : List Piece} {words : List String} {slots : List Expr} {word : String}
      (isName : IsLexeme .identifier word.toList) (more : Fills form words slots) :
      Fills (.word :: form) (word :: words) slots
  | keyword {form : List Piece} {words : List String} {slots : List Expr} {sql : String}
      (more : Fills form words slots) : Fills (.keyword sql :: form) words slots
  | comma {form : List Piece} {words : List String} {slots : List Expr}
      (more : Fills form words slots) : Fills (.comma :: form) words slots
  | expression {form : List Piece} {words : List String} {slots : List Expr} {slot : Expr}
      (more : Fills form words slots) : Fills (.expression :: form) words (slot :: slots)
  | primary {form : List Piece} {words : List String} {slots : List Expr} {slot : Expr}
      {accepts : PrimaryClass} (suits : accepts.Accepts slot) (more : Fills form words slots) :
      Fills (.primary accepts :: form) words (slot :: slots)

section Fills

variable {form : List Piece} {words : List String} {slots : List Expr}

theorem fills_nil_iff : Fills [] words slots ↔ words = [] ∧ slots = [] := by
  constructor
  · rintro ⟨⟩
    exact ⟨rfl, rfl⟩
  · rintro ⟨rfl, rfl⟩
    exact .nil

theorem fills_word_iff : Fills (.word :: form) words slots ↔
    ∃ word more, words = word :: more ∧ IsLexeme .identifier word.toList ∧
      Fills form more slots := by
  constructor
  · rintro (_ | ⟨isName, more⟩)
    exact ⟨_, _, rfl, isName, more⟩
  · rintro ⟨_, _, rfl, isName, more⟩
    exact .word isName more

theorem fills_keyword_iff {sql : String} :
    Fills (.keyword sql :: form) words slots ↔ Fills form words slots := by
  constructor
  · rintro (_ | _ | more)
    exact more
  · exact .keyword

theorem fills_comma_iff : Fills (.comma :: form) words slots ↔ Fills form words slots := by
  constructor
  · rintro (_ | _ | _ | more)
    exact more
  · exact .comma

theorem fills_expression_iff : Fills (.expression :: form) words slots ↔
    ∃ slot more, slots = slot :: more ∧ Fills form words more := by
  constructor
  · rintro (_ | _ | _ | _ | more)
    exact ⟨_, _, rfl, more⟩
  · rintro ⟨_, _, rfl, more⟩
    exact .expression more

theorem fills_primary_iff {accepts : PrimaryClass} : Fills (.primary accepts :: form) words slots ↔
    ∃ slot more, slots = slot :: more ∧ accepts.Accepts slot ∧ Fills form words more := by
  constructor
  · rintro (_ | _ | _ | _ | _ | ⟨suits, more⟩)
    exact ⟨_, _, rfl, suits, more⟩
  · rintro ⟨_, _, rfl, suits, more⟩
    exact .primary suits more

/-- What fills the calls of each extension: two expressions, the second of which can stand for a
string; a word and a primary; three primaries; two expressions. -/
theorem fills_form_iff :
    (Fills (Extension.shipped .dateFormat).form words slots ↔ words = [] ∧
      ∃ date pattern, slots = [date, pattern] ∧ PrimaryClass.string.Accepts pattern) ∧
    (Fills (Extension.shipped .extract).form words slots ↔
      ∃ unit date, words = [unit] ∧ IsLexeme .identifier unit.toList ∧ slots = [date] ∧
        date.rank = 0) ∧
    (Fills (Extension.shipped .nvl2).form words slots ↔ words = [] ∧
      ∃ a b c, slots = [a, b, c] ∧ a.rank = 0 ∧ b.rank = 0 ∧ c.rank = 0) ∧
    (Fills Extension.ifNull.form words slots ↔ words = [] ∧ ∃ a b, slots = [a, b]) := by
  simp only [Extension.form, Shipped.form, fills_nil_iff, fills_word_iff, fills_keyword_iff,
    fills_comma_iff, fills_expression_iff, fills_primary_iff, PrimaryClass.Accepts]
  refine ⟨⟨?_, ?_⟩, ⟨?_, ?_⟩, ⟨?_, ?_⟩, ⟨?_, ?_⟩⟩
  · rintro ⟨date, _, rfl, pattern, _, rfl, h, rfl, rfl⟩
    exact ⟨rfl, date, pattern, rfl, h⟩
  · rintro ⟨rfl, date, pattern, rfl, h⟩
    exact ⟨date, _, rfl, pattern, _, rfl, h, rfl, rfl⟩
  · rintro ⟨unit, _, rfl, hunit, date, _, rfl, hdate, rfl, rfl⟩
    exact ⟨unit, date, rfl, hunit, rfl, hdate⟩
  · rintro ⟨unit, date, rfl, hunit, rfl, hdate⟩
    exact ⟨unit, _, rfl, hunit, date, _, rfl, hdate, rfl, rfl⟩
  · rintro ⟨a, _, rfl, ha, b, _, rfl, hb, c, _, rfl, hc, rfl, rfl⟩
    exact ⟨rfl, a, b, c, rfl, ha, hb, hc⟩
  · rintro ⟨rfl, a, b, c, rfl, ha, hb, hc⟩
    exact ⟨a, _, rfl, ha, b, _, rfl, hb, c, _, rfl, hc, rfl, rfl⟩
  · rintro ⟨a, _, rfl, b, _, rfl, rfl, rfl⟩
    exact ⟨rfl, a, b, rfl⟩
  · rintro ⟨rfl, a, b, rfl⟩
    exact ⟨a, _, rfl, b, _, rfl, rfl, rfl⟩

end Fills

/-- Expressions in normal form. Operators associate to the left, so the right operand binds more
tightly than the operator and the left one at least as tightly; a sign stands before a primary. -/
inductive Normal : Expr → Prop where
  | number {text : String} (h : IsLexeme .integer text.toList ∨ IsLexeme .float text.toList) :
      Normal (.number text)
  | string {contents : String} (h : Escaped contents.toList) : Normal (.string contents)
  | name {entity : String} (h : IsLexeme .identifier entity.toList) : Normal (.path entity none)
  | path {entity field : String} (h : IsLexeme .identifier entity.toList)
      (hpath : IsLexeme .path (verbatimPath entity (some field)).toList) :
      Normal (.path entity (some field))
  | parameter {text : String} (h : IsLexeme .parameter text.toList) : Normal (.parameter text)
  | call {function : Builtin} {args : List Expr} (h : ∀ a ∈ args, Normal a) :
      Normal (.call function args)
  | extension {function : Extension} {words : List String} {slots : List Expr}
      (filled : Fills function.form words slots) (h : ∀ s ∈ slots, Normal s) :
      Normal (.extension function words slots)
  | binary {left right : Expr} {op : BinaryOp} (hleft : Normal left) (hright : Normal right)
      (hl : left.rank ≤ op.rank) (hr : right.rank < op.rank) : Normal (.binary left op right)
  | signed {sign : Sign} {operand : Expr} (h : Normal operand) (hr : operand.rank = 0) :
      Normal (.signed sign operand)
  | paren {inner : Expr} (h : Normal inner) : Normal (.paren inner)

/-- Expressions in normal form that are not nested too deep. -/
structure WellFormed (e : Expr) : Prop where
  normal : Normal e
  nesting_le : e.nesting ≤ maxNesting

/-! ## Parts of lexemes -/

/-- A string literal is its contents in quotes. -/
theorem Lexeme.text_of_string {l : Lexeme} (hl : l.Valid) (hk : l.kind = .string) :
    l.text = "'" ++ l.contents ++ "'" ∧ Escaped l.contents.toList := by
  rw [Lexeme.Valid, hk] at hl
  obtain ⟨contents, htext, hc⟩ := hl
  have hcontents : l.contents = String.ofList contents := by
    simp [Lexeme.contents, htext]
  refine ⟨?_, by rwa [hcontents, String.toList_ofList]⟩
  apply String.toList_inj.1
  rw [hcontents, htext]
  simp

/-- A name before a dot is the entity, and what is after the dot is the field. -/
theorem Lexeme.entity_field_of_text {l : Lexeme} {entity field : String}
    (htext : l.text = verbatimPath entity (some field)) (h : NameText entity.toList) :
    l.entity = entity ∧ l.field? = some field := by
  have hname : ∀ c ∈ entity.toList, (c != '.') = true := by
    obtain ⟨c, ds, hcs, hc, hds⟩ := h
    intro d hd
    have : isNamePart d = true := by
      rw [hcs] at hd
      rcases List.mem_cons.1 hd with rfl | hd
      · exact isNamePart_of_isNameStart hc
      · exact hds d hd
    rw [bne_iff_ne]
    rintro rfl
    exact absurd this (by decide)
  have hdot : ∀ c ∈ ('.' :: field.toList).head?, (c != '.') = false := by
    rintro _ ⟨⟩
    rfl
  obtain ⟨htake, hdrop⟩ := span_append hname hdot
  simp [Lexeme.entity, Lexeme.field?, htext, verbatimPath, htake, hdrop]

/-- A path is an entity and a field. -/
theorem exists_of_path {l : Lexeme} (hl : l.Valid) (hk : l.kind = .path) :
    ∃ field, l.field? = some field ∧ l.text = verbatimPath l.entity (some field) ∧
      IsLexeme .identifier l.entity.toList := by
  rw [Lexeme.Valid, hk] at hl
  obtain ⟨name, more, htext, hne, hname, -⟩ := hl
  obtain ⟨n, more, rfl⟩ := List.exists_cons_of_ne_nil hne
  have hsplit : l.text = String.ofList name ++ "." ++ String.ofList (n ++ dotted more) := by
    apply String.toList_inj.1
    rw [htext]
    simp
  have hentity : NameText (String.ofList name).toList := by rwa [String.toList_ofList]
  obtain ⟨he, hf⟩ := Lexeme.entity_field_of_text hsplit hentity
  exact ⟨_, hf, he ▸ hsplit, he ▸ hentity⟩

/-! ## What a text stands for -/

/-- The nesting of what a phrase stands for. -/
def Phrase.HasNesting : (p : Phrase) → p.Meaning → Nat → Prop
  | .expression, e, n | .term, e, n | .factor, e, n | .primary _, e, n => e.nesting = n
  | .moreTerms, f, n | .moreFactors, f, n => ∀ left : Expr, (f left).nesting = max left.nesting n
  | .arguments, es, n | .moreArguments, es, n => nestingOfList es = n
  | .form _, filled, n => nestingOfList filled.2 = n

/-- What a phrase stands for is in normal form, and is joined as tightly as the phrase promises. -/
def Phrase.IsNormal : (p : Phrase) → p.Meaning → Prop
  | .expression, e => Normal e
  | .moreTerms, f => ∀ left, Normal left → Normal (f left)
  | .term, e => Normal e ∧ e.rank ≤ 2
  | .moreFactors, f => ∀ left, Normal left → left.rank ≤ 2 → Normal (f left) ∧ (f left).rank ≤ 2
  | .factor, e => Normal e ∧ e.rank ≤ 1
  | .primary accepts, e => Normal e ∧ accepts.Accepts e
  | .arguments, es | .moreArguments, es => ∀ e ∈ es, Normal e
  | .form pieces, filled => Fills pieces filled.1 filled.2 ∧ ∀ e ∈ filled.2, Normal e

namespace Derivation

variable {catalog : Catalog} {p : Phrase} {ls rest : List Lexeme}

/-- **A text and the expression that it stands for nest equally deep.** -/
theorem nesting_tree (d : Derivation catalog p ls rest) : p.HasNesting d.tree d.nesting := by
  induction d with
  | expression first more ihfirst ihmore | term first more ihfirst ihmore =>
    have hfirst : first.tree.nesting = first.nesting := ihfirst
    exact (ihmore first.tree).trans (by rw [hfirst]; rfl)
  | noTerm | noFactor => exact fun left => (Nat.max_zero _).symm
  | moreTerms _ op _ next more ihnext ihmore | moreFactors _ op _ next more ihnext ihmore =>
    intro left
    have hnext : next.tree.nesting = next.nesting := ihnext
    refine (ihmore (.binary left op next.tree)).trans ?_
    rw [Expr.nesting, hnext, Nat.max_assoc]
    rfl
  | signed _ _ _ _ ih | unsigned _ ih => exact ih
  | paren _ _ _ _ _ ih | call _ _ _ _ _ _ _ _ _ ih | extension _ _ _ _ _ _ _ _ _ ih =>
    exact congrArg (· + 1) ih
  | path => rfl
  | number | name | string | parameter | noArgument | noMoreArgument | formEnd => rfl
  | arguments first more ihfirst ihmore | moreArguments _ _ first more ihfirst ihmore
  | expressionSlot first more ihfirst ihmore | primarySlot first more ihfirst ihmore =>
    exact congr (congrArg max ihfirst) ihmore
  | word _ _ _ ih | keyword _ _ _ ih | comma _ _ _ ih => exact ih

/-- What is left over is the end of what there was. -/
theorem suffix (d : Derivation catalog p ls rest) : rest <:+ ls := by
  induction d with
  | expression _ _ ihfirst ihmore | term _ _ ihfirst ihmore | arguments _ _ ihfirst ihmore
  | expressionSlot _ _ ihfirst ihmore | primarySlot _ _ ihfirst ihmore =>
    exact ihmore.trans ihfirst
  | moreTerms _ _ _ _ _ ihnext ihmore | moreFactors _ _ _ _ _ ihnext ihmore
  | moreArguments _ _ _ _ ihnext ihmore =>
    exact (ihmore.trans ihnext).trans (List.suffix_cons _ _)
  | noTerm | noFactor | noArgument | noMoreArgument => exact List.suffix_refl _
  | signed _ _ _ _ ih | word _ _ _ ih | keyword _ _ _ ih | comma _ _ _ ih =>
    exact ih.trans (List.suffix_cons _ _)
  | unsigned _ ih => exact ih
  | paren _ _ _ _ _ ih =>
    exact ((List.suffix_cons _ _).trans ih).trans (List.suffix_cons _ _)
  | number | name | string | parameter | path | formEnd => exact List.suffix_cons _ _
  | call _ _ _ _ _ _ _ _ _ ih =>
    exact (((List.suffix_cons _ _).trans ih).trans (List.suffix_cons _ _)).trans
      (List.suffix_cons _ _)
  | extension _ _ _ _ _ _ _ _ _ ih =>
    exact (ih.trans (List.suffix_cons _ _)).trans (List.suffix_cons _ _)

/-- Lexemes that are left over are as good as those that there were. -/
theorem valid_rest (d : Derivation catalog p ls rest) (h : ∀ l ∈ ls, l.Valid) :
    ∀ l ∈ rest, l.Valid :=
  fun l hl => h l (d.suffix.subset hl)

/-- **What a text stands for is in normal form**, and joined as tightly as its phrase promises. -/
theorem normal_tree (d : Derivation catalog p ls rest) (h : ∀ l ∈ ls, l.Valid) :
    p.IsNormal d.tree := by
  induction d with
  | expression first more ihfirst ihmore =>
    exact ihmore (first.valid_rest h) _ (ihfirst h).1
  | noTerm => exact fun left hleft => hleft
  | moreTerms sign op isOp next more ihnext ihmore =>
    intro left hleft
    have hls := fun l hl => h l (List.mem_cons_of_mem _ hl)
    obtain ⟨hnext, hrank⟩ := ihnext hls
    have hop := BinaryOp.rank_of_isAdditive isOp.isAdditive
    exact ihmore (next.valid_rest hls) _
      (.binary hleft hnext (by rw [hop]; exact left.rank_le) (by omega))
  | term first more ihfirst ihmore =>
    obtain ⟨hfirst, hrank⟩ := ihfirst h
    exact ihmore (first.valid_rest h) _ hfirst (by omega)
  | noFactor => exact fun left hleft hrank => ⟨hleft, hrank⟩
  | moreFactors sign op isOp next more ihnext ihmore =>
    intro left hleft hleftRank
    have hls := fun l hl => h l (List.mem_cons_of_mem _ hl)
    obtain ⟨hnext, hrank⟩ := ihnext hls
    have hop := BinaryOp.rank_of_not_isAdditive isOp.isAdditive
    exact ihmore (next.valid_rest hls) _ (.binary hleft hnext (by omega) (by omega))
      (Nat.le_of_eq hop)
  | signed _ sign _ operand ih =>
    obtain ⟨hoperand, hrank⟩ := ih fun l hl => h l (List.mem_cons_of_mem _ hl)
    exact ⟨.signed hoperand hrank, Nat.le_refl _⟩
  | unsigned operand ih =>
    obtain ⟨hoperand, hrank⟩ := ih h
    exact ⟨hoperand, Nat.le_succ_of_le (Nat.le_of_eq hrank)⟩
  | paren _ _ _ _ inner ih =>
    exact ⟨.paren (ih fun l hl => h l (List.mem_cons_of_mem _ hl)), rfl⟩
  | number l hl =>
    have hvalid : IsLexeme l.kind l.text.toList := h l List.mem_cons_self
    refine ⟨.number ?_, rfl⟩
    rcases hl with hk | hk
    · exact .inl (hk ▸ hvalid)
    · exact .inr (hk ▸ hvalid)
  | name l hl =>
    have hvalid : IsLexeme l.kind l.text.toList := h l List.mem_cons_self
    exact ⟨.name (hl ▸ hvalid), rfl⟩
  | @string accepts _ l hl =>
    obtain ⟨-, hc⟩ := l.text_of_string (h l List.mem_cons_self) hl
    exact ⟨.string hc, by cases accepts <;> trivial⟩
  | @parameter accepts _ l hl =>
    have hvalid : IsLexeme l.kind l.text.toList := h l List.mem_cons_self
    exact ⟨.parameter (hl ▸ hvalid), by cases accepts <;> trivial⟩
  | @path accepts _ l hl =>
    have hvalid : IsLexeme l.kind l.text.toList := h l List.mem_cons_self
    obtain ⟨field, hfield, htext, he⟩ := exists_of_path hvalid hl
    rw [hl, htext] at hvalid
    rw [tree, hfield]
    exact ⟨.path he hvalid, by cases accepts <;> trivial⟩
  | @call accepts _ _ _ _ _ _ _ _ _ _ args ih =>
    have hargs := ih fun l hl => h l (List.mem_cons_of_mem _ (List.mem_cons_of_mem _ hl))
    exact ⟨.call hargs, by cases accepts <;> trivial⟩
  | @extension accepts _ _ _ _ _ _ _ _ _ _ production _ ih =>
    obtain rfl := production_iff.1 production
    obtain ⟨hfilled, hslots⟩ :=
      ih fun l hl => h l (List.mem_cons_of_mem _ (List.mem_cons_of_mem _ hl))
    exact ⟨.extension hfilled hslots, by cases accepts <;> trivial⟩
  | noArgument | noMoreArgument => exact List.forall_mem_nil _
  | arguments first more ihfirst ihmore =>
    exact List.forall_mem_cons.2 ⟨ihfirst h, ihmore (first.valid_rest h)⟩
  | moreArguments _ _ next more ihnext ihmore =>
    have hls := fun l hl => h l (List.mem_cons_of_mem _ hl)
    exact List.forall_mem_cons.2 ⟨ihnext hls, ihmore (next.valid_rest hls)⟩
  | formEnd => exact ⟨.nil, List.forall_mem_nil _⟩
  | word l hl more ih =>
    have hvalid : IsLexeme l.kind l.text.toList := h l List.mem_cons_self
    obtain ⟨hfilled, hslots⟩ := ih fun l hl => h l (List.mem_cons_of_mem _ hl)
    exact ⟨.word (hl ▸ hvalid) hfilled, hslots⟩
  | keyword _ _ more ih =>
    obtain ⟨hfilled, hslots⟩ := ih fun l hl => h l (List.mem_cons_of_mem _ hl)
    exact ⟨.keyword hfilled, hslots⟩
  | comma _ _ more ih =>
    obtain ⟨hfilled, hslots⟩ := ih fun l hl => h l (List.mem_cons_of_mem _ hl)
    exact ⟨.comma hfilled, hslots⟩
  | expressionSlot slot more ihslot ihmore =>
    obtain ⟨hfilled, hslots⟩ := ihmore (slot.valid_rest h)
    exact ⟨.expression hfilled, List.forall_mem_cons.2 ⟨ihslot h, hslots⟩⟩
  | primarySlot slot more ihslot ihmore =>
    obtain ⟨hslot, haccepts⟩ := ihslot h
    obtain ⟨hfilled, hslots⟩ := ihmore (slot.valid_rest h)
    exact ⟨.primary haccepts hfilled, List.forall_mem_cons.2 ⟨hslot, hslots⟩⟩

end Derivation

end Dql
