import Dql.Proofs.Parsing
import Dql.Proofs.Rendering

/-!
# Parsing undoes rendering

The lexemes of an expression in normal form derive as that expression, at the level of the grammar
that its rank calls for. As its SQL reads as these lexemes, parsing the SQL gives the expression
back.

* `Expr.extensions`, `Catalog.Knows` - which extensions a catalog needs;
* `Spells`, `Spelled` - lexemes that derive as a phrase, and expressions whose lexemes do.

Principal results: `Normal.spelled` and `parsing_undoes_rendering`.
-/

namespace Dql

/-! ## Extensions -/

mutual

/-- The extensions that are called in an expression. -/
def Expr.extensions : Expr → List Extension
  | .number _ | .string _ | .path _ _ | .parameter _ => []
  | .call _ args => extensionsOfList args
  | .extension function _ slots => function :: extensionsOfList slots
  | .binary left _ right => left.extensions ++ right.extensions
  | .signed _ operand => operand.extensions
  | .paren inner => inner.extensions

/-- The extensions that are called in the expressions of a list. -/
def extensionsOfList : List Expr → List Extension
  | [] => []
  | e :: es => e.extensions ++ extensionsOfList es

end

theorem mem_extensionsOfList {e : Expr} {es : List Expr} (he : e ∈ es) {x : Extension}
    (hx : x ∈ e.extensions) : x ∈ extensionsOfList es := by
  induction he with
  | head => exact List.mem_append_left _ hx
  | tail _ _ ih => exact List.mem_append_right _ ih

/-- The catalog has the extension under its canonical name. -/
def Catalog.Knows (catalog : Catalog) (x : Extension) : Prop :=
  (catalog.find? x.name).map Entry.extension = some x

/-- No extension has a built-in function's name for its canonical name. -/
theorem Extension.builtin_name_ne (x : Extension) (function : Builtin) :
    function.name ≠ foldCase x.name := by
  refine Builtin.ofName?_eq_none_iff.1 ?_ function
  rcases x with (_ | _ | _) | _ <;> decide +kernel

/-- Every extension under its canonical name. -/
def Catalog.canonical : Catalog := defaults.put Extension.ifNull.name ⟨.ifNull, .string⟩

theorem Catalog.canonical_knows (x : Extension) : canonical.Knows x := by
  rcases x with (_ | _ | _) | _ <;> unfold Knows <;> decide +kernel

/-! ## Lexemes that derive as a phrase -/

/-- Before anything but an opening parenthesis, the lexemes derive as the phrase, with this
meaning. -/
def Spells (catalog : Catalog) (p : Phrase) (ls : List Lexeme) (meaning : p.Meaning) : Prop :=
  ∀ rest, ¬ NextIs .parenLeft rest → ∃ d : Derivation catalog p (ls ++ rest) rest, d.tree = meaning

section Spelling

variable {catalog : Catalog}

/-- One more term after others. -/
theorem Derivation.exists_snocTerm {ms mid ls rest : List Lexeme} {sign : Lexeme} {op : BinaryOp}
    (isOp : JoinsTerms sign.kind op) (last : Derivation catalog .term ls rest) :
    (more : Derivation catalog .moreTerms ms mid) → mid = sign :: ls →
      ∃ d : Derivation catalog .moreTerms ms rest,
        ∀ left : Expr, d.tree left = .binary (more.tree left) op last.tree
  | .noTerm, hmid => by
    subst hmid
    exact ⟨.moreTerms sign op isOp last .noTerm, fun _ => rfl⟩
  | .moreTerms sign' op' isOp' next more, hmid => by
    obtain ⟨d, hd⟩ := exists_snocTerm isOp last more hmid
    exact ⟨.moreTerms sign' op' isOp' next d, fun _ => hd _⟩

/-- One more factor after others. -/
theorem Derivation.exists_snocFactor {ms mid ls rest : List Lexeme} {sign : Lexeme} {op : BinaryOp}
    (isOp : JoinsFactors sign.kind op) (last : Derivation catalog .factor ls rest) :
    (more : Derivation catalog .moreFactors ms mid) → mid = sign :: ls →
      ∃ d : Derivation catalog .moreFactors ms rest,
        ∀ left : Expr, d.tree left = .binary (more.tree left) op last.tree
  | .noFactor, hmid => by
    subst hmid
    exact ⟨.moreFactors sign op isOp last .noFactor, fun _ => rfl⟩
  | .moreFactors sign' op' isOp' next more, hmid => by
    obtain ⟨d, hd⟩ := exists_snocFactor isOp last more hmid
    exact ⟨.moreFactors sign' op' isOp' next d, fun _ => hd _⟩

theorem BinaryOp.operator?_kind (op : BinaryOp) : op.kind.operator? = some op := by
  cases op <;> rfl

theorem BinaryOp.joinsTerms_kind {op : BinaryOp} (h : op.isAdditive = true) :
    JoinsTerms op.kind op :=
  joinsTerms_of_operator? op.operator?_kind h

theorem BinaryOp.joinsFactors_kind {op : BinaryOp} (h : op.isAdditive = false) :
    JoinsFactors op.kind op :=
  joinsFactors_of_operator? op.operator?_kind h

theorem Sign.isSign_kind (sign : Sign) : IsSign sign.kind sign := by
  cases sign
  · exact .plus
  · exact .minus

theorem BinaryOp.not_nextIs (op : BinaryOp) (rest : List Lexeme) :
    ¬ NextIs .parenLeft (op.lexeme :: rest) := by
  cases op <;> simp [NextIs, lexeme, kind]

namespace Spells

variable {ls ms : List Lexeme} {e left right : Expr} {op : BinaryOp}

/-- The lexemes on their own derive as the phrase. -/
theorem exists_whole {p : Phrase} {meaning : p.Meaning} (h : Spells catalog p ls meaning) :
    ∃ d : Derivation catalog p ls [], d.tree = meaning := by
  have h := h [] (by simp [NextIs])
  rwa [List.append_nil] at h

theorem factor (h : Spells catalog (.primary .arithmetic) ls e) : Spells catalog .factor ls e := by
  intro rest hr
  obtain ⟨d, rfl⟩ := h rest hr
  exact ⟨.unsigned d, rfl⟩

theorem term (h : Spells catalog .factor ls e) : Spells catalog .term ls e := by
  intro rest hr
  obtain ⟨d, rfl⟩ := h rest hr
  exact ⟨.term d .noFactor, rfl⟩

theorem expression (h : Spells catalog .term ls e) : Spells catalog .expression ls e := by
  intro rest hr
  obtain ⟨d, rfl⟩ := h rest hr
  exact ⟨.expression d .noTerm, rfl⟩

theorem sum (hleft : Spells catalog .expression ls left) (hright : Spells catalog .term ms right)
    (hop : op.isAdditive = true) :
    Spells catalog .expression (ls ++ op.lexeme :: ms) (.binary left op right) := by
  intro rest hr
  obtain ⟨d, rfl⟩ := hleft (op.lexeme :: (ms ++ rest)) (op.not_nextIs _)
  obtain ⟨last, rfl⟩ := hright rest hr
  cases d with
  | expression first more =>
    have hjoins := BinaryOp.joinsTerms_kind hop
    obtain ⟨more', hmore'⟩ := Derivation.exists_snocTerm hjoins last more rfl
    rw [List.append_assoc]
    exact ⟨.expression first more', hmore' _⟩

theorem product (hleft : Spells catalog .term ls left) (hright : Spells catalog .factor ms right)
    (hop : op.isAdditive = false) :
    Spells catalog .term (ls ++ op.lexeme :: ms) (.binary left op right) := by
  intro rest hr
  obtain ⟨d, rfl⟩ := hleft (op.lexeme :: (ms ++ rest)) (op.not_nextIs _)
  obtain ⟨last, rfl⟩ := hright rest hr
  cases d with
  | term first more =>
    have hjoins := BinaryOp.joinsFactors_kind hop
    obtain ⟨more', hmore'⟩ := Derivation.exists_snocFactor hjoins last more rfl
    rw [List.append_assoc]
    exact ⟨.term first more', hmore' _⟩

theorem signed (sign : Sign) (h : Spells catalog (.primary .arithmetic) ls e) :
    Spells catalog .factor (sign.lexeme :: ls) (.signed sign e) := by
  intro rest hr
  obtain ⟨d, rfl⟩ := h rest hr
  exact ⟨.signed sign.lexeme sign sign.isSign_kind d, rfl⟩

theorem paren (h : Spells catalog .expression ls e) :
    Spells catalog (.primary .arithmetic) (.parenLeft :: ls ++ [.parenRight]) (.paren e) := by
  intro rest _
  obtain ⟨d, rfl⟩ := h (.parenRight :: rest) (by simp [NextIs, Lexeme.parenRight])
  rw [List.append_assoc]
  exact ⟨.paren .parenLeft .parenRight rfl rfl d, rfl⟩

end Spells

/-! ## Expressions whose lexemes derive as themselves -/

/-- The lexemes of an expression derive as the expression, as a phrase that suits its rank. -/
structure Spelled (catalog : Catalog) (e : Expr) : Prop where
  primary : ∀ accepts : PrimaryClass, accepts.Accepts e →
    Spells catalog (.primary accepts) e.lexemes e
  factor : e.rank ≤ 1 → Spells catalog .factor e.lexemes e
  term : e.rank ≤ 2 → Spells catalog .term e.lexemes e
  expression : Spells catalog .expression e.lexemes e

namespace Spelled

variable {e : Expr}

theorem of_primary (hr : e.rank = 0)
    (h : ∀ accepts : PrimaryClass, accepts.Accepts e →
      Spells catalog (.primary accepts) e.lexemes e) : Spelled catalog e where
  primary := h
  factor _ := (h .arithmetic hr).factor
  term _ := (h .arithmetic hr).factor.term
  expression := (h .arithmetic hr).factor.term.expression

theorem of_factor (hr : e.rank = 1) (h : Spells catalog .factor e.lexemes e) :
    Spelled catalog e where
  primary _ ha := by
    have := ha.rank_eq
    omega
  factor _ := h
  term _ := h.term
  expression := h.term.expression

theorem of_term (hr : e.rank = 2) (h : Spells catalog .term e.lexemes e) : Spelled catalog e where
  primary _ ha := by
    have := ha.rank_eq
    omega
  factor hr' := by omega
  term _ := h
  expression := h.expression

theorem of_expression (hr : e.rank = 3) (h : Spells catalog .expression e.lexemes e) :
    Spelled catalog e where
  primary _ ha := by
    have := ha.rank_eq
    omega
  factor hr' := by omega
  term hr' := by omega
  expression := h

end Spelled

/-- No parenthesis opens after an argument. -/
theorem not_nextIs_after_argument (lss : List (List Lexeme)) {rest : List Lexeme}
    (hr : ¬ NextIs .parenLeft rest) :
    ¬ NextIs .parenLeft ((lss.flatMap fun ls => .comma :: ls) ++ rest) := by
  cases lss with
  | nil => exact hr
  | cons ls lss => simp [NextIs, Lexeme.comma]

section Arguments

variable {args : List (List Lexeme × Expr)}

theorem spells_moreArguments (h : ∀ a ∈ args, Spells catalog .expression a.1 a.2) :
    Spells catalog .moreArguments ((args.map Prod.fst).flatMap fun ls => .comma :: ls)
      (args.map Prod.snd) := by
  intro rest hr
  induction args with
  | nil => exact ⟨.noMoreArgument, rfl⟩
  | cons a args ih =>
    obtain ⟨ha, hargs⟩ := List.forall_mem_cons.1 h
    obtain ⟨more, hmore⟩ := ih hargs
    obtain ⟨d, hd⟩ := ha _ (not_nextIs_after_argument (args.map Prod.fst) hr)
    rw [List.map_cons, List.flatMap_cons, List.cons_append, List.cons_append, List.append_assoc]
    exact ⟨.moreArguments .comma rfl d more, congr (congrArg List.cons hd) hmore⟩

/-- Expressions with commas between them are arguments. -/
theorem spells_arguments (h : ∀ a ∈ args, Spells catalog .expression a.1 a.2) :
    Spells catalog .arguments (List.intercalate [.comma] (args.map Prod.fst))
      (args.map Prod.snd) := by
  intro rest hr
  cases args with
  | nil => exact ⟨.noArgument, rfl⟩
  | cons a args =>
    obtain ⟨ha, hargs⟩ := List.forall_mem_cons.1 h
    obtain ⟨more, hmore⟩ := spells_moreArguments hargs rest hr
    obtain ⟨d, hd⟩ := ha _ (not_nextIs_after_argument (args.map Prod.fst) hr)
    rw [List.map_cons, intercalate_comma, List.append_assoc]
    exact ⟨.arguments d more, congr (congrArg List.cons hd) hmore⟩

end Arguments

/-- The name of a built-in function and arguments in parentheses derive as a call of it. -/
theorem Spells.call {accepts : PrimaryClass} {name : String} {function : Builtin}
    (hname : function.name = foldCase name) {ls : List Lexeme} {args : List Expr}
    (h : Spells catalog .arguments ls args) :
    Spells catalog (.primary accepts)
      ([⟨.identifier, name⟩, .parenLeft] ++ (ls ++ [.parenRight])) (.call function args) := by
  intro rest _
  obtain ⟨d, hd⟩ := h (.parenRight :: rest) (by simp [NextIs, Lexeme.parenRight])
  rw [List.append_assoc, List.append_assoc]
  exact ⟨.call ⟨.identifier, name⟩ .parenLeft .parenRight function rfl rfl rfl hname d,
    congrArg (Expr.call function) hd⟩

/-- No parenthesis opens after a word or a slot of a form. -/
theorem not_nextIs_arrange {form : List Piece} {words : List String} {slots : List Expr}
    (h : Fills form words slots) (hparts : form.head?.all Piece.parts = true) (rest : List Lexeme) :
    ¬ NextIs .parenLeft
      (arrangeLexemes form words (lexemesOfList slots) ++ .parenRight :: rest) := by
  cases h with
  | nil | comma | keyword =>
    simp [arrangeLexemes, NextIs, Lexeme.parenRight, Lexeme.comma]
  | word | expression | primary => cases hparts

theorem spells_form {form : List Piece} {words : List String} {slots : List Expr}
    (h : Fills form words slots) (hform : spaced form = true)
    (hslots : ∀ e ∈ slots, Spelled catalog e) (rest : List Lexeme) :
    ∃ d : Derivation catalog (.form form)
      (arrangeLexemes form words (lexemesOfList slots) ++ .parenRight :: rest) rest,
      d.tree = (words, slots) := by
  induction h with
  | nil => exact ⟨.formEnd .parenRight rfl, rfl⟩
  | word isName more ih =>
    obtain ⟨hparts, hform⟩ := Bool.and_eq_true_iff.1 hform
    obtain ⟨d, hd⟩ := ih hform hslots
    exact ⟨.word ⟨.identifier, _⟩ rfl d, by simp [Derivation.tree, hd]⟩
  | keyword more ih =>
    obtain ⟨hsql, hform⟩ := Bool.and_eq_true_iff.1 hform
    obtain ⟨d, hd⟩ := ih hform hslots
    exact ⟨.keyword ⟨.identifier, _⟩ rfl d, by simp [Derivation.tree, hd]⟩
  | comma more ih =>
    obtain ⟨d, hd⟩ := ih hform hslots
    exact ⟨.comma .comma rfl d, by simp [Derivation.tree, hd]⟩
  | expression more ih =>
    obtain ⟨hparts, hform⟩ := Bool.and_eq_true_iff.1 hform
    obtain ⟨hslot, hslots⟩ := List.forall_mem_cons.1 hslots
    obtain ⟨d, hd⟩ := ih hform hslots
    obtain ⟨d', hd'⟩ := hslot.expression _ (not_nextIs_arrange more hparts rest)
    rw [lexemesOfList, arrangeLexemes, List.append_assoc]
    exact ⟨.expressionSlot d' d, by simp [Derivation.tree, hd, hd']⟩
  | primary suits more ih =>
    obtain ⟨hparts, hform⟩ := Bool.and_eq_true_iff.1 hform
    obtain ⟨hslot, hslots⟩ := List.forall_mem_cons.1 hslots
    obtain ⟨d, hd⟩ := ih hform hslots
    obtain ⟨d', hd'⟩ := hslot.primary _ suits _ (not_nextIs_arrange more hparts rest)
    rw [lexemesOfList, arrangeLexemes, List.append_assoc]
    exact ⟨.primarySlot d' d, by simp [Derivation.tree, hd, hd']⟩

/-- **The lexemes of an expression in normal form derive as the expression**, if the catalog knows
its extensions. -/
theorem Normal.spelled {e : Expr} (h : Normal e) (hc : ∀ x ∈ e.extensions, catalog.Knows x) :
    Spelled catalog e := by
  induction h with
  | @number text h =>
    refine .of_primary rfl fun accepts ha rest _ => ?_
    cases accepts with
    | string => exact ha.elim
    | arithmetic =>
      exact ⟨.number (numberLexeme text) (by unfold numberLexeme; split <;> simp), rfl⟩
  | @string contents h =>
    refine .of_primary rfl fun accepts _ rest _ => ?_
    exact ⟨.string ⟨.string, "'" ++ contents ++ "'"⟩ rfl,
      by simp [Derivation.tree, Lexeme.contents]⟩
  | @name entity h =>
    refine .of_primary rfl fun accepts ha rest hr => ?_
    cases accepts with
    | string => exact ha.elim
    | arithmetic => exact ⟨.name ⟨.identifier, entity⟩ rfl hr, rfl⟩
  | @path entity field h hpath =>
    refine .of_primary rfl fun accepts _ rest _ => ?_
    obtain ⟨he, hf⟩ := Lexeme.entity_field_of_text (l := ⟨.path, _⟩) rfl h
    exact ⟨.path ⟨.path, verbatimPath entity (some field)⟩ rfl, congr (congrArg Expr.path he) hf⟩
  | @parameter text h =>
    exact .of_primary rfl fun accepts _ rest _ => ⟨.parameter ⟨.parameter, text⟩ rfl, rfl⟩
  | @call function args _ ih =>
    refine .of_primary rfl fun accepts _ => ?_
    have hargs : ∀ a ∈ args.map fun a => (a.lexemes, a), Spells catalog .expression a.1 a.2 :=
      List.forall_mem_map.2 fun a ha =>
        (ih a ha fun x hx => hc x (mem_extensionsOfList ha hx)).expression
    have hname : function.name = foldCase function.name := function.foldCase_name.symm
    have hcall : Spells catalog (.primary accepts) _ (.call function _) :=
      (spells_arguments hargs).call hname
    simpa [Function.comp_def, Expr.lexemes, lexemesOfList_eq_map] using hcall
  | @extension function words slots filled _ ih =>
    refine .of_primary rfl fun accepts _ rest _ => ?_
    have hslots : ∀ e ∈ slots, Spelled catalog e := fun e he =>
      ih e he fun x hx => hc x (List.mem_cons_of_mem _ (mem_extensionsOfList he hx))
    obtain ⟨entry, hentry, rfl⟩ := Option.map_eq_some_iff.1 (hc function List.mem_cons_self)
    obtain ⟨d, hd⟩ := spells_form filled (spaced_form _) hslots rest
    rw [Expr.lexemes, List.append_assoc]
    exact ⟨.extension ⟨.identifier, entry.extension.name⟩ .parenLeft entry rfl rfl
      (Extension.builtin_name_ne _) hentry (production_iff.2 rfl) d,
      by simp [Derivation.tree, hd]⟩
  | @binary left right op _ _ hl hr ihleft ihright =>
    have hleft := ihleft fun x hx => hc x (List.mem_append_left _ hx)
    have hright := ihright fun x hx => hc x (List.mem_append_right _ hx)
    cases hop : op.isAdditive with
    | true =>
      have hrank := BinaryOp.rank_of_isAdditive hop
      exact .of_expression hrank (.sum hleft.expression (hright.term (by omega)) hop)
    | false =>
      have hrank := BinaryOp.rank_of_not_isAdditive hop
      exact .of_term hrank (.product (hleft.term (by omega)) (hright.factor (by omega)) hop)
  | @signed sign operand _ hr ih =>
    exact .of_factor rfl (.signed sign ((ih hc).primary .arithmetic hr))
  | @paren inner _ ih =>
    refine .of_primary rfl fun accepts ha => ?_
    cases accepts with
    | string => exact ha.elim
    | arithmetic => exact .paren (ih hc).expression

end Spelling

/-! ## The round trip -/

/-- SQL of an expression in normal form, as it is read. -/
theorem Normal.lexemes_toSql {e : Expr} (h : Normal e) :
    (TokenList.ofText (e.toSql .verbatim)).lexemes = e.lexemes ∧
      ReadsToEnd (e.toSql .verbatim) := by
  have hreads := h.reads
  rw [← toList_toSql] at hreads
  obtain ⟨hls, hend⟩ := hreads.lexemes_ofText delimited_nil
  exact ⟨hls, _, hend⟩

/-- A text whose lexemes derive as an expression is parsed as it, within the limit on nesting. -/
theorem Spells.parse_eq_ok {catalog : Catalog} {text : String} {e : Expr}
    (h : Spells catalog .expression (TokenList.ofText text).lexemes e) (hend : ReadsToEnd text)
    (hnesting : e.nesting ≤ maxNesting) : (parse catalog text).1 = .ok e := by
  obtain ⟨d, rfl⟩ := h.exists_whole
  have hd : d.tree.nesting = d.nesting := d.nesting_tree
  exact parse_eq_ok_iff.2 ⟨hend, d, rfl, hd ▸ hnesting⟩

/-- A text that reads as the lexemes of a well-formed expression is parsed as the expression. -/
theorem WellFormed.parse_eq_ok {catalog : Catalog} {e : Expr} (h : WellFormed e)
    (hc : ∀ x ∈ e.extensions, catalog.Knows x) {text : String}
    (hls : (TokenList.ofText text).lexemes = e.lexemes) (hend : ReadsToEnd text) :
    (parse catalog text).1 = .ok e :=
  Spells.parse_eq_ok (hls ▸ (h.normal.spelled hc).expression) hend h.nesting_le

/-- Rendering and parsing give the expression back. -/
theorem WellFormed.parse_toSql {catalog : Catalog} {e : Expr} (h : WellFormed e)
    (hc : ∀ x ∈ e.extensions, catalog.Knows x) :
    (parse catalog (e.toSql .verbatim)).1 = .ok e := by
  obtain ⟨hls, hend⟩ := h.normal.lexemes_toSql
  exact h.parse_eq_ok hc hls hend

/-- What is parsed is well-formed. -/
theorem wellFormed_of_parse {catalog : Catalog} {text : String} {e : Expr}
    (h : (parse catalog text).1 = .ok e) : WellFormed e := by
  obtain ⟨-, d, rfl, hd⟩ := parse_eq_ok_iff.1 h
  have hnesting : d.tree.nesting = d.nesting := d.nesting_tree
  exact ⟨d.normal_tree fun _ => valid_of_mem_ofText, by rwa [hnesting]⟩

/-- **Parsing undoes rendering, and only well-formed expressions are parsed.** A well-formed
expression comes back from its SQL under every catalog that knows its extensions. Whatever is parsed
is well-formed, so two parsed expressions with the same SQL are the same. -/
theorem parsing_undoes_rendering :
    (∀ (catalog : Catalog) (e : Expr), WellFormed e → (∀ x ∈ e.extensions, catalog.Knows x) →
      (parse catalog (e.toSql .verbatim)).1 = .ok e) ∧
    (∀ (catalog : Catalog) (text : String) (e : Expr),
      (parse catalog text).1 = .ok e → WellFormed e) ∧
    ∀ (catalog catalog' : Catalog) (text text' : String) (e e' : Expr),
      (parse catalog text).1 = .ok e → (parse catalog' text').1 = .ok e' →
        e.toSql .verbatim = e'.toSql .verbatim → e = e' := by
  refine ⟨fun _ _ h hc => h.parse_toSql hc, fun _ _ _ h => wellFormed_of_parse h, ?_⟩
  intro _ _ _ _ e e' he he' hsql
  have h := (wellFormed_of_parse he).parse_toSql fun x _ => Catalog.canonical_knows x
  have h' := (wellFormed_of_parse he').parse_toSql fun x _ => Catalog.canonical_knows x
  rw [hsql, h'] at h
  exact (Except.ok.inj h).symm

end Dql
