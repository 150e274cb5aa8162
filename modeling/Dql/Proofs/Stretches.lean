import Dql.Proofs.Grammar

/-!
# Stretches of lexemes

What may be taken between one place of a text and a later one, as a relation between the lexemes
ahead at both. Unlike derivations, stretches also describe what a parser took before it failed.

* `Stretch` - such relations, with `Stretch.phrase`, `Stretch.Steps` and others;
* `Stretch.Portable` - what was taken may be taken before other texts too;
* `Stretch.Open` - some lexemes complete what was taken.

Principal results: `portable_phrase`, and `open_expression`, `open_primary` and `open_form`: where
nothing was taken yet of a phrase, all of it can be supplied.
-/

namespace Dql

variable {catalog : Catalog}

/-! ## Stretches -/

/-- A relation between the lexemes ahead and those left over. -/
abbrev Stretch := List Lexeme → List Lexeme → Prop

namespace Stretch

/-- What derives as a phrase. -/
def phrase (catalog : Catalog) (p : Phrase) : Stretch :=
  fun ls rest => Nonempty (Derivation catalog p ls rest)

/-- Nothing at all. -/
def nothing : Stretch := fun ls rest => ls = rest

/-- This lexeme. -/
def exactly (l : Lexeme) : Stretch := fun ls rest => ls = l :: rest

/-- One lexeme of this kind. -/
def kind (k : TokenKind) : Stretch := fun ls rest => ∃ l, l.kind = k ∧ ls = l :: rest

/-- One stretch and then another. -/
def seq (R S : Stretch) : Stretch := fun ls rest => ∃ mid, R ls mid ∧ S mid rest

/-- Operators, each with a factor to its right. -/
inductive Steps (catalog : Catalog) : Stretch where
  | refl {rest : List Lexeme} : Steps catalog rest rest
  | step {ls mid rest : List Lexeme} (l : Lexeme) (op : BinaryOp)
      (isOp : l.kind.operator? = some op) (next : phrase catalog .factor ls mid)
      (more : Steps catalog mid rest) : Steps catalog (l :: ls) rest

theorem Steps.trans {ls mid rest : List Lexeme} (h₁ : Steps catalog ls mid)
    (h₂ : Steps catalog mid rest) : Steps catalog ls rest := by
  induction h₁ with
  | refl => exact h₂
  | step l op isOp next _ ih => exact .step l op isOp next (ih h₂)

/-- Steps are factors after `*` and `/`, and then terms after `+` and `-`. -/
theorem Steps.split {ls rest : List Lexeme} (h : Steps catalog ls rest) :
    seq (phrase catalog .moreFactors) (phrase catalog .moreTerms) ls rest := by
  induction h with
  | refl => exact ⟨_, ⟨.noFactor⟩, ⟨.noTerm⟩⟩
  | step l op isOp next _ ih =>
    obtain ⟨next⟩ := next
    obtain ⟨mid, ⟨factors⟩, ⟨terms⟩⟩ := ih
    cases hop : op.isAdditive with
    | false =>
      have hjoins := joinsFactors_of_operator? isOp hop
      exact ⟨mid, ⟨.moreFactors l op hjoins next factors⟩, ⟨terms⟩⟩
    | true =>
      have hjoins := joinsTerms_of_operator? isOp hop
      exact ⟨_, ⟨.noFactor⟩, ⟨.moreTerms l op hjoins (.term next factors) terms⟩⟩

/-- A factor and the steps after it are an expression. -/
theorem expression_of_steps {ls mid rest : List Lexeme} (h : phrase catalog .factor ls mid)
    (hsteps : Steps catalog mid rest) : phrase catalog .expression ls rest := by
  obtain ⟨first⟩ := h
  obtain ⟨mid', ⟨factors⟩, ⟨terms⟩⟩ := hsteps.split
  exact ⟨.expression (.term first factors) terms⟩

/-! ## Before other texts -/

/-- What was taken between these two places is taken in the same way before any other text, as long
as no parenthesis comes to stand after it where none stood: that would make a call of a name. -/
def Portable (R : Stretch) (ls rest : List Lexeme) : Prop :=
  ∃ taken, ls = taken ++ rest ∧
    ∀ rest', (NextIs .parenLeft rest' → NextIs .parenLeft rest) → R (taken ++ rest') rest'

theorem nextIs_append {kind : TokenKind} {rest rest' : List Lexeme}
    (h : NextIs kind rest' → NextIs kind rest) :
    (taken : List Lexeme) → NextIs kind (taken ++ rest') → NextIs kind (taken ++ rest)
  | [] => h
  | _ :: _ => id

namespace Portable

variable {R S : Stretch} {ls mid rest : List Lexeme}

theorem nothing (rest : List Lexeme) : Portable nothing rest rest := ⟨[], rfl, fun _ _ => rfl⟩

theorem exactly (l : Lexeme) (rest : List Lexeme) : Portable (exactly l) (l :: rest) rest :=
  ⟨[l], rfl, fun _ _ => rfl⟩

theorem seq (hR : Portable R ls mid) (hS : Portable S mid rest) :
    Portable (seq R S) ls rest := by
  obtain ⟨t₁, rfl, h₁⟩ := hR
  obtain ⟨t₂, rfl, h₂⟩ := hS
  refine ⟨t₁ ++ t₂, (List.append_assoc ..).symm, fun rest' hrest =>
    ⟨t₂ ++ rest', ?_, h₂ rest' hrest⟩⟩
  rw [List.append_assoc]
  exact h₁ _ (nextIs_append hrest t₂)

theorem mono (hR : Portable R ls rest) (h : ∀ ls rest, R ls rest → S ls rest) :
    Portable S ls rest :=
  hR.imp fun _ ⟨hls, hR⟩ => ⟨hls, fun rest' hrest => h _ _ (hR rest' hrest)⟩

/-- One lexeme that is a phrase on its own. -/
theorem leaf {p : Phrase} (l : Lexeme) (d : ∀ rest, Derivation catalog p (l :: rest) rest) :
    Portable (phrase catalog p) (l :: rest) rest :=
  ⟨[l], rfl, fun rest' _ => ⟨d rest'⟩⟩

/-- Certain lexemes before a stretch. -/
theorem append (before : List Lexeme) (hR : Portable R ls rest)
    (h : ∀ ls rest, R ls rest → S (before ++ ls) rest) : Portable S (before ++ ls) rest := by
  obtain ⟨taken, rfl, hR⟩ := hR
  refine ⟨before ++ taken, (List.append_assoc ..).symm, fun rest' hrest => ?_⟩
  rw [List.append_assoc]
  exact h _ _ (hR rest' hrest)

theorem cons (l : Lexeme) (hR : Portable R ls rest) (h : ∀ ls rest, R ls rest → S (l :: ls) rest) :
    Portable S (l :: ls) rest :=
  hR.append [l] h

end Portable

/-- What derives as a phrase does so before other texts too. -/
theorem portable_phrase {p : Phrase} {ls rest : List Lexeme} (h : phrase catalog p ls rest) :
    Portable (phrase catalog p) ls rest := by
  obtain ⟨d⟩ := h
  induction d with
  | expression _ _ ihfirst ihmore =>
    exact (ihfirst.seq ihmore).mono fun _ _ ⟨_, ⟨a⟩, ⟨b⟩⟩ => ⟨.expression a b⟩
  | noTerm => exact (Portable.nothing _).mono fun _ _ h => h ▸ ⟨.noTerm⟩
  | moreTerms sign op isOp _ _ ihnext ihmore =>
    exact (ihnext.seq ihmore).cons sign fun _ _ ⟨_, ⟨a⟩, ⟨b⟩⟩ =>
      ⟨.moreTerms sign op isOp a b⟩
  | term _ _ ihfirst ihmore =>
    exact (ihfirst.seq ihmore).mono fun _ _ ⟨_, ⟨a⟩, ⟨b⟩⟩ => ⟨.term a b⟩
  | noFactor => exact (Portable.nothing _).mono fun _ _ h => h ▸ ⟨.noFactor⟩
  | moreFactors sign op isOp _ _ ihnext ihmore =>
    exact (ihnext.seq ihmore).cons sign fun _ _ ⟨_, ⟨a⟩, ⟨b⟩⟩ =>
      ⟨.moreFactors sign op isOp a b⟩
  | signed mark sign isSign _ ih => exact ih.cons mark fun _ _ ⟨a⟩ => ⟨.signed mark sign isSign a⟩
  | unsigned _ ih => exact ih.mono fun _ _ ⟨a⟩ => ⟨.unsigned a⟩
  | paren left right isLeft isRight _ ih =>
    exact (ih.seq (Portable.exactly right _)).cons left
      fun _ _ ⟨_, ⟨a⟩, hls⟩ => ⟨.paren left right isLeft isRight (hls ▸ a)⟩
  | number l isNumber => exact .leaf l fun _ => .number l isNumber
  | name l isName noCall =>
    exact ⟨[l], rfl, fun _ hrest => ⟨.name l isName fun h => noCall (hrest h)⟩⟩
  | string l isString => exact .leaf l fun _ => .string l isString
  | parameter l isParameter => exact .leaf l fun _ => .parameter l isParameter
  | path l isPath => exact .leaf l fun _ => .path l isPath
  | call l left right function isName isLeft isRight builtin _ ih =>
    exact (ih.seq (Portable.exactly right _)).append [l, left]
      fun _ _ ⟨_, ⟨a⟩, hls⟩ =>
        ⟨.call l left right function isName isLeft isRight builtin (hls ▸ a)⟩
  | extension l left entry isName isLeft notBuiltin found production _ ih =>
    exact ih.append [l, left]
      fun _ _ ⟨a⟩ => ⟨.extension l left entry isName isLeft notBuiltin found production a⟩
  | noArgument => exact (Portable.nothing _).mono fun _ _ h => h ▸ ⟨.noArgument⟩
  | arguments _ _ ihfirst ihmore =>
    exact (ihfirst.seq ihmore).mono fun _ _ ⟨_, ⟨a⟩, ⟨b⟩⟩ => ⟨.arguments a b⟩
  | noMoreArgument => exact (Portable.nothing _).mono fun _ _ h => h ▸ ⟨.noMoreArgument⟩
  | moreArguments comma isComma _ _ ihnext ihmore =>
    exact (ihnext.seq ihmore).cons comma fun _ _ ⟨_, ⟨a⟩, ⟨b⟩⟩ => ⟨.moreArguments comma isComma a b⟩
  | formEnd right isRight => exact .leaf right fun _ => .formEnd right isRight
  | word l isName _ ih => exact ih.cons l fun _ _ ⟨a⟩ => ⟨.word l isName a⟩
  | keyword l isName _ ih => exact ih.cons l fun _ _ ⟨a⟩ => ⟨.keyword l isName a⟩
  | comma l isComma _ ih => exact ih.cons l fun _ _ ⟨a⟩ => ⟨.comma l isComma a⟩
  | expressionSlot _ _ ihslot ihmore =>
    exact (ihslot.seq ihmore).mono fun _ _ ⟨_, ⟨a⟩, ⟨b⟩⟩ => ⟨.expressionSlot a b⟩
  | primarySlot _ _ ihslot ihmore =>
    exact (ihslot.seq ihmore).mono fun _ _ ⟨_, ⟨a⟩, ⟨b⟩⟩ => ⟨.primarySlot a b⟩

theorem portable_steps {ls rest : List Lexeme} (h : Steps catalog ls rest) :
    Portable (Steps catalog) ls rest := by
  induction h with
  | refl => exact (Portable.nothing _).mono fun _ _ h => h ▸ .refl
  | step l op isOp next _ ih =>
    exact ((portable_phrase next).seq ih).cons l fun _ _ ⟨_, a, b⟩ => .step l op isOp a b

/-! ## Completions -/

/-- Some lexemes complete what was taken, whatever comes after them. They are no parenthesis, which
would make a call of a name before it, and so must be what comes after them. -/
def Open (R : Stretch) (taken : List Lexeme) : Prop :=
  ∃ more, (∀ l ∈ more, l.Valid) ∧ ¬ NextIs .parenLeft more ∧
    ∀ rest, ¬ NextIs .parenLeft rest → R (taken ++ more ++ rest) rest

theorem not_nextIs_append {kind : TokenKind} {ls rest : List Lexeme} (h : ¬ NextIs kind ls)
    (hrest : ¬ NextIs kind rest) : ¬ NextIs kind (ls ++ rest) := by
  cases ls with
  | nil => exact hrest
  | cons => exact h

namespace Open

variable {R S : Stretch} {taken : List Lexeme}

theorem mono (hR : Open R taken) (h : ∀ ls rest, R ls rest → S ls rest) : Open S taken :=
  hR.imp fun _ ⟨hvalid, hleft, hR⟩ => ⟨hvalid, hleft, fun rest hrest => h _ _ (hR rest hrest)⟩

theorem nothing : Open nothing [] := ⟨[], nofun, by decide, fun _ _ => rfl⟩

theorem kind {l : Lexeme} (hvalid : l.Valid) (hleft : l.kind ≠ .parenLeft) :
    Open (kind l.kind) [] :=
  ⟨[l], by simpa using hvalid, by simpa [NextIs] using hleft, fun _ _ => ⟨l, rfl, rfl⟩⟩

/-- The first stretch is completed as ever, and the second one altogether. -/
theorem seq (hR : Open R taken) (hS : Open S []) : Open (seq R S) taken := by
  obtain ⟨more₁, hvalid₁, hleft₁, hR⟩ := hR
  obtain ⟨more₂, hvalid₂, hleft₂, hS⟩ := hS
  refine ⟨more₁ ++ more₂, List.forall_mem_append.2 ⟨hvalid₁, hvalid₂⟩,
    not_nextIs_append hleft₁ hleft₂, fun rest hrest => ⟨more₂ ++ rest, ?_, hS rest hrest⟩⟩
  simpa using hR _ (not_nextIs_append hleft₂ hrest)

end Open

theorem open_comma : Open (kind .comma) [] :=
  Open.kind (l := ⟨.comma, ","⟩) rfl (by decide)

theorem open_parenRight : Open (kind .parenRight) [] :=
  Open.kind (l := ⟨.parenRight, ")"⟩) rfl (by decide)

theorem open_identifier : Open (kind .identifier) [] :=
  Open.kind (l := ⟨.identifier, "a"⟩) ⟨'a', [], rfl, rfl, nofun⟩ (by decide)

theorem open_string : Open (kind .string) [] :=
  Open.kind (l := ⟨.string, "''"⟩) ⟨[], rfl, .nil⟩ (by decide)

section Phrases

variable (catalog : Catalog)

/-- The empty string is a primary of either class. -/
theorem open_primary (accepts : PrimaryClass) : Open (phrase catalog (.primary accepts)) [] :=
  open_string.mono fun _ _ ⟨l, hl, hls⟩ => hls ▸ ⟨.string l hl⟩

theorem open_factor : Open (phrase catalog .factor) [] :=
  (open_primary catalog .arithmetic).mono fun _ _ ⟨d⟩ => ⟨.unsigned d⟩

theorem open_steps : Open (Steps catalog) [] := Open.nothing.mono fun _ _ h => h ▸ .refl

theorem open_expression : Open (phrase catalog .expression) [] :=
  ((open_factor catalog).seq (open_steps catalog)).mono fun _ _ ⟨_, hfirst, hsteps⟩ =>
    expression_of_steps hfirst hsteps

theorem open_moreArguments : Open (phrase catalog .moreArguments) [] :=
  Open.nothing.mono fun _ _ h => h ▸ ⟨.noMoreArgument⟩

theorem open_arguments : Open (phrase catalog .arguments) [] :=
  Open.nothing.mono fun _ _ h => h ▸ ⟨.noArgument⟩

theorem open_form : ∀ pieces, Open (phrase catalog (.form pieces)) []
  | [] => open_parenRight.mono fun _ _ ⟨l, hl, hls⟩ => hls ▸ ⟨.formEnd l hl⟩
  | .word :: pieces =>
    (open_identifier.seq (open_form pieces)).mono fun _ _ ⟨_, ⟨l, hl, hls⟩, ⟨d⟩⟩ =>
      hls ▸ ⟨.word l hl d⟩
  | .keyword _ :: pieces =>
    (open_identifier.seq (open_form pieces)).mono fun _ _ ⟨_, ⟨l, hl, hls⟩, ⟨d⟩⟩ =>
      hls ▸ ⟨.keyword l hl d⟩
  | .comma :: pieces =>
    (open_comma.seq (open_form pieces)).mono fun _ _ ⟨_, ⟨l, hl, hls⟩, ⟨d⟩⟩ => hls ▸ ⟨.comma l hl d⟩
  | .expression :: pieces =>
    ((open_expression catalog).seq (open_form pieces)).mono fun _ _ ⟨_, ⟨a⟩, ⟨b⟩⟩ =>
      ⟨.expressionSlot a b⟩
  | .primary accepts :: pieces =>
    ((open_primary catalog accepts).seq (open_form pieces)).mono fun _ _ ⟨_, ⟨a⟩, ⟨b⟩⟩ =>
      ⟨.primarySlot a b⟩

end Phrases

end Stretch

end Dql
