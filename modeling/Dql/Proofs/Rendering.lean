import Dql.Proofs.Lexing
import Dql.Proofs.NormalForm
import Dql.Proofs.Segments

/-!
# SQL reads as the lexemes of its expression

The SQL of an expression in normal form, with paths and parameters as they are, is cut at the seams
where it was put together: wherever one lexeme could run into the next, a blank or a mark stands
between them.

* `Expr.lexemes` - the lexemes of an expression;
* `spaced` - forms in which words and slots are kept apart;
* `Opens` - texts before which a minus may stand;
* `Composes` - what carries over from pieces of SQL to the whole.

Principal results: `Composes.normal` and `Normal.reads`.
-/

namespace Dql

/-! ## Lexemes of an expression -/

/-- An opening parenthesis. -/
def Lexeme.parenLeft : Lexeme := ⟨.parenLeft, "("⟩

/-- A closing parenthesis. -/
def Lexeme.parenRight : Lexeme := ⟨.parenRight, ")"⟩

/-- A comma. -/
def Lexeme.comma : Lexeme := ⟨.comma, ","⟩

/-- The kind of an operator's token. -/
def BinaryOp.kind : BinaryOp → TokenKind
  | .add => .plus
  | .sub => .minus
  | .mul => .asterisk
  | .div => .slash

/-- An operator as a lexeme. -/
def BinaryOp.lexeme (op : BinaryOp) : Lexeme := ⟨op.kind, op.symbol⟩

/-- The kind of a sign's token. -/
def Sign.kind : Sign → TokenKind
  | .plus => .plus
  | .minus => .minus

/-- A sign as a lexeme. -/
def Sign.lexeme (sign : Sign) : Lexeme := ⟨sign.kind, sign.symbol⟩

/-- A number as a lexeme: with a dot it is a float. -/
def numberLexeme (text : String) : Lexeme :=
  ⟨if '.' ∈ text.toList then .float else .integer, text⟩

/-- The lexemes between the parentheses of an extension's call. -/
def arrangeLexemes : List Piece → List String → List (List Lexeme) → List Lexeme
  | .word :: form, word :: words, slots => ⟨.identifier, word⟩ :: arrangeLexemes form words slots
  | .keyword sql :: form, words, slots => ⟨.identifier, sql⟩ :: arrangeLexemes form words slots
  | .comma :: form, words, slots => .comma :: arrangeLexemes form words slots
  | .expression :: form, words, slot :: slots => slot ++ arrangeLexemes form words slots
  | .primary _ :: form, words, slot :: slots => slot ++ arrangeLexemes form words slots
  | _, _, _ => []

mutual

/-- The lexemes of an expression, in the order of the text. -/
def Expr.lexemes : Expr → List Lexeme
  | .number text => [numberLexeme text]
  | .string contents => [⟨.string, "'" ++ contents ++ "'"⟩]
  | .path entity none => [⟨.identifier, entity⟩]
  | .path entity (some field) => [⟨.path, verbatimPath entity (some field)⟩]
  | .parameter text => [⟨.parameter, text⟩]
  | .call function args =>
    ⟨.identifier, function.name⟩ :: .parenLeft ::
      List.intercalate [.comma] (lexemesOfList args) ++ [.parenRight]
  | .extension function words slots =>
    ⟨.identifier, function.name⟩ :: .parenLeft ::
      arrangeLexemes function.form words (lexemesOfList slots) ++ [.parenRight]
  | .binary left op right => left.lexemes ++ op.lexeme :: right.lexemes
  | .signed sign operand => sign.lexeme :: operand.lexemes
  | .paren inner => .parenLeft :: inner.lexemes ++ [.parenRight]

/-- The lexemes of each expression of a list. -/
def lexemesOfList : List Expr → List (List Lexeme)
  | [] => []
  | e :: es => e.lexemes :: lexemesOfList es

end

theorem lexemesOfList_eq_map (es : List Expr) : lexemesOfList es = es.map Expr.lexemes := by
  induction es with
  | nil => rfl
  | cons e es ih => rw [lexemesOfList, ih, List.map_cons]

/-- Lexemes joined by commas are the first ones and, each after a comma, the others. -/
theorem intercalate_comma (ls : List Lexeme) (lss : List (List Lexeme)) :
    List.intercalate [.comma] (ls :: lss) = ls ++ lss.flatMap fun ms => .comma :: ms := by
  induction lss generalizing ls with
  | nil => simp
  | cons ms lss ih =>
    rw [List.intercalate_cons_cons, ih]
    simp

/-- Arguments are the first one and, each after a comma, the others. -/
theorem intercalate_lexemesOfList (a : Expr) (args : List Expr) :
    List.intercalate [.comma] (lexemesOfList (a :: args)) =
      a.lexemes ++ args.flatMap fun b => .comma :: b.lexemes := by
  rw [lexemesOfList, intercalate_comma, lexemesOfList_eq_map, List.flatMap_map]

theorem numberLexeme_of_integer {text : String} (h : IsLexeme .integer text.toList) :
    numberLexeme text = ⟨.integer, text⟩ := by
  have hdot : '.' ∉ text.toList :=
    dot_not_mem_of_isNamePart fun c hc => isNamePart_of_isDigit (h.2 c hc)
  rw [numberLexeme, if_neg hdot]

theorem numberLexeme_of_float {text : String} (h : IsLexeme .float text.toList) :
    numberLexeme text = ⟨.float, text⟩ := by
  obtain ⟨whole, fraction, htext, -⟩ := h
  have hdot : '.' ∈ text.toList := by simp [htext]
  rw [numberLexeme, if_pos hdot]

/-! ## Names in SQL -/

theorem isLexeme_of_isName {text : String} (h : isName text = true) :
    IsLexeme .identifier text.toList :=
  isName_iff.1 h

theorem Builtin.isName_name (b : Builtin) : isName b.name = true := by
  have h : ∀ b ∈ Builtin.all, isName b.name = true := by decide +kernel
  exact h b b.mem_all

theorem Extension.isName_name (e : Extension) : isName e.name = true := by
  rcases e with (_ | _ | _) | _ <;> decide +kernel

/-! ## Pieces of SQL -/

theorem delimited_blank (rest : List Char) : Delimited (' ' :: rest) :=
  delimited_of_isWhitespace rfl rest

theorem delimited_comma (rest : List Char) : Delimited (',' :: rest) :=
  delimited_cons rfl (by decide) (by decide)

theorem delimited_parenLeft (rest : List Char) : Delimited ('(' :: rest) :=
  delimited_cons rfl (by decide) (by decide)

theorem delimited_parenRight (rest : List Char) : Delimited (')' :: rest) :=
  delimited_cons rfl (by decide) (by decide)

theorem delimited_operator (op : BinaryOp) (rest : List Char) :
    Delimited (op.symbol.toList ++ rest) := by
  cases op <;> exact delimited_cons rfl (by decide) (by decide)

/-- What holds of every mark holds of operators. -/
theorem BinaryOp.of_punctuation {R : List Char → List Lexeme → (List Char → Prop) → Prop}
    {p : List Char → Prop} (h : ∀ {c kind}, punctuation? c = some kind →
      R [c] [⟨kind, String.singleton c⟩] p) (op : BinaryOp) : R op.symbol.toList [op.lexeme] p := by
  cases op with
  | add => exact h (c := '+') rfl
  | sub => exact h (c := '-') rfl
  | mul => exact h (c := '*') rfl
  | div => exact h (c := '/') rfl

/-- The text starts with something other than a minus, so that a minus may stand before it. -/
def Opens (cs : List Char) : Prop := ∃ c ds, cs = c :: ds ∧ c ≠ '-'

theorem Opens.append {cs : List Char} (h : Opens cs) (ds : List Char) : Opens (cs ++ ds) := by
  obtain ⟨c, es, rfl, hc⟩ := h
  exact ⟨c, es ++ ds, rfl, hc⟩

theorem opens_of_name {cs : List Char} (h : NameText cs) : Opens cs := by
  obtain ⟨c, ds, rfl, hc, -⟩ := h
  refine ⟨c, ds, rfl, ?_⟩
  rintro rfl
  exact absurd hc (by decide)

theorem opens_of_digits {cs : List Char} (h : DigitText cs) : Opens cs := by
  obtain ⟨hne, hall⟩ := h
  obtain ⟨c, ds, rfl⟩ := List.exists_cons_of_ne_nil hne
  refine ⟨c, ds, rfl, ?_⟩
  rintro rfl
  exact absurd (hall _ List.mem_cons_self) (by decide)

/-- Only a minus starts with a minus. -/
theorem opens_of_isLexeme {kind : TokenKind} {cs : List Char} (h : IsLexeme kind cs)
    (hkind : kind ≠ .minus) : Opens cs := by
  cases kind with
  | minus => exact absurd rfl hkind
  | parenLeft | parenRight | comma | plus | asterisk | slash =>
    cases h
    exact ⟨_, _, rfl, by decide⟩
  | integer => exact opens_of_digits h
  | float =>
    obtain ⟨whole, fraction, rfl, hwhole, -⟩ := h
    cases whole with
    | nil => exact ⟨_, _, rfl, by decide⟩
    | cons c ds => exact (opens_of_digits ⟨List.cons_ne_nil c ds, hwhole⟩).append _
  | string =>
    obtain ⟨contents, rfl, -⟩ := h
    exact ⟨_, _, rfl, by decide⟩
  | identifier => exact opens_of_name h
  | path =>
    obtain ⟨name, more, rfl, -, hname, -⟩ := h
    exact (opens_of_name hname).append _
  | parameter =>
    rcases h with ⟨name, rfl, -⟩ | ⟨digits, rfl, -⟩ <;> exact ⟨_, _, rfl, by decide⟩

/-- The kinds of the lexemes that SQL has from the text as they are. Parameters are not among them,
since styles differ on these. -/
def TokenKind.isKept : TokenKind → Bool
  | .integer | .float | .string | .identifier | .path => true
  | _ => false

/-- A property of pieces of text, of the lexemes that they are for and of the texts that may follow,
that carries over to texts put together from pieces. -/
structure Composes (R : List Char → List Lexeme → (List Char → Prop) → Prop) : Prop where
  mono {cs : List Char} {ls : List Lexeme} {p q : List Char → Prop} (h : R cs ls p)
    (hpq : ∀ rest, q rest → p rest) : R cs ls q
  append {cs ds : List Char} {ls ms : List Lexeme} {p q : List Char → Prop} (h₁ : R cs ls p)
    (h₂ : R ds ms q) (hseam : ∀ rest, q rest → p (ds ++ rest)) : R (cs ++ ds) (ls ++ ms) q
  nil : R [] [] Anything
  blank : R [' '] [] Anything
  kept {kind : TokenKind} {text : String} (h : IsLexeme kind text.toList)
    (hkind : kind.isKept = true) : R text.toList [⟨kind, text⟩] Delimited
  parenLeft : R ['('] [.parenLeft] Anything
  parenRight : R [')'] [.parenRight] Anything
  comma : R [','] [.comma] Anything
  operator (op : BinaryOp) : R (' ' :: op.symbol.toList ++ [' ']) [op.lexeme] Anything
  sign (sign : Sign) {cs : List Char} {ls : List Lexeme} {p : List Char → Prop} (h : R cs ls p)
    (hopens : Opens cs) : R (sign.symbol.toList ++ cs) (sign.lexeme :: ls) p

/-- Whether a piece starts with a mark or a blank. -/
def Piece.parts : Piece → Bool
  | .comma | .keyword _ => true
  | .word | .expression | .primary _ => false

/-- Words and slots are kept apart by what comes between them, and keywords are names. -/
def spaced : List Piece → Bool
  | [] => true
  | .comma :: form => spaced form
  | .keyword sql :: form => isName sql && spaced form
  | .word :: form | .expression :: form | .primary _ :: form =>
    form.head?.all Piece.parts && spaced form

theorem spaced_form (e : Extension) : spaced e.form = true := by
  rcases e with (_ | _ | _) | _ <;> decide +kernel

/-- What follows a word or a slot of a form. -/
theorem delimited_arrange {style : Style} {form : List Piece} {words : List String}
    {slots : List Expr} (h : Fills form words slots) (hparts : form.head?.all Piece.parts = true)
    {rest : List Char} (hr : Delimited rest) :
    Delimited (style.chars (arrangeSegments form words (segmentsOfList slots)) ++ rest) := by
  cases h with
  | nil => exact hr
  | comma more =>
    rw [arrangeSegments, Style.chars_comma]
    exact delimited_comma _
  | keyword more => simpa [arrangeSegments] using delimited_blank _
  | word | expression | primary => cases hparts

namespace Composes

variable {R : List Char → List Lexeme → (List Char → Prop) → Prop} {cs ds : List Char}
  {ls ms : List Lexeme} {p : List Char → Prop} {style : Style}

/-- A piece after one that needs nothing to end it. -/
theorem append_any (hR : Composes R) (h : R cs ls Anything) (h' : R ds ms p) :
    R (cs ++ ds) (ls ++ ms) p :=
  hR.append h h' fun _ _ => trivial

/-- Where any mark may stand before and after any text, so may operators and signs. -/
theorem of_punctuation
    (mono : ∀ {cs ls} {p q : List Char → Prop}, R cs ls p → (∀ rest, q rest → p rest) → R cs ls q)
    (append : ∀ {cs ds ls ms} {p q : List Char → Prop}, R cs ls p → R ds ms q →
      (∀ rest, q rest → p (ds ++ rest)) → R (cs ++ ds) (ls ++ ms) q)
    (nil : R [] [] Anything) (blank : R [' '] [] Anything)
    (kept : ∀ {kind} {text : String}, IsLexeme kind text.toList → kind.isKept = true →
      R text.toList [⟨kind, text⟩] Delimited)
    (punctuation : ∀ {c kind}, punctuation? c = some kind →
      R [c] [⟨kind, String.singleton c⟩] Anything) : Composes R where
  mono := mono
  append := append
  nil := nil
  blank := blank
  kept := kept
  parenLeft := punctuation rfl
  parenRight := punctuation rfl
  comma := punctuation rfl
  operator op := by
    have hmark := op.of_punctuation punctuation
    have h := append (append blank hmark fun _ _ => trivial) blank fun _ _ => trivial
    simpa using h
  sign sign {cs ls p} h _ := by
    have hmark : R sign.symbol.toList [sign.lexeme] Anything := by
      cases sign with
      | plus => exact punctuation (c := '+') rfl
      | minus => exact punctuation (c := '-') rfl
    exact append hmark h fun _ _ => trivial

/-- A closing parenthesis after a piece. -/
theorem append_parenRight (hR : Composes R) (h : R cs ls Delimited) :
    R (cs ++ [')']) (ls ++ [.parenRight]) Anything :=
  hR.append h hR.parenRight fun _ _ => delimited_parenRight _

/-- A comma and a blank. -/
theorem comma_blank (hR : Composes R) : R [',', ' '] [.comma] Anything :=
  hR.append_any hR.comma hR.blank

theorem name (hR : Composes R) {text : String} (h : isName text = true) :
    R text.toList [⟨.identifier, text⟩] Delimited :=
  hR.kept (isLexeme_of_isName h) rfl

/-- A name between two blanks. -/
theorem name_between_blanks (hR : Composes R) {text : String} (h : isName text = true) :
    R (' ' :: text.toList ++ [' ']) [⟨.identifier, text⟩] Anything := by
  have h := hR.append (hR.append_any hR.blank (hR.name h)) hR.blank fun _ _ => delimited_blank _
  simpa using h

/-- The name of a function and the opening parenthesis. -/
theorem callHead (hR : Composes R) {name : String} (h : isName name = true) :
    R (name ++ "(").toList [⟨.identifier, name⟩, .parenLeft] Anything := by
  rw [String.toList_append]
  exact hR.append (hR.name h) hR.parenLeft fun _ _ => delimited_parenLeft _

/-- Pieces with a comma between each two, and perhaps blanks after it. -/
theorem intercalate (hR : Composes R) {blanks : List Char}
    (hcomma : R (',' :: blanks) [.comma] Anything) {pieces : List (List Char × List Lexeme)}
    (h : ∀ a ∈ pieces, R a.1 a.2 Delimited) :
    R (List.intercalate (',' :: blanks) (pieces.map Prod.fst))
      (List.intercalate [.comma] (pieces.map Prod.snd)) Delimited := by
  match pieces with
  | [] => exact hR.mono hR.nil fun _ _ => trivial
  | [a] => simpa using h a List.mem_cons_self
  | a :: b :: pieces =>
    have hmore := hR.intercalate hcomma fun x hx => h x (List.mem_cons_of_mem a hx)
    have ha := h a List.mem_cons_self
    simp only [List.map_cons, List.intercalate_cons_cons, List.append_assoc] at hmore ⊢
    exact hR.append ha (hR.append_any hcomma hmore) fun _ _ => delimited_comma _

/-- Arguments, a comma and a blank between them. -/
theorem args (hR : Composes R) {args : List Expr}
    (h : ∀ a ∈ args, R (style.chars a.segments) a.lexemes Delimited) :
    R (style.chars (List.intercalate [.fixed ", "] (segmentsOfList args)))
      (List.intercalate [.comma] (lexemesOfList args)) Delimited := by
  have hpieces : ∀ piece ∈ args.map fun a => (style.chars a.segments, a.lexemes),
      R piece.1 piece.2 Delimited := List.forall_mem_map.2 h
  rw [Style.chars_intercalate, segmentsOfList_eq_map, lexemesOfList_eq_map]
  simpa [Function.comp_def] using hR.intercalate hR.comma_blank hpieces

/-- What stands between the parentheses of an extension's call. -/
theorem arrange (hR : Composes R) {form : List Piece} {words : List String} {slots : List Expr}
    (h : Fills form words slots) (hform : spaced form = true)
    (hslots : ∀ e ∈ slots, R (style.chars e.segments) e.lexemes Delimited) :
    R (style.chars (arrangeSegments form words (segmentsOfList slots)))
      (arrangeLexemes form words (lexemesOfList slots)) Delimited := by
  induction h with
  | nil => exact hR.mono hR.nil fun _ _ => trivial
  | word isName more ih =>
    obtain ⟨hparts, hform⟩ := Bool.and_eq_true_iff.1 hform
    exact hR.append (hR.kept isName rfl) (ih hform hslots) fun _ hr =>
      delimited_arrange more hparts hr
  | keyword more ih =>
    obtain ⟨hsql, hform⟩ := Bool.and_eq_true_iff.1 hform
    have hword := hR.name_between_blanks hsql
    simpa [arrangeSegments, arrangeLexemes] using hR.append_any hword (ih hform hslots)
  | comma more ih =>
    rw [arrangeSegments, Style.chars_comma]
    exact hR.append_any hR.comma_blank (ih hform hslots)
  | expression more ih | primary _ more ih =>
    obtain ⟨hparts, hform⟩ := Bool.and_eq_true_iff.1 hform
    obtain ⟨hslot, hslots⟩ := List.forall_mem_cons.1 hslots
    simp only [segmentsOfList, lexemesOfList, arrangeSegments, arrangeLexemes, Style.chars_append]
    exact hR.append hslot (ih hform hslots) fun _ hr => delimited_arrange more hparts hr

/-- Names and paths as they are. -/
theorem verbatimPath (hR : Composes R) {entity : String} {field : Option String}
    (h : Normal (.path entity field)) :
    R (Dql.verbatimPath entity field).toList (Expr.path entity field).lexemes Delimited := by
  cases h with
  | name h => simpa [Expr.lexemes, Dql.verbatimPath] using hR.kept h rfl
  | path _ h => simpa [Expr.lexemes] using hR.kept h rfl

end Composes

/-- Paths and names are written so that a minus may stand before them. -/
def Style.Opening (style : Style) : Prop :=
  ∀ entity field, Normal (.path entity field) → Opens (style.path entity field).toList

theorem opening_of_verbatimPath {style : Style} (h : style.path = verbatimPath) :
    style.Opening := by
  intro entity field hpath
  rw [h]
  cases hpath with
  | name h => exact opens_of_isLexeme h nofun
  | path _ h => exact opens_of_isLexeme h nofun

/-- A minus may stand before SQL of a primary. -/
theorem Normal.opens {style : Style} (hpath : style.Opening) {e : Expr} (h : Normal e)
    (hr : e.rank = 0) : Opens (style.chars e.segments) := by
  have hcallee : ∀ {name : String}, isName name = true → Opens (name ++ "(").toList := by
    intro name h
    rw [String.toList_append]
    exact (opens_of_isLexeme (isLexeme_of_isName h) nofun).append _
  cases h with
  | @number text h =>
    have htext : Opens text.toList := h.elim (opens_of_isLexeme · nofun) (opens_of_isLexeme · nofun)
    simpa [Expr.segments] using htext
  | string =>
    rw [Style.chars_string]
    exact ⟨_, _, rfl, by decide⟩
  | name h => simpa [Expr.segments] using hpath _ _ (.name h)
  | path h hfield => simpa [Expr.segments] using hpath _ _ (.path h hfield)
  | @parameter text h =>
    have htext : Opens text.toList := opens_of_isLexeme h nofun
    cases hparameters : style.parameters with
    | positional => simp [Expr.segments, Style.write, Style.parameter, hparameters, Opens]
    | verbatim => simpa [Expr.segments, Style.write, Style.parameter, hparameters] using htext
  | @call function =>
    rw [Style.chars_call]
    exact (hcallee function.isName_name).append _
  | @extension function =>
    rw [Style.chars_extension]
    exact (hcallee function.isName_name).append _
  | @binary _ _ op =>
    have := op.rank_le
    rw [Expr.rank] at hr
    omega
  | signed => exact absurd hr Nat.one_ne_zero
  | paren =>
    rw [Style.chars_paren]
    exact ⟨_, _, rfl, by decide⟩

/-- **The SQL of an expression in normal form is put together from pieces**: what carries over from
pieces to the whole holds of it, if it holds of paths and parameters in the style. -/
theorem Composes.normal {R : List Char → List Lexeme → (List Char → Prop) → Prop} (hR : Composes R)
    {style : Style} (hopening : style.Opening)
    (hpath : ∀ entity field, Normal (.path entity field) →
      R (style.path entity field).toList (Expr.path entity field).lexemes Delimited)
    (hparameter : ∀ text : String, IsLexeme .parameter text.toList →
      R (style.write (.parameter text)).toList [⟨.parameter, text⟩] Delimited)
    {e : Expr} (h : Normal e) : R (style.chars e.segments) e.lexemes Delimited := by
  induction h with
  | @number text h =>
    rcases h with h | h
    · simpa [Expr.segments, Expr.lexemes, numberLexeme_of_integer h] using hR.kept h rfl
    · simpa [Expr.segments, Expr.lexemes, numberLexeme_of_float h] using hR.kept h rfl
  | @string contents h =>
    have hlexeme : IsLexeme .string ("'" ++ contents ++ "'").toList := by
      refine ⟨contents.toList, ?_, h⟩
      simp
    simpa [Expr.segments, Expr.lexemes] using hR.kept hlexeme rfl
  | name h => simpa [Expr.segments] using hpath _ _ (.name h)
  | path h hfield => simpa [Expr.segments] using hpath _ _ (.path h hfield)
  | @parameter text h => simpa [Expr.segments, Expr.lexemes] using hparameter text h
  | @call function args _ ih =>
    have hcall := hR.append_any (hR.callHead function.isName_name)
      (hR.append_parenRight (hR.args ih))
    rw [Style.chars_call]
    exact hR.mono hcall fun _ _ => trivial
  | @extension function words slots filled _ ih =>
    have hpieces := hR.arrange filled (spaced_form function) ih
    have hcall := hR.append_any (hR.callHead function.isName_name) (hR.append_parenRight hpieces)
    rw [Style.chars_extension]
    exact hR.mono hcall fun _ _ => trivial
  | @binary left right op _ _ _ _ ihleft ihright =>
    rw [Style.chars_binary]
    exact hR.append ihleft (hR.append_any (hR.operator op) ihright) fun _ _ => delimited_blank _
  | @signed sign operand hoperand hr ih =>
    rw [Style.chars_signed]
    exact hR.sign sign ih (hoperand.opens hopening hr)
  | @paren inner _ ih =>
    have hparens := hR.append_any hR.parenLeft (hR.append_parenRight ih)
    rw [Style.chars_paren]
    exact hR.mono hparens fun _ _ => trivial

theorem Reads.composes : Composes Reads :=
  .of_punctuation .mono .append .nil .blank (fun h _ => .lexeme h) .punctuation

/-- **The SQL of an expression in normal form reads as the lexemes of the expression.** -/
theorem Normal.reads {e : Expr} (h : Normal e) :
    Reads (Style.verbatim.chars e.segments) e.lexemes Delimited := by
  have hparameter : ∀ text : String, IsLexeme .parameter text.toList →
      Reads (Style.verbatim.write (.parameter text)).toList [⟨.parameter, text⟩] Delimited :=
    fun _ => Reads.lexeme
  exact Reads.composes.normal (opening_of_verbatimPath rfl)
    (fun _ _ h => Reads.composes.verbatimPath h) hparameter h

end Dql
