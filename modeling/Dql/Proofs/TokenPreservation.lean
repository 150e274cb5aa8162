import Dql.Proofs.RoundTrip

/-!
# Compilation keeps every token

The SQL of a text, with paths and parameters as they are, has the tokens of the text one by one,
with the same kinds and texts. Only the name of a call is put into its canonical form, and the
keyword of a form into the text that SQL has for it.

* `Role`, `Part` - what becomes of a lexeme;
* `Derivation.parts` - the lexemes of a derivation with their roles;
* `Role.Suits` - names that can be called so, and keywords.

Principal result: `compile_preserves_tokens`.
-/

namespace Dql

/-! ## Roles -/

/-- What becomes of a lexeme in SQL. -/
inductive Role where
  | kept
  /-- the name of a call; SQL has this one in its place -/
  | callee (name : String)
  /-- a keyword of a form; SQL has this text in its place -/
  | keyword (sql : String)

/-- The lexeme that SQL has in place of one with this role. -/
def Role.write : Role → Lexeme → Lexeme
  | .kept, l => l
  | .callee name, l => { l with text := name }
  | .keyword sql, l => { l with text := sql }

/-- The lexemes that can have a role. A name is called by what it stands for: a built-in function,
or else an extension of the catalog. -/
def Role.Suits (catalog : Catalog) : Role → Lexeme → Prop
  | .kept, _ => True
  | .callee name, l => l.kind = .identifier ∧
      ((∃ function, Builtin.ofName? l.text = some function ∧ name = function.name) ∨
        Builtin.ofName? l.text = none ∧
          ∃ entry, catalog.find? l.text = some entry ∧ name = entry.extension.name)
  | .keyword sql, l => l.kind = .identifier ∧ sql = "from"

/-- A lexeme of a text, and its role. -/
structure Part where
  lexeme : Lexeme
  role : Role

/-- What SQL has for a part. -/
def Part.written (part : Part) : Lexeme := part.role.write part.lexeme

theorem Part.kind_written (part : Part) : part.written.kind = part.lexeme.kind := by
  obtain ⟨l, role⟩ := part
  cases role <;> rfl

theorem Part.kinds_written (parts : List Part) :
    (parts.map Part.written).map Lexeme.kind = (parts.map Part.lexeme).map Lexeme.kind := by
  rw [List.map_map, List.map_map]
  exact List.map_congr_left fun part _ => part.kind_written

theorem Part.written_callee {l : Lexeme} (hl : l.kind = .identifier) (name : String) :
    Part.written ⟨l, .callee name⟩ = ⟨.identifier, name⟩ := by
  rw [written, Role.write, hl]

theorem Part.written_keyword {l : Lexeme} (hl : l.kind = .identifier) (sql : String) :
    Part.written ⟨l, .keyword sql⟩ = ⟨.identifier, sql⟩ := by
  rw [written, Role.write, hl]

/-- The lexemes of a derivation with their roles, in the order of the text. -/
def Derivation.parts {catalog : Catalog} {p : Phrase} {ls rest : List Lexeme} :
    Derivation catalog p ls rest → List Part
  | .expression first more => first.parts ++ more.parts
  | .noTerm => []
  | .moreTerms sign _ _ next more => ⟨sign, .kept⟩ :: next.parts ++ more.parts
  | .term first more => first.parts ++ more.parts
  | .noFactor => []
  | .moreFactors sign _ _ next more => ⟨sign, .kept⟩ :: next.parts ++ more.parts
  | .signed mark _ _ operand => ⟨mark, .kept⟩ :: operand.parts
  | .unsigned operand => operand.parts
  | .paren left right _ _ inner => ⟨left, .kept⟩ :: inner.parts ++ [⟨right, .kept⟩]
  | .number l _ => [⟨l, .kept⟩]
  | .name l _ _ => [⟨l, .kept⟩]
  | .string l _ => [⟨l, .kept⟩]
  | .parameter l _ => [⟨l, .kept⟩]
  | .path l _ => [⟨l, .kept⟩]
  | .call l left right function _ _ _ _ args =>
    ⟨l, .callee function.name⟩ :: ⟨left, .kept⟩ :: args.parts ++ [⟨right, .kept⟩]
  | .extension l left entry _ _ _ _ _ pieces =>
    ⟨l, .callee entry.extension.name⟩ :: ⟨left, .kept⟩ :: pieces.parts
  | .noArgument => []
  | .arguments first more => first.parts ++ more.parts
  | .noMoreArgument => []
  | .moreArguments mark _ next more => ⟨mark, .kept⟩ :: next.parts ++ more.parts
  | .formEnd right _ => [⟨right, .kept⟩]
  | .word l _ more => ⟨l, .kept⟩ :: more.parts
  | @Derivation.keyword _ _ _ _ sql l _ more => ⟨l, .keyword sql⟩ :: more.parts
  | .comma l _ more => ⟨l, .kept⟩ :: more.parts
  | .expressionSlot slot more => slot.parts ++ more.parts
  | .primarySlot slot more => slot.parts ++ more.parts

/-! ## Marks -/

namespace Lexeme

variable {l : Lexeme}

theorem mk_text {kind : TokenKind} (hk : l.kind = kind) : (⟨kind, l.text⟩ : Lexeme) = l := by
  rw [← hk]

/-- A lexeme of a kind that has one text only. -/
theorem eq_of_mark {kind : TokenKind} {c : Char} (hl : l.Valid) (hk : l.kind = kind)
    (h : ∀ cs, IsLexeme kind cs → cs = [c]) : l = ⟨kind, String.singleton c⟩ := by
  obtain ⟨k, text⟩ := l
  obtain rfl : k = kind := hk
  have htext : text.toList = (String.singleton c).toList := by
    rw [String.toList_singleton]
    exact h _ hl
  rw [String.toList_inj.1 htext]

theorem eq_parenLeft (hl : l.Valid) (hk : l.kind = .parenLeft) : l = parenLeft :=
  eq_of_mark hl hk fun _ h => h

theorem eq_parenRight (hl : l.Valid) (hk : l.kind = .parenRight) : l = parenRight :=
  eq_of_mark hl hk fun _ h => h

theorem eq_comma (hl : l.Valid) (hk : l.kind = .comma) : l = comma :=
  eq_of_mark hl hk fun _ h => h

theorem eq_operator {op : BinaryOp} (hl : l.Valid) (hk : l.kind.operator? = some op) :
    l = op.lexeme := by
  have hkind : l.kind = op.kind := by
    cases hl : l.kind <;> rw [hl] at hk <;> cases hk <;> rfl
  cases op <;> exact eq_of_mark hl hkind fun _ h => h

theorem eq_sign {sign : Sign} (hl : l.Valid) (hk : l.kind.sign? = some sign) :
    l = sign.lexeme := by
  have hkind : l.kind = sign.kind := by
    cases hl : l.kind <;> rw [hl] at hk <;> cases hk <;> rfl
  cases sign <;> exact eq_of_mark hl hkind fun _ h => h

end Lexeme

/-! ## What the parts are -/

/-- The lexemes of what a phrase stands for. -/
def Phrase.HasLexemes : (p : Phrase) → p.Meaning → List Lexeme → Prop
  | .expression, e, ls | .term, e, ls | .factor, e, ls | .primary _, e, ls => e.lexemes = ls
  | .moreTerms, f, ls | .moreFactors, f, ls =>
    ∀ left : Expr, (f left).lexemes = left.lexemes ++ ls
  | .arguments, es, ls => List.intercalate [.comma] (lexemesOfList es) = ls
  | .moreArguments, es, ls => (es.flatMap fun e => .comma :: e.lexemes) = ls
  | .form pieces, filled, ls =>
    arrangeLexemes pieces filled.1 (lexemesOfList filled.2) ++ [.parenRight] = ls

/-- The keywords of a form. -/
def Phrase.keywords : Phrase → List String
  | .form pieces => pieces.filterMap fun
    | .keyword sql => some sql
    | _ => none
  | _ => []

/-- Only `EXTRACT` has a keyword. -/
theorem eq_from_of_mem_keywords {e : Extension} {form : List Piece} (h : Production e form) :
    ∀ sql ∈ (Phrase.form form).keywords, sql = "from" := by
  cases h with
  | extract => exact fun sql hsql => List.mem_singleton.1 hsql
  | dateFormat | nvl2 | ifNull => exact fun _ hsql => nomatch hsql

namespace Derivation

variable {catalog : Catalog} {p : Phrase} {ls rest : List Lexeme}

/-- The parts are what the derivation took. -/
theorem lexemes_parts (d : Derivation catalog p ls rest) :
    d.parts.map Part.lexeme ++ rest = ls := by
  induction d with
  | expression _ _ ihfirst ihmore | term _ _ ihfirst ihmore | arguments _ _ ihfirst ihmore
  | expressionSlot _ _ ihfirst ihmore | primarySlot _ _ ihfirst ihmore =>
    rw [parts, List.map_append, List.append_assoc, ihmore, ihfirst]
  | moreTerms _ _ _ _ _ ihnext ihmore | moreFactors _ _ _ _ _ ihnext ihmore
  | moreArguments _ _ _ _ ihnext ihmore =>
    rw [parts, List.map_append, List.append_assoc, ihmore, List.map_cons, List.cons_append, ihnext]
  | noTerm | noFactor | noArgument | noMoreArgument | number | name | string | parameter | path
  | formEnd => rfl
  | signed _ _ _ _ ih | extension _ _ _ _ _ _ _ _ _ ih | word _ _ _ ih | keyword _ _ _ ih
  | comma _ _ _ ih => simp only [parts, List.map_cons, List.cons_append, ih]
  | unsigned _ ih => exact ih
  | paren _ _ _ _ _ ih | call _ _ _ _ _ _ _ _ _ ih =>
    simp only [parts, List.map_append, List.map_cons, List.map_nil, List.cons_append,
      List.append_assoc, List.nil_append, ih]

/-- Every part has a lexeme that suits its role. -/
theorem suits_parts (d : Derivation catalog p ls rest) (hp : ∀ sql ∈ p.keywords, sql = "from") :
    ∀ part ∈ d.parts, part.role.Suits catalog part.lexeme := by
  have hnone : ∀ sql ∈ ([] : List String), sql = "from" := fun _ h => nomatch h
  induction d with
  | expression _ _ ihfirst ihmore | term _ _ ihfirst ihmore | arguments _ _ ihfirst ihmore
  | expressionSlot _ _ ihfirst ihmore | primarySlot _ _ ihfirst ihmore =>
    exact List.forall_mem_append.2 ⟨ihfirst hnone, ihmore hp⟩
  | moreTerms _ _ _ _ _ ihnext ihmore | moreFactors _ _ _ _ _ ihnext ihmore
  | moreArguments _ _ _ _ ihnext ihmore =>
    exact List.forall_mem_append.2 ⟨List.forall_mem_cons.2 ⟨trivial, ihnext hnone⟩, ihmore hnone⟩
  | noTerm | noFactor | noArgument | noMoreArgument => exact fun _ h => nomatch h
  | number | name | string | parameter | path | formEnd =>
    exact List.forall_mem_singleton.2 trivial
  | signed _ _ _ _ ih | word _ _ _ ih | comma _ _ _ ih =>
    exact List.forall_mem_cons.2 ⟨trivial, ih hp⟩
  | unsigned _ ih => exact ih hnone
  | paren _ _ _ _ _ ih =>
    exact List.forall_mem_append.2
      ⟨List.forall_mem_cons.2 ⟨trivial, ih hnone⟩, List.forall_mem_singleton.2 trivial⟩
  | call _ _ _ function hl _ _ hb _ ih =>
    exact List.forall_mem_append.2
      ⟨List.forall_mem_cons.2 ⟨⟨hl, .inl ⟨function, Builtin.ofName?_eq_some_iff.2 hb, rfl⟩⟩,
        List.forall_mem_cons.2 ⟨trivial, ih hnone⟩⟩, List.forall_mem_singleton.2 trivial⟩
  | extension _ _ entry hl _ hb hf production _ ih =>
    exact List.forall_mem_cons.2 ⟨⟨hl, .inr ⟨Builtin.ofName?_eq_none_iff.2 hb, entry, hf, rfl⟩⟩,
      List.forall_mem_cons.2 ⟨trivial, ih (eq_from_of_mem_keywords production)⟩⟩
  | keyword _ hl _ ih =>
    obtain ⟨hsql, hp⟩ := List.forall_mem_cons.1 hp
    exact List.forall_mem_cons.2 ⟨⟨hl, hsql⟩, ih hp⟩

/-- SQL of what a phrase stands for has what is written for each part. -/
theorem written_parts (d : Derivation catalog p ls rest) (h : ∀ l ∈ ls, l.Valid) :
    p.HasLexemes d.tree (d.parts.map Part.written) := by
  induction d with
  | expression first more ihfirst ihmore | term first more ihfirst ihmore =>
    rw [parts, List.map_append]
    exact (ihmore (first.valid_rest h) _).trans (by rw [ihfirst h])
  | noTerm | noFactor => exact fun left => (List.append_nil _).symm
  | moreTerms sign op isOp next more ihnext ihmore
  | moreFactors sign op isOp next more ihnext ihmore =>
    intro left
    obtain ⟨hsign, hls⟩ := List.forall_mem_cons.1 h
    have hnext : next.tree.lexemes = next.parts.map Part.written := ihnext hls
    obtain rfl := Lexeme.eq_operator hsign isOp.operator?_eq
    refine (ihmore (next.valid_rest hls) _).trans ?_
    rw [Expr.lexemes, hnext, parts, List.map_append, List.map_cons, List.append_assoc]
    rfl
  | signed mark sign isSign operand ih =>
    obtain ⟨hmark, hls⟩ := List.forall_mem_cons.1 h
    obtain rfl := Lexeme.eq_sign hmark (isSign_iff.1 isSign)
    exact congrArg (List.cons _) (ih hls)
  | unsigned operand ih => exact ih h
  | paren left right hl hr inner ih =>
    obtain ⟨hleft, hls⟩ := List.forall_mem_cons.1 h
    obtain rfl := Lexeme.eq_parenLeft hleft hl
    obtain rfl := Lexeme.eq_parenRight (inner.valid_rest hls _ List.mem_cons_self) hr
    have hinner : inner.tree.lexemes = inner.parts.map Part.written := ih hls
    rw [parts, List.map_append, List.map_cons, ← hinner]
    rfl
  | number l hl =>
    have hvalid : IsLexeme l.kind l.text.toList := h l List.mem_cons_self
    rcases hl with hk | hk
    · exact congrArg ([·]) ((numberLexeme_of_integer (hk ▸ hvalid)).trans (l.mk_text hk))
    · exact congrArg ([·]) ((numberLexeme_of_float (hk ▸ hvalid)).trans (l.mk_text hk))
  | name l hl => exact congrArg ([·]) (l.mk_text hl)
  | parameter l hl => exact congrArg ([·]) (l.mk_text hl)
  | string l hl =>
    obtain ⟨htext, -⟩ := l.text_of_string (h l List.mem_cons_self) hl
    refine congrArg ([·]) (Eq.trans ?_ (l.mk_text hl))
    rw [← htext]
  | path l hl =>
    obtain ⟨field, hfield, htext, -⟩ := exists_of_path (h l List.mem_cons_self) hl
    have hlexemes : (Expr.path l.entity l.field?).lexemes = [l] := by
      rw [hfield, Expr.lexemes, ← htext, l.mk_text hl]
    exact hlexemes
  | call l left right function hn hl hr _ args ih =>
    obtain ⟨-, htail⟩ := List.forall_mem_cons.1 h
    obtain ⟨hleft, hls⟩ := List.forall_mem_cons.1 htail
    obtain rfl := Lexeme.eq_parenLeft hleft hl
    obtain rfl := Lexeme.eq_parenRight (args.valid_rest hls _ List.mem_cons_self) hr
    have hargs :
        List.intercalate [.comma] (lexemesOfList args.tree) = args.parts.map Part.written :=
      ih hls
    rw [parts, List.map_append, List.map_cons, List.map_cons, Part.written_callee hn, ← hargs]
    rfl
  | extension l left entry hn hl _ _ production pieces ih =>
    obtain rfl := production_iff.1 production
    obtain ⟨-, htail⟩ := List.forall_mem_cons.1 h
    obtain ⟨hleft, hls⟩ := List.forall_mem_cons.1 htail
    obtain rfl := Lexeme.eq_parenLeft hleft hl
    have hpieces : _ ++ _ = pieces.parts.map Part.written := ih hls
    rw [parts, List.map_cons, List.map_cons, Part.written_callee hn, ← hpieces]
    rfl
  | noArgument | noMoreArgument => rfl
  | arguments first more ihfirst ihmore =>
    have hfirst : first.tree.lexemes = first.parts.map Part.written := ihfirst h
    have hmore : more.tree.flatMap _ = more.parts.map Part.written := ihmore (first.valid_rest h)
    rw [parts, List.map_append, ← hfirst, ← hmore]
    exact intercalate_lexemesOfList _ _
  | moreArguments mark hk next more ihnext ihmore =>
    obtain ⟨hmark, hls⟩ := List.forall_mem_cons.1 h
    obtain rfl := Lexeme.eq_comma hmark hk
    have hnext : next.tree.lexemes = next.parts.map Part.written := ihnext hls
    have hmore : more.tree.flatMap _ = more.parts.map Part.written := ihmore (next.valid_rest hls)
    rw [parts, List.map_append, List.map_cons, ← hnext, ← hmore]
    rfl
  | formEnd right hr =>
    obtain rfl := Lexeme.eq_parenRight (h right List.mem_cons_self) hr
    rfl
  | word l hl more ih =>
    obtain ⟨-, hls⟩ := List.forall_mem_cons.1 h
    exact (congrArg (List.cons _) (ih hls)).trans (congrArg (· :: _) (l.mk_text hl))
  | keyword l hl more ih =>
    obtain ⟨-, hls⟩ := List.forall_mem_cons.1 h
    rw [parts, List.map_cons, Part.written_keyword hl]
    exact congrArg (List.cons _) (ih hls)
  | comma l hl more ih =>
    obtain ⟨hcomma, hls⟩ := List.forall_mem_cons.1 h
    obtain rfl := Lexeme.eq_comma hcomma hl
    exact congrArg (List.cons _) (ih hls)
  | expressionSlot slot more ihslot ihmore | primarySlot slot more ihslot ihmore =>
    have hslot : slot.tree.lexemes = slot.parts.map Part.written := ihslot h
    have hmore : _ ++ _ = more.parts.map Part.written := ihmore (slot.valid_rest h)
    rw [parts, List.map_append, ← hslot, ← hmore]
    exact List.append_assoc _ _ _

/-- The parts of a whole text are all that it has. -/
theorem lexemes_parts_of_whole (d : Derivation catalog p ls []) : d.parts.map Part.lexeme = ls := by
  simpa using d.lexemes_parts

end Derivation

/-- An expression has lexemes of the same kinds as the text that it is parsed from. -/
theorem kinds_of_parse {catalog : Catalog} {text : String} {e : Expr}
    (h : (parse catalog text).1 = .ok e) :
    e.lexemes.map Lexeme.kind = (TokenList.ofText text).lexemes.map Lexeme.kind := by
  obtain ⟨-, d, rfl, -⟩ := parse_eq_ok_iff.1 h
  have hwritten : d.tree.lexemes = d.parts.map Part.written :=
    d.written_parts fun _ => valid_of_mem_ofText
  rw [hwritten, Part.kinds_written, d.lexemes_parts_of_whole]

/-- **Compilation keeps every token.** The SQL of a text, with paths and parameters as they are, is
read to its end. Its tokens are those of the text one by one, with the same kinds and, but for the
names of calls and the keyword of `EXTRACT`, the same texts. -/
theorem compile_preserves_tokens {catalog : Catalog} {text sql : String}
    (h : (compile catalog .verbatim text).1 = .ok sql) :
    ReadsToEnd sql ∧
      (TokenList.ofText sql).lexemes.map Lexeme.kind =
        (TokenList.ofText text).lexemes.map Lexeme.kind ∧
      ∃ d : Derivation catalog .expression (TokenList.ofText text).lexemes [],
        (parse catalog text).1 = .ok d.tree ∧
        (TokenList.ofText text).lexemes = d.parts.map Part.lexeme ∧
        (TokenList.ofText sql).lexemes = d.parts.map Part.written ∧
        ∀ part ∈ d.parts, part.role.Suits catalog part.lexeme := by
  obtain ⟨e, he, rfl⟩ := compile_eq_ok_iff.1 h
  have hkinds := kinds_of_parse he
  obtain ⟨-, d, rfl, -⟩ := parse_eq_ok_iff.1 he
  have hvalid : ∀ l ∈ (TokenList.ofText text).lexemes, l.Valid := fun _ => valid_of_mem_ofText
  obtain ⟨hsql, hend⟩ := (d.normal_tree hvalid).lexemes_toSql
  have hwritten : d.tree.lexemes = d.parts.map Part.written := d.written_parts hvalid
  exact ⟨hend, by rw [hsql, hkinds], d, he, d.lexemes_parts_of_whole.symm, by rw [hsql, hwritten],
    d.suits_parts fun _ h => nomatch h⟩

/-- In a call of `EXTRACT` in lower case and with another keyword, the name and the keyword change
and nothing else. -/
theorem compile_preserves_tokens_extract :
    (compile (Catalog.empty.ship .extract) .verbatim "extract(year OF u.a)").1 =
        .ok "EXTRACT(year from u.a)" ∧
      ReadsToEnd "EXTRACT(year from u.a)" := by
  have hname : foldCase Shipped.extract.name = foldCase "extract" := by
    rw [← String.toList_inj, toList_foldCase, toList_foldCase]
    decide +kernel
  have hfind : (Catalog.empty.ship .extract).find? "extract" =
      some ⟨.shipped .extract, .numeric⟩ := by
    rw [Catalog.ship, Catalog.find?_put, if_pos hname]
    rfl
  have hls : (TokenList.ofText "extract(year OF u.a)").lexemes =
      [⟨.identifier, "extract"⟩, .parenLeft, ⟨.identifier, "year"⟩, ⟨.identifier, "OF"⟩,
        ⟨.path, "u.a"⟩, .parenRight] := by
    decide +kernel
  have hparse : (parse (Catalog.empty.ship .extract) "extract(year OF u.a)").1 =
      .ok (.extension (.shipped .extract) ["year"] [.path "u" (some "a")]) := by
    refine parse_eq_ok_iff.2 ⟨⟨20, by decide +kernel⟩, ?_⟩
    rw [hls]
    have hbuiltin : ∀ function : Builtin, function.name ≠ foldCase "extract" :=
      Builtin.ofName?_eq_none_iff.1 (by decide +kernel)
    exact ⟨.expression (.term (.unsigned (.extension _ _ _ rfl rfl hbuiltin hfind
      .extract (.word _ rfl (.keyword _ rfl (.primarySlot (.path _ rfl) (.formEnd _ rfl))))))
      .noFactor) .noTerm, rfl, Nat.le_of_ble_eq_true rfl⟩
  have h : (compile (Catalog.empty.ship .extract) .verbatim "extract(year OF u.a)").1 =
      .ok "EXTRACT(year from u.a)" :=
    compile_eq_ok_iff.2 ⟨_, hparse, by decide +kernel⟩
  exact ⟨h, (compile_preserves_tokens h).1⟩

end Dql
