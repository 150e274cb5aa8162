import Dql.Proofs.Chains
import Dql.Proofs.Concatenation
import Dql.Proofs.Registration

/-!
# Compiling texts that are put together

Texts that compile may be joined by operators, put in parentheses and made arguments of a call. The
whole then compiles, too, and its SQL is put together in the same way from the SQL of its parts.
Operators and parentheses end every lexeme before them, so the parts keep their lexemes; and only
calls and parentheses make a text nest deeper.

* `Presents` - texts that present a phrase with some meaning;
* `CompilesWithin` - texts that compile, and nest no deeper than a bound.

Principal results: `parse_eq_ok_iff_presents` and `compile_composes`.
-/

namespace Dql

variable {catalog : Catalog} {style : Style} {room : Nat}

/-! ## Texts that present a phrase -/

/-- A text that is read to its end, and whose lexemes derive as a phrase with this meaning. -/
structure Presents (catalog : Catalog) (p : Phrase) (text : String) (meaning : p.Meaning) :
    Prop where
  reads : ReadsToEnd text
  spells : Spells catalog p (TokenList.ofText text).lexemes meaning

theorem Presents.of_reads {p : Phrase} {text : String} {cs : List Char} {ls : List Lexeme}
    {follow : List Char → Prop} {meaning : p.Meaning} (htext : text.toList = cs)
    (hreads : Reads cs ls follow) (hend : follow []) (h : Spells catalog p ls meaning) :
    Presents catalog p text meaning := by
  subst htext
  obtain ⟨rfl, hall⟩ := hreads.lexemes_ofText hend
  exact ⟨⟨_, hall⟩, h⟩

/-- The name of an `NVL2` and three primaries in parentheses derive as its call. -/
theorem Spells.nvl2 {accepts : PrimaryClass} {name : String} {entry : Entry}
    {ls₁ ls₂ ls₃ : List Lexeme} {e₁ e₂ e₃ : Expr}
    (notBuiltin : ∀ function : Builtin, function.name ≠ foldCase name)
    (found : catalog.find? name = some entry) (hentry : entry.extension = .shipped .nvl2)
    (h₁ : Spells catalog (.primary .arithmetic) ls₁ e₁)
    (h₂ : Spells catalog (.primary .arithmetic) ls₂ e₂)
    (h₃ : Spells catalog (.primary .arithmetic) ls₃ e₃) :
    Spells catalog (.primary accepts)
      ([⟨.identifier, name⟩, .parenLeft] ++
        (List.intercalate [.comma] [ls₁, ls₂, ls₃] ++ [.parenRight]))
      (.extension (.shipped .nvl2) [] [e₁, e₂, e₃]) := by
  intro rest _
  obtain ⟨_, category⟩ := entry
  subst hentry
  have hcomma : ∀ ls, ¬ NextIs .parenLeft (Lexeme.comma :: ls) := by simp [NextIs, Lexeme.comma]
  obtain ⟨d₃, rfl⟩ := h₃ (.parenRight :: rest) (by simp [NextIs, Lexeme.parenRight])
  obtain ⟨d₂, rfl⟩ := h₂ (.comma :: (ls₃ ++ .parenRight :: rest)) (hcomma _)
  obtain ⟨d₁, rfl⟩ := h₁ (.comma :: (ls₂ ++ .comma :: (ls₃ ++ .parenRight :: rest))) (hcomma _)
  have hls : ([⟨.identifier, name⟩, .parenLeft] ++
        (List.intercalate [.comma] [ls₁, ls₂, ls₃] ++ [.parenRight])) ++ rest =
      ⟨.identifier, name⟩ :: Lexeme.parenLeft ::
        (ls₁ ++ .comma :: (ls₂ ++ .comma :: (ls₃ ++ .parenRight :: rest))) := by simp
  rw [hls]
  exact ⟨.extension ⟨.identifier, name⟩ .parenLeft _ rfl rfl notBuiltin found .nvl2
    (.primarySlot d₁ (.comma .comma rfl (.primarySlot d₂ (.comma .comma rfl
      (.primarySlot d₃ (.formEnd .parenRight rfl)))))), rfl⟩

/-- **A text is parsed as what it presents**, within the limit on nesting. -/
theorem parse_eq_ok_iff_presents {text : String} {e : Expr} :
    (parse catalog text).1 = .ok e ↔
      Presents catalog .expression text e ∧ e.nesting ≤ maxNesting := by
  constructor
  · intro h
    obtain ⟨hend, d, rfl, hd⟩ := parse_eq_ok_iff.1 h
    have hnesting : d.tree.nesting = d.nesting := d.nesting_tree
    exact ⟨⟨hend, spells_iff.2 ⟨d, rfl⟩⟩, hnesting ▸ hd⟩
  · rintro ⟨⟨hend, hspells⟩, hnesting⟩
    exact hspells.parse_eq_ok hend hnesting

namespace Presents

variable {text a b : String} {e left right : Expr}

/-- **Two expressions with an operator between them are an expression**, though not always the one
with the two as operands: the operator may bind more tightly than those inside them. -/
theorem operator (ha : Presents catalog .expression a left)
    (hb : Presents catalog .expression b right) (op : BinaryOp) :
    ∃ e, Presents catalog .expression (a ++ op.symbol ++ b) e ∧
      e.segments = left.segments ++ .fixed (" " ++ op.symbol ++ " ") :: right.segments ∧
      e.nesting ≤ max left.nesting right.nesting := by
  obtain ⟨da, rfl⟩ := ha.spells (op.lexeme :: (TokenList.ofText b).lexemes) (op.not_nextIs _)
  obtain ⟨db, rfl⟩ := hb.spells.exists_whole
  have hna : da.tree.nesting = da.nesting := da.nesting_tree
  have hnb : db.tree.nesting = db.nesting := db.nesting_tree
  have hchain := (da.chain_expression (Nat.le_max_left _ db.nesting)).append op.operator?_kind
    (db.chain_expression (Nat.le_max_right da.nesting _))
  obtain ⟨d, hsegments, hroom⟩ := hchain.exists_derivation
  have hnesting : d.tree.nesting = d.nesting := d.nesting_tree
  have hreads := Reads.composes.append_any (op.of_punctuation .punctuation) hb.reads.reads
  have hall := ha.reads.reads.append hreads fun _ _ => by
    rw [List.append_assoc]
    exact delimited_operator op _
  exact ⟨d.tree, .of_reads (by simp) hall delimited_nil (spells_iff.2 ⟨d, rfl⟩), hsegments,
    by rwa [hnesting, hna, hnb]⟩

theorem paren (h : Presents catalog .expression text e) :
    Presents catalog (.primary .arithmetic) ("(" ++ text ++ ")") (.paren e) := by
  have hreads := Reads.composes.append_any Reads.composes.parenLeft
    (Reads.composes.append_parenRight h.reads.reads)
  exact .of_reads (by simp) hreads trivial h.spells.paren

/-- A primary is an expression. -/
theorem expression (h : Presents catalog (.primary .arithmetic) text e) :
    Presents catalog .expression text e :=
  ⟨h.reads, h.spells.factor.term.expression⟩

/-- Expressions with commas between them are arguments. -/
theorem arguments {args : List (String × Expr)}
    (h : ∀ a ∈ args, Presents catalog .expression a.1 a.2) :
    Presents catalog .arguments (",".intercalate (args.map Prod.fst)) (args.map Prod.snd) := by
  have hreads : ∀ piece ∈ args.map fun a => (a.1.toList, (TokenList.ofText a.1).lexemes),
      Reads piece.1 piece.2 Delimited := List.forall_mem_map.2 fun a ha => (h a ha).reads.reads
  have hspells : ∀ arg ∈ args.map fun a => ((TokenList.ofText a.1).lexemes, a.2),
      Spells catalog .expression arg.1 arg.2 := List.forall_mem_map.2 fun a ha => (h a ha).spells
  have hpieces := Reads.composes.intercalate Reads.composes.comma hreads
  refine .of_reads ?_ hpieces delimited_nil ?_
  · simp [String.toList_intercalate, Function.comp_def]
  · simpa [Function.comp_def] using spells_arguments hspells

theorem call {name : String} {function : Builtin} {args : List Expr} {accepts : PrimaryClass}
    (hname : SameName name function.name) (h : Presents catalog .arguments text args) :
    Presents catalog (.primary accepts) (name ++ "(" ++ text ++ ")") (.call function args) := by
  have hbuiltin : function.name = foldCase name := by
    rw [← function.foldCase_name, hname]
  have hisName : isName name = true := by
    rw [← isName_foldCase, hname, isName_foldCase, function.isName_name]
  have hreads := Reads.composes.append_any (Reads.composes.callHead hisName)
    (Reads.composes.append_parenRight h.reads.reads)
  exact .of_reads (by simp) hreads trivial (h.spells.call hbuiltin)

theorem nvl2 {name : String} {entry : Entry} {accepts : PrimaryClass} {a b c : String}
    {e₁ e₂ e₃ : Expr} (hname : Registrable name) (found : catalog.find? name = some entry)
    (hentry : entry.extension = .shipped .nvl2) (h₁ : Presents catalog (.primary .arithmetic) a e₁)
    (h₂ : Presents catalog (.primary .arithmetic) b e₂)
    (h₃ : Presents catalog (.primary .arithmetic) c e₃) :
    Presents catalog (.primary accepts) (name ++ "(" ++ ",".intercalate [a, b, c] ++ ")")
      (.extension (.shipped .nvl2) [] [e₁, e₂, e₃]) := by
  have hreads : ∀ piece ∈ [a, b, c].map fun a => (a.toList, (TokenList.ofText a).lexemes),
      Reads piece.1 piece.2 Delimited := by
    simp [h₁.reads.reads, h₂.reads.reads, h₃.reads.reads]
  have hpieces := Reads.composes.intercalate Reads.composes.comma hreads
  have hcall := Reads.composes.append_any
    (Reads.composes.callHead (isName_iff.2 hname.wellFormed))
    (Reads.composes.append_parenRight hpieces)
  have hbuiltin : ∀ function : Builtin, function.name ≠ foldCase name := by
    intro function hfunction
    refine hname.free function ?_
    rw [SameName, function.foldCase_name, hfunction]
  exact .of_reads (by simp) hcall trivial
    (.nvl2 hbuiltin found hentry h₁.spells h₂.spells h₃.spells)

end Presents

/-! ## Texts that compile -/

/-- A text that compiles to this SQL, and stands for a tree in which no more than `room` primaries
stand inside one another. -/
structure CompilesWithin (catalog : Catalog) (style : Style) (room : Nat) (text sql : String) :
    Prop where
  compiles : (compile catalog style text).1 = .ok sql
  nesting_le : ∀ e, (parse catalog text).1 = .ok e → e.nesting ≤ room

instance (text sql : String) : Decidable (CompilesWithin catalog style room text sql) :=
  decidable_of_iff ((compile catalog style text).1 = .ok sql ∧
    ∀ e ∈ (parse catalog text).1.toOption, e.nesting ≤ room) <| by
      have hmem : ∀ e, e ∈ (parse catalog text).1.toOption ↔ (parse catalog text).1 = .ok e := by
        cases (parse catalog text).1 <;> simp [Except.toOption]
      simp only [hmem]
      exact ⟨fun h => ⟨h.1, h.2⟩, fun h => ⟨h.compiles, h.nesting_le⟩⟩

theorem compilesWithin_iff (hroom : room ≤ maxNesting) {text sql : String} :
    CompilesWithin catalog style room text sql ↔
      ∃ e, Presents catalog .expression text e ∧ e.nesting ≤ room ∧
        style.chars e.segments = sql.toList := by
  constructor
  · rintro ⟨hcompiles, hnesting⟩
    obtain ⟨e, hparse, rfl⟩ := compile_eq_ok_iff.1 hcompiles
    exact ⟨e, (parse_eq_ok_iff_presents.1 hparse).1, hnesting e hparse, (toList_toSql style e).symm⟩
  · rintro ⟨e, hpresents, hnesting, hsql⟩
    have hparse := parse_eq_ok_iff_presents.2 ⟨hpresents, hnesting.trans hroom⟩
    refine ⟨compile_eq_ok_iff.2 ⟨e, hparse, ?_⟩, fun e' h => ?_⟩
    · rw [← String.toList_inj, toList_toSql, hsql]
    · rw [hparse] at h
      cases h
      exact hnesting

/-- Nothing that compiles nests deeper than the limit. -/
theorem compilesWithin_maxNesting {text sql : String}
    (h : (compile catalog style text).1 = .ok sql) :
    CompilesWithin catalog style maxNesting text sql :=
  ⟨h, fun _ hparse => (parse_eq_ok_iff_presents.1 hparse).2⟩

namespace CompilesWithin

variable {a b c sa sb sc : String}

theorem operator (hroom : room ≤ maxNesting) (ha : CompilesWithin catalog style room a sa)
    (hb : CompilesWithin catalog style room b sb) (op : BinaryOp) :
    CompilesWithin catalog style room (a ++ op.symbol ++ b)
      (sa ++ " " ++ op.symbol ++ " " ++ sb) := by
  obtain ⟨left, hleft, hl, hsa⟩ := (compilesWithin_iff hroom).1 ha
  obtain ⟨right, hright, hr, hsb⟩ := (compilesWithin_iff hroom).1 hb
  obtain ⟨e, he, hsegments, hnesting⟩ := hleft.operator hright op
  refine (compilesWithin_iff hroom).2 ⟨e, he, hnesting.trans (Nat.max_le.2 ⟨hl, hr⟩), ?_⟩
  simp [hsegments, hsa, hsb]

/-- A text in parentheses is a primary. -/
theorem exists_paren (hroom : room ≤ maxNesting) (h : CompilesWithin catalog style room a sa) :
    ∃ e, Presents catalog (.primary .arithmetic) ("(" ++ a ++ ")") e ∧ e.nesting ≤ room + 1 ∧
      style.chars e.segments = ("(" ++ sa ++ ")").toList := by
  obtain ⟨e, he, hnesting, hsa⟩ := (compilesWithin_iff hroom).1 h
  refine ⟨.paren e, he.paren, Nat.succ_le_succ hnesting, ?_⟩
  simp [Style.chars_paren, hsa]

theorem paren (hroom : room < maxNesting) (h : CompilesWithin catalog style room a sa) :
    CompilesWithin catalog style (room + 1) ("(" ++ a ++ ")") ("(" ++ sa ++ ")") := by
  obtain ⟨e, he, hnesting, hsql⟩ := h.exists_paren hroom.le
  exact (compilesWithin_iff hroom).2 ⟨e, he.expression, hnesting, hsql⟩

/-- Arguments that compile, each with what it stands for. -/
theorem exists_arguments (hroom : room ≤ maxNesting) {args : List (String × String)}
    (h : ∀ a ∈ args, CompilesWithin catalog style room a.1 a.2) :
    ∃ es : List Expr, Presents catalog .arguments (",".intercalate (args.map Prod.fst)) es ∧
      nestingOfList es ≤ room ∧
      es.map (fun e => style.chars e.segments) = args.map fun a => a.2.toList := by
  suffices ∃ pairs : List (String × Expr), pairs.map Prod.fst = args.map Prod.fst ∧
      (∀ pair ∈ pairs, Presents catalog .expression pair.1 pair.2) ∧
      nestingOfList (pairs.map Prod.snd) ≤ room ∧
      pairs.map (fun pair => style.chars pair.2.segments) = args.map fun a => a.2.toList by
    obtain ⟨pairs, htexts, hpresents, hnesting, hsql⟩ := this
    refine ⟨pairs.map Prod.snd, htexts ▸ .arguments hpresents, hnesting, ?_⟩
    rw [List.map_map]
    exact hsql
  induction args with
  | nil => exact ⟨[], rfl, nofun, Nat.zero_le room, rfl⟩
  | cons a args ih =>
    obtain ⟨ha, hargs⟩ := List.forall_mem_cons.1 h
    obtain ⟨e, he, hnesting, hsql⟩ := (compilesWithin_iff hroom).1 ha
    obtain ⟨pairs, htexts, hpairs, hnestings, hsqls⟩ := ih hargs
    exact ⟨(a.1, e) :: pairs, congrArg (a.1 :: ·) htexts, List.forall_mem_cons.2 ⟨he, hpairs⟩,
      Nat.max_le.2 ⟨hnesting, hnestings⟩, congr (congrArg List.cons hsql) hsqls⟩

theorem call (hroom : room < maxNesting) {name : String} {function : Builtin}
    (hname : SameName name function.name) {args : List (String × String)}
    (h : ∀ a ∈ args, CompilesWithin catalog style room a.1 a.2) :
    CompilesWithin catalog style (room + 1)
      (name ++ "(" ++ ",".intercalate (args.map Prod.fst) ++ ")")
      (function.name ++ "(" ++ ", ".intercalate (args.map Prod.snd) ++ ")") := by
  obtain ⟨es, hes, hnesting, hsql⟩ := exists_arguments hroom.le h
  refine (compilesWithin_iff hroom).2
    ⟨.call function es, (hes.call hname).expression, Nat.succ_le_succ hnesting, ?_⟩
  rw [Style.chars_call, Style.chars_intercalate, segmentsOfList_eq_map, List.map_map]
  simp [String.toList_intercalate, Function.comp_def, hsql]

theorem nvl2 (hroom : room + 1 < maxNesting) {name : String} (hname : Registrable name)
    (hextension : (catalog.find? name).map Entry.extension = some (.shipped .nvl2))
    (ha : CompilesWithin catalog style room a sa) (hb : CompilesWithin catalog style room b sb)
    (hc : CompilesWithin catalog style room c sc) :
    CompilesWithin catalog style (room + 2)
      (name ++ "((" ++ a ++ "),(" ++ b ++ "),(" ++ c ++ "))")
      ("NVL2((" ++ sa ++ "), (" ++ sb ++ "), (" ++ sc ++ "))") := by
  obtain ⟨entry, found, hentry⟩ := Option.map_eq_some_iff.1 hextension
  have hle : room ≤ maxNesting := by omega
  obtain ⟨e₁, h₁, hn₁, hs₁⟩ := ha.exists_paren hle
  obtain ⟨e₂, h₂, hn₂, hs₂⟩ := hb.exists_paren hle
  obtain ⟨e₃, h₃, hn₃, hs₃⟩ := hc.exists_paren hle
  have hcall := (h₁.nvl2 hname found hentry h₂ h₃).expression
  have htext : name ++ "(" ++ ",".intercalate ["(" ++ a ++ ")", "(" ++ b ++ ")", "(" ++ c ++ ")"] ++
      ")" = name ++ "((" ++ a ++ "),(" ++ b ++ "),(" ++ c ++ "))" := by
    simp [← String.toList_inj]
  refine (compilesWithin_iff hroom).2 ⟨_, htext ▸ hcall, ?_, ?_⟩
  · simp only [Expr.nesting, nestingOfList]
    omega
  · simp [Style.chars_extension, Extension.name, Shipped.name, Extension.form, Shipped.form,
      arrangeSegments, segmentsOfList, hs₁, hs₂, hs₃]

end CompilesWithin

/-- **Compilation is compositional on texts.** Texts that compile can be joined by an operator, and
as long as the limit on nesting is kept, put in parentheses, or made arguments of a built-in
function or of an `NVL2`. The SQL is put together likewise. In an `NVL2` the arguments stand in
parentheses of their own, since its slots take primaries only. -/
theorem compile_composes {start : Catalog} (h : Catalog.Start start) (rs : List Registration)
    (style : Style) :
    let catalog := start.run rs
    (∀ (op : BinaryOp) (a b sa sb : String), (compile catalog style a).1 = .ok sa →
      (compile catalog style b).1 = .ok sb →
        (compile catalog style (a ++ op.symbol ++ b)).1 =
          .ok (sa ++ " " ++ op.symbol ++ " " ++ sb)) ∧
    (∀ a sa, CompilesWithin catalog style 255 a sa →
      (compile catalog style ("(" ++ a ++ ")")).1 = .ok ("(" ++ sa ++ ")")) ∧
    (∀ (name : String) (function : Builtin), SameName name function.name →
      ∀ args : List (String × String), (∀ a ∈ args, CompilesWithin catalog style 255 a.1 a.2) →
        (compile catalog style (name ++ "(" ++ ",".intercalate (args.map Prod.fst) ++ ")")).1 =
          .ok (function.name ++ "(" ++ ", ".intercalate (args.map Prod.snd) ++ ")")) ∧
    ∀ name, (catalog.find? name).map Entry.extension = some (.shipped .nvl2) →
      ∀ a b c sa sb sc, CompilesWithin catalog style 254 a sa →
        CompilesWithin catalog style 254 b sb → CompilesWithin catalog style 254 c sc →
          (compile catalog style (name ++ "((" ++ a ++ "),(" ++ b ++ "),(" ++ c ++ "))")).1 =
            .ok ("NVL2((" ++ sa ++ "), (" ++ sb ++ "), (" ++ sc ++ "))") := by
  have hroom : 255 < maxNesting := by decide
  refine ⟨fun op a b sa sb ha hb => ?_, fun a sa ha => ?_, fun name function hname args hargs => ?_,
    fun name hextension a b c sa sb sc ha hb hc => ?_⟩
  · have ha := compilesWithin_maxNesting ha
    have hb := compilesWithin_maxNesting hb
    exact (ha.operator le_rfl hb op).compiles
  · exact (ha.paren hroom).compiles
  · exact (CompilesWithin.call hroom hname hargs).compiles
  · obtain ⟨entry, found, -⟩ := Option.map_eq_some_iff.1 hextension
    have hname := (h.lawful.run rs).registrable_of_find? found
    exact (ha.nvl2 hroom hname hextension hb hc).compiles

/-- A product of a sum, and a call of an `NVL2` that has another name. -/
theorem compile_composes_choose :
    let catalog := Catalog.empty.run [⟨"choose", .shipped .nvl2, .string⟩]
    Catalog.Start .empty ∧ (compile catalog {} "1+2*3").1 = .ok "1 + 2 * 3" ∧
      (compile catalog {} "Choose((1+2),(:p),(x))").1 = .ok "NVL2((1 + 2), (?), (x))" := by
  intro catalog
  obtain ⟨hoperator, -, -, hnvl2⟩ :=
    compile_composes .empty [⟨"choose", .shipped .nvl2, .string⟩] {}
  have hsum : CompilesWithin catalog {} 254 "1+2" "1 + 2" := by decide +kernel
  have hproduct := hoperator .mul "1+2" "3" "1 + 2" "3" hsum.compiles (by decide +kernel)
  have hname : Registrable "choose" := by decide +kernel
  have hsame : SameName "choose" "Choose" := by decide
  have hchoose : (catalog.find? "Choose").map Entry.extension = some (.shipped .nvl2) := by
    rw [Catalog.find?_run]
    simp [Registration.latest?, hname, hsame, Registration.entry]
  have hcall := hnvl2 "Choose" hchoose "1+2" ":p" "x" "1 + 2" "?" "x" hsum
    (by decide +kernel) (by decide +kernel)
  exact ⟨.empty, by simpa [BinaryOp.symbol] using hproduct, by simpa using hcall⟩

end Dql
