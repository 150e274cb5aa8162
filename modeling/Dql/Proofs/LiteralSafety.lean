import Mathlib.Data.List.Chain
import Dql.Proofs.RoundTrip

/-!
# SQL stays inside its literals

SQL is scanned from left to right, and every single quote opens or closes a literal. The scan of
compiled SQL ends outside a literal; outside literals there are only the characters that names,
numbers, marks and blanks are made of, and no two of them open a comment.

* `insideAfter`, `outside` - the scan;
* `Safe` - texts that can be put one after another in SQL;
* `PlainText`, `Style.Tame` - texts of harmless characters, and styles that write paths as such.

Principal results: `Normal.safe` and `compile_stays_in_literals`.
-/

namespace Dql

/-! ## The scan -/

/-- Whether the scan is inside a literal after these characters. -/
def insideAfter (inside : Bool) : List Char → Bool
  | [] => inside
  | c :: cs => insideAfter (if c = '\'' then !inside else inside) cs

/-- The characters outside literals, with a gap for every quote and for every character inside. -/
def outside (inside : Bool) : List Char → List (Option Char)
  | [] => []
  | c :: cs =>
    if c = '\'' then none :: outside (!inside) cs
    else (if inside then none else some c) :: outside inside cs

theorem insideAfter_append (inside : Bool) (cs ds : List Char) :
    insideAfter inside (cs ++ ds) = insideAfter (insideAfter inside cs) ds := by
  induction cs generalizing inside with
  | nil => rfl
  | cons c cs ih => exact ih _

theorem outside_append (inside : Bool) (cs ds : List Char) :
    outside inside (cs ++ ds) = outside inside cs ++ outside (insideAfter inside cs) ds := by
  induction cs generalizing inside with
  | nil => rfl
  | cons c cs ih =>
    rw [List.cons_append, outside, outside, insideAfter]
    split <;> simp only [List.cons_append, ih]

theorem length_outside (inside : Bool) (cs : List Char) :
    (outside inside cs).length = cs.length := by
  induction cs generalizing inside with
  | nil => rfl
  | cons c cs ih =>
    rw [outside]
    split <;> simp only [List.length_cons, ih]

/-- The characters that may stand outside literals. -/
def isSqlChar (c : Char) : Bool := isNamePart c || c ∈ ".,()+*/?:- ".toList

/-- The characters of these that take no part in opening a comment. -/
def isPlain (c : Char) : Bool := isNamePart c || c ∈ ".,()+?: ".toList

/-- Two neighbours that do not open a comment. -/
def Quiet (a b : Option Char) : Prop :=
  ¬ (a = some '-' ∧ b = some '-') ∧ ¬ (a = some '/' ∧ b = some '*')

/-- A text that can stand before and after other such texts in SQL: its literals are closed, what is
outside them is harmless, and it does not end with something that could open a comment. -/
structure Safe (cs : List Char) : Prop where
  closed : insideAfter false cs = false
  allowed : ∀ c, some c ∈ outside false cs → isSqlChar c = true
  noComment : (outside false cs).IsChain Quiet
  ends : ∀ a ∈ (outside false cs).getLast?, a ≠ some '-' ∧ a ≠ some '/'

/-- A text of plain characters. -/
def PlainText (cs : List Char) : Prop := cs ≠ [] ∧ ∀ c ∈ cs, isPlain c = true

namespace Safe

variable {cs ds : List Char}

theorem nil : Safe [] := ⟨rfl, (fun _ h => nomatch h), .nil, (fun _ h => nomatch h)⟩

theorem append (hcs : Safe cs) (hds : Safe ds) : Safe (cs ++ ds) := by
  have hout : outside false (cs ++ ds) = outside false cs ++ outside false ds := by
    rw [outside_append, hcs.closed]
  constructor
  · rw [insideAfter_append, hcs.closed, hds.closed]
  · intro c hc
    rw [hout] at hc
    exact (List.mem_append.1 hc).elim (hcs.allowed c) (hds.allowed c)
  · rw [hout, List.isChain_append]
    refine ⟨hcs.noComment, hds.noComment, fun a ha b _ => ?_⟩
    obtain ⟨h₁, h₂⟩ := hcs.ends a ha
    exact ⟨fun h => h₁ h.1, fun h => h₂ h.1⟩
  · intro a ha
    rw [hout, List.getLast?_append] at ha
    cases hlast : (outside false ds).getLast? with
    | none =>
      rw [hlast] at ha
      exact hcs.ends a ha
    | some b =>
      rw [hlast] at ha
      obtain rfl : b = a := by simpa using ha
      exact hds.ends b hlast

/-- A minus before something that does not start with one. -/
theorem minus (h : Safe cs) (ho : Opens cs) : Safe ('-' :: cs) := by
  obtain ⟨c, ds, rfl, hc⟩ := ho
  have hout : outside false ('-' :: c :: ds) = some '-' :: outside false (c :: ds) := rfl
  have hhead : ∀ b ∈ (outside false (c :: ds)).head?, Quiet (some '-') b := by
    intro b hb
    rw [outside] at hb
    split at hb <;> cases hb <;> simp [Quiet, hc]
  have hne : outside false (c :: ds) ≠ [] := by
    rw [outside]
    split <;> simp
  constructor
  · exact h.closed
  · intro a ha
    rw [hout] at ha
    rcases List.mem_cons.1 ha with ha | ha
    · cases ha
      rfl
    · exact h.allowed a ha
  · rw [hout, List.isChain_cons]
    exact ⟨hhead, h.noComment⟩
  · intro a ha
    rw [hout, List.getLast?_cons_of_ne_nil hne] at ha
    exact h.ends a ha

end Safe

/-! ## Plain text -/

theorem isSqlChar_of_isPlain {c : Char} (h : isPlain c = true) : isSqlChar c = true := by
  have hmarks : (".,()+?: ".toList.all fun d => d ∈ ".,()+*/?:- ".toList) = true := by decide
  simp only [isPlain, isSqlChar, Bool.or_eq_true, decide_eq_true_eq] at *
  exact h.imp_right fun hc => by simpa using List.all_eq_true.1 hmarks c hc

theorem isPlain_of_isNamePart {c : Char} (h : isNamePart c = true) : isPlain c = true := by
  simp [isPlain, h]

theorem ne_of_isPlain {c d : Char} (h : isPlain c = true) (hd : isPlain d = false) : c ≠ d := by
  rintro rfl
  rw [h] at hd
  cases hd

/-- A text that closes its literals and is plain outside them. -/
theorem safe_of_isPlain_outside {cs : List Char} (hend : insideAfter false cs = false)
    (h : ∀ c, some c ∈ outside false cs → isPlain c = true) : Safe cs := by
  have hcalm : ∀ a ∈ outside false cs, a ≠ some '-' ∧ a ≠ some '/' := by
    rintro _ ha
    constructor <;> rintro rfl <;> exact absurd (h _ ha) (by decide)
  refine ⟨hend, fun c hc => isSqlChar_of_isPlain (h c hc), ?_, ?_⟩
  · rw [List.isChain_iff_forall_rel_of_append_cons_cons]
    intro a b front back he
    obtain ⟨h₁, h₂⟩ := hcalm a (by rw [he]; simp)
    exact ⟨fun h => h₁ h.1, fun h => h₂ h.1⟩
  · exact fun a ha => hcalm a (List.mem_of_getLast? ha)

/-- Outside literals, a text without quotes is as it is. -/
theorem outside_of_unquoted {cs : List Char} (h : ∀ c ∈ cs, c ≠ '\'') :
    outside false cs = cs.map some ∧ insideAfter false cs = false := by
  induction cs with
  | nil => exact ⟨rfl, rfl⟩
  | cons c cs ih =>
    obtain ⟨hc, hcs⟩ := List.forall_mem_cons.1 h
    obtain ⟨hout, hend⟩ := ih hcs
    rw [outside, insideAfter, if_neg hc, if_neg hc]
    exact ⟨by simp [hout], hend⟩

theorem safe_of_isPlain {cs : List Char} (h : ∀ c ∈ cs, isPlain c = true) : Safe cs := by
  obtain ⟨hout, hend⟩ := outside_of_unquoted fun c hc => ne_of_isPlain (h c hc) (by decide)
  refine safe_of_isPlain_outside hend fun c hc => h c ?_
  rw [hout] at hc
  simpa using hc

theorem PlainText.safe {cs : List Char} (h : PlainText cs) : Safe cs := safe_of_isPlain h.2

theorem PlainText.opens {cs : List Char} (h : PlainText cs) : Opens cs := by
  obtain ⟨hne, hall⟩ := h
  obtain ⟨c, ds, rfl⟩ := List.exists_cons_of_ne_nil hne
  exact ⟨c, ds, rfl, ne_of_isPlain (hall c List.mem_cons_self) (by decide)⟩

theorem plainText_of_name {cs : List Char} (h : NameText cs) : PlainText cs := by
  obtain ⟨c, ds, rfl, hc, hds⟩ := h
  refine ⟨by simp, List.forall_mem_cons.2 ⟨?_, fun d hd => isPlain_of_isNamePart (hds d hd)⟩⟩
  exact isPlain_of_isNamePart (isNamePart_of_isNameStart hc)

theorem plainText_of_digits {cs : List Char} (h : DigitText cs) : PlainText cs :=
  ⟨h.1, fun c hc => isPlain_of_isNamePart (isNamePart_of_isDigit (h.2 c hc))⟩

theorem PlainText.cons {c : Char} {cs : List Char} (hc : isPlain c = true) (h : PlainText cs) :
    PlainText (c :: cs) :=
  ⟨by simp, List.forall_mem_cons.2 ⟨hc, h.2⟩⟩

theorem PlainText.append {cs ds : List Char} (h : PlainText cs)
    (hds : ∀ d ∈ ds, isPlain d = true) : PlainText (cs ++ ds) :=
  ⟨by simp [h.1], List.forall_mem_append.2 ⟨h.2, hds⟩⟩

/-! ## Leaves of expressions -/

theorem isNamePart_toLower {c : Char} (h : c.isUpper = true) : isNamePart c.toLower = true := by
  have hlower : c.toLower.isLower = true := by
    unfold Char.isUpper at h
    unfold Char.toLower Char.isLower
    simp only [ge_iff_le, decide_eq_true_eq] at h
    simp only [ge_iff_le, h, and_self, ↓reduceDIte, Bool.and_eq_true, decide_eq_true_eq]
    simp only [UInt32.le_iff_toNat_le, UInt32.toNat_add] at *
    have hA : ('A' : Char).val.toNat = 65 := rfl
    have hZ : ('Z' : Char).val.toNat = 90 := rfl
    have hd : (('a' : Char).val - ('A' : Char).val).toNat = 32 := rfl
    have ha : ('a' : Char).val.toNat = 97 := rfl
    have hz : ('z' : Char).val.toNat = 122 := rfl
    omega
  unfold isNamePart Char.isAlphanum Char.isAlpha
  simp [hlower]

theorem dotted_isPlain {more : List (List Char)} (h : ∀ n ∈ more, NameText n) :
    ∀ c ∈ dotted more, isPlain c = true := by
  intro c hc
  obtain ⟨n, hn, hc⟩ := List.mem_flatMap.1 hc
  rcases List.mem_cons.1 hc with rfl | hc
  · decide
  · exact (plainText_of_name (h n hn)).2 c hc

theorem plainText_of_path {cs : List Char} (h : DottedText cs) : PlainText cs := by
  obtain ⟨name, more, rfl, -, hname, hmore⟩ := h
  exact (plainText_of_name hname).append (dotted_isPlain hmore)

theorem plainText_of_number {cs : List Char} (h : IsLexeme .integer cs ∨ IsLexeme .float cs) :
    PlainText cs := by
  rcases h with h | ⟨whole, fraction, rfl, hwhole, hfraction⟩
  · exact plainText_of_digits h
  · refine ⟨by simp, List.forall_mem_append.2 ⟨fun c hc => ?_, ?_⟩⟩
    · exact isPlain_of_isNamePart (isNamePart_of_isDigit (hwhole c hc))
    · exact ((plainText_of_digits hfraction).cons (by decide)).2

theorem plainText_of_parameter {cs : List Char} (h : IsLexeme .parameter cs) : PlainText cs := by
  rcases h with ⟨name, rfl, h⟩ | ⟨digits, rfl, h⟩
  · exact (plainText_of_name h).cons (by decide)
  · exact (plainText_of_digits h).cons (by decide)

/-- Nothing of a literal's contents is outside, and after them the scan is inside again. -/
theorem outside_of_escaped {cs : List Char} (h : Escaped cs) :
    (∀ c, some c ∉ outside true cs) ∧ insideAfter true cs = true := by
  induction h with
  | nil => exact ⟨nofun, rfl⟩
  | char hc _ ih =>
    rw [outside, insideAfter, if_neg hc, if_neg hc]
    exact ⟨by simpa using ih.1, ih.2⟩
  | quotes _ ih => exact ⟨by simpa [outside] using ih.1, ih.2⟩

/-- A literal is closed and has nothing outside. -/
theorem outside_of_literal {cs : List Char} (h : Escaped cs) :
    (∀ c, some c ∉ outside false ('\'' :: cs ++ ['\''])) ∧
      insideAfter false ('\'' :: cs ++ ['\'']) = false := by
  obtain ⟨hout, hend⟩ := outside_of_escaped h
  have hinside : insideAfter false ('\'' :: cs) = true := hend
  constructor
  · intro c hc
    rw [outside_append, hinside] at hc
    simp [outside, hout] at hc
  · rw [insideAfter_append, hinside]
    rfl

theorem safe_of_escaped {cs : List Char} (h : Escaped cs) : Safe ('\'' :: cs ++ ['\'']) := by
  obtain ⟨hout, hend⟩ := outside_of_literal h
  exact safe_of_isPlain_outside hend fun c hc => absurd hc (hout c)

/-- Paths are written as plain text. -/
def Style.Tame (style : Style) : Prop :=
  ∀ entity field, Normal (.path entity field) → PlainText (style.path entity field).toList

theorem plainText_of_normal_path {entity : String} {field : Option String}
    (h : Normal (.path entity field)) : PlainText (verbatimPath entity field).toList := by
  cases h with
  | name h => exact plainText_of_name h
  | path _ hpath => exact plainText_of_path hpath

theorem tame_of_verbatimPath {style : Style} (h : style.path = verbatimPath) : style.Tame := by
  intro entity field hpath
  rw [h]
  exact plainText_of_normal_path hpath

/-- A column name is as plain as its field. -/
theorem isPlain_snakeCase {field : String} (h : ∀ c ∈ field.toList, isPlain c = true) :
    ∀ c ∈ (snakeCase field).toList, isPlain c = true := by
  intro c hc
  rw [snakeCase, String.toList_ofList] at hc
  obtain ⟨d, hd, hc⟩ := List.mem_flatMap.1 hc
  split at hc
  · rename_i hupper
    have hlower := isPlain_of_isNamePart (isNamePart_toLower hupper)
    rcases List.mem_cons.1 hc with rfl | hc
    · decide
    · rwa [List.mem_singleton.1 hc]
  · rw [List.mem_singleton.1 hc]
    exact h d hd

theorem tame_of_snakePath {style : Style} (h : style.path = snakePath) : style.Tame := by
  intro entity field hpath
  have hplain := plainText_of_normal_path hpath
  rw [h]
  cases hpath with
  | name he =>
    rw [snakePath, String.toList_append]
    exact hplain.append (List.all_eq_true.1 rfl)
  | @path _ field he =>
    rw [snakePath, String.toList_append, String.toList_append]
    have hfield : ∀ c ∈ field.toList, isPlain c = true := fun c hc =>
      hplain.2 c (by simp [verbatimPath, hc])
    exact ((plainText_of_name he).append (List.all_eq_true.1 rfl)).append (isPlain_snakeCase hfield)

/-! ## Whole expressions -/

/-- A character between blanks opens no comment. -/
theorem safe_between_blanks {c : Char} (hc : isSqlChar c = true) (hquote : c ≠ '\'') :
    Safe [' ', c, ' '] := by
  have hout : outside false [' ', c, ' '] = [some ' ', some c, some ' '] := by
    simp [outside, hquote]
  refine ⟨by simp [insideAfter, hquote], ?_, ?_, ?_⟩
  · rw [hout]
    rintro _ (_ | ⟨_, _ | ⟨_, _ | ⟨_, ⟨⟩⟩⟩⟩)
    · rfl
    · exact hc
    · rfl
  · rw [hout]
    simp [Quiet]
  · rw [hout]
    intro a ha
    obtain rfl : some ' ' = a := by simpa using ha
    exact ⟨by decide, by decide⟩

theorem safe_operator (op : BinaryOp) : Safe (' ' :: op.symbol.toList ++ [' ']) := by
  cases op with
  | add | sub | mul | div => exact safe_between_blanks (by decide) (by decide)

theorem safe_of_isKept {kind : TokenKind} {cs : List Char} (h : IsLexeme kind cs)
    (hkind : kind.isKept = true) : Safe cs := by
  cases kind with
  | integer => exact (plainText_of_number (.inl h)).safe
  | float => exact (plainText_of_number (.inr h)).safe
  | string =>
    obtain ⟨contents, rfl, hcontents⟩ := h
    exact safe_of_escaped hcontents
  | identifier => exact (plainText_of_name h).safe
  | path => exact (plainText_of_path h).safe
  | parenLeft | parenRight | comma | plus | minus | asterisk | slash | parameter => cases hkind

theorem Safe.composes : Composes fun cs _ _ => Safe cs where
  mono h _ := h
  append h₁ h₂ _ := h₁.append h₂
  nil := .nil
  blank := safe_of_isPlain (List.all_eq_true.1 rfl)
  kept := safe_of_isKept
  parenLeft := safe_of_isPlain (List.all_eq_true.1 rfl)
  parenRight := safe_of_isPlain (List.all_eq_true.1 rfl)
  comma := safe_of_isPlain (List.all_eq_true.1 rfl)
  operator := safe_operator
  sign sign _ _ _ h ho := by
    cases sign with
    | plus => exact (safe_of_isPlain (List.all_eq_true.1 rfl)).append h
    | minus => exact h.minus ho

/-- **SQL of an expression in normal form can stand in SQL.** -/
theorem Normal.safe {style : Style} (hstyle : style.Tame) {e : Expr} (h : Normal e) :
    Safe (style.chars e.segments) := by
  have hparameter : ∀ text : String, IsLexeme .parameter text.toList →
      Safe (style.write (.parameter text)).toList := by
    intro text htext
    have hmark : PlainText ['?'] := ⟨by decide, List.all_eq_true.1 rfl⟩
    cases hparameters : style.parameters with
    | positional => simpa [Style.write, Style.parameter, hparameters] using hmark.safe
    | verbatim =>
      have htoken := (plainText_of_parameter htext).safe
      simpa [Style.write, Style.parameter, hparameters] using htoken
  exact Safe.composes.normal (fun _ _ h => (hstyle _ _ h).opens) (fun _ _ h => (hstyle _ _ h).safe)
    hparameter h

/-- **Compiled SQL cannot open a comment or break out of a literal.** Paths may be written as they
are or as table alias and column, and parameters in either way. The scan of the SQL ends outside a
literal; outside literals there are only name characters, marks and blanks, and neither `--` nor
`/*` stands there. -/
theorem compile_stays_in_literals {catalog : Catalog} {style : Style} {text sql : String}
    (hpath : style.path = verbatimPath ∨ style.path = snakePath)
    (h : (compile catalog style text).1 = .ok sql) :
    insideAfter false sql.toList = false ∧
      (∀ c, some c ∈ outside false sql.toList → isSqlChar c = true) ∧
      ¬ [some '-', some '-'] <:+: outside false sql.toList ∧
      ¬ [some '/', some '*'] <:+: outside false sql.toList := by
  have hstyle : style.Tame := hpath.elim tame_of_verbatimPath tame_of_snakePath
  obtain ⟨e, he, rfl⟩ := compile_eq_ok_iff.1 h
  have hsafe := (wellFormed_of_parse he).normal.safe hstyle
  rw [← toList_toSql] at hsafe
  have hquiet : ∀ a b, [a, b] <:+: outside false (e.toSql style).toList → Quiet a b := by
    intro a b hab
    have hpair : [a, b].IsChain Quiet := List.IsChain.infix hsafe.noComment hab
    exact List.isChain_pair.1 hpair
  exact ⟨hsafe.closed, hsafe.allowed, fun hab => (hquiet _ _ hab).1 ⟨rfl, rfl⟩,
    fun hab => (hquiet _ _ hab).2 ⟨rfl, rfl⟩⟩

/-- Signs after operators, and a literal that holds a quote and what would open a comment. -/
theorem compile_stays_in_literals_signs :
    (compile .empty { path := snakePath } "-a.bC - -'it''s --'").1 =
        .ok "-a0_.b_c - -'it''s --'" ∧
      ¬ [some '-', some '-'] <:+: outside false "-a0_.b_c - -'it''s --'".toList := by
  have h : (compile .empty { path := snakePath } "-a.bC - -'it''s --'").1 =
      .ok "-a0_.b_c - -'it''s --'" := by
    decide +kernel
  exact ⟨h, (compile_stays_in_literals (.inr rfl) h).2.2.1⟩

end Dql
