import Dql.Token.Stream

/-!
# The lexical grammar

What the lexemes of each kind look like, said without the scanner, and that the scanner cuts off
exactly these.

* `NameText`, `DigitText`, `Escaped` - the runs of characters that lexemes are made of;
* `IsLexeme` - the texts of each kind of token;
* `Lexeme` - a token without its place;
* `Delimited` - texts by which no lexeme goes on.

`isLexeme_of_first` and `first_of_isLexeme` are the two directions: whatever is cut off is a lexeme
of its kind, and a lexeme before a delimited text is cut off whole.
-/

namespace Dql

/-! ## Character classes -/

theorem isNamePart_of_isDigit {c : Char} (h : c.isDigit = true) : isNamePart c = true := by
  simp [isNamePart, Char.isAlphanum, h]

theorem isNameStart_of_isDigit {c : Char} (h : c.isDigit = true) : isNameStart c = false := by
  unfold Char.isDigit at h
  unfold isNameStart Char.isAlpha Char.isUpper Char.isLower
  simp only [ge_iff_le, Bool.and_eq_true, decide_eq_true_eq, UInt32.le_iff_toNat_le] at h
  simp only [ge_iff_le, Bool.or_eq_false_iff, Bool.and_eq_false_iff, decide_eq_false_iff_not,
    UInt32.le_iff_toNat_le, beq_eq_false_iff_ne]
  have h9 : ('9' : Char).val.toNat = 57 := rfl
  have hA : ('A' : Char).val.toNat = 65 := rfl
  have ha : ('a' : Char).val.toNat = 97 := rfl
  refine ⟨⟨by omega, by omega⟩, ?_⟩
  rintro rfl
  exact absurd h.2 (by decide)

theorem punctuation?_of_isNameStart {c : Char} (h : isNameStart c = true) :
    punctuation? c = none := by
  unfold punctuation?
  split <;> first | rfl | exact absurd h (by decide)

theorem punctuation?_of_isDigit {c : Char} (h : c.isDigit = true) : punctuation? c = none := by
  unfold punctuation?
  split <;> first | rfl | exact absurd h (by decide)

/-- A blank starts no lexeme, not even a wrong one. -/
theorem isWhitespace_eq_false_of {c : Char} (p : Char → Bool) (hc : p c = true)
    (hp : [' ', '\t', '\r', '\n'].any p = false) : c.isWhitespace = false := by
  cases hw : c.isWhitespace with
  | false => rfl
  | true =>
    have hb : c ∈ [' ', '\t', '\r', '\n'] := by
      simpa [Char.isWhitespace, or_assoc] using hw
    exact absurd hc (List.any_eq_false.1 hp c hb)

/-! ## Runs of characters -/

/-- The characters of a name. -/
def NameText (cs : List Char) : Prop :=
  ∃ c ds, cs = c :: ds ∧ isNameStart c = true ∧ ∀ d ∈ ds, isNamePart d = true

theorem isName_iff {text : String} : isName text = true ↔ NameText text.toList := by
  unfold isName NameText
  cases text.toList with
  | nil => simp
  | cons c cs =>
    rw [Bool.and_eq_true_iff, List.all_eq_true]
    constructor
    · exact fun ⟨hc, hcs⟩ => ⟨c, cs, rfl, hc, hcs⟩
    · rintro ⟨_, _, ⟨⟩, hc, hcs⟩
      exact ⟨hc, hcs⟩

/-- One digit or more. -/
def DigitText (cs : List Char) : Prop := cs ≠ [] ∧ ∀ c ∈ cs, c.isDigit = true

/-- What may stand between the quotes of a string literal: every quote is doubled. -/
inductive Escaped : List Char → Prop where
  | nil : Escaped []
  | char {c : Char} {cs : List Char} (h : c ≠ '\'') (more : Escaped cs) : Escaped (c :: cs)
  | quotes {cs : List Char} (more : Escaped cs) : Escaped ('\'' :: '\'' :: cs)

/-- Names, each after a dot. -/
def dotted (names : List (List Char)) : List Char := names.flatMap fun n => '.' :: n

@[simp] theorem dotted_nil : dotted [] = [] := rfl

@[simp] theorem dotted_cons (n : List Char) (more : List (List Char)) :
    dotted (n :: more) = '.' :: (n ++ dotted more) := rfl

/-- The characters of a dotted name: two names or more, joined by dots. -/
def DottedText (cs : List Char) : Prop :=
  ∃ name more, cs = name ++ dotted more ∧ more ≠ [] ∧ NameText name ∧ ∀ n ∈ more, NameText n

/-- The texts of each kind of token. -/
def IsLexeme : TokenKind → List Char → Prop
  | .parenLeft, cs => cs = ['(']
  | .parenRight, cs => cs = [')']
  | .comma, cs => cs = [',']
  | .plus, cs => cs = ['+']
  | .minus, cs => cs = ['-']
  | .asterisk, cs => cs = ['*']
  | .slash, cs => cs = ['/']
  | .integer, cs => DigitText cs
  | .float, cs => ∃ whole fraction, cs = whole ++ '.' :: fraction ∧
      (∀ c ∈ whole, c.isDigit = true) ∧ DigitText fraction
  | .string, cs => ∃ contents, cs = '\'' :: contents ++ ['\''] ∧ Escaped contents
  | .identifier, cs => NameText cs
  | .path, cs => DottedText cs
  | .parameter, cs =>
      (∃ name, cs = ':' :: name ∧ NameText name) ∨ (∃ digits, cs = '?' :: digits ∧ DigitText digits)

/-- A token without its place: what the grammar sees of it. -/
structure Lexeme where
  kind : TokenKind
  text : String
  deriving DecidableEq

/-- The token without its place. -/
def Token.lexeme (t : Token) : Lexeme := ⟨t.kind, t.text⟩

/-- A lexeme whose text is one of its kind. -/
def Lexeme.Valid (l : Lexeme) : Prop := IsLexeme l.kind l.text.toList

/-- Texts by which no lexeme before them goes on. -/
def Delimited (rest : List Char) : Prop :=
  ∀ c ∈ rest.head?, isNamePart c = false ∧ c ≠ '.' ∧ c ≠ '\''

theorem delimited_nil : Delimited [] := by
  intro c hc
  cases hc

theorem delimited_cons {c : Char} {cs : List Char} (h₁ : isNamePart c = false) (h₂ : c ≠ '.')
    (h₃ : c ≠ '\'') : Delimited (c :: cs) := by
  intro d hd
  cases hd
  exact ⟨h₁, h₂, h₃⟩

/-- No lexeme goes on with a blank. -/
theorem delimited_of_isWhitespace {c : Char} (h : c.isWhitespace = true) (cs : List Char) :
    Delimited (c :: cs) := by
  have hnot : ∀ p : Char → Bool, [' ', '\t', '\r', '\n'].any p = false → p c = false := by
    intro p hp
    cases hc : p c with
    | false => rfl
    | true =>
      rw [isWhitespace_eq_false_of p hc hp] at h
      cases h
  exact delimited_cons (hnot isNamePart rfl) (by simpa using hnot (· == '.') rfl)
    (by simpa using hnot (· == '\'') rfl)

/-- A run of items of one class is taken whole if the next item is of another. -/
theorem span_append {α : Type} {p : α → Bool} {ds rest : List α} (hd : ∀ d ∈ ds, p d = true)
    (hr : ∀ c ∈ rest.head?, p c = false) :
    (ds ++ rest).takeWhile p = ds ∧ (ds ++ rest).dropWhile p = rest := by
  rw [List.takeWhile_append_of_pos hd, List.dropWhile_append_of_pos hd]
  cases rest with
  | nil => simp
  | cons c cs => simp [hr c rfl]

theorem Delimited.isDigit {rest : List Char} (h : Delimited rest) :
    ∀ c ∈ rest.head?, c.isDigit = false := by
  intro c hc
  cases hd : c.isDigit with
  | false => rfl
  | true =>
    have := isNamePart_of_isDigit hd
    rw [(h c hc).1] at this
    cases this

/-! ## What is cut off is a lexeme -/

theorem digitText_takeWhile {c : Char} {cs : List Char} (h : c.isDigit = true) :
    DigitText (c :: cs.takeWhile Char.isDigit) := by
  refine ⟨by simp, ?_⟩
  intro d hd
  rcases List.mem_cons.1 hd with rfl | hd
  · exact h
  · exact List.all_eq_true.1 List.all_takeWhile d hd

theorem nameText_takeWhile {c : Char} {cs : List Char} (h : isNameStart c = true) :
    NameText (c :: cs.takeWhile isNamePart) :=
  ⟨c, _, rfl, h, fun d hd => List.all_eq_true.1 List.all_takeWhile d hd⟩

theorem quotedTail_escaped {cs tail rest : List Char} (h : quotedTail cs = some (tail, rest)) :
    ∃ contents, tail = contents ++ ['\''] ∧ Escaped contents := by
  fun_induction quotedTail cs generalizing tail rest with
  | case1 => cases h
  | case2 cs ih =>
    obtain ⟨⟨t, r⟩, ht, he⟩ := Option.map_eq_some_iff.1 h
    cases he
    obtain ⟨contents, rfl, hc⟩ := ih ht
    exact ⟨'\'' :: '\'' :: contents, rfl, .quotes hc⟩
  | case3 =>
    cases h
    exact ⟨[], rfl, .nil⟩
  | case4 c cs _ hne ih =>
    obtain ⟨⟨t, r⟩, ht, he⟩ := Option.map_eq_some_iff.1 h
    cases he
    obtain ⟨contents, rfl, hc⟩ := ih ht
    exact ⟨c :: contents, rfl, .char hne hc⟩

theorem dottedTail_cons_of_isNamePart {c : Char} (cs : List Char) (h : isNamePart c = true) :
    dottedTail (c :: cs) = (c :: (dottedTail cs).1, (dottedTail cs).2) := by
  cases cs with
  | nil => simp [dottedTail, h]
  | cons d ds => rw [dottedTail]; simp only [h, Bool.true_or, ↓reduceIte]

theorem dottedTail_dot {d : Char} (cs : List Char) (h : isNameStart d = true) :
    dottedTail ('.' :: d :: cs) =
      ('.' :: d :: (dottedTail cs).1, (dottedTail cs).2) := by
  have hd := dottedTail_cons_of_isNamePart cs (isNamePart_of_isNameStart h)
  rw [dottedTail]
  simp only [h, beq_self_eq_true, Bool.and_self, Bool.or_true, ↓reduceIte, hd]

/-- Where a possibly dotted name ends. -/
theorem dottedTail_stop {cs : List Char}
    (h : ∀ c ∈ cs.head?, isNamePart c = false ∧
      (c = '.' → ∀ d ∈ cs.tail.head?, isNameStart d = false)) : dottedTail cs = ([], cs) := by
  match cs with
  | [] => rfl
  | [c] => simp [dottedTail, (h c rfl).1]
  | c :: d :: cs =>
    obtain ⟨hc, hdot⟩ := h c rfl
    rw [dottedTail, if_neg]
    simp only [hc, Bool.false_or, Bool.and_eq_true, beq_iff_eq, not_and, Bool.not_eq_true]
    exact fun hc => hdot hc d rfl

/-- The rest of a possibly dotted name after its first character: the rest of that name, and more
names, each after a dot. -/
theorem dottedTail_names : ∀ cs : List Char, ∃ ds more,
    (dottedTail cs).1 = ds ++ dotted more ∧
      (∀ d ∈ ds, isNamePart d = true) ∧ ∀ n ∈ more, NameText n
  | [] => ⟨[], [], rfl, by simp, by simp⟩
  | [c] => by
    by_cases hc : isNamePart c = true
    · exact ⟨[c], [], by simp [dottedTail, hc], by simpa using hc, by simp⟩
    · exact ⟨[], [], by simp [dottedTail, hc], by simp, by simp⟩
  | c :: d :: cs => by
    by_cases hc : isNamePart c = true
    · obtain ⟨ds, more, htail, hds, hmore⟩ := dottedTail_names (d :: cs)
      rw [dottedTail_cons_of_isNamePart _ hc, htail]
      refine ⟨c :: ds, more, rfl, ?_, hmore⟩
      intro x hx
      rcases List.mem_cons.1 hx with rfl | hx
      · exact hc
      · exact hds x hx
    · by_cases hdot : c = '.' ∧ isNameStart d = true
      · -- the dot opens a new name, which takes over what was the rest of the current one
        obtain ⟨rfl, hd⟩ := hdot
        obtain ⟨ds, more, htail, hds, hmore⟩ := dottedTail_names cs
        rw [dottedTail_dot _ hd, htail]
        refine ⟨[], (d :: ds) :: more, rfl, by simp, ?_⟩
        intro n hn
        rcases List.mem_cons.1 hn with rfl | hn
        · exact ⟨d, ds, rfl, hd, hds⟩
        · exact hmore n hn
      · refine ⟨[], [], ?_, by simp, by simp⟩
        rw [dottedTail_stop]
        · rfl
        · rintro _ ⟨⟩
          refine ⟨by simpa using hc, ?_⟩
          rintro rfl _ ⟨⟩
          simpa using hdot
  termination_by cs => cs.length

theorem dot_not_mem_of_isNamePart {ds : List Char} (h : ∀ d ∈ ds, isNamePart d = true) :
    '.' ∉ ds := fun hd => absurd (h '.' hd) (by decide)

theorem dot_mem_dotted_iff {more : List (List Char)} : '.' ∈ dotted more ↔ more ≠ [] := by
  cases more <;> simp

theorem isLexeme_numberCut {c : Char} (cs : List Char) (h : c.isDigit = true) :
    IsLexeme (numberCut c cs).kind (numberCut c cs).lexeme := by
  have hwhole : DigitText (c :: cs.takeWhile Char.isDigit) := digitText_takeWhile h
  unfold numberCut
  split
  · rename_i d ds _
    split
    · rename_i hd
      exact ⟨_, _, rfl, hwhole.2, digitText_takeWhile hd⟩
    · exact hwhole
  · exact hwhole

theorem lexeme_markedCut {kind : TokenKind} {mark : Char} {p q : Char → Bool} {cs : List Char}
    {cut : Cut} (h : markedCut kind mark p q cs = .ok cut) :
    cut.kind = kind ∧
      ∃ c, ∃ ds : List Char, cut.lexeme = mark :: c :: ds.takeWhile q ∧ p c = true := by
  unfold markedCut at h
  split at h
  · cases h
  · rename_i c cs
    split at h
    · rename_i hc
      cases h
      exact ⟨rfl, c, cs, rfl, hc⟩
    · cases h

theorem isLexeme_punctuation {c : Char} {kind : TokenKind} (h : punctuation? c = some kind) :
    IsLexeme kind [c] := by
  unfold punctuation? at h
  split at h <;> cases h <;> rfl

/-- Whatever is cut off the front of a text is a lexeme of its kind. -/
theorem isLexeme_of_first {c : Char} {cs : List Char} {cut : Cut} (h : Cut.first c cs = .ok cut) :
    IsLexeme cut.kind cut.lexeme := by
  unfold Cut.first at h
  split at h
  · rename_i kind hk
    cases h
    exact isLexeme_punctuation hk
  split at h
  · rename_i hc
    subst hc
    split at h
    · rename_i htail
      cases h
      obtain ⟨contents, rfl, hcontents⟩ := quotedTail_escaped htail
      exact ⟨contents, rfl, hcontents⟩
    · cases h
  split at h
  · rename_i hc
    obtain ⟨ds, more, htail, hds, hmore⟩ := dottedTail_names cs
    cases h
    rw [htail]
    by_cases hm : more = []
    · subst hm
      rw [if_neg (by simpa using dot_not_mem_of_isNamePart hds)]
      exact ⟨c, ds, by simp, hc, hds⟩
    · rw [if_pos (List.mem_append_right _ (dot_mem_dotted_iff.2 hm))]
      exact ⟨c :: ds, more, rfl, hm, ⟨c, ds, rfl, hc, hds⟩, hmore⟩
  split at h
  · rename_i hc
    cases h
    exact isLexeme_numberCut cs hc
  split at h
  · rename_i hc
    subst hc
    obtain ⟨hk, d, ds, hl, hd⟩ := lexeme_markedCut h
    rw [hk, hl]
    exact ⟨[], _, rfl, by simp, digitText_takeWhile hd⟩
  split at h
  · rename_i hc
    subst hc
    obtain ⟨hk, d, ds, hl, hd⟩ := lexeme_markedCut h
    rw [hk, hl]
    exact .inr ⟨_, rfl, digitText_takeWhile hd⟩
  split at h
  · rename_i hc
    subst hc
    obtain ⟨hk, d, ds, hl, hd⟩ := lexeme_markedCut h
    rw [hk, hl]
    exact .inl ⟨_, rfl, nameText_takeWhile hd⟩
  · cases h

/-! ## Lexemes are cut off whole -/

theorem first_of_punctuation {c : Char} {kind : TokenKind} (h : punctuation? c = some kind)
    (rest : List Char) : Cut.first c rest = .ok ⟨kind, [c], rest⟩ := by
  simp only [Cut.first, h]

theorem first_of_isNameStart {c : Char} (cs : List Char) (h : isNameStart c = true) :
    Cut.first c cs = .ok ⟨if '.' ∈ (dottedTail cs).1 then .path else .identifier,
      c :: (dottedTail cs).1, (dottedTail cs).2⟩ := by
  have hq : c ≠ '\'' := by
    rintro rfl
    exact absurd h (by decide)
  simp only [Cut.first, punctuation?_of_isNameStart h, if_neg hq, if_pos h]

theorem first_of_isDigit {c : Char} (cs : List Char) (h : c.isDigit = true) :
    Cut.first c cs = .ok (numberCut c cs) := by
  have hq : c ≠ '\'' := by
    rintro rfl
    exact absurd h (by decide)
  simp only [Cut.first, punctuation?_of_isDigit h, if_neg hq, isNameStart_of_isDigit h, if_pos h,
    Bool.false_eq_true, ↓reduceIte]

theorem first_of_quotedTail {cs tail rest : List Char} (h : quotedTail cs = some (tail, rest)) :
    Cut.first '\'' cs = .ok ⟨.string, '\'' :: tail, rest⟩ := by
  simp [Cut.first, punctuation?, h]

theorem quotedTail_of_escaped {contents rest : List Char} (h : Escaped contents)
    (hr : rest.head? ≠ some '\'') :
    quotedTail (contents ++ '\'' :: rest) = some (contents ++ ['\''], rest) := by
  induction h with
  | nil =>
    cases rest with
    | nil => rfl
    | cons c cs =>
      have hc : c ≠ '\'' := fun hc => hr (by rw [hc]; rfl)
      simp [quotedTail, hc]
  | char hc _ ih => simp [quotedTail, hc, ih]
  | quotes _ ih => simp [quotedTail, ih]

theorem dottedTail_append_of_parts {ds : List Char} (cs : List Char)
    (h : ∀ d ∈ ds, isNamePart d = true) :
    dottedTail (ds ++ cs) = (ds ++ (dottedTail cs).1, (dottedTail cs).2) := by
  induction ds with
  | nil => rfl
  | cons d ds ih =>
    rw [List.cons_append, dottedTail_cons_of_isNamePart _ (h d List.mem_cons_self),
      ih fun x hx => h x (List.mem_cons_of_mem _ hx)]
    rfl

theorem dottedTail_of_delimited {rest : List Char} (h : Delimited rest) :
    dottedTail rest = ([], rest) := by
  apply dottedTail_stop
  intro c hc
  exact ⟨(h c hc).1, fun hdot => absurd hdot (h c hc).2.1⟩

theorem dottedTail_dotted {more : List (List Char)} {rest : List Char}
    (h : ∀ n ∈ more, NameText n) (hr : Delimited rest) :
    dottedTail (dotted more ++ rest) = (dotted more, rest) := by
  induction more with
  | nil => exact dottedTail_of_delimited hr
  | cons n more ih =>
    obtain ⟨d, ds, rfl, hd, hds⟩ := h n List.mem_cons_self
    have hmore := ih fun x hx => h x (List.mem_cons_of_mem _ hx)
    have hsplit : dotted ((d :: ds) :: more) ++ rest =
        '.' :: d :: (ds ++ (dotted more ++ rest)) := by
      simp
    rw [hsplit, dottedTail_dot _ hd, dottedTail_append_of_parts _ hds, hmore]
    simp

theorem numberCut_of_digits {c : Char} {ds rest : List Char} (hds : ∀ d ∈ ds, d.isDigit = true)
    (hr : Delimited rest) : numberCut c (ds ++ rest) = ⟨.integer, c :: ds, rest⟩ := by
  obtain ⟨htake, hdrop⟩ := span_append hds hr.isDigit
  unfold numberCut
  rw [htake, hdrop]
  split
  · exact absurd rfl (hr '.' rfl).2.1
  · rfl

theorem numberCut_of_fraction {c : Char} {ds fraction rest : List Char}
    (hds : ∀ d ∈ ds, d.isDigit = true) (hf : DigitText fraction) (hr : Delimited rest) :
    numberCut c (ds ++ '.' :: fraction ++ rest) =
      ⟨.float, c :: ds ++ '.' :: fraction, rest⟩ := by
  obtain ⟨hne, hall⟩ := hf
  obtain ⟨f, fs, rfl⟩ := List.exists_cons_of_ne_nil hne
  have hdot : ∀ x ∈ ('.' :: f :: fs ++ rest).head?, x.isDigit = false := by
    rintro _ ⟨⟩
    rfl
  obtain ⟨htake, hdrop⟩ := span_append hds hdot
  obtain ⟨hftake, hfdrop⟩ :=
    span_append (fun d hd => hall d (List.mem_cons_of_mem _ hd)) hr.isDigit
  unfold numberCut
  rw [List.append_assoc, htake, hdrop]
  simp [hall f List.mem_cons_self, hftake, hfdrop]

theorem markedCut_append_of {kind : TokenKind} {mark c : Char} {p q : Char → Bool}
    {ds rest : List Char} (hc : p c = true) (hds : ∀ d ∈ ds, q d = true)
    (hr : ∀ c ∈ rest.head?, q c = false) :
    markedCut kind mark p q (c :: ds ++ rest) = .ok ⟨kind, mark :: c :: ds, rest⟩ := by
  obtain ⟨htake, hdrop⟩ := span_append hds hr
  simp [markedCut, hc, htake, hdrop]

/-- A lexeme before a delimited text is cut off whole. -/
theorem first_of_isLexeme {kind : TokenKind} {c : Char} {cs rest : List Char}
    (h : IsLexeme kind (c :: cs)) (hr : Delimited rest) :
    Cut.first c (cs ++ rest) = .ok ⟨kind, c :: cs, rest⟩ := by
  cases kind with
  | parenLeft | parenRight | comma | plus | minus | asterisk | slash =>
    cases h
    exact first_of_punctuation rfl rest
  | integer =>
    obtain ⟨_, hall⟩ := h
    rw [first_of_isDigit _ (hall c List.mem_cons_self),
      numberCut_of_digits (fun d hd => hall d (List.mem_cons_of_mem _ hd)) hr]
  | float =>
    obtain ⟨whole, fraction, heq, hwhole, hf⟩ := h
    cases whole with
    | nil =>
      obtain ⟨hne, hall⟩ := hf
      obtain ⟨f, fs, rfl⟩ := List.exists_cons_of_ne_nil hne
      cases heq
      have hcut : Cut.first '.' (f :: fs ++ rest) =
          markedCut .float '.' Char.isDigit Char.isDigit (f :: fs ++ rest) := rfl
      rw [hcut, markedCut_append_of (hall f List.mem_cons_self)
        (fun d hd => hall d (List.mem_cons_of_mem _ hd)) hr.isDigit]
    | cons w ws =>
      rw [List.cons_append, List.cons.injEq] at heq
      obtain ⟨rfl, rfl⟩ := heq
      rw [first_of_isDigit _ (hwhole c List.mem_cons_self),
        numberCut_of_fraction (fun d hd => hwhole d (List.mem_cons_of_mem _ hd)) hf hr]
      rfl
  | string =>
    obtain ⟨contents, heq, hcontents⟩ := h
    rw [List.cons_append, List.cons.injEq] at heq
    obtain ⟨rfl, rfl⟩ := heq
    have hquote : rest.head? ≠ some '\'' := fun hq => absurd rfl (hr '\'' hq).2.2
    have htail := quotedTail_of_escaped hcontents hquote
    rw [List.append_assoc, List.singleton_append]
    exact first_of_quotedTail htail
  | identifier =>
    obtain ⟨d, ds, heq, hd, hds⟩ := h
    cases heq
    rw [first_of_isNameStart _ hd, dottedTail_append_of_parts _ hds, dottedTail_of_delimited hr]
    simp [dot_not_mem_of_isNamePart hds]
  | path =>
    obtain ⟨name, more, heq, hne, ⟨d, ds, rfl, hd, hds⟩, hmore⟩ := h
    rw [List.cons_append, List.cons.injEq] at heq
    obtain ⟨rfl, rfl⟩ := heq
    rw [first_of_isNameStart _ hd, List.append_assoc, dottedTail_append_of_parts _ hds,
      dottedTail_dotted hmore hr]
    simp [dot_mem_dotted_iff.2 hne]
  | parameter =>
    rcases h with ⟨name, heq, d, ds, rfl, hd, hds⟩ | ⟨digits, heq, hne, hall⟩
    · cases heq
      have hcut : Cut.first ':' (d :: ds ++ rest) =
          markedCut .parameter ':' isNameStart isNamePart (d :: ds ++ rest) := rfl
      rw [hcut, markedCut_append_of hd hds fun x hx => (hr x hx).1]
    · obtain ⟨f, fs, rfl⟩ := List.exists_cons_of_ne_nil hne
      cases heq
      have hcut : Cut.first '?' (f :: fs ++ rest) =
          markedCut .parameter '?' Char.isDigit Char.isDigit (f :: fs ++ rest) := rfl
      rw [hcut, markedCut_append_of (hall f List.mem_cons_self)
        (fun d hd => hall d (List.mem_cons_of_mem _ hd)) hr.isDigit]

end Dql
