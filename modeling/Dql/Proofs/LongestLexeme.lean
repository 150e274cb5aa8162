import Dql.Proofs.Lexing

/-!
# The longest lexeme

What is cut off the front of a text is the longest lexeme that the text starts with. String literals
are told by another rule: a literal ends at the first quote that is neither doubled nor the second
of two.

* `first_of_front` - whatever lexeme a text starts with, at least that much is cut off;
* `kind_unique` - no text is a lexeme of two kinds.

Principal results: `front_of_first`, `first_eq_error_iff` and `quotedTail_eq_some_iff`.
-/

namespace Dql

variable {kind kind' : TokenKind} {c : Char} {cs ds front rest : List Char}

/-- No text is a lexeme of two kinds. -/
theorem kind_unique (h : IsLexeme kind cs) (h' : IsLexeme kind' cs) : kind = kind' := by
  obtain ⟨c, ds, rfl⟩ := List.exists_cons_of_ne_nil (ne_nil_of_isLexeme h)
  have hcut := first_of_isLexeme h delimited_nil
  rw [first_of_isLexeme h' delimited_nil] at hcut
  cases hcut
  rfl

theorem first_of_quote (cs : List Char) :
    Cut.first '\'' cs = match quotedTail cs with
      | some (tail, rest) => .ok ⟨.string, '\'' :: tail, rest⟩
      | none => .error .unterminatedString := rfl

/-- Only literals start with a quote, and every literal does. -/
theorem starts_with_quote_iff (h : IsLexeme kind (c :: cs)) : c = '\'' ↔ kind = .string := by
  constructor
  · rintro rfl
    have hcut := first_of_isLexeme h delimited_nil
    rw [first_of_quote] at hcut
    split at hcut <;> cases hcut
    rfl
  · rintro rfl
    obtain ⟨contents, heq, -⟩ := h
    exact (List.cons.inj heq).1

/-! ## At least as much -/

theorem whole_of_numberCut (c : Char) (rest : List Char) (h : ∀ d ∈ ds, d.isDigit = true) :
    c :: ds <+: (numberCut c (ds ++ rest)).lexeme := by
  have hwhole : c :: ds <+: c :: (ds ++ rest).takeWhile Char.isDigit := by
    rw [List.takeWhile_append_of_pos h]
    exact List.prefix_append (c :: ds) _
  unfold numberCut
  split
  · split
    · exact hwhole.trans (List.prefix_append _ _)
    · exact hwhole
  · exact hwhole

theorem fraction_of_numberCut (c : Char) {fraction : List Char} (rest : List Char)
    (h : ∀ d ∈ ds, d.isDigit = true) (hf : DigitText fraction) :
    c :: ds ++ '.' :: fraction <+: (numberCut c (ds ++ '.' :: fraction ++ rest)).lexeme := by
  obtain ⟨hne, hall⟩ := hf
  obtain ⟨f, fs, rfl⟩ := List.exists_cons_of_ne_nil hne
  obtain ⟨hf, hfs⟩ := List.forall_mem_cons.1 hall
  have hdot : ∀ x ∈ ('.' :: f :: fs ++ rest).head?, x.isDigit = false := by
    rintro _ ⟨⟩
    rfl
  obtain ⟨htake, hdrop⟩ := span_append h hdot
  unfold numberCut
  rw [List.append_assoc, htake, hdrop]
  simp only [List.cons_append, hf, ↓reduceIte, List.takeWhile_append_of_pos hfs]
  simp

theorem marked_of_markedCut {mark : Char} {p q : Char → Bool} (rest : List Char) (hc : p c = true)
    (hds : ∀ d ∈ ds, q d = true) :
    ∃ cut, markedCut kind mark p q (c :: ds ++ rest) = .ok cut ∧
      mark :: c :: ds <+: cut.lexeme := by
  refine ⟨⟨kind, mark :: c :: (ds ++ rest).takeWhile q, (ds ++ rest).dropWhile q⟩, if_pos hc, ?_⟩
  rw [List.takeWhile_append_of_pos hds]
  exact List.prefix_append (mark :: c :: ds) _

theorem dotted_of_dottedTail {more : List (List Char)} (rest : List Char)
    (h : ∀ n ∈ more, NameText n) : dotted more <+: (dottedTail (dotted more ++ rest)).1 := by
  induction more with
  | nil => exact List.nil_prefix
  | cons n more ih =>
    obtain ⟨hn, hmore⟩ := List.forall_mem_cons.1 h
    obtain ⟨d, ds, rfl, hd, hds⟩ := hn
    have hsplit : dotted ((d :: ds) :: more) ++ rest =
        '.' :: d :: (ds ++ (dotted more ++ rest)) := by
      simp
    rw [hsplit, dottedTail_dot _ hd, dottedTail_append_of_parts _ hds]
    simpa using ih hmore

/-- **Whatever lexeme a text starts with, at least that much of it is cut off.** -/
theorem first_of_front (h : IsLexeme kind (c :: ds)) (hc : c ≠ '\'') (rest : List Char) :
    ∃ cut, Cut.first c (ds ++ rest) = .ok cut ∧ c :: ds <+: cut.lexeme := by
  cases kind with
  | parenLeft | parenRight | comma | plus | minus | asterisk | slash =>
    cases h
    exact ⟨_, first_of_punctuation rfl _, List.prefix_rfl⟩
  | integer =>
    obtain ⟨hdigit, hds⟩ := List.forall_mem_cons.1 h.2
    exact ⟨_, first_of_isDigit _ hdigit, whole_of_numberCut c rest hds⟩
  | float =>
    obtain ⟨whole, fraction, heq, hwhole, hf⟩ := h
    cases whole with
    | nil =>
      obtain ⟨hne, hall⟩ := hf
      obtain ⟨f, fs, rfl⟩ := List.exists_cons_of_ne_nil hne
      obtain ⟨hf, hfs⟩ := List.forall_mem_cons.1 hall
      cases heq
      exact marked_of_markedCut rest hf hfs
    | cons w ws =>
      obtain ⟨hw, hws⟩ := List.forall_mem_cons.1 hwhole
      rw [List.cons_append, List.cons.injEq] at heq
      obtain ⟨rfl, rfl⟩ := heq
      exact ⟨_, first_of_isDigit _ hw, fraction_of_numberCut c rest hws hf⟩
  | string => exact absurd ((starts_with_quote_iff h).2 rfl) hc
  | identifier =>
    obtain ⟨d, ds, heq, hd, hds⟩ := h
    cases heq
    refine ⟨_, first_of_isNameStart _ hd, ?_⟩
    rw [dottedTail_append_of_parts _ hds]
    exact List.prefix_append (c :: ds) _
  | path =>
    obtain ⟨name, more, heq, -, ⟨d, ds, rfl, hd, hds⟩, hmore⟩ := h
    rw [List.cons_append, List.cons.injEq] at heq
    obtain ⟨rfl, rfl⟩ := heq
    refine ⟨_, first_of_isNameStart _ hd, ?_⟩
    rw [List.append_assoc, dottedTail_append_of_parts _ hds]
    simpa using dotted_of_dottedTail rest hmore
  | parameter =>
    rcases h with ⟨name, heq, d, ds, rfl, hd, hds⟩ | ⟨digits, heq, hne, hall⟩
    · cases heq
      exact marked_of_markedCut rest hd hds
    · obtain ⟨f, fs, rfl⟩ := List.exists_cons_of_ne_nil hne
      obtain ⟨hf, hfs⟩ := List.forall_mem_cons.1 hall
      cases heq
      exact marked_of_markedCut rest hf hfs

/-- **What is cut off starts with every lexeme that the text starts with.** -/
theorem front_of_first {cut : Cut} (h : Cut.first c cs = .ok cut) (hc : c ≠ '\'')
    (hfront : IsLexeme kind front) (hcs : front <+: c :: cs) : front <+: cut.lexeme := by
  obtain ⟨d, ds, rfl⟩ := List.exists_cons_of_ne_nil (ne_nil_of_isLexeme hfront)
  obtain ⟨rest, heq⟩ := hcs
  rw [List.cons_append, List.cons.injEq] at heq
  obtain ⟨rfl, rfl⟩ := heq
  obtain ⟨cut', hcut', hlexeme⟩ := first_of_front hfront hc rest
  rw [h] at hcut'
  cases hcut'
  exact hlexeme

theorem fault_of_markedCut {mark : Char} {p q : Char → Bool} {fault : LexicalFault}
    (h : markedCut kind mark p q cs = .error fault) : fault = .unexpectedCharacter := by
  unfold markedCut at h
  split at h
  · cases h
    rfl
  · split at h <;> cases h
    rfl

/-- Only a literal can be left open. -/
theorem fault_of_first {fault : LexicalFault} (h : Cut.first c cs = .error fault)
    (hc : c ≠ '\'') : fault = .unexpectedCharacter := by
  unfold Cut.first at h
  split at h
  · cases h
  rw [if_neg hc] at h
  split at h
  · cases h
  split at h
  · cases h
  split at h
  · exact fault_of_markedCut h
  split at h
  · exact fault_of_markedCut h
  split at h
  · exact fault_of_markedCut h
  · cases h
    rfl

/-- **Nothing is cut off exactly where the text starts with no lexeme.** -/
theorem first_eq_error_iff {fault : LexicalFault} (hc : c ≠ '\'') :
    Cut.first c cs = .error fault ↔ fault = .unexpectedCharacter ∧
      ∀ kind front, front <+: c :: cs → ¬ IsLexeme kind front := by
  constructor
  · intro h
    refine ⟨fault_of_first h hc, ?_⟩
    rintro kind front ⟨rest, heq⟩ hfront
    obtain ⟨d, ds, rfl⟩ := List.exists_cons_of_ne_nil (ne_nil_of_isLexeme hfront)
    rw [List.cons_append, List.cons.injEq] at heq
    obtain ⟨rfl, rfl⟩ := heq
    obtain ⟨cut, hcut, -⟩ := first_of_front hfront hc rest
    rw [h] at hcut
    cases hcut
  · rintro ⟨rfl, hnone⟩
    cases hcut : Cut.first c cs with
    | error fault => rw [fault_of_first hcut hc]
    | ok cut =>
      have hfront : cut.lexeme <+: c :: cs := ⟨cut.rest, Cut.first_append hcut⟩
      exact absurd (isLexeme_of_first hcut) (hnone _ _ hfront)

/-! ## Literals -/

theorem head?_of_quotedTail {tail : List Char} (h : quotedTail cs = some (tail, rest)) :
    rest.head? ≠ some '\'' := by
  fun_induction quotedTail cs generalizing tail rest with
  | case1 => cases h
  | case2 cs ih | case4 c cs _ _ ih =>
    obtain ⟨⟨t, r⟩, ht, he⟩ := Option.map_eq_some_iff.1 h
    cases he
    exact ih ht
  | case3 cs hdoubled =>
    cases h
    intro hquote
    obtain ⟨more, rfl⟩ := List.head?_eq_some_iff.1 hquote
    exact hdoubled more rfl rfl

/-- **A literal ends at the first quote that closes it**: its contents have every quote doubled, and
no other quote follows. -/
theorem quotedTail_eq_some_iff {tail : List Char} :
    quotedTail cs = some (tail, rest) ↔ ∃ contents, tail = contents ++ ['\''] ∧ Escaped contents ∧
      cs = contents ++ '\'' :: rest ∧ rest.head? ≠ some '\'' := by
  constructor
  · intro h
    obtain ⟨contents, rfl, hcontents⟩ := quotedTail_escaped h
    have happend := quotedTail_append h
    exact ⟨contents, rfl, hcontents, by simpa using happend.symm, head?_of_quotedTail h⟩
  · rintro ⟨contents, rfl, hcontents, rfl, hrest⟩
    exact quotedTail_of_escaped hcontents hrest

end Dql
