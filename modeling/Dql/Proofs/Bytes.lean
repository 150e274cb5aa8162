import Dql.Proofs.LongestLexeme

/-!
# The lexical grammar in bytes

Lexemes as runs of bytes of a text in UTF-8. A byte below 128 is a character on its own; all other
bytes are parts of larger characters and occur in literals only. So a lexeme never ends inside a
character, and the bytes of a text start with the lexemes that its characters start with.

* `IsByteLexeme` - the runs of bytes of each kind of token;
* `isBlankByte` - the four blanks;
* `byteChars` - the bytes of a text, each read as the character that has its number.

Principal result: `isByteLexeme_front_iff`.
-/

namespace Dql

variable {kind : TokenKind} {c : Char} {cs xs ys : List Char} {bs : List UInt8}

/-- The runs of bytes of each kind of token: those of the grammar, with each byte in the place of
the character that has its number. In particular the contents of a literal are bytes other than
quotes, and doubled quotes. -/
def IsByteLexeme (kind : TokenKind) (bs : List UInt8) : Prop :=
  IsLexeme kind (bs.map Char.ofUInt8)

/-- Space, tab, carriage return and line feed. -/
def isBlankByte (b : UInt8) : Bool := b == 0x20 || b == 0x09 || b == 0x0D || b == 0x0A

/-! ## Bytes of a character -/

theorem toNat_ofUInt8 (b : UInt8) : (Char.ofUInt8 b).toNat = b.toNat := rfl

theorem ofUInt8_injective {b b' : UInt8} (h : Char.ofUInt8 b = Char.ofUInt8 b') : b = b' :=
  UInt8.toNat_inj.1 (congrArg Char.toNat h)

theorem isWhitespace_ofUInt8 (b : UInt8) : (Char.ofUInt8 b).isWhitespace = isBlankByte b := by
  have hchar : ∀ d : UInt8, (Char.ofUInt8 b = Char.ofUInt8 d) ↔ b = d :=
    fun d => ⟨ofUInt8_injective, congrArg _⟩
  rw [Bool.eq_iff_iff]
  simp only [Char.isWhitespace, isBlankByte, Bool.or_eq_true, decide_eq_true_eq, beq_iff_eq]
  exact or_congr (or_congr (or_congr (hchar 0x20) (hchar 0x09)) (hchar 0x0D)) (hchar 0x0A)

theorem isBlankByte_of_large {b : UInt8} (h : 128 ≤ b.toNat) : isBlankByte b = false := by
  simp only [isBlankByte, Bool.or_eq_false_iff, beq_eq_false_iff_ne]
  refine ⟨⟨⟨?_, ?_⟩, ?_⟩, ?_⟩ <;> rintro rfl <;> exact absurd h (by decide)

/-- A character below 128 is a byte, and any other has bytes from 128 on only. -/
theorem encode_cases (c : Char) :
    (c.toNat < 128 ∧ ∃ b, String.utf8EncodeChar c = [b] ∧ Char.ofUInt8 b = c) ∨
      128 ≤ c.toNat ∧ ∀ b ∈ String.utf8EncodeChar c, 128 ≤ b.toNat := by
  have hnat : c.val.toNat = c.toNat := rfl
  rcases Nat.lt_or_ge c.toNat 128 with h | h
  · refine .inl ⟨h, UInt8.ofNat c.toNat, if_pos (show c.val.toNat ≤ 127 by omega), ?_⟩
    apply Char.toNat_inj.1
    rw [toNat_ofUInt8, UInt8.toNat_ofNat', Nat.mod_eq_of_lt (by omega)]
  · refine .inr ⟨h, ?_⟩
    -- whatever the number of bytes, each is marked by its highest bit
    simp only [String.utf8EncodeChar, hnat]
    repeat' split
    all_goals
      simp only [List.forall_mem_cons, UInt8.toNat_ofNat', List.not_mem_nil, false_implies,
        implies_true, and_true]
      omega

/-! ## Bytes of a text -/

@[simp] theorem bytes_nil : bytes [] = [] := rfl

theorem bytes_cons (c : Char) (cs : List Char) :
    bytes (c :: cs) = String.utf8EncodeChar c ++ bytes cs := rfl

theorem bytes_append (cs ds : List Char) : bytes (cs ++ ds) = bytes cs ++ bytes ds :=
  List.flatMap_append

theorem isPrefix_bytes {ds : List Char} (h : cs <+: ds) : bytes cs <+: bytes ds := by
  obtain ⟨rest, rfl⟩ := h
  exact ⟨bytes rest, (bytes_append cs rest).symm⟩

/-- A text has one form in bytes only. -/
theorem bytes_injective {ds : List Char} (h : bytes cs = bytes ds) : cs = ds := by
  have hstring : String.ofList cs = String.ofList ds := by
    rw [← String.toByteArray_inj, String.toByteArray_ofList, String.toByteArray_ofList]
    exact congrArg List.toByteArray h
  simpa using congrArg String.toList hstring

/-- Blanks are skipped in bytes as they are in characters. -/
theorem skip_blanks (cs : List Char) :
    ((bytes cs).takeWhile isBlankByte).length = (cs.takeWhile Char.isWhitespace).length ∧
      (bytes cs).dropWhile isBlankByte = bytes (cs.dropWhile Char.isWhitespace) := by
  induction cs with
  | nil => exact ⟨rfl, rfl⟩
  | cons c cs ih =>
    rcases encode_cases c with ⟨-, b, hb, rfl⟩ | ⟨hlarge, hbytes⟩
    · cases hblank : isBlankByte b <;>
        simp [bytes_cons, hb, isWhitespace_ofUInt8, hblank, ih]
    · obtain ⟨b, more, hb⟩ := List.exists_cons_of_ne_nil (String.utf8EncodeChar_ne_nil (c := c))
      have hblank := isBlankByte_of_large (hbytes b (by simp [hb]))
      have hchar : c.isWhitespace = false := by
        simp only [Char.isWhitespace, Bool.or_eq_false_iff, decide_eq_false_iff_not]
        refine ⟨⟨⟨?_, ?_⟩, ?_⟩, ?_⟩ <;> rintro rfl <;> exact absurd hlarge (by decide)
      simp [bytes_cons, hb, hblank, hchar]

/-- The bytes of a text, each read as the character that has its number. -/
def byteChars (cs : List Char) : List Char := (bytes cs).map Char.ofUInt8

@[simp] theorem byteChars_nil : byteChars [] = [] := rfl

theorem byteChars_append (cs ds : List Char) :
    byteChars (cs ++ ds) = byteChars cs ++ byteChars ds := by
  rw [byteChars, bytes_append, List.map_append]
  rfl

/-- A character below 128 stays, and any other makes way for characters from 128 on. -/
theorem byteChars_cases (c : Char) :
    (c.toNat < 128 ∧ ∀ cs, byteChars (c :: cs) = c :: byteChars cs) ∨
      128 ≤ c.toNat ∧ ∃ large, large ≠ [] ∧ (∀ x ∈ large, 128 ≤ x.toNat) ∧
        ∀ cs, byteChars (c :: cs) = large ++ byteChars cs := by
  rcases encode_cases c with ⟨hsmall, b, hb, hc⟩ | ⟨hlarge, hbytes⟩
  · refine .inl ⟨hsmall, fun cs => ?_⟩
    simp [byteChars, bytes_cons, hb, hc]
  · refine .inr ⟨hlarge, _, ?_, ?_, fun cs => List.map_append⟩
    · simp
    · intro x hx
      obtain ⟨b, hb, rfl⟩ := List.mem_map.1 hx
      exact hbytes b hb

theorem byteChars_cons (cs : List Char) (h : c.toNat < 128) :
    byteChars (c :: cs) = c :: byteChars cs := by
  rcases byteChars_cases c with ⟨-, hcs⟩ | ⟨hlarge, -⟩
  · exact hcs cs
  · omega

theorem byteChars_eq_nil_iff : byteChars cs = [] ↔ cs = [] := by
  rw [byteChars, List.map_eq_nil_iff]
  exact ⟨fun h => bytes_injective (h.trans bytes_nil.symm), fun h => h ▸ bytes_nil⟩

/-- Where the bytes of a text have a byte below 128, the text has a character. -/
theorem byteChars_split (h : byteChars cs = xs ++ c :: ys) (hc : c.toNat < 128) :
    ∃ front back, cs = front ++ c :: back ∧ byteChars front = xs ∧ byteChars back = ys := by
  induction cs generalizing xs with
  | nil => cases xs <;> cases h
  | cons d ds ih =>
    rcases byteChars_cases d with ⟨-, hd⟩ | ⟨-, large, -, hlarge, hd⟩
    · rw [hd] at h
      cases xs with
      | nil =>
        cases h
        exact ⟨[], ds, rfl, rfl, rfl⟩
      | cons x xs =>
        obtain ⟨rfl, hds⟩ := List.cons.inj h
        obtain ⟨front, back, rfl, rfl, hback⟩ := ih hds
        exact ⟨d :: front, back, rfl, hd front, hback⟩
    · rw [hd] at h
      -- the bytes of `d` lie before the byte `c`, which is not one of them
      obtain ⟨xs', rfl, hds⟩ : ∃ xs', xs = large ++ xs' ∧ byteChars ds = xs' ++ c :: ys := by
        rcases List.append_eq_append_iff.1 h with ⟨xs', hxs, hds⟩ | ⟨ys', rfl, hcs⟩
        · exact ⟨xs', hxs, hds⟩
        · cases ys' with
          | nil => exact ⟨[], by simp, hcs.symm⟩
          | cons y ys' =>
            obtain ⟨rfl, -⟩ := List.cons.inj hcs
            have := hlarge c (by simp)
            omega
      obtain ⟨front, back, rfl, rfl, hback⟩ := ih hds
      exact ⟨d :: front, back, rfl, hd front, hback⟩

theorem byteChars_of_small (h : ∀ c ∈ cs, c.toNat < 128) : byteChars cs = cs := by
  induction cs with
  | nil => rfl
  | cons c cs ih =>
    obtain ⟨hc, hcs⟩ := List.forall_mem_cons.1 h
    rw [byteChars_cons cs hc, ih hcs]

theorem small_of_byteChars (h : ∀ c ∈ byteChars cs, c.toNat < 128) : ∀ c ∈ cs, c.toNat < 128 := by
  induction cs with
  | nil => exact nofun
  | cons c cs ih =>
    rcases byteChars_cases c with ⟨hsmall, hcs⟩ | ⟨-, large, hne, hlarge, hcs⟩
    · rw [hcs] at h
      exact List.forall_mem_cons.2 ⟨hsmall, ih (List.forall_mem_cons.1 h).2⟩
    · obtain ⟨x, more, rfl⟩ := List.exists_cons_of_ne_nil hne
      have hsmall := h x (by simp [hcs])
      have := hlarge x List.mem_cons_self
      omega

/-! ## Bytes of a lexeme -/

/-- Digits, letters and underscores lie between the digit zero and the letter z. -/
theorem range_of_isNamePart (h : isNamePart c = true) : 48 ≤ c.toNat ∧ c.toNat ≤ 122 := by
  unfold isNamePart Char.isAlphanum Char.isAlpha Char.isUpper Char.isLower Char.isDigit at h
  simp only [ge_iff_le, Bool.or_eq_true, Bool.and_eq_true, decide_eq_true_eq,
    UInt32.le_iff_toNat_le, beq_iff_eq] at h
  rcases h with h | rfl
  · change ((65 ≤ c.toNat ∧ c.toNat ≤ 90) ∨ 97 ≤ c.toNat ∧ c.toNat ≤ 122) ∨
      48 ≤ c.toNat ∧ c.toNat ≤ 57 at h
    omega
  · decide

theorem small_of_isNamePart (h : isNamePart c = true) : c.toNat < 128 := by
  have := range_of_isNamePart h
  omega

theorem small_of_isDigit (h : c.isDigit = true) : c.toNat < 128 :=
  small_of_isNamePart (isNamePart_of_isDigit h)

theorem small_of_nameText (h : NameText cs) : ∀ c ∈ cs, c.toNat < 128 := by
  obtain ⟨c, ds, rfl, hc, hds⟩ := h
  exact List.forall_mem_cons.2 ⟨small_of_isNamePart (isNamePart_of_isNameStart hc),
    fun d hd => small_of_isNamePart (hds d hd)⟩

theorem small_of_dotted {names : List (List Char)} (h : ∀ n ∈ names, NameText n) :
    ∀ c ∈ dotted names, c.toNat < 128 := by
  intro c hc
  obtain ⟨n, hn, hc⟩ := List.mem_flatMap.1 hc
  rcases List.mem_cons.1 hc with rfl | hc
  · decide
  · exact small_of_nameText (h n hn) c hc

/-- Only literals have characters from 128 on. -/
theorem small_of_isLexeme (h : IsLexeme kind cs) (hkind : kind ≠ .string) :
    ∀ c ∈ cs, c.toNat < 128 := by
  cases kind with
  | parenLeft | parenRight | comma | plus | minus | asterisk | slash =>
    cases h
    exact List.forall_mem_singleton.2 (by decide)
  | integer => exact fun c hc => small_of_isDigit (h.2 c hc)
  | float =>
    obtain ⟨whole, fraction, rfl, hwhole, hfraction⟩ := h
    exact List.forall_mem_append.2 ⟨fun c hc => small_of_isDigit (hwhole c hc),
      List.forall_mem_cons.2 ⟨by decide, fun c hc => small_of_isDigit (hfraction.2 c hc)⟩⟩
  | string => exact absurd rfl hkind
  | identifier => exact small_of_nameText h
  | path =>
    obtain ⟨name, more, rfl, -, hname, hmore⟩ := h
    exact List.forall_mem_append.2 ⟨small_of_nameText hname, small_of_dotted hmore⟩
  | parameter =>
    rcases h with ⟨name, rfl, hname⟩ | ⟨digits, rfl, hdigits⟩
    · exact List.forall_mem_cons.2 ⟨by decide, small_of_nameText hname⟩
    · exact List.forall_mem_cons.2 ⟨by decide, fun c hc => small_of_isDigit (hdigits.2 c hc)⟩

/-- Every lexeme ends with a character below 128, a literal with its closing quote. -/
theorem last_of_isLexeme (h : IsLexeme kind cs) :
    ∃ front c, cs = front ++ [c] ∧ c.toNat < 128 := by
  by_cases hkind : kind = .string
  · subst hkind
    obtain ⟨contents, rfl, -⟩ := h
    exact ⟨_, '\'', rfl, by decide⟩
  · have hne := ne_nil_of_isLexeme h
    exact ⟨_, _, (List.dropLast_concat_getLast hne).symm,
      small_of_isLexeme h hkind _ (List.getLast_mem hne)⟩

theorem escaped_char_iff (h : c ≠ '\'') : Escaped (c :: cs) ↔ Escaped cs := by
  constructor
  · rintro (_ | ⟨-, more⟩ | _)
    · exact more
    · exact absurd rfl h
  · exact .char h

theorem escaped_append_iff (h : '\'' ∉ xs) : Escaped (xs ++ cs) ↔ Escaped cs := by
  induction xs with
  | nil => exact Iff.rfl
  | cons x xs ih =>
    obtain ⟨hx, hxs⟩ := not_or.1 (mt List.mem_cons.2 h)
    rw [List.cons_append, escaped_char_iff (Ne.symm hx), ih hxs]

theorem escaped_quote_iff : Escaped ('\'' :: cs) ↔ ∃ ds, cs = '\'' :: ds ∧ Escaped ds := by
  constructor
  · rintro (_ | ⟨h, -⟩ | more)
    · exact absurd rfl h
    · exact ⟨_, rfl, more⟩
  · rintro ⟨ds, rfl, hds⟩
    exact .quotes hds

theorem byteChars_eq_cons (h : byteChars cs = c :: ys) (hc : c.toNat < 128) :
    ∃ back, cs = c :: back ∧ byteChars back = ys := by
  have hsplit : byteChars cs = [] ++ c :: ys := h
  obtain ⟨front, back, rfl, hfront, hback⟩ := byteChars_split hsplit hc
  cases byteChars_eq_nil_iff.1 hfront
  exact ⟨back, rfl, hback⟩

/-- The quotes of a text are doubled if they are in its bytes. -/
theorem escaped_byteChars_iff : ∀ cs : List Char, Escaped (byteChars cs) ↔ Escaped cs
  | [] => Iff.rfl
  | c :: cs => by
    rcases byteChars_cases c with ⟨-, hcs⟩ | ⟨hc, large, -, hlarge, hcs⟩
    · rw [hcs]
      by_cases hc : c = '\''
      · subst hc
        rw [escaped_quote_iff, escaped_quote_iff]
        constructor
        · rintro ⟨ds, hds, h⟩
          obtain ⟨back, rfl, rfl⟩ := byteChars_eq_cons hds (by decide)
          exact ⟨back, rfl, (escaped_byteChars_iff back).1 h⟩
        · rintro ⟨ds, rfl, h⟩
          exact ⟨byteChars ds, byteChars_cons ds (by decide), (escaped_byteChars_iff ds).2 h⟩
      · rw [escaped_char_iff hc, escaped_char_iff hc, escaped_byteChars_iff cs]
    · have hne : c ≠ '\'' := by
        rintro rfl
        exact absurd hc (by decide)
      have hlarge : '\'' ∉ large := fun h => absurd (hlarge _ h) (by decide)
      rw [hcs, escaped_append_iff hlarge, escaped_char_iff hne, escaped_byteChars_iff cs]
  termination_by cs => cs.length

/-- A text is a lexeme if its bytes are. -/
theorem isLexeme_byteChars_iff : IsLexeme kind (byteChars cs) ↔ IsLexeme kind cs := by
  by_cases hkind : kind = .string
  · subst hkind
    constructor
    · rintro ⟨contents, h, hcontents⟩
      obtain ⟨back, rfl, hback⟩ := byteChars_eq_cons h (by decide)
      obtain ⟨front, end', rfl, rfl, hend⟩ := byteChars_split hback (by decide)
      cases byteChars_eq_nil_iff.1 hend
      exact ⟨front, rfl, (escaped_byteChars_iff front).1 hcontents⟩
    · rintro ⟨contents, rfl, hcontents⟩
      refine ⟨byteChars contents, ?_, (escaped_byteChars_iff contents).2 hcontents⟩
      rw [List.cons_append, byteChars_cons _ (by decide), byteChars_append]
      rfl
  · constructor
    · intro h
      rwa [byteChars_of_small (small_of_byteChars (small_of_isLexeme h hkind))] at h
    · intro h
      rwa [byteChars_of_small (small_of_isLexeme h hkind)]

theorem ne_nil_of_isByteLexeme (h : IsByteLexeme kind bs) : bs ≠ [] := by
  rintro rfl
  exact ne_nil_of_isLexeme h rfl

/-- Every lexeme starts with a byte below 128, a literal with its opening quote. -/
theorem head_of_isByteLexeme {b : UInt8} (h : IsByteLexeme kind (b :: bs)) : b.toNat < 128 := by
  by_cases hkind : kind = .string
  · have hquote := (starts_with_quote_iff h).2 hkind
    rw [← toNat_ofUInt8, hquote]
    decide
  · exact small_of_isLexeme h hkind _ List.mem_cons_self

/-- **The bytes of a text start with the lexemes that its characters start with.** -/
theorem isByteLexeme_front_iff (h : bs <+: bytes cs) :
    IsByteLexeme kind bs ↔ ∃ front, front <+: cs ∧ bytes front = bs ∧ IsLexeme kind front := by
  constructor
  · intro hbs
    obtain ⟨xs, c, hxs, hc⟩ := last_of_isLexeme hbs
    obtain ⟨more, hmore⟩ := h
    have hcs : byteChars cs = xs ++ c :: more.map Char.ofUInt8 := by
      rw [byteChars, ← hmore, List.map_append, hxs, List.append_assoc, List.singleton_append]
    obtain ⟨front, back, rfl, rfl, -⟩ := byteChars_split hcs hc
    have hfront : byteChars (front ++ [c]) = bs.map Char.ofUInt8 := by
      rw [hxs, byteChars_append, byteChars_cons [] hc, byteChars_nil]
    refine ⟨front ++ [c], ⟨back, by simp⟩, ?_, ?_⟩
    · exact (List.map_inj_right fun _ _ => ofUInt8_injective).1 hfront
    · rwa [IsByteLexeme, ← hfront, isLexeme_byteChars_iff] at hbs
  · rintro ⟨front, -, rfl, hfront⟩
    exact isLexeme_byteChars_iff.2 hfront

end Dql
