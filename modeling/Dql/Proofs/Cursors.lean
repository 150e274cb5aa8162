import Dql.Proofs.Bytes
import Dql.Proofs.Positions

/-!
# What a cursor reads

A cursor may have been moved by tokens and by single bytes, so it can stand at any byte of its text.
What it reads next depends on the bytes from there on only, and is the longest match of the lexical
grammar after the blanks.

* `Cursor.Reached` - the cursors that a text is read with;
* `bytesFrom`, `skipBlanks` - the bytes from an offset on, and the first of them that is no blank;
* `LongestMatch`, `ClosedLiteral` - what the lexical grammar says about the bytes ahead;
* `Cursor.Moves`, `Cursor.step?_cases` - what a move by a token and one by a byte does;
* `Cursor.Within` - what every cursor keeps to.

Principal result: `Cursor.next_takes_longest_match`.
-/

namespace Dql

/-- The cursors that a text is read with: the first one, and any after a move by a token or by a
byte. -/
inductive Cursor.Reached (text : String) : Cursor → Prop where
  | start : Reached text (.ofText text)
  | next {c : Cursor} (h : Reached text c) : Reached text c.next.2
  | takeByte {c : Cursor} (h : Reached text c) (b : UInt8) : Reached text (c.takeByte b).2

/-- The bytes of a text from an offset on. -/
def bytesFrom (text : String) (offset : Nat) : List UInt8 := (bytes text.toList).drop offset

/-- The offset of the first byte from an offset on that is no blank; the end of the text if there
is none. -/
def skipBlanks (text : String) (offset : Nat) : Nat :=
  offset + ((bytesFrom text offset).takeWhile isBlankByte).length

/-- The bytes `ahead` start with a lexeme, and with no longer one of whatever kind. -/
structure LongestMatch (kind : TokenKind) (lexeme ahead : List UInt8) : Prop where
  front : lexeme <+: ahead
  isLexeme : IsByteLexeme kind lexeme
  longest : ∀ kind' front, front <+: ahead → IsByteLexeme kind' front →
    front.length ≤ lexeme.length

/-- The bytes `ahead` start with a literal, and no quote follows the one that closes it. -/
structure ClosedLiteral (lexeme ahead : List UInt8) : Prop where
  isLexeme : IsByteLexeme .string lexeme
  closed : ∃ rest, ahead = lexeme ++ rest ∧ rest.head? ≠ some 0x27

/-- What the lexical grammar says is read at the offset `start`, where the bytes `ahead` start with
no blank. Before a quote only a literal can be read, elsewhere the longest match. -/
structure LexicalAnswer (start : Nat) (ahead : List UInt8)
    (answer : Except LexicalError (Option Token)) : Prop where
  endOfText : answer = .ok none ↔ ahead = []
  token : ahead.head? ≠ some 0x27 → ∀ t, answer = .ok (some t) ↔
    t.start = start ∧ LongestMatch t.kind (bytes t.text.toList) ahead
  unexpected : ahead ≠ [] → ahead.head? ≠ some 0x27 → ∀ e, answer = .error e ↔
    e = ⟨.unexpectedCharacter, start⟩ ∧
      ∀ kind front, front <+: ahead → ¬ IsByteLexeme kind front
  literal : ahead.head? = some 0x27 → ∀ t, answer = .ok (some t) ↔
    t.start = start ∧ t.kind = .string ∧ ClosedLiteral (bytes t.text.toList) ahead
  unterminated : ahead.head? = some 0x27 → ∀ e, answer = .error e ↔
    e = ⟨.unterminatedString, start⟩ ∧ ∀ lexeme, ¬ ClosedLiteral lexeme ahead

/-! ## The bytes ahead -/

section Ahead

variable {kind : TokenKind} {d : Char} {ds lexeme : List Char} {bs : List UInt8}

theorem bytesFrom_append {text : String} {offset : Nat} (front back : List UInt8)
    (h : bytesFrom text offset = front ++ back) :
    bytesFrom text (offset + front.length) = back := by
  rw [bytesFrom, ← List.drop_drop, ← bytesFrom, h, List.drop_left]

theorem bytesFrom_skipBlanks (text : String) (offset : Nat) :
    bytesFrom text (skipBlanks text offset) = (bytesFrom text offset).dropWhile isBlankByte :=
  bytesFrom_append _ _ List.takeWhile_append_dropWhile.symm

/-- The first byte of a text is a quote if its first character is. -/
theorem head?_bytes (cs : List Char) : (bytes cs).head? = some 0x27 ↔ cs.head? = some '\'' := by
  cases cs with
  | nil => exact ⟨nofun, nofun⟩
  | cons c cs =>
    rcases encode_cases c with ⟨-, b, hb, rfl⟩ | ⟨hlarge, hbytes⟩
    · rw [bytes_cons, hb]
      constructor
      · rintro ⟨⟩
        rfl
      · intro h
        have hbyte : Char.ofUInt8 b = Char.ofUInt8 0x27 := Option.some.inj h
        rw [ofUInt8_injective hbyte]
        rfl
    · constructor <;> intro h
      · obtain ⟨b, more, hb⟩ := List.exists_cons_of_ne_nil (String.utf8EncodeChar_ne_nil (c := c))
        rw [bytes_cons, hb] at h
        cases h
        exact absurd (hbytes 0x27 (by simp [hb])) (by decide)
      · cases h
        exact absurd hlarge (by decide)

/-- **The longest match of the bytes ahead is what is cut off the characters.** -/
theorem longestMatch_iff (hd : d ≠ '\'') :
    LongestMatch kind (bytes lexeme) (bytes (d :: ds)) ↔
      ∃ rest, Cut.first d ds = .ok ⟨kind, lexeme, rest⟩ := by
  constructor
  · rintro ⟨hmatch, hbytes, hlongest⟩
    obtain ⟨front, hfront, heq, hlexeme⟩ := (isByteLexeme_front_iff hmatch).1 hbytes
    cases bytes_injective heq
    cases hcut : Cut.first d ds with
    | error fault => exact absurd hlexeme (((first_eq_error_iff hd).1 hcut).2 _ _ hfront)
    | ok cut =>
      -- what is cut off starts with the match, and is no longer than it
      obtain ⟨more, hmore⟩ := front_of_first hcut hd hlexeme hfront
      have hsize := hlongest cut.kind (bytes cut.lexeme) (isPrefix_bytes ⟨_, Cut.first_append hcut⟩)
        (isLexeme_byteChars_iff.2 (isLexeme_of_first hcut))
      rw [← hmore, bytes_append, List.length_append, length_bytes more] at hsize
      have hnil : more = [] := Decidable.byContradiction fun hne => by
        have := byteSize_pos hne
        omega
      have hcut' := isLexeme_of_first hcut
      rw [hnil, List.append_nil] at hmore
      rw [← hmore] at hcut'
      exact ⟨cut.rest, by rw [hmore, kind_unique hlexeme hcut']⟩
  · rintro ⟨rest, hcut⟩
    refine ⟨isPrefix_bytes ⟨rest, Cut.first_append hcut⟩,
      isLexeme_byteChars_iff.2 (isLexeme_of_first hcut), ?_⟩
    intro kind' bs hmatch hbytes
    obtain ⟨front, hfront, rfl, hlexeme⟩ := (isByteLexeme_front_iff hmatch).1 hbytes
    exact (isPrefix_bytes (front_of_first hcut hd hlexeme hfront)).length_le

/-- **Nothing is cut off where no lexeme matches the bytes ahead.** -/
theorem no_match_iff (hd : d ≠ '\'') {fault : LexicalFault} :
    Cut.first d ds = .error fault ↔ fault = .unexpectedCharacter ∧
      ∀ kind bs, bs <+: bytes (d :: ds) → ¬ IsByteLexeme kind bs := by
  rw [first_eq_error_iff hd]
  refine and_congr_right fun _ => ⟨?_, ?_⟩
  · intro hnone kind bs hmatch hbytes
    obtain ⟨front, hfront, -, hlexeme⟩ := (isByteLexeme_front_iff hmatch).1 hbytes
    exact hnone kind front hfront hlexeme
  · intro hnone kind front hfront hlexeme
    exact hnone kind (bytes front) (isPrefix_bytes hfront) (isLexeme_byteChars_iff.2 hlexeme)

/-- **A literal of the bytes ahead is what is cut off the characters.** -/
theorem closedLiteral_iff :
    ClosedLiteral bs (bytes ('\'' :: ds)) ↔
      ∃ tail rest, quotedTail ds = some (tail, rest) ∧ bs = bytes ('\'' :: tail) := by
  constructor
  · rintro ⟨hbytes, more, hmore, hclosed⟩
    obtain ⟨front, ⟨rest, hrest⟩, rfl, hlexeme⟩ :=
      (isByteLexeme_front_iff ⟨more, hmore.symm⟩).1 hbytes
    obtain ⟨contents, rfl, hcontents⟩ := hlexeme
    rw [← hrest, bytes_append, List.append_cancel_left_eq] at hmore
    rw [← hmore, Ne, head?_bytes] at hclosed
    have hds : ds = contents ++ '\'' :: rest := by simpa using hrest.symm
    exact ⟨_, rest, quotedTail_eq_some_iff.2 ⟨contents, rfl, hcontents, hds, hclosed⟩, rfl⟩
  · rintro ⟨tail, rest, htail, rfl⟩
    obtain ⟨contents, rfl, hcontents, rfl, hclosed⟩ := quotedTail_eq_some_iff.1 htail
    refine ⟨isLexeme_byteChars_iff.2 ⟨contents, rfl, hcontents⟩, bytes rest, ?_, ?_⟩
    · rw [← bytes_append, List.cons_append, List.append_assoc, List.singleton_append]
    · rwa [Ne, head?_bytes]

end Ahead

/-! ## How a cursor moves -/

namespace Cursor

variable {text : String} {c : Cursor} {d : Char} {ds : List Char}

theorem next_of_inside {b : UInt8} {bs : List UInt8} (hinside : c.inside = b :: bs) :
    c.next = (.error ⟨.unexpectedCharacter, c.position⟩, ⟨c.position + 1, bs, c.rest⟩) := by
  rw [next, hinside]

theorem next_of_blanks (hinside : c.inside = [])
    (hrest : c.rest.dropWhile Char.isWhitespace = []) :
    c.next =
      (.ok none, ⟨c.position + (c.rest.takeWhile Char.isWhitespace).length, [], []⟩) := by
  rw [next, hinside, Reading.ofChars, hrest]

theorem next_of_first (hinside : c.inside = [])
    (hrest : c.rest.dropWhile Char.isWhitespace = d :: ds) :
    c.next =
      let start := c.position + (c.rest.takeWhile Char.isWhitespace).length
      match Cut.first d ds with
      | .ok cut => (.ok (some ⟨cut.kind, String.ofList cut.lexeme, start⟩),
          ⟨start + byteSize cut.lexeme, [], cut.rest⟩)
      | .error .unterminatedString =>
        (.error ⟨.unterminatedString, start⟩, ⟨c.position + byteSize c.rest, [], []⟩)
      | .error .unexpectedCharacter =>
        (.error ⟨.unexpectedCharacter, start⟩,
          ⟨start + 1, (String.utf8EncodeChar d).tail, ds⟩) := by
  rw [next, hinside, Reading.ofChars, hrest]
  dsimp only
  cases Cut.first d ds with
  | ok cut => simp only [Token.stop, utf8ByteSize_ofList]
  | error fault => cases fault <;> rfl

/-- What `next` can do: what it answers, and where it leaves the cursor. -/
inductive Moves : Cursor → Except LexicalError (Option Token) → Cursor → Prop where
  /-- Inside a character no lexeme starts. -/
  | inside {position : Nat} {b : UInt8} {bs : List UInt8} {rest : List Char} :
    Moves ⟨position, b :: bs, rest⟩ (.error ⟨.unexpectedCharacter, position⟩)
      ⟨position + 1, bs, rest⟩
  | endOfText {position : Nat} {blanks : List Char} (h : ∀ c ∈ blanks, c.isWhitespace = true) :
    Moves ⟨position, [], blanks⟩ (.ok none) ⟨position + byteSize blanks, [], []⟩
  | token {position : Nat} {blanks lexeme rest : List Char} {kind : TokenKind}
      (h : ∀ c ∈ blanks, c.isWhitespace = true) (hlexeme : IsLexeme kind lexeme) :
    Moves ⟨position, [], blanks ++ (lexeme ++ rest)⟩
      (.ok (some ⟨kind, String.ofList lexeme, position + byteSize blanks⟩))
      ⟨position + byteSize blanks + byteSize lexeme, [], rest⟩
  | unterminated {position : Nat} {blanks cs : List Char}
      (h : ∀ c ∈ blanks, c.isWhitespace = true) :
    Moves ⟨position, [], blanks ++ '\'' :: cs⟩
      (.error ⟨.unterminatedString, position + byteSize blanks⟩)
      ⟨position + byteSize blanks + byteSize ('\'' :: cs), [], []⟩
  | unexpected {position : Nat} {blanks cs : List Char} {d : Char}
      (h : ∀ c ∈ blanks, c.isWhitespace = true) (hd : d.isWhitespace = false) :
    Moves ⟨position, [], blanks ++ d :: cs⟩
      (.error ⟨.unexpectedCharacter, position + byteSize blanks⟩)
      ⟨position + byteSize blanks + 1, (String.utf8EncodeChar d).tail, cs⟩

/-- **A call of `next` does one of these.** -/
theorem moves_next (c : Cursor) : Moves c c.next.1 c.next.2 := by
  obtain ⟨position, inside, rest⟩ := c
  cases inside with
  | cons b bs =>
    rw [next_of_inside rfl]
    exact .inside
  | nil =>
    have hblank : ∀ c ∈ rest.takeWhile Char.isWhitespace, c.isWhitespace = true :=
      fun c hc => List.all_eq_true.1 List.all_takeWhile c hc
    have hsplit := List.takeWhile_append_dropWhile (p := Char.isWhitespace) (l := rest)
    have hsize := byteSize_blanks rest
    cases hrest : rest.dropWhile Char.isWhitespace with
    | nil =>
      rw [next_of_blanks rfl hrest, ← hsize]
      rw [hrest, List.append_nil] at hsplit
      rw [hsplit] at hblank ⊢
      exact .endOfText hblank
    | cons d ds =>
      have hd : d.isWhitespace = false := by
        simpa [hrest] using List.head?_dropWhile_not Char.isWhitespace rest
      rw [next_of_first rfl hrest]
      rw [hrest] at hsplit
      dsimp only
      rw [← hsize]
      generalize rest.takeWhile Char.isWhitespace = blanks at hblank hsplit ⊢
      subst hsplit
      cases hcut : Cut.first d ds with
      | ok cut =>
        rw [← Cut.first_append hcut]
        exact .token hblank (isLexeme_of_first hcut)
      | error fault =>
        cases fault with
        | unterminatedString =>
          obtain rfl : d = '\'' := Decidable.byContradiction fun hne => by
            have := fault_of_first hcut hne
            contradiction
          rw [byteSize_append, ← Nat.add_assoc]
          exact .unterminated hblank
        | unexpectedCharacter => exact .unexpected hblank hd

/-- What going over a byte does: inside a character it goes on in this, and else it goes over the
first byte of the next character. -/
theorem step?_cases {b : UInt8} {after : Cursor} (h : c.step? = some (b, after)) :
    (∃ bs, c.inside = b :: bs ∧ after = ⟨c.position + 1, bs, c.rest⟩) ∨
      ∃ d ds bs, c.inside = [] ∧ c.rest = d :: ds ∧ String.utf8EncodeChar d = b :: bs ∧
        after = ⟨c.position + 1, bs, ds⟩ := by
  unfold step? at h
  split at h
  · rename_i hinside
    cases h
    exact .inl ⟨_, hinside, rfl⟩
  · rename_i d ds hinside hrest
    split at h <;> cases h
    rename_i hd
    exact .inr ⟨d, ds, _, hinside, hrest, hd, rfl⟩
  · cases h

/-- What moves by tokens and by bytes keep is true of every cursor that a text is read with. -/
theorem Reached.invariant {P : Cursor → Prop} (hstart : P (.ofText text))
    (hmove : ∀ {c : Cursor}, P c → Moves c c.next.1 c.next.2 → P c.next.2)
    (hstep : ∀ {c : Cursor} {b : UInt8} {after : Cursor}, P c → c.step? = some (b, after) → P after)
    (h : Reached text c) : P c := by
  induction h with
  | start => exact hstart
  | next _ ih => exact hmove ih (moves_next _)
  | takeByte _ b ih =>
    unfold Cursor.takeByte
    split
    · split
      · exact hstep ih ‹_›
      · exact ih
    · exact ih

/-! ## Where a cursor stands -/

/-- What every cursor of a text keeps to: the bytes ahead are those of the text from its position
on, and inside a character there are bytes from 128 on only. -/
structure Within (text : String) (c : Cursor) : Prop where
  ahead : bytesFrom text c.position = c.bytesAhead
  inside : ∀ b ∈ c.inside, 128 ≤ b.toNat

theorem within_ofText (text : String) : Within text (.ofText text) := ⟨rfl, nofun⟩

/-- The bytes of a character after its first one. -/
theorem tail_encode (d : Char) : ∀ b ∈ (String.utf8EncodeChar d).tail, 128 ≤ b.toNat := by
  intro b hb
  rcases encode_cases d with ⟨-, b', hb', -⟩ | ⟨-, hbytes⟩
  · rw [hb'] at hb
    cases hb
  · exact hbytes b (List.mem_of_mem_tail hb)

theorem Within.step (h : Within text c) {b : UInt8} {after : Cursor}
    (hstep : c.step? = some (b, after)) : Within text after ∧ after.position = c.position + 1 := by
  obtain ⟨hahead, hinside⟩ := h
  rcases step?_cases hstep with ⟨bs, hbytes, rfl⟩ | ⟨d, ds, bs, hnone, hrest, hd, rfl⟩
  · rw [hbytes] at hinside
    refine ⟨⟨bytesFrom_append [b] _ ?_, (List.forall_mem_cons.1 hinside).2⟩, rfl⟩
    rw [hahead, bytesAhead, hbytes]
    rfl
  · refine ⟨⟨bytesFrom_append [b] _ ?_, by simpa [hd] using tail_encode d⟩, rfl⟩
    rw [hahead, bytesAhead, hnone, hrest, bytes_cons, hd]
    rfl

theorem Within.move (h : Within text c) {answer : Except LexicalError (Option Token)}
    {after : Cursor} (hmove : Moves c answer after) : Within text after := by
  obtain ⟨hahead, hinside⟩ := h
  cases hmove with
  | @inside position b => exact ⟨bytesFrom_append [b] _ hahead, (List.forall_mem_cons.1 hinside).2⟩
  | @endOfText position blanks =>
    rw [← length_bytes]
    refine ⟨bytesFrom_append _ [] ?_, nofun⟩
    rw [hahead, List.append_nil]
    rfl
  | @token position blanks lexeme rest =>
    rw [Nat.add_assoc, ← byteSize_append, ← length_bytes]
    refine ⟨bytesFrom_append _ _ ?_, nofun⟩
    show bytesFrom text position = bytes (blanks ++ lexeme) ++ bytes rest
    rw [hahead, ← bytes_append, List.append_assoc]
    rfl
  | @unterminated position blanks cs =>
    rw [Nat.add_assoc, ← byteSize_append, ← length_bytes]
    refine ⟨bytesFrom_append _ [] ?_, nofun⟩
    rw [hahead, List.append_nil]
    rfl
  | @unexpected position blanks cs d =>
    obtain ⟨b, bs, hd⟩ := List.exists_cons_of_ne_nil (String.utf8EncodeChar_ne_nil (c := d))
    rw [Nat.add_assoc, ← length_bytes, show 1 = [b].length from rfl, ← List.length_append]
    refine ⟨bytesFrom_append _ _ ?_, tail_encode d⟩
    rw [hahead, hd]
    simp [bytesAhead, bytes_append, bytes_cons, hd]

/-- Where reading starts: the blanks are skipped in bytes as they are in characters. -/
theorem Within.skipBlanks (h : Within text c) (hinside : c.inside = []) :
    skipBlanks text c.position = c.position + (c.rest.takeWhile Char.isWhitespace).length ∧
      bytesFrom text (skipBlanks text c.position) =
        bytes (c.rest.dropWhile Char.isWhitespace) := by
  obtain ⟨htake, hdrop⟩ := skip_blanks c.rest
  have hahead : bytesFrom text c.position = bytes c.rest := by
    rw [h.ahead, bytesAhead, hinside, List.nil_append]
  exact ⟨by rw [Dql.skipBlanks, hahead, htake], by rw [bytesFrom_skipBlanks, hahead, hdrop]⟩

/-- **Every cursor that a text is read with keeps to the text.** -/
theorem Reached.within (h : Reached text c) : Within text c :=
  h.invariant (within_ofText text) (fun hc hmove => hc.move hmove) fun hc hstep => (hc.step hstep).1

theorem exists_step (h : c.bytesAhead ≠ []) : ∃ b after, c.step? = some (b, after) := by
  unfold step?
  split
  · exact ⟨_, _, rfl⟩
  · split
    · exact ⟨_, _, rfl⟩
    · rename_i hnil
      exact absurd hnil String.utf8EncodeChar_ne_nil
  · rename_i hinside hrest
    simp [bytesAhead, hinside, hrest] at h

/-- **A cursor can stand at every byte of a text and at its end.** -/
theorem exists_reached {position : Nat} (h : position ≤ text.utf8ByteSize) :
    ∃ c, Reached text c ∧ c.position = position := by
  induction position with
  | zero => exact ⟨_, .start, rfl⟩
  | succ position ih =>
    obtain ⟨c, hc, rfl⟩ := ih (Nat.le_of_succ_le h)
    have hne : c.bytesAhead ≠ [] := by
      rw [← hc.within.ahead, bytesFrom, ← List.length_pos_iff, List.length_drop, length_bytes,
        ← utf8ByteSize_eq_byteSize]
      omega
    obtain ⟨b, after, hstep⟩ := exists_step hne
    have htake : (c.takeByte b).2 = after := by simp [Cursor.takeByte, hstep]
    exact ⟨after, htake ▸ hc.takeByte b, (hc.within.step hstep).2⟩

/-! ## What is read -/

theorem next_eq_token_iff (hinside : c.inside = [])
    (hrest : c.rest.dropWhile Char.isWhitespace = d :: ds) {t : Token} :
    c.next.1 = .ok (some t) ↔
      t.start = c.position + (c.rest.takeWhile Char.isWhitespace).length ∧
        ∃ rest, Cut.first d ds = .ok ⟨t.kind, t.text.toList, rest⟩ := by
  rw [next_of_first hinside hrest]
  cases Cut.first d ds with
  | ok cut =>
    constructor
    · rintro ⟨⟩
      exact ⟨rfl, cut.rest, by rw [String.toList_ofList]⟩
    · rintro ⟨hstart, rest, ⟨⟩⟩
      dsimp only
      rw [String.ofList_toList, ← hstart]
  | error fault => cases fault <;> exact ⟨nofun, nofun⟩

theorem next_eq_error_iff (hinside : c.inside = [])
    (hrest : c.rest.dropWhile Char.isWhitespace = d :: ds) {e : LexicalError} :
    c.next.1 = .error e ↔
      e.position = c.position + (c.rest.takeWhile Char.isWhitespace).length ∧
        Cut.first d ds = .error e.fault := by
  rw [next_of_first hinside hrest]
  obtain ⟨fault, position⟩ := e
  cases Cut.first d ds with
  | ok cut => exact ⟨nofun, nofun⟩
  | error fault' => cases fault' <;> simp [and_comm, eq_comm]

/-- Inside a character no lexeme starts. -/
theorem lexicalAnswer_of_inside {position : Nat} {b : UInt8} {more : List UInt8}
    (hb : 128 ≤ b.toNat) :
    LexicalAnswer position (b :: more) (.error ⟨.unexpectedCharacter, position⟩) := by
  have hnone : ∀ kind front, front <+: b :: more → ¬ IsByteLexeme kind front := by
    rintro kind front ⟨rest, hrest⟩ hlexeme
    obtain ⟨b', bs, rfl⟩ := List.exists_cons_of_ne_nil (ne_nil_of_isByteLexeme hlexeme)
    have hsmall := head_of_isByteLexeme hlexeme
    rw [(List.cons.inj hrest).1] at hsmall
    omega
  have hquote : (b :: more).head? ≠ some 0x27 := by
    rintro ⟨⟩
    exact absurd hb (by decide)
  exact {
    endOfText := ⟨nofun, nofun⟩
    token := fun _ t => ⟨nofun, fun h => absurd h.2.isLexeme (hnone _ _ h.2.front)⟩
    unexpected := fun _ _ e => ⟨by rintro ⟨⟩; exact ⟨rfl, hnone⟩, fun h => h.1 ▸ rfl⟩
    literal := fun h => absurd h hquote
    unterminated := fun h => absurd h hquote }

theorem lexicalAnswer_of_blanks (start : Nat) : LexicalAnswer start [] (.ok none) where
  endOfText := ⟨fun _ => rfl, fun _ => rfl⟩
  token _ _ := ⟨nofun, fun h => absurd (List.prefix_nil.1 h.2.front)
    (ne_nil_of_isByteLexeme h.2.isLexeme)⟩
  unexpected h := absurd rfl h
  literal := nofun
  unterminated := nofun

theorem lexicalAnswer_of_first (hinside : c.inside = [])
    (hrest : c.rest.dropWhile Char.isWhitespace = d :: ds) :
    LexicalAnswer (c.position + (c.rest.takeWhile Char.isWhitespace).length) (bytes (d :: ds))
      c.next.1 := by
  have hquote : (bytes (d :: ds)).head? = some 0x27 ↔ d = '\'' := by
    simp [head?_bytes]
  constructor
  case endOfText =>
    rw [next_of_first hinside hrest]
    constructor
    · cases Cut.first d ds with
      | ok cut => exact nofun
      | error fault => cases fault <;> exact nofun
    · exact fun h => absurd (bytes_injective h) (List.cons_ne_nil d ds)
  case token =>
    intro hne t
    rw [next_eq_token_iff hinside hrest, longestMatch_iff (mt hquote.2 hne)]
  case unexpected =>
    intro _ hne ⟨fault, position⟩
    rw [next_eq_error_iff hinside hrest, no_match_iff (mt hquote.2 hne), LexicalError.mk.injEq]
    exact ⟨fun ⟨h₁, h₂, h₃⟩ => ⟨⟨h₂, h₁⟩, h₃⟩, fun ⟨⟨h₂, h₁⟩, h₃⟩ => ⟨h₁, h₂, h₃⟩⟩
  case literal =>
    intro heq t
    obtain rfl := hquote.1 heq
    rw [next_eq_token_iff hinside hrest, closedLiteral_iff, first_of_quote]
    refine and_congr_right fun _ => ?_
    cases quotedTail ds with
    | none => exact ⟨nofun, nofun⟩
    | some cut =>
      constructor
      · rintro ⟨rest, h⟩
        injection h with h
        injection h with hkind htext _
        exact ⟨hkind.symm, cut.1, cut.2, rfl, by rw [htext]⟩
      · rintro ⟨hkind, tail, rest, ⟨⟩, htext⟩
        rw [hkind, bytes_injective htext]
        exact ⟨rest, rfl⟩
  case unterminated =>
    intro heq ⟨fault, position⟩
    obtain rfl := hquote.1 heq
    rw [next_eq_error_iff hinside hrest, first_of_quote, LexicalError.mk.injEq]
    cases htail : quotedTail ds with
    | none =>
      have hnone : ∀ lexeme, ¬ ClosedLiteral lexeme (bytes ('\'' :: ds)) := by
        intro lexeme h
        obtain ⟨tail, rest, hsome, -⟩ := closedLiteral_iff.1 h
        rw [htail] at hsome
        cases hsome
      constructor
      · rintro ⟨hposition, hfault⟩
        injection hfault with hfault
        exact ⟨⟨hfault.symm, hposition⟩, hnone⟩
      · rintro ⟨⟨rfl, hposition⟩, -⟩
        exact ⟨hposition, rfl⟩
    | some cut =>
      exact ⟨nofun, fun h => absurd (closedLiteral_iff.2 ⟨cut.1, cut.2, htail, rfl⟩) (h.2 _)⟩

/-- **What is read next is what the lexical grammar says**, wherever the cursor stands: nothing at
the end of the text, before a quote the literal up to the quote that closes it, and elsewhere the
longest match of any kind, all after the blanks. -/
theorem next_takes_longest_match (h : Reached text c) :
    LexicalAnswer (Dql.skipBlanks text c.position)
      (bytesFrom text (Dql.skipBlanks text c.position)) c.next.1 := by
  have hwithin := h.within
  cases hinside : c.inside with
  | cons b bs =>
    have hb : 128 ≤ b.toNat := hwithin.inside b (by simp [hinside])
    have hahead : bytesFrom text c.position = b :: (bs ++ bytes c.rest) := by
      rw [hwithin.ahead, bytesAhead, hinside, List.cons_append]
    have hstart : Dql.skipBlanks text c.position = c.position := by
      rw [Dql.skipBlanks, hahead, List.takeWhile_cons_of_neg (by simp [isBlankByte_of_large hb])]
      rfl
    rw [hstart, hahead, next_of_inside hinside]
    exact lexicalAnswer_of_inside hb
  | nil =>
    obtain ⟨hstart, hahead⟩ := hwithin.skipBlanks hinside
    rw [hahead, hstart]
    cases hrest : c.rest.dropWhile Char.isWhitespace with
    | nil =>
      rw [next_of_blanks hinside hrest]
      exact lexicalAnswer_of_blanks _
    | cons d ds => exact lexicalAnswer_of_first hinside hrest

/-- A dotted name ends before a dot that no name follows. -/
theorem next_takes_dotted_name :
    Reached " a.b.5" (.ofText " a.b.5") ∧
      LexicalAnswer 1 [0x61, 0x2E, 0x62, 0x2E, 0x35] (.ok (some ⟨.path, "a.b", 1⟩)) :=
  have hstart : Reached " a.b.5" (.ofText " a.b.5") := .start
  ⟨hstart, next_takes_longest_match hstart⟩

end Cursor

end Dql
