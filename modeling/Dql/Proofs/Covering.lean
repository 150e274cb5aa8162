import Mathlib.Data.List.TakeWhile
import Dql.Proofs.Cursors

/-!
# Nothing of a text is lost

Whatever is done with a cursor, it stays within its text, and every token that it gives stands
there between two characters. Called again and again, `next` goes over all bytes of the text once
and in order: blanks, tokens, single bytes that start no lexeme, and the end of a text whose last
literal is not closed.

* `Token.StandsIn` - a token and the part of the text that it was read from;
* `Cursor.blanks`, `Cursor.taken` - the bytes that a call goes over;
* `Cursor.Tells`, `Cursor.Accounts` - what its answer says about them;
* `Cursor.Calls` - the calls from some cursor on, up to the end of the text.

Principal results: `Cursor.accounts` and `Cursor.loses_nothing` - one call and all calls of `next`.
-/

namespace Dql

/-- The token was read from the text: it takes up at least one byte of it, both its ends are between
two characters, and in between is its text. A literal has its quotes. -/
structure Token.StandsIn (text : String) (t : Token) : Prop where
  start_lt_stop : t.start < t.stop
  stop_le : t.stop ≤ text.utf8ByteSize
  start_isValid : String.Pos.Raw.IsValid text ⟨t.start⟩
  stop_isValid : String.Pos.Raw.IsValid text ⟨t.stop⟩
  slice : ∃ front back : String, text = front ++ t.text ++ back ∧ front.utf8ByteSize = t.start
  quotes : t.kind = .string → 2 ≤ t.stop - t.start ∧ t.text = "'" ++ t.contents ++ "'"

namespace Cursor

/-! ## Within the text -/

variable {text : String} {c : Cursor}

theorem length_tail_encode (d : Char) :
    (String.utf8EncodeChar d).tail.length + 1 = d.utf8Size := by
  rw [List.length_tail, String.length_utf8EncodeChar]
  exact Nat.sub_add_cancel (Char.utf8Size_pos d)

/-- Where a cursor is in a text: after the characters in front of those ahead of it. Of the last one
it may still have some bytes to go. -/
def StandsIn (text : String) (c : Cursor) : Prop :=
  ∃ front, text.toList = front ++ c.rest ∧ byteSize front = c.position + c.inside.length

theorem standsIn_ofText (text : String) : StandsIn text (.ofText text) := ⟨[], rfl, rfl⟩

theorem StandsIn.move (h : StandsIn text c) {answer : Except LexicalError (Option Token)}
    {after : Cursor} (hmove : Moves c answer after) : StandsIn text after := by
  obtain ⟨front, htext, hsize⟩ := h
  cases hmove with
  | inside =>
    refine ⟨front, htext, ?_⟩
    simp only [List.length_cons] at hsize ⊢
    omega
  | @endOfText position blanks =>
    simp only [List.length_nil, Nat.add_zero] at hsize
    exact ⟨front ++ blanks, by simpa using htext, by simp [hsize]⟩
  | @token position blanks lexeme rest =>
    simp only [List.length_nil, Nat.add_zero] at hsize
    exact ⟨front ++ blanks ++ lexeme, by simpa using htext, by simp [hsize, Nat.add_assoc]⟩
  | @unterminated position blanks cs =>
    simp only [List.length_nil, Nat.add_zero] at hsize
    exact ⟨front ++ blanks ++ '\'' :: cs, by simpa using htext, by simp [hsize, Nat.add_assoc]⟩
  | @unexpected position blanks cs d =>
    have hd := length_tail_encode d
    simp only [List.length_nil, Nat.add_zero] at hsize
    refine ⟨front ++ blanks ++ [d], by simpa using htext, ?_⟩
    simp only [byteSize_append, byteSize_cons, byteSize_nil, hsize]
    omega

theorem StandsIn.step (h : StandsIn text c) {b : UInt8} {after : Cursor}
    (hstep : c.step? = some (b, after)) : StandsIn text after := by
  obtain ⟨front, htext, hsize⟩ := h
  rcases step?_cases hstep with ⟨bs, hbytes, rfl⟩ | ⟨d, ds, bs, hnone, hrest, hd, rfl⟩
  · refine ⟨front, htext, ?_⟩
    rw [hbytes, List.length_cons] at hsize
    show byteSize front = c.position + 1 + bs.length
    omega
  · have hlength := length_tail_encode d
    rw [hd, List.tail_cons] at hlength
    rw [hnone, List.length_nil] at hsize
    refine ⟨front ++ [d], by simpa [hrest] using htext, ?_⟩
    simp only [byteSize_append, byteSize_cons, byteSize_nil]
    omega

/-- **Every cursor that a text is read with stands in the text.** -/
theorem Reached.standsIn (h : Reached text c) : StandsIn text c :=
  h.invariant (standsIn_ofText text) (fun hc hmove => hc.move hmove) fun hc hstep => hc.step hstep

theorem StandsIn.position_le (h : StandsIn text c) : c.position ≤ text.utf8ByteSize := by
  obtain ⟨front, htext, hsize⟩ := h
  rw [utf8ByteSize_eq_byteSize, htext, byteSize_append]
  omega

/-- The end of the front of a text is between two characters. -/
theorem isValid_of_append {text front back : String} (h : text = front ++ back) {offset : Nat}
    (hoffset : front.utf8ByteSize = offset) : String.Pos.Raw.IsValid text ⟨offset⟩ :=
  String.Pos.Raw.isValid_iff_exists_append.2 ⟨front, back, h, by rw [← hoffset]; rfl⟩

/-- A literal has two quotes around its contents. -/
theorem quotes_of_isLexeme {lexeme : List Char} (start : Nat) (h : IsLexeme .string lexeme) :
    let t : Token := ⟨.string, String.ofList lexeme, start⟩
    2 ≤ byteSize lexeme ∧ t.text = "'" ++ t.contents ++ "'" := by
  obtain ⟨contents, rfl, -⟩ := h
  have hquote : ('\'' : Char).utf8Size = 1 := rfl
  refine ⟨?_, by simp [Token.contents, String.append_assoc]⟩
  simp only [List.cons_append, byteSize_cons, byteSize_append, byteSize_nil, hquote]
  omega

/-- **A token that is read stands in the text.** -/
theorem StandsIn.token (h : StandsIn text c) {t : Token} {after : Cursor}
    (hmove : Moves c (.ok (some t)) after) : t.StandsIn text := by
  obtain ⟨front, htext, hsize⟩ := h
  cases hmove with
  | @token position blanks lexeme rest kind hblanks hlexeme =>
    simp only [List.length_nil, Nat.add_zero] at hsize
    have hpos := byteSize_pos (ne_nil_of_isLexeme hlexeme)
    have hslice : text = String.ofList (front ++ blanks) ++ String.ofList lexeme ++
        String.ofList rest := by
      rw [← String.ofList_append, ← String.ofList_append, ← String.ofList_toList (s := text), htext]
      simp
    have hfront : (String.ofList (front ++ blanks)).utf8ByteSize = position + byteSize blanks := by
      rw [utf8ByteSize_ofList, byteSize_append, hsize]
    have hstop : Token.stop ⟨kind, String.ofList lexeme, position + byteSize blanks⟩ =
        position + byteSize blanks + byteSize lexeme := by
      rw [Token.stop, utf8ByteSize_ofList]
    constructor
    case start_lt_stop =>
      rw [hstop]
      exact Nat.lt_add_of_pos_right hpos
    case stop_le =>
      rw [hstop, utf8ByteSize_eq_byteSize, htext]
      simp only [byteSize_append]
      omega
    case start_isValid => exact isValid_of_append (hslice.trans String.append_assoc) hfront
    case stop_isValid =>
      refine isValid_of_append hslice ?_
      rw [hstop, String.utf8ByteSize_append, hfront, utf8ByteSize_ofList]
    case slice => exact ⟨_, _, hslice, hfront⟩
    case quotes =>
      rintro rfl
      obtain ⟨hsize, hquotes⟩ := quotes_of_isLexeme (position + byteSize blanks) hlexeme
      exact ⟨by rw [hstop, Nat.add_sub_cancel_left]; exact hsize, hquotes⟩

/-! ## What a call goes over -/

/-- The bytes that a call of `next` goes over. -/
def passed (c : Cursor) : List UInt8 := c.bytesAhead.take (c.next.2.position - c.position)

/-- The blanks that it skips first. -/
def blanks (c : Cursor) : List UInt8 := c.passed.takeWhile isBlankByte

/-- The bytes after those, which its answer is about. -/
def taken (c : Cursor) : List UInt8 := c.passed.dropWhile isBlankByte

/-- What an answer of `next` says of the bytes that the call goes over from the offset `start` on,
blanks skipped, and of those that it leaves: there are none at the end of the text; a token is where
it says that it is; one byte starts no lexeme; and a literal that is not closed takes all bytes from
its quote on. -/
def Tells (start : Nat) (taken left : List UInt8) : Except LexicalError (Option Token) → Prop
  | .ok none => taken = [] ∧ left = []
  | .ok (some t) => t.start = start ∧ t.stop = start + taken.length ∧ taken = bytes t.text.toList
  | .error ⟨.unexpectedCharacter, position⟩ => position = start ∧ taken.length = 1
  | .error ⟨.unterminatedString, position⟩ =>
    position = start ∧ taken.head? = some 0x27 ∧ left = []

/-- A call of `next` loses nothing: the bytes ahead are some blanks, those that its answer tells of
and those that it leaves. -/
structure Accounts (c : Cursor) : Prop where
  ahead : c.bytesAhead = c.blanks ++ (c.taken ++ c.next.2.bytesAhead)
  blank : ∀ b ∈ c.blanks, isBlankByte b = true
  position : c.next.2.position = c.position + c.blanks.length + c.taken.length
  answer : Tells (c.position + c.blanks.length) c.taken c.next.2.bytesAhead c.next.1

/-- Blanks are blank bytes. -/
theorem isBlankByte_of_blanks {cs : List Char} (h : ∀ c ∈ cs, c.isWhitespace = true) :
    ∀ b ∈ bytes cs, isBlankByte b = true := by
  have hdrop : cs.dropWhile Char.isWhitespace = [] := List.dropWhile_eq_nil_iff.2 h
  apply List.dropWhile_eq_nil_iff.1
  rw [(skip_blanks cs).2, hdrop]
  rfl

/-- A text that starts with no blank starts with a byte that is no blank. -/
theorem isBlankByte_head {d : Char} (cs : List Char) (hd : d.isWhitespace = false) :
    ∀ b ∈ (bytes (d :: cs)).head?, isBlankByte b = false := by
  intro b hb
  have hdrop := (skip_blanks (d :: cs)).2
  rw [List.dropWhile_cons_of_neg (by simp [hd])] at hdrop
  have hhead := List.head?_dropWhile_not isBlankByte (bytes (d :: cs))
  rw [hdrop, Option.mem_def.1 hb] at hhead
  simpa using hhead

/-- The bytes that a call goes over are split after the blanks. -/
theorem accounts_of_split (front : List Char) (more : List UInt8)
    (hahead : c.bytesAhead = bytes front ++ (more ++ c.next.2.bytesAhead))
    (hposition : c.next.2.position = c.position + byteSize front + more.length)
    (hfront : ∀ x ∈ front, x.isWhitespace = true)
    (hmore : ∀ b ∈ more.head?, isBlankByte b = false)
    (hanswer : Tells (c.position + byteSize front) more c.next.2.bytesAhead c.next.1) :
    c.Accounts := by
  have hlength : c.next.2.position - c.position = (bytes front ++ more).length := by
    rw [List.length_append, length_bytes]
    omega
  have hpassed : c.passed = bytes front ++ more := by
    rw [passed, hahead, hlength, ← List.append_assoc, List.take_left]
  have hblank := isBlankByte_of_blanks hfront
  obtain ⟨htake, hdrop⟩ := span_append hblank hmore
  have hblanks : c.blanks = bytes front := by rw [blanks, hpassed, htake]
  have htaken : c.taken = more := by rw [taken, hpassed, hdrop]
  constructor
  case ahead => rw [hblanks, htaken, hahead]
  case blank => rwa [hblanks]
  case position => rw [hblanks, htaken, hposition, length_bytes]
  case answer => rwa [hblanks, htaken, length_bytes]

/-- **A call of `next` loses nothing**, wherever the cursor stands. -/
theorem accounts (hc : Within text c) : c.Accounts := by
  have hinside := hc.inside
  have hmove := moves_next c
  generalize hanswer : c.next.1 = answer, hafter : c.next.2 = after at hmove
  cases hmove with
  | @inside position b bs rest =>
    have hlarge : 128 ≤ b.toNat := hinside b List.mem_cons_self
    refine accounts_of_split [] [b] ?_ ?_ nofun ?_ ?_
    · rw [hafter]
      rfl
    · rw [hafter]
      rfl
    · rintro b' ⟨⟩
      exact isBlankByte_of_large hlarge
    · rw [hanswer]
      exact ⟨rfl, rfl⟩
  | @endOfText position blanks h =>
    refine accounts_of_split blanks [] ?_ ?_ h nofun ?_
    · rw [hafter]
      simp [bytesAhead]
    · rw [hafter]
      rfl
    · rw [hafter, hanswer]
      exact ⟨rfl, rfl⟩
  | @token position blanks lexeme rest kind h hlexeme =>
    obtain ⟨d, ds, hd⟩ := List.exists_cons_of_ne_nil (ne_nil_of_isLexeme hlexeme)
    refine accounts_of_split blanks (bytes lexeme) ?_ ?_ h ?_ ?_
    · rw [hafter]
      simp [bytesAhead, bytes_append]
    · rw [hafter, length_bytes]
    · subst hd
      exact isBlankByte_head ds (isWhitespace_of_isLexeme hlexeme)
    · rw [hanswer]
      refine ⟨rfl, ?_, by rw [String.toList_ofList]⟩
      rw [Token.stop, utf8ByteSize_ofList, length_bytes]
  | @unterminated position blanks cs h =>
    refine accounts_of_split blanks (bytes ('\'' :: cs)) ?_ ?_ h ?_ ?_
    · rw [hafter]
      simp [bytesAhead, bytes_append]
    · rw [hafter, length_bytes]
    · exact isBlankByte_head cs (by decide)
    · rw [hanswer, hafter]
      exact ⟨rfl, (head?_bytes ('\'' :: cs)).2 rfl, rfl⟩
  | @unexpected position blanks cs d h hd =>
    obtain ⟨b, bs, hb⟩ := List.exists_cons_of_ne_nil (String.utf8EncodeChar_ne_nil (c := d))
    have hfirst := isBlankByte_head cs hd
    rw [bytes_cons, hb] at hfirst
    refine accounts_of_split blanks [b] ?_ ?_ h ?_ ?_
    · rw [hafter]
      simp [bytesAhead, bytes_append, bytes_cons, hb]
    · rw [hafter]
      rfl
    · exact hfirst
    · rw [hanswer]
      exact ⟨rfl, rfl⟩

/-! ## Call after call -/

/-- Before the end of the text every call moves the cursor on. -/
theorem Moves.lt {answer : Except LexicalError (Option Token)} {after : Cursor}
    (h : Moves c answer after) (hanswer : answer ≠ .ok none) : c.position < after.position := by
  cases h with
  | inside => exact Nat.lt_succ_self _
  | endOfText => exact absurd rfl hanswer
  | @token position blanks lexeme rest kind _ hlexeme =>
    have hpos := byteSize_pos (ne_nil_of_isLexeme hlexeme)
    show position < position + byteSize blanks + byteSize lexeme
    omega
  | @unterminated position blanks cs =>
    have hpos := byteSize_pos (List.cons_ne_nil '\'' cs)
    show position < position + byteSize blanks + byteSize ('\'' :: cs)
    omega
  | @unexpected position blanks =>
    show position < position + byteSize blanks + 1
    omega

/-- The call that finds no more token leaves the cursor at the end of the text. -/
theorem StandsIn.position_of_end (h : StandsIn text c) {after : Cursor}
    (hmove : Moves c (.ok none) after) : after.position = text.utf8ByteSize := by
  obtain ⟨front, htext, hsize⟩ := h.move hmove
  rw [utf8ByteSize_eq_byteSize, htext, byteSize_append, hsize]
  cases hmove
  rfl

/-- **Every call moves the cursor on**, until the end of the text is reached. -/
theorem Reached.next_lt (hc : Reached text c)
    (h : c.position < text.utf8ByteSize ∨ c.next.1 ≠ .ok none) :
    c.position < c.next.2.position := by
  have hmove := moves_next c
  by_cases hnext : c.next.1 = .ok none
  · rw [hnext] at hmove
    rw [hc.standsIn.position_of_end hmove]
    exact h.resolve_right (not_not_intro hnext)
  · exact hmove.lt hnext

/-- The calls of `next` from a cursor on, up to the first that is at the end of the text: the
cursors that they start at. -/
inductive Calls : Cursor → List Cursor → Prop where
  | last {c : Cursor} (h : c.next.1 = .ok none) : Calls c [c]
  | more {c : Cursor} {cs : List Cursor} (h : c.next.1 ≠ .ok none) (hcs : Calls c.next.2 cs) :
    Calls c (c :: cs)

/-- **The calls go over all bytes ahead in order**, and there is at most one for each byte and one
more at the end. -/
theorem exists_calls {n : Nat} {c : Cursor} (hc : Reached text c) (hn : c.bytesAhead.length ≤ n) :
    ∃ cs, Calls c cs ∧ cs.length ≤ n + 1 ∧
      c.bytesAhead = cs.flatMap (fun c' => c'.blanks ++ c'.taken) ∧
      ∀ c' ∈ cs, Reached text c' := by
  have haccounts := accounts hc.within
  have hahead := haccounts.ahead
  by_cases hend : c.next.1 = .ok none
  · have hanswer := haccounts.answer
    rw [hend] at hanswer
    refine ⟨[c], .last hend, Nat.le_add_left 1 n, ?_, by simpa using hc⟩
    rw [hahead, hanswer.2]
    simp
  · have hlt := (moves_next c).lt hend
    have hposition := haccounts.position
    have hlength := congrArg List.length hahead
    simp only [List.length_append] at hlength
    cases n with
    | zero => omega
    | succ n =>
      obtain ⟨cs, hcs, hcount, hbytes, hreached⟩ := exists_calls (n := n) hc.next (by omega)
      refine ⟨c :: cs, .more hend hcs, by simpa using hcount, ?_,
        List.forall_mem_cons.2 ⟨hc, hreached⟩⟩
      rw [hahead, hbytes, List.flatMap_cons, List.append_assoc]

/-- A token that is read or looked at is one that some cursor of the text goes over. -/
theorem Reached.exists_next_of_seen (hc : Reached text c) {t : Token}
    (ht : c.next.1 = .ok (some t) ∨ c.peek = .ok (some t) ∨ c.peekSecond = .ok (some t)) :
    ∃ c', Reached text c' ∧ c'.next.1 = .ok (some t) := by
  rcases ht with hnext | hpeek | hsecond
  · exact ⟨c, hc, hnext⟩
  · exact ⟨c, hc, hpeek⟩
  · unfold peekSecond at hsecond
    split at hsecond
    · rename_i after hafter
      refine ⟨after, ?_, hsecond⟩
      have := hc.next
      rwa [hafter] at this
    · rename_i answer after _ hafter
      exact ⟨c, hc, by rw [hafter, hsecond]⟩

/-- **Nothing of a text is lost.** However a text is gone over by tokens and by bytes, errors or
not, the cursor stays within it, every call of `next` moves it on until it is at the end, and every
token that is read or looked at stands in the text. And the calls of `next` from the start of a text
to its end, of which there are at most as many as bytes and one more, go over every byte once and in
order, each of them telling what it goes over. -/
theorem loses_nothing (text : String) :
    (∀ c, Reached text c → c.position ≤ text.utf8ByteSize ∧
      (c.position < text.utf8ByteSize ∨ c.next.1 ≠ .ok none → c.position < c.next.2.position) ∧
      ∀ t, c.next.1 = .ok (some t) ∨ c.peek = .ok (some t) ∨ c.peekSecond = .ok (some t) →
        t.StandsIn text) ∧
    ∃ cs, Calls (.ofText text) cs ∧ cs.length ≤ text.utf8ByteSize + 1 ∧
      bytes text.toList = cs.flatMap (fun c => c.blanks ++ c.taken) ∧
      ∀ c ∈ cs, Reached text c ∧ c.Accounts := by
  constructor
  · intro c hc
    refine ⟨hc.standsIn.position_le, hc.next_lt, fun t ht => ?_⟩
    obtain ⟨c', hc', hnext⟩ := hc.exists_next_of_seen ht
    have hmove := moves_next c'
    rw [hnext] at hmove
    exact hc'.standsIn.token hmove
  · have hsize : (Cursor.ofText text).bytesAhead.length = text.utf8ByteSize := by
      rw [utf8ByteSize_eq_byteSize, ← length_bytes]
      rfl
    obtain ⟨cs, hcs, hcount, hbytes, hreached⟩ := exists_calls .start hsize.le
    refine ⟨cs, hcs, hcount, hbytes, fun c hc => ?_⟩
    exact ⟨hreached c hc, accounts (hreached c hc).within⟩

/-- From inside a character the cursor gets to the next token. -/
theorem loses_nothing_inside_character :
    Reached "é a" ⟨1, [0xA9], [' ', 'a']⟩ ∧
      (1 < (Cursor.mk 1 [0xA9] [' ', 'a']).next.2.position ∧
        Token.StandsIn "é a" ⟨.identifier, "a", 3⟩) :=
  have hinside : Reached "é a" ⟨1, [0xA9], [' ', 'a']⟩ := .takeByte .start 0xC3
  have hafter : Reached "é a" ⟨2, [], [' ', 'a']⟩ := .next hinside
  ⟨hinside, ((loses_nothing "é a").1 _ hinside).2.1 (.inl (by decide)),
    ((loses_nothing "é a").1 _ hafter).2.2 _ (.inl (by decide +kernel))⟩

end Cursor

end Dql
