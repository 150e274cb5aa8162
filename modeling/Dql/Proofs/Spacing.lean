import Dql.Proofs.Concatenation

/-!
# Lexemes with blanks between them

A text that is one lexeme is read as one token, and so is each of several such texts with blanks
between them, because no lexeme goes on over a blank. So the tokens of a text can be taken apart,
and set next to one another again with a blank between each two.

* `Cursor.Gives` - what calls of `next` give on the way to the end of the text;
* `Lexeme.StandsAlone` - texts that are read as one token;
* `BlankText`, `Spaced`, `layOut`, `SetApart` - lexemes with blanks before, between and after them;
* `placed` - the tokens that they are, with the places that follow from the layout;
* `spaceOut` - lexemes with one space between each two.

Principal results: `Lexeme.standsAlone_iff`, `ofChars_layOut` and `Cursor.blanks_separate_lexemes`.
-/

namespace Dql

/-! ## All that `next` gives -/

namespace Cursor

/-- Called again and again, `next` gives these tokens and then finds the end of the text. No call
fails. -/
inductive Gives : Cursor → List Token → Prop where
  | endOfText {c : Cursor} (h : c.next.1 = .ok none) : Gives c []
  | token {c : Cursor} {t : Token} {ts : List Token} (h : c.next.1 = .ok (some t))
      (more : Gives c.next.2 ts) : Gives c (t :: ts)

variable {c after : Cursor} {t : Token} {ts : List Token}

theorem gives_iff_of_token (h : c.next = (.ok (some t), after)) :
    Gives c ts ↔ ∃ more, ts = t :: more ∧ Gives after more := by
  constructor
  · intro hgives
    cases hgives with
    | endOfText hend =>
      rw [h] at hend
      cases hend
    | token ht more =>
      rw [h] at ht more
      cases ht
      exact ⟨_, rfl, more⟩
  · rintro ⟨more, rfl, hmore⟩
    exact .token (by rw [h]) (by rwa [h])

theorem gives_iff_of_endOfText (h : c.next.1 = .ok none) : Gives c ts ↔ ts = [] := by
  constructor
  · intro hgives
    cases hgives with
    | endOfText => rfl
    | token ht =>
      rw [h] at ht
      cases ht
  · rintro rfl
    exact .endOfText h

theorem not_gives_of_error {e : LexicalError} (h : c.next.1 = .error e) : ¬ Gives c ts := by
  intro hgives
  cases hgives with
  | endOfText hend =>
    rw [h] at hend
    cases hend
  | token ht =>
    rw [h] at ht
    cases ht

/-- **The calls of `next` give the tokens of a text that is read to its end.** -/
theorem gives_iff {position : Nat} {cs : List Char} : ∀ {ts : List Token},
    Gives ⟨position, [], cs⟩ ts ↔ ∃ n, TokenList.ofChars position cs = ⟨ts, .endOfText n⟩ := by
  fun_induction TokenList.ofChars position cs with
  | case1 position cs t rest hread after =>
    rename_i ih
    intro ts
    have hnext : next ⟨position, [], cs⟩ = (.ok (some t), ⟨t.stop, [], rest⟩) := by
      simp only [next, hread]
    rw [gives_iff_of_token hnext]
    constructor
    · rintro ⟨more, rfl, hmore⟩
      obtain ⟨n, hn⟩ := ih.1 hmore
      exact ⟨n, by simp only [after, hn]⟩
    · rintro ⟨n, hn⟩
      obtain ⟨rfl, hending⟩ := TokenList.mk.inj hn
      exact ⟨_, rfl, ih.2 ⟨n, by rw [← hending]⟩⟩
  | case2 position cs n hread =>
    intro ts
    rw [gives_iff_of_endOfText (by simp only [next, hread])]
    simp
  | case3 position cs start hread | case4 position cs start d ds hread =>
    intro ts
    have hnone : ¬ Gives ⟨position, [], cs⟩ ts :=
      not_gives_of_error (by simp only [next, hread]; rfl)
    simp [hnone]

end Cursor

/-! ## Lexemes on their own -/

/-- The text is read as one token of this kind, all of it. -/
def Lexeme.StandsAlone (l : Lexeme) : Prop :=
  (Cursor.ofText l.text).Gives [⟨l.kind, l.text, 0⟩]

/-- **The texts that are read as one token are the lexemes.** -/
theorem Lexeme.standsAlone_iff {l : Lexeme} : l.StandsAlone ↔ l.Valid := by
  rw [StandsAlone, Cursor.ofText, Cursor.gives_iff]
  constructor
  · rintro ⟨n, hn⟩
    have hvalid := ofChars_valid 0 l.text.toList
    rw [hn] at hvalid
    exact hvalid _ List.mem_cons_self
  · intro h
    have hread := ofChars_of_lexeme h 0 delimited_nil
    rw [List.append_nil, ofChars_nil] at hread
    exact ⟨_, hread⟩

/-! ## Blanks -/

/-- A text of spaces, tabs, carriage returns and line feeds, or of nothing. -/
def BlankText (text : String) : Prop := ∀ c ∈ text.toList, c ∈ [' ', '\t', '\r', '\n']

theorem BlankText.isWhitespace {text : String} (h : BlankText text) :
    ∀ c ∈ text.toList, c.isWhitespace = true := by
  intro c hc
  simpa [Char.isWhitespace, or_assoc] using h c hc

/-- Every blank is one byte. -/
theorem BlankText.length_eq {text : String} (h : BlankText text) :
    text.toList.length = text.utf8ByteSize := by
  rw [utf8ByteSize_eq_byteSize, byteSize_of_blank h.isWhitespace]

/-- A blank text delimits if there is something to it, and at the end of the text anyway. -/
theorem BlankText.delimited {blanks : String} (h : BlankText blanks) {rest : List Char}
    (hrest : blanks = "" → rest = []) : Delimited (blanks.toList ++ rest) := by
  cases hblanks : blanks.toList with
  | nil =>
    rw [hrest (String.toList_inj.1 hblanks)]
    exact delimited_nil
  | cons c cs => exact delimited_of_isWhitespace (h.isWhitespace c (by simp [hblanks])) _

/-! ## Lexemes that are laid out -/

/-- A lexeme and the blanks before it. -/
structure Spaced where
  blanks : String
  lexeme : Lexeme

/-- The text of lexemes, each after its blanks, with more blanks at the end. -/
def layOut (items : List Spaced) (back : String) : String :=
  String.join (items.map fun item => item.blanks ++ item.lexeme.text) ++ back

/-- The tokens of lexemes that are laid out from a byte offset on. Each starts where the text before
it stops. -/
def placed (position : Nat) (items : List Spaced) : List Token :=
  items.mapIdx fun i item =>
    ⟨item.lexeme.kind, item.lexeme.text,
      position + (layOut (items.take i) item.blanks).utf8ByteSize⟩

/-- Lexemes that have blanks, and nothing else, between each two, and perhaps around them. -/
structure SetApart (items : List Spaced) (back : String) : Prop where
  blank : ∀ item ∈ items, BlankText item.blanks
  apart : ∀ item ∈ items.tail, item.blanks ≠ ""
  back : BlankText back

section Layout

variable {items : List Spaced} {item : Spaced} {back : String}

theorem toList_layOut_nil : (layOut [] back).toList = back.toList := by simp [layOut]

theorem toList_layOut_cons :
    (layOut (item :: items) back).toList =
      item.blanks.toList ++ (item.lexeme.text.toList ++ (layOut items back).toList) := by
  simp [layOut, String.join_cons]

theorem size_layOut_nil : (layOut [] back).utf8ByteSize = back.utf8ByteSize := by
  simp only [utf8ByteSize_eq_byteSize, toList_layOut_nil]

theorem size_layOut_cons :
    (layOut (item :: items) back).utf8ByteSize = item.blanks.utf8ByteSize +
      (item.lexeme.text.utf8ByteSize + (layOut items back).utf8ByteSize) := by
  simp only [utf8ByteSize_eq_byteSize, toList_layOut_cons, byteSize_append]

theorem placed_cons (position : Nat) :
    placed position (item :: items) =
      ⟨item.lexeme.kind, item.lexeme.text, position + item.blanks.utf8ByteSize⟩ ::
        placed (position + item.blanks.utf8ByteSize + item.lexeme.text.utf8ByteSize) items := by
  simp only [placed, List.mapIdx_cons, List.take_zero, List.take_succ_cons, size_layOut_cons,
    size_layOut_nil, Nat.add_assoc]

theorem lexemes_placed (position : Nat) (items : List Spaced) :
    (placed position items).map Token.lexeme = items.map Spaced.lexeme := by
  induction items generalizing position with
  | nil => rfl
  | cons item items ih => rw [placed_cons, List.map_cons, ih, List.map_cons, Token.lexeme]

theorem SetApart.tail (h : SetApart (item :: items) back) : SetApart items back where
  blank i hi := h.blank i (List.mem_cons_of_mem item hi)
  apart i hi := h.apart i (List.mem_of_mem_tail hi)
  back := h.back

/-- What comes after a lexeme that is set apart delimits it. -/
theorem SetApart.delimited_tail (h : SetApart (item :: items) back) :
    Delimited (layOut items back).toList := by
  cases items with
  | nil =>
    rw [toList_layOut_nil, ← List.append_nil back.toList]
    exact h.back.delimited fun _ => rfl
  | cons next items =>
    have hblank := h.blank next (List.mem_cons_of_mem item List.mem_cons_self)
    have hsome := h.apart next List.mem_cons_self
    rw [toList_layOut_cons]
    exact hblank.delimited fun hnone => absurd hnone hsome

/-- **Lexemes that are set apart are read one by one**, wherever the text starts. -/
theorem ofChars_layOut (h : SetApart items back) (hvalid : ∀ item ∈ items, item.lexeme.Valid)
    (position : Nat) :
    TokenList.ofChars position (layOut items back).toList =
      ⟨placed position items, .endOfText (position + (layOut items back).utf8ByteSize)⟩ := by
  induction items generalizing position with
  | nil =>
    have hread := ofChars_blanks h.back.isWhitespace position []
    rw [List.append_nil, ofChars_nil, h.back.length_eq] at hread
    rw [toList_layOut_nil, size_layOut_nil, hread]
    rfl
  | cons item items ih =>
    obtain ⟨hlexeme, hvalid⟩ := List.forall_mem_cons.1 hvalid
    have hblank : BlankText item.blanks := h.blank item List.mem_cons_self
    rw [toList_layOut_cons, ofChars_blanks hblank.isWhitespace, hblank.length_eq,
      ofChars_of_lexeme hlexeme _ h.delimited_tail, ih h.tail hvalid, placed_cons, size_layOut_cons]
    simp only [TokenList.prepend, List.singleton_append, Nat.add_assoc]

end Layout

/-! ## Lexemes with a space between each two -/

/-- Lexemes with one space between each two. -/
def spaceOut : List Lexeme → List Spaced
  | [] => []
  | l :: ls => ⟨"", l⟩ :: ls.map (⟨" ", ·⟩)

theorem lexemes_spaceOut (ls : List Lexeme) : (spaceOut ls).map Spaced.lexeme = ls := by
  cases ls <;> simp [spaceOut, Function.comp_def]

theorem setApart_spaceOut (ls : List Lexeme) : SetApart (spaceOut ls) "" := by
  have hnone : BlankText "" := nofun
  have hspace : BlankText " " := by simp [BlankText]
  have hsome : " " ≠ "" := by decide
  cases ls with
  | nil => exact ⟨nofun, nofun, hnone⟩
  | cons l ls =>
    constructor
    case blank => exact List.forall_mem_cons.2 ⟨hnone, List.forall_mem_map.2 fun _ _ => hspace⟩
    case apart => exact List.forall_mem_map.2 fun _ _ => hsome
    case back => exact hnone

theorem layOut_spaceOut (ls : List Lexeme) :
    layOut (spaceOut ls) "" = " ".intercalate (ls.map Lexeme.text) := by
  apply String.toList_inj.1
  rw [String.toList_intercalate, List.map_map]
  cases ls with
  | nil => rfl
  | cons l ls =>
    rw [spaceOut, toList_layOut_cons, List.map_cons]
    induction ls generalizing l with
    | nil => simp [layOut]
    | cons m ls ih =>
      rw [List.map_cons, toList_layOut_cons, List.map_cons, List.intercalate_cons_cons, ← ih m]
      simp

namespace Cursor

/-- Lexemes that are set apart are what `next` gives. -/
theorem gives_placed {items : List Spaced} {back : String} (h : SetApart items back)
    (hvalid : ∀ item ∈ items, item.lexeme.Valid) :
    (ofText (layOut items back)).Gives (placed 0 items) :=
  gives_iff.2 ⟨_, ofChars_layOut h hvalid 0⟩

/-- **Blanks keep lexemes apart, and one space is enough.** Texts that are read as one token each,
set next to one another with blanks between them and perhaps around them, are read as exactly these
tokens, each where its text stands. Conversely each token of a text that is read to its end is read
as one token when it stands alone, and with a space between each two the tokens are read as the same
ones again. -/
theorem blanks_separate_lexemes :
    (∀ (items : List Spaced) (back : String), SetApart items back →
      (∀ item ∈ items, item.lexeme.StandsAlone) →
      (ofText (layOut items back)).Gives (placed 0 items)) ∧
    ∀ text ts, (ofText text).Gives ts →
      (∀ t ∈ ts, t.lexeme.StandsAlone) ∧
      ∃ ts', (ofText (" ".intercalate (ts.map Token.text))).Gives ts' ∧
        ts'.map Token.lexeme = ts.map Token.lexeme := by
  constructor
  · intro items back hapart halone
    exact gives_placed hapart fun item hi => Lexeme.standsAlone_iff.1 (halone item hi)
  · intro text ts hts
    obtain ⟨n, hn⟩ := gives_iff.1 hts
    have hvalid : ∀ t ∈ ts, t.lexeme.Valid := by
      have h := ofChars_valid 0 text.toList
      rwa [hn] at h
    refine ⟨fun t ht => Lexeme.standsAlone_iff.2 (hvalid t ht), ?_⟩
    have hitems : ∀ item ∈ spaceOut (ts.map Token.lexeme), item.lexeme.Valid := by
      rw [← List.forall_mem_map, lexemes_spaceOut]
      exact List.forall_mem_map.2 hvalid
    have hgives := gives_placed (setApart_spaceOut (ts.map Token.lexeme)) hitems
    rw [layOut_spaceOut, List.map_map] at hgives
    exact ⟨_, hgives, by rw [lexemes_placed, lexemes_spaceOut]⟩

/-- With blanks between them a number does not take over the fraction after it, and a literal does
not go on as the next one. -/
theorem blanks_separate_lexemes_literals :
    let items : List Spaced := [⟨"", .integer, "1"⟩, ⟨" ", .float, ".5"⟩,
      ⟨"\t\t", .string, "'a'"⟩, ⟨"\r\n", .string, "'b'"⟩]
    SetApart items " " ∧ (∀ item ∈ items, item.lexeme.StandsAlone) ∧
      (ofText "1 .5\t\t'a'\r\n'b' ").Gives
        [⟨.integer, "1", 0⟩, ⟨.float, ".5", 2⟩, ⟨.string, "'a'", 6⟩, ⟨.string, "'b'", 11⟩] ∧
      ∃ ts', (ofText "1 .5 'a' 'b'").Gives ts' ∧
        ts'.map Token.lexeme = items.map Spaced.lexeme := by
  intro items
  have hapart : SetApart items " " := by
    constructor <;> simp [items, BlankText]
  have halone : ∀ item ∈ items, item.lexeme.StandsAlone := by
    simp only [items, List.forall_mem_cons]
    exact ⟨gives_iff.2 ⟨1, by decide +kernel⟩, gives_iff.2 ⟨2, by decide +kernel⟩,
      gives_iff.2 ⟨3, by decide +kernel⟩, gives_iff.2 ⟨3, by decide +kernel⟩, nofun⟩
  have hgives := blanks_separate_lexemes.1 items " " hapart halone
  have hagain := (blanks_separate_lexemes.2 _ _ hgives).2
  exact ⟨hapart, halone, hgives, hagain⟩

end Cursor

end Dql
