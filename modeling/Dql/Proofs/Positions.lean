import Dql.Proofs.Lexing

/-!
# Where tokens stand

The tokens of a text stand one after another, and none is empty. Between them are blanks only, so
that the text after any of them can be read on its own, and gives the tokens after it.

* `Ending.position` - where what comes after the last token is;
* `InOrder` - tokens one after another, from some byte offset on;
* `TokenList.before` - the tokens before a byte offset.

Principal results: `ofChars_inOrder`, `position_of_endOfText` and `ofChars_split`.
-/

namespace Dql

/-- The byte offset of what comes after the last token. -/
def Ending.position : Ending → Nat
  | .endOfText position => position
  | .fault e => e.position

/-- From a byte offset on, the tokens stand one after another and none is empty; then comes the
ending. -/
def InOrder : (position : Nat) → List Token → Ending → Prop
  | position, [], ending => position ≤ ending.position
  | position, t :: ts, ending => position ≤ t.start ∧ t.start < t.stop ∧ InOrder t.stop ts ending

/-- The tokens that start before a byte offset. -/
def TokenList.before (l : TokenList) (position : Nat) : List Token :=
  l.tokens.filter (·.start < position)

/-! ## One token -/

/-- Every blank is one byte. -/
theorem byteSize_of_blank {cs : List Char} (h : ∀ c ∈ cs, c.isWhitespace = true) :
    byteSize cs = cs.length := by
  induction cs with
  | nil => rfl
  | cons c cs ih =>
    obtain ⟨hc, hcs⟩ := List.forall_mem_cons.1 h
    have hone : c.utf8Size = 1 := by
      have hb : c = ' ' ∨ c = '\t' ∨ c = '\r' ∨ c = '\n' := by
        simpa [Char.isWhitespace, or_assoc] using hc
      rcases hb with rfl | rfl | rfl | rfl <;> rfl
    rw [byteSize_cons, ih hcs, hone, List.length_cons, Nat.add_comm]

/-- The blanks before what stands at a place, in bytes. -/
theorem byteSize_blanks (cs : List Char) :
    byteSize (cs.takeWhile Char.isWhitespace) = (cs.takeWhile Char.isWhitespace).length :=
  byteSize_of_blank fun c hc => List.all_eq_true.1 List.all_takeWhile c hc

theorem byteSize_pos {cs : List Char} (h : cs ≠ []) : 0 < byteSize cs := by
  cases cs with
  | nil => exact absurd rfl h
  | cons c cs => exact Nat.add_pos_left (Char.utf8Size_pos c) _

/-- A token with the blanks before it is the front of the text, and stops where this does. -/
theorem front_of_token {position : Nat} {cs rest : List Char} {t : Token}
    (h : Reading.ofChars position cs = .token t rest) :
    (∃ front, cs = front ++ rest ∧ t.stop = position + byteSize front) ∧
      position ≤ t.start ∧ t.start < t.stop := by
  have hblanks := byteSize_blanks cs
  have hcs := List.takeWhile_append_dropWhile (p := Char.isWhitespace) (l := cs)
  unfold Reading.ofChars at h
  generalize cs.takeWhile Char.isWhitespace = blanks at *
  split at h
  · cases h
  · rename_i d ds hd
    split at h <;> cases h
    rename_i cut hcut
    have hpos := byteSize_pos (Cut.lexeme_ne_nil_of_first hcut)
    rw [hd, ← Cut.first_append hcut, ← List.append_assoc] at hcs
    rw [Token.stop, utf8ByteSize_ofList]
    exact ⟨⟨_, hcs.symm, by rw [byteSize_append, hblanks, Nat.add_assoc]⟩, by simp,
      by simpa using hpos⟩

/-! ## All tokens -/

/-- **The tokens of a text stand in order.** -/
theorem ofChars_inOrder (position : Nat) (cs : List Char) :
    InOrder position (TokenList.ofChars position cs).tokens
      (TokenList.ofChars position cs).ending := by
  fun_induction TokenList.ofChars position cs with
  | case1 position cs t rest h after ih =>
    obtain ⟨-, hstart, hstop⟩ := front_of_token h
    exact ⟨hstart, hstop, ih⟩
  | case2 position cs n h | case3 position cs n h | case4 position cs n d ds h =>
    unfold Reading.ofChars at h
    split at h
    · cases h <;> exact Nat.le_add_right _ _
    · split at h <;> cases h <;> exact Nat.le_add_right _ _

/-- **A text that is read to its end ends there.** -/
theorem position_of_endOfText {position n : Nat} {cs : List Char}
    (h : (TokenList.ofChars position cs).ending = .endOfText n) : n = position + byteSize cs := by
  fun_induction TokenList.ofChars position cs with
  | case1 position cs t rest hread after ih =>
    obtain ⟨⟨front, rfl, hstop⟩, -⟩ := front_of_token hread
    rw [ih h, hstop, byteSize_append, Nat.add_assoc]
  | case2 position cs m hread =>
    cases h
    unfold Reading.ofChars at hread
    split at hread
    · rename_i hd
      cases hread
      have hcs := List.takeWhile_append_dropWhile (p := Char.isWhitespace) (l := cs)
      rw [hd, List.append_nil] at hcs
      rw [← byteSize_blanks, hcs]
    · split at hread <;> cases hread
  | case3 | case4 => cases h

/-- **The text after some of the tokens gives the tokens after them.** -/
theorem ofChars_split {position : Nat} {cs : List Char} {taken ahead : List Token}
    (h : (TokenList.ofChars position cs).tokens = taken ++ ahead) :
    ∃ front back, cs = front ++ back ∧
      position + byteSize front = (taken.getLast?.map Token.stop).getD position ∧
      TokenList.ofChars (position + byteSize front) back =
        ⟨ahead, (TokenList.ofChars position cs).ending⟩ := by
  induction taken generalizing position cs with
  | nil => exact ⟨[], cs, rfl, rfl, by cases h; rfl⟩
  | cons t ts ih =>
    cases hread : Reading.ofChars position cs with
    | token u rest =>
      rw [ofChars_of_token hread, TokenList.prepend] at h ⊢
      obtain ⟨rfl, hts⟩ := List.cons.inj h
      obtain ⟨⟨front, rfl, hstop⟩, -⟩ := front_of_token hread
      obtain ⟨front', back, rfl, hposition, hback⟩ := ih hts
      have hsize : position + byteSize (front ++ front') = u.stop + byteSize front' := by
        rw [byteSize_append, hstop, Nat.add_assoc]
      refine ⟨front ++ front', back, (List.append_assoc ..).symm, ?_, by rw [hsize]; exact hback⟩
      rw [hsize, hposition]
      cases ts <;> rfl
    | endOfText | unterminated | unexpected =>
      rw [TokenList.ofChars] at h
      split at h <;> simp_all

/-! ## Before a byte offset -/

theorem InOrder.le_ending {position : Nat} {ts : List Token} {ending : Ending}
    (h : InOrder position ts ending) : position ≤ ending.position := by
  induction ts generalizing position with
  | nil => exact h
  | cons t ts ih => exact Nat.le_trans h.1 (Nat.le_trans (Nat.le_of_lt h.2.1) (ih h.2.2))

/-- Of tokens in order, the first ones start before where the others stand. -/
theorem InOrder.append {position : Nat} {taken ahead : List Token} {ending : Ending}
    (h : InOrder position (taken ++ ahead) ending) :
    ∃ position', position ≤ position' ∧ InOrder position' ahead ending ∧
      ∀ t ∈ taken, t.start < position' := by
  induction taken generalizing position with
  | nil => exact ⟨position, Nat.le_refl _, h, nofun⟩
  | cons t ts ih =>
    obtain ⟨hstart, hstop, h⟩ := h
    obtain ⟨position', hle, hahead, hts⟩ := ih h
    exact ⟨position', by omega, hahead, List.forall_mem_cons.2 ⟨by omega, hts⟩⟩

/-- Of tokens in order, the others stand after where the last of the first ones stops. -/
theorem InOrder.after_last {position : Nat} {taken ahead : List Token} {ending : Ending}
    (h : InOrder position (taken ++ ahead) ending) :
    position ≤ (taken.getLast?.map Token.stop).getD position ∧
      InOrder ((taken.getLast?.map Token.stop).getD position) ahead ending := by
  induction taken generalizing position with
  | nil => exact ⟨Nat.le_refl _, h⟩
  | cons t ts ih =>
    obtain ⟨hstart, hstop, h⟩ := h
    obtain ⟨hle, hahead⟩ := ih h
    have hlast : ((t :: ts).getLast?.map Token.stop).getD position =
        (ts.getLast?.map Token.stop).getD t.stop := by
      cases ts <;> rfl
    rw [hlast]
    exact ⟨by omega, hahead⟩

theorem InOrder.le_start {position : Nat} {ts : List Token} {ending : Ending}
    (h : InOrder position ts ending) : ∀ t ∈ ts, position ≤ t.start := by
  induction ts generalizing position with
  | nil => exact nofun
  | cons t ts ih =>
    obtain ⟨hstart, hstop, h⟩ := h
    exact List.forall_mem_cons.2 ⟨hstart, fun u hu => by have := ih h u hu; omega⟩

/-- The tokens before one of them, or before the ending, are those that come first. -/
theorem InOrder.filter_start_lt {position n : Nat} {taken ahead : List Token} {ending : Ending}
    (h : InOrder position (taken ++ ahead) ending)
    (hn : n = (ahead.head?.map Token.start).getD ending.position) :
    (taken ++ ahead).filter (·.start < n) = taken := by
  obtain ⟨position', -, hahead, htaken⟩ := h.append
  have hbefore : ∀ t ∈ taken, t.start < n := by
    intro t ht
    refine Nat.lt_of_lt_of_le (htaken t ht) ?_
    cases ahead with
    | nil => exact hn ▸ hahead
    | cons u us => exact hn ▸ hahead.1
  have hafter : ∀ t ∈ ahead, ¬ t.start < n := by
    intro t ht
    cases ahead with
    | nil => cases ht
    | cons u us =>
      obtain ⟨-, hstop, hus⟩ := hahead
      subst hn
      rcases List.mem_cons.1 ht with rfl | ht
      · exact Nat.lt_irrefl _
      · have := hus.le_start t ht
        simp only [List.head?_cons, Option.map_some, Option.getD_some]
        omega
  rw [List.filter_append, List.filter_eq_self.2 (by simpa using hbefore),
    List.filter_eq_nil_iff.2 (by simpa using hafter), List.append_nil]

end Dql
