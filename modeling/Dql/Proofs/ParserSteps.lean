import Dql.Proofs.Grammar

/-!
# When a parsing step succeeds

For each step that parsers are made of, what it means that it succeeds, and for each parser that is
not a loop over primaries, its steps written out.

* `Progress.lexemes`, `Progress.ending`, `Progress.tail` - what the grammar sees of a parser's
  state;
* `Parse.bind_ok_iff`, `holding_ok_iff`, `peek_ok_iff`, `take_ok_iff` - the steps;
* `operators_ok_cases` - one round of the loop over operators;
* `operators_stop`, `operators_step` - the same from the other side.
-/

namespace Dql

/-! ## States -/

namespace Progress

/-- The start of a text. -/
def ofText (text : String) : Progress := { stream := .ofText text }

/-- The lexemes not yet taken. -/
def lexemes (s : Progress) : List Lexeme := s.stream.ahead.map Token.lexeme

/-- What comes after the last lexeme. -/
def ending (s : Progress) : Ending := s.stream.ending

/-- The state after the next token is taken. -/
def tail (s : Progress) : Progress := { s with stream := s.stream.skip }

/-- The operator that comes next, if one does. -/
def operator? (s : Progress) : Option BinaryOp :=
  s.lexemes.head?.bind fun l => l.kind.operator?

variable {s : Progress}

@[simp] theorem ending_tail (s : Progress) : s.tail.ending = s.ending := by
  unfold tail ending Stream.skip
  split <;> rfl

@[simp] theorem lexemes_tail (s : Progress) : s.tail.lexemes = s.lexemes.tail := by
  unfold tail lexemes Stream.skip
  split <;> rename_i h <;> simp [h]

theorem exists_token {l : Lexeme} {ls : List Lexeme} (h : s.lexemes = l :: ls) :
    ∃ t ts, s.stream.ahead = t :: ts ∧ t.lexeme = l := by
  obtain ⟨t, ts, ht, hl, -⟩ := List.map_eq_cons_iff.1 h
  exact ⟨t, ts, ht, hl⟩

/-- A token that comes next is seen. -/
theorem lookahead_cons {t : Token} {ts : List Token} (h : s.stream.ahead = t :: ts) :
    s.stream.lookahead = .ok (.token t) := by
  simp [Stream.lookahead, h]

theorem lexemes_of_lookahead {t : Token} (h : s.stream.lookahead = .ok (.token t)) :
    s.lexemes = t.lexeme :: s.tail.lexemes := by
  unfold Stream.lookahead at h
  split at h
  · rename_i ha
    cases h
    simp [lexemes, tail, Stream.skip, ha]
  · split at h <;> cases h

theorem lexemes_eq_nil_of_lookahead {position : Nat}
    (h : s.stream.lookahead = .ok (.endOfText position)) :
    s.lexemes = [] ∧ s.ending = .endOfText position := by
  unfold Stream.lookahead at h
  split at h
  · cases h
  · rename_i ha
    split at h <;> cases h
    rename_i he
    exact ⟨by simp [lexemes, ha], he⟩

/-- In a text that can be read to its end there is always something to see. -/
theorem exists_lookahead {n : Nat} (h : s.ending = .endOfText n) :
    ∃ seen, s.stream.lookahead = .ok seen ∧
      seen.kind? = s.lexemes.head?.map Lexeme.kind := by
  cases ha : s.stream.ahead with
  | nil =>
    refine ⟨.endOfText n, ?_, by simp [lexemes, ha, Ahead.kind?, Ahead.token?]⟩
    have he : s.stream.ending = .endOfText n := h
    simp [Stream.lookahead, ha, he]
  | cons t ts =>
    exact ⟨.token t, lookahead_cons ha, by simp [lexemes, ha, Ahead.kind?, Ahead.token?,
      Token.lexeme]⟩

theorem kind?_of_lookahead {seen : Ahead} (h : s.stream.lookahead = .ok seen) :
    seen.kind? = s.lexemes.head?.map Lexeme.kind := by
  cases seen with
  | token t =>
    rw [lexemes_of_lookahead h]
    rfl
  | endOfText =>
    rw [(lexemes_eq_nil_of_lookahead h).1]
    rfl

theorem operator?_of_lookahead {seen : Ahead} (h : s.stream.lookahead = .ok seen) :
    seen.kind?.bind TokenKind.operator? = s.operator? := by
  rw [kind?_of_lookahead h, operator?]
  cases s.lexemes.head? <;> rfl

end Progress

/-! ## Steps -/

variable {α β : Type} {s s' : Progress}

theorem Parse.pure_ok_iff {a b : α} : (pure a : Parse α) s = .ok b s' ↔ a = b ∧ s = s' := by
  constructor
  · intro h
    cases h
    exact ⟨rfl, rfl⟩
  · rintro ⟨rfl, rfl⟩
    rfl

theorem Parse.fail_ne_ok {e : ParseError} {a : α} : (Parse.fail e : Parse α) s ≠ .ok a s' := by
  intro h
  cases h

theorem Parse.bind_ok_iff {p : Parse α} {f : α → Parse β} {b : β} :
    (p >>= f) s = .ok b s' ↔ ∃ a s₁, p s = .ok a s₁ ∧ f a s₁ = .ok b s' := by
  simp only [bind, EStateM.bind]
  cases p s with
  | ok a s₁ =>
    constructor
    · intro h
      exact ⟨a, s₁, rfl, h⟩
    · rintro ⟨a', s₁', h, hf⟩
      cases h
      exact hf
  | error e s₁ =>
    constructor
    · intro h
      cases h
    · rintro ⟨_, _, h, _⟩
      cases h

/-- A parser that starts with a successful one goes on where that one stopped. -/
theorem Parse.bind_of_ok {p : Parse α} {a : α} {s₁ : Progress} (h : p s = .ok a s₁)
    (f : α → Parse β) : (p >>= f) s = f a s₁ := by
  simp only [bind, EStateM.bind, h]

/-- A parser that starts with a failing one fails where that one did. -/
theorem Parse.bind_of_error {p : Parse α} {g : Failure} {s₁ : Progress} (h : p s = .error g s₁)
    (f : α → Parse β) : (p >>= f) s = .error g s₁ := by
  simp only [bind, EStateM.bind, h]

theorem Parse.discard_ok_iff {p : Parse α} {u : PUnit} :
    (discard p : Parse PUnit) s = .ok u s' ↔ ∃ a, p s = .ok a s' := by
  simp only [discard, Functor.discard, Functor.mapConst, Function.comp_apply, EStateM.map,
    Function.const]
  cases p s <;> simp

theorem holding_ok_iff {e : Fragment} {p : Parse α} {a : α} :
    holding e p s = .ok a s' ↔ p s = .ok a s' := by
  simp only [holding, EStateM.adaptExcept]
  cases p s <;> simp

theorem holdingAll_ok_iff {es : List Expr} {p : Parse α} {a : α} :
    holdingAll es p s = .ok a s' ↔ p s = .ok a s' := by
  simp only [holdingAll, EStateM.adaptExcept]
  cases p s <;> simp

theorem peek_ok_iff {seen : Ahead} :
    peek s = .ok seen s' ↔ s.stream.lookahead = .ok seen ∧ s = s' := by
  unfold peek
  rw [Parse.bind_ok_iff]
  constructor
  · rintro ⟨_, _, h, hf⟩
    cases h
    cases hl : s.stream.lookahead <;> rw [hl] at hf <;> cases hf
    exact ⟨rfl, rfl⟩
  · rintro ⟨h, rfl⟩
    exact ⟨s, s, rfl, by rw [h]; rfl⟩

theorem peekSecond_ok_iff {seen : Ahead} :
    peekSecond s = .ok seen s' ↔ s.tail.stream.lookahead = .ok seen ∧ s = s' := by
  unfold peekSecond
  rw [Parse.bind_ok_iff]
  constructor
  · rintro ⟨_, _, h, hf⟩
    cases h
    have hs : s.stream.skip = s.tail.stream := rfl
    cases hl : s.tail.stream.lookahead <;> rw [hs, hl] at hf <;> cases hf
    exact ⟨rfl, rfl⟩
  · rintro ⟨h, rfl⟩
    exact ⟨s, s, rfl, by rw [show s.stream.skip = s.tail.stream from rfl, h]; rfl⟩

theorem peek_eq_error {cause : LexicalError} (h : s.stream.lookahead = .error cause) :
    peek s = .error { error := .lexical cause } s := by
  rw [peek, Parse.bind_of_ok (show (get : Parse Progress) s = .ok s s from rfl), h]
  rfl

theorem peekSecond_eq_error {cause : LexicalError} (h : s.tail.stream.lookahead = .error cause) :
    peekSecond s = .error { error := .lexical cause } s := by
  rw [peekSecond, Parse.bind_of_ok (show (get : Parse Progress) s = .ok s s from rfl),
    show s.stream.skip = s.tail.stream from rfl, h]
  rfl

theorem advance_ok_iff {u : Unit} : advance s = .ok u s' ↔ s' = s.tail := by
  constructor
  · intro h
    cases h
    rfl
  · rintro rfl
    rfl

theorem advance_eq : advance s = .ok () s.tail := rfl

theorem dispatch_eq (name : Token) : dispatch name s =
    .ok () { s with dispatched := s.dispatched ++ [.dispatching name.text name.start] } := rfl

theorem take_ok_iff {kind : TokenKind} {t : Token} :
    take kind s = .ok t s' ↔
      s.stream.lookahead = .ok (.token t) ∧ t.kind = kind ∧ s' = s.tail := by
  unfold take
  rw [Parse.bind_ok_iff]
  constructor
  · rintro ⟨seen, s₁, hpeek, h⟩
    obtain ⟨hseen, rfl⟩ := peek_ok_iff.1 hpeek
    cases seen with
    | endOfText => exact absurd h Parse.fail_ne_ok
    | token t' =>
      simp only at h
      split at h
      · rename_i hk
        obtain ⟨_, s₂, hadv, hpure⟩ := Parse.bind_ok_iff.1 h
        obtain ⟨rfl, rfl⟩ := Parse.pure_ok_iff.1 hpure
        exact ⟨hseen, hk, advance_ok_iff.1 hadv⟩
      · exact absurd h Parse.fail_ne_ok
  · rintro ⟨hseen, rfl, rfl⟩
    exact ⟨_, s, peek_ok_iff.2 ⟨hseen, rfl⟩, by simp only [↓reduceIte]; rfl⟩

/-- Taking a token of the right kind, as the grammar sees it. -/
theorem take_of_lexemes {l : Lexeme} {ls : List Lexeme} (h : s.lexemes = l :: ls) :
    ∃ t, take l.kind s = .ok t s.tail ∧ t.lexeme = l := by
  obtain ⟨t, ts, ha, rfl⟩ := Progress.exists_token h
  exact ⟨t, take_ok_iff.2 ⟨Progress.lookahead_cons ha, rfl, rfl⟩, rfl⟩

theorem lexemes_of_take {kind : TokenKind} {t : Token} (h : take kind s = .ok t s') :
    s.lexemes = t.lexeme :: s'.lexemes ∧ t.kind = kind ∧ s'.ending = s.ending := by
  obtain ⟨hseen, hk, rfl⟩ := take_ok_iff.1 h
  exact ⟨Progress.lexemes_of_lookahead hseen, hk, s.ending_tail⟩

theorem takeIf_of_next {kind : TokenKind} (h : NextIs kind s.lexemes) :
    takeIf kind s = .ok true s.tail := by
  unfold takeIf
  rw [Parse.bind_of_ok (show (get : Parse Progress) s = .ok s s from rfl)]
  cases ha : s.stream.ahead with
  | nil => simp [NextIs, Progress.lexemes, ha] at h
  | cons t ts =>
    have hk : t.kind = kind := by
      simpa [NextIs, Progress.lexemes, ha, Token.lexeme] using h
    simp only [hk, ↓reduceIte]
    rfl

theorem takeIf_of_not_next {kind : TokenKind} (h : ¬ NextIs kind s.lexemes) :
    takeIf kind s = .ok false s := by
  unfold takeIf
  rw [Parse.bind_of_ok (show (get : Parse Progress) s = .ok s s from rfl)]
  cases ha : s.stream.ahead with
  | nil => rfl
  | cons t ts =>
    have hk : t.kind ≠ kind := by
      simpa [NextIs, Progress.lexemes, ha, Token.lexeme] using h
    simp only [hk, ↓reduceIte]
    rfl

/-! ## The loop over operators -/

section Operators

variable {primary : PrimaryParser} {bound least : Nat} {left e : Expr}

/-- One round of the loop over operators: either it is over, and no operator that binds tightly
enough comes next, or such an operator is taken with the operand to its right. -/
theorem operators_ok_cases (h : operators primary bound least left s = .ok e s')
    (hb : s.lexemes.length ≤ bound) :
    (e = left ∧ s' = s ∧ ∀ op, s.operator? = some op → op.power < least) ∨
    ∃ bound' op operand right s₁ s₂, bound = bound' + 1 ∧ s.operator? = some op ∧
      least ≤ op.power ∧ factor primary s.tail = .ok operand s₁ ∧
      operators primary bound' (op.power + 1) operand s₁ = .ok right s₂ ∧
      operators primary bound' least (.binary left op right) s₂ = .ok e s' := by
  unfold operators at h
  obtain ⟨seen, s₁, hpeek, h⟩ := Parse.bind_ok_iff.1 h
  obtain ⟨hseen, rfl⟩ := peek_ok_iff.1 (holding_ok_iff.1 hpeek)
  rw [Progress.operator?_of_lookahead hseen] at h
  cases hop : s.operator? with
  | none =>
    rw [hop] at h
    obtain ⟨rfl, rfl⟩ := Parse.pure_ok_iff.1 h
    exact .inl ⟨rfl, rfl, fun op ho => by cases ho⟩
  | some op =>
    rw [hop] at h
    simp only at h
    split at h
    · rename_i hlt
      obtain ⟨rfl, rfl⟩ := Parse.pure_ok_iff.1 h
      refine .inl ⟨rfl, rfl, fun op' ho => ?_⟩
      cases ho
      exact hlt
    · rename_i hge
      cases bound with
      | zero =>
        -- an operator is a lexeme, and there is none within this bound
        have hnil : s.lexemes = [] := List.length_eq_zero_iff.1 (by omega)
        simp [Progress.operator?, hnil] at hop
      | succ bound =>
        obtain ⟨_, s₁, hadv, h⟩ := Parse.bind_ok_iff.1 h
        obtain rfl := advance_ok_iff.1 hadv
        obtain ⟨operand, s₂, hfactor, h⟩ := Parse.bind_ok_iff.1 h
        obtain ⟨right, s₃, hright, h⟩ := Parse.bind_ok_iff.1 h
        exact .inr ⟨bound, op, operand, right, s₂, s₃, rfl, rfl, by omega,
          holding_ok_iff.1 hfactor, holding_ok_iff.1 hright, h⟩

/-- The loop is over before anything that is no operator or does not bind tightly enough. -/
theorem operators_stop {seen : Ahead} (hseen : s.stream.lookahead = .ok seen)
    (h : ∀ op, s.operator? = some op → op.power < least) :
    operators primary bound least left s = .ok left s := by
  have hpeek : holding left peek s = .ok seen s := holding_ok_iff.2 (peek_ok_iff.2 ⟨hseen, rfl⟩)
  unfold operators
  rw [Parse.bind_of_ok hpeek, Progress.operator?_of_lookahead hseen]
  cases hop : s.operator? with
  | none => rfl
  | some op =>
    simp only [h op hop, ↓reduceIte]
    rfl

/-- An operator that binds tightly enough is taken with the operand to its right. -/
theorem operators_step {op : BinaryOp} {operand right : Expr} {s₁ s₂ : Progress}
    (hop : s.operator? = some op) (hpower : least ≤ op.power)
    (hfactor : factor primary s.tail = .ok operand s₁)
    (hright : operators primary bound (op.power + 1) operand s₁ = .ok right s₂) :
    operators primary (bound + 1) least left s =
      operators primary bound least (.binary left op right) s₂ := by
  obtain ⟨l, ls, hls⟩ : ∃ l ls, s.lexemes = l :: ls := by
    cases hl : s.lexemes with
    | nil => simp [Progress.operator?, hl] at hop
    | cons l ls => exact ⟨l, ls, rfl⟩
  obtain ⟨t, ts, ha, -⟩ := Progress.exists_token hls
  have hseen := Progress.lookahead_cons ha
  have hpeek : holding left peek s = .ok (.token t) s :=
    holding_ok_iff.2 (peek_ok_iff.2 ⟨hseen, rfl⟩)
  rw [operators.eq_def, Parse.bind_of_ok hpeek, Progress.operator?_of_lookahead hseen, hop]
  simp only [if_neg (Nat.not_lt.2 hpower)]
  rw [Parse.bind_of_ok advance_eq, Parse.bind_of_ok (holding_ok_iff.2 hfactor),
    Parse.bind_of_ok (holding_ok_iff.2 hright)]

end Operators

end Dql
