import Dql.Proofs.Replays

/-!
# Parsing further on in a text

A text that starts some bytes later gives the same tokens that many bytes later, and parsers do with
them what they do at the start: they give the same results, errors and reports, with all byte
offsets greater by as much.

* `Token.later`, `TokenList.later`, `ParseError.later` and others - the same, some bytes later;
* `Progress.later` - a parser's state some bytes later, after earlier reports;
* `Follows` - a parser does later what another one does.

Principal results: `ofChars_later`, `expression_follows`, `primary_follows`,
`extensionCall_follows`, and that reports make no difference, `Follows.ok_of_stream_eq`.
-/

namespace Dql

/-! ## Places -/

/-- The token `n` bytes later. -/
def Token.later (n : Nat) (t : Token) : Token := { t with start := n + t.start }

/-- The error `n` bytes later. -/
def LexicalError.later (n : Nat) (e : LexicalError) : LexicalError :=
  { e with position := n + e.position }

/-- The ending `n` bytes later. -/
def Ending.later (n : Nat) : Ending → Ending
  | .endOfText position => .endOfText (n + position)
  | .fault e => .fault (e.later n)

/-- The tokens and the ending `n` bytes later. -/
def TokenList.later (n : Nat) (l : TokenList) : TokenList :=
  ⟨l.tokens.map (.later n), l.ending.later n⟩

/-- What is seen, `n` bytes later. -/
def Ahead.later (n : Nat) : Ahead → Ahead
  | .token t => .token (t.later n)
  | .endOfText position => .endOfText (n + position)

/-- The stream `n` bytes later. -/
def Stream.later (n : Nat) (s : Stream) : Stream :=
  ⟨s.ahead.map (.later n), s.ending.later n, n + s.position⟩

/-- The error `n` bytes later. -/
def ParseError.later (n : Nat) : ParseError → ParseError
  | .lexical cause => .lexical (cause.later n)
  | .mismatch position expected found => .mismatch (n + position) expected found
  | .tooDeep position => .tooDeep (n + position)

/-- The report `n` bytes later. Only calls that are found have a place. -/
def Event.later (n : Nat) : Event → Event
  | .dispatching name position => .dispatching name (n + position)
  | event => event

/-- The failure `n` bytes later. -/
def Failure.later (n : Nat) (f : Failure) : Failure := { f with error := f.error.later n }

/-- The state `n` bytes later, after earlier reports. -/
def Progress.later (n : Nat) (earlier : List Event) (s : Progress) : Progress :=
  ⟨s.stream.later n, earlier ++ s.dispatched.map (.later n)⟩

@[simp] theorem Token.kind_later (n : Nat) (t : Token) : (t.later n).kind = t.kind := rfl

@[simp] theorem Token.text_later (n : Nat) (t : Token) : (t.later n).text = t.text := rfl

@[simp] theorem Token.contents_later (n : Nat) (t : Token) :
    (t.later n).contents = t.contents := rfl

theorem Token.stop_later (n : Nat) (t : Token) : (t.later n).stop = n + t.stop :=
  Nat.add_assoc ..

@[simp] theorem Ahead.kind?_later (n : Nat) (a : Ahead) : (a.later n).kind? = a.kind? := by
  cases a <;> rfl

@[simp] theorem Ahead.position_later (n : Nat) (a : Ahead) :
    (a.later n).position = n + a.position := by
  cases a <;> rfl

theorem mismatch_later (n : Nat) (expected : Expected) (seen : Ahead) :
    mismatch expected (seen.later n) = (mismatch expected seen).later n := by
  cases seen <;> rfl

theorem Stream.lookahead_later (n : Nat) (s : Stream) :
    (s.later n).lookahead = match s.lookahead with
      | .ok seen => .ok (seen.later n)
      | .error e => .error (e.later n) := by
  obtain ⟨ahead, ending, position⟩ := s
  cases ahead <;> cases ending <;> rfl

theorem Stream.skip_later (n : Nat) (s : Stream) : (s.later n).skip = s.skip.later n := by
  obtain ⟨ahead, ending, position⟩ := s
  cases ahead with
  | nil => rfl
  | cons t ts => simp [skip, later, Token.stop_later]

theorem Progress.tail_later (n : Nat) (earlier : List Event) (s : Progress) :
    (s.later n earlier).tail = s.tail.later n earlier := by
  simp [tail, later, Stream.skip_later]

theorem Progress.length_lexemes_later (n : Nat) (earlier : List Event) (s : Progress) :
    (s.later n earlier).lexemes.length = s.lexemes.length := by
  simp [lexemes, later, Stream.later]

/-! ## Texts -/

/-- What stands at a place, `n` bytes later. -/
def Reading.later (n : Nat) : Reading → Reading
  | .token t rest => .token (t.later n) rest
  | .endOfText position => .endOfText (n + position)
  | .unterminated start => .unterminated (n + start)
  | .unexpected start d rest => .unexpected (n + start) d rest

theorem reading_later (n position : Nat) (cs : List Char) :
    Reading.ofChars (n + position) cs = (Reading.ofChars position cs).later n := by
  unfold Reading.ofChars
  split
  · simp [Reading.later, Nat.add_assoc]
  · split <;> simp [Reading.later, Token.later, Nat.add_assoc]

/-- **The same characters some bytes later give the same tokens that many bytes later.** -/
theorem ofChars_later (n position : Nat) (cs : List Char) :
    TokenList.ofChars (n + position) cs = (TokenList.ofChars position cs).later n := by
  fun_induction TokenList.ofChars position cs with
  | case1 position cs t rest h after ih =>
    have hlater := (reading_later n position cs).trans (congrArg (Reading.later n) h)
    rw [ofChars_of_token hlater, Token.stop_later, ih]
    rfl
  | case2 position cs m h | case3 position cs m h | case4 position cs m d ds h =>
    have hlater := (reading_later n position cs).trans (congrArg (Reading.later n) h)
    rw [TokenList.ofChars]
    split <;> rename_i h' <;> rw [hlater] at h' <;> cases h'
    rfl

/-! ## Parsers -/

/-- What a parser comes to, `n` bytes later and after earlier reports; results change by
`change`. -/
def laterResult {α : Type} (n : Nat) (earlier : List Event) (change : α → α) :
    EStateM.Result Failure Progress α → EStateM.Result Failure Progress α
  | .ok a s => .ok (change a) (s.later n earlier)
  | .error f s => .error (f.later n) (s.later n earlier)

/-- Some bytes later `p'` does what `p` does here, except that results change by `change`. -/
def Follows {α : Type} (n : Nat) (change : α → α) (p' p : Parse α) : Prop :=
  ∀ earlier s, p' (s.later n earlier) = laterResult n earlier change (p s)

namespace Follows

variable {α β : Type} {n : Nat} {change : α → α} {change' : β → β} {p p' : Parse α}
  {f f' : α → Parse β}

theorem pure (a : α) : Follows n id (pure a) (pure a) := fun _ _ => rfl

theorem fail {e e' : ParseError} (h : e' = e.later n) :
    Follows n change (Parse.fail e' : Parse α) (Parse.fail e) := by
  subst h
  exact fun _ _ => rfl

theorem bind (hp : Follows n change p' p) (hf : ∀ a, Follows n change' (f' (change a)) (f a)) :
    Follows n change' (p' >>= f') (p >>= f) := by
  intro earlier s
  simp only [Bind.bind, EStateM.bind, hp earlier s]
  cases p s with
  | ok a s₁ => exact hf a earlier s₁
  | error => rfl

theorem holding (hp : Follows n change p' p) (e : Fragment) :
    Follows n change (holding e p') (Dql.holding e p) := by
  intro earlier s
  simp only [Dql.holding, EStateM.adaptExcept, hp earlier s]
  cases p s <;> rfl

theorem holdingAll (hp : Follows n change p' p) (es : List Expr) :
    Follows n change (holdingAll es p') (Dql.holdingAll es p) := by
  intro earlier s
  simp only [Dql.holdingAll, EStateM.adaptExcept, hp earlier s]
  cases p s <;> rfl

theorem discard (hp : Follows n change p' p) :
    Follows n id (discard p' : Parse Unit) (Functor.discard p) :=
  hp.bind fun _ => pure ()

/-! ### Steps over tokens -/

variable (n)

theorem peek : Follows n (Ahead.later n) peek peek := by
  intro earlier s
  have hlookahead := Stream.lookahead_later n s.stream
  cases hseen : s.stream.lookahead with
  | ok seen =>
    rw [hseen] at hlookahead
    rw [peek_ok_iff.2 ⟨hlookahead, rfl⟩, peek_ok_iff.2 ⟨hseen, rfl⟩]
    rfl
  | error cause =>
    rw [hseen] at hlookahead
    rw [peek_eq_error hlookahead, peek_eq_error hseen]
    rfl

theorem peekSecond : Follows n (Ahead.later n) peekSecond peekSecond := by
  intro earlier s
  have hlookahead := Stream.lookahead_later n s.tail.stream
  rw [show s.tail.stream.later n = (s.later n earlier).tail.stream by
    rw [Progress.tail_later]; rfl] at hlookahead
  cases hseen : s.tail.stream.lookahead with
  | ok seen =>
    rw [hseen] at hlookahead
    rw [peekSecond_ok_iff.2 ⟨hlookahead, rfl⟩, peekSecond_ok_iff.2 ⟨hseen, rfl⟩]
    rfl
  | error cause =>
    rw [hseen] at hlookahead
    rw [peekSecond_eq_error hlookahead, peekSecond_eq_error hseen]
    rfl

theorem advance : Follows n id advance advance := by
  intro earlier s
  rw [advance_eq, advance_eq, Progress.tail_later]
  rfl

theorem take (kind : TokenKind) : Follows n (Token.later n) (take kind) (take kind) := by
  refine (peek n).bind fun seen => ?_
  cases seen with
  | endOfText => exact fail (mismatch_later ..)
  | token t =>
    simp only [Ahead.later]
    by_cases hk : t.kind = kind
    · have hk' : (t.later n).kind = kind := hk
      rw [if_pos hk, if_pos hk']
      exact (advance n).bind fun _ _ _ => rfl
    · have hk' : (t.later n).kind ≠ kind := hk
      rw [if_neg hk, if_neg hk']
      exact fail (mismatch_later n _ (.token t))

theorem discard_take (kind : TokenKind) :
    Follows n id (Functor.discard (Dql.take kind) : Parse Unit) (Functor.discard (Dql.take kind)) :=
  (take n kind).discard

theorem takeIf (kind : TokenKind) : Follows n id (takeIf kind) (takeIf kind) := by
  intro earlier s
  have hnext : NextIs kind (s.later n earlier).lexemes ↔ NextIs kind s.lexemes := by
    unfold NextIs Progress.lexemes Progress.later Stream.later
    cases s.stream.ahead <;> rfl
  by_cases h : NextIs kind s.lexemes
  · rw [takeIf_of_next h, takeIf_of_next (hnext.2 h), Progress.tail_later]
    rfl
  · rw [takeIf_of_not_next h, takeIf_of_not_next (mt hnext.1 h)]
    rfl

theorem tokensAhead : Follows n id tokensAhead tokensAhead := by
  intro earlier s
  rw [tokensAhead_eq, tokensAhead_eq, Progress.length_lexemes_later]
  rfl

theorem expectEnd : Follows n id expectEnd expectEnd := by
  refine (peek n).bind fun seen => ?_
  cases seen with
  | endOfText => exact pure ()
  | token t => exact fail (mismatch_later n _ (.token t))

theorem dispatch (name : Token) : Follows n id (dispatch (name.later n)) (Dql.dispatch name) := by
  intro earlier s
  rw [dispatch_eq, dispatch_eq]
  simp [laterResult, Progress.later, Event.later, Token.later]

end Follows

section Grammar

variable {n : Nat} {catalog : Catalog} {primary : PrimaryParser}

theorem factor_follows (hp : Follows n id (primary .arithmetic) (primary .arithmetic)) :
    Follows n id (factor primary) (factor primary) := by
  refine (Follows.peek n).bind fun seen => ?_
  rw [Ahead.kind?_later]
  cases seen.kind?.bind TokenKind.sign? with
  | none => exact hp
  | some sign => exact (Follows.advance n).bind fun _ => hp.bind fun _ => .pure _

theorem operators_follows (hp : Follows n id (primary .arithmetic) (primary .arithmetic)) :
    ∀ (bound least : Nat) (left : Expr),
      Follows n id (operators primary bound least left) (operators primary bound least left)
  | 0, least, left => by
    rw [operators]
    refine ((Follows.peek n).holding left).bind fun seen => ?_
    rw [Ahead.kind?_later]
    cases seen.kind?.bind TokenKind.operator? with
    | none => exact .pure left
    | some op => simpa only [ite_self] using Follows.pure left
  | bound + 1, least, left => by
    rw [operators]
    refine ((Follows.peek n).holding left).bind fun seen => ?_
    rw [Ahead.kind?_later]
    cases seen.kind?.bind TokenKind.operator? with
    | none => exact .pure left
    | some op =>
      simp only
      split
      · exact .pure left
      · exact (Follows.advance n).bind fun _ =>
          ((factor_follows hp).holding left).bind fun operand =>
            ((operators_follows hp bound _ operand).holding left).bind fun _ =>
              operators_follows hp bound _ _

theorem expression_follows (hp : Follows n id (primary .arithmetic) (primary .arithmetic)) :
    Follows n id (expression primary) (expression primary) :=
  (factor_follows hp).bind fun operand => (Follows.tokensAhead n).bind fun bound =>
    operators_follows hp bound 0 operand

theorem moreArguments_follows (hp : Follows n id (primary .arithmetic) (primary .arithmetic)) :
    ∀ bound, Follows n id (moreArguments primary bound) (moreArguments primary bound)
  | 0 => .pure []
  | bound + 1 => by
    refine (Follows.takeIf n .comma).bind fun comma => ?_
    cases comma with
    | false => exact .pure []
    | true =>
      exact (expression_follows hp).bind fun arg =>
        ((moreArguments_follows hp bound).holding (.argument arg)).bind fun _ => .pure _

theorem arguments_follows (hp : Follows n id (primary .arithmetic) (primary .arithmetic)) :
    Follows n id (arguments primary) (arguments primary) := by
  refine (Follows.peek n).bind fun seen => ?_
  rw [Ahead.kind?_later]
  split
  · exact .pure []
  · exact (expression_follows hp).bind fun arg =>
      (((Follows.tokensAhead n).bind fun bound => moreArguments_follows hp bound).holding
        (.argument arg)).bind fun _ => .pure _

theorem fill_follows (hp : ∀ c, Follows n id (primary c) (primary c)) :
    ∀ pieces, Follows n id (fill primary pieces) (fill primary pieces)
  | [] => (Follows.discard_take n .parenRight).bind fun _ => .pure _
  | .word :: pieces =>
    (Follows.take n .identifier).bind fun _ => (fill_follows hp pieces).bind fun _ => .pure _
  | .keyword _ :: pieces =>
    (Follows.discard_take n .identifier).bind fun _ => fill_follows hp pieces
  | .comma :: pieces => (Follows.discard_take n .comma).bind fun _ => fill_follows hp pieces
  | .expression :: pieces =>
    (expression_follows (hp .arithmetic)).bind fun slot =>
      ((fill_follows hp pieces).holding slot).bind fun _ => .pure _
  | .primary accepts :: pieces =>
    (hp accepts).bind fun slot => ((fill_follows hp pieces).holding slot).bind fun _ => .pure _

theorem callHead_follows : Follows n id callHead callHead :=
  (Follows.discard_take n .identifier).bind fun _ => .discard_take n .parenLeft

theorem extensionCall_follows (hp : ∀ c, Follows n id (primary c) (primary c))
    (function : Extension) :
    Follows n id (extensionCall primary function) (extensionCall primary function) :=
  callHead_follows.bind fun _ => fill_follows hp function.form

theorem functionCall_follows (hp : ∀ c, Follows n id (primary c) (primary c)) (name : Token) :
    Follows n id (functionCall catalog primary (name.later n))
      (functionCall catalog primary name) := by
  unfold functionCall
  rw [Token.text_later]
  cases Builtin.ofName? name.text with
  | some function =>
    exact callHead_follows.bind fun _ => (arguments_follows (hp .arithmetic)).bind fun args =>
      ((Follows.take n .parenRight).holdingAll args).discard.bind fun _ => .pure _
  | none =>
    cases catalog.find? name.text with
    | some entry =>
      exact (Follows.dispatch n name).bind fun _ =>
        (extensionCall_follows hp _).bind fun _ => .pure _
    | none => exact .fail (mismatch_later n _ (.token name))

theorem nestedPrimary_follows (hp : ∀ c, Follows n id (primary c) (primary c))
    (accepts : PrimaryClass) :
    Follows n id (nestedPrimary catalog primary accepts)
      (nestedPrimary catalog primary accepts) := by
  refine (Follows.peek n).bind fun seen => ?_
  cases seen with
  | endOfText => exact .fail (mismatch_later ..)
  | token t =>
    have hfail : ∀ expected, Follows n id (Parse.fail (mismatch expected (.token (t.later n))) :
        Parse Expr) (Parse.fail (mismatch expected (.token t))) := fun expected =>
      .fail (mismatch_later n expected (.token t))
    have hleaf : ∀ e : Expr, Follows n id (do advance; return e) (do advance; return e) := fun e =>
      (Follows.advance n).bind fun _ => .pure e
    simp only [Ahead.later, Token.kind_later, Token.text_later, Token.contents_later]
    cases t.kind with
    | parenLeft =>
      cases accepts with
      | string => exact hfail _
      | arithmetic =>
        exact (Follows.advance n).bind fun _ => (expression_follows (hp .arithmetic)).bind
          fun inner => ((Follows.take n .parenRight).holding inner).discard.bind fun _ => .pure _
    | integer | float =>
      cases accepts with
      | string => exact hfail _
      | arithmetic => exact hleaf _
    | string | parameter | path => exact hleaf _
    | identifier =>
      refine (Follows.peekSecond n).bind fun second => ?_
      rw [Ahead.kind?_later]
      split
      · exact functionCall_follows hp t
      · cases accepts with
        | arithmetic => exact hleaf _
        | string => exact hfail _
    | parenRight | comma | plus | minus | asterisk | slash => exact hfail _

end Grammar

/-- **A primary is parsed some bytes later as it is here.** -/
theorem primary_follows (catalog : Catalog) (n : Nat) : ∀ (room : Nat) (accepts : PrimaryClass),
    Follows n id (primary catalog room accepts) (primary catalog room accepts)
  | 0, _ => (Follows.peek n).bind fun seen => .fail (by rw [Ahead.position_later]; rfl)
  | room + 1, accepts => nestedPrimary_follows (primary_follows catalog n room) accepts

/-! ## Reports -/

theorem Stream.later_zero (s : Stream) : s.later 0 = s := by
  obtain ⟨ahead, ending, position⟩ := s
  have htoken : Token.later 0 = id := by
    funext t
    simp [Token.later]
  cases ending <;> simp [later, htoken, Ending.later, LexicalError.later]

section Reports

variable {α : Type} {p : Parse α} {s s' s₁ : Progress}

/-- What was reported before is only put in front of what a parser reports. -/
theorem Follows.eq_behind_reports (hp : Follows 0 id p p) (s : Progress) :
    p s = laterResult 0 s.dispatched id (p ⟨s.stream, []⟩) := by
  have hs : Progress.later 0 s.dispatched ⟨s.stream, []⟩ = s := by
    simp [Progress.later, Stream.later_zero]
  rw [← hp, hs]

/-- A parser comes to the same, and as far, whatever was reported before. -/
theorem Follows.ok_of_stream_eq (hp : Follows 0 id p p) (hs : s'.stream = s.stream) {a : α}
    (h : p s = .ok a s₁) : ∃ s₁', p s' = .ok a s₁' ∧ s₁'.stream = s₁.stream := by
  rw [hp.eq_behind_reports] at h
  rw [hp.eq_behind_reports, hs]
  cases hbase : p ⟨s.stream, []⟩ with
  | ok b s₂ =>
    rw [hbase] at h
    cases h
    exact ⟨_, rfl, rfl⟩
  | error f s₂ =>
    rw [hbase] at h
    cases h

theorem Follows.error_of_stream_eq (hp : Follows 0 id p p) (hs : s'.stream = s.stream) {f : Failure}
    (h : p s = .error f s₁) : ∃ s₁', p s' = .error f s₁' ∧ s₁'.stream = s₁.stream := by
  rw [hp.eq_behind_reports] at h
  rw [hp.eq_behind_reports, hs]
  cases hbase : p ⟨s.stream, []⟩ with
  | ok b s₂ =>
    rw [hbase] at h
    cases h
  | error g s₂ =>
    rw [hbase] at h
    cases h
    exact ⟨_, rfl, rfl⟩

end Reports

end Dql
