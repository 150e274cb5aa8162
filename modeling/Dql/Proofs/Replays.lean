import Dql.Proofs.Lexing
import Dql.Proofs.Soundness

/-!
# Doing the same again

Whatever a parser did, it does again on any text that starts with the tokens that it took and goes
on with one that looks the same from there. This is said of two parsers, so that the second one may
have more room, and is put together from steps here.

* `Progress.list`, `TokenList.lookahead` - a parser's place as a list of tokens, and what is next;
* `Progress.Takes` - going over tokens from one state to another;
* `ParseError.StopsAt` - what an error says about the place where a parser stopped;
* `ParseError.LooksBeyond` - the errors given only after a look at a second token;
* `Replays` - what a parser does is done again by another one on all texts that look the same.

`Replays.bind` joins steps, and each kind of step has its lemma.
-/

namespace Dql

variable {α β : Type} {s : Progress}

/-! ## Places -/

/-- The tokens not yet taken and what comes after them. -/
def Progress.list (s : Progress) : TokenList := ⟨s.stream.ahead, s.stream.ending⟩

namespace TokenList

/-- What comes next. -/
def lookahead (l : TokenList) : Except LexicalError Ahead :=
  Stream.lookahead ⟨l.tokens, l.ending, 0⟩

/-- The list without its first token. -/
def tail (l : TokenList) : TokenList := ⟨l.tokens.tail, l.ending⟩

variable {l : TokenList} {t : Token}

theorem eq_prepend_of_lookahead (h : l.lookahead = .ok (.token t)) : l = l.tail.prepend [t] := by
  obtain ⟨tokens, ending⟩ := l
  unfold lookahead Stream.lookahead at h
  cases tokens with
  | cons => cases h; rfl
  | nil => cases ending <;> cases h

theorem eq_of_lookahead_endOfText {position : Nat} (h : l.lookahead = .ok (.endOfText position)) :
    l = ⟨[], .endOfText position⟩ := by
  obtain ⟨tokens, ending⟩ := l
  unfold lookahead Stream.lookahead at h
  cases tokens with
  | cons => cases h
  | nil => cases ending <;> cases h; rfl

theorem eq_of_lookahead_error {e : LexicalError} (h : l.lookahead = .error e) :
    l = ⟨[], .fault e⟩ := by
  obtain ⟨tokens, ending⟩ := l
  unfold lookahead Stream.lookahead at h
  cases tokens with
  | cons => cases h
  | nil => cases ending <;> cases h; rfl

/-- Where two lists look the same, so do those with the same tokens before them. -/
theorem lookahead_prepend {l' : TokenList} (h : l.lookahead = l'.lookahead) :
    (ts : List Token) → (l.prepend ts).lookahead = (l'.prepend ts).lookahead
  | [] => h
  | _ :: _ => rfl

end TokenList

namespace Progress

theorem lookahead_list (s : Progress) : s.list.lookahead = s.stream.lookahead := rfl

@[simp] theorem list_tail (s : Progress) : s.tail.list = s.list.tail := by
  unfold tail list TokenList.tail Stream.skip
  cases h : s.stream.ahead <;> simp [h]

theorem list_of_lookahead {t : Token} (h : s.stream.lookahead = .ok (.token t)) :
    s.list = s.tail.list.prepend [t] := by
  rw [list_tail]
  exact TokenList.eq_prepend_of_lookahead h

/-- From one state to another, going over certain tokens: they come first, those after them are
left, and the byte offset is where the last of them stops. -/
structure Takes (s : Progress) (taken : List Token) (s₁ : Progress) : Prop where
  list : s.list = s₁.list.prepend taken
  position : s₁.stream.position = (taken.getLast?.map Token.stop).getD s.stream.position

namespace Takes

variable {s₁ s₂ : Progress} {taken taken₂ : List Token} {t : Token}

theorem nil (s : Progress) : s.Takes [] s := ⟨rfl, rfl⟩

theorem trans (h₁ : s.Takes taken s₁) (h₂ : s₁.Takes taken₂ s₂) : s.Takes (taken ++ taken₂) s₂ := by
  refine ⟨by rw [h₁.list, h₂.list, TokenList.prepend_prepend], ?_⟩
  rw [h₂.position, h₁.position, List.getLast?_append]
  cases taken₂.getLast? <;> rfl

/-- What is taken is no longer ahead. -/
theorem length_eq (h : s.Takes taken s₁) :
    s.lexemes.length = taken.length + s₁.lexemes.length := by
  have htokens : s.stream.ahead = taken ++ s₁.stream.ahead := congrArg TokenList.tokens h.list
  simp [lexemes, htokens]

theorem one (h : s.stream.lookahead = .ok (.token t)) : s.Takes [t] s.tail := by
  refine ⟨list_of_lookahead h, ?_⟩
  unfold Stream.lookahead at h
  cases hahead : s.stream.ahead with
  | nil => rw [hahead] at h; cases he : s.stream.ending <;> rw [he] at h <;> cases h
  | cons u us =>
    rw [hahead] at h
    cases h
    simp [tail, Stream.skip, hahead]

end Takes

end Progress

/-! ## Places of errors -/

/-- Whether an error about the place `l` was only given after a look at its second token: where a
name stands that could be that of a call. -/
def ParseError.LooksBeyond (e : ParseError) (l : TokenList) : Prop :=
  match e with
  | .mismatch _ expected _ => expected = .knownFunction ∨
      expected = .primary .string ∧ ∃ t, l.lookahead = .ok (.token t) ∧ t.kind = .identifier
  | _ => False

/-- What an error says about the place `l` where the parser stopped. A lexical error is what comes
there, or right after a name. -/
def ParseError.StopsAt (e : ParseError) (l : TokenList) : Prop :=
  match e with
  | .lexical cause => l.lookahead = .error cause ∨
      ∃ t, l.lookahead = .ok (.token t) ∧ t.kind = .identifier ∧ l.tail.lookahead = .error cause
  | .mismatch _ expected _ => (∃ seen, l.lookahead = .ok seen ∧ e = Dql.mismatch expected seen) ∧
      (e.LooksBeyond l → ∃ second, l.tail.lookahead = .ok second)
  | .tooDeep position => ∃ seen, l.lookahead = .ok seen ∧ position = seen.position

/-- Whether an error is about a token, or the end of the text, that was found where something else
was looked for. -/
def ParseError.IsMismatch : ParseError → Prop
  | .mismatch .. => True
  | _ => False

/-! ## Doing the same again -/

/-- What `p` does in the state `s` is done again by `p'`: both take the same tokens, wherever these
come first and what comes after them looks the same. What `p` does is a success or a mismatch; of
other errors nothing is said but where they stop. -/
def Replays (p p' : Parse α) (s : Progress) : Prop :=
  match p s with
  | .ok a s₁ => ∃ taken, s.Takes taken s₁ ∧
      ∀ (rest : TokenList) (s' : Progress), rest.lookahead = s₁.list.lookahead →
        s'.list = rest.prepend taken → ∃ s₁', p' s' = .ok a s₁' ∧ s₁'.list = rest
  | .error f s₁ => ∃ taken, s.Takes taken s₁ ∧ f.error.StopsAt s₁.list ∧
      ∀ (rest : TokenList) (s' : Progress), rest.lookahead = s₁.list.lookahead →
        (f.error.LooksBeyond s₁.list → rest.tail.lookahead = s₁.list.tail.lookahead) →
        s'.list = rest.prepend taken → f.error.IsMismatch →
        ∃ f' s₁', p' s' = .error f' s₁' ∧ f'.error = f.error

namespace Replays

variable {p p' : Parse α} {f f' : α → Parse β} {e : Expr}

theorem of_ok {a : α} {s₁ : Progress} (h : p s = .ok a s₁) (taken : List Token)
    (htakes : s.Takes taken s₁)
    (hreplay : ∀ (rest : TokenList) (s' : Progress), rest.lookahead = s₁.list.lookahead →
      s'.list = rest.prepend taken → ∃ s₁', p' s' = .ok a s₁' ∧ s₁'.list = rest) :
    Replays p p' s := by
  rw [Replays, h]
  exact ⟨taken, htakes, hreplay⟩

theorem ok {a : α} {s₁ : Progress} (hp : Replays p p' s) (h : p s = .ok a s₁) :
    ∃ taken, s.Takes taken s₁ ∧
      ∀ (rest : TokenList) (s' : Progress), rest.lookahead = s₁.list.lookahead →
        s'.list = rest.prepend taken → ∃ s₁', p' s' = .ok a s₁' ∧ s₁'.list = rest := by
  rw [Replays, h] at hp
  exact hp

theorem error {g : Failure} {s₁ : Progress} (hp : Replays p p' s) (h : p s = .error g s₁) :
    ∃ taken, s.Takes taken s₁ ∧ g.error.StopsAt s₁.list ∧
      ∀ (rest : TokenList) (s' : Progress), rest.lookahead = s₁.list.lookahead →
        (g.error.LooksBeyond s₁.list → rest.tail.lookahead = s₁.list.tail.lookahead) →
        s'.list = rest.prepend taken → g.error.IsMismatch →
        ∃ g' s₁', p' s' = .error g' s₁' ∧ g'.error = g.error := by
  rw [Replays, h] at hp
  exact hp

theorem pure (a : α) (s : Progress) : Replays (pure a) (pure a) s :=
  of_ok rfl [] (.nil s) fun _ s' _ hs' => ⟨s', rfl, hs'⟩

/-- A failure at once. -/
theorem fail {err : ParseError} (h : err.StopsAt s.list) (hp : p s = .error { error := err } s)
    (hreplay : ∀ s', s'.list.lookahead = s.list.lookahead →
      (err.LooksBeyond s.list → s'.list.tail.lookahead = s.list.tail.lookahead) → err.IsMismatch →
      p' s' = .error { error := err } s') : Replays p p' s := by
  rw [Replays, hp]
  refine ⟨[], .nil s, h, fun rest s' hrest hbeyond hs' hmismatch => ?_⟩
  obtain rfl : s'.list = rest := hs'
  exact ⟨_, _, hreplay s' hrest hbeyond hmismatch, rfl⟩

theorem bind (hp : Replays p p' s)
    (hf : ∀ a s₁, p s = .ok a s₁ → Replays (f a) (f' a) s₁) :
    Replays (p >>= f) (p' >>= f') s := by
  cases hps : p s with
  | error g s₁ =>
    obtain ⟨taken, htakes, hstops, hreplay⟩ := hp.error hps
    rw [Replays, Parse.bind_of_error hps]
    refine ⟨taken, htakes, hstops, fun rest s' hrest hbeyond hs' hmismatch => ?_⟩
    obtain ⟨g', s₁', hp', hg'⟩ := hreplay rest s' hrest hbeyond hs' hmismatch
    exact ⟨g', s₁', Parse.bind_of_error hp' f', hg'⟩
  | ok a s₁ =>
    obtain ⟨taken, htakes, hreplay⟩ := hp.ok hps
    have hfa := hf a s₁ hps
    rw [Replays, Parse.bind_of_ok hps]
    cases hfs : f a s₁ with
    | ok b s₂ =>
      obtain ⟨taken₂, htakes₂, hreplay₂⟩ := hfa.ok hfs
      refine ⟨taken ++ taken₂, htakes.trans htakes₂, ?_⟩
      intro rest s' hrest hs'
      rw [← TokenList.prepend_prepend] at hs'
      obtain ⟨s₁', hp', hs₁'⟩ := hreplay _ s'
        (by rw [htakes₂.list]; exact TokenList.lookahead_prepend hrest taken₂) hs'
      obtain ⟨s₂', hf', hs₂'⟩ := hreplay₂ rest s₁' hrest hs₁'
      exact ⟨s₂', by rw [Parse.bind_of_ok hp', hf'], hs₂'⟩
    | error g s₂ =>
      obtain ⟨taken₂, htakes₂, hstops, hreplay₂⟩ := hfa.error hfs
      refine ⟨taken ++ taken₂, htakes.trans htakes₂, hstops, ?_⟩
      intro rest s' hrest hbeyond hs' hmismatch
      rw [← TokenList.prepend_prepend] at hs'
      obtain ⟨s₁', hp', hs₁'⟩ := hreplay _ s'
        (by rw [htakes₂.list]; exact TokenList.lookahead_prepend hrest taken₂) hs'
      obtain ⟨g', s₂', hf', hg'⟩ := hreplay₂ rest s₁' hrest hbeyond hs₁' hmismatch
      exact ⟨g', s₂', by rw [Parse.bind_of_ok hp', hf'], hg'⟩

/-- What is noted about a failure leaves its error as it is. -/
theorem adapt (hp : Replays p p' s) {note : Failure → Failure}
    (hnote : ∀ g, (note g).error = g.error) :
    Replays (p.adaptExcept note) (p'.adaptExcept note) s := by
  unfold Replays EStateM.adaptExcept at *
  cases hps : p s with
  | ok a s₁ =>
    rw [hps] at hp
    obtain ⟨taken, htakes, hreplay⟩ := hp
    refine ⟨taken, htakes, fun rest s' hrest hs' => ?_⟩
    obtain ⟨s₁', hp', hs₁'⟩ := hreplay rest s' hrest hs'
    exact ⟨s₁', by rw [hp'], hs₁'⟩
  | error g s₁ =>
    rw [hps] at hp
    simp only [hnote]
    obtain ⟨taken, htakes, hstops, hreplay⟩ := hp
    refine ⟨taken, htakes, hstops, fun rest s' hrest hbeyond hs' hmismatch => ?_⟩
    obtain ⟨g', s₁', hp', hg'⟩ := hreplay rest s' hrest hbeyond hs' hmismatch
    exact ⟨_, s₁', by rw [hp'], by rw [hnote, hg']⟩

theorem holding (hp : Replays p p' s) (e : Fragment) :
    Replays (holding e p) (Dql.holding e p') s :=
  hp.adapt fun _ => rfl

theorem holdingAll (hp : Replays p p' s) (es : List Expr) :
    Replays (holdingAll es p) (Dql.holdingAll es p') s :=
  hp.adapt fun _ => rfl

theorem discard (hp : Replays p p' s) :
    Replays (discard p : Parse Unit) (Functor.discard p' : Parse Unit) s :=
  hp.bind fun _ s₁ _ => pure () s₁

/-- A failure at once, for want of a token. -/
theorem fail_lexical {cause : LexicalError} (h : (ParseError.lexical cause).StopsAt s.list)
    (hp : p s = .error { error := .lexical cause } s) : Replays p p' s :=
  fail h hp fun _ _ _ hmismatch => hmismatch.elim

/-! ### Steps over tokens -/

theorem peek (s : Progress) : Replays peek Dql.peek s := by
  cases hseen : s.stream.lookahead with
  | ok seen =>
    refine of_ok (peek_ok_iff.2 ⟨hseen, rfl⟩) [] (.nil s) fun rest s' hrest hs' => ?_
    obtain rfl : s'.list = rest := hs'
    exact ⟨s', peek_ok_iff.2 ⟨hrest.trans hseen, rfl⟩, rfl⟩
  | error cause =>
    exact fail_lexical (.inl hseen) (peek_eq_error hseen)

/-- Taking the next token, whatever it is. -/
theorem advance {t : Token} (h : s.stream.lookahead = .ok (.token t)) :
    Replays advance Dql.advance s := by
  refine of_ok advance_eq [t] (.one h) fun rest s' _ hs' => ?_
  refine ⟨s'.tail, advance_eq, ?_⟩
  rw [Progress.list_tail, hs']
  rfl

/-- A mismatch with what is seen, found without a look beyond it. -/
theorem fail_mismatch {expected : Expected} {seen : Ahead} (h : s.stream.lookahead = .ok seen)
    (hbeyond : ¬ (mismatch expected seen).LooksBeyond s.list) :
    Replays (Parse.fail (mismatch expected seen) : Parse α) (Parse.fail (mismatch expected seen))
      s :=
  have hstops : (mismatch expected seen).StopsAt s.list :=
    ⟨⟨seen, h, rfl⟩, fun hb => absurd hb hbeyond⟩
  fail hstops rfl fun _ _ _ _ => rfl

theorem take (kind : TokenKind) (s : Progress) : Replays (take kind) (Dql.take kind) s := by
  have hnear : ∀ seen, ¬ (mismatch (.token kind) seen).LooksBeyond s.list := by
    rintro seen (h | ⟨h, -⟩) <;> cases h
  refine (peek s).bind fun seen s₁ hpeek => ?_
  obtain ⟨hseen, rfl⟩ := peek_ok_iff.1 hpeek
  cases seen with
  | endOfText => exact fail_mismatch hseen (hnear _)
  | token t =>
    simp only
    split
    · exact (advance hseen).bind fun _ s₁ _ => pure t s₁
    · exact fail_mismatch hseen (hnear _)

theorem discard_take (kind : TokenKind) (s : Progress) :
    Replays (Functor.discard (Dql.take kind) : Parse Unit) (Functor.discard (Dql.take kind)) s :=
  (take kind s).discard

theorem nextIs_of_lookahead {kind : TokenKind} {s' : Progress}
    (h : s'.list.lookahead = s.list.lookahead) (hnext : NextIs kind s'.lexemes) :
    NextIs kind s.lexemes := by
  obtain ⟨l, hls, hl⟩ := Progress.exists_next hnext
  obtain ⟨t, ts, ht, rfl⟩ := Progress.exists_token hls
  have hs := h.symm.trans (Progress.lookahead_cons ht)
  rw [Progress.lexemes_of_lookahead hs]
  exact congrArg some hl

theorem takeIf (kind : TokenKind) (s : Progress) : Replays (takeIf kind) (Dql.takeIf kind) s := by
  by_cases hnext : NextIs kind s.lexemes
  · obtain ⟨l, hls, hl⟩ := Progress.exists_next hnext
    obtain ⟨t, ts, ht, rfl⟩ := Progress.exists_token hls
    have htakes := Progress.Takes.one (Progress.lookahead_cons ht)
    refine of_ok (takeIf_of_next hnext) [t] htakes fun rest s' _ hs' => ⟨s'.tail, ?_, ?_⟩
    · refine takeIf_of_next ?_
      have hls' : s'.lexemes = t.lexeme :: rest.lexemes := congrArg TokenList.lexemes hs'
      rw [hls']
      exact congrArg some hl
    · rw [Progress.list_tail, hs']
      rfl
  · refine of_ok (takeIf_of_not_next hnext) [] (.nil s) fun rest s' hrest hs' => ?_
    obtain rfl : s'.list = rest := hs'
    exact ⟨s', takeIf_of_not_next fun h => hnext (nextIs_of_lookahead hrest h), rfl⟩

theorem dispatch (name : Token) (s : Progress) :
    Replays (dispatch name) (Dql.dispatch name) s :=
  of_ok rfl [] ⟨rfl, rfl⟩ fun _ _ _ hs' => ⟨_, rfl, hs'⟩

theorem expectEnd (s : Progress) : Replays expectEnd Dql.expectEnd s := by
  refine (peek s).bind fun seen s₁ hpeek => ?_
  obtain ⟨hseen, rfl⟩ := peek_ok_iff.1 hpeek
  cases seen with
  | endOfText => exact pure () s
  | token t => exact fail_mismatch hseen (by rintro (h | ⟨h, -⟩) <;> cases h)

end Replays

end Dql
