import Dql.Proofs.Lookahead

/-!
# Parsers that agree until one gives up

Two parsers over one text may differ only in that the first gives up earlier, by errors of a certain
kind. Up to there it does the same, so the second one has then come as far or farther. This is put
together from steps: where the parsers for primaries agree, so do all that are made of them.

* `Parse.after` - where a parser leaves off;
* `AgreesAt` - the relation in one state;
* `Agrees` - the relation in all states with fewer lexemes ahead than some number.

Principal results: `expression_agrees`, `fill_agrees`, `nestedPrimary_agrees` and
`functionCall_agrees`.
-/

namespace Dql

variable {α β : Type} {early : ParseError → Prop} {s s₁ : Progress} {n : Nat}

/-! ## Going over tokens -/

/-- The state in which a parser leaves off, be it by success or by failure. -/
def Parse.after (p : Parse α) (s : Progress) : Progress :=
  match p s with
  | .ok _ s₁ => s₁
  | .error _ s₁ => s₁

theorem Parse.after_of_ok {p : Parse α} {a : α} (h : p s = .ok a s₁) : p.after s = s₁ := by
  simp only [Parse.after, h]

theorem Parse.after_of_error {p : Parse α} {f : Failure} (h : p s = .error f s₁) :
    p.after s = s₁ := by
  simp only [Parse.after, h]

namespace Progress

/-- From one state to another, going over some tokens. -/
def GoesTo (s s₁ : Progress) : Prop := ∃ taken, s.Takes taken s₁

theorem GoesTo.refl (s : Progress) : s.GoesTo s := ⟨[], .nil s⟩

theorem GoesTo.trans {s₂ : Progress} (h₁ : s.GoesTo s₁) (h₂ : s₁.GoesTo s₂) : s.GoesTo s₂ := by
  obtain ⟨taken, h₁⟩ := h₁
  obtain ⟨taken₂, h₂⟩ := h₂
  exact ⟨taken ++ taken₂, h₁.trans h₂⟩

/-- Going over the next token, if there is one. -/
theorem goesTo_tail (s : Progress) : s.GoesTo s.tail := by
  cases hahead : s.stream.ahead with
  | nil =>
    refine ⟨[], ?_, ?_⟩
    · rw [list_tail]
      simp [list, TokenList.tail, hahead]
    · simp [tail, Stream.skip, hahead]
  | cons t ts => exact ⟨[t], .one (lookahead_cons hahead)⟩

theorem GoesTo.length_le (h : s.GoesTo s₁) : s₁.lexemes.length ≤ s.lexemes.length := by
  obtain ⟨taken, h⟩ := h
  have hlength := h.length_eq
  omega

end Progress

/-! ## The relation -/

/-- In the state `s` the parser `p` does what `q` does, or fails early, where `q` gets to as well.
And `q` goes over tokens and does nothing else to the text. -/
structure AgreesAt (early : ParseError → Prop) (p q : Parse α) (s : Progress) : Prop where
  goes : s.GoesTo (q.after s)
  same_or_early : p s = q s ∨
    ∃ f s₁, p s = .error f s₁ ∧ early f.error ∧ s₁.GoesTo (q.after s)

/-- The same in all states with fewer than `n` lexemes ahead. -/
def Agrees (n : Nat) (early : ParseError → Prop) (p q : Parse α) : Prop :=
  ∀ s : Progress, s.lexemes.length < n → AgreesAt early p q s

namespace AgreesAt

variable {p q : Parse α} {f g : α → Parse β}

theorem refl (h : s.GoesTo (q.after s)) : AgreesAt early q q s := ⟨h, .inl rfl⟩

/-- A parser agrees with itself if it is known to go over tokens. -/
theorem of_replays (h : Replays q q s) : AgreesAt early q q s := by
  refine refl ?_
  cases hq : q s with
  | ok a s₁ =>
    obtain ⟨taken, htakes, -⟩ := h.ok hq
    exact Parse.after_of_ok hq ▸ ⟨taken, htakes⟩
  | error g s₁ =>
    obtain ⟨taken, htakes, -⟩ := h.error hq
    exact Parse.after_of_error hq ▸ ⟨taken, htakes⟩

theorem pure (a : α) (s : Progress) : AgreesAt early (pure a) (pure a) s := refl (.refl s)

theorem fail (e : ParseError) (s : Progress) :
    AgreesAt early (Parse.fail e : Parse α) (Parse.fail e) s := refl (.refl s)

theorem bind (hp : AgreesAt early p q s)
    (hf : ∀ a s₁, q s = .ok a s₁ → s.GoesTo s₁ → AgreesAt early (f a) (g a) s₁) :
    AgreesAt early (p >>= f) (q >>= g) s := by
  cases hq : q s with
  | error e s₁ =>
    have hbind : (q >>= g) s = .error e s₁ := Parse.bind_of_error hq g
    have hafter : (q >>= g).after s = q.after s := by
      rw [Parse.after_of_error hbind, Parse.after_of_error hq]
    refine ⟨hafter ▸ hp.goes, ?_⟩
    rw [hafter]
    refine hp.same_or_early.imp (fun hsame => ?_) ?_
    · rw [hbind, Parse.bind_of_error (hsame.trans hq)]
    · rintro ⟨e', s', hp', hearly, hgoes⟩
      exact ⟨e', s', Parse.bind_of_error hp' f, hearly, hgoes⟩
  | ok a s₁ =>
    have hgoes : s.GoesTo s₁ := Parse.after_of_ok hq ▸ hp.goes
    have hfa := hf a s₁ hq hgoes
    have hbind : (q >>= g) s = g a s₁ := Parse.bind_of_ok hq g
    have hafter : (q >>= g).after s = (g a).after s₁ := by simp only [Parse.after, hbind]
    refine ⟨hafter ▸ hgoes.trans hfa.goes, ?_⟩
    rw [hafter, hbind]
    obtain hsame | ⟨e', s', hp', hearly, hgoes'⟩ := hp.same_or_early
    · rw [Parse.bind_of_ok (hsame.trans hq)]
      exact hfa.same_or_early
    · rw [Parse.after_of_ok hq] at hgoes'
      exact .inr ⟨e', s', Parse.bind_of_error hp' f, hearly, hgoes'.trans hfa.goes⟩

/-- What is noted about a failure leaves its error as it is. -/
theorem adapt (hp : AgreesAt early p q s) {note : Failure → Failure}
    (hnote : ∀ g, (note g).error = g.error) :
    AgreesAt early (p.adaptExcept note) (q.adaptExcept note) s := by
  have hafter : Parse.after (q.adaptExcept note) s = q.after s := by
    simp only [Parse.after, EStateM.adaptExcept]
    cases q s <;> rfl
  refine ⟨hafter ▸ hp.goes, ?_⟩
  rw [hafter]
  refine hp.same_or_early.imp (fun hsame => ?_) ?_
  · simp only [EStateM.adaptExcept, hsame]
  · rintro ⟨e', s', hp', hearly, hgoes⟩
    exact ⟨note e', s', by simp only [EStateM.adaptExcept, hp'], by rwa [hnote], hgoes⟩

/-- Where nothing counts as early, parsers that agree do the same. -/
theorem eq (h : AgreesAt (fun _ => False) p q s) : p s = q s :=
  h.same_or_early.elim id fun ⟨_, _, _, hearly, _⟩ => hearly.elim

end AgreesAt

namespace Agrees

variable {p q : Parse α} {f g : α → Parse β}

theorem of_replays (h : ∀ s, Replays q q s) : Agrees n early q q := fun s _ => .of_replays (h s)

theorem pure (a : α) : Agrees n early (pure a) (pure a) := fun s _ => .pure a s

theorem fail (e : ParseError) : Agrees n early (Parse.fail e : Parse α) (Parse.fail e) :=
  fun s _ => .fail e s

theorem bind (hp : Agrees n early p q) (hf : ∀ a, Agrees n early (f a) (g a)) :
    Agrees n early (p >>= f) (q >>= g) := fun s hs =>
  (hp s hs).bind fun a s₁ _ hgoes => hf a s₁ (Nat.lt_of_le_of_lt hgoes.length_le hs)

theorem holding (hp : Agrees n early p q) (e : Fragment) :
    Agrees n early (holding e p) (Dql.holding e q) := fun s hs => (hp s hs).adapt fun _ => rfl

theorem holdingAll (hp : Agrees n early p q) (es : List Expr) :
    Agrees n early (holdingAll es p) (Dql.holdingAll es q) := fun s hs =>
  (hp s hs).adapt fun _ => rfl

theorem discard (hp : Agrees n early p q) :
    Agrees n early (discard p : Parse Unit) (Functor.discard q) := hp.bind fun _ => pure ()

/-! ### Steps over tokens -/

theorem peek : Agrees n early peek peek := of_replays .peek

theorem peekSecond : Agrees n early peekSecond peekSecond := by
  intro s _
  have hafter : Dql.peekSecond.after s = s := by
    cases hsecond : s.tail.stream.lookahead with
    | ok seen => exact Parse.after_of_ok (peekSecond_ok_iff.2 ⟨hsecond, rfl⟩)
    | error cause => exact Parse.after_of_error (peekSecond_eq_error hsecond)
  refine .refl ?_
  rw [hafter]
  exact .refl s

theorem advance : Agrees n early advance advance := fun s _ => .refl s.goesTo_tail

theorem take (kind : TokenKind) : Agrees n early (take kind) (take kind) :=
  of_replays (.take kind)

theorem discard_take (kind : TokenKind) :
    Agrees n early (Functor.discard (Dql.take kind) : Parse Unit)
      (Functor.discard (Dql.take kind)) :=
  (take kind).discard

theorem takeIf (kind : TokenKind) : Agrees n early (takeIf kind) (takeIf kind) :=
  of_replays (.takeIf kind)

theorem tokensAhead : Agrees n early tokensAhead tokensAhead := fun s _ =>
  .refl (Parse.after_of_ok (tokensAhead_eq s) ▸ .refl s)

theorem expectEnd : Agrees n early expectEnd expectEnd := of_replays .expectEnd

theorem dispatch (name : Token) : Agrees n early (dispatch name) (dispatch name) :=
  of_replays (.dispatch name)

end Agrees

/-! ## The grammar -/

section Grammar

variable {primary primary' : PrimaryParser}

theorem factor_agrees (hp : Agrees n early (primary .arithmetic) (primary' .arithmetic)) :
    Agrees n early (factor primary) (factor primary') := by
  refine Agrees.peek.bind fun seen => ?_
  cases seen.kind?.bind TokenKind.sign? with
  | none => exact hp
  | some sign => exact Agrees.advance.bind fun _ => hp.bind fun _ => .pure _

theorem operators_agrees (hp : Agrees n early (primary .arithmetic) (primary' .arithmetic)) :
    ∀ (bound least : Nat) (left : Expr),
      Agrees n early (operators primary bound least left) (operators primary' bound least left)
  | 0, least, left => by
    rw [operators, operators]
    refine (Agrees.peek.holding left).bind fun seen => ?_
    cases seen.kind?.bind TokenKind.operator? with
    | none => exact .pure left
    | some op => simpa only [ite_self] using Agrees.pure left
  | bound + 1, least, left => by
    rw [operators, operators]
    refine (Agrees.peek.holding left).bind fun seen => ?_
    cases seen.kind?.bind TokenKind.operator? with
    | none => exact .pure left
    | some op =>
      simp only
      split
      · exact .pure left
      · exact Agrees.advance.bind fun _ => ((factor_agrees hp).holding left).bind fun operand =>
          ((operators_agrees hp bound _ operand).holding left).bind fun _ =>
            operators_agrees hp bound _ _

theorem expression_agrees (hp : Agrees n early (primary .arithmetic) (primary' .arithmetic)) :
    Agrees n early (expression primary) (expression primary') :=
  (factor_agrees hp).bind fun operand => Agrees.tokensAhead.bind fun bound =>
    operators_agrees hp bound 0 operand

theorem moreArguments_agrees (hp : Agrees n early (primary .arithmetic) (primary' .arithmetic)) :
    ∀ bound, Agrees n early (moreArguments primary bound) (moreArguments primary' bound)
  | 0 => .pure []
  | bound + 1 => by
    refine (Agrees.takeIf .comma).bind fun comma => ?_
    cases comma with
    | false => exact .pure []
    | true =>
      exact (expression_agrees hp).bind fun arg =>
        ((moreArguments_agrees hp bound).holding (.argument arg)).bind fun _ => .pure _

theorem arguments_agrees (hp : Agrees n early (primary .arithmetic) (primary' .arithmetic)) :
    Agrees n early (arguments primary) (arguments primary') := by
  refine Agrees.peek.bind fun seen => ?_
  split
  · exact .pure []
  · refine (expression_agrees hp).bind fun arg => ?_
    have hmore := Agrees.tokensAhead.bind fun bound => moreArguments_agrees hp bound
    exact (hmore.holding (.argument arg)).bind fun _ => .pure _

theorem fill_agrees (hp : ∀ c, Agrees n early (primary c) (primary' c)) :
    ∀ pieces, Agrees n early (fill primary pieces) (fill primary' pieces)
  | [] => (Agrees.discard_take .parenRight).bind fun _ => .pure _
  | .word :: pieces =>
    (Agrees.take .identifier).bind fun _ => (fill_agrees hp pieces).bind fun _ => .pure _
  | .keyword _ :: pieces => (Agrees.discard_take .identifier).bind fun _ => fill_agrees hp pieces
  | .comma :: pieces => (Agrees.discard_take .comma).bind fun _ => fill_agrees hp pieces
  | .expression :: pieces =>
    (expression_agrees (hp .arithmetic)).bind fun slot =>
      ((fill_agrees hp pieces).holding slot).bind fun _ => .pure _
  | .primary accepts :: pieces =>
    (hp accepts).bind fun slot => ((fill_agrees hp pieces).holding slot).bind fun _ => .pure _

/-- After the head of a call there are fewer lexemes ahead. -/
theorem callHead_agrees {f g : Unit → Parse β} (hf : Agrees n early (f ()) (g ())) :
    Agrees (n + 1) early (callHead >>= f) (callHead >>= g) := by
  intro s hs
  refine (AgreesAt.of_replays (callHead_replays s)).bind fun _ s₁ hok _ => hf s₁ ?_
  obtain ⟨l, left, hls, -⟩ := lexemes_of_callHead hok
  rw [hls, List.length_cons, List.length_cons] at hs
  omega

theorem functionCall_agrees {catalog : Catalog}
    (hp : ∀ c, Agrees n early (primary c) (primary' c)) (name : Token) :
    Agrees (n + 1) early (functionCall catalog primary name)
      (functionCall catalog primary' name) := by
  unfold functionCall
  cases Builtin.ofName? name.text with
  | some function =>
    exact callHead_agrees ((arguments_agrees (hp .arithmetic)).bind fun args =>
      ((Agrees.take .parenRight).holdingAll args).discard.bind fun _ => .pure _)
  | none =>
    cases catalog.find? name.text with
    | some entry =>
      exact (Agrees.dispatch name).bind fun _ =>
        (callHead_agrees (fill_agrees hp entry.extension.form)).bind fun _ => .pure _
    | none => exact .fail _

/-- A primary takes a token before it comes to other primaries, so these need only agree where there
are fewer lexemes ahead. -/
theorem nestedPrimary_agrees {catalog catalog' : Catalog}
    (hp : Agrees n early (primary .arithmetic) (primary' .arithmetic))
    (hcall : ∀ name, Agrees (n + 1) early (functionCall catalog primary name)
      (functionCall catalog' primary' name)) (accepts : PrimaryClass) :
    Agrees (n + 1) early (nestedPrimary catalog primary accepts)
      (nestedPrimary catalog' primary' accepts) := by
  intro s hs
  refine (Agrees.peek s hs).bind fun seen s₁ hpeek _ => ?_
  obtain ⟨hseen, rfl⟩ := peek_ok_iff.1 hpeek
  cases seen with
  | endOfText => exact .fail _ s
  | token t =>
    have hleaf : ∀ e : Expr, AgreesAt early (do advance; return e) (do advance; return e) s :=
      fun e => (Agrees.advance s hs).bind fun _ s₁ _ _ => .pure e s₁
    simp only
    cases t.kind with
    | parenLeft =>
      cases accepts with
      | string => exact .fail _ s
      | arithmetic =>
        refine (Agrees.advance s hs).bind fun _ s₁ hadv _ => ?_
        obtain rfl := advance_ok_iff.1 hadv
        have hlen : s.tail.lexemes.length < n := by
          rw [Progress.lexemes_of_lookahead hseen, List.length_cons] at hs
          omega
        exact ((expression_agrees hp).bind fun inner =>
          ((Agrees.take .parenRight).holding inner).discard.bind fun _ => .pure _) s.tail hlen
    | integer | float =>
      cases accepts with
      | string => exact .fail _ s
      | arithmetic => exact hleaf _
    | string | parameter | path => exact hleaf _
    | identifier =>
      refine (Agrees.peekSecond s hs).bind fun second s₁ hpeek₂ _ => ?_
      obtain ⟨-, rfl⟩ := peekSecond_ok_iff.1 hpeek₂
      split
      · exact hcall t s hs
      · cases accepts with
        | arithmetic => exact hleaf _
        | string => exact .fail _ s
    | parenRight | comma | plus | minus | asterisk | slash => exact .fail _ s

end Grammar

end Dql
