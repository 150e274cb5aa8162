import Dql.Proofs.Soundness

/-!
# What can be derived is parsed

A derivation makes the parser succeed, provided that nothing follows by which its phrase could go
on, that there is room for its nesting, and that the text can be read to its end.

* `Yields` - a parser succeeds with a certain result and leaves certain lexemes;
* `Advances` - the loop over operators comes from one left operand to another;
* `Complete` - what a derivation of each phrase promises.

`parse_eq_ok_iff` joins this to soundness: parsing succeeds exactly on the sentences of the grammar.
-/

namespace Dql

variable {catalog : Catalog} {α : Type}

/-- The parser succeeds with `a` and leaves the lexemes `rest`. -/
def Yields (parser : Parse α) (s : Progress) (a : α) (rest : List Lexeme) : Prop :=
  ∃ s', parser s = .ok a s' ∧ s'.lexemes = rest ∧ s'.ending = s.ending ∧
    rest.length ≤ s.lexemes.length

/-- The text can be read to its end. -/
def Progress.Readable (s : Progress) : Prop := ∃ n, s.ending = .endOfText n

theorem Progress.Readable.of_ending {s s' : Progress} (h : s.Readable)
    (he : s'.ending = s.ending) : s'.Readable :=
  h.elim fun n hn => ⟨n, he.trans hn⟩

/-! ## Steps that succeed -/

namespace Yields

variable {β : Type} {s : Progress} {a : α} {mid rest : List Lexeme}

theorem pure (h : s.lexemes = rest) : Yields (pure a : Parse α) s a rest :=
  ⟨s, rfl, h, rfl, Nat.le_of_eq (by rw [h])⟩

theorem bind {p : Parse α} {f : α → Parse β} {b : β} (h : Yields p s a mid)
    (hf : ∀ s', s'.lexemes = mid → s'.ending = s.ending → Yields (f a) s' b rest) :
    Yields (p >>= f) s b rest := by
  obtain ⟨s₁, hp, hls, he, hlen⟩ := h
  obtain ⟨s₂, hfa, hls₂, he₂, hlen₂⟩ := hf s₁ hls he
  rw [hls] at hlen₂
  exact ⟨s₂, by rw [Parse.bind_of_ok hp, hfa], hls₂, by rw [he₂, he], by omega⟩

theorem holding {p : Parse α} (h : Yields p s a rest) (e : Fragment) :
    Yields (holding e p) s a rest :=
  h.imp fun _ h => ⟨holding_ok_iff.2 h.1, h.2⟩

theorem holdingAll {p : Parse α} (h : Yields p s a rest) (es : List Expr) :
    Yields (holdingAll es p) s a rest :=
  h.imp fun _ h => ⟨holdingAll_ok_iff.2 h.1, h.2⟩

theorem discard {p : Parse α} (h : Yields p s a rest) :
    Yields (discard p : Parse Unit) s () rest :=
  h.imp fun _ h => ⟨Parse.discard_ok_iff.2 ⟨a, h.1⟩, h.2⟩

theorem advance {l : Lexeme} (h : s.lexemes = l :: rest) : Yields advance s () rest :=
  ⟨s.tail, rfl, by simp [h], s.ending_tail, by simp [h]⟩

/-- A token of the right kind is taken. -/
theorem take {l : Lexeme} {kind : TokenKind} (h : s.lexemes = l :: rest) (hk : l.kind = kind) :
    ∃ t, t.lexeme = l ∧ Yields (take kind) s t rest := by
  obtain ⟨t, ht, hl⟩ := take_of_lexemes h
  exact ⟨t, hl, s.tail, hk ▸ ht, by simp [h], s.ending_tail, by simp [h]⟩

theorem discard_take {l : Lexeme} {kind : TokenKind} (h : s.lexemes = l :: rest)
    (hk : l.kind = kind) : Yields (Functor.discard (Dql.take kind) : Parse Unit) s () rest := by
  obtain ⟨t, -, ht⟩ := take h hk
  exact ht.discard

/-- A token that comes next is seen. -/
theorem peek {l : Lexeme} {ls : List Lexeme} (h : s.lexemes = l :: ls) :
    ∃ t, t.lexeme = l ∧ Yields peek s (.token t) (l :: ls) := by
  obtain ⟨t, ts, ha, hl⟩ := Progress.exists_token h
  exact ⟨t, hl, s, peek_ok_iff.2 ⟨Progress.lookahead_cons ha, rfl⟩, h, rfl, by simp [h]⟩

/-- In a text that can be read to its end there is something to see after the next token. -/
theorem peekSecond (hs : s.Readable) :
    ∃ seen, seen.kind? = s.lexemes.tail.head?.map Lexeme.kind ∧
      Yields peekSecond s seen s.lexemes := by
  obtain ⟨n, hn⟩ := hs
  obtain ⟨seen, hseen, hk⟩ := Progress.exists_lookahead (s.ending_tail.trans hn)
  exact ⟨seen, by rw [hk, Progress.lexemes_tail], s, peekSecond_ok_iff.2 ⟨hseen, rfl⟩, rfl, rfl,
    Nat.le_refl _⟩

/-- A name and an opening parenthesis. -/
theorem callHead {l left : Lexeme} (h : s.lexemes = l :: left :: rest) (hl : l.kind = .identifier)
    (hleft : left.kind = .parenLeft) : Yields callHead s () rest :=
  (discard_take h hl).bind fun _ hls _ => discard_take hls hleft

end Yields

/-! ## The loop over operators -/

/-- From the state `s` the loop over operators gets from the operand `left` to `left'`, where the
lexemes `rest` are left and the bound still covers them. -/
def Advances (primary : PrimaryParser) (least : Nat) (left left' : Expr) (s : Progress)
    (rest : List Lexeme) : Prop :=
  rest.length ≤ s.lexemes.length ∧
    ∀ bound, s.lexemes.length ≤ bound → ∃ bound' s', rest.length ≤ bound' ∧
      operators primary bound least left s = operators primary bound' least left' s' ∧
      s'.lexemes = rest ∧ s'.ending = s.ending

namespace Advances

variable {primary : PrimaryParser} {least : Nat} {left left' right operand : Expr} {s : Progress}
  {ls mid rest : List Lexeme}

theorem refl (h : s.lexemes = rest) : Advances primary least left left s rest :=
  ⟨Nat.le_of_eq (by rw [h]), fun bound hb => ⟨bound, s, by rwa [← h], rfl, h, rfl⟩⟩

theorem trans (h₁ : Advances primary least left left' s mid)
    (h₂ : ∀ s', s'.lexemes = mid → s'.ending = s.ending →
      Advances primary least left' right s' rest) : Advances primary least left right s rest := by
  obtain ⟨hlen₁, h₁⟩ := h₁
  obtain ⟨_, s₀, _, _, hls₀, he₀⟩ := h₁ _ (Nat.le_refl _)
  have hlen₂ := (h₂ s₀ hls₀ he₀).1
  rw [hls₀] at hlen₂
  refine ⟨by omega, fun bound hb => ?_⟩
  obtain ⟨b₁, s₁, hb₁, heq₁, hls₁, he₁⟩ := h₁ bound hb
  obtain ⟨b₂, s₂, hb₂, heq₂, hls₂, he₂⟩ := (h₂ s₁ hls₁ he₁).2 b₁ (by rw [hls₁]; exact hb₁)
  exact ⟨b₂, s₂, hb₂, by rw [heq₁, heq₂], hls₂, by rw [he₂, he₁]⟩

/-- The loop ends with the operand that it got to, if no operator goes on from there. -/
theorem yields (h : Advances primary least left left' s rest) (hs : s.Readable)
    (hend : ∀ op, (rest.head?.bind fun l => l.kind.operator?) = some op → op.power < least)
    {bound : Nat} (hb : s.lexemes.length ≤ bound) :
    Yields (operators primary bound least left) s left' rest := by
  obtain ⟨hlen, h⟩ := h
  obtain ⟨b, s', -, heq, hls, he⟩ := h bound hb
  obtain ⟨n, hn⟩ := hs
  obtain ⟨seen, hseen, -⟩ := Progress.exists_lookahead (he.trans hn)
  exact ⟨s', by rw [heq, operators_stop hseen (by rwa [Progress.operator?, hls])], hls, he, hlen⟩

/-- An operator with the operand to its right. -/
theorem step {l : Lexeme} {op : BinaryOp} (hls : s.lexemes = l :: ls)
    (hop : l.kind.operator? = some op) (hpower : least ≤ op.power)
    (hfactor : Yields (factor primary) s.tail operand mid)
    (hright : ∀ s', s'.lexemes = mid → s'.ending = s.ending → ∀ bound, mid.length ≤ bound →
      Yields (operators primary bound (op.power + 1) operand) s' right rest) :
    Advances primary least left (.binary left op right) s rest := by
  obtain ⟨s₁, hfactor, hls₁, he₁, hlen₁⟩ := hfactor
  rw [Progress.ending_tail] at he₁
  rw [Progress.lexemes_tail, hls, List.tail_cons] at hlen₁
  have hs : s.operator? = some op := by
    rw [Progress.operator?, hls]
    exact hop
  obtain ⟨_, _, _, _, hlen₂⟩ := hright s₁ hls₁ he₁ _ (Nat.le_refl _)
  rw [hls₁] at hlen₂
  rw [Advances, hls, List.length_cons]
  refine ⟨by omega, fun bound hb => ?_⟩
  obtain ⟨b, rfl⟩ : ∃ b, bound = b + 1 := ⟨bound - 1, by omega⟩
  obtain ⟨s₂, hright, hls₂, he₂, -⟩ := hright s₁ hls₁ he₁ b (by omega)
  exact ⟨b, s₂, by omega, operators_step hs hpower hfactor hright, hls₂, by rw [he₂, he₁]⟩

end Advances

/-- Where no term goes on, the next operator is additive. -/
theorem power_lt_of_closed_term {rest : List Lexeme} (h : Phrase.term.Closed rest)
    {op : BinaryOp} (hop : (rest.head?.bind fun l => l.kind.operator?) = some op) :
    op.power < 51 := by
  obtain ⟨l, hl, hop⟩ := Option.bind_eq_some_iff.1 hop
  have hc := h l hl
  simp only [Phrase.continuesWith, hop, Option.any_some, decide_eq_false_iff_not] at hc
  rw [op.power_eq, if_pos (by simpa using fun hf => hc (.inr hf))]
  omega

theorem operator?_of_closed_expression {rest : List Lexeme} (h : Phrase.expression.Closed rest)
    {op : BinaryOp} : (rest.head?.bind fun l => l.kind.operator?) ≠ some op := by
  intro hop
  obtain ⟨l, hl, hop⟩ := Option.bind_eq_some_iff.1 hop
  have hc := h l hl
  simp [Phrase.continuesWith, hop] at hc

/-! ## Phrases -/

/-- What the parser does on the lexemes that a phrase derives from, whatever is left over. Factors
and terms after an operator are taken by the loop over operators; an operand before them is only
where that loop starts. -/
def Complete (catalog : Catalog) (room : Nat) (s : Progress) (rest : List Lexeme) :
    (p : Phrase) → p.Meaning → Prop
  | .expression, e => Yields (expression (primary catalog room)) s e rest
  | .moreTerms, f => ∀ left, Advances (primary catalog room) 0 left (f left) s rest
  | .term, e => ∃ operand mid, Yields (factor (primary catalog room)) s operand mid ∧
      ∀ s' least, least ≤ 60 → s'.lexemes = mid → s'.ending = s.ending →
        Advances (primary catalog room) least operand e s' rest
  | .moreFactors, f => ∀ left least, least ≤ 60 →
      Advances (primary catalog room) least left (f left) s rest
  | .factor, e => Yields (factor (primary catalog room)) s e rest
  | .primary accepts, e => Yields (primary catalog room accepts) s e rest
  | .arguments, es => NextIs .parenRight rest →
      Yields (arguments (primary catalog room)) s es rest
  | .moreArguments, es => ∀ bound, s.lexemes.length ≤ bound →
      Yields (moreArguments (primary catalog room) bound) s es rest
  | .form pieces, filled => Yields (fill (primary catalog room) pieces) s filled rest

section Phrases

variable {room : Nat} {s : Progress} {ls mid rest : List Lexeme}

theorem complete_expression {e : Expr} {f : Expr → Expr}
    (hfirst : Complete catalog room s mid .term e)
    (hmore : ∀ s', s'.lexemes = mid → s'.ending = s.ending →
      Complete catalog room s' rest .moreTerms f)
    (hs : s.Readable) (hclosed : Phrase.expression.Closed rest) :
    Complete catalog room s rest .expression (f e) := by
  obtain ⟨operand, mid', hfactor, hloop⟩ := hfirst
  refine hfactor.bind fun s₁ hls₁ he₁ => ?_
  refine Yields.bind ⟨s₁, tokensAhead_eq s₁, rfl, rfl, Nat.le_refl _⟩ fun s₂ hls₂ he₂ => ?_
  have hadv := (hloop s₂ 0 (by omega) (by rw [hls₂, hls₁]) (by rw [he₂, he₁])).trans
    fun s₃ hls₃ he₃ => hmore s₃ hls₃ (by rw [he₃, he₂, he₁]) e
  exact hadv.yields (hs.of_ending (by rw [he₂, he₁]))
    (fun op hop => absurd hop (operator?_of_closed_expression hclosed))
    (Nat.le_of_eq (by rw [hls₂]))

theorem complete_moreTerms {l : Lexeme} {op : BinaryOp} {e : Expr} {f : Expr → Expr}
    (hls : s.lexemes = l :: ls) (hop : l.kind.operator? = some op) (hadd : op.isAdditive = true)
    (hnext : Complete catalog room s.tail mid .term e)
    (hmore : ∀ s', s'.lexemes = mid → s'.ending = s.ending →
      Complete catalog room s' rest .moreTerms f)
    (hs : s.Readable) (hclosed : Phrase.term.Closed mid) :
    Complete catalog room s rest .moreTerms fun left => f (.binary left op e) := by
  intro left
  obtain ⟨operand, mid', hfactor, hloop⟩ := hnext
  have hpower : op.power = 50 := by rw [op.power_eq, if_pos hadd]
  refine (Advances.step hls hop (Nat.zero_le _) hfactor ?_).trans
    fun s' hls' he' => hmore s' hls' he' _
  intro s' hls' he' bound hb
  rw [hpower]
  exact (hloop s' 51 (by omega) hls' (by rw [he', s.ending_tail])).yields (hs.of_ending he')
    (fun op hop => power_lt_of_closed_term hclosed hop) (by rwa [hls'])

theorem complete_moreFactors {l : Lexeme} {op : BinaryOp} {e : Expr} {f : Expr → Expr}
    (hls : s.lexemes = l :: ls) (hop : l.kind.operator? = some op) (hmul : op.isAdditive = false)
    (hnext : Complete catalog room s.tail mid .factor e)
    (hmore : ∀ s', s'.lexemes = mid → s'.ending = s.ending →
      Complete catalog room s' rest .moreFactors f) (hs : s.Readable) :
    Complete catalog room s rest .moreFactors fun left => f (.binary left op e) := by
  intro left least hleast
  have hpower : op.power = 60 := by simp [op.power_eq, hmul]
  refine (Advances.step hls hop (by omega) hnext ?_).trans
    fun s' hls' he' => hmore s' hls' he' _ least hleast
  intro s' hls' he' bound hb
  -- no operator binds more tightly than `*` and `/`
  exact (Advances.refl hls').yields (hs.of_ending he')
    (fun op' _ => by rw [hpower]; cases op' <;> decide) (by rwa [hls'])

theorem complete_signed {mark : Lexeme} {sign : Sign} {e : Expr} (hls : s.lexemes = mark :: ls)
    (hsign : mark.kind.sign? = some sign)
    (hoperand : ∀ s', s'.lexemes = ls → s'.ending = s.ending →
      Complete catalog room s' rest (.primary .arithmetic) e) :
    Complete catalog room s rest .factor (.signed sign e) := by
  obtain ⟨t, rfl, hpeek⟩ := Yields.peek hls
  refine hpeek.bind fun s₁ hls₁ he₁ => ?_
  have hseen : (Ahead.token t).kind?.bind TokenKind.sign? = some sign := hsign
  rw [hseen]
  refine (Yields.advance hls₁).bind fun s₂ hls₂ he₂ => ?_
  exact (hoperand s₂ hls₂ (by rw [he₂, he₁])).bind fun s₃ hls₃ _ => .pure hls₃

theorem complete_unsigned {l : Lexeme} {e : Expr} (hls : s.lexemes = l :: ls)
    (hsign : l.kind.sign? = none)
    (hoperand : ∀ s', s'.lexemes = l :: ls → s'.ending = s.ending →
      Complete catalog room s' rest (.primary .arithmetic) e) :
    Complete catalog room s rest .factor e := by
  obtain ⟨t, rfl, hpeek⟩ := Yields.peek hls
  refine hpeek.bind fun s₁ hls₁ he₁ => ?_
  have hseen : (Ahead.token t).kind?.bind TokenKind.sign? = none := hsign
  rw [hseen]
  exact hoperand s₁ hls₁ he₁

/-! ### Arguments and forms -/

theorem complete_noArgument (hls : s.lexemes = rest) (hs : s.Readable) :
    Complete catalog room s rest .arguments [] := by
  intro hnext
  obtain ⟨n, hn⟩ := hs
  obtain ⟨seen, hseen, hk⟩ := Progress.exists_lookahead hn
  refine Yields.bind ⟨s, peek_ok_iff.2 ⟨hseen, rfl⟩, hls, rfl,
    Nat.le_of_eq (by rw [hls])⟩ fun s₁ hls₁ _ => ?_
  rw [if_pos (by rw [hk, hls]; exact hnext)]
  exact .pure hls₁

theorem complete_arguments {l : Lexeme} {e : Expr} {es : List Expr} (hls : s.lexemes = l :: ls)
    (hl : l.kind ≠ .parenRight)
    (hfirst : ∀ s', s'.lexemes = l :: ls → s'.ending = s.ending →
      Complete catalog room s' mid .expression e)
    (hmore : ∀ s', s'.lexemes = mid → s'.ending = s.ending →
      Complete catalog room s' rest .moreArguments es) :
    Complete catalog room s rest .arguments (e :: es) := by
  intro _
  obtain ⟨t, rfl, hpeek⟩ := Yields.peek hls
  refine hpeek.bind fun s₁ hls₁ he₁ => ?_
  rw [if_neg (by simpa [Ahead.kind?, Ahead.token?, Token.lexeme] using hl)]
  refine Yields.bind (hfirst s₁ hls₁ he₁) fun s₂ hls₂ he₂ => ?_
  refine Yields.bind (Yields.holding (Yields.bind ⟨s₂, tokensAhead_eq s₂, hls₂, rfl, ?_⟩
    fun s₃ hls₃ he₃ => hmore s₃ hls₃ (by rw [he₃, he₂, he₁]) _ ?_)
    (.argument e))
    fun s₄ hls₄ _ => .pure hls₄
  · exact Nat.le_of_eq (by rw [hls₂])
  · exact Nat.le_of_eq (by rw [hls₃, hls₂])

theorem complete_noMoreArgument (hls : s.lexemes = rest)
    (hclosed : Phrase.moreArguments.Closed rest) :
    Complete catalog room s rest .moreArguments [] := by
  intro bound _
  cases bound with
  | zero => exact .pure hls
  | succ bound =>
    have hnext : ¬ NextIs .comma s.lexemes := by
      intro h
      obtain ⟨l, hls', hl⟩ := Progress.exists_next h
      rw [← hls, hls'] at hclosed
      have := hclosed l rfl
      simp [Phrase.continuesWith, hl] at this
    exact Yields.bind ⟨s, takeIf_of_not_next hnext, hls, rfl, Nat.le_of_eq (by rw [hls])⟩
      fun s₁ hls₁ _ => .pure hls₁

theorem complete_moreArguments {comma : Lexeme} {e : Expr} {es : List Expr}
    (hls : s.lexemes = comma :: ls) (hcomma : comma.kind = .comma)
    (hnext : ∀ s', s'.lexemes = ls → s'.ending = s.ending →
      Complete catalog room s' mid .expression e)
    (hmore : ∀ s', s'.lexemes = mid → s'.ending = s.ending →
      Complete catalog room s' rest .moreArguments es) (hlen : mid.length ≤ ls.length) :
    Complete catalog room s rest .moreArguments (e :: es) := by
  intro bound hb
  rw [hls, List.length_cons] at hb
  obtain ⟨b, rfl⟩ : ∃ b, bound = b + 1 := ⟨bound - 1, by omega⟩
  have htake : takeIf .comma s = .ok true s.tail :=
    takeIf_of_next (by simp [NextIs, hls, hcomma])
  have htaken : Yields (takeIf .comma) s true ls :=
    ⟨s.tail, htake, by simp [hls], s.ending_tail, by simp [hls]⟩
  refine htaken.bind fun s₁ hls₁ he₁ => ?_
  refine Yields.bind (hnext s₁ hls₁ he₁) fun s₂ hls₂ he₂ => ?_
  exact ((hmore s₂ hls₂ (by rw [he₂, he₁]) b (by rw [hls₂]; omega)).holding (.argument e)).bind
    fun s₃ hls₃ _ => .pure hls₃

/-- A slot of a form and the pieces after it. -/
theorem complete_slot {parser : Parse Expr} {pieces : List Piece} {e : Expr}
    {filled : List String × List Expr} (hslot : Yields parser s e mid)
    (hmore : ∀ s', s'.lexemes = mid → s'.ending = s.ending →
      Complete catalog room s' rest (.form pieces) filled) :
    Yields (do
      let slot ← parser
      let (words, slots) ← holding slot (fill (primary catalog room) pieces)
      return (words, slot :: slots)) s (filled.1, e :: filled.2) rest :=
  hslot.bind fun s₁ hls₁ he₁ => ((hmore s₁ hls₁ he₁).holding e).bind
    fun _ hls₂ _ => .pure hls₂

/-! ### Primaries -/

theorem complete_paren {left right : Lexeme} {e : Expr} (hls : s.lexemes = left :: ls)
    (hleft : left.kind = .parenLeft) (hright : right.kind = .parenRight)
    (hinner : ∀ s', s'.lexemes = ls → s'.ending = s.ending →
      Complete catalog room s' (right :: rest) .expression e) :
    Complete catalog (room + 1) s rest (.primary .arithmetic) (.paren e) := by
  obtain ⟨t, rfl, hpeek⟩ := Yields.peek hls
  refine hpeek.bind fun s₁ hls₁ he₁ => ?_
  have hk : t.kind = .parenLeft := hleft
  simp only [hk]
  refine (Yields.advance hls₁).bind fun s₂ hls₂ he₂ => ?_
  refine Yields.bind (hinner s₂ hls₂ (by rw [he₂, he₁])) fun s₃ hls₃ _ => ?_
  obtain ⟨_, -, htake⟩ := Yields.take hls₃ hright
  exact (htake.holding e).discard.bind fun s₄ hls₄ _ => .pure hls₄

/-- A primary of one token. -/
theorem complete_leaf {accepts : PrimaryClass} {l : Lexeme} {e : Expr} {next : Ahead → Parse Expr}
    (hls : s.lexemes = l :: rest)
    (hnested : nestedPrimary catalog (primary catalog room) accepts = peek >>= next)
    (hnext : ∀ t : Token, t.lexeme = l → next (.token t) = do advance; return e) :
    Complete catalog (room + 1) s rest (.primary accepts) e := by
  obtain ⟨t, ht, hpeek⟩ := Yields.peek hls
  rw [Complete, primary, hnested]
  refine hpeek.bind fun s₁ hls₁ _ => ?_
  rw [hnext t ht]
  exact (Yields.advance hls₁).bind fun s₂ hls₂ _ => .pure hls₂

theorem complete_number {l : Lexeme} (hls : s.lexemes = l :: rest)
    (hl : l.kind = .integer ∨ l.kind = .float) :
    Complete catalog (room + 1) s rest (.primary .arithmetic) (.number l.text) := by
  refine complete_leaf hls rfl fun t ht => ?_
  subst ht
  have hk : t.kind = .integer ∨ t.kind = .float := hl
  rcases hk with hk | hk <;> simp only [hk] <;> rfl

theorem complete_string {accepts : PrimaryClass} {l : Lexeme} (hls : s.lexemes = l :: rest)
    (hl : l.kind = .string) :
    Complete catalog (room + 1) s rest (.primary accepts) (.string l.contents) := by
  refine complete_leaf hls rfl fun t ht => ?_
  subst ht
  have hk : t.kind = .string := hl
  simp only [hk, Token.contents]
  rfl

theorem complete_parameter {accepts : PrimaryClass} {l : Lexeme} (hls : s.lexemes = l :: rest)
    (hl : l.kind = .parameter) :
    Complete catalog (room + 1) s rest (.primary accepts) (.parameter l.text) := by
  refine complete_leaf hls rfl fun t ht => ?_
  subst ht
  have hk : t.kind = .parameter := hl
  simp only [hk]
  rfl

theorem complete_path {accepts : PrimaryClass} {l : Lexeme} (hls : s.lexemes = l :: rest)
    (hl : l.kind = .path) :
    Complete catalog (room + 1) s rest (.primary accepts) (.path l.entity l.field?) := by
  rw [← l.pathOfName_text]
  refine complete_leaf hls rfl fun t ht => ?_
  subst ht
  have hk : t.kind = .path := hl
  simp only [hk]
  rfl

theorem complete_name {l : Lexeme} (hls : s.lexemes = l :: rest) (hl : l.kind = .identifier)
    (hcall : ¬ NextIs .parenLeft rest) (hs : s.Readable) :
    Complete catalog (room + 1) s rest (.primary .arithmetic) (.path l.text none) := by
  obtain ⟨t, rfl, hpeek⟩ := Yields.peek hls
  refine hpeek.bind fun s₁ hls₁ he₁ => ?_
  have hk : t.kind = .identifier := hl
  simp only [hk]
  obtain ⟨second, hsecond, hpeek₂⟩ := Yields.peekSecond (hs.of_ending he₁)
  refine hpeek₂.bind fun s₂ hls₂ _ => ?_
  rw [hls₁] at hsecond hls₂
  rw [if_neg (by rw [hsecond]; exact hcall)]
  exact (Yields.advance hls₂).bind fun s₃ hls₃ _ => .pure hls₃

/-- A name with a parenthesis after it is taken as a call. -/
theorem complete_functionCall {accepts : PrimaryClass} {l left : Lexeme} {e : Expr}
    (hls : s.lexemes = l :: left :: ls) (hl : l.kind = .identifier) (hleft : left.kind = .parenLeft)
    (hs : s.Readable)
    (hcall : ∀ t s', t.lexeme = l → s'.lexemes = l :: left :: ls → s'.ending = s.ending →
      Yields (functionCall catalog (primary catalog room) t) s' e rest) :
    Complete catalog (room + 1) s rest (.primary accepts) e := by
  obtain ⟨t, rfl, hpeek⟩ := Yields.peek hls
  refine hpeek.bind fun s₁ hls₁ he₁ => ?_
  have hk : t.kind = .identifier := hl
  simp only [hk]
  obtain ⟨second, hsecond, hpeek₂⟩ := Yields.peekSecond (hs.of_ending he₁)
  refine hpeek₂.bind fun s₂ hls₂ he₂ => ?_
  rw [hls₁] at hsecond hls₂
  rw [if_pos (by rw [hsecond]; simp [hleft])]
  exact hcall t s₂ rfl hls₂ (by rw [he₂, he₁])

theorem complete_call {accepts : PrimaryClass} {l left right : Lexeme} {function : Builtin}
    {args : List Expr} (hls : s.lexemes = l :: left :: ls) (hl : l.kind = .identifier)
    (hleft : left.kind = .parenLeft) (hright : right.kind = .parenRight)
    (hb : function.name = foldCase l.text) (hs : s.Readable)
    (hargs : ∀ s', s'.lexemes = ls → s'.ending = s.ending →
      Complete catalog room s' (right :: rest) .arguments args) :
    Complete catalog (room + 1) s rest (.primary accepts) (.call function args) := by
  refine complete_functionCall hls hl hleft hs fun t s₁ ht hls₁ he₁ => ?_
  subst ht
  have hname : Builtin.ofName? t.text = some function := Builtin.ofName?_eq_some_iff.2 hb
  rw [functionCall]
  simp only [hname]
  refine (Yields.callHead hls₁ hl hleft).bind fun s₂ hls₂ he₂ => ?_
  refine (hargs s₂ hls₂ (by rw [he₂, he₁]) (by simp [NextIs, hright])).bind fun s₃ hls₃ _ => ?_
  obtain ⟨_, -, htake⟩ := Yields.take hls₃ hright
  exact (htake.holdingAll args).discard.bind fun s₄ hls₄ _ => .pure hls₄

theorem complete_extension {accepts : PrimaryClass} {l left : Lexeme} {entry : Entry}
    {filled : List String × List Expr} (hls : s.lexemes = l :: left :: ls)
    (hl : l.kind = .identifier) (hleft : left.kind = .parenLeft)
    (hb : ∀ function : Builtin, function.name ≠ foldCase l.text)
    (hf : catalog.find? l.text = some entry)
    (hs : s.Readable)
    (hpieces : ∀ s', s'.lexemes = ls → s'.ending = s.ending →
      Complete catalog room s' rest (.form entry.extension.form) filled) :
    Complete catalog (room + 1) s rest (.primary accepts)
      (.extension entry.extension filled.1 filled.2) := by
  refine complete_functionCall hls hl hleft hs fun t s₁ ht hls₁ he₁ => ?_
  subst ht
  have hname : Builtin.ofName? t.text = none := Builtin.ofName?_eq_none_iff.2 hb
  have hentry : catalog.find? t.text = some entry := hf
  rw [functionCall]
  simp only [hname, hentry]
  -- noting the call leaves the lexemes as they are
  refine Yields.bind ⟨_, rfl, hls₁, rfl, Nat.le_of_eq (by rw [hls₁])⟩ fun s₂ hls₂ he₂ => ?_
  refine Yields.bind ((Yields.callHead hls₂ hl hleft).bind fun s₃ hls₃ he₃ =>
    hpieces s₃ hls₃ (by rw [he₃, he₂, he₁])) fun s₄ hls₄ _ => ?_
  exact .pure hls₄

end Phrases

/-- **Whatever derives is parsed**, where the phrase does not go on and there is room for its
nesting. -/
theorem Derivation.complete {p : Phrase} {ls rest : List Lexeme} (d : Derivation catalog p ls rest)
    (hp : p.Proper) (hclosed : p.Closed rest) {room : Nat} (hroom : d.nesting ≤ room) {s : Progress}
    (hls : s.lexemes = ls) (hs : s.Readable) : Complete catalog room s rest p d.tree := by
  induction d generalizing room s with
  | expression first more ihfirst ihmore =>
    obtain ⟨hroom₁, hroom₂⟩ := Nat.max_le.1 hroom
    exact complete_expression (ihfirst trivial (closed_term more hclosed) hroom₁ hls hs)
      (fun s' hls' he' => ihmore trivial hclosed hroom₂ hls' (hs.of_ending he')) hs hclosed
  | noTerm => exact fun _ => .refl hls
  | moreTerms sign op isOp next more ihnext ihmore =>
    obtain ⟨hroom₁, hroom₂⟩ := Nat.max_le.1 hroom
    have hmid := closed_term more hclosed
    exact complete_moreTerms hls isOp.operator?_eq isOp.isAdditive
      (ihnext trivial hmid hroom₁ (by simp [hls]) (hs.of_ending s.ending_tail))
      (fun s' hls' he' => ihmore trivial hclosed hroom₂ hls' (hs.of_ending he')) hs hmid
  | term first more ihfirst ihmore =>
    obtain ⟨hroom₁, hroom₂⟩ := Nat.max_le.1 hroom
    exact ⟨_, _, ihfirst trivial (closed_factor more hclosed) hroom₁ hls hs,
      fun s' least hleast hls' he' =>
        ihmore trivial hclosed hroom₂ hls' (hs.of_ending he') _ least hleast⟩
  | noFactor => exact fun _ _ _ => .refl hls
  | moreFactors sign op isOp next more ihnext ihmore =>
    obtain ⟨hroom₁, hroom₂⟩ := Nat.max_le.1 hroom
    exact complete_moreFactors hls isOp.operator?_eq isOp.isAdditive
      (ihnext trivial (closed_factor more hclosed) hroom₁ (by simp [hls])
        (hs.of_ending s.ending_tail))
      (fun s' hls' he' => ihmore trivial hclosed hroom₂ hls' (hs.of_ending he')) hs
  | signed mark sign isSign operand ih =>
    exact complete_signed hls (isSign_iff.1 isSign) fun s' hls' he' =>
      ih trivial hclosed hroom hls' (hs.of_ending he')
  | unsigned operand ih =>
    obtain ⟨l, more, rfl, hsign, -⟩ := operand.head_of_primary
    exact complete_unsigned hls hsign fun s' hls' he' =>
      ih trivial hclosed hroom hls' (hs.of_ending he')
  | paren left right isLeft isRight inner ih =>
    obtain ⟨room, rfl⟩ : ∃ r, room = r + 1 := Nat.exists_eq_add_one.2 (Nat.zero_lt_of_lt hroom)
    exact complete_paren hls isLeft isRight fun s' hls' he' =>
      ih trivial (Phrase.closed_cons (by rw [isRight]; rfl)) (Nat.le_of_succ_le_succ hroom) hls'
        (hs.of_ending he')
  | number l isNumber =>
    obtain ⟨room, rfl⟩ : ∃ r, room = r + 1 := Nat.exists_eq_add_one.2 hroom
    exact complete_number hls isNumber
  | name l isName noCall =>
    obtain ⟨room, rfl⟩ : ∃ r, room = r + 1 := Nat.exists_eq_add_one.2 hroom
    exact complete_name hls isName noCall hs
  | string l isString =>
    obtain ⟨room, rfl⟩ : ∃ r, room = r + 1 := Nat.exists_eq_add_one.2 hroom
    exact complete_string hls isString
  | parameter l isParameter =>
    obtain ⟨room, rfl⟩ : ∃ r, room = r + 1 := Nat.exists_eq_add_one.2 hroom
    exact complete_parameter hls isParameter
  | path l isPath =>
    obtain ⟨room, rfl⟩ : ∃ r, room = r + 1 := Nat.exists_eq_add_one.2 hroom
    exact complete_path hls isPath
  | call l left right function isName isLeft isRight builtin args ih =>
    obtain ⟨room, rfl⟩ : ∃ r, room = r + 1 := Nat.exists_eq_add_one.2 (Nat.zero_lt_of_lt hroom)
    exact complete_call hls isName isLeft isRight builtin hs fun s' hls' he' =>
      ih trivial (Phrase.closed_cons (by rw [isRight]; rfl)) (Nat.le_of_succ_le_succ hroom) hls'
        (hs.of_ending he')
  | extension l left entry isName isLeft notBuiltin found production pieces ih =>
    obtain ⟨room, rfl⟩ : ∃ r, room = r + 1 := Nat.exists_eq_add_one.2 (Nat.zero_lt_of_lt hroom)
    obtain rfl := production_iff.1 production
    exact complete_extension hls isName isLeft notBuiltin found hs fun s' hls' he' =>
      ih (separated_form _) (fun _ _ => rfl) (Nat.le_of_succ_le_succ hroom) hls' (hs.of_ending he')
  | noArgument => exact complete_noArgument hls hs
  | arguments first more ihfirst ihmore =>
    obtain ⟨hroom₁, hroom₂⟩ := Nat.max_le.1 hroom
    obtain ⟨l, rest, rfl, hl⟩ := first.head_of_expression
    exact complete_arguments hls hl
      (fun s' hls' he' => ihfirst trivial (closed_argument more hclosed.moreArguments) hroom₁ hls'
        (hs.of_ending he'))
      (fun s' hls' he' => ihmore trivial hclosed.moreArguments hroom₂ hls' (hs.of_ending he'))
  | noMoreArgument => exact complete_noMoreArgument hls hclosed
  | moreArguments comma isComma next more ihnext ihmore =>
    obtain ⟨hroom₁, hroom₂⟩ := Nat.max_le.1 hroom
    exact complete_moreArguments hls isComma
      (fun s' hls' he' => ihnext trivial (closed_argument more hclosed) hroom₁ hls'
        (hs.of_ending he'))
      (fun s' hls' he' => ihmore trivial hclosed hroom₂ hls' (hs.of_ending he')) next.length_le
  | formEnd right isRight =>
    exact (Yields.discard_take hls isRight).bind fun s' hls' _ => .pure hls'
  | word l isName more ih =>
    obtain ⟨t, rfl, htake⟩ := Yields.take hls isName
    refine htake.bind fun s₁ hls₁ he₁ => ?_
    exact Yields.bind (ih hp hclosed hroom hls₁ (hs.of_ending he₁))
      fun s₂ hls₂ _ => .pure hls₂
  | keyword l isName more ih =>
    exact (Yields.discard_take hls isName).bind fun s₁ hls₁ he₁ =>
      ih hp hclosed hroom hls₁ (hs.of_ending he₁)
  | comma l isComma more ih =>
    exact (Yields.discard_take hls isComma).bind fun s₁ hls₁ he₁ =>
      ih hp hclosed hroom hls₁ (hs.of_ending he₁)
  | expressionSlot slot more ihslot ihmore =>
    obtain ⟨hnext, hmore⟩ : _ ∧ _ := by simpa [Phrase.Proper, separated] using hp
    obtain ⟨hroom₁, hroom₂⟩ := Nat.max_le.1 hroom
    exact complete_slot (ihslot trivial (closed_slot more hnext) hroom₁ hls hs)
      fun s' hls' he' => ihmore hmore hclosed hroom₂ hls' (hs.of_ending he')
  | primarySlot slot more ihslot ihmore =>
    obtain ⟨hnext, hmore⟩ : _ ∧ _ := by simpa [Phrase.Proper, separated] using hp
    obtain ⟨hroom₁, hroom₂⟩ := Nat.max_le.1 hroom
    exact complete_slot (ihslot trivial (closed_slot more hnext).primary hroom₁ hls hs)
      fun s' hls' he' => ihmore hmore hclosed hroom₂ hls' (hs.of_ending he')

/-- A text that derives as an expression is parsed, if there is room for its nesting. -/
theorem Derivation.wholeWithin_ok {ls : List Lexeme} (d : Derivation catalog .expression ls [])
    {room : Nat} (hd : d.nesting ≤ room) {s : Progress} (hls : s.lexemes = ls) (hs : s.Readable) :
    ∃ s', wholeWith (primary catalog room) s = .ok d.tree s' := by
  obtain ⟨s₁, he, hls₁, he₁, -⟩ := d.complete trivial (Phrase.closed_nil _) hd hls hs
  obtain ⟨n, hn⟩ := hs
  obtain ⟨seen, hseen, hk⟩ := Progress.exists_lookahead (he₁.trans hn)
  rw [hls₁] at hk
  have hend : expectEnd s₁ = .ok () s₁ := by
    rw [expectEnd, Parse.bind_of_ok (peek_ok_iff.2 ⟨hseen, rfl⟩)]
    cases seen with
    | token t => cases hk
    | endOfText => rfl
  refine ⟨s₁, ?_⟩
  rw [wholeWith, Parse.bind_of_ok he, Parse.bind_of_ok (holding_ok_iff.2 hend)]
  rfl

end Dql
