import Dql.Proofs.Lookahead
import Dql.Proofs.Stretches

/-!
# What was taken can be completed

When a parser fails, the tokens that it took are no dead end: some lexemes after them would have
completed the phrase. So they are the beginning of an expression, if the parser is one for whole
texts.

* `Traces` - a parser takes a stretch of lexemes, or fails where the stretch is still open;
* `Sentence`, `Viable` - expressions, and the beginnings of expressions.

Principal result: `viable_of_wholeExpression`.
-/

namespace Dql

variable {catalog : Catalog} {α β : Type} {s : Progress}

/-! ## Steps that trace a stretch -/

open Stretch

/-- If the parser succeeds, it takes what is in the stretch; if it fails, the stretch is still open
after what it took. -/
def Traces (R : Stretch) (p : Parse α) (s : Progress) : Prop :=
  match p s with
  | .ok _ s' => R s.lexemes s'.lexemes
  | .error _ s' => ∃ taken, s.lexemes = taken ++ s'.lexemes ∧ Open R taken

namespace Traces

variable {R S : Stretch} {p : Parse α} {f : α → Parse β}

theorem mono (hp : Traces R p s) (h : ∀ ls rest, R ls rest → S ls rest) : Traces S p s := by
  unfold Traces at *
  cases hps : p s <;> rw [hps] at hp
  · exact h _ _ hp
  · exact hp.imp fun _ ⟨hls, hopen⟩ => ⟨hls, hopen.mono h⟩

theorem pure (a : α) (s : Progress) : Traces nothing (pure a) s := rfl

theorem fail {err : ParseError} (hR : Open R []) (s : Progress) :
    Traces R (Parse.fail err : Parse α) s :=
  ⟨[], rfl, hR⟩

/-- Two parsers in a row. If the second one fails, what the first one took is still what it was,
since it is only what comes after it that changes. -/
theorem bind (hportable : ∀ ls rest, R ls rest → Portable R ls rest) (hopen : Open S [])
    (hp : Traces R p s) (hf : ∀ a s₁, p s = .ok a s₁ → Traces S (f a) s₁) :
    Traces (seq R S) (p >>= f) s := by
  unfold Traces at *
  cases hps : p s with
  | error g s₁ =>
    simp only [hps] at hp
    obtain ⟨taken, hls, hR⟩ := hp
    rw [Parse.bind_of_error hps]
    exact ⟨taken, hls, hR.seq hopen⟩
  | ok a s₁ =>
    simp only [hps] at hp
    specialize hf a s₁ hps
    rw [Parse.bind_of_ok hps]
    cases hfs : f a s₁ with
    | ok b s₂ =>
      rw [hfs] at hf
      exact ⟨_, hp, hf⟩
    | error g s₂ =>
      rw [hfs] at hf
      obtain ⟨taken₂, hls₂, more, hvalid, hleft, hS⟩ := hf
      obtain ⟨taken₁, hls₁, hR⟩ := hportable _ _ hp
      refine ⟨taken₁ ++ taken₂, by rw [hls₁, hls₂, List.append_assoc], more, hvalid, hleft, ?_⟩
      intro rest hrest
      refine ⟨taken₂ ++ more ++ rest, ?_, hS rest hrest⟩
      have hnext : NextIs .parenLeft (taken₂ ++ (more ++ rest)) → NextIs .parenLeft s₁.lexemes := by
        rw [hls₂]
        exact nextIs_append (fun h => absurd h (not_nextIs_append hleft hrest)) taken₂
      rw [List.append_assoc taken₂] at *
      simpa using hR _ hnext

/-- What is done with a result that takes nothing more. -/
theorem map (hp : Traces R p s) (hf : ∀ a s₁, ∃ b, f a s₁ = .ok b s₁) :
    Traces R (p >>= f) s := by
  unfold Traces at *
  cases hps : p s with
  | ok a s₁ =>
    rw [hps] at hp
    obtain ⟨b, hfa⟩ := hf a s₁
    rw [Parse.bind_of_ok hps, hfa]
    exact hp
  | error g s₁ =>
    rw [hps] at hp
    rw [Parse.bind_of_error hps]
    exact hp

theorem adapt (hp : Traces R p s) (note : Failure → Failure) :
    Traces R (p.adaptExcept note) s := by
  unfold Traces EStateM.adaptExcept at *
  cases hps : p s <;> rw [hps] at hp <;> exact hp

theorem holding (hp : Traces R p s) (e : Fragment) : Traces R (holding e p) s := hp.adapt _

theorem holdingAll (hp : Traces R p s) (es : List Expr) : Traces R (holdingAll es p) s :=
  hp.adapt _

theorem discard (hp : Traces R p s) : Traces R (discard p : Parse Unit) s :=
  hp.map fun _ _ => ⟨(), rfl⟩

/-! ### Steps over tokens -/

/-- A look ahead takes nothing, whether something is seen or not. -/
theorem look {q : Parse Ahead} {f : Ahead → Parse β}
    (hq : (∃ seen, s.stream.lookahead = .ok seen ∧ q s = .ok seen s) ∨ ∃ g, q s = .error g s)
    (hopen : Open R []) (hf : ∀ seen, s.stream.lookahead = .ok seen → Traces R (f seen) s) :
    Traces R (q >>= f) s := by
  rcases hq with ⟨seen, hseen, hq⟩ | ⟨g, hq⟩
  · rw [Traces, Parse.bind_of_ok hq]
    exact hf seen hseen
  · rw [Traces, Parse.bind_of_error hq]
    exact ⟨[], rfl, hopen⟩

theorem peek {f : Ahead → Parse β} (hopen : Open R [])
    (hf : ∀ seen, s.stream.lookahead = .ok seen → Traces R (f seen) s) :
    Traces R (peek >>= f) s := by
  refine look ?_ hopen hf
  cases hseen : s.stream.lookahead with
  | ok seen => exact .inl ⟨seen, rfl, peek_ok_iff.2 ⟨hseen, rfl⟩⟩
  | error cause => exact .inr ⟨_, peek_eq_error hseen⟩

theorem holding_peek {f : Ahead → Parse β} (left : Expr) (hopen : Open R [])
    (hf : ∀ seen, s.stream.lookahead = .ok seen → Traces R (f seen) s) :
    Traces R (Dql.holding left Dql.peek >>= f) s := by
  refine look ?_ hopen hf
  cases hseen : s.stream.lookahead with
  | ok seen => exact .inl ⟨seen, rfl, holding_ok_iff.2 (peek_ok_iff.2 ⟨hseen, rfl⟩)⟩
  | error cause =>
    refine .inr ⟨{ error := .lexical cause, fragments := [left] }, ?_⟩
    simp only [Dql.holding, EStateM.adaptExcept, peek_eq_error hseen]

theorem advance {t : Token} (h : s.stream.lookahead = .ok (.token t)) :
    Traces (exactly t.lexeme) advance s :=
  Progress.lexemes_of_lookahead h

theorem take {k : TokenKind} (hopen : Open (kind k) []) (s : Progress) :
    Traces (kind k) (take k) s := by
  refine peek hopen fun seen hseen => ?_
  cases seen with
  | endOfText => exact fail hopen s
  | token t =>
    simp only
    split
    · rename_i hk
      exact ((advance hseen).map fun _ s₁ => ⟨t, rfl⟩).mono fun _ _ h => ⟨t.lexeme, hk, h⟩
    · exact fail hopen s

end Traces

theorem portable_exactly (l : Lexeme) (ls rest : List Lexeme) (h : exactly l ls rest) :
    Portable (exactly l) ls rest := by
  obtain rfl : ls = l :: rest := h
  exact .exactly l rest

theorem portable_kind (k : TokenKind) (ls rest : List Lexeme) (h : kind k ls rest) :
    Portable (kind k) ls rest := by
  obtain ⟨l, hl, rfl⟩ := h
  exact ⟨[l], rfl, fun _ _ => ⟨l, hl, rfl⟩⟩

/-! ## Operators -/

section Parsers

variable {primary : PrimaryParser}

theorem factor_traces
    (hp : ∀ s, Traces (phrase catalog (.primary .arithmetic)) (primary .arithmetic) s)
    (s : Progress) : Traces (phrase catalog .factor) (factor primary) s := by
  refine Traces.peek (open_factor catalog) fun seen hseen => ?_
  cases hsign : seen.kind?.bind TokenKind.sign? with
  | none => exact (hp s).mono fun _ _ ⟨d⟩ => ⟨.unsigned d⟩
  | some sign =>
    cases seen with
    | endOfText => cases hsign
    | token t =>
      refine Traces.mono (Traces.bind (portable_exactly t.lexeme) (open_primary catalog .arithmetic)
        (.advance hseen) fun _ s₁ _ => (hp s₁).map fun _ s₂ => ⟨_, rfl⟩) ?_
      rintro _ _ ⟨_, rfl, ⟨d⟩⟩
      exact ⟨.signed t.lexeme sign (isSign_iff.2 hsign) d⟩

theorem operatorRound_traces
    (hp : ∀ s, Traces (phrase catalog (.primary .arithmetic)) (primary .arithmetic) s)
    {loop : Nat → Expr → Parse Expr}
    (h : ∀ least left s, Traces (Steps catalog) (loop least left) s) (least : Nat) (left : Expr)
    (s : Progress) :
    Traces (Steps catalog) (operatorRound primary loop least left) s := by
  refine Traces.holding_peek left (open_steps catalog) fun seen hseen => ?_
  have hdone : Traces (Steps catalog) (pure left) s :=
    (Traces.pure left s).mono fun _ _ h => h ▸ .refl
  cases hop : seen.kind?.bind TokenKind.operator? with
  | none => exact hdone
  | some op =>
    simp only
    split
    · exact hdone
    · cases seen with
      | endOfText => cases hop
      | token t =>
        have hsteps := open_steps catalog
        refine Traces.mono (Traces.bind (portable_exactly t.lexeme)
          ((open_factor catalog).seq (hsteps.seq hsteps)) (.advance hseen) fun _ s₁ _ =>
          Traces.bind (fun _ _ => portable_phrase) (hsteps.seq hsteps)
            ((factor_traces hp s₁).holding left) fun operand s₂ _ =>
          Traces.bind (fun _ _ => portable_steps) hsteps ((h _ operand s₂).holding left)
            fun right s₃ _ => h least _ s₃) ?_
        rintro _ _ ⟨_, rfl, _, hnext, _, hright, hrest⟩
        exact .step t.lexeme op hop hnext (hright.trans hrest)

theorem operators_traces
    (hp : ∀ s, Traces (phrase catalog (.primary .arithmetic)) (primary .arithmetic) s) :
    ∀ (bound least : Nat) (left : Expr) (s : Progress),
      Traces (Steps catalog) (operators primary bound least left) s
  | 0, least, left, s => by
    rw [operators]
    refine Traces.holding_peek left (open_steps catalog) fun seen _ => ?_
    have hdone : Traces (Steps catalog) (pure left) s :=
      (Traces.pure left s).mono fun _ _ h => h ▸ .refl
    cases seen.kind?.bind TokenKind.operator? with
    | none => exact hdone
    | some op => simpa only [ite_self] using hdone
  | bound + 1, least, left, s => by
    rw [operators_succ]
    exact operatorRound_traces hp (operators_traces hp bound) least left s

theorem expression_traces
    (hp : ∀ s, Traces (phrase catalog (.primary .arithmetic)) (primary .arithmetic) s)
    (s : Progress) : Traces (phrase catalog .expression) (expression primary) s := by
  refine Traces.mono (Traces.bind (fun _ _ => portable_phrase) (open_steps catalog)
    (factor_traces hp s) fun operand s₁ _ => ?_) fun _ _ ⟨_, hfirst, hsteps⟩ =>
      expression_of_steps hfirst hsteps
  rw [Traces, Parse.bind_of_ok (tokensAhead_eq s₁)]
  exact operators_traces hp _ 0 operand s₁

/-! ## Calls -/

theorem moreArguments_traces
    (hexpr : ∀ s, Traces (phrase catalog .expression) (expression primary) s) :
    ∀ (bound : Nat) (s : Progress),
      Traces (phrase catalog .moreArguments) (moreArguments primary bound) s
  | 0, s => (Traces.pure [] s).mono fun _ _ h => h ▸ ⟨.noMoreArgument⟩
  | bound + 1, s => by
    by_cases hcomma : NextIs .comma s.lexemes
    · have htake : Traces (kind .comma) (takeIf .comma) s := by
        obtain ⟨l, hls, hl⟩ := Progress.exists_next hcomma
        rw [Traces, takeIf_of_next hcomma]
        exact ⟨l, hl, hls⟩
      have hmore := open_moreArguments catalog
      refine Traces.mono (Traces.bind (portable_kind .comma) ((open_expression catalog).seq hmore)
        htake fun comma s₁ htaken => ?_) fun _ _ ⟨_, ⟨l, hl, hls⟩, _, ⟨a⟩, ⟨b⟩⟩ =>
          hls ▸ ⟨.moreArguments l hl a b⟩
      rw [takeIf_of_next hcomma] at htaken
      cases htaken
      rw [if_pos rfl]
      exact Traces.bind (fun _ _ => portable_phrase) hmore (hexpr _) fun arg s₂ _ =>
        ((moreArguments_traces hexpr bound s₂).holding (.argument arg)).map fun _ _ => ⟨_, rfl⟩
    · rw [Traces, moreArguments, Parse.bind_of_ok (takeIf_of_not_next hcomma)]
      exact ⟨.noMoreArgument⟩

theorem arguments_traces (hexpr : ∀ s, Traces (phrase catalog .expression) (expression primary) s)
    (s : Progress) : Traces (phrase catalog .arguments) (arguments primary) s := by
  refine Traces.peek (open_arguments catalog) fun seen _ => ?_
  split
  · exact (Traces.pure [] s).mono fun _ _ h => h ▸ ⟨.noArgument⟩
  · refine Traces.mono (Traces.bind (fun _ _ => portable_phrase) (open_moreArguments catalog)
      (hexpr s) fun arg s₁ _ => Traces.map (Traces.holding ?_ (.argument arg)) fun _ _ => ⟨_, rfl⟩)
      fun _ _ ⟨_, ⟨a⟩, ⟨b⟩⟩ => ⟨.arguments a b⟩
    rw [Traces, Parse.bind_of_ok (tokensAhead_eq s₁)]
    exact moreArguments_traces hexpr _ s₁

theorem fill_traces (hp : ∀ c s, Traces (phrase catalog (.primary c)) (primary c) s)
    (hexpr : ∀ s, Traces (phrase catalog .expression) (expression primary) s) :
    ∀ (pieces : List Piece) (s : Progress),
      Traces (phrase catalog (.form pieces)) (fill primary pieces) s
  | [], s =>
    ((Traces.take open_parenRight s).discard.map fun _ _ => ⟨_, rfl⟩).mono
      fun _ _ ⟨l, hl, hls⟩ => hls ▸ ⟨.formEnd l hl⟩
  | .word :: pieces, s =>
    (Traces.bind (portable_kind _) (open_form catalog pieces) (.take open_identifier s)
      fun _ s₁ _ => (fill_traces hp hexpr pieces s₁).map fun _ _ => ⟨_, rfl⟩).mono
      fun _ _ ⟨_, ⟨l, hl, hls⟩, ⟨d⟩⟩ => hls ▸ ⟨.word l hl d⟩
  | .keyword _ :: pieces, s =>
    (Traces.bind (portable_kind _) (open_form catalog pieces)
      (Traces.take open_identifier s).discard
      fun _ s₁ _ => fill_traces hp hexpr pieces s₁).mono
      fun _ _ ⟨_, ⟨l, hl, hls⟩, ⟨d⟩⟩ => hls ▸ ⟨.keyword l hl d⟩
  | .comma :: pieces, s =>
    (Traces.bind (portable_kind _) (open_form catalog pieces) (Traces.take open_comma s).discard
      fun _ s₁ _ => fill_traces hp hexpr pieces s₁).mono
      fun _ _ ⟨_, ⟨l, hl, hls⟩, ⟨d⟩⟩ => hls ▸ ⟨.comma l hl d⟩
  | .expression :: pieces, s =>
    (Traces.bind (fun _ _ => portable_phrase) (open_form catalog pieces) (hexpr s)
      fun slot s₁ _ => ((fill_traces hp hexpr pieces s₁).holding slot).map fun _ _ => ⟨_, rfl⟩).mono
      fun _ _ ⟨_, ⟨a⟩, ⟨b⟩⟩ => ⟨.expressionSlot a b⟩
  | .primary accepts :: pieces, s =>
    (Traces.bind (fun _ _ => portable_phrase) (open_form catalog pieces) (hp accepts s)
      fun slot s₁ _ => ((fill_traces hp hexpr pieces s₁).holding slot).map fun _ _ => ⟨_, rfl⟩).mono
      fun _ _ ⟨_, ⟨a⟩, ⟨b⟩⟩ => ⟨.primarySlot a b⟩

/-- The head of a call, which is ahead. -/
theorem callHead_traces {t u : Token} (ht : s.stream.lookahead = .ok (.token t))
    (hname : t.kind = .identifier) (hu : s.tail.stream.lookahead = .ok (.token u))
    (hleft : u.kind = .parenLeft) :
    Traces (seq (exactly t.lexeme) (exactly u.lexeme)) callHead s := by
  rw [Traces, callHead_of_lookahead ht hname hu hleft]
  exact ⟨_, Progress.lexemes_of_lookahead ht, Progress.lexemes_of_lookahead hu⟩

theorem functionCall_traces (hp : ∀ c s, Traces (phrase catalog (.primary c)) (primary c) s)
    (hexpr : ∀ s, Traces (phrase catalog .expression) (expression primary) s)
    {accepts : PrimaryClass} {t u : Token} (ht : s.stream.lookahead = .ok (.token t))
    (hname : t.kind = .identifier) (hu : s.tail.stream.lookahead = .ok (.token u))
    (hleft : u.kind = .parenLeft) :
    Traces (phrase catalog (.primary accepts)) (functionCall catalog primary t) s := by
  have hhead : ∀ ls rest, seq (exactly t.lexeme) (exactly u.lexeme) ls rest →
      Portable (seq (exactly t.lexeme) (exactly u.lexeme)) ls rest :=
    fun ls rest ⟨mid, h₁, h₂⟩ =>
      (portable_exactly _ ls mid h₁).seq (portable_exactly _ mid rest h₂)
  unfold functionCall
  cases hb : Builtin.ofName? t.text with
  | some function =>
    refine Traces.mono (Traces.bind hhead ((open_arguments catalog).seq open_parenRight)
      (callHead_traces ht hname hu hleft) fun _ s₁ _ =>
      Traces.bind (fun _ _ => portable_phrase) open_parenRight (arguments_traces hexpr s₁)
        fun args s₂ _ => ((Traces.take open_parenRight s₂).holdingAll args).discard.map
          fun _ _ => ⟨_, rfl⟩) ?_
    rintro _ rest ⟨_, ⟨_, rfl, rfl⟩, _, ⟨d⟩, r, hr, rfl⟩
    exact ⟨.call _ _ r function hname hleft hr (Builtin.ofName?_eq_some_iff.1 hb) d⟩
  | none =>
    cases hf : catalog.find? t.text with
    | none => exact .fail (open_primary catalog accepts) s
    | some entry =>
      -- noting the call leaves the lexemes as they are
      have hdispatch : Traces nothing (dispatch t) s := rfl
      refine Traces.mono (Traces.bind (fun _ _ h => h ▸ .nothing _)
        (open_primary catalog accepts) hdispatch fun _ s₁ hs₁ => ?_) fun _ _ ⟨_, h, hd⟩ => h ▸ hd
      cases hs₁
      have hcall : Traces (seq (seq (exactly t.lexeme) (exactly u.lexeme))
          (phrase catalog (.form entry.extension.form)))
          (extensionCall primary entry.extension) { s with
            dispatched := s.dispatched ++ [.dispatching t.text t.start] } :=
        Traces.bind hhead (open_form catalog _) (callHead_traces ht hname hu hleft) fun _ s₁ _ =>
          fill_traces hp hexpr _ s₁
      refine (hcall.map fun _ _ => ⟨_, rfl⟩).mono ?_
      rintro _ rest ⟨_, ⟨_, rfl, rfl⟩, ⟨d⟩⟩
      exact ⟨.extension _ _ entry hname hleft (Builtin.ofName?_eq_none_iff.1 hb) hf
        (production_iff.2 rfl) d⟩

/-! ## Primaries -/

theorem nestedPrimary_traces (hp : ∀ c s, Traces (phrase catalog (.primary c)) (primary c) s)
    (hexpr : ∀ s, Traces (phrase catalog .expression) (expression primary) s)
    (accepts : PrimaryClass) (s : Progress) :
    Traces (phrase catalog (.primary accepts)) (nestedPrimary catalog primary accepts) s := by
  have hopen := open_primary catalog accepts
  refine Traces.peek hopen fun seen hseen => ?_
  cases seen with
  | endOfText => exact .fail hopen s
  | token t =>
    -- a primary of one token
    have leaf : ∀ e : Expr,
        (∀ rest, Derivation catalog (.primary accepts) (t.lexeme :: rest) rest) →
        Traces (phrase catalog (.primary accepts)) (do advance; return e) s := fun e d =>
      ((Traces.advance hseen).map fun _ _ => ⟨e, rfl⟩).mono fun _ _ h => h ▸ ⟨d _⟩
    cases hk : t.kind with
    | parenLeft =>
      cases accepts with
      | string => simpa only [hk] using Traces.fail hopen s
      | arithmetic =>
        simp only [hk]
        refine Traces.mono (Traces.bind (portable_exactly t.lexeme)
          ((open_expression catalog).seq open_parenRight) (.advance hseen) fun _ s₁ _ =>
          Traces.bind (fun _ _ => portable_phrase) open_parenRight (hexpr s₁) fun inner s₂ _ =>
            ((Traces.take open_parenRight s₂).holding inner).discard.map fun _ _ => ⟨_, rfl⟩) ?_
        rintro _ _ ⟨_, rfl, _, ⟨d⟩, r, hr, rfl⟩
        exact ⟨.paren t.lexeme r hk hr d⟩
    | integer =>
      cases accepts with
      | string => simpa only [hk] using Traces.fail hopen s
      | arithmetic => simpa only [hk] using leaf _ fun _ => .number t.lexeme (.inl hk)
    | float =>
      cases accepts with
      | string => simpa only [hk] using Traces.fail hopen s
      | arithmetic => simpa only [hk] using leaf _ fun _ => .number t.lexeme (.inr hk)
    | string => simpa only [hk] using leaf _ fun _ => .string t.lexeme hk
    | parameter => simpa only [hk] using leaf _ fun _ => .parameter t.lexeme hk
    | path => simpa only [hk] using leaf _ fun _ => .path t.lexeme hk
    | identifier =>
      simp only [hk]
      cases hsecond : s.tail.stream.lookahead with
      | error cause =>
        rw [Traces, Parse.bind_of_error (peekSecond_eq_error hsecond)]
        exact ⟨[], rfl, hopen⟩
      | ok second =>
        rw [Traces, Parse.bind_of_ok (peekSecond_ok_iff.2 ⟨hsecond, rfl⟩)]
        by_cases hcall : second.kind? = some .parenLeft
        · rw [if_pos hcall]
          cases second with
          | endOfText => cases hcall
          | token u => exact functionCall_traces hp hexpr hseen hk hsecond (Option.some.inj hcall)
        · rw [if_neg hcall]
          cases accepts with
          | string => exact ⟨[], rfl, hopen⟩
          | arithmetic =>
            rw [Progress.kind?_of_lookahead hsecond] at hcall
            have hname : Derivation catalog (.primary .arithmetic) (t.lexeme :: s.tail.lexemes)
                s.tail.lexemes := .name t.lexeme hk hcall
            rw [← Progress.lexemes_of_lookahead hseen] at hname
            exact ⟨hname⟩
    | parenRight | comma | plus | minus | asterisk | slash =>
      simpa only [hk] using Traces.fail hopen s

end Parsers

theorem primary_traces : ∀ (room : Nat) (accepts : PrimaryClass) (s : Progress),
    Traces (phrase catalog (.primary accepts)) (primary catalog room accepts) s
  | 0, accepts, s =>
    Traces.peek (open_primary catalog accepts) fun _ _ => .fail (open_primary _ _) s
  | room + 1, accepts, s =>
    nestedPrimary_traces (primary_traces room) (expression_traces (primary_traces room .arithmetic))
      accepts s

/-! ## Whole texts -/

/-- The lexemes are an expression, however deep primaries nest in it. -/
def Sentence (catalog : Catalog) (ls : List Lexeme) : Prop :=
  Nonempty (Derivation catalog .expression ls [])

/-- Some lexemes after these make the whole an expression. -/
def Viable (catalog : Catalog) (ls : List Lexeme) : Prop :=
  ∃ more, (∀ l ∈ more, l.Valid) ∧ Sentence catalog (ls ++ more)

/-- What can be completed can be completed from any earlier place. -/
theorem Viable.of_append {ls ms : List Lexeme} (h : Viable catalog (ls ++ ms))
    (hms : ∀ l ∈ ms, l.Valid) : Viable catalog ls := by
  obtain ⟨more, hvalid, hsentence⟩ := h
  rw [List.append_assoc] at hsentence
  exact ⟨ms ++ more, List.forall_mem_append.2 ⟨hms, hvalid⟩, hsentence⟩

/-- **What was taken before a failure is viable.** -/
theorem viable_of_wholeExpression {f : Failure} {s s' : Progress}
    (h : wholeExpression catalog s = .error f s') :
    ∃ taken, s.lexemes = taken ++ s'.lexemes ∧ Viable catalog taken := by
  have hend : ∀ (e : Expr) (s : Progress), Traces nothing (holding e expectEnd) s := fun e s =>
    Traces.holding (Traces.peek Open.nothing fun seen _ => by
      cases seen with
      | endOfText => exact .pure () s
      | token => exact .fail Open.nothing s) e
  have hwhole : Traces (seq (phrase catalog .expression) nothing) (wholeExpression catalog) s :=
    Traces.bind (fun _ _ => portable_phrase) Open.nothing
      (expression_traces (primary_traces _ .arithmetic) s) fun e s₁ _ =>
        (hend e s₁).map fun _ _ => ⟨e, rfl⟩
  rw [Traces, h] at hwhole
  obtain ⟨taken, hls, more, hvalid, -, hR⟩ := hwhole
  obtain ⟨_, hd, rfl⟩ := hR [] (by decide)
  rw [List.append_nil] at hd
  exact ⟨taken, hls, more, hvalid, hd⟩

end Dql
