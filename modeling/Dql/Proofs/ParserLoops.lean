import Mathlib.Logic.Function.Iterate
import Dql.Proofs.NestingLimit

/-!
# The recursion of a parser unrolled

A parser takes a token before it comes to a primary inside another one, and before it goes through a
loop once more. So what it does in one state depends only on what its parts do where there are fewer
tokens ahead, and a recursion that is unrolled more often than there are tokens ahead comes to the
same whatever is at the bottom. The limit on nesting has no part in this.

* `Parser.left` - how many tokens are ahead;
* `SameAt`, `SameBelow` - parsers that do the same in one state, and wherever there are few tokens
  ahead;
* `operatorRound`, `argumentRound` - one round of each loop, the rounds after it being a parameter;
* `chain`, `furtherArguments` - the loops with a bound that always suffices.

Principal results: `limitedPrimary_iterate`, `unlimited_iterate`, `operatorRound_iterate` and
`argumentRound_iterate`.
-/

namespace Dql.Parser

variable {α β : Type} {n : Nat} {σ : Parser}

/-- The number of lexemes ahead. -/
def left (σ : Parser) : Nat := σ.progress.lexemes.length

/-! ## Parsers that do the same -/

/-- In the state `σ` both parsers do the same. Where they succeed, there are no more lexemes ahead
than before. -/
structure SameAt (p q : ParserM α) (σ : Parser) : Prop where
  eq : p σ = q σ
  shrinks : ∀ a τ, q σ = .ok a τ → τ.left ≤ σ.left

/-- The same in all states with fewer than `n` lexemes ahead. -/
def SameBelow (n : Nat) (p q : ParserM α) : Prop := ∀ σ : Parser, σ.left < n → SameAt p q σ

theorem SameAt.bind {p q : ParserM α} {f g : α → ParserM β} (h : SameAt p q σ)
    (hf : ∀ a τ, q σ = .ok a τ → SameAt (f a) (g a) τ) : SameAt (p >>= f) (q >>= g) σ := by
  constructor
  · simp only [Bind.bind, EStateM.bind, h.eq]
    cases hq : q σ with
    | ok a τ => exact (hf a τ hq).eq
    | error e τ => rfl
  · intro b υ hok
    simp only [Bind.bind, EStateM.bind] at hok
    cases hq : q σ with
    | ok a τ =>
      rw [hq] at hok
      exact Nat.le_trans ((hf a τ hq).shrinks b υ hok) (h.shrinks a τ hq)
    | error e τ =>
      rw [hq] at hok
      cases hok

/-- A step that succeeds and takes no tokens back. -/
theorem SameAt.of_ok {p : ParserM α} {a : α} {τ : Parser} (h : p σ = .ok a τ)
    (hle : τ.left ≤ σ.left) : SameAt p p σ := by
  refine ⟨rfl, fun b υ hok => ?_⟩
  cases h.symm.trans hok
  exact hle

theorem SameAt.pure (a : α) (σ : Parser) : SameAt (pure a : ParserM α) (Pure.pure a) σ :=
  .of_ok rfl (Nat.le_refl _)

theorem SameAt.fail (e : ParseError) (σ : Parser) : SameAt (throw e : ParserM α) (throw e) σ :=
  ⟨rfl, nofun⟩

namespace SameBelow

variable {p q : ParserM α} {f g : α → ParserM β}

theorem mono {m : Nat} (h : SameBelow n p q) (hle : m ≤ n) : SameBelow m p q := fun σ hσ =>
  h σ (Nat.lt_of_lt_of_le hσ hle)

theorem bind (h : SameBelow n p q) (hf : ∀ a, SameBelow n (f a) (g a)) :
    SameBelow n (p >>= f) (q >>= g) := fun σ hσ =>
  (h σ hσ).bind fun a τ hok => hf a τ (Nat.lt_of_le_of_lt ((h σ hσ).shrinks a τ hok) hσ)

theorem pure (a : α) : SameBelow n (pure a : ParserM α) (Pure.pure a) := fun σ _ => .pure a σ

theorem discard (h : SameBelow n p q) :
    SameBelow n (discard p : ParserM Unit) (Functor.discard q) := h.bind fun _ => pure ()

end SameBelow

/-! ### Steps over tokens -/

/-- Where a step over tokens leads is told by the same step of the parser to trees. -/
theorem exists_of_tracks {p : Parse α} {q : ParserM α} (h : Tracks p q) {a : α} {τ : Parser}
    (hok : q σ = .ok a τ) : ∃ s, p σ.progress = .ok a s ∧ τ = σ.movedTo s := by
  have hrefines := h σ σ.progress
  cases hp : p σ.progress with
  | ok b s =>
    have hq : q σ = .ok b (σ.movedTo s) := hrefines.of_ok hp
    rw [hok] at hq
    cases hq
    exact ⟨s, rfl, rfl⟩
  | error f s =>
    have hq : q σ = _ := hrefines.of_error hp
    rw [hok] at hq
    cases hq

theorem peek_ok {seen : Ahead} {τ : Parser} (h : peek σ = .ok seen τ) :
    σ.progress.stream.lookahead = .ok seen ∧ τ = σ := by
  obtain ⟨s, hs, rfl⟩ := exists_of_tracks peek_tracks h
  obtain ⟨hseen, rfl⟩ := peek_ok_iff.1 hs
  exact ⟨hseen, rfl⟩

theorem peek_same (σ : Parser) : SameAt peek peek σ :=
  ⟨rfl, fun _ _ h => Nat.le_of_eq (congrArg left (peek_ok h).2)⟩

theorem peekSecond_same (σ : Parser) : SameAt peekSecond peekSecond σ := by
  refine ⟨rfl, fun _ _ h => ?_⟩
  obtain ⟨s, hs, rfl⟩ := exists_of_tracks peekSecond_tracks h
  obtain ⟨-, rfl⟩ := peekSecond_ok_iff.1 hs
  exact Nat.le_refl _

/-- Going over a token leaves fewer. -/
theorem left_of_advance {t : Token} {u : Unit} {τ : Parser}
    (hseen : σ.progress.stream.lookahead = .ok (.token t)) (h : advance σ = .ok u τ) :
    τ.left < σ.left := by
  cases h
  have hlexemes := Progress.lexemes_of_lookahead hseen
  show σ.progress.tail.lexemes.length < σ.progress.lexemes.length
  rw [hlexemes]
  exact Nat.lt_succ_self _

theorem left_of_take {kind : TokenKind} {t : Token} {τ : Parser} (h : take kind σ = .ok t τ) :
    τ.left < σ.left := by
  obtain ⟨s, hs, rfl⟩ := exists_of_tracks (take_tracks kind) h
  have hlexemes := (lexemes_of_take hs).1
  show s.lexemes.length < σ.progress.lexemes.length
  rw [hlexemes]
  exact Nat.lt_succ_self _

/-- What comes after a token need only be the same where fewer are ahead. -/
theorem advance_same {t : Token} (hseen : σ.progress.stream.lookahead = .ok (.token t))
    {f g : Unit → ParserM β} (hf : SameBelow σ.left (f ()) (g ())) :
    SameAt (advance >>= f) (advance >>= g) σ :=
  SameAt.bind ⟨rfl, fun _ _ h => Nat.le_of_lt (left_of_advance hseen h)⟩ fun _ τ h =>
    hf τ (left_of_advance hseen h)

theorem take_same (kind : TokenKind) {f g : Token → ParserM β}
    (hf : ∀ t, SameBelow σ.left (f t) (g t)) : SameAt (take kind >>= f) (take kind >>= g) σ :=
  SameAt.bind ⟨rfl, fun _ _ h => Nat.le_of_lt (left_of_take h)⟩ fun t τ h =>
    hf t τ (left_of_take h)

theorem take_sameBelow (kind : TokenKind) : SameBelow n (take kind) (take kind) := fun _ _ =>
  ⟨rfl, fun _ _ h => Nat.le_of_lt (left_of_take h)⟩

/-- A comma, if there is one, leaves fewer tokens for what comes after it. -/
theorem takeIf_same (kind : TokenKind) {p q r : ParserM β} (hp : SameBelow σ.left p q)
    (hr : SameAt r r σ) :
    SameAt (takeIf kind >>= fun b => if b then p else r)
      (takeIf kind >>= fun b => if b then q else r) σ := by
  by_cases hnext : NextIs kind σ.progress.lexemes
  · have hok : takeIf kind σ = .ok true (σ.movedTo σ.progress.tail) :=
      (takeIf_passes kind σ σ σ.progress).of_ok (takeIf_of_next hnext)
    have hfewer : (σ.movedTo σ.progress.tail).left < σ.left := by
      obtain ⟨l, hls, -⟩ := Progress.exists_next hnext
      show σ.progress.tail.lexemes.length < σ.progress.lexemes.length
      rw [hls]
      exact Nat.lt_succ_self _
    refine (SameAt.of_ok hok (Nat.le_of_lt hfewer)).bind fun b τ h => ?_
    cases hok.symm.trans h
    exact hp _ hfewer
  · have hok : takeIf kind σ = .ok false σ :=
      (takeIf_passes kind σ σ σ.progress).of_ok (takeIf_of_not_next hnext)
    refine (SameAt.of_ok hok (Nat.le_refl _)).bind fun b τ h => ?_
    cases hok.symm.trans h
    exact hr

/-- The name of a function and the parenthesis after it leave fewer tokens for what comes next. -/
theorem callHead_same {f g : Unit → ParserM β} (hf : SameBelow σ.left (f ()) (g ())) :
    SameAt (callHead >>= f) (callHead >>= g) σ := by
  have hassoc : ∀ h : Unit → ParserM β, (callHead >>= h) σ = (take .identifier >>= fun _ =>
      (discard (take .parenLeft) : ParserM Unit) >>= h) σ := by
    intro h
    simp only [callHead, discard, Functor.discard, Functor.mapConst, Function.comp_apply,
      EStateM.map, Function.const, Bind.bind, EStateM.bind]
    cases take .identifier σ <;> rfl
  have hsame := take_same (σ := σ) .identifier fun _ =>
    ((take_sameBelow .parenLeft).discard).bind fun _ => hf
  exact ⟨by rw [hassoc, hassoc, hsame.eq], fun a τ h => hsame.shrinks a τ (by rwa [← hassoc])⟩

/-! ### Other steps -/

section Others

variable (n)

theorem tokensAhead_same : SameBelow n tokensAhead tokensAhead := fun _ _ =>
  .of_ok rfl (Nat.le_refl _)

theorem append_same (add : NodeTable → NodeId × NodeTable) :
    SameBelow n (append add) (append add) := fun _ _ => .of_ok rfl (Nat.le_refl _)

theorem pushArgument_same (id : NodeId) : SameBelow n (pushArgument id) (pushArgument id) :=
  fun _ _ => .of_ok rfl (Nat.le_refl _)

theorem drain_same (start : Nat) : SameBelow n (drain start) (drain start) := fun _ _ =>
  .of_ok rfl (Nat.le_refl _)

end Others

/-! ## Productions -/

section Productions

variable {primary primary' : Primary}

theorem factor_same (h : SameBelow n (primary .arithmetic) (primary' .arithmetic)) :
    SameBelow n (factor primary) (factor primary') := by
  intro σ hσ
  refine (peek_same σ).bind fun seen τ hpeek => ?_
  obtain ⟨hseen, rfl⟩ := peek_ok hpeek
  cases hsign : seen.kind?.bind TokenKind.sign? with
  | none => exact h τ hσ
  | some sign =>
    cases seen with
    | endOfText => cases hsign
    | token t =>
      have hrest : SameBelow τ.left (primary .arithmetic >>= fun id => push (.signed sign id))
          (primary' .arithmetic >>= fun id => push (.signed sign id)) :=
        (h.mono (Nat.le_of_lt hσ)).bind fun _ => append_same _ _
      exact advance_same hseen hrest

/-- One round of the loop over operators. What is done with the operand after an operator and with
what is to the left of the next one is `loop`. -/
def operatorRound (primary : Primary) (loop : Nat → NodeId → ParserM NodeId) (least : Nat)
    (left : NodeId) : ParserM NodeId := do
  match (← peek).kind?.bind TokenKind.operator? with
  | none => return left
  | some op =>
    if op.power < least then return left
    else
      advance
      let right ← loop (op.power + 1) (← factor primary)
      loop least (← push (.binary left op right))

theorem operators_succ (primary : Primary) (bound least : Nat) (left : NodeId) :
    operators primary (bound + 1) least left =
      operatorRound primary (operators primary bound) least left := by
  rw [operators]
  rfl

/-- The rounds after one need only be the same where fewer tokens are ahead. -/
theorem operatorRound_same {loop loop' : Nat → NodeId → ParserM NodeId}
    (h : SameBelow σ.left (primary .arithmetic) (primary' .arithmetic))
    (hloop : ∀ least left, SameBelow σ.left (loop least left) (loop' least left)) (least : Nat)
    (left : NodeId) :
    SameAt (operatorRound primary loop least left) (operatorRound primary' loop' least left) σ := by
  refine (peek_same σ).bind fun seen τ hpeek => ?_
  obtain ⟨hseen, rfl⟩ := peek_ok hpeek
  cases hop : seen.kind?.bind TokenKind.operator? with
  | none => exact .pure left τ
  | some op =>
    cases seen with
    | endOfText => cases hop
    | token t =>
      dsimp only
      split
      · exact .pure left τ
      · have hrest := (factor_same h).bind fun operand => (hloop (op.power + 1) operand).bind
          fun right => (append_same _ (·.push (.binary left op right))).bind (hloop least)
        exact advance_same hseen hrest

/-- With no token ahead there is no operator, and the loop needs no bound. -/
theorem operators_of_left_zero (hσ : σ.left = 0) (loop : Nat → NodeId → ParserM NodeId)
    (bound least : Nat) (left : NodeId) :
    SameAt (operatorRound primary' loop least left) (operators primary bound least left) σ := by
  rw [operators.eq_def]
  refine (peek_same σ).bind fun seen τ hpeek => ?_
  obtain ⟨hseen, rfl⟩ := peek_ok hpeek
  cases seen with
  | endOfText => exact .pure left τ
  | token t =>
    have hlexemes := congrArg List.length (Progress.lexemes_of_lookahead hseen)
    exact absurd (hlexemes.symm.trans hσ) (Nat.succ_ne_zero _)

theorem operators_same (h : SameBelow n (primary .arithmetic) (primary' .arithmetic)) :
    ∀ (bound least : Nat) (left : NodeId),
      SameBelow n (operators primary bound least left) (operators primary' bound least left)
  | 0, least, left => by
    intro σ _
    rw [operators, operators]
    refine (peek_same σ).bind fun seen τ _ => ?_
    cases seen.kind?.bind TokenKind.operator? with
    | none => exact .pure left τ
    | some op => simpa only [ite_self] using SameAt.pure left τ
  | bound + 1, least, left => by
    intro σ hσ
    rw [operators_succ, operators_succ]
    exact operatorRound_same (h.mono (Nat.le_of_lt hσ))
      (fun least left => (operators_same h bound least left).mono (Nat.le_of_lt hσ)) least left

theorem expression_same (h : SameBelow n (primary .arithmetic) (primary' .arithmetic)) :
    SameBelow n (expression primary) (expression primary') :=
  (factor_same h).bind fun operand => (tokensAhead_same n).bind fun bound =>
    operators_same h bound 0 operand

/-- One round of the loop over the arguments after the first one. -/
def argumentRound (primary : Primary) (loop : ParserM Unit) : ParserM Unit := do
  if ← takeIf .comma then
    pushArgument (← expression primary)
    loop

theorem argumentRound_same {loop loop' : ParserM Unit}
    (h : SameBelow σ.left (primary .arithmetic) (primary' .arithmetic))
    (hloop : SameBelow σ.left loop loop') :
    SameAt (argumentRound primary loop) (argumentRound primary' loop') σ :=
  takeIf_same .comma ((expression_same h).bind fun arg => (pushArgument_same _ arg).bind fun _ =>
    hloop) (.pure () σ)

theorem moreArguments_same (h : SameBelow n (primary .arithmetic) (primary' .arithmetic)) :
    ∀ bound, SameBelow n (moreArguments primary bound) (moreArguments primary' bound)
  | 0 => .pure ()
  | bound + 1 => fun _ hσ => argumentRound_same (h.mono (Nat.le_of_lt hσ))
      ((moreArguments_same h bound).mono (Nat.le_of_lt hσ))

theorem arguments_same (h : SameBelow n (primary .arithmetic) (primary' .arithmetic)) :
    SameBelow n (arguments primary) (arguments primary') := by
  refine SameBelow.bind (fun σ _ => peek_same σ) fun seen => ?_
  split
  · exact .pure ()
  · exact (expression_same h).bind fun arg => (pushArgument_same _ arg).bind fun _ =>
      (tokensAhead_same n).bind (moreArguments_same h)

theorem fill_same (h : ∀ c, SameBelow n (primary c) (primary' c)) :
    ∀ form, SameBelow n (fill primary form) (fill primary' form)
  | [] => (take_sameBelow .parenRight).discard.bind fun _ => .pure _
  | .word :: form =>
    (take_sameBelow .identifier).bind fun _ => (fill_same h form).bind fun _ => .pure _
  | .keyword _ :: form => (take_sameBelow .identifier).discard.bind fun _ => fill_same h form
  | .comma :: form => (take_sameBelow .comma).discard.bind fun _ => fill_same h form
  | .expression :: form =>
    (expression_same (h .arithmetic)).bind fun _ => (fill_same h form).bind fun _ => .pure _
  | .primary accepts :: form =>
    (h accepts).bind fun _ => (fill_same h form).bind fun _ => .pure _

theorem extensionCall_same (h : ∀ c, SameBelow σ.left (primary c) (primary' c))
    (function : Extension) :
    SameAt (extensionCall primary function) (extensionCall primary' function) σ :=
  callHead_same ((fill_same h function.form).bind fun _ => .pure _)

theorem functionCall_same (h : ∀ c, SameBelow σ.left (primary c) (primary' c)) (catalog : Catalog)
    (name : Token) :
    SameAt (functionCall catalog primary name) (functionCall catalog primary' name) σ := by
  unfold functionCall
  cases Builtin.ofName? name.text with
  | some function =>
    refine (SameAt.of_ok (p := waiting) rfl (Nat.le_refl _)).bind fun start τ hok => ?_
    cases hok
    exact callHead_same ((arguments_same (h .arithmetic)).bind fun _ =>
      (take_sameBelow .parenRight).discard.bind fun _ =>
        (drain_same _ σ.scratch.size).bind fun _ => append_same _ _)
  | none =>
    cases catalog.find? name.text with
    | none => exact .fail _ σ
    | some entry =>
      refine (SameAt.of_ok (p := dispatch name) rfl (Nat.le_refl _)).bind fun _ τ hok => ?_
      have hle : τ.left ≤ σ.left := by
        cases hok
        exact Nat.le_refl _
      exact (extensionCall_same (fun c => (h c).mono hle) entry.extension).bind fun call υ _ =>
        append_same _ (·.pushExtension call) υ (Nat.lt_succ_self _)

/-- **A primary takes a token before it comes to other primaries**, so these need only be the same
where fewer are ahead. -/
theorem nestedPrimary_same (h : ∀ c, SameBelow σ.left (primary c) (primary' c)) (catalog : Catalog)
    (accepts : PrimaryClass) :
    SameAt (nestedPrimary catalog primary accepts) (nestedPrimary catalog primary' accepts) σ := by
  refine (peek_same σ).bind fun seen τ hpeek => ?_
  obtain ⟨hseen, rfl⟩ := peek_ok hpeek
  cases seen with
  | endOfText => exact .fail _ τ
  | token t =>
    have hleaf : ∀ node, SameAt (do advance; push node) (do advance; push node) τ := fun node =>
      advance_same hseen (append_same _ _)
    dsimp only
    cases t.kind with
    | parenLeft =>
      cases accepts with
      | string => exact .fail _ τ
      | arithmetic =>
        have hrest := (expression_same (h .arithmetic)).bind fun inner =>
          (take_sameBelow .parenRight).discard.bind fun _ => append_same _ (·.push (.paren inner))
        exact advance_same hseen hrest
    | integer | float =>
      cases accepts with
      | string => exact .fail _ τ
      | arithmetic => exact hleaf _
    | string | parameter | path => exact hleaf _
    | identifier =>
      refine (peekSecond_same τ).bind fun second υ hsecond => ?_
      obtain ⟨s, hs, rfl⟩ := exists_of_tracks peekSecond_tracks hsecond
      obtain ⟨-, rfl⟩ := peekSecond_ok_iff.1 hs
      split
      · exact functionCall_same h catalog t
      · cases accepts with
        | arithmetic => exact hleaf _
        | string => exact .fail _ τ
    | parenRight | comma | plus | minus | asterisk | slash => exact .fail _ τ

theorem nested_same {p q : ParserM α} (h : SameAt p q { σ with depth := σ.depth + 1 }) :
    SameAt (nested p) (nested q) σ := by
  constructor
  · simp only [nested, h.eq]
  · intro a τ hok
    simp only [nested] at hok
    cases hq : q { σ with depth := σ.depth + 1 } with
    | ok b υ =>
      rw [hq] at hok
      cases hok
      exact h.shrinks _ υ hq
    | error e υ =>
      rw [hq] at hok
      cases hok

/-- The same for a primary that is counted among the open ones. -/
theorem openedPrimary_same (h : ∀ c, SameBelow σ.left (primary c) (primary' c)) (catalog : Catalog)
    (accepts : PrimaryClass) :
    SameAt (nested (nestedPrimary catalog primary accepts))
      (nested (nestedPrimary catalog primary' accepts)) σ := by
  have hopened : ∀ c, SameBelow ({ σ with depth := σ.depth + 1 } : Parser).left (primary c)
      (primary' c) := h
  exact nested_same (nestedPrimary_same hopened catalog accepts)

theorem limitedPrimary_same (h : ∀ c, SameBelow σ.left (primary c) (primary' c))
    (catalog : Catalog) (accepts : PrimaryClass) :
    SameAt (limitedPrimary catalog primary accepts) (limitedPrimary catalog primary' accepts)
      σ := by
  refine (SameAt.of_ok (p := openPrimaries) rfl (Nat.le_refl _)).bind fun depth τ hok => ?_
  cases hok
  split
  · exact (peek_same σ).bind fun _ τ _ => .fail _ τ
  · exact openedPrimary_same h catalog accepts

end Productions

/-! ## Unrolling -/

section Unrolling

variable {primary : Primary}

/-- A level of primaries inside one another, unrolled `n` times, comes to the same as its fixed
point where there are fewer than `n` tokens ahead. What is at the bottom does not matter. -/
theorem level_iterate {level : Primary → Primary} (hfixed : level primary = primary)
    (hlevel : ∀ (σ : Parser) (bottom : Primary), (∀ c, SameBelow σ.left (bottom c) (primary c)) →
      ∀ accepts, SameAt (level bottom accepts) (level primary accepts) σ) (bottom : Primary) :
    ∀ n accepts, SameBelow n (level^[n] bottom accepts) (primary accepts)
  | 0, _ => fun _ hσ => absurd hσ (Nat.not_lt_zero _)
  | n + 1, accepts => by
    intro σ hσ
    have ih := level_iterate hfixed hlevel bottom n
    rw [Function.iterate_succ_apply']
    have hsame := hlevel σ _ (fun c => (ih c).mono (Nat.le_of_lt_succ hσ)) accepts
    rwa [hfixed] at hsame

/-- The levels of primaries within the limit on nesting. -/
theorem limitedPrimary_iterate (catalog : Catalog) (bottom : Primary) (n : Nat)
    (accepts : PrimaryClass) :
    SameBelow n ((limitedPrimary catalog)^[n] bottom accepts) (Parser.primary catalog accepts) :=
  level_iterate (funext fun accepts => (primary_eq catalog accepts).symm)
    (fun _ _ h accepts => limitedPrimary_same h catalog accepts) bottom n accepts

/-- The levels of primaries without a limit. -/
theorem unlimited_iterate (catalog : Catalog) (bottom : Primary) (n : Nat)
    (accepts : PrimaryClass) :
    SameBelow n
      ((fun primary accepts => nested (nestedPrimary catalog primary accepts))^[n] bottom accepts)
      (unlimited catalog accepts) :=
  level_iterate (funext fun accepts => (unlimited_eq catalog accepts).symm)
    (fun _ _ h accepts => openedPrimary_same h catalog accepts) bottom n accepts

/-- Extends a left operand by all operators that bind at least as tightly as `least`. -/
def chain (primary : Primary) (least : Nat) (left : NodeId) : ParserM NodeId := do
  operators primary (← tokensAhead) least left

/-- The loop over operators, unrolled often enough, is the loop within any bound that suffices. -/
theorem operatorRound_iterate (h : ∀ n, SameBelow n (primary .arithmetic) (primary .arithmetic))
    (bottom : Nat → NodeId → ParserM NodeId) {n bound : Nat} {σ : Parser} (hn : σ.left < n)
    (hbound : σ.left ≤ bound) (least : Nat) (left : NodeId) :
    SameAt ((operatorRound primary)^[n] bottom least left) (operators primary bound least left)
      σ := by
  induction n generalizing bound σ least left with
  | zero => exact absurd hn (Nat.not_lt_zero _)
  | succ n ih =>
    rw [Function.iterate_succ_apply']
    cases bound with
    | zero => exact operators_of_left_zero (Nat.le_zero.1 hbound) _ 0 least left
    | succ bound =>
      rw [operators_succ]
      exact operatorRound_same (h _)
        (fun least left τ hτ => ih (by omega) (by omega) least left) least left

/-- The arguments after the first one, each after a comma, however many there are. -/
def furtherArguments (primary : Primary) : ParserM Unit := do
  moreArguments primary (← tokensAhead)

/-- The loop over arguments, unrolled often enough. -/
theorem argumentRound_iterate (h : ∀ n, SameBelow n (primary .arithmetic) (primary .arithmetic))
    (bottom : ParserM Unit) {n bound : Nat} {σ : Parser} (hn : σ.left < n)
    (hbound : σ.left ≤ bound) :
    SameAt ((argumentRound primary)^[n] bottom) (moreArguments primary bound) σ := by
  induction n generalizing bound σ with
  | zero => exact absurd hn (Nat.not_lt_zero _)
  | succ n ih =>
    rw [Function.iterate_succ_apply']
    cases bound with
    | zero =>
      -- with no token ahead there is no comma
      have hnil : σ.progress.lexemes = [] := List.length_eq_zero_iff.1 (Nat.le_zero.1 hbound)
      have hcomma : ¬ NextIs .comma σ.progress.lexemes := by simp [NextIs, hnil]
      have hround : argumentRound primary ((argumentRound primary)^[n] bottom) σ = .ok () σ := by
        have hok : takeIf .comma σ = .ok false σ :=
          (takeIf_passes .comma σ σ σ.progress).of_ok (takeIf_of_not_next hcomma)
        simp only [argumentRound, bind, EStateM.bind, hok]
        rfl
      exact ⟨hround, (SameAt.pure () σ).shrinks⟩
    | succ bound => exact argumentRound_same (h _) fun τ hτ => ih (by omega) (by omega)

end Unrolling

end Dql.Parser
