import Dql.Proofs.Loops
import Dql.Proofs.Replays

/-!
# How far parsers look

Parsers take tokens one by one and decide by the next token alone; only after a name they look at
the token after it too. So each parser replays what it did on all texts that look the same, also
when it has more room.

* `callBody`, `Known` - calls after their head, which is taken at once;
* `nestedPrimary_of_identifier` - what a name and the token after it decide.

Principal results: `primary_replays`, by induction on the room, and `expression_primary_replays`.
-/

namespace Dql

variable {α : Type} {s : Progress}

section Parsers

variable {primary primary' : PrimaryParser}

/-! ## Operators -/

theorem factor_replays
    (hp : ∀ s, Replays (primary .arithmetic) (primary' .arithmetic) s) (s : Progress) :
    Replays (factor primary) (factor primary') s := by
  refine (Replays.peek s).bind fun seen s₁ hpeek => ?_
  obtain ⟨hseen, rfl⟩ := peek_ok_iff.1 hpeek
  cases hsign : seen.kind?.bind TokenKind.sign? with
  | none => exact hp s
  | some sign =>
    cases seen with
    | endOfText => cases hsign
    | token t =>
      exact (Replays.advance hseen).bind fun _ s₁ _ => (hp s₁).bind fun _ s₂ _ => .pure _ s₂

theorem operatorRound_replays
    (hp : ∀ s, Replays (primary .arithmetic) (primary' .arithmetic) s)
    (hfactor : Shrinks (factor primary)) {loop loop' : Nat → Expr → Parse Expr} {s : Progress}
    (hshrinks : ∀ least left, Shrinks (loop least left))
    (h : ∀ s' least left, s'.lexemes.length < s.lexemes.length →
      Replays (loop least left) (loop' least left) s') (least : Nat) (left : Expr) :
    Replays (operatorRound primary loop least left) (operatorRound primary' loop' least left)
      s := by
  refine ((Replays.peek s).holding left).bind fun seen s₁ hpeek => ?_
  obtain ⟨hseen, rfl⟩ := peek_ok_iff.1 (holding_ok_iff.1 hpeek)
  cases hop : seen.kind?.bind TokenKind.operator? with
  | none => exact .pure left s
  | some op =>
    simp only
    split
    · exact .pure left s
    · cases seen with
      | endOfText => cases hop
      | token t =>
        have hlen : s.lexemes.length = s.tail.lexemes.length + 1 := by
          rw [Progress.lexemes_of_lookahead hseen, List.length_cons]
        refine (Replays.advance hseen).bind fun _ s₁ hadv => ?_
        obtain rfl := advance_ok_iff.1 hadv
        refine ((factor_replays hp _).holding left).bind fun operand s₂ hoperand => ?_
        have hlen₂ := hfactor _ _ _ (holding_ok_iff.1 hoperand)
        refine ((h s₂ _ operand (by omega)).holding left).bind fun right s₃ hright => ?_
        have hlen₃ := hshrinks _ _ _ _ _ (holding_ok_iff.1 hright)
        exact h s₃ least _ (by omega)

theorem chain_replays (hp : ∀ s, Replays (primary .arithmetic) (primary' .arithmetic) s)
    (hfactor : Shrinks (factor primary)) (hfactor' : Shrinks (factor primary')) {n : Nat}
    {s : Progress} (hs : s.lexemes.length ≤ n) (least : Nat) (left : Expr) :
    Replays (chain primary least left) (chain primary' least left) s := by
  rw [chain_eq hfactor, chain_eq hfactor']
  induction n generalizing s least left with
  | zero =>
    exact operatorRound_replays hp hfactor (chain_shrinks hfactor)
      (fun s' _ _ hlt => absurd hlt (by omega)) least left
  | succ n ih =>
    refine operatorRound_replays hp hfactor (chain_shrinks hfactor)
      (fun s' least left hlt => ?_) least left
    rw [chain_eq hfactor, chain_eq hfactor']
    exact ih (by omega) least left

theorem expression_replays (hp : ∀ s, Replays (primary .arithmetic) (primary' .arithmetic) s)
    (hfactor : Shrinks (factor primary)) (hfactor' : Shrinks (factor primary')) (s : Progress) :
    Replays (expression primary) (expression primary') s := by
  rw [expression_eq, expression_eq]
  exact (factor_replays hp s).bind fun operand s₁ _ =>
    chain_replays hp hfactor hfactor' (Nat.le_refl _) 0 operand

/-! ## Calls -/

theorem furtherArguments_replays
    (hexpr : ∀ s, Replays (expression primary) (expression primary') s)
    (hshrinks : Shrinks (expression primary)) (hshrinks' : Shrinks (expression primary')) {n : Nat}
    {s : Progress} (hs : s.lexemes.length ≤ n) :
    Replays (furtherArguments primary) (furtherArguments primary') s := by
  rw [furtherArguments_eq hshrinks, furtherArguments_eq hshrinks']
  refine (Replays.takeIf .comma s).bind fun comma s₁ hcomma => ?_
  by_cases hnext : NextIs .comma s.lexemes
  · rw [takeIf_of_next hnext] at hcomma
    cases hcomma
    obtain ⟨l, hls, -⟩ := Progress.exists_next hnext
    have hlen : s.lexemes.length = s.tail.lexemes.length + 1 := by rw [hls, List.length_cons]
    rw [if_pos rfl, if_pos rfl]
    refine (hexpr _).bind fun arg s₂ harg => ?_
    have hlen₂ := hshrinks _ _ _ harg
    cases n with
    | zero => omega
    | succ n =>
      have hmore := furtherArguments_replays hexpr hshrinks hshrinks' (n := n) (s := s₂) (by omega)
      exact (hmore.holding (.argument arg)).bind fun _ s₃ _ => .pure _ s₃
  · rw [takeIf_of_not_next hnext] at hcomma
    cases hcomma
    exact .pure [] s

theorem arguments_replays (hexpr : ∀ s, Replays (expression primary) (expression primary') s)
    (hshrinks : Shrinks (expression primary)) (hshrinks' : Shrinks (expression primary'))
    (s : Progress) : Replays (arguments primary) (arguments primary') s := by
  rw [arguments_eq, arguments_eq]
  refine (Replays.peek s).bind fun seen s₁ _ => ?_
  split
  · exact .pure [] s₁
  · refine (hexpr s₁).bind fun arg s₂ _ => ?_
    have hmore := furtherArguments_replays (s := s₂) hexpr hshrinks hshrinks' (Nat.le_refl _)
    exact (hmore.holding (.argument arg)).bind fun _ s₃ _ => .pure _ s₃

theorem callHead_replays (s : Progress) : Replays callHead callHead s :=
  (Replays.discard_take .identifier s).bind fun _ s₁ _ => .discard_take .parenLeft s₁

theorem fill_replays (hp : ∀ c s, Replays (primary c) (primary' c) s)
    (hexpr : ∀ s, Replays (expression primary) (expression primary') s) :
    ∀ (pieces : List Piece) (s : Progress), Replays (fill primary pieces) (fill primary' pieces) s
  | [], s => (Replays.discard_take .parenRight s).bind fun _ s₁ _ => .pure _ s₁
  | .word :: pieces, s =>
    (Replays.take .identifier s).bind fun _ s₁ _ =>
      (fill_replays hp hexpr pieces s₁).bind fun _ s₂ _ => .pure _ s₂
  | .keyword _ :: pieces, s =>
    (Replays.discard_take .identifier s).bind fun _ s₁ _ => fill_replays hp hexpr pieces s₁
  | .comma :: pieces, s =>
    (Replays.discard_take .comma s).bind fun _ s₁ _ => fill_replays hp hexpr pieces s₁
  | .expression :: pieces, s =>
    (hexpr s).bind fun slot s₁ _ =>
      ((fill_replays hp hexpr pieces s₁).holding slot).bind fun _ s₂ _ => .pure _ s₂
  | .primary accepts :: pieces, s =>
    (hp accepts s).bind fun slot s₁ _ =>
      ((fill_replays hp hexpr pieces s₁).holding slot).bind fun _ s₂ _ => .pure _ s₂

end Parsers

/-! ## Primaries -/

section Primaries

variable {catalog : Catalog} {primary primary' : PrimaryParser} {accepts : PrimaryClass}

/-- What is between the parentheses of a call, whose name is known, and the closing one. -/
def callBody (catalog : Catalog) (primary : PrimaryParser) (name : Token) : Parse Expr :=
  match Builtin.ofName? name.text with
  | some function => do
    let args ← arguments primary
    discard <| holdingAll args (take .parenRight)
    return .call function args
  | none =>
    match catalog.find? name.text with
    | some entry => do
      dispatch name
      let (words, slots) ← fill primary entry.extension.form
      return .extension entry.extension words slots
    | none => Parse.fail (mismatch .knownFunction (.token name))

/-- Whether a function can be called by this name. -/
def Known (catalog : Catalog) (name : String) : Prop :=
  (Builtin.ofName? name).isSome ∨ (catalog.find? name).isSome

/-- The head of a call, if it comes next. -/
theorem callHead_of_lookahead {t u : Token} (ht : s.stream.lookahead = .ok (.token t))
    (hname : t.kind = .identifier) (hu : s.tail.stream.lookahead = .ok (.token u))
    (hleft : u.kind = .parenLeft) : callHead s = .ok () s.tail.tail := by
  have hfirst : (discard (take .identifier) : Parse Unit) s = .ok () s.tail :=
    Parse.discard_ok_iff.2 ⟨t, take_ok_iff.2 ⟨ht, hname, rfl⟩⟩
  have hsecond : (discard (take .parenLeft) : Parse Unit) s.tail = .ok () s.tail.tail :=
    Parse.discard_ok_iff.2 ⟨u, take_ok_iff.2 ⟨hu, hleft, rfl⟩⟩
  rw [callHead, Parse.bind_of_ok hfirst, hsecond]

/-- The two tokens of its head are taken before anything else of a call. -/
theorem functionCall_of_known {t u : Token} (ht : s.stream.lookahead = .ok (.token t))
    (hname : t.kind = .identifier) (hu : s.tail.stream.lookahead = .ok (.token u))
    (hleft : u.kind = .parenLeft) (hknown : Known catalog t.text) :
    functionCall catalog primary t s = callBody catalog primary t s.tail.tail := by
  have hhead := callHead_of_lookahead ht hname hu hleft
  unfold functionCall callBody
  cases hb : Builtin.ofName? t.text with
  | some function => exact Parse.bind_of_ok hhead _
  | none =>
    cases hf : catalog.find? t.text with
    | none => simp [Known, hb, hf] at hknown
    | some entry =>
      have hhead' := callHead_of_lookahead (s := { s with
        dispatched := s.dispatched ++ [.dispatching t.text t.start] }) ht hname hu hleft
      simp only [extensionCall]
      rw [Parse.bind_of_ok (dispatch_eq t)]
      simp only [Bind.bind, EStateM.bind, hhead']
      rfl

/-- A name is taken as a call or as an entity, depending on what comes after it. -/
theorem nestedPrimary_of_identifier (catalog : Catalog) (primary : PrimaryParser)
    (accepts : PrimaryClass) {t : Token} {second : Ahead}
    (ht : s.stream.lookahead = .ok (.token t)) (hname : t.kind = .identifier)
    (hsecond : s.tail.stream.lookahead = .ok second) :
    nestedPrimary catalog primary accepts s =
      if second.kind? = some .parenLeft then functionCall catalog primary t s
      else match accepts with
        | .arithmetic => .ok (.path t.text none) s.tail
        | .string => .error { error := mismatch (.primary .string) (.token t) } s := by
  rw [nestedPrimary, Parse.bind_of_ok (peek_ok_iff.2 ⟨ht, rfl⟩)]
  simp only [hname]
  rw [Parse.bind_of_ok (peekSecond_ok_iff.2 ⟨hsecond, rfl⟩)]
  split
  · rfl
  · cases accepts <;> rfl

theorem callBody_replays (hp : ∀ c s, Replays (primary c) (primary' c) s)
    (hexpr : ∀ s, Replays (expression primary) (expression primary') s)
    (hshrinks : Shrinks (expression primary)) (hshrinks' : Shrinks (expression primary'))
    {name : Token} (hknown : Known catalog name.text) (s : Progress) :
    Replays (callBody catalog primary name) (callBody catalog primary' name) s := by
  unfold callBody
  cases hb : Builtin.ofName? name.text with
  | some function =>
    exact (arguments_replays hexpr hshrinks hshrinks' s).bind fun args s₁ _ =>
      ((Replays.take .parenRight s₁).holdingAll args).discard.bind fun _ s₂ _ => .pure _ s₂
  | none =>
    cases hf : catalog.find? name.text with
    | some entry =>
      exact (Replays.dispatch name s).bind fun _ s₁ _ =>
        (fill_replays hp hexpr _ s₁).bind fun _ s₂ _ => .pure _ s₂
    | none => simp [Known, hb, hf] at hknown

/-- A parser that starts by taking two tokens, if it replays what comes after them. -/
theorem Replays.of_two {p p' q q' : Parse α} {t u : Token}
    (ht : s.stream.lookahead = .ok (.token t)) (hu : s.tail.stream.lookahead = .ok (.token u))
    (hp : p s = q s.tail.tail)
    (hp' : ∀ s' : Progress, s'.stream.lookahead = .ok (.token t) →
      s'.tail.stream.lookahead = .ok (.token u) → p' s' = q' s'.tail.tail)
    (hq : Replays q q' s.tail.tail) : Replays p p' s := by
  have hs : s.Takes [t, u] s.tail.tail := (Progress.Takes.one ht).trans (.one hu)
  have htail : ∀ {s' : Progress} {l : TokenList}, s'.list = l.prepend [t, u] →
      p' s' = q' s'.tail.tail ∧ s'.tail.tail.list = l := by
    intro s' l hs'
    have hs₁' : s'.tail.list = l.prepend [u] := by
      rw [Progress.list_tail, hs']
      rfl
    refine ⟨hp' s' ?_ ?_, ?_⟩
    · rw [← Progress.lookahead_list, hs']
      rfl
    · rw [← Progress.lookahead_list, hs₁']
      rfl
    · rw [Progress.list_tail, hs₁']
      rfl
  unfold Replays at hq ⊢
  rw [hp]
  cases hqs : q s.tail.tail with
  | ok a s₁ =>
    rw [hqs] at hq
    obtain ⟨taken, htakes, hreplay⟩ := hq
    refine ⟨[t, u] ++ taken, hs.trans htakes, ?_⟩
    intro rest s' hrest hs'
    rw [← TokenList.prepend_prepend] at hs'
    obtain ⟨hp', hs₂'⟩ := htail hs'
    rw [hp']
    exact hreplay rest _ hrest hs₂'
  | error g s₁ =>
    rw [hqs] at hq
    obtain ⟨taken, htakes, hstops, hreplay⟩ := hq
    refine ⟨[t, u] ++ taken, hs.trans htakes, hstops, ?_⟩
    intro rest s' hrest hbeyond hs' hmismatch
    rw [← TokenList.prepend_prepend] at hs'
    obtain ⟨hp', hs₂'⟩ := htail hs'
    rw [hp']
    exact hreplay rest _ hrest hbeyond hs₂' hmismatch

/-- A name decides by the token after it, which is taken with the name or is what the name is seen
to be followed by. -/
theorem identifier_replays (hp : ∀ c s, Replays (primary c) (primary' c) s)
    (hexpr : ∀ s, Replays (expression primary) (expression primary') s)
    (hshrinks : Shrinks (expression primary)) (hshrinks' : Shrinks (expression primary'))
    {t : Token} (ht : s.stream.lookahead = .ok (.token t)) (hname : t.kind = .identifier) :
    Replays (nestedPrimary catalog primary accepts) (nestedPrimary catalog primary' accepts) s := by
  cases hsecond : s.tail.stream.lookahead with
  | error cause =>
    have hstops : (ParseError.lexical cause).StopsAt s.list :=
      .inr ⟨t, ht, hname, by rw [← Progress.list_tail]; exact hsecond⟩
    refine .fail_lexical hstops ?_
    rw [nestedPrimary, Parse.bind_of_ok (peek_ok_iff.2 ⟨ht, rfl⟩)]
    simp only [hname]
    exact Parse.bind_of_error (peekSecond_eq_error hsecond) _
  | ok second =>
    have hp₁ := nestedPrimary_of_identifier catalog primary accepts ht hname hsecond
    -- a place whose first two tokens look the same
    have hagain : ∀ s' : Progress, s'.list.lookahead = s.list.lookahead →
        s'.list.tail.lookahead = s.list.tail.lookahead →
        s'.stream.lookahead = .ok (.token t) ∧ s'.tail.stream.lookahead = .ok second := by
      intro s' h₁ h₂
      rw [← Progress.list_tail, ← Progress.list_tail] at h₂
      exact ⟨h₁.trans ht, h₂.trans hsecond⟩
    by_cases hcall : second.kind? = some .parenLeft
    · rw [if_pos hcall] at hp₁
      by_cases hknown : Known catalog t.text
      · cases second with
        | endOfText => cases hcall
        | token u =>
          have hleft : u.kind = .parenLeft := Option.some.inj hcall
          refine .of_two ht hsecond ?_ ?_
            (callBody_replays hp hexpr hshrinks hshrinks' hknown s.tail.tail)
          · rw [hp₁, functionCall_of_known ht hname hsecond hleft hknown]
          · intro s' ht' hu'
            rw [nestedPrimary_of_identifier _ _ _ ht' hname hu', if_pos hcall,
              functionCall_of_known ht' hname hu' hleft hknown]
      · have hunknown : ∀ (primary : PrimaryParser) (s : Progress),
            functionCall catalog primary t s =
              .error { error := mismatch .knownFunction (.token t) } s := by
          intro primary s
          obtain ⟨hb, hf⟩ := not_or.1 hknown
          simp only [Bool.not_eq_true, Option.isSome_eq_false_iff,
            Option.isNone_iff_eq_none] at hb hf
          simp only [functionCall, hb, hf]
          rfl
        have hstops : (mismatch .knownFunction (.token t)).StopsAt s.list :=
          ⟨⟨_, ht, rfl⟩, fun _ => ⟨second, by rw [← Progress.list_tail]; exact hsecond⟩⟩
        refine .fail hstops (by rw [hp₁, hunknown]) fun s' hs' hbeyond _ => ?_
        obtain ⟨ht', hsecond'⟩ := hagain s' hs' (hbeyond (.inl rfl))
        rw [nestedPrimary_of_identifier _ _ _ ht' hname hsecond', if_pos hcall, hunknown]
    · rw [if_neg hcall] at hp₁
      cases accepts with
      | arithmetic =>
        refine .of_ok hp₁ [t] (.one ht) fun rest s' hrest hs' => ?_
        have hs₁' : s'.tail.list = rest := by
          rw [Progress.list_tail, hs']
          rfl
        have ht' : s'.stream.lookahead = .ok (.token t) := by
          rw [← Progress.lookahead_list, hs']
          rfl
        have hsecond' : s'.tail.stream.lookahead = .ok second := by
          rw [← Progress.lookahead_list, hs₁', hrest]
          exact hsecond
        refine ⟨s'.tail, ?_, hs₁'⟩
        rw [nestedPrimary_of_identifier _ _ _ ht' hname hsecond', if_neg hcall]
      | string =>
        have hstops : (mismatch (.primary .string) (.token t)).StopsAt s.list :=
          ⟨⟨_, ht, rfl⟩, fun _ => ⟨second, by rw [← Progress.list_tail]; exact hsecond⟩⟩
        refine .fail hstops hp₁ fun s' hs' hbeyond _ => ?_
        obtain ⟨ht', hsecond'⟩ := hagain s' hs' (hbeyond (.inr ⟨rfl, t, ht, hname⟩))
        rw [nestedPrimary_of_identifier _ _ _ ht' hname hsecond', if_neg hcall]

theorem nestedPrimary_replays (hp : ∀ c s, Replays (primary c) (primary' c) s)
    (hexpr : ∀ s, Replays (expression primary) (expression primary') s)
    (hshrinks : Shrinks (expression primary)) (hshrinks' : Shrinks (expression primary'))
    (s : Progress) :
    Replays (nestedPrimary catalog primary accepts) (nestedPrimary catalog primary' accepts) s := by
  by_cases hident : ∃ t, s.stream.lookahead = .ok (.token t) ∧ t.kind = .identifier
  · obtain ⟨t, ht, hname⟩ := hident
    exact identifier_replays hp hexpr hshrinks hshrinks' ht hname
  · refine (Replays.peek s).bind fun seen s₁ hpeek => ?_
    obtain ⟨hseen, rfl⟩ := peek_ok_iff.1 hpeek
    have hnear : ¬ (mismatch (.primary accepts) seen).LooksBeyond s.list := by
      rintro (h | ⟨-, h⟩)
      · cases h
      · exact hident h
    cases seen with
    | endOfText => exact .fail_mismatch hseen hnear
    | token t =>
      have hleaf : ∀ e : Expr, Replays (do advance; return e) (do advance; return e) s := fun e =>
        (Replays.advance hseen).bind fun _ s₁ _ => .pure e s₁
      cases hk : t.kind with
      | parenLeft =>
        cases accepts with
        | string => simpa only [hk] using Replays.fail_mismatch hseen hnear
        | arithmetic =>
          simp only [hk]
          exact (Replays.advance hseen).bind fun _ s₁ _ => (hexpr s₁).bind fun inner s₂ _ =>
            ((Replays.take .parenRight s₂).holding inner).discard.bind fun _ s₃ _ => .pure _ s₃
      | integer | float =>
        cases accepts with
        | string => simpa only [hk] using Replays.fail_mismatch hseen hnear
        | arithmetic => simpa only [hk] using hleaf _
      | string | parameter | path => simpa only [hk] using hleaf _
      | identifier => exact absurd ⟨t, hseen, hk⟩ hident
      | parenRight | comma | plus | minus | asterisk | slash =>
        simpa only [hk] using Replays.fail_mismatch hseen hnear

end Primaries

variable {catalog : Catalog}

/-- **Whatever is done about a primary is done again** on all texts that look the same, and also if
there is more room. -/
theorem primary_replays : ∀ {room room' : Nat} (_h : room ≤ room') (accepts : PrimaryClass)
    (s : Progress), Replays (primary catalog room accepts) (primary catalog room' accepts) s
  | 0, room', _, accepts, s => by
    cases hseen : s.stream.lookahead with
    | ok seen =>
      have hstops : (ParseError.tooDeep seen.position).StopsAt s.list := ⟨seen, hseen, rfl⟩
      refine .fail hstops ?_ fun s' _ _ hmismatch => hmismatch.elim
      rw [primary, Parse.bind_of_ok (peek_ok_iff.2 ⟨hseen, rfl⟩)]
      rfl
    | error cause =>
      exact .fail_lexical (.inl hseen) (Parse.bind_of_error (peek_eq_error hseen) _)
  | room + 1, 0, h, _, _ => absurd h (Nat.not_succ_le_zero room)
  | room + 1, room' + 1, h, accepts, s => by
    have ih := fun c s => primary_replays (Nat.le_of_succ_le_succ h) c s
    have hexpr : ∀ s, Replays (expression (primary catalog room))
        (expression (primary catalog room')) s :=
      expression_replays (ih .arithmetic) (factor_shrinks catalog room)
        (factor_shrinks catalog room')
    exact nestedPrimary_replays ih hexpr (expression_shrinks catalog room)
      (expression_shrinks catalog room') s

theorem expression_primary_replays {room room' : Nat} (h : room ≤ room') (s : Progress) :
    Replays (expression (primary catalog room)) (expression (primary catalog room')) s :=
  expression_replays (primary_replays h .arithmetic) (factor_shrinks catalog room)
    (factor_shrinks catalog room') s

theorem fill_primary_replays {room room' : Nat} (h : room ≤ room') (pieces : List Piece)
    (s : Progress) :
    Replays (fill (primary catalog room) pieces) (fill (primary catalog room') pieces) s :=
  fill_replays (primary_replays h) (expression_primary_replays h) pieces s

theorem wholeWithin_replays {room room' : Nat} (h : room ≤ room') (s : Progress) :
    Replays (wholeWith (primary catalog room)) (wholeWith (primary catalog room')) s :=
  (expression_primary_replays h s).bind fun e s₁ _ =>
    ((Replays.expectEnd s₁).holding e).bind fun _ s₂ _ => .pure e s₂

end Dql
