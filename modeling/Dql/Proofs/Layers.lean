import Dql.Proofs.ParserLoops

/-!
# Precedence climbing is a loop inside a loop

Operators are joined by one loop that calls itself with the binding power of each operator. It does
the same as the loops that the grammar suggests: one for sums, which joins terms as long as `+` or
`-` comes next, and inside it one for terms, which joins factors as long as `*` or `/` comes next.

* `Parser.layerLoop`, `Parser.layer`, `Parser.layeredTerm`, `Parser.layeredSum` - the loops of the
  two layers; `layerLoop`, `layer`, `layeredTerm`, `layeredSum` - the same to trees;
* `Parser.GoesRound` - the rounds of a layer go on as long as one of its operators comes next;
* `Parse.outcome` - what a parser to trees comes to, without the fragments that a failure leaves
  behind;
* `chain_stop`, `chain_step`, `layerRest_stop`, `layerRest_step` - one round of either loop;
* `Parser.SameRun` - two runs that differ at most in what a failure leaves behind.

Principal results: `outcome_chain_factors` and `outcome_chain_terms` - the loop over operators is
one layer or both - and `climbing_is_layered`.
-/

namespace Dql

variable {α β : Type} {s : Progress}

/-! ## Layers -/

/-- The operators that join terms. -/
def additive? : TokenKind → Option BinaryOp
  | .plus => some .add
  | .minus => some .sub
  | _ => none

/-- The operators that join factors. -/
def multiplicative? : TokenKind → Option BinaryOp
  | .asterisk => some .mul
  | .slash => some .div
  | _ => none

namespace Parser

/-- A primary with at most one sign before it. -/
def layeredFactor (primary : Primary) : ParserM NodeId := do
  match (← peek).kind? with
  | some .plus =>
    advance
    push (.signed .plus (← primary .arithmetic))
  | some .minus =>
    advance
    push (.signed .minus (← primary .arithmetic))
  | _ => primary .arithmetic

/-- Extends a left operand as long as an operator of one layer comes next, each time by that
operator and the operand after it, for at most so many rounds. -/
def layerLoop (operand : ParserM NodeId) (join : TokenKind → Option BinaryOp) :
    (rounds : Nat) → NodeId → ParserM NodeId
  | 0, left => return left
  | rounds + 1, left => do
    match (← peek).kind?.bind join with
    | some op =>
      advance
      let right ← operand
      layerLoop operand join rounds (← push (.binary left op right))
    | none => return left

/-- The same for as many rounds as there can be: one for each token ahead, and a last one that finds
no operator. By `layerRest_goesRound` there is no end to the rounds but that. -/
def layerRest (operand : ParserM NodeId) (join : TokenKind → Option BinaryOp) (left : NodeId) :
    ParserM NodeId := do
  layerLoop operand join ((← tokensAhead) + 1) left

/-- Operands joined by the operators of one layer, to the left. -/
def layer (operand : ParserM NodeId) (join : TokenKind → Option BinaryOp) : ParserM NodeId := do
  layerRest operand join (← operand)

/-- Factors joined by `*` and `/`. -/
def layeredTerm (primary : Primary) : ParserM NodeId :=
  layer (layeredFactor primary) multiplicative?

/-- Terms joined by `+` and `-`. -/
def layeredSum (primary : Primary) : ParserM NodeId := layer (layeredTerm primary) additive?

/-- A factor of a layer is a factor. -/
theorem layeredFactor_eq (primary : Primary) : layeredFactor primary = factor primary := by
  unfold layeredFactor factor
  congr 1
  funext seen
  cases seen.kind? with
  | none => rfl
  | some kind => cases kind <;> rfl

/-! ### The loop of a layer -/

section Rounds

variable {operand : ParserM NodeId} {σ : Parser}

/-- One round of the loop of a layer, the rounds after it being `loop`. -/
def layerRound (operand : ParserM NodeId) (join : TokenKind → Option BinaryOp)
    (loop : NodeId → ParserM NodeId) (left : NodeId) : ParserM NodeId := do
  match (← peek).kind?.bind join with
  | some op =>
    advance
    let right ← operand
    loop (← push (.binary left op right))
  | none => return left

theorem layerLoop_succ (operand : ParserM NodeId) (join : TokenKind → Option BinaryOp)
    (rounds : Nat) (left : NodeId) :
    layerLoop operand join (rounds + 1) left =
      layerRound operand join (layerLoop operand join rounds) left := rfl

theorem layerRest_apply (operand : ParserM NodeId) (join : TokenKind → Option BinaryOp)
    (left : NodeId) (σ : Parser) :
    layerRest operand join left σ = layerLoop operand join (σ.left + 1) left σ := by
  rw [Parser.left, Progress.lexemes, List.length_map]
  rfl

/-- The rounds after one need only be the same where fewer tokens are ahead. -/
theorem layerRound_same {loop loop' : NodeId → ParserM NodeId}
    (hoperand : SameBelow σ.left operand operand)
    (hloop : ∀ left, SameBelow σ.left (loop left) (loop' left))
    (join : TokenKind → Option BinaryOp) (left : NodeId) :
    SameAt (layerRound operand join loop left) (layerRound operand join loop' left) σ := by
  refine (peek_same σ).bind fun seen τ hpeek => ?_
  obtain ⟨hseen, rfl⟩ := peek_ok hpeek
  cases hop : seen.kind?.bind join with
  | none => exact .pure left τ
  | some op =>
    cases seen with
    | endOfText => cases hop
    | token t =>
      have hrest := hoperand.bind fun right =>
        (append_same _ (·.push (.binary left op right))).bind hloop
      exact advance_same hseen hrest

/-- Every operator is a token, so more rounds than there are tokens decide nothing. -/
theorem layerLoop_same (hoperand : ∀ n, SameBelow n operand operand)
    (join : TokenKind → Option BinaryOp) {rounds rounds' : Nat} {σ : Parser}
    (h : σ.left < rounds) (h' : σ.left < rounds') (left : NodeId) :
    SameAt (layerLoop operand join rounds left) (layerLoop operand join rounds' left) σ := by
  induction rounds generalizing rounds' σ left with
  | zero => exact absurd h (Nat.not_lt_zero _)
  | succ rounds ih =>
    obtain ⟨rounds', rfl⟩ := Nat.exists_eq_succ_of_ne_zero (Nat.ne_zero_of_lt h')
    rw [layerLoop_succ, layerLoop_succ]
    exact layerRound_same (hoperand _)
      (fun left τ hτ => ih (by omega) (by omega) left) join left

/-- The rounds of a layer go on as long as one of its operators comes next. -/
def GoesRound (operand : ParserM NodeId) (join : TokenKind → Option BinaryOp) : Prop :=
  ∀ left, layerRest operand join left = layerRound operand join (layerRest operand join) left

theorem layerRest_goesRound (hoperand : ∀ n, SameBelow n operand operand)
    (join : TokenKind → Option BinaryOp) : GoesRound operand join := by
  intro left
  funext σ
  have hloop : ∀ left, SameBelow σ.left (layerLoop operand join σ.left left)
      (layerRest operand join left) := by
    intro left τ hτ
    have hsame := layerLoop_same hoperand join hτ (Nat.lt_succ_self τ.left) left
    have hrest := layerRest_apply operand join left τ
    exact ⟨hsame.eq.trans hrest.symm, fun id υ h => hsame.shrinks id υ (hrest ▸ h)⟩
  rw [layerRest_apply, layerLoop_succ]
  exact (layerRound_same (hoperand _) hloop join left).eq

theorem layer_same (hoperand : ∀ n, SameBelow n operand operand)
    (join : TokenKind → Option BinaryOp) (n : Nat) :
    SameBelow n (layer operand join) (layer operand join) := by
  refine (hoperand n).bind fun left σ _ => ⟨rfl, fun id τ h => ?_⟩
  rw [layerRest_apply] at h
  have hlt := Nat.lt_succ_self σ.left
  exact (layerLoop_same hoperand join hlt hlt left).shrinks id τ h

theorem layeredFactor_same (catalog : Catalog) (n : Nat) :
    SameBelow n (layeredFactor (primary catalog)) (layeredFactor (primary catalog)) := by
  rw [layeredFactor_eq]
  exact factor_same fun σ hσ =>
    ⟨rfl, (limitedPrimary_iterate catalog (primary catalog) n .arithmetic σ hσ).shrinks⟩

end Rounds

end Parser

/-! ### Layers to trees -/

/-- Extends a left operand by the operators of one layer, for at most so many rounds. -/
def layerLoop (operand : Parse Expr) (join : TokenKind → Option BinaryOp) :
    (rounds : Nat) → Expr → Parse Expr
  | 0, left => return left
  | rounds + 1, left => do
    match (← holding left peek).kind?.bind join with
    | some op =>
      advance
      let right ← holding left operand
      layerLoop operand join rounds (.binary left op right)
    | none => return left

/-- The same for as many rounds as there can be. -/
def layerRest (operand : Parse Expr) (join : TokenKind → Option BinaryOp) (left : Expr) :
    Parse Expr := do
  layerLoop operand join ((← tokensAhead) + 1) left

/-- Operands joined by the operators of one layer, to the left. -/
def layer (operand : Parse Expr) (join : TokenKind → Option BinaryOp) : Parse Expr := do
  layerRest operand join (← operand)

/-- Factors joined by `*` and `/`. -/
def layeredTerm (primary : PrimaryParser) : Parse Expr := layer (factor primary) multiplicative?

/-- Terms joined by `+` and `-`. -/
def layeredSum (primary : PrimaryParser) : Parse Expr := layer (layeredTerm primary) additive?

section Stores

variable {operand : Parse Expr} {operand' : ParserM NodeId} {d : Nat}

/-- The loop of a layer, with its left operand in the table. -/
theorem layerLoop_stores (h : ∀ τ : Parser, τ.depth = d → Stores operand operand' τ)
    (join : TokenKind → Option BinaryOp) (rounds : Nat) (left : Expr) (σ : Parser)
    (hσ : σ.depth = d) (s : Progress) :
    RefinesFrom σ σ.storing (layerLoop operand join rounds left)
      (Parser.layerLoop operand' join rounds (σ.storing left).1)
      ((σ.storing left).2.movedTo s) := by
  induction rounds generalizing left σ s with
  | zero => exact .pure rfl rfl
  | succ rounds ih =>
    rw [layerLoop, Parser.layerLoop]
    refine (RefinesFrom.holdingExpr (peek_tracks (σ.storing left).2 s)).bind fun seen s₁ _ => ?_
    dsimp only
    cases seen.kind?.bind join with
    | none => exact .pure rfl rfl
    | some op =>
      refine (advance_passes σ (σ.storing left).2 s₁).bind fun _ s₂ _ => ?_
      have hoperand : Stores operand operand' ((σ.storing left).2.movedTo s₂) := h _ hσ
      refine (RefinesFrom.holdingExpr hoperand).bind fun right s₃ _ => ?_
      exact ih (.binary left op right) σ hσ s₃

theorem layer_stores (h : ∀ τ : Parser, τ.depth = d → Stores operand operand' τ)
    (join : TokenKind → Option BinaryOp) (σ : Parser) (hσ : σ.depth = d) :
    Stores (layer operand join) (Parser.layer operand' join) σ :=
  (h σ hσ).bind fun left s _ => (tokensAhead_passes σ (σ.storing left).2 s).bind fun rounds s₁ _ =>
    layerLoop_stores h join (rounds + 1) left σ hσ s₁

variable {primary : PrimaryParser} {primary' : Parser.Primary}

theorem layeredTerm_stores (h : StoresPrimaries d primary primary') (σ : Parser)
    (hσ : σ.depth = d) : Stores (layeredTerm primary) (Parser.layeredTerm primary') σ := by
  refine layer_stores (fun τ hτ => ?_) multiplicative? σ hσ
  rw [Parser.layeredFactor_eq]
  exact factor_stores h hτ

theorem layeredSum_stores (h : StoresPrimaries d primary primary') (σ : Parser)
    (hσ : σ.depth = d) : Stores (layeredSum primary) (Parser.layeredSum primary') σ :=
  layer_stores (layeredTerm_stores h) additive? σ hσ

end Stores

/-- A layer of operators, either the additive ones or the others. -/
def IsLayer (join : TokenKind → Option BinaryOp) (additive : Bool) : Prop :=
  ∀ kind, join kind = kind.operator?.filter fun op => op.isAdditive == additive

theorem additive?_isLayer : IsLayer additive? true := by
  intro kind
  cases kind <;> rfl

theorem multiplicative?_isLayer : IsLayer multiplicative? false := by
  intro kind
  cases kind <;> rfl

/-- What a layer finds is the operator that comes next, if that is its own. -/
theorem IsLayer.of_lookahead {join : TokenKind → Option BinaryOp} {additive : Bool}
    (h : IsLayer join additive) {seen : Ahead} (hseen : s.stream.lookahead = .ok seen) :
    seen.kind?.bind join = s.operator?.filter fun op => op.isAdditive == additive := by
  rw [← Progress.operator?_of_lookahead hseen]
  cases seen.kind? with
  | none => rfl
  | some kind => exact h kind

/-! ## Outcomes -/

/-- What a parser comes to: its result or its error, and how far it came. -/
def Parse.outcome (p : Parse α) (s : Progress) : Except ParseError α × Progress :=
  match p s with
  | .ok a s' => (.ok a, s')
  | .error f s' => (.error f.error, s')

theorem outcome_of_eq {p q : Parse α} {s' : Progress} (h : p s = q s') :
    p.outcome s = q.outcome s' := by
  unfold Parse.outcome
  rw [h]

theorem outcome_eq_ok_iff {p : Parse α} {a : α} {s' : Progress} :
    p.outcome s = (.ok a, s') ↔ p s = .ok a s' := by
  unfold Parse.outcome
  cases p s <;> simp

theorem outcome_eq_error_iff {p : Parse α} {err : ParseError} {s' : Progress} :
    p.outcome s = (.error err, s') ↔ ∃ f, p s = .error f s' ∧ f.error = err := by
  unfold Parse.outcome
  cases p s with
  | ok a s₁ => simp
  | error f s₁ =>
    constructor
    · rintro ⟨⟩
      exact ⟨f, rfl, rfl⟩
    · rintro ⟨_, ⟨⟩, rfl⟩
      rfl

theorem outcome_holding (e : Fragment) (p : Parse α) (s : Progress) :
    (holding e p).outcome s = p.outcome s := by
  unfold Parse.outcome holding EStateM.adaptExcept
  cases p s <;> rfl

/-- Parsers with one outcome that go on with one outcome from wherever they lead. -/
theorem outcome_bind {p q : Parse α} {f g : α → Parse β} (h : p.outcome s = q.outcome s)
    (hf : ∀ a s', p s = .ok a s' → (f a).outcome s' = (g a).outcome s') :
    (p >>= f).outcome s = (q >>= g).outcome s := by
  cases hp : p s with
  | ok a s' =>
    have hq := outcome_eq_ok_iff.1 (h.symm.trans (outcome_eq_ok_iff.2 hp))
    rw [outcome_of_eq (Parse.bind_of_ok hp f), outcome_of_eq (Parse.bind_of_ok hq g)]
    exact hf a s' hp
  | error e s' =>
    have hout := outcome_eq_error_iff.2 ⟨e, hp, rfl⟩
    obtain ⟨e', hq, he⟩ := outcome_eq_error_iff.1 (h.symm.trans hout)
    have hout' := outcome_eq_error_iff.2 ⟨e', Parse.bind_of_error hq g, he⟩
    rw [hout', outcome_eq_error_iff]
    exact ⟨e, Parse.bind_of_error hp f, rfl⟩

theorem holding_bind (e : Fragment) (p : Parse α) (f : α → Parse β) :
    holding e (p >>= f) = holding e p >>= fun a => holding e (f a) := by
  funext s
  simp only [holding, EStateM.adaptExcept, bind, EStateM.bind]
  cases p s <;> rfl

theorem bind_assoc_apply {γ : Type} (p : Parse α) (f : α → Parse β) (g : β → Parse γ)
    (s : Progress) : ((p >>= f) >>= g) s = (p >>= fun a => f a >>= g) s := by
  simp only [bind, EStateM.bind]
  cases p s <;> rfl

theorem bind_apply_of_eq {p q : Parse α} {s' : Progress} (h : p s = q s') (f : α → Parse β) :
    (p >>= f) s = (q >>= f) s' := by
  simp only [bind, EStateM.bind, h]

/-- Parsers that shrink what is ahead are told by their outcomes. -/
theorem Shrinks.of_outcome {p q : Parse α} (hq : Shrinks q) (h : ∀ s, p.outcome s = q.outcome s) :
    Shrinks p := by
  intro s a s' hp
  exact hq s a s' (outcome_eq_ok_iff.1 ((h s).symm.trans (outcome_eq_ok_iff.2 hp)))

/-! ## Looking for an operator -/

/-- Where no token can be read, nothing that looks for one gets further. -/
theorem outcome_peek_error {cause : LexicalError} (h : s.stream.lookahead = .error cause)
    (left : Expr) (f : Ahead → Parse α) :
    (holding left peek >>= f).outcome s = (.error (.lexical cause), s) := by
  have hpeek : peek.outcome s = (.error (.lexical cause), s) :=
    outcome_eq_error_iff.2 ⟨_, peek_eq_error h, rfl⟩
  rw [← outcome_holding left] at hpeek
  obtain ⟨g, hg, herror⟩ := outcome_eq_error_iff.1 hpeek
  exact outcome_eq_error_iff.2 ⟨g, Parse.bind_of_error hg f, herror⟩

theorem holding_peek {seen : Ahead} (h : s.stream.lookahead = .ok seen) (left : Fragment) :
    holding left peek s = .ok seen s :=
  holding_ok_iff.2 (peek_ok_iff.2 ⟨h, rfl⟩)

theorem exists_lookahead_of_operator {op : BinaryOp} (h : s.operator? = some op) :
    ∃ seen, s.stream.lookahead = .ok seen := by
  obtain ⟨l, hls, -⟩ := Progress.exists_operator h
  obtain ⟨t, ts, ht, -⟩ := Progress.exists_token hls
  exact ⟨.token t, Progress.lookahead_cons ht⟩

/-- A parser that stops at once, before another that looks for a token, might as well not be there:
if none can be read, both of them fail alike. -/
theorem outcome_stop_bind {p : Parse Expr} {e : Expr} {f : Expr → Parse α}
    (hstop : ∀ seen, s.stream.lookahead = .ok seen → p s = .ok e s)
    (hp : ∀ cause, s.stream.lookahead = .error cause → p.outcome s = (.error (.lexical cause), s))
    (hf : ∀ cause, s.stream.lookahead = .error cause →
      (f e).outcome s = (.error (.lexical cause), s)) :
    (p >>= f).outcome s = (f e).outcome s := by
  cases hseen : s.stream.lookahead with
  | ok seen => exact outcome_of_eq (Parse.bind_of_ok (hstop seen hseen) f)
  | error cause =>
    obtain ⟨g, hps, hg⟩ := outcome_eq_error_iff.1 (hp cause hseen)
    rw [hf cause hseen, outcome_eq_error_iff]
    exact ⟨g, Parse.bind_of_error hps f, hg⟩

/-! ## Rounds of a layer -/

section Layer

variable {operand : Parse Expr} {join : TokenKind → Option BinaryOp} {additive : Bool}

theorem layerRest_apply (operand : Parse Expr) (join : TokenKind → Option BinaryOp) (left : Expr)
    (s : Progress) :
    layerRest operand join left s = layerLoop operand join (s.lexemes.length + 1) left s := by
  rw [layerRest, Parse.bind_of_ok (tokensAhead_eq s)]

theorem layerRest_error {cause : LexicalError} (h : s.stream.lookahead = .error cause)
    (left : Expr) : (layerRest operand join left).outcome s = (.error (.lexical cause), s) := by
  rw [outcome_of_eq (layerRest_apply operand join left s)]
  unfold layerLoop
  exact outcome_peek_error h left _

variable (hlayer : IsLayer join additive)
include hlayer

/-- Every operator is a lexeme, so more rounds than there are lexemes decide nothing. -/
theorem layerLoop_rounds_irrelevant (hoperand : Shrinks operand) {rounds rounds' : Nat}
    {s : Progress} (h : s.lexemes.length < rounds) (h' : s.lexemes.length < rounds')
    (left : Expr) :
    layerLoop operand join rounds left s = layerLoop operand join rounds' left s := by
  induction rounds generalizing rounds' s left with
  | zero => omega
  | succ rounds ih =>
    cases rounds' with
    | zero => omega
    | succ rounds' =>
      unfold layerLoop
      apply Parse.bind_congr
      intro seen s₁ hpeek
      obtain ⟨hseen, rfl⟩ := peek_ok_iff.1 (holding_ok_iff.1 hpeek)
      cases hjoin : seen.kind?.bind join with
      | none => rfl
      | some op =>
        rw [hlayer.of_lookahead hseen] at hjoin
        obtain ⟨l, hls, -⟩ := Progress.exists_operator (Option.filter_eq_some_iff.1 hjoin).1
        have hlen : s.lexemes.length = s.tail.lexemes.length + 1 := by rw [hls, List.length_cons]
        simp only
        rw [Parse.bind_of_ok advance_eq, Parse.bind_of_ok advance_eq]
        apply Parse.bind_congr
        intro right s₂ hright
        have hlen₂ := hoperand _ _ _ (holding_ok_iff.1 hright)
        exact ih (by omega) (by omega) _

/-- A layer is over before anything but its own operators. -/
theorem layerRest_stop {seen : Ahead} (hseen : s.stream.lookahead = .ok seen)
    (h : ∀ op, s.operator? = some op → op.isAdditive ≠ additive) (left : Expr) :
    layerRest operand join left s = .ok left s := by
  have hnone : (s.operator?.filter fun op => op.isAdditive == additive) = none :=
    Option.filter_eq_none_iff.2 fun op hop heq => h op hop (beq_iff_eq.1 heq)
  rw [layerRest_apply]
  unfold layerLoop
  rw [Parse.bind_of_ok (holding_peek hseen left), hlayer.of_lookahead hseen, hnone]
  rfl

/-- An operator of the layer is taken with the operand to its right. -/
theorem layerRest_step (hoperand : Shrinks operand) {op : BinaryOp} (hop : s.operator? = some op)
    (hown : op.isAdditive = additive) (left : Expr) :
    layerRest operand join left s = (holding left operand >>= fun right =>
      layerRest operand join (.binary left op right)) s.tail := by
  obtain ⟨seen, hseen⟩ := exists_lookahead_of_operator hop
  obtain ⟨l, hls, -⟩ := Progress.exists_operator hop
  have hlen : s.lexemes.length = s.tail.lexemes.length + 1 := by rw [hls, List.length_cons]
  have hsome : (s.operator?.filter fun op => op.isAdditive == additive) = some op :=
    Option.filter_eq_some_iff.2 ⟨hop, beq_iff_eq.2 hown⟩
  rw [layerRest_apply]
  unfold layerLoop
  rw [Parse.bind_of_ok (holding_peek hseen left), hlayer.of_lookahead hseen, hsome]
  simp only
  rw [Parse.bind_of_ok advance_eq]
  apply Parse.bind_congr
  intro right s₁ hright
  have hlen₁ := hoperand _ _ _ (holding_ok_iff.1 hright)
  rw [layerRest_apply]
  exact layerLoop_rounds_irrelevant hlayer hoperand (by omega) (by omega) _

/-- What is left after a layer starts with no operator of its own. -/
theorem ne_of_layerRest (hoperand : Shrinks operand) {left e : Expr} {s s' : Progress}
    (h : layerRest operand join left s = .ok e s') :
    ∀ op, s'.operator? = some op → op.isAdditive ≠ additive := by
  induction hn : s.lexemes.length using Nat.strongRecOn generalizing s left with
  | ind n ih =>
    cases hseen : s.stream.lookahead with
    | error cause =>
      have herror : (layerRest operand join left).outcome s = _ := layerRest_error hseen left
      rw [outcome_eq_ok_iff.2 h] at herror
      cases herror
    | ok seen =>
      by_cases hstop : ∀ op, s.operator? = some op → op.isAdditive ≠ additive
      · rw [layerRest_stop hlayer hseen hstop] at h
        cases h
        exact hstop
      · obtain ⟨op, hne⟩ := Classical.not_forall.1 hstop
        obtain ⟨hop, hown⟩ := Classical.not_imp.1 hne
        obtain ⟨l, hls, -⟩ := Progress.exists_operator hop
        rw [layerRest_step hlayer hoperand hop (Decidable.not_not.1 hown)] at h
        obtain ⟨right, s₁, hright, hrest⟩ := Parse.bind_ok_iff.1 h
        have hlen := hoperand _ _ _ (holding_ok_iff.1 hright)
        rw [hls, List.length_cons] at hn
        exact ih s₁.lexemes.length (by omega) hrest rfl

omit hlayer in
/-- Where a term ends, a layer of factors is over. -/
theorem outcome_layerRest_atTermEnd {operand' : Parse Expr} (h : AtTermEnd s) (left : Expr) :
    (layerRest operand multiplicative? left >>= layerRest operand' additive?).outcome s =
      (layerRest operand' additive? left).outcome s := by
  apply outcome_stop_bind
  · intro seen hseen
    apply layerRest_stop multiplicative?_isLayer hseen
    intro op hop
    rw [h op hop]
    decide
  · exact fun cause hcause => layerRest_error hcause left
  · exact fun cause hcause => layerRest_error hcause left

end Layer

/-! ## Rounds of the loop over operators -/

section Chain

variable {catalog : Catalog} {room : Nat} {primary : PrimaryParser}

theorem chain_error {cause : LexicalError} (h : s.stream.lookahead = .error cause) (least : Nat)
    (left : Expr) : (chain primary least left).outcome s = (.error (.lexical cause), s) := by
  rw [outcome_of_eq (chain_apply primary least left s), operators.eq_def]
  exact outcome_peek_error h left _

/-- The loop over operators is over before an operator that does not bind tightly enough. -/
theorem chain_stop {seen : Ahead} (hseen : s.stream.lookahead = .ok seen) {least : Nat}
    (h : ∀ op, s.operator? = some op → op.power < least) (left : Expr) :
    chain primary least left s = .ok left s := by
  rw [chain_apply]
  exact operators_stop hseen h

theorem operation_eq (primary : PrimaryParser) (least : Nat) :
    operation primary least = (factor primary >>= chain primary least) := rfl

/-- An operator that binds tightly enough is taken with an operation to its right, of operators that
bind more tightly. -/
theorem chain_step (hfactor : Shrinks (factor primary)) {op : BinaryOp}
    (hop : s.operator? = some op) {least : Nat} (hpower : least ≤ op.power) (left : Expr) :
    chain primary least left s = (holding left (operation primary (op.power + 1)) >>= fun right =>
      chain primary least (.binary left op right)) s.tail := by
  obtain ⟨seen, hseen⟩ := exists_lookahead_of_operator hop
  rw [chain_eq hfactor, operatorRound, Parse.bind_of_ok (holding_peek hseen left),
    Progress.operator?_of_lookahead hseen, hop]
  simp only [if_neg (Nat.not_lt.2 hpower)]
  rw [Parse.bind_of_ok advance_eq, operation_eq, holding_bind, bind_assoc_apply]

/-- The same, with the operand and the operators to its right apart. -/
theorem outcome_chain_step (hfactor : Shrinks (factor primary)) {op : BinaryOp}
    (hop : s.operator? = some op) {least : Nat} (hpower : least ≤ op.power) (left : Expr) :
    (chain primary least left).outcome s = (factor primary >>= fun operand =>
      chain primary (op.power + 1) operand >>= fun right =>
        chain primary least (.binary left op right)).outcome s.tail := by
  rw [outcome_of_eq (chain_step hfactor hop hpower left)]
  calc (holding left (operation primary (op.power + 1)) >>= fun right =>
        chain primary least (.binary left op right)).outcome s.tail
      = (operation primary (op.power + 1) >>= fun right =>
          chain primary least (.binary left op right)).outcome s.tail :=
        outcome_bind (outcome_holding ..) fun _ _ _ => rfl
    _ = _ := outcome_of_eq (bind_assoc_apply _ _ _ _)

/-- No operator binds more tightly than `*` and `/`, so nothing of a chain is to their right. -/
theorem outcome_chain_tight {least least' : Nat} (hl : 60 < least) (e : Expr) (f : Expr → Expr) :
    (chain primary least e >>= fun right => chain primary least' (f right)).outcome s =
      (chain primary least' (f e)).outcome s := by
  apply outcome_stop_bind (f := fun right => chain primary least' (f right))
  · intro seen hseen
    apply chain_stop hseen
    intro op _
    have hpower : op.power ≤ 60 := by cases op <;> decide
    omega
  · exact fun cause hcause => chain_error hcause least e
  · exact fun cause hcause => chain_error hcause least' (f e)

/-- **With operators that bind more tightly than `+`, the loop is that of a term.** -/
theorem outcome_chain_factors (hfactor : Shrinks (factor primary)) {least : Nat} (hlow : 50 < least)
    (hhigh : least ≤ 60) (left : Expr) (s : Progress) :
    (chain primary least left).outcome s =
      (layerRest (factor primary) multiplicative? left).outcome s := by
  induction hn : s.lexemes.length using Nat.strongRecOn generalizing s left with
  | ind n ih =>
    cases hseen : s.stream.lookahead with
    | error cause => rw [chain_error hseen, layerRest_error hseen]
    | ok seen =>
      have hstop : AtTermEnd s → (chain primary least left).outcome s =
          (layerRest (factor primary) multiplicative? left).outcome s := by
        intro hend
        apply outcome_of_eq
        rw [chain_stop hseen, layerRest_stop multiplicative?_isLayer hseen]
        · intro op hop
          simp [hend op hop]
        · intro op hop
          rw [op.power_eq, hend op hop, if_pos rfl]
          exact hlow
      cases hop : s.operator? with
      | none => exact hstop fun op h => by simp [hop] at h
      | some op =>
        cases hadd : op.isAdditive with
        | true =>
          apply hstop
          intro op' h
          rw [← hadd, Option.some.inj (hop.symm.trans h)]
        | false =>
          have hpower : op.power = 60 := by rw [op.power_eq, hadd]; rfl
          obtain ⟨l, hls, -⟩ := Progress.exists_operator hop
          rw [outcome_chain_step hfactor hop (by omega), hpower,
            outcome_of_eq (layerRest_step multiplicative?_isLayer hfactor hop hadd left)]
          apply outcome_bind (outcome_holding ..).symm
          intro operand s₁ hoperand
          rw [outcome_chain_tight (by decide)]
          have hlen := hfactor _ _ _ hoperand
          rw [hls, List.length_cons] at hn
          exact ih s₁.lexemes.length (by omega) _ s₁ rfl

theorem layeredTerm_eq (primary : PrimaryParser) :
    layeredTerm primary = (factor primary >>= layerRest (factor primary) multiplicative?) := rfl

theorem layeredSum_eq (primary : PrimaryParser) :
    layeredSum primary = (layeredTerm primary >>= layerRest (layeredTerm primary) additive?) := rfl

/-- **The operand to the right of `+` or `-` is a term.** -/
theorem outcome_operation_term (hfactor : Shrinks (factor primary)) (s : Progress) :
    (operation primary 51).outcome s = (layeredTerm primary).outcome s := by
  rw [operation_eq, layeredTerm_eq]
  apply outcome_bind rfl
  intro operand s₁ _
  exact outcome_chain_factors hfactor (by decide) (by decide) operand s₁

theorem operation_shrinks (hfactor : Shrinks (factor primary)) (least : Nat) :
    Shrinks (operation primary least) := by
  intro s e s' h
  rw [operation_eq] at h
  obtain ⟨operand, s₁, hoperand, h⟩ := Parse.bind_ok_iff.1 h
  exact Nat.le_trans (chain_shrinks hfactor _ _ _ _ _ h) (hfactor _ _ _ hoperand)

theorem layeredTerm_shrinks (hfactor : Shrinks (factor primary)) : Shrinks (layeredTerm primary) :=
  (operation_shrinks hfactor 51).of_outcome fun s => (outcome_operation_term hfactor s).symm

/-- A chain of operators that bind more tightly than `+` ends where a term does. -/
theorem atTermEnd_of_chain (hfactor : Shrinks (factor primary)) {least : Nat} (hlow : 50 < least)
    (hhigh : least ≤ 60) {left e : Expr} {s s' : Progress}
    (h : chain primary least left s = .ok e s') : AtTermEnd s' := by
  have houtcome := outcome_chain_factors hfactor hlow hhigh left s
  rw [outcome_eq_ok_iff.2 h] at houtcome
  intro op hop
  have hrest := outcome_eq_ok_iff.1 houtcome.symm
  have hne := ne_of_layerRest multiplicative?_isLayer hfactor hrest op hop
  simpa using hne

/-- **With all operators, the loop is that of a term and then that of a sum.** -/
theorem outcome_chain_terms (hfactor : Shrinks (factor primary)) (left : Expr) (s : Progress) :
    (chain primary 0 left).outcome s = (layerRest (factor primary) multiplicative? left >>=
      layerRest (layeredTerm primary) additive?).outcome s := by
  induction hn : s.lexemes.length using Nat.strongRecOn generalizing s left with
  | ind n ih =>
    have hatEnd : AtTermEnd s → (layerRest (factor primary) multiplicative? left >>=
        layerRest (layeredTerm primary) additive?).outcome s =
        (layerRest (layeredTerm primary) additive? left).outcome s := fun hend =>
      outcome_layerRest_atTermEnd hend left
    cases hop : s.operator? with
    | none =>
      rw [hatEnd fun op h => by simp [hop] at h]
      cases hseen : s.stream.lookahead with
      | error cause => rw [chain_error hseen, layerRest_error hseen]
      | ok seen =>
        apply outcome_of_eq
        rw [chain_stop hseen fun op h => by simp [hop] at h,
          layerRest_stop additive?_isLayer hseen fun op h => by simp [hop] at h]
    | some op =>
      obtain ⟨l, hls, -⟩ := Progress.exists_operator hop
      rw [hls, List.length_cons] at hn
      rw [outcome_chain_step hfactor hop (Nat.zero_le _)]
      cases hadd : op.isAdditive with
      | false =>
        have hpower : op.power = 60 := by rw [op.power_eq, hadd]; rfl
        have hround := layerRest_step multiplicative?_isLayer hfactor hop hadd left
        have hstep := bind_apply_of_eq hround (layerRest (layeredTerm primary) additive?)
        rw [hpower, outcome_of_eq hstep, outcome_of_eq (bind_assoc_apply _ _ _ _)]
        apply outcome_bind (outcome_holding ..).symm
        intro operand s₁ hoperand
        rw [outcome_chain_tight (by decide)]
        have hlen := hfactor _ _ _ hoperand
        exact ih s₁.lexemes.length (by omega) _ s₁ rfl
      | true =>
        have hpower : op.power = 50 := by rw [op.power_eq, hadd]; rfl
        have hend : AtTermEnd s := fun op' h => by rw [← hadd, Option.some.inj (hop.symm.trans h)]
        have hterm := layeredTerm_shrinks hfactor
        rw [hpower, hatEnd hend,
          outcome_of_eq (layerRest_step additive?_isLayer hterm hop hadd left)]
        calc (factor primary >>= fun operand => chain primary 51 operand >>= fun right =>
              chain primary 0 (.binary left op right)).outcome s.tail
            = (operation primary 51 >>= fun right =>
                chain primary 0 (.binary left op right)).outcome s.tail :=
              (outcome_of_eq (bind_assoc_apply _ _ _ _)).symm
          _ = _ := ?_
        apply outcome_bind
        · rw [outcome_operation_term hfactor, outcome_holding]
        · intro right s₁ hright
          obtain ⟨operand, s₂, hoperand, hchain⟩ := Parse.bind_ok_iff.1 hright
          have hlen := operation_shrinks hfactor 51 _ _ _ hright
          have hend₁ := atTermEnd_of_chain hfactor (by decide) (by decide) hchain
          rw [ih s₁.lexemes.length (by omega) _ s₁ rfl, outcome_layerRest_atTermEnd hend₁]

/-- **An expression is a sum of terms.** -/
theorem outcome_expression_sum (hfactor : Shrinks (factor primary)) (s : Progress) :
    (expression primary).outcome s = (layeredSum primary).outcome s := by
  rw [expression_eq, layeredSum_eq, layeredTerm_eq]
  rw [outcome_of_eq (bind_assoc_apply _ _ _ _)]
  apply outcome_bind rfl
  intro operand s₁ _
  exact outcome_chain_terms hfactor operand s₁

end Chain

/-! ## Runs -/

/-- Two runs come to the same: to one node in one state, or to one error at one place of the text.
What a failure leaves in the table and on the stack may differ. -/
def Parser.SameRun : (r r' : EStateM.Result ParseError Parser NodeId) → Prop
  | .ok id σ, .ok id' σ' => id = id' ∧ σ = σ'
  | .error e σ, .error e' σ' => e = e' ∧ σ.progress = σ'.progress
  | _, _ => False

/-- Parsers that store trees of one outcome run alike. -/
theorem Stores.sameRun {p q : Parse Expr} {p' q' : ParserM NodeId} {σ : Parser}
    (hp : Stores p p' σ) (hq : Stores q q' σ)
    (h : p.outcome σ.progress = q.outcome σ.progress) : Parser.SameRun (p' σ) (q' σ) := by
  cases hrun : p σ.progress with
  | ok e s =>
    have hsame := outcome_eq_ok_iff.1 (h.symm.trans (outcome_eq_ok_iff.2 hrun))
    rw [hp.of_ok hrun, hq.of_ok hsame]
    exact ⟨rfl, rfl⟩
  | error f s =>
    have hout := outcome_eq_error_iff.2 ⟨f, hrun, rfl⟩
    obtain ⟨g, hsame, hg⟩ := outcome_eq_error_iff.1 (h.symm.trans hout)
    rw [hp.of_error hrun, hq.of_error hsame, hg]
    exact ⟨rfl, rfl⟩

/-- **Precedence climbing is a loop inside a loop.** Whatever the text, wherever in it and however
deep inside other primaries: an expression is parsed as terms joined by `+` and `-`, which are
factors joined by `*` and `/`, and the operation to the right of `+` or `-` as one such term. Either
way the same nodes are appended in the same order and the same one is the result, or the failure is
the same at the same place. The loops that join are not cut short: their rounds go on as long as one
of their operators comes next. -/
theorem climbing_is_layered (catalog : Catalog) (σ : Parser) :
    let primary := Parser.primary catalog
    Parser.GoesRound (Parser.layeredFactor primary) multiplicative? ∧
      Parser.GoesRound (Parser.layeredTerm primary) additive? ∧
      Parser.SameRun (Parser.expression primary σ) (Parser.layeredSum primary σ) ∧
      Parser.SameRun (Parser.operation primary 51 σ) (Parser.layeredTerm primary σ) := by
  intro primary
  have hrounds := Parser.layeredFactor_same catalog
  have hprimary := storesPrimaries catalog σ.depth
  have hfactor := factor_shrinks catalog (maxNesting - σ.depth)
  exact ⟨Parser.layerRest_goesRound hrounds multiplicative?,
    Parser.layerRest_goesRound (Parser.layer_same hrounds multiplicative?) additive?,
    (expression_stores hprimary rfl).sameRun (layeredSum_stores hprimary σ rfl)
      (outcome_expression_sum hfactor σ.progress),
    (operation_stores hprimary 51 rfl).sameRun (layeredTerm_stores hprimary σ rfl)
      (outcome_operation_term hfactor σ.progress)⟩

end Dql
