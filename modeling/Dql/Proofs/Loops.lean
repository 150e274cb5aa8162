import Dql.Proofs.Soundness

/-!
# Loops without their bounds

The loops over operators and over arguments run within a bound, so that they are known to end. Any
bound that covers the tokens ahead gives the same answer, whether the loop succeeds or fails, so
each loop satisfies the equation that it would have without a bound.

* `Shrinks` - a parser leaves no more lexemes than it finds;
* `operatorRound`, `argumentRound` - one round of each loop, the rounds after it being a parameter;
* `chain`, `furtherArguments` - the loops with a bound that always suffices.

Principal results: `chain_eq` and `furtherArguments_eq`.
-/

namespace Dql

variable {α β : Type} {primary : PrimaryParser} {s : Progress}

/-! ## Parsers that agree -/

/-- Parsers that start alike and go on alike from wherever the start leads. -/
theorem Parse.bind_congr {p : Parse α} {f g : α → Parse β}
    (h : ∀ a s', p s = .ok a s' → f a s' = g a s') : (p >>= f) s = (p >>= g) s := by
  simp only [bind, EStateM.bind]
  cases hp : p s with
  | ok a s' => exact h a s' hp
  | error => rfl

theorem holding_congr {e : Fragment} {p q : Parse α} (h : p s = q s) :
    holding e p s = holding e q s := by
  simp only [holding, EStateM.adaptExcept, h]

/-- Whenever the parser succeeds, it leaves no more lexemes than it found. -/
def Shrinks (p : Parse α) : Prop :=
  ∀ s a s', p s = .ok a s' → s'.lexemes.length ≤ s.lexemes.length

theorem Sound.shrinks {catalog : Catalog} {p : Phrase} {room : Nat} {parser : Parse p.Meaning}
    (h : Sound catalog p room parser) : Shrinks parser :=
  fun s a s' hok => (h s a s' hok).2.length_le

theorem factor_shrinks (catalog : Catalog) (room : Nat) :
    Shrinks (factor (Dql.primary catalog room)) :=
  (factor_sound (primary_sound room .arithmetic)).shrinks

theorem expression_shrinks (catalog : Catalog) (room : Nat) :
    Shrinks (expression (Dql.primary catalog room)) :=
  (expression_sound (primary_sound room .arithmetic)).shrinks

theorem Progress.length_tail (s : Progress) :
    s.tail.lexemes.length = s.lexemes.length - 1 := by
  rw [s.lexemes_tail, List.length_tail]

/-! ## Operators -/

/-- One round of the loop over operators. What is done with the operand after an operator and with
what is to the left of the next one is `loop`. -/
def operatorRound (primary : PrimaryParser) (loop : Nat → Expr → Parse Expr) (least : Nat)
    (left : Expr) : Parse Expr := do
  match (← holding left peek).kind?.bind TokenKind.operator? with
  | none => return left
  | some op =>
    if op.power < least then return left
    else
      advance
      let operand ← holding left (factor primary)
      let right ← holding left (loop (op.power + 1) operand)
      loop least (.binary left op right)

theorem operators_succ (primary : PrimaryParser) (bound least : Nat) (left : Expr) :
    operators primary (bound + 1) least left =
      operatorRound primary (operators primary bound) least left := by
  rw [operators]
  rfl

/-- With no lexeme ahead there is no operator, and the loop needs no bound. -/
theorem operators_of_nil (hs : s.lexemes = []) (loop : Nat → Expr → Parse Expr)
    {bound least : Nat} {left : Expr} :
    operators primary bound least left s = operatorRound primary loop least left s := by
  have hop : s.operator? = none := by simp [Progress.operator?, hs]
  rw [operators.eq_def, operatorRound]
  refine Parse.bind_congr fun seen s' hpeek => ?_
  obtain ⟨hseen, rfl⟩ := peek_ok_iff.1 (holding_ok_iff.1 hpeek)
  rw [Progress.operator?_of_lookahead hseen, hop]

/-- After the first round the lexemes are fewer, so the rounds after it only have to agree there. -/
theorem operatorRound_congr (hfactor : Shrinks (factor primary))
    {loop loop' : Nat → Expr → Parse Expr} (hshrinks : ∀ least left, Shrinks (loop' least left))
    (h : ∀ s' least left, s'.lexemes.length < s.lexemes.length →
      loop least left s' = loop' least left s') (least : Nat) (left : Expr) :
    operatorRound primary loop least left s = operatorRound primary loop' least left s := by
  rw [operatorRound, operatorRound]
  refine Parse.bind_congr fun seen s' hpeek => ?_
  obtain ⟨hseen, rfl⟩ := peek_ok_iff.1 (holding_ok_iff.1 hpeek)
  rw [Progress.operator?_of_lookahead hseen]
  cases hop : s.operator? with
  | none => rfl
  | some op =>
    simp only
    split
    · rfl
    · have hpos : 0 < s.lexemes.length := by
        cases hls : s.lexemes with
        | nil => simp [Progress.operator?, hls] at hop
        | cons => exact Nat.succ_pos _
      refine Parse.bind_congr fun _ s₁ hadv => ?_
      obtain rfl := advance_ok_iff.1 hadv
      have hlen₁ := s.length_tail
      refine Parse.bind_congr fun operand s₂ hoperand => ?_
      have hlen₂ := hfactor _ _ _ (holding_ok_iff.1 hoperand)
      have hnested := holding_congr (e := left) (h s₂ (op.power + 1) operand (by omega))
      simp only [bind, EStateM.bind]
      rw [hnested]
      cases hright : holding left (loop' (op.power + 1) operand) s₂ with
      | error => rfl
      | ok right s₃ =>
        have hlen₃ := hshrinks _ _ _ _ _ (holding_ok_iff.1 hright)
        exact h s₃ least _ (by omega)

theorem operatorRound_shrinks (hfactor : Shrinks (factor primary))
    {loop : Nat → Expr → Parse Expr} (hloop : ∀ least left, Shrinks (loop least left))
    (least : Nat) (left : Expr) : Shrinks (operatorRound primary loop least left) := by
  intro s e s' h
  rw [operatorRound] at h
  obtain ⟨seen, s₁, hpeek, h⟩ := Parse.bind_ok_iff.1 h
  obtain ⟨hseen, rfl⟩ := peek_ok_iff.1 (holding_ok_iff.1 hpeek)
  rw [Progress.operator?_of_lookahead hseen] at h
  cases hop : s.operator? with
  | none =>
    rw [hop] at h
    obtain ⟨-, rfl⟩ := Parse.pure_ok_iff.1 h
    exact Nat.le_refl _
  | some op =>
    rw [hop] at h
    simp only at h
    split at h
    · obtain ⟨-, rfl⟩ := Parse.pure_ok_iff.1 h
      exact Nat.le_refl _
    · obtain ⟨_, s₁, hadv, h⟩ := Parse.bind_ok_iff.1 h
      obtain rfl := advance_ok_iff.1 hadv
      obtain ⟨operand, s₂, hoperand, h⟩ := Parse.bind_ok_iff.1 h
      obtain ⟨right, s₃, hright, h⟩ := Parse.bind_ok_iff.1 h
      calc s'.lexemes.length ≤ s₃.lexemes.length := hloop _ _ _ _ _ h
        _ ≤ s₂.lexemes.length := hloop _ _ _ _ _ (holding_ok_iff.1 hright)
        _ ≤ s.tail.lexemes.length := hfactor _ _ _ (holding_ok_iff.1 hoperand)
        _ ≤ s.lexemes.length := by rw [s.length_tail]; exact Nat.sub_le _ _

theorem operators_shrinks (hfactor : Shrinks (factor primary)) :
    ∀ bound least left, Shrinks (operators primary bound least left)
  | 0, least, left => by
    intro s e s' h
    rw [operators] at h
    obtain ⟨seen, s₁, hpeek, h⟩ := Parse.bind_ok_iff.1 h
    obtain ⟨hseen, rfl⟩ := peek_ok_iff.1 (holding_ok_iff.1 hpeek)
    rw [Progress.operator?_of_lookahead hseen] at h
    cases hop : s.operator? <;> rw [hop] at h
    · obtain ⟨-, rfl⟩ := Parse.pure_ok_iff.1 h
      exact Nat.le_refl _
    · simp only [ite_self] at h
      obtain ⟨-, rfl⟩ := Parse.pure_ok_iff.1 h
      exact Nat.le_refl _
  | bound + 1, least, left => by
    rw [operators_succ]
    exact operatorRound_shrinks hfactor (operators_shrinks hfactor bound) least left

/-- **A bound on the loop over operators that covers the tokens ahead decides nothing**: any two
give the same answer, be it a success or a failure. -/
theorem operators_bound_irrelevant (hfactor : Shrinks (factor primary)) {bound bound' : Nat}
    {s : Progress} (least : Nat) (left : Expr) (hb : s.lexemes.length ≤ bound)
    (hb' : s.lexemes.length ≤ bound') :
    operators primary bound least left s = operators primary bound' least left s := by
  induction bound generalizing bound' s least left with
  | zero =>
    have hs := List.length_eq_zero_iff.1 (Nat.le_zero.1 hb)
    rw [operators_of_nil hs (operators primary 0), operators_of_nil hs (operators primary 0)]
  | succ bound ih =>
    cases bound' with
    | zero =>
      have hs := List.length_eq_zero_iff.1 (Nat.le_zero.1 hb')
      rw [operators_succ, operators_of_nil hs (operators primary bound)]
    | succ bound' =>
      rw [operators_succ, operators_succ]
      exact operatorRound_congr hfactor (operators_shrinks hfactor bound')
        (fun s' least left hlt => ih least left (by omega) (by omega)) least left

/-- Extends a left operand by all operators that bind at least as tightly as `least`. -/
def chain (primary : PrimaryParser) (least : Nat) (left : Expr) : Parse Expr := do
  operators primary (← tokensAhead) least left

theorem chain_apply (primary : PrimaryParser) (least : Nat) (left : Expr) (s : Progress) :
    chain primary least left s = operators primary s.lexemes.length least left s := by
  rw [chain, Parse.bind_of_ok (tokensAhead_eq s)]

theorem chain_shrinks (hfactor : Shrinks (factor primary)) (least : Nat) (left : Expr) :
    Shrinks (chain primary least left) := by
  intro s e s' h
  rw [chain_apply] at h
  exact operators_shrinks hfactor _ _ _ _ _ _ h

/-- **The loop over operators as it would be without a bound.** -/
theorem chain_eq (hfactor : Shrinks (factor primary)) (least : Nat) (left : Expr) :
    chain primary least left = operatorRound primary (chain primary) least left := by
  funext s
  rw [chain_apply]
  cases hlen : s.lexemes.length with
  | zero => exact operators_of_nil (List.length_eq_zero_iff.1 hlen) _
  | succ bound =>
    rw [operators_succ]
    refine operatorRound_congr hfactor (chain_shrinks hfactor) (fun s' least left hlt => ?_) _ _
    rw [chain_apply]
    exact operators_bound_irrelevant hfactor least left (by omega) (Nat.le_refl _)

theorem expression_eq (primary : PrimaryParser) :
    expression primary = (do chain primary 0 (← factor primary)) := rfl

/-! ## Arguments -/

/-- One round of the loop over the arguments after the first one. -/
def argumentRound (primary : PrimaryParser) (loop : Parse (List Expr)) : Parse (List Expr) := do
  if ← takeIf .comma then
    let arg ← expression primary
    return arg :: (← holding (.argument arg) loop)
  else return []

/-- The arguments after the first one, each after a comma, however many there are. -/
def furtherArguments (primary : PrimaryParser) : Parse (List Expr) := do
  moreArguments primary (← tokensAhead)

theorem furtherArguments_apply (primary : PrimaryParser) (s : Progress) :
    furtherArguments primary s = moreArguments primary s.lexemes.length s := by
  rw [furtherArguments, Parse.bind_of_ok (tokensAhead_eq s)]

/-- With no lexeme ahead there is no comma. -/
theorem argumentRound_of_nil (hs : s.lexemes = []) {loop : Parse (List Expr)} :
    argumentRound primary loop s = .ok [] s := by
  have hcomma : ¬ NextIs .comma s.lexemes := by simp [NextIs, hs]
  rw [argumentRound, Parse.bind_of_ok (takeIf_of_not_next hcomma)]
  rfl

theorem argumentRound_congr (hexpression : Shrinks (expression primary))
    {loop loop' : Parse (List Expr)}
    (h : ∀ s', s'.lexemes.length < s.lexemes.length → loop s' = loop' s') :
    argumentRound primary loop s = argumentRound primary loop' s := by
  rw [argumentRound, argumentRound]
  by_cases hcomma : NextIs .comma s.lexemes
  · obtain ⟨l, hls, -⟩ := Progress.exists_next hcomma
    have hlen : s.lexemes.length = s.tail.lexemes.length + 1 := by rw [hls, List.length_cons]
    rw [Parse.bind_of_ok (takeIf_of_next hcomma), Parse.bind_of_ok (takeIf_of_next hcomma)]
    refine Parse.bind_congr fun arg s₁ harg => ?_
    have hlen₁ := hexpression _ _ _ harg
    simp only [bind, EStateM.bind, holding_congr (e := .argument arg) (h s₁ (by omega))]
  · rw [Parse.bind_of_ok (takeIf_of_not_next hcomma), Parse.bind_of_ok (takeIf_of_not_next hcomma)]
    rfl

/-- **A bound on the loop over arguments that covers the tokens ahead decides nothing.** -/
theorem moreArguments_bound_irrelevant (hexpression : Shrinks (expression primary))
    {bound bound' : Nat} {s : Progress} (hb : s.lexemes.length ≤ bound)
    (hb' : s.lexemes.length ≤ bound') :
    moreArguments primary bound s = moreArguments primary bound' s := by
  induction bound generalizing bound' s with
  | zero =>
    have hs := List.length_eq_zero_iff.1 (Nat.le_zero.1 hb)
    cases bound' with
    | zero => rfl
    | succ bound' => exact (argumentRound_of_nil hs).symm
  | succ bound ih =>
    cases bound' with
    | zero => exact argumentRound_of_nil (List.length_eq_zero_iff.1 (Nat.le_zero.1 hb'))
    | succ bound' =>
      exact argumentRound_congr hexpression fun s' hlt => ih (by omega) (by omega)

/-- **The loop over arguments as it would be without a bound.** -/
theorem furtherArguments_eq (hexpression : Shrinks (expression primary)) :
    furtherArguments primary = argumentRound primary (furtherArguments primary) := by
  funext s
  rw [furtherArguments_apply]
  cases hlen : s.lexemes.length with
  | zero => exact (argumentRound_of_nil (List.length_eq_zero_iff.1 hlen)).symm
  | succ bound =>
    have hround : argumentRound primary (moreArguments primary bound) s =
        argumentRound primary (furtherArguments primary) s := by
      refine argumentRound_congr hexpression fun s' hlt => ?_
      rw [furtherArguments_apply]
      exact moreArguments_bound_irrelevant hexpression (by omega) (Nat.le_refl _)
    exact hround

theorem arguments_eq (primary : PrimaryParser) : arguments primary = (do
    if (← peek).kind? = some .parenRight then return []
    else
      let arg ← expression primary
      return arg :: (← holding (.argument arg) (furtherArguments primary))) := rfl

end Dql
