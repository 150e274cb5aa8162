import Mathlib.Data.List.Basic
import Dql.Proofs.Completeness
import Dql.Proofs.Loops
import Dql.Proofs.NormalForm

/-!
# Where a text nests too deep

A derivation gives each primary a level: how many primaries it stands inside, itself included. With
room for fewer levels than a derivation has, the parser stops at the first lexeme that begins a
primary one level too deep.

* `Derivation.levels` - the levels of primaries, at the lexemes that begin them;
* `Overflows` - a parser stops for want of room;
* `Overfull` - what a derivation of each phrase promises that there is no room for.

Principal result: `Derivation.overfull`.
-/

namespace Dql

variable {catalog : Catalog} {α β : Type}

/-! ## Levels -/

namespace Derivation

/-- For each lexeme of a derivation, the level of the primary that begins with it, if one does;
`outer` primaries are around the whole. -/
def levels {p : Phrase} {ls rest : List Lexeme} :
    Derivation catalog p ls rest → (outer : Nat) → List (Option Nat)
  | .expression first more, outer => first.levels outer ++ more.levels outer
  | .noTerm, _ => []
  | .moreTerms _ _ _ next more, outer => none :: (next.levels outer ++ more.levels outer)
  | .term first more, outer => first.levels outer ++ more.levels outer
  | .noFactor, _ => []
  | .moreFactors _ _ _ next more, outer => none :: (next.levels outer ++ more.levels outer)
  | .signed _ _ _ operand, outer => none :: operand.levels outer
  | .unsigned operand, outer => operand.levels outer
  | .paren _ _ _ _ inner, outer => some (outer + 1) :: (inner.levels (outer + 1) ++ [none])
  | .number _ _, outer => [some (outer + 1)]
  | .name _ _ _, outer => [some (outer + 1)]
  | .string _ _, outer => [some (outer + 1)]
  | .parameter _ _, outer => [some (outer + 1)]
  | .path _ _, outer => [some (outer + 1)]
  | .call _ _ _ _ _ _ _ _ args, outer =>
    some (outer + 1) :: none :: (args.levels (outer + 1) ++ [none])
  | .extension _ _ _ _ _ _ _ _ pieces, outer =>
    some (outer + 1) :: none :: pieces.levels (outer + 1)
  | .noArgument, _ => []
  | .arguments first more, outer => first.levels outer ++ more.levels outer
  | .noMoreArgument, _ => []
  | .moreArguments _ _ next more, outer => none :: (next.levels outer ++ more.levels outer)
  | .formEnd _ _, _ => [none]
  | .word _ _ more, outer => none :: more.levels outer
  | .keyword _ _ more, outer => none :: more.levels outer
  | .comma _ _ more, outer => none :: more.levels outer
  | .expressionSlot slot more, outer => slot.levels outer ++ more.levels outer
  | .primarySlot slot more, outer => slot.levels outer ++ more.levels outer

variable {p : Phrase} {ls mid rest : List Lexeme}

/-- There is one entry for each lexeme that is derived. -/
theorem length_levels (d : Derivation catalog p ls rest) (outer : Nat) :
    (d.levels outer).length + rest.length = ls.length := by
  induction d generalizing outer with
  | expression _ _ ihfirst ihmore | moreTerms _ _ _ _ _ ihfirst ihmore
  | term _ _ ihfirst ihmore | moreFactors _ _ _ _ _ ihfirst ihmore
  | arguments _ _ ihfirst ihmore | moreArguments _ _ _ _ ihfirst ihmore
  | expressionSlot _ _ ihfirst ihmore | primarySlot _ _ ihfirst ihmore =>
    have hfirst := ihfirst outer
    have hmore := ihmore outer
    simp only [levels, List.length_append, List.length_cons]
    omega
  | paren _ _ _ _ _ ih | call _ _ _ _ _ _ _ _ _ ih | extension _ _ _ _ _ _ _ _ _ ih =>
    have hinner := ih (outer + 1)
    simp only [levels, List.length_append, List.length_cons, List.length_nil] at hinner ⊢
    omega
  | signed _ _ _ _ ih | unsigned _ ih | word _ _ _ ih | keyword _ _ _ ih | comma _ _ _ ih =>
    have hmore := ih outer
    simp only [levels, List.length_cons]
    omega
  | noTerm | noFactor | number | name | string | parameter | path | noArgument | noMoreArgument
  | formEnd =>
    simp only [levels, List.length_cons, List.length_nil]
    omega

theorem drop_levels (d : Derivation catalog p ls rest) (outer : Nat) :
    ls.drop (d.levels outer).length = rest := by
  have hlen := d.length_levels outer
  obtain ⟨front, hfront⟩ := d.suffix
  have hfrontlen : front.length = (d.levels outer).length := by
    have := congrArg List.length hfront
    rw [List.length_append] at this
    omega
  calc ls.drop (d.levels outer).length
      = (front ++ rest).drop front.length := by rw [hfront, hfrontlen]
    _ = rest := List.drop_left

/-- **The levels of a derivation are those up to its nesting**, and each of them is there. -/
theorem mem_levels_iff (d : Derivation catalog p ls rest) {outer level : Nat} :
    some level ∈ d.levels outer ↔ outer < level ∧ level ≤ outer + d.nesting := by
  induction d generalizing outer with
  | expression _ _ ihfirst ihmore | moreTerms _ _ _ _ _ ihfirst ihmore
  | term _ _ ihfirst ihmore | moreFactors _ _ _ _ _ ihfirst ihmore
  | arguments _ _ ihfirst ihmore | moreArguments _ _ _ _ ihfirst ihmore
  | expressionSlot _ _ ihfirst ihmore | primarySlot _ _ ihfirst ihmore =>
    simp only [levels, nesting, List.mem_cons, List.mem_append, reduceCtorEq, false_or, ihfirst,
      ihmore]
    omega
  | paren _ _ _ _ _ ih | call _ _ _ _ _ _ _ _ _ ih | extension _ _ _ _ _ _ _ _ _ ih =>
    simp only [levels, nesting, List.mem_cons, List.mem_append, reduceCtorEq, Option.some.injEq,
      List.not_mem_nil, or_false, false_or, ih]
    omega
  | signed _ _ _ _ ih | unsigned _ ih | word _ _ _ ih | keyword _ _ _ ih | comma _ _ _ ih =>
    simp only [levels, nesting, List.mem_cons, reduceCtorEq, false_or, ih]
  | number | name | string | parameter | path =>
    simp only [levels, nesting, List.mem_singleton, Option.some.injEq]
    omega
  | noTerm | noFactor | noArgument | noMoreArgument | formEnd =>
    simp only [levels, nesting, List.mem_singleton, List.not_mem_nil, reduceCtorEq, false_iff]
    omega

/-! ### The first place of a level -/

section First

variable {outer level : Nat} {more : List (Option Nat)}

/-- The first of two parts has the level. -/
theorem drop_idxOf_first (d : Derivation catalog p ls mid) (h : some level ∈ d.levels outer) :
    ls.drop ((d.levels outer ++ more).idxOf (some level)) =
      ls.drop ((d.levels outer).idxOf (some level)) := by
  rw [List.idxOf_append_of_mem h]

/-- Of two parts that together are too deep, the first one is, or it is not and the second one
is. -/
theorem first_or_second {q : Phrase} {room : Nat} (first : Derivation catalog p ls mid)
    (second : Derivation catalog q mid rest) (hroom : room < max first.nesting second.nesting)
    (hlevel : level = outer + room + 1) :
    (room < first.nesting ∧
      ls.drop ((first.levels outer ++ second.levels outer).idxOf (some level)) =
        ls.drop ((first.levels outer).idxOf (some level))) ∨
    (first.nesting ≤ room ∧ room < second.nesting ∧
      ls.drop ((first.levels outer ++ second.levels outer).idxOf (some level)) =
        mid.drop ((second.levels outer).idxOf (some level))) := by
  by_cases hfirst : room < first.nesting
  · exact .inl ⟨hfirst, first.drop_idxOf_first (first.mem_levels_iff.2 (by omega))⟩
  · refine .inr ⟨by omega, by omega, ?_⟩
    have hnot : some level ∉ first.levels outer := mt first.mem_levels_iff.1 (by omega)
    rw [List.idxOf_append_of_notMem hnot, ← List.drop_drop, first.drop_levels]

theorem drop_idxOf_cons {l : Lexeme} {entry : Option Nat} (h : entry ≠ some level) :
    (l :: ls).drop ((entry :: more).idxOf (some level)) = ls.drop (more.idxOf (some level)) := by
  rw [List.idxOf_cons_ne _ h, List.drop_succ_cons]

theorem drop_idxOf_none {l : Lexeme} :
    (l :: ls).drop ((none :: more).idxOf (some level)) = ls.drop (more.idxOf (some level)) :=
  drop_idxOf_cons nofun

/-- A primary has its own level first. -/
theorem drop_idxOf_primary {accepts : PrimaryClass}
    (d : Derivation catalog (.primary accepts) ls rest)
    (outer : Nat) : ls.drop ((d.levels outer).idxOf (some (outer + 1))) = ls := by
  have hfirst : ∃ more, d.levels outer = some (outer + 1) :: more := by
    cases d <;> exact ⟨_, rfl⟩
  obtain ⟨more, hmore⟩ := hfirst
  rw [hmore, List.idxOf_cons_self, List.drop_zero]

end First

end Derivation

/-! ## Stopping for want of room -/

/-- The parser comes to where the lexemes `rest` are left, and finds no room for a primary there. -/
def Overflows (parser : Parse α) (s : Progress) (rest : List Lexeme) : Prop :=
  ∃ f s₁ seen, parser s = .error f s₁ ∧ s₁.lexemes = rest ∧
    s₁.stream.lookahead = .ok seen ∧ f.error = .tooDeep seen.position

namespace Overflows

variable {s : Progress} {mid rest : List Lexeme} {p : Parse α} {f : α → Parse β} {a : α}

theorem bind (h : Overflows p s rest) : Overflows (p >>= f) s rest := by
  obtain ⟨g, s₁, seen, hp, h⟩ := h
  exact ⟨g, s₁, seen, Parse.bind_of_error hp f, h⟩

theorem after (hp : Yields p s a mid)
    (hf : ∀ s', s'.lexemes = mid → s'.ending = s.ending → Overflows (f a) s' rest) :
    Overflows (p >>= f) s rest := by
  obtain ⟨s₁, hp, hls, he, -⟩ := hp
  unfold Overflows
  rw [Parse.bind_of_ok hp]
  exact hf s₁ hls he

theorem holding (h : Overflows p s rest) (e : Fragment) : Overflows (holding e p) s rest := by
  obtain ⟨g, s₁, seen, hp, hls, hseen, hg⟩ := h
  exact ⟨{ g with fragments := e :: g.fragments }, s₁, seen,
    by simp only [Dql.holding, EStateM.adaptExcept, hp], hls, hseen, hg⟩

end Overflows

section Operators

variable {primary : PrimaryParser} {s : Progress} {mid rest : List Lexeme} {least : Nat}
  {left left' : Expr}

/-- The loop over operators gets to an operand, and stops after it. -/
theorem Advances.overflows (hfactor : Shrinks (factor primary))
    (h : Advances primary least left left' s mid)
    (hmore : ∀ s', s'.lexemes = mid → s'.ending = s.ending →
      Overflows (chain primary least left') s' rest) :
    Overflows (chain primary least left) s rest := by
  obtain ⟨bound, s', hbound, heq, hls, he⟩ := h.2 _ (Nat.le_refl _)
  have hchain : chain primary least left s = chain primary least left' s' := by
    rw [chain_apply, chain_apply, heq]
    exact operators_bound_irrelevant hfactor least left' (by rwa [hls]) (Nat.le_refl _)
  unfold Overflows
  rw [hchain]
  exact hmore s' hls he

/-- The loop over operators takes an operator, and stops in the operand to the right of it. -/
theorem overflows_right {op : BinaryOp} (hfactor : Shrinks (factor primary))
    (hop : s.operator? = some op) (hpower : least ≤ op.power) {t : Token}
    (hseen : s.stream.lookahead = .ok (.token t))
    (h : Overflows (operation primary (op.power + 1)) s.tail rest) :
    Overflows (chain primary least left) s rest := by
  have hround : chain primary least left s = (do
      let operand ← holding left (factor primary)
      let right ← holding left (chain primary (op.power + 1) operand)
      chain primary least (.binary left op right)) s.tail := by
    have hpeek : holding left peek s = .ok (.token t) s :=
      holding_ok_iff.2 (peek_ok_iff.2 ⟨hseen, rfl⟩)
    rw [chain_eq hfactor, operatorRound, Parse.bind_of_ok hpeek,
      Progress.operator?_of_lookahead hseen, hop]
    simp only [if_neg (Nat.not_lt.2 hpower)]
    rw [Parse.bind_of_ok advance_eq]
  unfold Overflows
  rw [hround]
  cases hoperand : factor primary s.tail with
  | error f s₁ =>
    have hfails : operation primary (op.power + 1) s.tail = .error f s₁ :=
      Parse.bind_of_error hoperand _
    obtain ⟨f', s₁', seen, hfails', h⟩ := h
    obtain ⟨rfl, rfl⟩ := EStateM.Result.error.inj (hfails.symm.trans hfails')
    have hfactor : Overflows (factor primary) s.tail rest := ⟨f, s₁, seen, hoperand, h⟩
    exact (hfactor.holding left).bind
  | ok operand s₁ =>
    have hchain :
        operation primary (op.power + 1) s.tail = chain primary (op.power + 1) operand s₁ :=
      Parse.bind_of_ok hoperand _
    rw [Parse.bind_of_ok (holding_ok_iff.2 hoperand)]
    have h' : Overflows (chain primary (op.power + 1) operand) s₁ rest := by
      unfold Overflows at h ⊢
      rwa [hchain] at h
    exact (h'.holding left).bind

end Operators

/-! ## Phrases -/

/-- Where the parser stops on the lexemes that a phrase derives from, if it lacks room: the lexemes
`rest` are left then. Of what follows an operand it is the loop over operators that stops. -/
def Overfull (catalog : Catalog) (room : Nat) (s : Progress) (rest : List Lexeme) : Phrase → Prop
  | .expression => Overflows (expression (primary catalog room)) s rest
  | .moreTerms => ∀ left, Overflows (chain (primary catalog room) 0 left) s rest
  | .term => ∀ least ≤ 60, Overflows (operation (primary catalog room) least) s rest
  | .moreFactors => ∀ left, ∀ least ≤ 60, Overflows (chain (primary catalog room) least left) s rest
  | .factor => Overflows (factor (primary catalog room)) s rest
  | .primary accepts => Overflows (primary catalog room accepts) s rest
  | .arguments => Overflows (arguments (primary catalog room)) s rest
  | .moreArguments => Overflows (furtherArguments (primary catalog room)) s rest
  | .form pieces => Overflows (fill (primary catalog room) pieces) s rest

section Phrases

variable {room : Nat} {s : Progress} {l : Lexeme} {ls mid rest stop : List Lexeme}

/-- Where a primary starts and there is no room at all, the parser stops at once. -/
theorem overflows_at_once {accepts : PrimaryClass} (hls : s.lexemes = l :: ls) :
    Overflows (primary catalog 0 accepts) s (l :: ls) := by
  obtain ⟨t, ts, ht, -⟩ := Progress.exists_token hls
  have hseen := Progress.lookahead_cons ht
  refine ⟨{ error := .tooDeep t.start }, s, .token t, ?_, hls, hseen, rfl⟩
  rw [primary, Parse.bind_of_ok (peek_ok_iff.2 ⟨hseen, rfl⟩)]
  rfl

/-- The term is taken, and the terms after it are too deep. -/
theorem overfull_expression {e : Expr} (hfirst : Complete catalog room s mid .term e)
    (hmore : ∀ s', s'.lexemes = mid → s'.ending = s.ending →
      Overfull catalog room s' stop .moreTerms) : Overfull catalog room s stop .expression := by
  obtain ⟨operand, mid', hfactor, hloop⟩ := hfirst
  refine Overflows.after (f := chain (primary catalog room) 0) hfactor fun s₁ hls₁ he₁ => ?_
  exact (hloop s₁ 0 (by omega) hls₁ he₁).overflows (factor_shrinks catalog room)
    fun s₂ hls₂ he₂ => hmore s₂ hls₂ (by rw [he₂, he₁]) e

/-- The operand of a term is taken, and the factors after it are too deep. -/
theorem overfull_term {e : Expr} (hfirst : Complete catalog room s mid .factor e)
    (hmore : ∀ s', s'.lexemes = mid → s'.ending = s.ending →
      Overfull catalog room s' stop .moreFactors) : Overfull catalog room s stop .term :=
  fun least hleast => Overflows.after (f := chain (primary catalog room) least) hfirst
    fun s₁ hls₁ he₁ => hmore s₁ hls₁ he₁ e least hleast

/-- An operator and a term that is too deep. -/
theorem overfull_nextTerm {op : BinaryOp} (hls : s.lexemes = l :: ls)
    (hop : l.kind.operator? = some op) (hadd : op.isAdditive = true)
    (hnext : Overfull catalog room s.tail stop .term) :
    Overfull catalog room s stop .moreTerms := by
  intro left
  obtain ⟨t, ts, ht, rfl⟩ := Progress.exists_token hls
  have hs : s.operator? = some op := by
    rw [Progress.operator?, hls]
    exact hop
  have hpower : op.power + 1 ≤ 60 := by rw [op.power_eq, if_pos hadd]; omega
  exact overflows_right (factor_shrinks catalog room) hs (Nat.zero_le _)
    (Progress.lookahead_cons ht) (hnext _ hpower)

/-- An operator and a factor that is too deep. -/
theorem overfull_nextFactor {op : BinaryOp} (hls : s.lexemes = l :: ls)
    (hop : l.kind.operator? = some op) (hmul : op.isAdditive = false)
    (hnext : Overfull catalog room s.tail stop .factor) :
    Overfull catalog room s stop .moreFactors := by
  intro left least hleast
  obtain ⟨t, ts, ht, rfl⟩ := Progress.exists_token hls
  have hs : s.operator? = some op := by
    rw [Progress.operator?, hls]
    exact hop
  have hpower : least ≤ op.power := by simpa [op.power_eq, hmul] using hleast
  exact overflows_right (factor_shrinks catalog room) hs hpower (Progress.lookahead_cons ht)
    (Overflows.bind hnext)

theorem overfull_signed {sign : Sign} (hls : s.lexemes = l :: ls)
    (hsign : l.kind.sign? = some sign)
    (hoperand : ∀ s', s'.lexemes = ls → s'.ending = s.ending →
      Overfull catalog room s' stop (.primary .arithmetic)) :
    Overfull catalog room s stop .factor := by
  obtain ⟨t, rfl, hpeek⟩ := Yields.peek hls
  refine Overflows.after hpeek fun s₁ hls₁ he₁ => ?_
  have hseen : (Ahead.token t).kind?.bind TokenKind.sign? = some sign := hsign
  rw [hseen]
  refine Overflows.after (Yields.advance hls₁) fun s₂ hls₂ he₂ => ?_
  exact Overflows.bind (hoperand s₂ hls₂ (by rw [he₂, he₁]))

theorem overfull_unsigned (hls : s.lexemes = l :: ls) (hsign : l.kind.sign? = none)
    (hoperand : ∀ s', s'.lexemes = l :: ls → s'.ending = s.ending →
      Overfull catalog room s' stop (.primary .arithmetic)) :
    Overfull catalog room s stop .factor := by
  obtain ⟨t, rfl, hpeek⟩ := Yields.peek hls
  refine Overflows.after hpeek fun s₁ hls₁ he₁ => ?_
  have hseen : (Ahead.token t).kind?.bind TokenKind.sign? = none := hsign
  rw [hseen]
  exact hoperand s₁ hls₁ he₁

/-- Arguments of which the first is too deep, or those after it are. -/
theorem overfull_arguments (hls : s.lexemes = l :: ls) (hl : l.kind ≠ .parenRight)
    (h : ∀ s', s'.lexemes = l :: ls → s'.ending = s.ending →
      Overfull catalog room s' stop .expression ∨
      ∃ e mid, Complete catalog room s' mid .expression e ∧
        ∀ s'', s''.lexemes = mid → s''.ending = s.ending →
          Overfull catalog room s'' stop .moreArguments) :
    Overfull catalog room s stop .arguments := by
  obtain ⟨t, rfl, hpeek⟩ := Yields.peek hls
  rw [Overfull, arguments_eq]
  refine Overflows.after hpeek fun s₁ hls₁ he₁ => ?_
  rw [if_neg (by simpa [Ahead.kind?, Ahead.token?, Token.lexeme] using hl)]
  obtain hfirst | ⟨e, mid, hfirst, hmore⟩ := h s₁ hls₁ he₁
  · exact Overflows.bind hfirst
  · refine Overflows.after hfirst fun s₂ hls₂ he₂ => ?_
    have hmore₂ := hmore s₂ hls₂ (by rw [he₂, he₁])
    exact Overflows.bind (Overflows.holding hmore₂ (.argument e))

/-- A comma and an argument that is too deep, or arguments after it that are. -/
theorem overfull_moreArguments (hls : s.lexemes = l :: ls) (hl : l.kind = .comma)
    (h : Overfull catalog room s.tail stop .expression ∨
      ∃ e mid, Complete catalog room s.tail mid .expression e ∧
        ∀ s', s'.lexemes = mid → s'.ending = s.ending →
          Overfull catalog room s' stop .moreArguments) :
    Overfull catalog room s stop .moreArguments := by
  have hnext : NextIs .comma s.lexemes := by
    rw [hls]
    exact congrArg some hl
  have hround : furtherArguments (primary catalog room) s = (do
      let arg ← expression (primary catalog room)
      return arg :: (← holding (.argument arg) (furtherArguments (primary catalog room))))
        s.tail := by
    have hloop := furtherArguments_eq (expression_shrinks catalog room)
    have hstep := congrFun hloop s
    rw [argumentRound, Parse.bind_of_ok (takeIf_of_next hnext)] at hstep
    exact hstep
  unfold Overfull Overflows
  rw [hround]
  obtain hfirst | ⟨e, mid, hfirst, hmore⟩ := h
  · exact Overflows.bind hfirst
  · refine Overflows.after hfirst fun s₁ hls₁ he₁ => ?_
    have hmore₁ := hmore s₁ hls₁ (by rw [he₁, s.ending_tail])
    exact Overflows.bind (Overflows.holding hmore₁ (.argument e))

theorem overfull_paren (hls : s.lexemes = l :: ls) (hl : l.kind = .parenLeft)
    (hinner : ∀ s', s'.lexemes = ls → s'.ending = s.ending →
      Overfull catalog room s' stop .expression) :
    Overfull catalog (room + 1) s stop (.primary .arithmetic) := by
  obtain ⟨t, rfl, hpeek⟩ := Yields.peek hls
  refine Overflows.after hpeek fun s₁ hls₁ he₁ => ?_
  have hk : t.kind = .parenLeft := hl
  simp only [hk]
  refine Overflows.after (Yields.advance hls₁) fun s₂ hls₂ he₂ => ?_
  exact Overflows.bind (hinner s₂ hls₂ (by rw [he₂, he₁]))

/-- A name with a parenthesis after it, and what is between the parentheses is too deep. -/
theorem overfull_functionCall {accepts : PrimaryClass} {left : Lexeme}
    (hls : s.lexemes = l :: left :: ls) (hl : l.kind = .identifier) (hleft : left.kind = .parenLeft)
    (hs : s.Readable)
    (hcall : ∀ t s', t.lexeme = l → s'.lexemes = l :: left :: ls → s'.ending = s.ending →
      Overflows (functionCall catalog (primary catalog room) t) s' stop) :
    Overfull catalog (room + 1) s stop (.primary accepts) := by
  obtain ⟨t, rfl, hpeek⟩ := Yields.peek hls
  refine Overflows.after hpeek fun s₁ hls₁ he₁ => ?_
  have hk : t.kind = .identifier := hl
  simp only [hk]
  obtain ⟨second, hsecond, hpeek₂⟩ := Yields.peekSecond (hs.of_ending he₁)
  refine Overflows.after hpeek₂ fun s₂ hls₂ he₂ => ?_
  rw [hls₁] at hsecond hls₂
  rw [if_pos (by rw [hsecond]; simp [hleft])]
  exact hcall t s₂ rfl hls₂ (by rw [he₂, he₁])

theorem overfull_call {accepts : PrimaryClass} {left : Lexeme} {function : Builtin}
    (hls : s.lexemes = l :: left :: ls) (hl : l.kind = .identifier) (hleft : left.kind = .parenLeft)
    (hb : function.name = foldCase l.text) (hs : s.Readable)
    (hargs : ∀ s', s'.lexemes = ls → s'.ending = s.ending →
      Overfull catalog room s' stop .arguments) :
    Overfull catalog (room + 1) s stop (.primary accepts) := by
  refine overfull_functionCall hls hl hleft hs fun t s₁ ht hls₁ he₁ => ?_
  subst ht
  have hname : Builtin.ofName? t.text = some function := Builtin.ofName?_eq_some_iff.2 hb
  rw [functionCall]
  simp only [hname]
  refine Overflows.after (Yields.callHead hls₁ hl hleft) fun s₂ hls₂ he₂ => ?_
  exact Overflows.bind (hargs s₂ hls₂ (by rw [he₂, he₁]))

theorem overfull_extension {accepts : PrimaryClass} {left : Lexeme} {entry : Entry}
    (hls : s.lexemes = l :: left :: ls) (hl : l.kind = .identifier) (hleft : left.kind = .parenLeft)
    (hb : ∀ function : Builtin, function.name ≠ foldCase l.text)
    (hf : catalog.find? l.text = some entry) (hs : s.Readable)
    (hpieces : ∀ s', s'.lexemes = ls → s'.ending = s.ending →
      Overfull catalog room s' stop (.form entry.extension.form)) :
    Overfull catalog (room + 1) s stop (.primary accepts) := by
  refine overfull_functionCall hls hl hleft hs fun t s₁ ht hls₁ he₁ => ?_
  subst ht
  have hname : Builtin.ofName? t.text = none := Builtin.ofName?_eq_none_iff.2 hb
  have hentry : catalog.find? t.text = some entry := hf
  rw [functionCall]
  simp only [hname, hentry]
  -- noting the call leaves the lexemes as they are
  refine Overflows.after ⟨_, rfl, hls₁, rfl, Nat.le_of_eq (by rw [hls₁])⟩ fun s₂ hls₂ he₂ => ?_
  refine Overflows.bind (Overflows.after (Yields.callHead hls₂ hl hleft) fun s₃ hls₃ he₃ => ?_)
  exact hpieces s₃ hls₃ (by rw [he₃, he₂, he₁])

/-- A slot is filled, and the pieces after it are too deep. -/
theorem overfull_afterSlot {p : Parse Expr} {e : Expr} {pieces : List Piece}
    (hslot : Yields p s e mid)
    (hmore : ∀ s', s'.lexemes = mid → s'.ending = s.ending →
      Overfull catalog room s' stop (.form pieces)) :
    Overflows (do
      let slot ← p
      let (words, slots) ← holding slot (fill (primary catalog room) pieces)
      return (words, slot :: slots)) s stop := by
  refine Overflows.after hslot fun s₁ hls₁ he₁ => ?_
  have hfill : Overflows (fill (primary catalog room) pieces) s₁ stop := hmore s₁ hls₁ he₁
  exact (hfill.holding e).bind

end Phrases

/-- **With room for fewer levels than a derivation has, the parser stops at the first lexeme that
begins a primary one level too deep.** -/
theorem Derivation.overfull {p : Phrase} {ls rest : List Lexeme} (d : Derivation catalog p ls rest)
    (hp : p.Proper) (hclosed : p.Closed rest) {room outer level : Nat} (hroom : room < d.nesting)
    (hlevel : level = outer + room + 1) {s : Progress} (hls : s.lexemes = ls) (hs : s.Readable) :
    Overfull catalog room s (ls.drop ((d.levels outer).idxOf (some level))) p := by
  induction d generalizing room outer s with
  | expression first more ihfirst ihmore =>
    obtain ⟨hfirst, hdrop⟩ | ⟨hfirst, hmore, hdrop⟩ := first.first_or_second more hroom hlevel
    · rw [levels, hdrop]
      exact ihfirst trivial (closed_term more hclosed) hfirst hlevel hls hs 0 (Nat.zero_le _)
    · rw [levels, hdrop]
      exact overfull_expression
        (first.complete trivial (closed_term more hclosed) hfirst hls hs)
        fun s' hls' he' => ihmore trivial hclosed hmore hlevel hls' (hs.of_ending he')
  | moreTerms sign op isOp next more ihnext ihmore =>
    have hmid := closed_term more hclosed
    have hls₁ := s.lexemes_tail
    rw [hls, List.tail_cons] at hls₁
    have hs₁ : s.tail.Readable := hs.of_ending s.ending_tail
    obtain ⟨hnext, hdrop⟩ | ⟨hnext, hmore, hdrop⟩ := next.first_or_second more hroom hlevel
    · rw [levels, drop_idxOf_none, hdrop]
      exact overfull_nextTerm hls isOp.operator?_eq isOp.isAdditive
        (ihnext trivial hmid hnext hlevel hls₁ hs₁)
    · rw [levels, drop_idxOf_none, hdrop]
      intro left
      have hadv : Complete catalog room s _ .moreTerms fun left => id (.binary left op next.tree) :=
        complete_moreTerms hls isOp.operator?_eq isOp.isAdditive
          (next.complete trivial hmid hnext hls₁ hs₁)
          (fun _ hls' _ _ => .refl hls') hs hmid
      exact (hadv left).overflows (factor_shrinks catalog room) fun s' hls' he' =>
        ihmore trivial hclosed hmore hlevel hls' (hs.of_ending he') _
  | term first more ihfirst ihmore =>
    have hmid := closed_factor more hclosed
    obtain ⟨hfirst, hdrop⟩ | ⟨hfirst, hmore, hdrop⟩ := first.first_or_second more hroom hlevel
    · rw [levels, hdrop]
      exact fun least _ => Overflows.bind (ihfirst trivial hmid hfirst hlevel hls hs)
    · rw [levels, hdrop]
      exact overfull_term (first.complete trivial hmid hfirst hls hs)
        fun s' hls' he' => ihmore trivial hclosed hmore hlevel hls' (hs.of_ending he')
  | moreFactors sign op isOp next more ihnext ihmore =>
    have hmid := closed_factor more hclosed
    have hls₁ := s.lexemes_tail
    rw [hls, List.tail_cons] at hls₁
    have hs₁ : s.tail.Readable := hs.of_ending s.ending_tail
    obtain ⟨hnext, hdrop⟩ | ⟨hnext, hmore, hdrop⟩ := next.first_or_second more hroom hlevel
    · rw [levels, drop_idxOf_none, hdrop]
      exact overfull_nextFactor hls isOp.operator?_eq isOp.isAdditive
        (ihnext trivial hmid hnext hlevel hls₁ hs₁)
    · rw [levels, drop_idxOf_none, hdrop]
      intro left least hleast
      have hadv : Complete catalog room s _ .moreFactors
          fun left => id (.binary left op next.tree) :=
        complete_moreFactors hls isOp.operator?_eq isOp.isAdditive
          (next.complete trivial hmid hnext hls₁ hs₁)
          (fun _ hls' _ _ _ _ => .refl hls') hs
      exact (hadv left least hleast).overflows (factor_shrinks catalog room) fun s' hls' he' =>
        ihmore trivial hclosed hmore hlevel hls' (hs.of_ending he') _ least hleast
  | signed mark sign isSign operand ih =>
    rw [levels, drop_idxOf_none]
    exact overfull_signed hls (isSign_iff.1 isSign) fun s' hls' he' =>
      ih trivial hclosed hroom hlevel hls' (hs.of_ending he')
  | unsigned operand ih =>
    obtain ⟨l, more, rfl, hsign, -⟩ := operand.head_of_primary
    exact overfull_unsigned hls hsign fun s' hls' he' =>
      ih trivial hclosed hroom hlevel hls' (hs.of_ending he')
  | paren left right isLeft isRight inner ih =>
    cases room with
    | zero =>
      subst hlevel
      rw [drop_idxOf_primary]
      exact overflows_at_once hls
    | succ room =>
      have hinner : room < inner.nesting := Nat.lt_of_succ_lt_succ hroom
      rw [levels, drop_idxOf_cons (by simp; omega),
        inner.drop_idxOf_first (inner.mem_levels_iff.2 (by omega))]
      exact overfull_paren hls isLeft fun s' hls' he' =>
        ih trivial (Phrase.closed_cons (by rw [isRight]; rfl)) hinner (by omega) hls'
          (hs.of_ending he')
  | call l left right function isName isLeft isRight builtin args ih =>
    cases room with
    | zero =>
      subst hlevel
      rw [drop_idxOf_primary]
      exact overflows_at_once hls
    | succ room =>
      have hargs : room < args.nesting := Nat.lt_of_succ_lt_succ hroom
      rw [levels, drop_idxOf_cons (by simp; omega), drop_idxOf_none,
        args.drop_idxOf_first (args.mem_levels_iff.2 (by omega))]
      exact overfull_call hls isName isLeft builtin hs fun s' hls' he' =>
        ih trivial (Phrase.closed_cons (by rw [isRight]; rfl)) hargs (by omega) hls'
          (hs.of_ending he')
  | extension l left entry isName isLeft notBuiltin found production pieces ih =>
    obtain rfl := production_iff.1 production
    cases room with
    | zero =>
      subst hlevel
      rw [drop_idxOf_primary]
      exact overflows_at_once hls
    | succ room =>
      have hpieces : room < pieces.nesting := Nat.lt_of_succ_lt_succ hroom
      rw [levels, drop_idxOf_cons (by simp; omega), drop_idxOf_none]
      exact overfull_extension hls isName isLeft notBuiltin found hs fun s' hls' he' =>
        ih (separated_form _) (fun _ _ => rfl) hpieces (by omega) hls' (hs.of_ending he')
  | number | name | string | parameter | path =>
    -- these have one level, so there is no room at all
    obtain rfl : room = 0 := Nat.lt_one_iff.1 hroom
    subst hlevel
    rw [drop_idxOf_primary]
    exact overflows_at_once hls
  | noTerm | noFactor | noArgument | noMoreArgument | formEnd =>
    exact absurd hroom (Nat.not_lt_zero _)
  | arguments first more ihfirst ihmore =>
    obtain ⟨l, ls', rfl, hl⟩ := first.head_of_expression
    have hmid := closed_argument more hclosed.moreArguments
    obtain ⟨hfirst, hdrop⟩ | ⟨hfirst, hmore, hdrop⟩ := first.first_or_second more hroom hlevel
    · rw [levels, hdrop]
      exact overfull_arguments hls hl fun s' hls' he' =>
        .inl (ihfirst trivial hmid hfirst hlevel hls' (hs.of_ending he'))
    · rw [levels, hdrop]
      exact overfull_arguments hls hl fun s' hls' he' => .inr ⟨_, _,
        first.complete trivial hmid hfirst hls' (hs.of_ending he'),
        fun s'' hls'' he'' =>
          ihmore trivial hclosed.moreArguments hmore hlevel hls'' (hs.of_ending he'')⟩
  | moreArguments comma isComma next more ihnext ihmore =>
    have hmid := closed_argument more hclosed
    have hls₁ := s.lexemes_tail
    rw [hls, List.tail_cons] at hls₁
    have hs₁ : s.tail.Readable := hs.of_ending s.ending_tail
    obtain ⟨hnext, hdrop⟩ | ⟨hnext, hmore, hdrop⟩ := next.first_or_second more hroom hlevel
    · rw [levels, drop_idxOf_none, hdrop]
      exact overfull_moreArguments hls isComma (.inl (ihnext trivial hmid hnext hlevel hls₁ hs₁))
    · rw [levels, drop_idxOf_none, hdrop]
      exact overfull_moreArguments hls isComma (.inr ⟨_, _,
        next.complete trivial hmid hnext hls₁ hs₁,
        fun s' hls' he' => ihmore trivial hclosed hmore hlevel hls' (hs.of_ending he')⟩)
  | word l isName more ih =>
    obtain ⟨t, rfl, htake⟩ := Yields.take hls isName
    rw [levels, drop_idxOf_none]
    refine Overflows.after htake fun s₁ hls₁ he₁ => ?_
    exact Overflows.bind (ih hp hclosed hroom hlevel hls₁ (hs.of_ending he₁))
  | keyword l isName more ih =>
    rw [levels, drop_idxOf_none]
    exact Overflows.after (Yields.discard_take hls isName) fun s₁ hls₁ he₁ =>
      ih hp hclosed hroom hlevel hls₁ (hs.of_ending he₁)
  | comma l isComma more ih =>
    rw [levels, drop_idxOf_none]
    exact Overflows.after (Yields.discard_take hls isComma) fun s₁ hls₁ he₁ =>
      ih hp hclosed hroom hlevel hls₁ (hs.of_ending he₁)
  | expressionSlot slot more ihslot ihmore =>
    obtain ⟨hnext, hproper⟩ : _ ∧ _ := by simpa [Phrase.Proper, separated] using hp
    have hmid := closed_slot more hnext
    obtain ⟨hslot, hdrop⟩ | ⟨hslot, hmore, hdrop⟩ := slot.first_or_second more hroom hlevel
    · rw [levels, hdrop]
      exact Overflows.bind (ihslot trivial hmid hslot hlevel hls hs)
    · rw [levels, hdrop]
      exact overfull_afterSlot (slot.complete trivial hmid hslot hls hs) fun s' hls' he' =>
        ihmore hproper hclosed hmore hlevel hls' (hs.of_ending he')
  | primarySlot slot more ihslot ihmore =>
    obtain ⟨hnext, hproper⟩ : _ ∧ _ := by simpa [Phrase.Proper, separated] using hp
    have hmid := closed_slot more hnext
    obtain ⟨hslot, hdrop⟩ | ⟨hslot, hmore, hdrop⟩ := slot.first_or_second more hroom hlevel
    · rw [levels, hdrop]
      exact Overflows.bind (ihslot trivial hmid.primary hslot hlevel hls hs)
    · rw [levels, hdrop]
      exact overfull_afterSlot (slot.complete trivial hmid.primary hslot hls hs) fun s' hls' he' =>
        ihmore hproper hclosed hmore hlevel hls' (hs.of_ending he')

end Dql
