import Dql.Proofs.Completeness
import Dql.Proofs.Loops
import Dql.Proofs.Rendering

/-!
# One parser over two texts

A parser decides by the kinds of tokens, and by the names of calls with letter case ignored. Over
two texts whose tokens are alike it does the same, token by token. One of the texts may also break
off, by an error of the scanner: then the parser does the same up to there, and fails by that error.

* `Alike` - lexemes that are the same but for the letter case of the names of calls;
* `Mirrors` - two states with such lexemes ahead;
* `MirroredAt` - the outcomes of two parsers, each in its own state;
* `Mirrored` - the outcomes are alike in all states that mirror each other.

Principal results: `primary_mirrored`, by induction on the room, and `wholeExpression_mirrored`.
-/

namespace Dql

variable {α β γ δ : Type} {cut : Option LexicalError} {s s' : Progress}

/-! ## Alike lexemes -/

/-- Names that are the same if letter case is ignored. -/
def Lexeme.SameName (l l' : Lexeme) : Prop :=
  l.kind = .identifier ∧ l'.kind = .identifier ∧ foldCase l.text = foldCase l'.text

instance (l l' : Lexeme) : Decidable (l.SameName l') := inferInstanceAs (Decidable (_ ∧ _))

/-- Lexemes that are the same one by one, but for the letter case of names right before an opening
parenthesis. -/
def Alike : List Lexeme → List Lexeme → Prop
  | [], [] => True
  | l :: ls, l' :: ls' => (l = l' ∨ l.SameName l' ∧ NextIs .parenLeft ls) ∧ Alike ls ls'
  | [], _ :: _ | _ :: _, [] => False

instance Alike.decidable : (ls ls' : List Lexeme) → Decidable (Alike ls ls')
  | [], [] => .isTrue trivial
  | _ :: ls, _ :: ls' =>
    have := decidable ls ls'
    inferInstanceAs (Decidable (_ ∧ _))
  | [], _ :: _ | _ :: _, [] => .isFalse id

namespace Alike

variable {l l' : Lexeme} {ls ls' : List Lexeme}

theorem refl : (ls : List Lexeme) → Alike ls ls
  | [] => trivial
  | _ :: ls => ⟨.inl rfl, refl ls⟩

theorem length_eq : {ls ls' : List Lexeme} → Alike ls ls' → ls.length = ls'.length
  | [], [], _ => rfl
  | _ :: _, _ :: _, h => congrArg (· + 1) h.2.length_eq

theorem tail : {ls ls' : List Lexeme} → Alike ls ls' → Alike ls.tail ls'.tail
  | [], [], _ => trivial
  | _ :: _, _ :: _, h => h.2

/-- Lexemes that come next are of the same kind and, letter case ignored, have the same text. -/
theorem head (h : Alike (l :: ls) (l' :: ls')) :
    l.kind = l'.kind ∧ foldCase l.text = foldCase l'.text := by
  obtain ⟨rfl | ⟨⟨hl, hl', hfold⟩, -⟩, -⟩ := h
  · exact ⟨rfl, rfl⟩
  · exact ⟨hl.trans hl'.symm, hfold⟩

end Alike

/-- What is seen is of the same kind: the end of the text both times, or tokens of one kind. -/
theorem Ahead.same_kind {seen seen' : Ahead} (h : seen.kind? = seen'.kind?) :
    (∃ n n', seen = .endOfText n ∧ seen' = .endOfText n') ∨
      ∃ t t', seen = .token t ∧ seen' = .token t' ∧ t.kind = t'.kind := by
  cases seen with
  | endOfText n =>
    cases seen' with
    | endOfText n' => exact .inl ⟨n, n', rfl, rfl⟩
    | token t' => cases h
  | token t =>
    cases seen' with
    | endOfText n' => cases h
    | token t' => exact .inr ⟨t, t', rfl, rfl, Option.some.inj h⟩

/-! ## States that mirror each other -/

/-- The state `s'` mirrors the state `s`: the lexemes ahead are alike, and both texts can be read to
their ends. With a `cut` the text of `s'` breaks off by this error instead, and the lexemes are
alike up to there. -/
structure Mirrors (cut : Option LexicalError) (s s' : Progress) : Prop where
  alike : ∃ beyond, Alike s.lexemes (s'.lexemes ++ beyond) ∧ (cut = none → beyond = [])
  readable : cut = none → s.Readable ∧ s'.Readable
  broken : ∀ cause, cut = some cause → s'.ending = .fault cause

namespace Mirrors

theorem length_le (h : Mirrors cut s s') : s'.lexemes.length ≤ s.lexemes.length := by
  obtain ⟨beyond, halike, -⟩ := h.alike
  rw [halike.length_eq, List.length_append]
  exact Nat.le_add_right _ _

/-- Where neither text breaks off, there are as many lexemes ahead. -/
theorem length_eq (h : Mirrors none s s') : s.lexemes.length = s'.lexemes.length := by
  obtain ⟨beyond, halike, hbeyond⟩ := h.alike
  rw [halike.length_eq, hbeyond rfl, List.append_nil]

theorem tail (h : Mirrors cut s s') : Mirrors cut s.tail s'.tail := by
  obtain ⟨beyond, halike, hbeyond⟩ := h.alike
  constructor
  · simp only [Progress.lexemes_tail]
    have htail := halike.tail
    cases hls : s'.lexemes with
    | nil =>
      rw [hls, List.nil_append] at htail
      refine ⟨beyond.tail, htail, fun hcut => ?_⟩
      rw [hbeyond hcut]
      rfl
    | cons l ls =>
      rw [hls] at htail
      exact ⟨beyond, htail, hbeyond⟩
  · intro hcut
    obtain ⟨hs, hs'⟩ := h.readable hcut
    exact ⟨hs.of_ending s.ending_tail, hs'.of_ending s'.ending_tail⟩
  · intro cause hcut
    exact s'.ending_tail.trans (h.broken cause hcut)

/-- Either the text breaks off here, or the lexemes that come next are alike. -/
theorem next (h : Mirrors cut s s') :
    (∃ cause, cut = some cause ∧ s'.stream.lookahead = .error cause) ∨
      ∃ seen seen', s.stream.lookahead = .ok seen ∧ s'.stream.lookahead = .ok seen' ∧
        seen.kind? = seen'.kind? := by
  obtain ⟨beyond, halike, hbeyond⟩ := h.alike
  cases hahead : s'.stream.ahead with
  | cons t' ts' =>
    right
    have hls' : s'.lexemes = t'.lexeme :: ts'.map Token.lexeme := by
      rw [Progress.lexemes, hahead]
      rfl
    rw [hls', List.cons_append] at halike
    cases hls : s.lexemes with
    | nil =>
      rw [hls] at halike
      exact halike.elim
    | cons l ls =>
      obtain ⟨t, ts, ht, rfl⟩ := Progress.exists_token hls
      rw [hls] at halike
      exact ⟨.token t, .token t', Progress.lookahead_cons ht, Progress.lookahead_cons hahead,
        congrArg some halike.head.1⟩
  | nil =>
    have hls' : s'.lexemes = [] := by
      rw [Progress.lexemes, hahead]
      rfl
    cases cut with
    | some cause =>
      left
      have hfault : s'.stream.ending = .fault cause := h.broken cause rfl
      exact ⟨cause, rfl, by simp only [Stream.lookahead, hahead, hfault]⟩
    | none =>
      right
      obtain ⟨⟨n, hn⟩, n', hn'⟩ := h.readable rfl
      obtain ⟨seen, hseen, hkind⟩ := Progress.exists_lookahead hn
      obtain ⟨seen', hseen', hkind'⟩ := Progress.exists_lookahead hn'
      refine ⟨seen, seen', hseen, hseen', ?_⟩
      have hls : s.lexemes = [] := by
        have hlen := halike.length_eq
        rw [hls', hbeyond rfl] at hlen
        exact List.length_eq_zero_iff.1 hlen
      rw [hkind, hkind', hls, hls']

/-- Tokens that come next have the same text, unless they are the names of calls. -/
theorem token (h : Mirrors cut s s') {t t' : Token} (ht : s.stream.lookahead = .ok (.token t))
    (ht' : s'.stream.lookahead = .ok (.token t')) :
    foldCase t.text = foldCase t'.text ∧
      (t.lexeme = t'.lexeme ∨ t.kind = .identifier ∧ NextIs .parenLeft s.tail.lexemes) := by
  obtain ⟨beyond, halike, -⟩ := h.alike
  rw [Progress.lexemes_of_lookahead ht, Progress.lexemes_of_lookahead ht', List.cons_append]
    at halike
  refine ⟨halike.head.2, ?_⟩
  obtain ⟨hsame | ⟨⟨hname, -⟩, hcall⟩, -⟩ := halike
  · exact .inl hsame
  · exact .inr ⟨hname, hcall⟩

/-- What is seen is the same, letter case ignored. -/
theorem seen (h : Mirrors cut s s') {seen seen' : Ahead} (hseen : s.stream.lookahead = .ok seen)
    (hseen' : s'.stream.lookahead = .ok seen') :
    (seen.token?.map fun t => foldCase t.text) = seen'.token?.map fun t => foldCase t.text := by
  have hkind : seen.kind? = seen'.kind? := by
    obtain ⟨cause, -, hbroken⟩ | ⟨seen₁, seen₁', h₁, h₁', hkind⟩ := h.next
    · rw [hseen'] at hbroken
      cases hbroken
    · rw [hseen] at h₁
      rw [hseen'] at h₁'
      cases h₁
      cases h₁'
      exact hkind
  obtain ⟨n, n', rfl, rfl⟩ | ⟨t, t', rfl, rfl, -⟩ := Ahead.same_kind hkind
  · rfl
  · exact congrArg some (h.token hseen hseen').1

/-- What is reported about calls does not matter. -/
theorem dispatched (h : Mirrors cut s s') (events events' : List Event) :
    Mirrors cut { s with dispatched := events } { s' with dispatched := events' } :=
  ⟨h.alike, h.readable, h.broken⟩

end Mirrors

/-! ## Outcomes -/

/-- Errors of the same kind, each about what is seen in its own state. -/
def ErrorsAlike (s s' : Progress) (e e' : ParseError) : Prop :=
  ∃ seen seen', s.stream.lookahead = .ok seen ∧ s'.stream.lookahead = .ok seen' ∧
    ((∃ expected, e = mismatch expected seen ∧ e' = mismatch expected seen') ∨
      e = .tooDeep seen.position ∧ e' = .tooDeep seen'.position)

/-- The outcomes of two parsers, each in its own state: both succeed with related results, or both
fail by errors that are alike; or the second one fails because its text breaks off. -/
inductive MirroredAt (cut : Option LexicalError) (R : α → β → Prop) (p : Parse α) (p' : Parse β)
    (s s' : Progress) : Prop where
  | ok {a : α} {a' : β} {s₁ s₁' : Progress} (run : p s = .ok a s₁) (run' : p' s' = .ok a' s₁')
      (related : R a a') (after : Mirrors cut s₁ s₁')
  | error {f f' : Failure} {s₁ s₁' : Progress} (run : p s = .error f s₁)
      (run' : p' s' = .error f' s₁') (alike : ErrorsAlike s₁ s₁' f.error f'.error)
      (after : Mirrors cut s₁ s₁')
  | broken {cause : LexicalError} {f' : Failure} {s₁' : Progress} (hcut : cut = some cause)
      (run' : p' s' = .error f' s₁') (lexical : f'.error = .lexical cause)

/-- In all states that mirror each other the outcomes are alike. -/
def Mirrored (cut : Option LexicalError) (R : α → β → Prop) (p : Parse α) (p' : Parse β) : Prop :=
  ∀ s s', Mirrors cut s s' → MirroredAt cut R p p' s s'

namespace MirroredAt

variable {R : α → β → Prop} {Q : γ → δ → Prop} {p q : Parse α} {p' q' : Parse β}
  {f : α → Parse γ} {f' : β → Parse δ}

/-- Only the outcomes matter. -/
theorem congr {s₁ s₁' : Progress} (hp : p s = q s₁) (hp' : p' s' = q' s₁')
    (h : MirroredAt cut R q q' s₁ s₁') : MirroredAt cut R p p' s s' := by
  cases h with
  | ok run run' related after => exact .ok (hp.trans run) (hp'.trans run') related after
  | error run run' alike after => exact .error (hp.trans run) (hp'.trans run') alike after
  | broken hcut run' lexical => exact .broken hcut (hp'.trans run') lexical

/-- What follows two parsers is compared only where both have succeeded. -/
theorem bind (h : MirroredAt cut R p p' s s')
    (hf : ∀ a a' s₁ s₁', p s = .ok a s₁ → p' s' = .ok a' s₁' → R a a' → Mirrors cut s₁ s₁' →
      MirroredAt cut Q (f a) (f' a') s₁ s₁') :
    MirroredAt cut Q (p >>= f) (p' >>= f') s s' := by
  cases h with
  | ok run run' related after =>
    exact congr (Parse.bind_of_ok run f) (Parse.bind_of_ok run' f')
      (hf _ _ _ _ run run' related after)
  | error run run' alike after =>
    exact .error (Parse.bind_of_error run f) (Parse.bind_of_error run' f') alike after
  | broken hcut run' lexical => exact .broken hcut (Parse.bind_of_error run' f') lexical

/-- What is noted about a failure leaves its error as it is. -/
theorem adapt (h : MirroredAt cut R p p' s s') {note note' : Failure → Failure}
    (hnote : ∀ g, (note g).error = g.error) (hnote' : ∀ g, (note' g).error = g.error) :
    MirroredAt cut R (p.adaptExcept note) (p'.adaptExcept note') s s' := by
  cases h with
  | ok run run' related after =>
    refine .ok ?_ ?_ related after
    · simp only [EStateM.adaptExcept, run]
    · simp only [EStateM.adaptExcept, run']
  | @error g g' s₁ s₁' run run' alike after =>
    have hrun : p.adaptExcept note s = .error (note g) s₁ := by
      simp only [EStateM.adaptExcept, run]
    have hrun' : p'.adaptExcept note' s' = .error (note' g') s₁' := by
      simp only [EStateM.adaptExcept, run']
    exact .error hrun hrun' (by rwa [hnote, hnote']) after
  | @broken cause g' s₁' hcut run' lexical =>
    have hrun : p'.adaptExcept note' s' = .error (note' g') s₁' := by
      simp only [EStateM.adaptExcept, run']
    exact .broken hcut hrun (by rw [hnote', lexical])

theorem holding (h : MirroredAt cut R p p' s s') (e : Fragment) :
    MirroredAt cut R (holding e p) (Dql.holding e p') s s' :=
  h.adapt (fun _ => rfl) fun _ => rfl

/-- A mismatch with what is seen in either state. -/
theorem mismatch {seen seen' : Ahead} (h : Mirrors cut s s') (hseen : s.stream.lookahead = .ok seen)
    (hseen' : s'.stream.lookahead = .ok seen') (expected : Expected) :
    MirroredAt cut R (Parse.fail (Dql.mismatch expected seen))
      (Parse.fail (Dql.mismatch expected seen')) s s' :=
  .error rfl rfl ⟨seen, seen', hseen, hseen', .inl ⟨expected, rfl, rfl⟩⟩ h

/-- Where both parsers fail, what follows them does not matter. -/
theorem bind_fails (h : MirroredAt cut (fun _ _ => False) p p' s s') :
    MirroredAt cut Q (p >>= f) (p' >>= f') s s' :=
  h.bind fun _ _ _ _ _ _ hfalse => hfalse.elim

end MirroredAt

namespace Mirrored

variable {R : α → β → Prop} {Q : γ → δ → Prop} {p : Parse α} {p' : Parse β}
  {f : α → Parse γ} {f' : β → Parse δ}

theorem pure {a : α} {a' : β} (h : R a a') : Mirrored cut R (pure a) (Pure.pure a') :=
  fun _ _ hs => .ok rfl rfl h hs

theorem bind (hp : Mirrored cut R p p') (hf : ∀ a a', R a a' → Mirrored cut Q (f a) (f' a')) :
    Mirrored cut Q (p >>= f) (p' >>= f') := fun s s' hs =>
  (hp s s' hs).bind fun a a' s₁ s₁' _ _ hr hs₁ => hf a a' hr s₁ s₁' hs₁

theorem holding (hp : Mirrored cut R p p') (e : Fragment) :
    Mirrored cut R (holding e p) (Dql.holding e p') := fun s s' hs => (hp s s' hs).holding e

theorem holdingAll (hp : Mirrored cut R p p') (es : List Expr) :
    Mirrored cut R (holdingAll es p) (Dql.holdingAll es p') := fun s s' hs =>
  (hp s s' hs).adapt (fun _ => rfl) fun _ => rfl

theorem discard (hp : Mirrored cut R p p') :
    Mirrored cut Eq (discard p : Parse Unit) (Functor.discard p') := hp.bind fun _ _ _ => pure rfl

/-! ### Steps over tokens -/

/-- What is seen in two states is of the same kind. -/
theorem peek : Mirrored cut (fun seen seen' => seen.kind? = seen'.kind?) peek peek := by
  intro s s' hs
  obtain ⟨cause, hcut, hbroken⟩ | ⟨seen, seen', hseen, hseen', hkind⟩ := hs.next
  · exact .broken hcut (peek_eq_error hbroken) rfl
  · exact .ok (peek_ok_iff.2 ⟨hseen, rfl⟩) (peek_ok_iff.2 ⟨hseen', rfl⟩) hkind hs

/-- What comes next is looked at, and decides how it goes on. -/
theorem peek_bind {f : Ahead → Parse γ} {f' : Ahead → Parse δ} (hs : Mirrors cut s s')
    (h : ∀ seen seen', s.stream.lookahead = .ok seen → s'.stream.lookahead = .ok seen' →
      seen.kind? = seen'.kind? → MirroredAt cut Q (f seen) (f' seen') s s') :
    MirroredAt cut Q (Dql.peek >>= f) (Dql.peek >>= f') s s' := by
  refine (peek s s' hs).bind fun seen seen' s₁ s₁' hrun hrun' hkind _ => ?_
  obtain ⟨hseen, rfl⟩ := peek_ok_iff.1 hrun
  obtain ⟨hseen', rfl⟩ := peek_ok_iff.1 hrun'
  exact h seen seen' hseen hseen' hkind

theorem peekSecond :
    Mirrored cut (fun seen seen' => seen.kind? = seen'.kind?) peekSecond peekSecond := by
  intro s s' hs
  obtain ⟨cause, hcut, hbroken⟩ | ⟨seen, seen', hseen, hseen', hkind⟩ := hs.tail.next
  · exact .broken hcut (peekSecond_eq_error hbroken) rfl
  · exact .ok (peekSecond_ok_iff.2 ⟨hseen, rfl⟩) (peekSecond_ok_iff.2 ⟨hseen', rfl⟩) hkind hs

theorem advance : Mirrored cut Eq advance advance := fun _ _ hs => .ok rfl rfl rfl hs.tail

theorem dispatch (name name' : Token) : Mirrored cut Eq (dispatch name) (dispatch name') :=
  fun _ _ hs => .ok (dispatch_eq name) (dispatch_eq name') rfl (hs.dispatched _ _)

theorem take (kind : TokenKind) : Mirrored cut (fun _ _ => True) (take kind) (take kind) := by
  intro s s' hs
  refine peek_bind hs fun seen seen' hseen hseen' hkind => ?_
  obtain ⟨n, n', rfl, rfl⟩ | ⟨t, t', rfl, rfl, hkinds⟩ := Ahead.same_kind hkind
  · exact .mismatch hs hseen hseen' _
  · by_cases hk : t'.kind = kind
    · simp only [hkinds, hk, ↓reduceIte]
      exact (advance.bind fun _ _ _ => pure trivial) s s' hs
    · simp only [hkinds, hk, ↓reduceIte]
      exact .mismatch hs hseen hseen' _

theorem discard_take (kind : TokenKind) :
    Mirrored cut Eq (Functor.discard (Dql.take kind) : Parse Unit)
      (Functor.discard (Dql.take kind)) :=
  (take kind).discard

/-- A token of another kind is not taken. -/
theorem take_fails {kind next : TokenKind} (hs : Mirrors cut s s') (hnext : NextIs next s.lexemes)
    (hne : next ≠ kind) :
    MirroredAt cut (fun _ _ => False) (Dql.take kind) (Dql.take kind) s s' := by
  cases take kind s s' hs with
  | ok run =>
    obtain ⟨hls, hk, -⟩ := lexemes_of_take run
    rw [hls] at hnext
    exact absurd ((Option.some.inj hnext).symm.trans hk) hne
  | error run run' alike after => exact .error run run' alike after
  | broken hcut run' lexical => exact .broken hcut run' lexical

theorem expectEnd : Mirrored cut Eq expectEnd expectEnd := by
  intro s s' hs
  refine peek_bind hs fun seen seen' hseen hseen' hkind => ?_
  obtain ⟨n, n', rfl, rfl⟩ | ⟨t, t', rfl, rfl, -⟩ := Ahead.same_kind hkind
  · exact pure rfl s s' hs
  · exact .mismatch hs hseen hseen' _

end Mirrored

/-! ## The grammar -/

section Grammar

variable {primary : PrimaryParser}

theorem factor_mirrored (hp : Mirrored cut Eq (primary .arithmetic) (primary .arithmetic)) :
    Mirrored cut Eq (factor primary) (factor primary) := by
  refine Mirrored.peek.bind fun seen seen' hkind => ?_
  rw [hkind]
  cases seen'.kind?.bind TokenKind.sign? with
  | none => exact hp
  | some sign =>
    refine Mirrored.advance.bind fun _ _ _ => hp.bind ?_
    rintro operand _ rfl
    exact .pure rfl

theorem operators_mirrored (hp : Mirrored cut Eq (primary .arithmetic) (primary .arithmetic)) :
    ∀ (bound least : Nat) (left : Expr), Mirrored cut Eq (operators primary bound least left)
      (operators primary bound least left)
  | 0, least, left => by
    rw [operators]
    refine (Mirrored.peek.holding left).bind fun seen seen' hkind => ?_
    rw [hkind]
    cases seen'.kind?.bind TokenKind.operator? with
    | none => exact .pure rfl
    | some op => simpa only [ite_self] using Mirrored.pure (Eq.refl left)
  | bound + 1, least, left => by
    rw [operators]
    refine (Mirrored.peek.holding left).bind fun seen seen' hkind => ?_
    rw [hkind]
    cases seen'.kind?.bind TokenKind.operator? with
    | none => exact .pure rfl
    | some op =>
      simp only
      split
      · exact .pure rfl
      · refine Mirrored.advance.bind fun _ _ _ => ((factor_mirrored hp).holding left).bind ?_
        rintro operand _ rfl
        refine ((operators_mirrored hp bound _ operand).holding left).bind ?_
        rintro right _ rfl
        exact operators_mirrored hp bound _ _

/-- A text that breaks off has fewer lexemes ahead, and the loop a smaller bound, which decides
nothing. -/
theorem expression_mirrored (hp : Mirrored cut Eq (primary .arithmetic) (primary .arithmetic))
    (hfactor : Shrinks (factor primary)) :
    Mirrored cut Eq (expression primary) (expression primary) := by
  rw [expression_eq]
  refine (factor_mirrored hp).bind ?_
  rintro operand _ rfl s s' hs
  refine .congr (chain_apply primary 0 operand s) ?_
    (operators_mirrored hp s.lexemes.length 0 operand s s' hs)
  rw [chain_apply]
  exact operators_bound_irrelevant hfactor 0 operand (Nat.le_refl _) hs.length_le

/-! ### Arguments -/

/-- As `MirroredAt`, or the second parser succeeds where its text breaks off: it takes a list to be
over that may well go on. -/
def MirroredOrShort (cut : Option LexicalError) (p p' : Parse α) (s s' : Progress) : Prop :=
  MirroredAt cut Eq p p' s s' ∨
    ∃ cause a s₁', cut = some cause ∧ p' s' = .ok a s₁' ∧ s₁'.stream.lookahead = .error cause

namespace MirroredOrShort

variable {R : γ → δ → Prop} {p p' q q' : Parse α}

theorem congr (hp : p s = q s) (hp' : p' s' = q' s') (h : MirroredOrShort cut q q' s s') :
    MirroredOrShort cut p p' s s' := by
  refine h.imp (MirroredAt.congr hp hp') ?_
  rintro ⟨cause, a, s₁', hcut, hrun, hbroken⟩
  exact ⟨cause, a, s₁', hcut, hp'.trans hrun, hbroken⟩

theorem after {q : Parse γ} {q' : Parse δ} {f : γ → Parse α} {f' : δ → Parse α}
    (h : MirroredAt cut R q q' s s')
    (hf : ∀ a a' s₁ s₁', R a a' → Mirrors cut s₁ s₁' → MirroredOrShort cut (f a) (f' a') s₁ s₁') :
    MirroredOrShort cut (q >>= f) (q' >>= f') s s' := by
  cases h with
  | ok run run' related after =>
    obtain hmirrored | ⟨cause, b, s₂', hcut, hrun, hbroken⟩ := hf _ _ _ _ related after
    · left
      exact .congr (Parse.bind_of_ok run f) (Parse.bind_of_ok run' f') hmirrored
    · right
      exact ⟨cause, b, s₂', hcut, (Parse.bind_of_ok run' f').trans hrun, hbroken⟩
  | error run run' alike after =>
    left
    exact .error (Parse.bind_of_error run f) (Parse.bind_of_error run' f') alike after
  | broken hcut run' lexical =>
    left
    exact .broken hcut (Parse.bind_of_error run' f') lexical

/-- A result that is put into a larger one. -/
theorem map (h : MirroredOrShort cut p p' s s') (e : Fragment) (g : α → β) :
    MirroredOrShort cut (do return g (← holding e p)) (do return g (← holding e p')) s s' := by
  obtain hmirrored | ⟨cause, a, s₁', hcut, hrun, hbroken⟩ := h
  · left
    refine (hmirrored.holding e).bind ?_
    rintro a _ s₁ s₁' - - rfl hs₁
    exact Mirrored.pure rfl s₁ s₁' hs₁
  · right
    exact ⟨cause, g a, s₁', hcut, Parse.bind_of_ok (holding_ok_iff.2 hrun) _, hbroken⟩

/-- What is after the list shows that the text breaks off. -/
theorem before_take (h : MirroredOrShort cut p p' s s') (kind : TokenKind) (held : α → List Expr)
    (g : α → β) :
    MirroredAt cut Eq (do let a ← p; discard (holdingAll (held a) (take kind)); return g a)
      (do let a ← p'; discard (holdingAll (held a) (take kind)); return g a) s s' := by
  obtain hmirrored | ⟨cause, a, s₁', hcut, hrun, hbroken⟩ := h
  · refine hmirrored.bind ?_
    rintro a _ s₁ s₁' - - rfl hs₁
    exact (((Mirrored.take kind).holdingAll (held a)).discard.bind fun _ _ _ => .pure rfl)
      s₁ s₁' hs₁
  · have htake : take kind s₁' = .error { error := .lexical cause } s₁' :=
      Parse.bind_of_error (peek_eq_error hbroken) _
    have hheld : holdingAll (held a) (take kind) s₁' =
        .error { error := .lexical cause, fragments := (held a).map .argument ++ [] } s₁' := by
      simp only [holdingAll, EStateM.adaptExcept, htake]
    have hfails : (discard (holdingAll (held a) (take kind)) : Parse Unit) s₁' = _ :=
      Parse.bind_of_error hheld _
    exact .broken hcut ((Parse.bind_of_ok hrun _).trans (Parse.bind_of_error hfails _)) rfl

end MirroredOrShort

theorem takeIf_mirrored {kind : TokenKind} (hs : Mirrors cut s s') {seen seen' : Ahead}
    (hseen : s.stream.lookahead = .ok seen) (hseen' : s'.stream.lookahead = .ok seen')
    (hkind : seen.kind? = seen'.kind?) : MirroredAt cut Eq (takeIf kind) (takeIf kind) s s' := by
  rw [Progress.kind?_of_lookahead hseen, Progress.kind?_of_lookahead hseen'] at hkind
  have hiff : NextIs kind s.lexemes ↔ NextIs kind s'.lexemes := by rw [NextIs, NextIs, hkind]
  by_cases hnext : NextIs kind s'.lexemes
  · exact .ok (takeIf_of_next (hiff.2 hnext)) (takeIf_of_next hnext) rfl hs.tail
  · exact .ok (takeIf_of_not_next (mt hiff.1 hnext)) (takeIf_of_not_next hnext) rfl hs

theorem moreArguments_mirrored (hexpr : Mirrored cut Eq (expression primary) (expression primary)) :
    ∀ (bound : Nat) (s s' : Progress), Mirrors cut s s' →
      MirroredOrShort cut (moreArguments primary bound) (moreArguments primary bound) s s'
  | 0, s, s', hs => .inl (Mirrored.pure rfl s s' hs)
  | bound + 1, s, s', hs => by
    rw [moreArguments]
    obtain ⟨cause, hcut, hbroken⟩ | ⟨seen, seen', hseen, hseen', hkind⟩ := hs.next
    · -- no comma is seen where the text breaks off
      have hnext : ¬ NextIs .comma s'.lexemes := by
        intro hnext
        obtain ⟨l, hls, -⟩ := Progress.exists_next hnext
        obtain ⟨t, ts, ht, -⟩ := Progress.exists_token hls
        rw [Progress.lookahead_cons ht] at hbroken
        cases hbroken
      right
      exact ⟨cause, [], s', hcut, Parse.bind_of_ok (takeIf_of_not_next hnext) _, hbroken⟩
    · refine .after (takeIf_mirrored hs hseen hseen' hkind) ?_
      rintro comma _ s₁ s₁' rfl hs₁
      cases comma with
      | false => exact .inl (Mirrored.pure rfl s₁ s₁' hs₁)
      | true =>
        refine .after (hexpr s₁ s₁' hs₁) ?_
        rintro arg _ s₂ s₂' rfl hs₂
        exact (moreArguments_mirrored hexpr bound s₂ s₂' hs₂).map (.argument arg) _

theorem arguments_mirrored (hexpr : Mirrored cut Eq (expression primary) (expression primary))
    (hshrinks : Shrinks (expression primary)) (hs : Mirrors cut s s') :
    MirroredOrShort cut (arguments primary) (arguments primary) s s' := by
  rw [arguments_eq]
  refine .after (Mirrored.peek s s' hs) fun seen seen' s₁ s₁' hkind hs₁ => ?_
  rw [hkind]
  split
  · exact .inl (Mirrored.pure rfl s₁ s₁' hs₁)
  · refine .after (hexpr s₁ s₁' hs₁) ?_
    rintro arg _ s₂ s₂' rfl hs₂
    refine MirroredOrShort.map (.congr (furtherArguments_apply primary s₂) ?_
      (moreArguments_mirrored hexpr s₂.lexemes.length s₂ s₂' hs₂)) (.argument arg) _
    rw [furtherArguments_apply]
    exact moreArguments_bound_irrelevant hshrinks (Nat.le_refl _) hs₂.length_le

/-! ### Calls -/

theorem callHead_mirrored : Mirrored cut Eq callHead callHead :=
  (Mirrored.discard_take .identifier).bind fun _ _ _ => .discard_take .parenLeft

theorem builtinCall_mirrored (hexpr : Mirrored cut Eq (expression primary) (expression primary))
    (hshrinks : Shrinks (expression primary)) (function : Builtin) :
    Mirrored cut Eq (builtinCall primary function) (builtinCall primary function) :=
  callHead_mirrored.bind fun _ _ _ _ _ hs =>
    (arguments_mirrored hexpr hshrinks hs).before_take .parenRight id _

/-- Where a form goes on with a mark or a keyword, it fails before an opening parenthesis. -/
theorem fill_fails {form : List Piece} (hparts : form.head?.all Piece.parts = true)
    (hs : Mirrors cut s s') (hcall : NextIs .parenLeft s.lexemes) :
    MirroredAt cut (fun _ _ => False) (fill primary form) (fill primary form) s s' := by
  have htake : ∀ kind, .parenLeft ≠ kind →
      MirroredAt cut (fun _ _ => False) (take kind) (take kind) s s' :=
    fun kind => Mirrored.take_fails hs hcall
  match form with
  | [] => exact (htake .parenRight nofun).bind_fails.bind_fails
  | .keyword _ :: form => exact (htake .identifier nofun).bind_fails.bind_fails
  | .comma :: form => exact (htake .comma nofun).bind_fails.bind_fails
  | .word :: _ | .expression :: _ | .primary _ :: _ => cases hparts

/-- A word before an opening parenthesis may be written in another letter case. But there it is no
word, since no form goes on with a parenthesis. -/
theorem fill_mirrored (hp : ∀ c, Mirrored cut Eq (primary c) (primary c))
    (hexpr : Mirrored cut Eq (expression primary) (expression primary)) :
    ∀ form, spaced form = true → Mirrored cut Eq (fill primary form) (fill primary form)
  | [], _ => (Mirrored.discard_take .parenRight).bind fun _ _ _ => .pure rfl
  | .word :: form, hform => by
    obtain ⟨hparts, hform⟩ := Bool.and_eq_true_iff.1 hform
    intro s s' hs
    refine (Mirrored.take .identifier s s' hs).bind fun t t' s₁ s₁' hrun hrun' _ hs₁ => ?_
    obtain ⟨ht, -, rfl⟩ := take_ok_iff.1 hrun
    obtain ⟨ht', -, rfl⟩ := take_ok_iff.1 hrun'
    obtain ⟨-, hsame | ⟨-, hcall⟩⟩ := hs.token ht ht'
    · have htext : t.text = t'.text := congrArg Lexeme.text hsame
      refine (fill_mirrored hp hexpr form hform _ _ hs₁).bind ?_
      rintro filled _ s₂ s₂' - - rfl hs₂
      exact Mirrored.pure (by rw [htext]) s₂ s₂' hs₂
    · exact (fill_fails hparts hs₁ hcall).bind_fails
  | .keyword _ :: form, hform => by
    obtain ⟨-, hform⟩ := Bool.and_eq_true_iff.1 hform
    exact (Mirrored.discard_take .identifier).bind fun _ _ _ => fill_mirrored hp hexpr form hform
  | .comma :: form, hform =>
    (Mirrored.discard_take .comma).bind fun _ _ _ => fill_mirrored hp hexpr form hform
  | .expression :: form, hform => by
    obtain ⟨-, hform⟩ := Bool.and_eq_true_iff.1 hform
    refine hexpr.bind ?_
    rintro slot _ rfl
    refine ((fill_mirrored hp hexpr form hform).holding slot).bind ?_
    rintro filled _ rfl
    exact .pure rfl
  | .primary accepts :: form, hform => by
    obtain ⟨-, hform⟩ := Bool.and_eq_true_iff.1 hform
    refine (hp accepts).bind ?_
    rintro slot _ rfl
    refine ((fill_mirrored hp hexpr form hform).holding slot).bind ?_
    rintro filled _ rfl
    exact .pure rfl

end Grammar

/-! ## Primaries -/

section Primaries

variable {catalog : Catalog} {primary : PrimaryParser}

/-- The same function is found by a name in any letter case. -/
theorem functionCall_mirrored (hp : ∀ c, Mirrored cut Eq (primary c) (primary c))
    (hexpr : Mirrored cut Eq (expression primary) (expression primary))
    (hshrinks : Shrinks (expression primary)) (hs : Mirrors cut s s') {name name' : Token}
    (hname : s.stream.lookahead = .ok (.token name))
    (hname' : s'.stream.lookahead = .ok (.token name')) :
    MirroredAt cut Eq (functionCall catalog primary name) (functionCall catalog primary name')
      s s' := by
  obtain ⟨hfold, -⟩ := hs.token hname hname'
  have hbuiltin : Builtin.ofName? name.text = Builtin.ofName? name'.text := by
    rw [Builtin.ofName?, Builtin.ofName?, hfold]
  have hfound : catalog.find? name.text = catalog.find? name'.text := by
    rw [Catalog.find?, Catalog.find?, hfold]
  unfold functionCall
  rw [hbuiltin, hfound]
  cases Builtin.ofName? name'.text with
  | some function => exact builtinCall_mirrored hexpr hshrinks function s s' hs
  | none =>
    cases catalog.find? name'.text with
    | none => exact .mismatch hs hname hname' .knownFunction
    | some entry =>
      have hfill := fill_mirrored hp hexpr entry.extension.form (spaced_form _)
      have hcall : Mirrored cut Eq (extensionCall primary entry.extension)
          (extensionCall primary entry.extension) := callHead_mirrored.bind fun _ _ _ => hfill
      refine ((Mirrored.dispatch name name').bind fun _ _ _ => hcall.bind ?_) s s' hs
      rintro filled _ rfl
      exact .pure rfl

theorem nestedPrimary_mirrored (hp : ∀ c, Mirrored cut Eq (primary c) (primary c))
    (hexpr : Mirrored cut Eq (expression primary) (expression primary))
    (hshrinks : Shrinks (expression primary)) (accepts : PrimaryClass) :
    Mirrored cut Eq (nestedPrimary catalog primary accepts)
      (nestedPrimary catalog primary accepts) := by
  intro s s' hs
  refine Mirrored.peek_bind hs fun seen seen' hseen hseen' hkind => ?_
  obtain ⟨n, n', rfl, rfl⟩ | ⟨t, t', rfl, rfl, hkinds⟩ := Ahead.same_kind hkind
  · exact .mismatch hs hseen hseen' _
  · obtain ⟨-, htoken⟩ := hs.token hseen hseen'
    have hsame : t.kind ≠ .identifier → t.text = t'.text := fun hne =>
      htoken.elim (congrArg Lexeme.text) fun h => absurd h.1 hne
    have hleaf : ∀ {e e' : Expr}, e = e' →
        MirroredAt cut Eq (do advance; return e) (do advance; return e') s s' := by
      intro e e' he
      exact (Mirrored.advance.bind fun _ _ _ => .pure he) s s' hs
    rw [hkinds] at hsame
    simp only [hkinds]
    cases hk : t'.kind with
    | parenLeft =>
      cases accepts with
      | string => exact .mismatch hs hseen hseen' _
      | arithmetic =>
        refine (Mirrored.advance.bind fun _ _ _ => hexpr.bind ?_) s s' hs
        rintro inner _ rfl
        exact ((Mirrored.take .parenRight).holding inner).discard.bind fun _ _ _ => .pure rfl
    | integer | float =>
      have htext := hsame (by rw [hk]; decide)
      cases accepts with
      | string => exact .mismatch hs hseen hseen' _
      | arithmetic => exact hleaf (by rw [htext])
    | string =>
      have htext := hsame (by rw [hk]; decide)
      exact hleaf (by rw [Token.contents, Token.contents, hkinds, htext])
    | parameter | path =>
      have htext := hsame (by rw [hk]; decide)
      exact hleaf (by rw [htext])
    | identifier =>
      refine (Mirrored.peekSecond s s' hs).bind
        fun second second' s₁ s₁' hrun hrun' hsecond _ => ?_
      obtain ⟨hsecondAhead, rfl⟩ := peekSecond_ok_iff.1 hrun
      obtain ⟨-, rfl⟩ := peekSecond_ok_iff.1 hrun'
      rw [← hsecond]
      split
      · exact functionCall_mirrored hp hexpr hshrinks hs hseen hseen'
      · rename_i hnocall
        rw [Progress.kind?_of_lookahead hsecondAhead] at hnocall
        have hlexeme : t.lexeme = t'.lexeme :=
          htoken.elim id fun hcall => absurd hcall.2 hnocall
        have htext : t.text = t'.text := congrArg Lexeme.text hlexeme
        cases accepts with
        | arithmetic => exact hleaf (by rw [htext])
        | string => exact .mismatch hs hseen hseen' _
    | parenRight | comma | plus | minus | asterisk | slash => exact .mismatch hs hseen hseen' _

end Primaries

variable {catalog : Catalog}

/-- **Of texts that are alike, primaries are parsed alike.** -/
theorem primary_mirrored : ∀ (room : Nat) (accepts : PrimaryClass),
    Mirrored cut Eq (primary catalog room accepts) (primary catalog room accepts)
  | 0, accepts => by
    intro s s' hs
    refine Mirrored.peek_bind hs fun seen seen' hseen hseen' _ => ?_
    exact .error rfl rfl ⟨seen, seen', hseen, hseen', .inr ⟨rfl, rfl⟩⟩ hs
  | room + 1, accepts =>
    nestedPrimary_mirrored (primary_mirrored room)
      (expression_mirrored (primary_mirrored room .arithmetic) (factor_shrinks catalog room))
      (expression_shrinks catalog room) accepts

/-- **Of texts that are alike, expressions are parsed alike.** -/
theorem wholeExpression_mirrored :
    Mirrored cut Eq (wholeExpression catalog) (wholeExpression catalog) := by
  refine (expression_mirrored (primary_mirrored maxNesting .arithmetic)
    (factor_shrinks catalog maxNesting)).bind ?_
  rintro e _ rfl
  exact (Mirrored.expectEnd.holding e).bind fun _ _ _ => .pure rfl

end Dql
