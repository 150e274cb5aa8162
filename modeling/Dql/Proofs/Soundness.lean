import Dql.Proofs.ParserSteps

/-!
# What is parsed can be derived

Whenever a parser succeeds, the tokens that it took have a derivation, whose tree is what it gives
and in which no more primaries stand inside one another than there was room for.

* `Derives` - there is a derivation with this tree, within some nesting;
* `Sound` - a parser only succeeds where there is one.

The parsers above primaries take the parser for primaries as an argument, and so do their theorems.
`primary_sound` ties the knot by induction on the room.
-/

namespace Dql

variable {catalog : Catalog}

/-- From the lexemes `ls`, of which `rest` are left over, the phrase derives with this meaning, and
no more than `room` primaries stand inside one another. -/
def Derives (catalog : Catalog) (p : Phrase) (room : Nat) (ls rest : List Lexeme)
    (meaning : p.Meaning) : Prop :=
  ∃ d : Derivation catalog p ls rest, d.tree = meaning ∧ d.nesting ≤ room

/-- Whenever the parser succeeds, what it took derives as the phrase. -/
def Sound (catalog : Catalog) (p : Phrase) (room : Nat) (parser : Parse p.Meaning) : Prop :=
  ∀ s a s', parser s = .ok a s' →
    s'.ending = s.ending ∧ Derives catalog p room s.lexemes s'.lexemes a

theorem Derivation.length_le {p : Phrase} {ls rest : List Lexeme}
    (d : Derivation catalog p ls rest) : rest.length ≤ ls.length := by
  induction d <;> (try simp only [List.length_cons] at *) <;> omega

theorem Derives.length_le {p : Phrase} {room : Nat} {ls rest : List Lexeme} {a : p.Meaning}
    (h : Derives catalog p room ls rest a) : rest.length ≤ ls.length :=
  h.elim fun d _ => d.length_le

/-! ## Operators -/

section Operators

variable {primary : PrimaryParser} {room : Nat}

theorem factor_sound (hp : Sound catalog (.primary .arithmetic) room (primary .arithmetic)) :
    Sound catalog .factor room (factor primary) := by
  intro s a s' h
  unfold factor at h
  obtain ⟨seen, s₁, hpeek, h⟩ := Parse.bind_ok_iff.1 h
  obtain ⟨hseen, rfl⟩ := peek_ok_iff.1 hpeek
  cases hsign : seen.kind?.bind TokenKind.sign? with
  | some sign =>
    rw [hsign] at h
    obtain ⟨_, s₁, hadv, h⟩ := Parse.bind_ok_iff.1 h
    obtain rfl := advance_ok_iff.1 hadv
    obtain ⟨operand, s₂, hoperand, h⟩ := Parse.bind_ok_iff.1 h
    obtain ⟨rfl, rfl⟩ := Parse.pure_ok_iff.1 h
    obtain ⟨hending, d, rfl, hd⟩ := hp _ _ _ hoperand
    cases seen with
    | endOfText => cases hsign
    | token t =>
      rw [Progress.lexemes_of_lookahead hseen]
      exact ⟨by rw [hending, Progress.ending_tail],
        .signed t.lexeme sign (isSign_iff.2 hsign) d, rfl, hd⟩
  | none =>
    rw [hsign] at h
    obtain ⟨hending, d, rfl, hd⟩ := hp _ _ _ h
    exact ⟨hending, .unsigned d, rfl, hd⟩

/-- No operator binds tightly enough for the operand to the right of `*` or `/`. -/
theorem operators_tight {bound least : Nat} {left e : Expr} {s s' : Progress} (hl : 60 < least)
    (hb : s.lexemes.length ≤ bound) (h : operators primary bound least left s = .ok e s') :
    e = left ∧ s' = s := by
  rcases operators_ok_cases h hb with ⟨rfl, rfl, -⟩ | ⟨_, op, _, _, _, _, -, -, hle, -⟩
  · exact ⟨rfl, rfl⟩
  · have : op.power ≤ 60 := by cases op <;> decide
    omega

/-- The next operator, if there is one, is additive. -/
def AtTermEnd (s : Progress) : Prop := ∀ op, s.operator? = some op → op.isAdditive = true

/-- An operator that comes next, as a lexeme. -/
theorem Progress.exists_operator {s : Progress} {op : BinaryOp} (h : s.operator? = some op) :
    ∃ l, s.lexemes = l :: s.tail.lexemes ∧ l.kind.operator? = some op := by
  cases hls : s.lexemes with
  | nil => simp [Progress.operator?, hls] at h
  | cons l ls =>
    refine ⟨l, by simp [hls], ?_⟩
    simpa [Progress.operator?, hls] using h

theorem atTermEnd_of_lt {s : Progress} {least : Nat} (hl : least ≤ 60)
    (h : ∀ op, s.operator? = some op → op.power < least) : AtTermEnd s := by
  intro op ho
  have := h op ho
  cases hadd : op.isAdditive with
  | true => rfl
  | false =>
    rw [op.power_eq, hadd] at this
    exact absurd this (by simpa using hl)

/-- The loop that takes only `*` and `/` derives factors, and stops where the term ends. -/
theorem operators_sound_factors
    (hp : Sound catalog (.primary .arithmetic) room (primary .arithmetic)) {bound least : Nat}
    {left e : Expr} {s s' : Progress} (hlow : 50 < least) (hhigh : least ≤ 60)
    (hb : s.lexemes.length ≤ bound) (h : operators primary bound least left s = .ok e s') :
    s'.ending = s.ending ∧ AtTermEnd s' ∧
      ∃ f, Derives catalog .moreFactors room s.lexemes s'.lexemes f ∧ f left = e := by
  rcases operators_ok_cases h hb with
    ⟨rfl, rfl, hop⟩ | ⟨b, op, operand, right, s₁, s₂, rfl, hop, hle, hfactor, hright, hrest⟩
  · exact ⟨rfl, atTermEnd_of_lt hhigh hop, id, ⟨.noFactor, rfl, Nat.zero_le _⟩, rfl⟩
  · obtain ⟨l, hls, hl⟩ := Progress.exists_operator hop
    obtain ⟨he₁, hd₁⟩ := factor_sound hp _ _ _ hfactor
    have hlen := hd₁.length_le
    have hmul : op.isAdditive = false := by
      cases hadd : op.isAdditive with
      | false => rfl
      | true =>
        rw [op.power_eq, hadd, if_pos rfl] at hle
        omega
    have hpower : op.power = 60 := by
      rw [op.power_eq, hmul]
      rfl
    rw [hls, List.length_cons] at hb
    obtain ⟨rfl, rfl⟩ := operators_tight (by omega) (by omega) hright
    obtain ⟨he₂, hend, f, ⟨d₂, rfl, hn₂⟩, rfl⟩ :=
      operators_sound_factors hp hlow hhigh (by omega) hrest
    obtain ⟨d₁, rfl, hn₁⟩ := hd₁
    refine ⟨by rw [he₂, he₁, Progress.ending_tail], hend,
      fun left => d₂.tree (.binary left op d₁.tree), ?_, rfl⟩
    rw [hls]
    exact ⟨.moreFactors l op (joinsFactors_of_operator? hl hmul) d₁ d₂, rfl,
      Nat.max_le.2 ⟨hn₁, hn₂⟩⟩
termination_by bound

/-- No factors follow where the term ends. -/
theorem moreFactors_of_atTermEnd {s : Progress} {rest : List Lexeme} {f : Expr → Expr}
    (h : AtTermEnd s) (hd : Derives catalog .moreFactors room s.lexemes rest f) :
    s.lexemes = rest ∧ f = id := by
  obtain ⟨d, rfl, -⟩ := hd
  generalize hls : s.lexemes = ls at d
  cases d with
  | noFactor => exact ⟨rfl, rfl⟩
  | moreFactors l op hl =>
    have hs : s.operator? = some op := by
      rw [Progress.operator?, hls]
      exact hl.operator?_eq
    exact absurd ((h op hs).symm.trans hl.isAdditive) Bool.noConfusion

/-- The loop that takes every operator derives first factors, then terms. -/
theorem operators_sound
    (hp : Sound catalog (.primary .arithmetic) room (primary .arithmetic)) {bound : Nat}
    {left e : Expr} {s s' : Progress} (hb : s.lexemes.length ≤ bound)
    (h : operators primary bound 0 left s = .ok e s') :
    s'.ending = s.ending ∧ ∃ mid f g, Derives catalog .moreFactors room s.lexemes mid f ∧
      Derives catalog .moreTerms room mid s'.lexemes g ∧ g (f left) = e := by
  rcases operators_ok_cases h hb with
    ⟨rfl, rfl, hop⟩ | ⟨b, op, operand, right, s₁, s₂, rfl, hop, hle, hfactor, hright, hrest⟩
  · exact ⟨rfl, _, id, id, ⟨.noFactor, rfl, Nat.zero_le _⟩, ⟨.noTerm, rfl, Nat.zero_le _⟩, rfl⟩
  · obtain ⟨l, hls, hl⟩ := Progress.exists_operator hop
    obtain ⟨he₁, hd₁⟩ := factor_sound hp _ _ _ hfactor
    have hlen₁ := hd₁.length_le
    rw [hls, List.length_cons] at hb
    cases hadd : op.isAdditive with
    | false =>
      have hpower : op.power = 60 := by
        rw [op.power_eq, hadd]
        rfl
      obtain ⟨rfl, rfl⟩ := operators_tight (by omega) (by omega) hright
      obtain ⟨he₂, mid, f, g, ⟨df, rfl, hf⟩, hg, rfl⟩ := operators_sound hp (by omega) hrest
      obtain ⟨d₁, rfl, hn₁⟩ := hd₁
      refine ⟨by rw [he₂, he₁, Progress.ending_tail], mid,
        fun left => df.tree (.binary left op d₁.tree), g, ?_, hg, rfl⟩
      rw [hls]
      exact ⟨.moreFactors l op (joinsFactors_of_operator? hl hadd) d₁ df, rfl,
        Nat.max_le.2 ⟨hn₁, hf⟩⟩
    | true =>
      have hpower : op.power = 50 := by
        rw [op.power_eq, hadd]
        rfl
      obtain ⟨he₂, hend, f₂, hf₂, rfl⟩ :=
        operators_sound_factors hp (by omega) (by omega) (by omega) hright
      have hlen₂ := hf₂.length_le
      obtain ⟨he₃, mid, f, g, hf, ⟨dg, rfl, hg⟩, rfl⟩ := operators_sound hp (by omega) hrest
      -- the operand to the right took all factors, so none are left for the sum
      obtain ⟨rfl, rfl⟩ := moreFactors_of_atTermEnd hend hf
      obtain ⟨d₁, rfl, hn₁⟩ := hd₁
      obtain ⟨d₂, rfl, hn₂⟩ := hf₂
      refine ⟨by rw [he₃, he₂, he₁, Progress.ending_tail], _, id,
        fun left => dg.tree (.binary left op (d₂.tree d₁.tree)),
        ⟨.noFactor, rfl, Nat.zero_le _⟩, ?_, rfl⟩
      rw [hls]
      exact ⟨.moreTerms l op (joinsTerms_of_operator? hl hadd) (.term d₁ d₂) dg, rfl,
        Nat.max_le.2 ⟨Nat.max_le.2 ⟨hn₁, hn₂⟩, hg⟩⟩
termination_by bound

theorem tokensAhead_eq (s : Progress) : tokensAhead s = .ok s.lexemes.length s := by
  rw [Progress.lexemes, List.length_map]
  rfl

theorem expression_sound
    (hp : Sound catalog (.primary .arithmetic) room (primary .arithmetic)) :
    Sound catalog .expression room (expression primary) := by
  intro s a s' h
  unfold expression operation at h
  obtain ⟨operand, s₁, hfactor, h⟩ := Parse.bind_ok_iff.1 h
  rw [Parse.bind_of_ok (tokensAhead_eq s₁)] at h
  obtain ⟨he₁, d₁, rfl, hn₁⟩ := factor_sound hp _ _ _ hfactor
  obtain ⟨he₂, mid, f, g, ⟨df, rfl, hf⟩, ⟨dg, rfl, hg⟩, rfl⟩ :=
    operators_sound hp (Nat.le_refl _) h
  exact ⟨by rw [he₂, he₁], .expression (.term d₁ df) dg, rfl,
    Nat.max_le.2 ⟨Nat.max_le.2 ⟨hn₁, hf⟩, hg⟩⟩

end Operators

/-! ## Calls -/

section Calls

variable {primary : PrimaryParser} {room : Nat}

theorem Progress.exists_next {s : Progress} {kind : TokenKind} (h : NextIs kind s.lexemes) :
    ∃ l, s.lexemes = l :: s.tail.lexemes ∧ l.kind = kind := by
  cases hls : s.lexemes with
  | nil => simp [NextIs, hls] at h
  | cons l ls => exact ⟨l, by simp [hls], by simpa [NextIs, hls] using h⟩

theorem moreArguments_sound
    (hp : Sound catalog (.primary .arithmetic) room (primary .arithmetic)) :
    ∀ bound, Sound catalog .moreArguments room (moreArguments primary bound)
  | 0 => by
    intro s a s' h
    obtain ⟨rfl, rfl⟩ := Parse.pure_ok_iff.1 h
    exact ⟨rfl, .noMoreArgument, rfl, Nat.zero_le _⟩
  | bound + 1 => by
    intro s a s' h
    unfold moreArguments at h
    by_cases hcomma : NextIs .comma s.lexemes
    · rw [Parse.bind_of_ok (takeIf_of_next hcomma)] at h
      obtain ⟨arg, s₁, harg, h⟩ := Parse.bind_ok_iff.1 h
      obtain ⟨more, s₂, hmore, h⟩ := Parse.bind_ok_iff.1 h
      obtain ⟨rfl, rfl⟩ := Parse.pure_ok_iff.1 h
      obtain ⟨he₁, d₁, rfl, hn₁⟩ := expression_sound hp _ _ _ harg
      obtain ⟨he₂, d₂, rfl, hn₂⟩ := moreArguments_sound hp bound _ _ _ (holding_ok_iff.1 hmore)
      obtain ⟨l, hls, hl⟩ := Progress.exists_next hcomma
      rw [hls]
      exact ⟨by rw [he₂, he₁, Progress.ending_tail], .moreArguments l hl d₁ d₂, rfl,
        Nat.max_le.2 ⟨hn₁, hn₂⟩⟩
    · rw [Parse.bind_of_ok (takeIf_of_not_next hcomma)] at h
      obtain ⟨rfl, rfl⟩ := Parse.pure_ok_iff.1 h
      exact ⟨rfl, .noMoreArgument, rfl, Nat.zero_le _⟩

theorem arguments_sound (hp : Sound catalog (.primary .arithmetic) room (primary .arithmetic)) :
    Sound catalog .arguments room (arguments primary) := by
  intro s a s' h
  unfold arguments at h
  obtain ⟨seen, s₁, hpeek, h⟩ := Parse.bind_ok_iff.1 h
  obtain ⟨-, rfl⟩ := peek_ok_iff.1 hpeek
  by_cases hright : seen.kind? = some .parenRight
  · rw [if_pos hright] at h
    obtain ⟨rfl, rfl⟩ := Parse.pure_ok_iff.1 h
    exact ⟨rfl, .noArgument, rfl, Nat.zero_le _⟩
  · rw [if_neg hright] at h
    obtain ⟨arg, s₁, harg, h⟩ := Parse.bind_ok_iff.1 h
    obtain ⟨more, s₂, hmore, h⟩ := Parse.bind_ok_iff.1 h
    obtain ⟨rfl, rfl⟩ := Parse.pure_ok_iff.1 h
    rw [holding_ok_iff, Parse.bind_of_ok (tokensAhead_eq s₁)] at hmore
    obtain ⟨he₁, d₁, rfl, hn₁⟩ := expression_sound hp _ _ _ harg
    obtain ⟨he₂, d₂, rfl, hn₂⟩ := moreArguments_sound hp _ _ _ _ hmore
    exact ⟨by rw [he₂, he₁], .arguments d₁ d₂, rfl, Nat.max_le.2 ⟨hn₁, hn₂⟩⟩

/-- A token taken and not looked at. -/
theorem lexemes_of_discard_take {kind : TokenKind} {s s' : Progress} {u : Unit}
    (h : (discard (take kind) : Parse Unit) s = .ok u s') :
    ∃ l, s.lexemes = l :: s'.lexemes ∧ l.kind = kind ∧ s'.ending = s.ending := by
  obtain ⟨t, ht⟩ := Parse.discard_ok_iff.1 h
  obtain ⟨hls, hk, he⟩ := lexemes_of_take ht
  exact ⟨t.lexeme, hls, hk, he⟩

/-- The head of a call is a name and an opening parenthesis. -/
theorem lexemes_of_callHead {s s' : Progress} {u : Unit} (h : callHead s = .ok u s') :
    ∃ l left, s.lexemes = l :: left :: s'.lexemes ∧ l.kind = .identifier ∧
      left.kind = .parenLeft ∧ s'.ending = s.ending := by
  unfold callHead at h
  obtain ⟨_, s₁, hname, hleft⟩ := Parse.bind_ok_iff.1 h
  obtain ⟨l, h₁, hk₁, he₁⟩ := lexemes_of_discard_take hname
  obtain ⟨left, h₂, hk₂, he₂⟩ := lexemes_of_discard_take hleft
  exact ⟨l, left, by rw [h₁, h₂], hk₁, hk₂, by rw [he₂, he₁]⟩

theorem fill_sound (hp : ∀ c, Sound catalog (.primary c) room (primary c)) :
    ∀ pieces, Sound catalog (.form pieces) room (fill primary pieces)
  | [] => by
    intro s a s' h
    unfold fill at h
    obtain ⟨_, s₁, hright, h⟩ := Parse.bind_ok_iff.1 h
    obtain ⟨rfl, rfl⟩ := Parse.pure_ok_iff.1 h
    obtain ⟨l, hls, hk, he⟩ := lexemes_of_discard_take hright
    rw [hls]
    exact ⟨he, .formEnd l hk, rfl, Nat.zero_le _⟩
  | .word :: pieces => by
    intro s a s' h
    unfold fill at h
    obtain ⟨t, s₁, hword, h⟩ := Parse.bind_ok_iff.1 h
    obtain ⟨_, s₂, hmore, h⟩ := Parse.bind_ok_iff.1 h
    obtain ⟨rfl, rfl⟩ := Parse.pure_ok_iff.1 h
    obtain ⟨hls, hk, he₁⟩ := lexemes_of_take hword
    obtain ⟨he₂, d, rfl, hn⟩ := fill_sound hp pieces _ _ _ hmore
    rw [hls]
    exact ⟨by rw [he₂, he₁], .word t.lexeme hk d, rfl, hn⟩
  | .keyword _ :: pieces => by
    intro s a s' h
    unfold fill at h
    obtain ⟨_, s₁, hword, hmore⟩ := Parse.bind_ok_iff.1 h
    obtain ⟨l, hls, hk, he₁⟩ := lexemes_of_discard_take hword
    obtain ⟨he₂, d, rfl, hn⟩ := fill_sound hp pieces _ _ _ hmore
    rw [hls]
    exact ⟨by rw [he₂, he₁], .keyword l hk d, rfl, hn⟩
  | .comma :: pieces => by
    intro s a s' h
    unfold fill at h
    obtain ⟨_, s₁, hcomma, hmore⟩ := Parse.bind_ok_iff.1 h
    obtain ⟨l, hls, hk, he₁⟩ := lexemes_of_discard_take hcomma
    obtain ⟨he₂, d, rfl, hn⟩ := fill_sound hp pieces _ _ _ hmore
    rw [hls]
    exact ⟨by rw [he₂, he₁], .comma l hk d, rfl, hn⟩
  | .expression :: pieces => by
    intro s a s' h
    unfold fill at h
    obtain ⟨slot, s₁, hslot, h⟩ := Parse.bind_ok_iff.1 h
    obtain ⟨_, s₂, hmore, h⟩ := Parse.bind_ok_iff.1 h
    obtain ⟨rfl, rfl⟩ := Parse.pure_ok_iff.1 h
    obtain ⟨he₁, d₁, rfl, hn₁⟩ := expression_sound (hp .arithmetic) _ _ _ hslot
    obtain ⟨he₂, d₂, rfl, hn₂⟩ := fill_sound hp pieces _ _ _ (holding_ok_iff.1 hmore)
    exact ⟨by rw [he₂, he₁], .expressionSlot d₁ d₂, rfl, Nat.max_le.2 ⟨hn₁, hn₂⟩⟩
  | .primary accepts :: pieces => by
    intro s a s' h
    unfold fill at h
    obtain ⟨slot, s₁, hslot, h⟩ := Parse.bind_ok_iff.1 h
    obtain ⟨_, s₂, hmore, h⟩ := Parse.bind_ok_iff.1 h
    obtain ⟨rfl, rfl⟩ := Parse.pure_ok_iff.1 h
    obtain ⟨he₁, d₁, rfl, hn₁⟩ := hp accepts _ _ _ hslot
    obtain ⟨he₂, d₂, rfl, hn₂⟩ := fill_sound hp pieces _ _ _ (holding_ok_iff.1 hmore)
    exact ⟨by rw [he₂, he₁], .primarySlot d₁ d₂, rfl, Nat.max_le.2 ⟨hn₁, hn₂⟩⟩

/-- A call, given its name token, which is still ahead. -/
theorem functionCall_sound (hp : ∀ c, Sound catalog (.primary c) room (primary c))
    {accepts : PrimaryClass} {name : Token} {s s' : Progress} {e : Expr}
    (hname : s.stream.lookahead = .ok (.token name))
    (h : functionCall catalog primary name s = .ok e s') :
    s'.ending = s.ending ∧
      Derives catalog (.primary accepts) (room + 1) s.lexemes s'.lexemes e := by
  have hhead := Progress.lexemes_of_lookahead hname
  unfold functionCall at h
  cases hb : Builtin.ofName? name.text with
  | some function =>
    simp only [hb] at h
    unfold builtinCall at h
    obtain ⟨_, s₁, hcall, h⟩ := Parse.bind_ok_iff.1 h
    obtain ⟨args, s₂, hargs, h⟩ := Parse.bind_ok_iff.1 h
    obtain ⟨_, s₃, hright, h⟩ := Parse.bind_ok_iff.1 h
    obtain ⟨rfl, rfl⟩ := Parse.pure_ok_iff.1 h
    obtain ⟨l, left, hls, hl, hleft, he₁⟩ := lexemes_of_callHead hcall
    obtain ⟨he₂, hargs⟩ := arguments_sound (hp .arithmetic) _ _ _ hargs
    obtain ⟨t, hright⟩ := Parse.discard_ok_iff.1 hright
    obtain ⟨hr, hk, he₃⟩ := lexemes_of_take (holdingAll_ok_iff.1 hright)
    rw [hr] at hargs
    obtain ⟨d, rfl, hn⟩ := hargs
    obtain rfl : l = name.lexeme := (List.cons.inj (hls.symm.trans hhead)).1
    rw [hls]
    exact ⟨by rw [he₃, he₂, he₁], .call _ left t.lexeme function hl hleft hk
      (Builtin.ofName?_eq_some_iff.1 hb) d, rfl,
      Nat.succ_le_succ hn⟩
  | none =>
    simp only [hb] at h
    cases hf : catalog.find? name.text with
    | none =>
      simp only [hf] at h
      exact absurd h Parse.fail_ne_ok
    | some entry =>
      simp only [hf] at h
      obtain ⟨_, s₁, hdispatch, h⟩ := Parse.bind_ok_iff.1 h
      cases hdispatch
      unfold extensionCall at h
      obtain ⟨_, s₂, hcall, h⟩ := Parse.bind_ok_iff.1 h
      obtain ⟨_, s₃, hcall', hfill⟩ := Parse.bind_ok_iff.1 hcall
      obtain ⟨rfl, rfl⟩ := Parse.pure_ok_iff.1 h
      obtain ⟨l, left, hls, hl, hleft, he₁⟩ := lexemes_of_callHead hcall'
      obtain ⟨he₂, d, rfl, hn⟩ := fill_sound hp _ _ _ _ hfill
      obtain rfl : l = name.lexeme := (List.cons.inj (hls.symm.trans hhead)).1
      rw [show s.lexemes = _ from hls]
      exact ⟨by rw [he₂, he₁]; rfl,
        .extension _ left entry hl hleft (Builtin.ofName?_eq_none_iff.1 hb) hf
          (production_iff.2 rfl) d, rfl, Nat.succ_le_succ hn⟩

end Calls

/-! ## Primaries -/

theorem nestedPrimary_sound {primary : PrimaryParser} {room : Nat}
    (hp : ∀ c, Sound catalog (.primary c) room (primary c)) (accepts : PrimaryClass) :
    Sound catalog (.primary accepts) (room + 1) (nestedPrimary catalog primary accepts) := by
  intro s e s' h
  unfold nestedPrimary at h
  obtain ⟨seen, s₁, hpeek, h⟩ := Parse.bind_ok_iff.1 h
  obtain ⟨hseen, rfl⟩ := peek_ok_iff.1 hpeek
  cases seen with
  | endOfText => exact absurd h Parse.fail_ne_ok
  | token t =>
    have hls := Progress.lexemes_of_lookahead hseen
    -- a primary of one token
    have leaf : ∀ {e' : Expr}, (do advance; return e' : Parse Expr) s = .ok e s' →
        Derives catalog (.primary accepts) (room + 1) s.lexemes s.tail.lexemes e' →
        s'.ending = s.ending ∧
          Derives catalog (.primary accepts) (room + 1) s.lexemes s'.lexemes e := by
      intro e' h hd
      obtain ⟨_, s₁, hadv, h⟩ := Parse.bind_ok_iff.1 h
      obtain rfl := advance_ok_iff.1 hadv
      obtain ⟨rfl, rfl⟩ := Parse.pure_ok_iff.1 h
      exact ⟨s.ending_tail, hd⟩
    have hone : 1 ≤ room + 1 := by omega
    cases hk : t.kind with
    | parenLeft =>
      cases accepts with
      | string => exact absurd (by simpa only [hk] using h) Parse.fail_ne_ok
      | arithmetic =>
        simp only [hk] at h
        obtain ⟨_, s₁, hadv, h⟩ := Parse.bind_ok_iff.1 h
        obtain rfl := advance_ok_iff.1 hadv
        obtain ⟨inner, s₂, hinner, h⟩ := Parse.bind_ok_iff.1 h
        obtain ⟨_, s₃, hright, h⟩ := Parse.bind_ok_iff.1 h
        obtain ⟨rfl, rfl⟩ := Parse.pure_ok_iff.1 h
        obtain ⟨he₁, hd⟩ := expression_sound (hp .arithmetic) _ _ _ hinner
        obtain ⟨r, hright⟩ := Parse.discard_ok_iff.1 hright
        obtain ⟨hr, hkr, he₂⟩ := lexemes_of_take (holding_ok_iff.1 hright)
        rw [hr] at hd
        obtain ⟨d, rfl, hn⟩ := hd
        rw [hls]
        exact ⟨by rw [he₂, he₁, Progress.ending_tail], .paren t.lexeme r.lexeme hk hkr d, rfl,
          Nat.succ_le_succ hn⟩
    | integer =>
      cases accepts with
      | string => exact absurd (by simpa only [hk] using h) Parse.fail_ne_ok
      | arithmetic =>
        simp only [hk] at h
        refine leaf h ?_
        rw [hls]
        exact ⟨.number t.lexeme (.inl hk), rfl, hone⟩
    | float =>
      cases accepts with
      | string => exact absurd (by simpa only [hk] using h) Parse.fail_ne_ok
      | arithmetic =>
        simp only [hk] at h
        refine leaf h ?_
        rw [hls]
        exact ⟨.number t.lexeme (.inr hk), rfl, hone⟩
    | string =>
      simp only [hk] at h
      refine leaf h ?_
      rw [hls]
      exact ⟨.string t.lexeme hk, by simp [Derivation.tree, Token.contents, hk]; rfl, hone⟩
    | parameter =>
      simp only [hk] at h
      refine leaf h ?_
      rw [hls]
      exact ⟨.parameter t.lexeme hk, rfl, hone⟩
    | path =>
      simp only [hk] at h
      refine leaf h ?_
      rw [hls]
      exact ⟨.path t.lexeme hk, t.lexeme.pathOfName_text.symm, hone⟩
    | identifier =>
      simp only [hk] at h
      obtain ⟨second, s₁, hpeek, h⟩ := Parse.bind_ok_iff.1 h
      obtain ⟨hsecond, rfl⟩ := peekSecond_ok_iff.1 hpeek
      by_cases hcall : second.kind? = some .parenLeft
      · rw [if_pos hcall] at h
        exact functionCall_sound hp hseen h
      · rw [if_neg hcall] at h
        cases accepts with
        | string => exact absurd h Parse.fail_ne_ok
        | arithmetic =>
          refine leaf h ?_
          rw [Progress.kind?_of_lookahead hsecond] at hcall
          rw [hls]
          exact ⟨.name t.lexeme hk hcall, rfl, hone⟩
    | parenRight | comma | plus | minus | asterisk | slash =>
      exact absurd (by simpa only [hk] using h) Parse.fail_ne_ok

/-- **Whatever is parsed as a primary derives as one**, within the room that there was. -/
theorem primary_sound : ∀ (room : Nat) (accepts : PrimaryClass),
    Sound catalog (.primary accepts) room (primary catalog room accepts)
  | 0, _ => by
    intro s e s' h
    obtain ⟨seen, s₁, -, h⟩ := Parse.bind_ok_iff.1 h
    exact absurd h Parse.fail_ne_ok
  | room + 1, accepts => nestedPrimary_sound (primary_sound room) accepts

/-- A text that is parsed can be read to its end, and all of it derives. -/
theorem wholeWithin_sound {room : Nat} {s s' : Progress} {e : Expr}
    (h : wholeWith (primary catalog room) s = .ok e s') :
    (∃ n, s.ending = .endOfText n) ∧ Derives catalog .expression room s.lexemes [] e := by
  unfold wholeWith at h
  obtain ⟨_, s₁, he, h⟩ := Parse.bind_ok_iff.1 h
  obtain ⟨_, s₂, hend, h⟩ := Parse.bind_ok_iff.1 h
  obtain ⟨rfl, rfl⟩ := Parse.pure_ok_iff.1 h
  obtain ⟨hending, hd⟩ := expression_sound (primary_sound _ _) _ _ _ he
  unfold expectEnd at hend
  obtain ⟨seen, s₃, hpeek, hend⟩ := Parse.bind_ok_iff.1 (holding_ok_iff.1 hend)
  obtain ⟨hseen, rfl⟩ := peek_ok_iff.1 hpeek
  cases seen with
  | token => exact absurd hend Parse.fail_ne_ok
  | endOfText n =>
    obtain ⟨hnil, hn⟩ := Progress.lexemes_eq_nil_of_lookahead hseen
    rw [hnil] at hd
    exact ⟨⟨n, by rw [← hending, hn]⟩, hd⟩

end Dql
