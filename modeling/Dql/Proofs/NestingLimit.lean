import Dql.Proofs.Agreement
import Dql.Proofs.EarliestError
import Dql.Proofs.Levels

/-!
# The limit on nesting and nothing else

Without its limit on nesting the parser would accept the same texts and those that nest too deep.
The limit decides nothing but that: it rejects exactly the latter, at the first token that begins a
primary one level too deep, and of other texts at most hides an error further on.

* `Parser.unlimited`, `unlimited` - the parser for primaries as it would be without the limit, and
  the same to trees;
* `ParseError.position` - where an error points.

Principal results: `Parser.unlimited_eq` - it is the same parser but for the limit - and
`limit_rejects_only_deep`.
-/

namespace Dql

variable {catalog : Catalog} {early : ParseError → Prop}

/-! ## More room and less -/

/-- **With less room a primary is parsed as with more**, or the parser stops early for want of it.
What suffices for the lexemes ahead is as good as more. -/
theorem primary_agrees : ∀ {n room room' : Nat}, min n room ≤ room' →
    (∀ position, room < n → early (.tooDeep position)) → ∀ accepts,
      Agrees n early (primary catalog room accepts) (primary catalog room' accepts)
  | 0, _, _, _, _, _ => fun s hs => absurd hs (Nat.not_lt_zero _)
  | n + 1, 0, 0, _, _, accepts => .of_replays (primary_replays (Nat.le_refl 0) accepts)
  | n + 1, room + 1, 0, h, _, _ => absurd h (by omega)
  | n + 1, 0, room' + 1, _, hearly, accepts => by
    intro s _
    have hagain : AgreesAt early (primary catalog (room' + 1) accepts)
        (primary catalog (room' + 1) accepts) s :=
      .of_replays (primary_replays (Nat.le_refl _) accepts s)
    refine ⟨hagain.goes, ?_⟩
    cases hseen : s.stream.lookahead with
    | error cause =>
      left
      have hpeek := peek_eq_error hseen
      rw [primary, primary, nestedPrimary, Parse.bind_of_error hpeek, Parse.bind_of_error hpeek]
    | ok seen =>
      right
      refine ⟨{ error := .tooDeep seen.position }, s, ?_, hearly _ (Nat.succ_pos n), hagain.goes⟩
      rw [primary, Parse.bind_of_ok (peek_ok_iff.2 ⟨hseen, rfl⟩)]
      rfl
  | n + 1, room + 1, room' + 1, h, hearly, accepts => by
    have ih : ∀ accepts, Agrees n early (primary catalog room accepts)
        (primary catalog room' accepts) :=
      primary_agrees (by omega) fun position hroom =>
        hearly position (Nat.succ_lt_succ hroom)
    exact nestedPrimary_agrees (ih .arithmetic) (functionCall_agrees ih) accepts

/-- The parser for primaries as it would be without a limit on nesting. Primaries inside one another
have fewer and fewer tokens ahead, so one more level than there are tokens is never used up. -/
def unlimited (catalog : Catalog) : PrimaryParser := fun accepts s =>
  primary catalog (s.lexemes.length + 1) accepts s

/-- With some room a primary is parsed as without a limit, or the parser stops early for want of
it. -/
theorem unlimited_agrees {n room : Nat} (hearly : ∀ position, room < n → early (.tooDeep position))
    (accepts : PrimaryClass) :
    Agrees n early (primary catalog room accepts) (unlimited catalog accepts) := by
  intro s hs
  have hshort : ∀ position, room < s.lexemes.length + 1 → early (.tooDeep position) :=
    fun position hroom => hearly position (by omega)
  have h : AgreesAt early (primary catalog room accepts)
      (primary catalog (s.lexemes.length + 1) accepts) s :=
    primary_agrees (Nat.min_le_left ..) hshort accepts s (Nat.lt_succ_self _)
  exact ⟨h.goes, h.same_or_early⟩

/-- **The parser without the limit is the parser with it, but for the limit**: it satisfies the
equation by which each level is parsed with the one inside it, with itself on both sides. -/
theorem unlimited_eq (catalog : Catalog) (accepts : PrimaryClass) :
    unlimited catalog accepts = nestedPrimary catalog (unlimited catalog) accepts := by
  funext s
  have hinner : ∀ accepts, Agrees s.lexemes.length (fun _ => False)
      (primary catalog s.lexemes.length accepts) (unlimited catalog accepts) :=
    unlimited_agrees fun _ h => absurd h (Nat.lt_irrefl _)
  exact (nestedPrimary_agrees (hinner .arithmetic) (functionCall_agrees hinner) accepts s
    (Nat.lt_succ_self _)).eq

/-! ## The parser without the limit -/

namespace Parser

/-- A primary and the primaries in it, opened however deep they nest, for so many levels. -/
def unlimitedWithin (catalog : Catalog) : (levels : Nat) → Primary
  | 0, _ => do throw (.tooDeep (← peek).position)
  | levels + 1, accepts => nested (nestedPrimary catalog (unlimitedWithin catalog levels) accepts)

/-- The parser for primaries as it would be without the limit on nesting. -/
def unlimited (catalog : Catalog) : Primary := fun accepts σ =>
  unlimitedWithin catalog (σ.progress.stream.ahead.length + 1) accepts σ

theorem unlimitedWithin_stores (catalog : Catalog) (levels : Nat) (d : Nat) :
    StoresPrimaries d (Dql.primary catalog levels) (unlimitedWithin catalog levels) := by
  induction levels generalizing d with
  | zero => exact fun _ σ _ => tooDeep_tracks σ σ.progress
  | succ levels ih =>
    exact fun accepts σ _ => nested_stores (nestedPrimary_stores (ih _) catalog accepts rfl)

/-- It stores the trees that the parser to trees gives without the limit. -/
theorem unlimited_stores (catalog : Catalog) (d : Nat) :
    StoresPrimaries d (Dql.unlimited catalog) (unlimited catalog) := by
  intro accepts σ hσ
  have hlength : σ.progress.lexemes.length = σ.progress.stream.ahead.length := List.length_map ..
  have hwithin : Stores (Dql.primary catalog (σ.progress.lexemes.length + 1) accepts)
      (unlimitedWithin catalog (σ.progress.lexemes.length + 1) accepts) σ :=
    unlimitedWithin_stores catalog _ d accepts σ hσ
  rw [hlength] at hwithin
  unfold Stores RefinesFrom Dql.unlimited
  rw [hlength]
  exact hwithin

/-- **Without the limit, primaries are opened by the same equation** as with it, but for the
limit. -/
theorem unlimited_eq (catalog : Catalog) (accepts : PrimaryClass) :
    unlimited catalog accepts = nested (nestedPrimary catalog (unlimited catalog) accepts) := by
  funext σ
  have hsame : Stores (Dql.unlimited catalog accepts)
      (nested (nestedPrimary catalog (unlimited catalog) accepts)) σ := by
    rw [Dql.unlimited_eq]
    exact nested_stores (nestedPrimary_stores (unlimited_stores catalog _) catalog accepts rfl)
  exact (unlimited_stores catalog _ accepts σ rfl).unique hsame

end Parser

/-! ## Whole texts -/

theorem wholeWith_agrees {primary primary' : PrimaryParser} {n : Nat}
    (hp : Agrees n early (primary .arithmetic) (primary' .arithmetic)) :
    Agrees n early (wholeWith primary) (wholeWith primary') :=
  (expression_agrees hp).bind fun e => (Agrees.expectEnd.holding e).bind fun _ => .pure e

/-! ## Places of errors -/

/-- Where an error points. -/
def ParseError.position : ParseError → Nat
  | .lexical cause => cause.position
  | .mismatch position _ _ => position
  | .tooDeep position => position

theorem InOrder.position_le_of_lookahead {m : Nat} {l : TokenList} {seen : Ahead}
    (h : InOrder m l.tokens l.ending) (hseen : l.lookahead = .ok seen) : m ≤ seen.position := by
  cases seen with
  | endOfText n =>
    rw [TokenList.eq_of_lookahead_endOfText hseen] at h
    exact h
  | token t =>
    rw [TokenList.eq_prepend_of_lookahead hseen] at h
    exact h.1

/-- An error points to where the parser stopped, or behind that. -/
theorem ParseError.StopsAt.le_position {e : ParseError} {m : Nat} {l : TokenList}
    (h : e.StopsAt l) (horder : InOrder m l.tokens l.ending) : m ≤ e.position := by
  cases e with
  | lexical cause =>
    have hending : l.ending = .fault cause := by
      obtain hfault | ⟨t, -, -, hfault⟩ := h
      · rw [TokenList.eq_of_lookahead_error hfault]
      · exact congrArg TokenList.ending (TokenList.eq_of_lookahead_error hfault)
    have hle := horder.le_ending
    rwa [hending] at hle
  | mismatch position expected found =>
    obtain ⟨⟨seen, hseen, herror⟩, -⟩ := h
    obtain rfl : position = seen.position := (ParseError.mismatch.inj herror).1
    exact horder.position_le_of_lookahead hseen
  | tooDeep position =>
    obtain ⟨seen, hseen, rfl⟩ := h
    exact horder.position_le_of_lookahead hseen

/-- What is seen somewhere does not stand behind an error that is found from there on. -/
theorem position_le_of_goesTo {e : ParseError} {m : Nat} {s s₁ : Progress} {seen : Ahead}
    (hgoes : s.GoesTo s₁) (horder : InOrder m s.list.tokens s.list.ending)
    (hseen : s.list.lookahead = .ok seen) (he : e.StopsAt s₁.list) :
    seen.position ≤ e.position := by
  obtain ⟨taken, htakes⟩ := hgoes
  have hlist := htakes.list
  cases taken with
  | nil =>
    -- nothing is taken, and what is seen is where the error stops
    have hsame : s.list = s₁.list := hlist
    rw [← hsame] at he
    refine he.le_position ?_
    cases seen with
    | endOfText n =>
      rw [TokenList.eq_of_lookahead_endOfText hseen]
      exact Nat.le_refl _
    | token t =>
      rw [TokenList.eq_prepend_of_lookahead hseen] at horder ⊢
      exact ⟨Nat.le_refl _, horder.2⟩
  | cons t ts =>
    obtain rfl : seen = .token t := by
      rw [hlist] at hseen
      exact (Except.ok.inj hseen).symm
    rw [hlist] at horder
    obtain ⟨m', -, hahead, htaken⟩ := horder.append
    exact Nat.le_trans (Nat.le_of_lt (htaken t (List.mem_cons_self ..))) (he.le_position hahead)

/-! ## The limit -/

section Limit

variable {text : String} {e : Expr}

/-- Over the whole of a text the parser with the limit does the same as that without, or stops early
for want of room. -/
theorem whole_agrees (catalog : Catalog) (text : String) :
    AgreesAt (fun err => ∃ position, err = .tooDeep position) (wholeExpression catalog)
      (wholeWith (unlimited catalog)) (.ofText text) :=
  wholeWith_agrees (unlimited_agrees (fun position _ => ⟨position, rfl⟩) .arithmetic) _
    (Nat.lt_succ_self _)

/-- As many levels as a text has tokens, and one more, are as good as no limit. -/
theorem whole_unlimited (catalog : Catalog) (text : String) :
    wholeWith (unlimited catalog) (.ofText text) =
      wholeWith (primary catalog ((Progress.ofText text).lexemes.length + 1)) (.ofText text) := by
  have hagree : AgreesAt (fun _ => False)
      (wholeWith (primary catalog ((Progress.ofText text).lexemes.length + 1)))
      (wholeWith (unlimited catalog)) (.ofText text) :=
    wholeWith_agrees (unlimited_agrees (fun _ h => absurd h (Nat.lt_irrefl _)) .arithmetic) _
      (Nat.lt_succ_self _)
  exact hagree.eq.symm

/-- A text that is parsed without the limit derives. -/
theorem derivation_of_unlimited {s : Progress}
    (hs : wholeWith (unlimited catalog) (.ofText text) = .ok e s) :
    ReadsToEnd text ∧
      ∃ d : Derivation catalog .expression (TokenList.ofText text).lexemes [], d.tree = e := by
  rw [whole_unlimited] at hs
  obtain ⟨hend, d, hd, -⟩ := wholeWithin_sound hs
  exact ⟨hend, d, hd⟩

/-- A text that nests too deep is rejected where it first does. -/
theorem tooDeep_of_derivation (hend : ReadsToEnd text)
    (d : Derivation catalog .expression (TokenList.ofText text).lexemes [])
    (hdeep : maxNesting < d.nesting) :
    ∃ t, (TokenList.ofText text).tokens[(d.levels 0).idxOf (some (maxNesting + 1))]? = some t ∧
      (parse catalog text).1 = .error (.tooDeep t.start) := by
  have hfull : Overflows (wholeExpression catalog) (.ofText text)
      ((TokenList.ofText text).lexemes.drop ((d.levels 0).idxOf (some (maxNesting + 1)))) :=
    Overflows.bind (d.overfull trivial (Phrase.closed_nil _) hdeep
      (by rw [Nat.zero_add]) rfl hend)
  obtain ⟨f, s₁, seen, hfails, hls, hseen, herror⟩ := hfull
  generalize hplace : (d.levels 0).idxOf (some (maxNesting + 1)) = place at hls ⊢
  -- the level is there, so the place is that of a token
  have hmem : some (maxNesting + 1) ∈ d.levels 0 := d.mem_levels_iff.2 (by omega)
  have hlt : place < (TokenList.ofText text).lexemes.length := by
    have hlen := d.length_levels 0
    have hidx := List.idxOf_lt_length_iff.2 hmem
    rw [List.length_nil] at hlen
    omega
  obtain ⟨taken, htakes, -⟩ := (wholeWithin_replays (Nat.le_refl maxNesting) _).error hfails
  have htokens : (TokenList.ofText text).tokens = taken ++ s₁.stream.ahead :=
    congrArg TokenList.tokens htakes.list
  have hlength : taken.length = place := by
    have hahead := congrArg List.length hls
    have hall : (TokenList.ofText text).lexemes.length = taken.length + s₁.lexemes.length :=
      htakes.length_eq
    rw [List.length_drop] at hahead
    omega
  cases seen with
  | endOfText n =>
    have hnil := (Progress.lexemes_eq_nil_of_lookahead hseen).1
    rw [hls, List.drop_eq_nil_iff] at hnil
    omega
  | token t =>
    have hahead : s₁.stream.ahead = t :: s₁.tail.list.tokens :=
      congrArg TokenList.tokens (Progress.list_of_lookahead hseen)
    refine ⟨t, ?_, ?_⟩
    · rw [htokens, List.getElem?_append_right (Nat.le_of_eq hlength), hlength, Nat.sub_self, hahead]
      rfl
    · exact parse_eq_error_iff.2 ⟨f, s₁, hfails, herror⟩

/-- What is left after some tokens stands in order if all of it does. -/
theorem Progress.Takes.inOrder {m : Nat} {taken : List Token} {s s₁ : Progress}
    (h : s.Takes taken s₁) (horder : InOrder m s.list.tokens s.list.ending) :
    ∃ m', InOrder m' s₁.list.tokens s₁.list.ending := by
  rw [h.list] at horder
  obtain ⟨m', -, hahead, -⟩ := horder.append
  exact ⟨m', hahead⟩

/-- Where a parser stops early for want of room is not behind the error of one that agrees with
it. -/
theorem position_le_of_early {α : Type} {p q : Parse α} {m position : Nat} {f f' : Failure}
    {s s₁ s₂ : Progress} (horder : InOrder m s.list.tokens s.list.ending) (hp : Replays p p s)
    (hq : Replays q q s) (hfails : p s = .error f s₁) (htooDeep : f.error = .tooDeep position)
    (hs₂ : q s = .error f' s₂) (hgoes : s₁.GoesTo s₂) : position ≤ f'.error.position := by
  obtain ⟨taken, htakes, hstops, -⟩ := hp.error hfails
  rw [htooDeep] at hstops
  obtain ⟨seen, hseen, rfl⟩ := hstops
  obtain ⟨_, -, hstops₂, -⟩ := hq.error hs₂
  obtain ⟨m', hahead⟩ := htakes.inOrder horder
  exact position_le_of_goesTo hgoes hahead hseen hstops₂

/-- Where room is wanting is not behind an error that is found without the limit. -/
theorem position_le_of_stops {f f' : Failure} {s₁ s₂ : Progress} {position : Nat}
    (hfails : wholeExpression catalog (.ofText text) = .error f s₁)
    (htooDeep : f.error = .tooDeep position)
    (hs₂ : wholeWith (unlimited catalog) (.ofText text) = .error f' s₂) (hgoes : s₁.GoesTo s₂) :
    position ≤ f'.error.position := by
  rw [whole_unlimited] at hs₂
  exact position_le_of_early (ofChars_inOrder 0 text.toList)
    (wholeWithin_replays (Nat.le_refl maxNesting) _) (wholeWithin_replays (Nat.le_refl _) _) hfails
    htooDeep hs₂ hgoes

/-- What a text is parsed to without the limit, told by the parser to trees. -/
theorem parseWith_unlimited_eq (catalog : Catalog) (text : String) :
    Parser.parseWith (Parser.unlimited catalog) text =
      storedResult (wholeWith (unlimited catalog) (.ofText text)) :=
  Parser.parseWith_eq (Parser.unlimited_stores catalog 0) text

/-- **The limit on nesting rejects what nests too deep and changes nothing else.** What parses a
primary is given by an equation with itself in place of the parser for the primaries inside, and
without the limit by the same equation but for the limit. Let a text be parsed without the limit. If
that gives the node of an expression that does not nest too deep, then the text is parsed to the
same node of the same table, with the same reports. If the expression nests too deep, then the text
is rejected at the first token that begins a primary one level too deep. And if it gives an error,
then parsing gives that error, or stops for want of room at a place not behind it. -/
theorem limit_rejects_only_deep (catalog : Catalog) (text : String) :
    (∀ accepts, Parser.primary catalog accepts = (do
      if maxNesting ≤ (← Parser.openPrimaries) then throw (.tooDeep (← Parser.peek).position)
      else Parser.nested (Parser.nestedPrimary catalog (Parser.primary catalog) accepts))) ∧
    (∀ accepts, Parser.unlimited catalog accepts =
      Parser.nested (Parser.nestedPrimary catalog (Parser.unlimited catalog) accepts)) ∧
    (∀ root table, (Parser.parseWith (Parser.unlimited catalog) text).1 = .ok (root, table) →
      ∃ e, table.expr? root = some e ∧
        (e.nesting ≤ maxNesting →
          parseNodes catalog text = Parser.parseWith (Parser.unlimited catalog) text ∧
          (parse catalog text).1 = .ok e) ∧
        (maxNesting < e.nesting →
          ∃ d : Derivation catalog .expression (TokenList.ofText text).lexemes [], d.tree = e ∧
            ∃ t, (TokenList.ofText text).tokens[(d.levels 0).idxOf (some (maxNesting + 1))]? =
                some t ∧
              (parseNodes catalog text).1 = .error (.tooDeep t.start))) ∧
    (∀ err, (Parser.parseWith (Parser.unlimited catalog) text).1 = .error err →
      (parseNodes catalog text).1 = .error err ∨
        ∃ position ≤ err.position,
          (parseNodes catalog text).1 = .error (.tooDeep position)) := by
  have hagree := whole_agrees catalog text
  refine ⟨Parser.primary_eq catalog, Parser.unlimited_eq catalog, fun root table h => ?_,
    fun err h => ?_⟩
  · rw [parseWith_unlimited_eq] at h
    cases hrun : wholeWith (unlimited catalog) (.ofText text) with
    | error f s =>
      rw [hrun] at h
      cases h
    | ok e s =>
      rw [hrun] at h
      have hstore : NodeTable.empty.store e = (root, table) := Except.ok.inj h
      obtain ⟨hend, d, rfl⟩ := derivation_of_unlimited hrun
      have hd : d.tree.nesting = d.nesting := d.nesting_tree
      have hread := NodeTable.expr?_store NodeTable.empty d.tree
      rw [hstore] at hread
      refine ⟨d.tree, hread, fun hnesting => ?_, fun hdeep => ?_⟩
      · have hok : (parse catalog text).1 = .ok d.tree :=
          parse_eq_ok_iff.2 ⟨hend, d, rfl, by omega⟩
        refine ⟨?_, hok⟩
        obtain hsame | ⟨f, s₁, hfails, -⟩ := hagree.same_or_early
        · rw [parseNodes_eq, parseWith_unlimited_eq, hsame]
        · rw [parse_eq_error_iff.2 ⟨f, s₁, hfails, rfl⟩] at hok
          cases hok
      · obtain ⟨t, ht, hdeep⟩ := tooDeep_of_derivation hend d (hd ▸ hdeep)
        exact ⟨d, rfl, t, ht, parseNodes_eq_error_iff.2 hdeep⟩
  · obtain hsame | ⟨f, s₁, hfails, ⟨position, htooDeep⟩, hgoes⟩ := hagree.same_or_early
    · left
      rw [parseNodes_eq, hsame, ← parseWith_unlimited_eq, h]
    · right
      rw [parseWith_unlimited_eq] at h
      cases hs₂ : wholeWith (unlimited catalog) (.ofText text) with
      | ok e s₂ =>
        rw [hs₂] at h
        cases h
      | error f' s₂ =>
        rw [hs₂] at h
        cases h
        rw [Parse.after_of_error hs₂] at hgoes
        exact ⟨position, position_le_of_stops hfails htooDeep hs₂ hgoes,
          parseNodes_eq_error_iff.2 (parse_eq_error_iff.2 ⟨f, s₁, hfails, htooDeep⟩)⟩

end Limit

end Dql
