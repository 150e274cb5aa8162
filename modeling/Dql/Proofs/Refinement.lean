import Dql.Proofs.ParserSteps
import Dql.Session

/-!
# Parsers store the trees that they parse

A parser with a table does, step by step, what the parser to trees does, and what it puts into its
table and onto its stack of arguments is told by the trees: an expression that is parsed is stored,
children first, and nothing else is; what a failure leaves behind is stored too, and those of its
fragments that are arguments of open calls are on the stack.

Each production is shown to do so if the parser for primaries does. The count of open primaries then
comes in with the parser for primaries: what it leaves of `maxNesting` is the room.

* `Parser.storing`, `Parser.withArguments`, `Parser.leaving` - the states that parsers come to;
* `RefinesFrom` - what a parser comes to is told by what another one comes to, with a rule for each
  way of putting parsers together;
* `Stores`, `StoresPrimaries` - a parser stores the expression that another one gives.

Principal results: `primary_stores`, `expression_stores` and `extensionCall_refines`.
-/

namespace Dql

variable {α β γ δ : Type}

/-! ## States -/

namespace NodeTable

/-- Appends the nodes of fragments in turn, and gives the ids of those that are arguments. -/
def storeFragments (t : NodeTable) : List Fragment → List NodeId × NodeTable
  | [] => ([], t)
  | e :: es =>
    let (id, t) := t.store e.expr
    let (ids, t) := t.storeFragments es
    (if e.isArgument then id :: ids else ids, t)

/-- The nodes of fragments are those of their expressions. -/
theorem storeFragments_snd (t : NodeTable) (es : List Fragment) :
    (t.storeFragments es).2 = (t.storeAll (es.map Fragment.expr)).2 := by
  induction es generalizing t with
  | nil => rfl
  | cons e es ih => exact ih (t.store e.expr).2

end NodeTable

namespace Parser

variable (σ : Parser) (s : Progress)

/-- The same state with another place in the text. -/
def movedTo : Parser := { σ with progress := s }

/-- The id and the state that storing an expression gives. -/
def storing (e : Expr) : NodeId × Parser :=
  ((σ.table.store e).1, { σ with table := (σ.table.store e).2 })

/-- The ids and the state that storing several expressions gives. -/
def storingAll (es : List Expr) : List NodeId × Parser :=
  ((σ.table.storeAll es).1, { σ with table := (σ.table.storeAll es).2 })

/-- The state with an argument stored and put on the stack. -/
def withArgument (e : Expr) : Parser :=
  { (σ.storing e).2 with scratch := σ.scratch.push (σ.storing e).1 }

/-- The state with several arguments stored and put on the stack. -/
def withArguments : Parser → List Expr → Parser
  | σ, [] => σ
  | σ, e :: es => (σ.withArgument e).withArguments es

/-- The state with the fragments of a failure stored, and those that are arguments put on the
stack. -/
def leaving (fragments : List Fragment) : Parser :=
  { σ with
    table := (σ.table.storeFragments fragments).2
    scratch := σ.scratch ++ (σ.table.storeFragments fragments).1.toArray }

theorem leaving_nil : σ.leaving [] = σ := by
  simp [leaving, NodeTable.storeFragments]

theorem leaving_expr (e : Expr) : σ.leaving [(e : Fragment)] = (σ.storing e).2 := by
  simp [leaving, NodeTable.storeFragments, storing]

theorem leaving_argument (e : Expr) : σ.leaving [.argument e] = σ.withArgument e := by
  simp [leaving, NodeTable.storeFragments, Fragment.argument, withArgument, storing]

theorem leaving_cons (e : Fragment) (es : List Fragment) :
    σ.leaving (e :: es) = (σ.leaving [e]).leaving es := by
  cases h : e.isArgument <;> simp [leaving, NodeTable.storeFragments, h]

theorem leaving_append (es fs : List Fragment) :
    σ.leaving (es ++ fs) = (σ.leaving es).leaving fs := by
  induction es generalizing σ with
  | nil => rw [leaving_nil, List.nil_append]
  | cons e es ih => rw [List.cons_append, leaving_cons, ih, ← leaving_cons]

theorem leaving_arguments (es : List Expr) :
    σ.leaving (es.map .argument) = σ.withArguments es := by
  induction es generalizing σ with
  | nil => exact σ.leaving_nil
  | cons e es ih => rw [List.map_cons, leaving_cons, leaving_argument, ih, withArguments]

/-- On the stack are the ids of the arguments, in their order. -/
theorem withArguments_eq (es : List Expr) :
    σ.withArguments es =
      { (σ.storingAll es).2 with scratch := σ.scratch ++ (σ.storingAll es).1.toArray } := by
  induction es generalizing σ with
  | nil => simp [withArguments, storingAll, NodeTable.storeAll]
  | cons e es ih =>
    rw [withArguments, ih]
    simp [withArgument, storing, storingAll, NodeTable.storeAll]

@[simp] theorem depth_withArguments (es : List Expr) : (σ.withArguments es).depth = σ.depth := by
  rw [withArguments_eq]
  rfl

end Parser

/-! ## Refinement -/

/-- From the state `σ`, the parser `q` comes to what `p` tells. If `p` succeeds with `a`, then `q`
succeeds with the result and the state `ok a`. If `p` fails, then `q` fails with the same error, and
what is left behind is kept in addition to what the state `base` has. Both stop at the same place of
the text. -/
def RefinesFrom (base : Parser) (ok : α → β × Parser) (p : Parse α) (q : ParserM β) (σ : Parser) :
    Prop :=
  q σ = match p σ.progress with
    | .ok a s => .ok (ok a).1 ((ok a).2.movedTo s)
    | .error f s => .error f.error ((base.leaving f.fragments).movedTo s)

/-- From the state `σ`, the parser `q` stores the expression that `p` gives, and nothing else. -/
def Stores (p : Parse Expr) (q : ParserM NodeId) (σ : Parser) : Prop :=
  RefinesFrom σ σ.storing p q σ

namespace RefinesFrom

variable {base σ : Parser} {ok : α → β × Parser} {ok' : γ → δ × Parser} {p : Parse α}
  {q : ParserM β}

theorem of_ok (h : RefinesFrom base ok p q σ) {a : α} {s : Progress}
    (hp : p σ.progress = .ok a s) : q σ = .ok (ok a).1 ((ok a).2.movedTo s) := by
  rw [RefinesFrom, hp] at h
  exact h

theorem of_error (h : RefinesFrom base ok p q σ) {f : Failure} {s : Progress}
    (hp : p σ.progress = .error f s) :
    q σ = .error f.error ((base.leaving f.fragments).movedTo s) := by
  rw [RefinesFrom, hp] at h
  exact h

theorem intro_ok {a : α} {s : Progress} (hp : p σ.progress = .ok a s)
    (hq : q σ = .ok (ok a).1 ((ok a).2.movedTo s)) : RefinesFrom base ok p q σ := by
  rw [RefinesFrom, hp]
  exact hq

theorem intro_error {f : Failure} {s : Progress} (hp : p σ.progress = .error f s)
    (hq : q σ = .error f.error ((base.leaving f.fragments).movedTo s)) :
    RefinesFrom base ok p q σ := by
  rw [RefinesFrom, hp]
  exact hq

/-- Parsers that come to what the same trees tell come to the same. -/
theorem unique {q' : ParserM β} (h : RefinesFrom base ok p q σ)
    (h' : RefinesFrom base ok p q' σ) : q σ = q' σ :=
  h.trans h'.symm

/-! ### Ways of putting parsers together -/

theorem bind {f : α → Parse γ} {g : β → ParserM δ} (h : RefinesFrom base ok p q σ)
    (hf : ∀ a s, p σ.progress = .ok a s →
      RefinesFrom base ok' (f a) (g (ok a).1) ((ok a).2.movedTo s)) :
    RefinesFrom base ok' (p >>= f) (q >>= g) σ := by
  unfold RefinesFrom at *
  simp only [Bind.bind, EStateM.bind, h]
  cases hp : p σ.progress with
  | ok a s => exact hf a s hp
  | error f s => rfl

/-- Making something else of the tree takes no step. -/
theorem map {f : α → γ} {ok' : γ → β × Parser} (h : RefinesFrom base ok p q σ)
    (hok : ∀ a, ok' (f a) = ok a) :
    RefinesFrom base ok' (p >>= fun a => Pure.pure (f a)) q σ := by
  cases hp : p σ.progress with
  | ok a s =>
    have hmap : (p >>= fun a => Pure.pure (f a)) σ.progress = .ok (f a) s := by
      rw [Parse.bind_of_ok hp]
      rfl
    exact intro_ok hmap (by rw [hok]; exact h.of_ok hp)
  | error f' s => exact intro_error (Parse.bind_of_error hp _) (h.of_error hp)

/-- Nor does making something else of the result. -/
theorem mapResult {g : β → δ} (h : RefinesFrom base ok p q σ) :
    RefinesFrom base (fun a => (g (ok a).1, (ok a).2)) p (q >>= fun b => Pure.pure (g b)) σ := by
  cases hp : p σ.progress with
  | ok a s =>
    refine intro_ok hp ?_
    simp only [Bind.bind, EStateM.bind, h.of_ok hp]
    rfl
  | error f s =>
    refine intro_error hp ?_
    simp only [Bind.bind, EStateM.bind, h.of_error hp]

/-- What waits for its place is left behind together with what the parser leaves behind. -/
theorem holding {e : Fragment} (h : RefinesFrom (base.leaving [e]) ok p q σ) :
    RefinesFrom base ok (Dql.holding e p) q σ := by
  cases hp : p σ.progress with
  | ok a s => exact intro_ok (holding_ok_iff.2 hp) (h.of_ok hp)
  | error f s =>
    have hholding : Dql.holding e p σ.progress =
        .error { f with fragments := e :: f.fragments } s := by
      simp only [Dql.holding, EStateM.adaptExcept, hp]
    exact intro_error hholding (by rw [Parser.leaving_cons]; exact h.of_error hp)

theorem holdingExpr {e : Expr} (h : RefinesFrom (base.storing e).2 ok p q σ) :
    RefinesFrom base ok (Dql.holding e p) q σ :=
  holding (by rwa [Parser.leaving_expr])

theorem holdingArgument {e : Expr} (h : RefinesFrom (base.withArgument e) ok p q σ) :
    RefinesFrom base ok (Dql.holding (.argument e) p) q σ :=
  holding (by rwa [Parser.leaving_argument])

theorem holdingAll {es : List Expr} (h : RefinesFrom (base.withArguments es) ok p q σ) :
    RefinesFrom base ok (Dql.holdingAll es p) q σ := by
  cases hp : p σ.progress with
  | ok a s => exact intro_ok (holdingAll_ok_iff.2 hp) (h.of_ok hp)
  | error f s =>
    have hholding : Dql.holdingAll es p σ.progress =
        .error { f with fragments := es.map .argument ++ f.fragments } s := by
      simp only [Dql.holdingAll, EStateM.adaptExcept, hp]
    refine intro_error hholding ?_
    rw [Parser.leaving_append, Parser.leaving_arguments]
    exact h.of_error hp

theorem pure {a : α} {b : β} (hvalue : (ok a).1 = b)
    (hstate : (ok a).2.movedTo σ.progress = σ) :
    RefinesFrom base ok (Pure.pure a) (Pure.pure b) σ := by
  refine intro_ok rfl ?_
  rw [hvalue, hstate]
  rfl

theorem discard {p : Parse α} {q : ParserM α} {τ : Parser}
    (h : RefinesFrom base (fun a => (a, τ)) p q σ) :
    RefinesFrom base (fun u => (u, τ)) (Functor.discard p : Parse Unit)
      (Functor.discard q : ParserM Unit) σ :=
  h.bind fun _ _ _ => .pure rfl rfl

theorem fail {ok : α → β × Parser} (e : ParseError) (σ : Parser) (s : Progress) :
    RefinesFrom σ ok (Parse.fail e) (throw e) (σ.movedTo s) := by
  refine intro_error rfl ?_
  rw [Parser.leaving_nil]
  rfl

end RefinesFrom

/-! ## Steps over tokens -/

/-- From every state, `q` comes to what `p` comes to, and does nothing to the table and the
stack. -/
abbrev Tracks (p : Parse α) (q : ParserM α) : Prop :=
  ∀ (σ : Parser) (s : Progress), RefinesFrom σ (fun a => (a, σ)) p q (σ.movedTo s)

/-- The same for a step that never fails, so that nothing is ever left behind. -/
abbrev Passes (p : Parse α) (q : ParserM α) : Prop :=
  ∀ (base σ : Parser) (s : Progress), RefinesFrom base (fun a => (a, σ)) p q (σ.movedTo s)

theorem advance_passes : Passes advance Parser.advance := fun _ _ _ => .intro_ok rfl rfl

theorem tokensAhead_passes : Passes tokensAhead Parser.tokensAhead := fun _ _ _ => .intro_ok rfl rfl

theorem dispatch_passes (name : Token) : Passes (dispatch name) (Parser.dispatch name) :=
  fun _ _ _ => .intro_ok rfl rfl

theorem takeIf_passes (kind : TokenKind) : Passes (takeIf kind) (Parser.takeIf kind) := by
  intro base σ s
  have hget : RefinesFrom base (fun s => (σ.movedTo s, σ)) (get : Parse Progress)
      (get : ParserM Parser) (σ.movedTo s) := .intro_ok rfl rfl
  refine hget.bind fun s₁ s₂ _ => ?_
  dsimp only [Parser.movedTo]
  cases s₁.stream.ahead with
  | nil => exact .pure rfl rfl
  | cons t ts =>
    dsimp only
    split
    · exact (advance_passes base σ s₂).bind fun _ _ _ => .pure rfl rfl
    · exact .pure rfl rfl

theorem peek_tracks : Tracks peek Parser.peek := by
  intro σ s
  have hget : (get : ParserM Parser) (σ.movedTo s) = .ok (σ.movedTo s) (σ.movedTo s) := rfl
  have hsame : (σ.movedTo s).progress.stream.lookahead = s.stream.lookahead := rfl
  cases hseen : s.stream.lookahead with
  | ok seen =>
    refine .intro_ok (peek_ok_iff.2 ⟨hseen, rfl⟩) ?_
    simp only [Parser.peek, bind, EStateM.bind, hget, hsame, hseen]
    rfl
  | error cause =>
    refine .intro_error (peek_eq_error hseen) ?_
    simp only [Parser.peek, bind, EStateM.bind, hget, hsame, hseen, Parser.leaving_nil]
    rfl

theorem peekSecond_tracks : Tracks peekSecond Parser.peekSecond := by
  intro σ s
  have hget : (get : ParserM Parser) (σ.movedTo s) = .ok (σ.movedTo s) (σ.movedTo s) := rfl
  have hsame : (σ.movedTo s).progress.stream.skip.lookahead = s.tail.stream.lookahead := rfl
  cases hseen : s.tail.stream.lookahead with
  | ok seen =>
    refine .intro_ok (peekSecond_ok_iff.2 ⟨hseen, rfl⟩) ?_
    simp only [Parser.peekSecond, bind, EStateM.bind, hget, hsame, hseen]
    rfl
  | error cause =>
    refine .intro_error (peekSecond_eq_error hseen) ?_
    simp only [Parser.peekSecond, bind, EStateM.bind, hget, hsame, hseen, Parser.leaving_nil]
    rfl

theorem take_tracks (kind : TokenKind) : Tracks (take kind) (Parser.take kind) := by
  intro σ s
  refine (peek_tracks σ s).bind fun seen s₁ _ => ?_
  cases seen with
  | endOfText => exact .fail _ σ s₁
  | token t =>
    dsimp only
    split
    · exact (advance_passes σ σ s₁).bind fun _ _ _ => .pure rfl rfl
    · exact .fail _ σ s₁

theorem expectEnd_tracks : Tracks expectEnd Parser.expectEnd := by
  intro σ s
  refine (peek_tracks σ s).bind fun seen s₁ _ => ?_
  cases seen with
  | endOfText => exact .pure rfl rfl
  | token t => exact .fail _ σ s₁

theorem callHead_tracks : Tracks callHead Parser.callHead := fun σ s =>
  (take_tracks .identifier σ s).discard.bind fun _ s₁ _ => (take_tracks .parenLeft σ s₁).discard

/-! ## Productions -/

/-- With `d` primaries open, the parser for primaries stores what the one to trees gives. -/
def StoresPrimaries (d : Nat) (primary : PrimaryParser) (primary' : Parser.Primary) : Prop :=
  ∀ (accepts : PrimaryClass) (σ : Parser), σ.depth = d →
    Stores (primary accepts) (primary' accepts) σ

section Productions

variable {d : Nat} {primary : PrimaryParser} {primary' : Parser.Primary}

theorem factor_stores (h : StoresPrimaries d primary primary') {σ : Parser} (hσ : σ.depth = d) :
    Stores (factor primary) (Parser.factor primary') σ := by
  refine (peek_tracks σ σ.progress).bind fun seen s _ => ?_
  dsimp only
  cases seen.kind?.bind TokenKind.sign? with
  | none => exact h .arithmetic (σ.movedTo s) hσ
  | some sign =>
    refine (advance_passes σ σ s).bind fun _ s₁ _ => ?_
    refine (h .arithmetic (σ.movedTo s₁) hσ).bind fun operand s₂ _ => ?_
    exact .intro_ok rfl rfl

/-- The loop over operators, with its left operand in the table. -/
theorem operators_stores (h : StoresPrimaries d primary primary') (bound least : Nat) (left : Expr)
    (σ : Parser) (hσ : σ.depth = d) (s : Progress) :
    RefinesFrom σ σ.storing (operators primary bound least left)
      (Parser.operators primary' bound least (σ.storing left).1)
      ((σ.storing left).2.movedTo s) := by
  induction bound generalizing least left σ s with
  | zero =>
    rw [operators, Parser.operators]
    refine (RefinesFrom.holdingExpr (peek_tracks (σ.storing left).2 s)).bind fun seen s₁ _ => ?_
    dsimp only
    cases seen.kind?.bind TokenKind.operator? with
    | none => exact .pure rfl rfl
    | some op =>
      dsimp only
      split <;> exact .pure rfl rfl
  | succ bound ih =>
    rw [operators, Parser.operators]
    refine (RefinesFrom.holdingExpr (peek_tracks (σ.storing left).2 s)).bind fun seen s₁ _ => ?_
    dsimp only
    cases seen.kind?.bind TokenKind.operator? with
    | none => exact .pure rfl rfl
    | some op =>
      dsimp only
      split
      · exact .pure rfl rfl
      · refine (advance_passes σ (σ.storing left).2 s₁).bind fun _ s₂ _ => ?_
        have hfactor : Stores (factor primary) (Parser.factor primary')
            ((σ.storing left).2.movedTo s₂) := factor_stores h hσ
        refine (RefinesFrom.holdingExpr hfactor).bind fun operand s₃ _ => ?_
        have hright := ih (op.power + 1) operand (σ.storing left).2 hσ s₃
        refine (RefinesFrom.holdingExpr hright).bind fun right s₄ _ => ?_
        exact ih least (.binary left op right) σ hσ s₄

theorem operation_stores (h : StoresPrimaries d primary primary') (least : Nat) {σ : Parser}
    (hσ : σ.depth = d) : Stores (operation primary least) (Parser.operation primary' least) σ :=
  (factor_stores h hσ).bind fun operand s _ =>
    (tokensAhead_passes σ (σ.storing operand).2 s).bind fun bound s₁ _ =>
      operators_stores h bound least operand σ hσ s₁

theorem expression_stores (h : StoresPrimaries d primary primary') {σ : Parser}
    (hσ : σ.depth = d) : Stores (expression primary) (Parser.expression primary') σ :=
  operation_stores h 0 hσ

/-- The loop over arguments puts them on the stack. -/
theorem moreArguments_refines (h : StoresPrimaries d primary primary') (bound : Nat) (σ : Parser)
    (hσ : σ.depth = d) (s : Progress) :
    RefinesFrom σ (fun es => ((), σ.withArguments es)) (moreArguments primary bound)
      (Parser.moreArguments primary' bound) (σ.movedTo s) := by
  induction bound generalizing σ s with
  | zero => exact .pure rfl rfl
  | succ bound ih =>
    rw [moreArguments, Parser.moreArguments]
    refine (takeIf_passes .comma σ σ s).bind fun comma s₁ _ => ?_
    cases comma with
    | false => exact .pure rfl rfl
    | true =>
      have hnext : Stores (expression primary) (Parser.expression primary') (σ.movedTo s₁) :=
        expression_stores h hσ
      refine hnext.bind fun arg s₂ _ => ?_
      exact RefinesFrom.map (.holdingArgument (ih (σ.withArgument arg) hσ s₂)) fun _ => rfl

theorem arguments_refines (h : StoresPrimaries d primary primary') (σ : Parser) (hσ : σ.depth = d)
    (s : Progress) :
    RefinesFrom σ (fun es => ((), σ.withArguments es)) (arguments primary)
      (Parser.arguments primary') (σ.movedTo s) := by
  refine (peek_tracks σ s).bind fun seen s₁ _ => ?_
  dsimp only
  split
  · exact .pure rfl rfl
  · have hfirst : Stores (expression primary) (Parser.expression primary') (σ.movedTo s₁) :=
      expression_stores h hσ
    refine hfirst.bind fun arg s₂ _ => ?_
    have hmore : RefinesFrom (σ.withArgument arg)
        (fun es => ((), (σ.withArgument arg).withArguments es))
        (tokensAhead >>= moreArguments primary)
        (Parser.tokensAhead >>= Parser.moreArguments primary')
        ((σ.withArgument arg).movedTo s₂) :=
      (tokensAhead_passes _ (σ.withArgument arg) s₂).bind fun bound s₃ _ =>
        moreArguments_refines h bound (σ.withArgument arg) hσ s₃
    exact RefinesFrom.map (.holdingArgument hmore) fun _ => rfl

/-- Taking the arguments of a call from the stack gives all of them, and leaves those of the calls
around it. -/
theorem drain_withArguments (σ : Parser) (es : List Expr) (s : Progress) :
    Parser.drain σ.scratch.size ((σ.withArguments es).movedTo s) =
      .ok (σ.storingAll es).1 ((σ.storingAll es).2.movedTo s) := by
  have hdrain : ∀ (start : Nat) (τ : Parser), Parser.drain start τ =
      .ok (τ.scratch.extract start τ.scratch.size).toList
        { τ with scratch := τ.scratch.shrink start } := fun _ _ => rfl
  rw [hdrain, Parser.withArguments_eq]
  simp [Parser.movedTo, Parser.storingAll]

theorem builtinCall_stores (h : StoresPrimaries d primary primary') (function : Builtin)
    {σ : Parser} (hσ : σ.depth = d) :
    Stores (builtinCall primary function) (Parser.builtinCall primary' function) σ := by
  have hcall : RefinesFrom σ σ.storing (builtinCall primary function) (do
      Parser.callHead
      Parser.arguments primary'
      discard <| Parser.take .parenRight
      Parser.pushCall function (← Parser.drain σ.scratch.size)) σ := by
    refine (callHead_tracks σ σ.progress).bind fun _ s _ => ?_
    refine (arguments_refines h σ hσ s).bind fun args s₁ _ => ?_
    have htake := take_tracks .parenRight (σ.withArguments args) s₁
    refine (RefinesFrom.holdingAll htake).discard.bind fun _ s₂ _ => ?_
    refine .intro_ok rfl ?_
    simp only [bind, EStateM.bind, drain_withArguments]
    rfl
  exact hcall

/-- Filling a form stores what is in its slots. -/
theorem fill_refines (h : StoresPrimaries d primary primary') (form : List Piece) (σ : Parser)
    (hσ : σ.depth = d) (s : Progress) :
    RefinesFrom σ (fun filled => ((filled.1, (σ.storingAll filled.2).1), (σ.storingAll filled.2).2))
      (fill primary form) (Parser.fill primary' form) (σ.movedTo s) := by
  induction form generalizing σ s with
  | nil => exact (take_tracks .parenRight σ s).discard.bind fun _ s₁ _ => .pure rfl rfl
  | cons piece form ih =>
    cases piece with
    | word =>
      refine (take_tracks .identifier σ s).bind fun word s₁ _ => ?_
      exact (ih σ hσ s₁).bind fun filled s₂ _ => .pure rfl rfl
    | keyword sql => exact (take_tracks .identifier σ s).discard.bind fun _ s₁ _ => ih σ hσ s₁
    | comma => exact (take_tracks .comma σ s).discard.bind fun _ s₁ _ => ih σ hσ s₁
    | expression =>
      have hslot : Stores (expression primary) (Parser.expression primary') (σ.movedTo s) :=
        expression_stores h hσ
      refine hslot.bind fun slot s₁ _ => ?_
      refine (RefinesFrom.holdingExpr (ih (σ.storing slot).2 hσ s₁)).bind fun filled s₂ _ => ?_
      exact .pure rfl rfl
    | primary accepts =>
      refine (h accepts (σ.movedTo s) hσ).bind fun slot s₁ _ => ?_
      refine (RefinesFrom.holdingExpr (ih (σ.storing slot).2 hσ s₁)).bind fun filled s₂ _ => ?_
      exact .pure rfl rfl

/-- What a call of an extension gives when its form is filled. -/
def Parser.storingCall (σ : Parser) (function : Extension) (filled : List String × List Expr) :
    ExtensionCall × Parser :=
  (⟨function, filled.1, (σ.storingAll filled.2).1⟩, (σ.storingAll filled.2).2)

theorem extensionCall_refines (h : StoresPrimaries d primary primary') (function : Extension)
    (σ : Parser) (hσ : σ.depth = d) (s : Progress) :
    RefinesFrom σ (σ.storingCall function) (extensionCall primary function)
      (Parser.extensionCall primary' function) (σ.movedTo s) := by
  refine (callHead_tracks σ s).bind fun _ s₁ _ => ?_
  exact (fill_refines h function.form σ hσ s₁).mapResult

theorem functionCall_stores (h : StoresPrimaries d primary primary') (catalog : Catalog)
    (name : Token) {σ : Parser} (hσ : σ.depth = d) :
    Stores (functionCall catalog primary name) (Parser.functionCall catalog primary' name) σ := by
  unfold functionCall Parser.functionCall
  cases Builtin.ofName? name.text with
  | some function => exact builtinCall_stores h function hσ
  | none =>
    cases catalog.find? name.text with
    | none => exact .fail _ σ σ.progress
    | some entry =>
      refine (dispatch_passes name σ σ σ.progress).bind fun _ s _ => ?_
      refine (extensionCall_refines h entry.extension σ hσ s).bind fun filled s₁ _ => ?_
      exact .intro_ok rfl rfl

theorem nestedPrimary_stores (h : StoresPrimaries d primary primary') (catalog : Catalog)
    (accepts : PrimaryClass) {σ : Parser} (hσ : σ.depth = d) :
    Stores (nestedPrimary catalog primary accepts)
      (Parser.nestedPrimary catalog primary' accepts) σ := by
  refine (peek_tracks σ σ.progress).bind fun seen s _ => ?_
  cases seen with
  | endOfText => exact .fail _ σ s
  | token t =>
    -- a primary of one token
    have hleaf : ∀ (s : Progress) (e : Expr) (node : Node), (∀ u : NodeTable,
        u.store e = u.push node) →
        RefinesFrom σ σ.storing (do advance; return e) (do Parser.advance; Parser.push node)
          (σ.movedTo s) := by
      intro s e node hnode
      refine (advance_passes σ σ s).bind fun _ s₁ _ => .intro_ok rfl ?_
      simp only [Parser.storing, hnode]
      rfl
    have hfail : ∀ e, RefinesFrom σ σ.storing (Parse.fail e) (throw e) (σ.movedTo s) := fun e =>
      .fail e σ s
    dsimp only
    cases t.kind with
    | parenLeft =>
      cases accepts with
      | string => exact hfail _
      | arithmetic =>
        refine (advance_passes σ σ s).bind fun _ s₁ _ => ?_
        have hinner : Stores (expression primary) (Parser.expression primary') (σ.movedTo s₁) :=
          expression_stores h hσ
        refine hinner.bind fun inner s₂ _ => ?_
        have htake := take_tracks .parenRight (σ.storing inner).2 s₂
        refine (RefinesFrom.holdingExpr htake).discard.bind fun _ s₃ _ => ?_
        exact .intro_ok rfl rfl
    | integer | float =>
      cases accepts with
      | string => exact hfail _
      | arithmetic => exact hleaf s _ _ fun _ => rfl
    | string | parameter | path => exact hleaf s _ _ fun _ => rfl
    | identifier =>
      refine (peekSecond_tracks σ s).bind fun second s₁ _ => ?_
      dsimp only
      split
      · exact functionCall_stores h catalog t hσ
      · cases accepts with
        | arithmetic => exact hleaf s₁ _ _ fun _ => rfl
        | string => exact .fail _ σ s₁
    | parenRight | comma | plus | minus | asterisk | slash => exact hfail _

/-- A primary that is opened is closed again, and then the count is what it was. -/
theorem nested_stores {p : Parse Expr} {q : ParserM NodeId} {σ : Parser}
    (h : Stores p q { σ with depth := σ.depth + 1 }) : Stores p (Parser.nested q) σ := by
  cases hp : p σ.progress with
  | ok e s =>
    refine .intro_ok hp ?_
    have hq := h.of_ok hp
    simp only [Parser.nested, hq]
    rfl
  | error f s =>
    refine .intro_error hp ?_
    have hq := h.of_error hp
    simp only [Parser.nested, hq]
    rfl

end Productions

/-! ## Primaries -/

/-- The position at which a primary would be too deep, or the error of looking for it. -/
theorem tooDeep_tracks {ok : α → β × Parser} (σ : Parser) (s : Progress) :
    RefinesFrom σ ok (do Parse.fail (.tooDeep (← peek).position))
      (do throw (.tooDeep (← Parser.peek).position)) (σ.movedTo s) :=
  (peek_tracks σ s).bind fun _ s₁ _ => .fail _ σ s₁

/-- The count of open primaries tells the room: a primary that is opened has one less inside. -/
theorem limitedPrimary_stores (catalog : Catalog) (accepts : PrimaryClass)
    {primary' : Parser.Primary} {σ : Parser} (h : StoresPrimaries (σ.depth + 1)
      (primary catalog (maxNesting - (σ.depth + 1))) primary') :
    Stores (primary catalog (maxNesting - σ.depth) accepts)
      (Parser.limitedPrimary catalog primary' accepts) σ := by
  have hguard : Stores (primary catalog (maxNesting - σ.depth) accepts)
      (if maxNesting ≤ σ.depth then do throw (.tooDeep (← Parser.peek).position)
      else Parser.nested (Parser.nestedPrimary catalog primary' accepts)) σ := by
    split
    · rename_i hfull
      rw [Nat.sub_eq_zero_of_le hfull]
      exact tooDeep_tracks σ σ.progress
    · have hroom : maxNesting - σ.depth = maxNesting - (σ.depth + 1) + 1 := by omega
      rw [hroom]
      exact nested_stores (nestedPrimary_stores h catalog accepts rfl)
  exact hguard

/-- As long as there are levels for all the room, primaries are stored that have just that room. -/
theorem primaryWithin_stores (catalog : Catalog) (levels : Nat) (accepts : PrimaryClass)
    {σ : Parser} (hlevels : maxNesting < σ.depth + levels) :
    Stores (primary catalog (maxNesting - σ.depth) accepts)
      (Parser.primaryWithin catalog levels accepts) σ := by
  induction levels generalizing accepts σ with
  | zero =>
    rw [Nat.sub_eq_zero_of_le (by omega)]
    exact tooDeep_tracks σ σ.progress
  | succ levels ih =>
    refine limitedPrimary_stores catalog accepts fun accepts τ hτ => ?_
    rw [← hτ]
    exact ih accepts (by omega)

/-- **A primary is stored**, with what the open primaries leave of the limit as room. -/
theorem primary_stores (catalog : Catalog) (accepts : PrimaryClass) (σ : Parser) :
    Stores (primary catalog (maxNesting - σ.depth) accepts) (Parser.primary catalog accepts) σ :=
  primaryWithin_stores catalog (maxNesting + 1) accepts (by omega)

theorem storesPrimaries (catalog : Catalog) (d : Nat) :
    StoresPrimaries d (primary catalog (maxNesting - d)) (Parser.primary catalog) := by
  rintro accepts σ rfl
  exact primary_stores catalog accepts σ

/-- **The parser for primaries satisfies its own equation**: the levels that its definition counts
never run out, since as many primaries are open before. -/
theorem Parser.primary_eq (catalog : Catalog) (accepts : PrimaryClass) :
    Parser.primary catalog accepts =
      Parser.limitedPrimary catalog (Parser.primary catalog) accepts := by
  funext σ
  exact (primary_stores catalog accepts σ).unique
    (limitedPrimary_stores catalog accepts (storesPrimaries catalog (σ.depth + 1)))

/-! ## Whole texts -/

theorem wholeText_stores {primary : PrimaryParser} {primary' : Parser.Primary} {σ : Parser}
    (h : StoresPrimaries σ.depth primary primary') :
    Stores (wholeWith primary) (Parser.wholeText primary') σ := by
  refine (expression_stores h rfl).bind fun e s _ => ?_
  exact (RefinesFrom.holdingExpr (expectEnd_tracks (σ.storing e).2 s)).bind fun _ _ _ =>
    .pure rfl rfl

/-- What a whole text is parsed to if the parser to trees comes to this: the expression is stored in
an empty table. -/
def storedResult :
    EStateM.Result Failure Progress Expr → Except ParseError (NodeId × NodeTable) × List Event
  | .ok e s => (.ok (NodeTable.empty.store e), s.dispatched)
  | .error f s => (.error f.error, s.dispatched)

/-- What a whole text is parsed to is told by the parser to trees. -/
theorem Parser.parseWith_eq {primary : PrimaryParser} {primary' : Parser.Primary}
    (h : StoresPrimaries 0 primary primary') (text : String) :
    Parser.parseWith primary' text = storedResult (wholeWith primary (.ofText text)) := by
  have hstores : Stores (wholeWith primary) (Parser.wholeText primary') (Parser.start text) :=
    wholeText_stores h
  unfold Parser.parseWith
  cases hrun : wholeWith primary (.ofText text) with
  | ok e s =>
    rw [hstores.of_ok hrun]
    rfl
  | error f s =>
    rw [hstores.of_error hrun]
    rfl

end Dql
