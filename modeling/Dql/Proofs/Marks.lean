import Dql.Proofs.Lookahead
import Dql.Proofs.RoundTrip
import Dql.Proofs.TreeSessions

/-!
# Where each token went

Every token that a parser takes is part of the expression that it gives, or of those that it leaves
behind: an expression accounts for as many tokens as it was written with, in their order, and each
call of an extension in it for the token of its name, at which the call was reported.

* `Mark`, `Expr.marks` - what an expression says of each of its tokens;
* `Noted`, `callNames` - tokens with marks that a catalog agrees with, and those that have one;
* `Reports` - going over tokens with marks, and reporting those that have one;
* `Marked` - a parser that accounts for all that it takes.

Principal results: `expression_marked`, `primary_marked` and `extensionCall_marked`.
-/

namespace Dql

/-! ## Marks -/

/-- What an expression says of one of its tokens: the extension that is called there, if the token
is the name in such a call. -/
abbrev Mark := Option Extension

/-- The marks of what stands between the parentheses of an extension's call, up to the closing one.
The slots' marks take their places in the form. -/
def markForm : List Piece → List (List Mark) → List Mark
  | [], slots => slots.flatten
  | .word :: form, slots => none :: markForm form slots
  | .keyword _ :: form, slots => none :: markForm form slots
  | .comma :: form, slots => none :: markForm form slots
  | .expression :: form, slots => slots.headD [] ++ markForm form slots.tail
  | .primary _ :: form, slots => slots.headD [] ++ markForm form slots.tail

mutual

/-- The marks of the tokens of an expression, in their order. -/
def Expr.marks : Expr → List Mark
  | .number _ | .string _ | .path _ _ | .parameter _ => [none]
  | .call _ args => none :: none :: List.intercalate [none] (marksOfList args) ++ [none]
  | .extension function _ slots =>
    some function :: none :: markForm function.form (marksOfList slots) ++ [none]
  | .binary left _ right => left.marks ++ none :: right.marks
  | .signed _ operand => none :: operand.marks
  | .paren inner => none :: inner.marks ++ [none]

/-- The marks of each expression of a list. -/
def marksOfList : List Expr → List (List Mark)
  | [] => []
  | e :: es => e.marks :: marksOfList es

end

theorem marksOfList_eq_map (es : List Expr) : marksOfList es = es.map Expr.marks := by
  induction es with
  | nil => rfl
  | cons e es ih => rw [marksOfList, ih, List.map_cons]

theorem filterMap_none_cons (marks : List Mark) :
    (none :: marks : List Mark).filterMap id = marks.filterMap id := rfl

theorem filterMap_some_cons (function : Extension) (marks : List Mark) :
    (some function :: marks : List Mark).filterMap id = function :: marks.filterMap id := rfl

theorem filterMap_append_none (marks : List Mark) :
    (marks ++ [none]).filterMap id = marks.filterMap id := by
  rw [List.filterMap_append]
  exact List.append_nil _

/-- What is between the parentheses of a form accounts for all that is in its slots. -/
theorem filterMap_markForm (form : List Piece) (slots : List (List Mark)) :
    (markForm form slots).filterMap id = slots.flatMap fun ms => ms.filterMap id := by
  induction form generalizing slots with
  | nil => rw [markForm, List.filterMap_flatten, List.flatMap_def]
  | cons piece form ih =>
    cases piece with
    | word | keyword | comma => exact ih slots
    | expression | primary =>
      rw [markForm, List.filterMap_append, ih]
      cases slots <;> rfl

/-- What is between the parentheses of a form has all that is in its slots. -/
theorem sublist_markForm (form : List Piece) (slots : List (List Mark)) :
    slots.flatten.Sublist (markForm form slots) := by
  induction form generalizing slots with
  | nil => exact .refl _
  | cons piece form ih =>
    cases piece with
    | word | keyword | comma => exact (ih slots).cons none
    | expression | primary =>
      cases slots with
      | nil => exact List.nil_sublist _
      | cons slot slots => exact (List.Sublist.refl slot).append (ih slots)

theorem filterMap_intercalate (lists : List (List Mark)) :
    (List.intercalate [none] lists).filterMap id = lists.flatMap fun ms => ms.filterMap id := by
  induction lists with
  | nil => rfl
  | cons ms lists ih =>
    cases lists with
    | nil => simp
    | cons ms' lists =>
      rw [List.intercalate_cons_cons, List.filterMap_append, List.filterMap_append, ih,
        List.flatMap_cons]
      simp

mutual

/-- The calls that are marked are those of the expression, in the order of their names. -/
theorem Expr.filterMap_marks : (e : Expr) → e.marks.filterMap id = e.extensions
  | .number _ | .string _ | .path _ _ | .parameter _ => rfl
  | .call _ args => by
    rw [Expr.marks, filterMap_append_none, filterMap_none_cons, filterMap_none_cons,
      filterMap_intercalate, filterMap_marksOfList args, Expr.extensions]
  | .extension _ _ slots => by
    rw [Expr.marks, filterMap_append_none, filterMap_some_cons, filterMap_none_cons,
      filterMap_markForm, filterMap_marksOfList slots, Expr.extensions]
  | .binary left _ right => by
    rw [Expr.marks, List.filterMap_append, filterMap_none_cons, left.filterMap_marks,
      right.filterMap_marks, Expr.extensions]
  | .signed _ operand => by
    rw [Expr.marks, filterMap_none_cons, operand.filterMap_marks, Expr.extensions]
  | .paren inner => by
    rw [Expr.marks, filterMap_append_none, filterMap_none_cons, inner.filterMap_marks,
      Expr.extensions]

theorem filterMap_marksOfList : (es : List Expr) →
    ((marksOfList es).flatMap fun ms => ms.filterMap id) = extensionsOfList es
  | [] => rfl
  | e :: es => by
    rw [marksOfList, List.flatMap_cons, e.filterMap_marks, filterMap_marksOfList es,
      extensionsOfList]

end

/-- The first argument of a call, and the others, each after its comma. -/
theorem intercalate_marks (arg : Expr) (more : List Expr) :
    List.intercalate [none] (marksOfList (arg :: more)) =
      arg.marks ++ more.flatMap fun e => none :: e.marks := by
  induction more generalizing arg with
  | nil => simp [marksOfList]
  | cons e more ih =>
    rw [marksOfList, marksOfList, List.intercalate_cons_cons, ← marksOfList, ih, List.flatMap_cons]
    simp

/-- The arguments of a call are among what is between its parentheses. -/
theorem sublist_intercalate (args : List Expr) :
    (args.flatMap Expr.marks).Sublist (List.intercalate [none] (marksOfList args)) := by
  cases args with
  | nil => exact .refl _
  | cons arg more =>
    rw [intercalate_marks, List.flatMap_cons]
    refine (List.Sublist.refl _).append ?_
    induction more with
    | nil => exact .refl _
    | cons e more ih => exact ((List.sublist_cons_self none e.marks).append ih)

theorem Expr.marks_ne_nil (e : Expr) : e.marks ≠ [] := by
  cases e <;> simp [Expr.marks]

/-- The marks of the tokens of what a step finds. -/
def Parsed.marks : Parsed → List Mark
  | .token _ => [none]
  | .done => []
  | .expr e => e.marks
  | .call function _ slots =>
    none :: none :: (markForm function.form (marksOfList slots) ++ [none])

/-- What is stored for what is found is among its tokens. -/
theorem Parsed.sublist_marks (found : Parsed) :
    (found.exprs.flatMap Expr.marks).Sublist found.marks := by
  cases found with
  | token | done => exact List.nil_sublist _
  | expr e => simp [exprs, marks]
  | call function words slots =>
    rw [exprs, marks, List.flatMap_def, ← marksOfList_eq_map]
    exact (sublist_markForm function.form _).trans
      ((List.sublist_append_left ..).trans (List.sublist_append_right [none, none] _))

/-! ## Tokens with marks -/

variable {α β : Type} {catalog : Catalog} {taken : List Token} {marks before : List Mark}

/-- Tokens with marks that the catalog agrees with: a token with a mark is a name before an opening
parenthesis, and is registered for the extension in the mark. -/
inductive Noted (catalog : Catalog) : List Token → List Mark → Prop where
  | nil : Noted catalog [] []
  | plain (t : Token) {taken : List Token} {marks : List Mark} (more : Noted catalog taken marks) :
    Noted catalog (t :: taken) (none :: marks)
  | call {name left : Token} {entry : Entry} {taken : List Token} {marks : List Mark}
    (hname : name.kind = .identifier) (hleft : left.kind = .parenLeft)
    (hbuiltin : Builtin.ofName? name.text = none) (hfind : catalog.find? name.text = some entry)
    (more : Noted catalog taken marks) :
    Noted catalog (name :: left :: taken) (some entry.extension :: none :: marks)

theorem Noted.length_eq (h : Noted catalog taken marks) : taken.length = marks.length := by
  induction h with
  | nil => rfl
  | plain _ _ ih => rw [List.length_cons, List.length_cons, ih]
  | call _ _ _ _ _ ih => simp only [List.length_cons, ih]

theorem Noted.append {taken₂ : List Token} {marks₂ : List Mark} (h : Noted catalog taken marks)
    (h₂ : Noted catalog taken₂ marks₂) : Noted catalog (taken ++ taken₂) (marks ++ marks₂) := by
  induction h with
  | nil => exact h₂
  | plain t _ ih => exact .plain t ih
  | call hname hleft hbuiltin hfind _ ih => exact .call hname hleft hbuiltin hfind ih

/-- The tokens with a mark, which are the names in calls. -/
def callNames (taken : List Token) (marks : List Mark) : List Token :=
  (taken.zip marks).filterMap fun (t, mark) => mark.map fun _ => t

/-- What is reported of a call, given its name. -/
def Token.dispatching (name : Token) : Event := .dispatching name.text name.start

theorem callNames_append {taken₂ : List Token} {marks₂ : List Mark}
    (h : taken.length = marks.length) :
    callNames (taken ++ taken₂) (marks ++ marks₂) =
      callNames taken marks ++ callNames taken₂ marks₂ := by
  rw [callNames, List.zip_append h, List.filterMap_append]
  rfl

/-- From one state to another, going over tokens with marks that the catalog agrees with, and
reporting the calls. -/
structure Reports (catalog : Catalog) (s : Progress) (taken : List Token) (marks : List Mark)
    (s₁ : Progress) : Prop where
  takes : s.Takes taken s₁
  noted : Noted catalog taken marks
  dispatched : s₁.dispatched = s.dispatched ++ (callNames taken marks).map Token.dispatching

namespace Reports

variable {s s₁ s₂ : Progress} {taken₂ : List Token} {marks₂ : List Mark} {t : Token}

theorem nil (s : Progress) : Reports catalog s [] [] s := ⟨.nil s, .nil, by simp [callNames]⟩

theorem trans (h : Reports catalog s taken marks s₁) (h₂ : Reports catalog s₁ taken₂ marks₂ s₂) :
    Reports catalog s (taken ++ taken₂) (marks ++ marks₂) s₂ := by
  refine ⟨h.takes.trans h₂.takes, h.noted.append h₂.noted, ?_⟩
  rw [h₂.dispatched, h.dispatched, callNames_append h.noted.length_eq, List.map_append,
    List.append_assoc]

/-- A token without a mark. -/
theorem one (h : s.stream.lookahead = .ok (.token t)) : Reports catalog s [t] [none] s.tail :=
  ⟨.one h, .plain t .nil, by simp [callNames, Progress.tail]⟩

/-- The head of an extension's call, whose name is reported. -/
theorem head {name left : Token} {entry : Entry} (ht : s.stream.lookahead = .ok (.token name))
    (hname : name.kind = .identifier) (hu : s.tail.stream.lookahead = .ok (.token left))
    (hleft : left.kind = .parenLeft) (hbuiltin : Builtin.ofName? name.text = none)
    (hfind : catalog.find? name.text = some entry) :
    Reports catalog s [name, left] [some entry.extension, none]
      { s.tail.tail with dispatched := s.dispatched ++ [.dispatching name.text name.start] } := by
  have htakes := (Progress.Takes.one ht).trans (.one hu)
  exact ⟨⟨htakes.list, htakes.position⟩, .call hname hleft hbuiltin hfind .nil, rfl⟩

end Reports

/-! ## Parsers that account for what they take -/

/-- A parser that accounts for the tokens that it takes. What it gives has the marks `of` it: those
in `before`, of tokens that were taken earlier, and those of the tokens that it takes. If it fails,
what it leaves behind has some of these marks. -/
def Marked (catalog : Catalog) (before : List Mark) (of : α → List Mark) (p : Parse α)
    (s : Progress) : Prop :=
  match p s with
  | .ok a s₁ => ∃ taken marks, Reports catalog s taken marks s₁ ∧ of a = before ++ marks
  | .error f s₁ => ∃ taken marks, Reports catalog s taken marks s₁ ∧
      (f.exprs.flatMap Expr.marks).Sublist (before ++ marks)

namespace Marked

variable {s s₁ s₂ : Progress} {of : α → List Mark} {of' : β → List Mark} {p : Parse α}
  {f : α → Parse β}

theorem of_ok {a : α} (hp : p s = .ok a s₁) (h : Reports catalog s taken marks s₁)
    (ha : of a = before ++ marks) : Marked catalog before of p s := by
  rw [Marked, hp]
  exact ⟨taken, marks, h, ha⟩

theorem of_error {g : Failure} (hp : p s = .error g s₁) (h : Reports catalog s taken marks s₁)
    (hg : (g.exprs.flatMap Expr.marks).Sublist (before ++ marks)) :
    Marked catalog before of p s := by
  rw [Marked, hp]
  exact ⟨taken, marks, h, hg⟩

theorem ok {a : α} (h : Marked catalog before of p s) (hp : p s = .ok a s₁) :
    ∃ taken marks, Reports catalog s taken marks s₁ ∧ of a = before ++ marks := by
  rwa [Marked, hp] at h

theorem error {g : Failure} (h : Marked catalog before of p s) (hp : p s = .error g s₁) :
    ∃ taken marks, Reports catalog s taken marks s₁ ∧
      (g.exprs.flatMap Expr.marks).Sublist (before ++ marks) := by
  rwa [Marked, hp] at h

theorem pure {a : α} (h : of a = before) (s : Progress) :
    Marked catalog before of (pure a) s :=
  of_ok rfl (.nil s) (by rw [h, List.append_nil])

theorem fail (e : ParseError) (s : Progress) :
    Marked catalog before of (Parse.fail e) s :=
  of_error rfl (.nil s) (List.nil_sublist _)

/-- A parser that takes some tokens and then does what another one does from there. -/
theorem of_start {q : Parse α} (hp : p s = q s₁) (h : Reports catalog s taken marks s₁)
    (hq : Marked catalog (before ++ marks) of q s₁) : Marked catalog before of p s := by
  cases hqs : q s₁ with
  | ok a s₂ =>
    obtain ⟨taken₂, marks₂, h₂, ha⟩ := hq.ok hqs
    exact of_ok (hp.trans hqs) (h.trans h₂) (by rw [ha, List.append_assoc])
  | error g s₂ =>
    obtain ⟨taken₂, marks₂, h₂, hg⟩ := hq.error hqs
    exact of_error (hp.trans hqs) (h.trans h₂) (by rwa [List.append_assoc] at hg)

theorem bind (hp : Marked catalog before of p s)
    (hf : ∀ a s₁, p s = .ok a s₁ → Marked catalog (of a) of' (f a) s₁) :
    Marked catalog before of' (p >>= f) s := by
  cases hps : p s with
  | ok a s₁ =>
    obtain ⟨taken, marks, h, ha⟩ := hp.ok hps
    exact of_start (Parse.bind_of_ok hps f) h (ha ▸ hf a s₁ hps)
  | error g s₁ =>
    obtain ⟨taken, marks, h, hg⟩ := hp.error hps
    exact of_error (Parse.bind_of_error hps f) h hg

/-- What more was taken before does not matter. -/
theorem beside {more : List Mark} (hp : Marked catalog more of p s) (front : List Mark)
    (h : before = front ++ more) : Marked catalog before (fun a => front ++ of a) p s := by
  subst h
  cases hps : p s with
  | ok a s₁ =>
    obtain ⟨taken, marks, h, ha⟩ := hp.ok hps
    exact of_ok hps h (by rw [ha, List.append_assoc])
  | error g s₁ =>
    obtain ⟨taken, marks, h, hg⟩ := hp.error hps
    refine of_error hps h (hg.trans ?_)
    rw [List.append_assoc]
    exact List.sublist_append_right ..

/-- Expressions that wait are among what was taken before. -/
theorem holdingAll {more front : List Mark} (hp : Marked catalog more of p s) (es : List Expr)
    (hes : (es.flatMap Expr.marks).Sublist front) (h : before = front ++ more) :
    Marked catalog before (fun a => front ++ of a) (holdingAll es p) s := by
  subst h
  cases hps : p s with
  | ok a s₁ =>
    obtain ⟨taken, marks, h, ha⟩ := hp.ok hps
    exact of_ok (holdingAll_ok_iff.2 hps) h (by rw [ha, List.append_assoc])
  | error g s₁ =>
    obtain ⟨taken, marks, h, hg⟩ := hp.error hps
    have hfails : Dql.holdingAll es p s =
        .error { g with fragments := es.map .argument ++ g.fragments } s₁ := by
      simp only [Dql.holdingAll, EStateM.adaptExcept, hps]
    refine of_error hfails h ?_
    have hexprs : Failure.exprs { g with fragments := es.map .argument ++ g.fragments } =
        es ++ g.exprs := by
      simp [Failure.exprs, Fragment.argument, Function.comp_def]
    rw [hexprs, List.flatMap_append, List.append_assoc]
    exact hes.append hg

/-- So is one that waits, be it an argument or not. -/
theorem holding {e : Fragment} {more front : List Mark} (hp : Marked catalog more of p s)
    (he : e.expr.marks.Sublist front) (h : before = front ++ more) :
    Marked catalog before (fun a => front ++ of a) (holding e p) s := by
  subst h
  cases hps : p s with
  | ok a s₁ =>
    obtain ⟨taken, marks, h, ha⟩ := hp.ok hps
    exact of_ok (holding_ok_iff.2 hps) h (by rw [ha, List.append_assoc])
  | error g s₁ =>
    obtain ⟨taken, marks, h, hg⟩ := hp.error hps
    have hfails : Dql.holding e p s = .error { g with fragments := e :: g.fragments } s₁ := by
      simp only [Dql.holding, EStateM.adaptExcept, hps]
    refine of_error hfails h ?_
    rw [List.append_assoc]
    exact he.append hg

theorem discard (hp : Marked catalog before (fun _ => marks) p s) :
    Marked catalog before (fun _ => marks) (discard p : Parse Unit) s :=
  hp.bind fun _ s₁ _ => of_ok rfl (.nil s₁) (List.append_nil _).symm

/-! ### Steps over tokens -/

variable (before s)

theorem peek : Marked catalog before (fun _ => before) peek s := by
  cases hseen : s.stream.lookahead with
  | ok seen => exact of_ok (peek_ok_iff.2 ⟨hseen, rfl⟩) (.nil s) (List.append_nil _).symm
  | error cause => exact of_error (peek_eq_error hseen) (.nil s) (List.nil_sublist _)

theorem peekSecond : Marked catalog before (fun _ => before) peekSecond s := by
  cases hseen : s.tail.stream.lookahead with
  | ok seen => exact of_ok (peekSecond_ok_iff.2 ⟨hseen, rfl⟩) (.nil s) (List.append_nil _).symm
  | error cause => exact of_error (peekSecond_eq_error hseen) (.nil s) (List.nil_sublist _)

theorem tokensAhead : Marked catalog before (fun _ => before) tokensAhead s :=
  of_ok (tokensAhead_eq s) (.nil s) (List.append_nil _).symm

variable {s} in
theorem advance {t : Token} (h : s.stream.lookahead = .ok (.token t)) :
    Marked catalog before (fun _ => before ++ [none]) advance s :=
  of_ok advance_eq (.one h) rfl

theorem take (kind : TokenKind) :
    Marked catalog before (fun _ => before ++ [none]) (take kind) s := by
  refine (peek before s).bind fun seen s₁ hpeek => ?_
  obtain ⟨hseen, rfl⟩ := peek_ok_iff.1 hpeek
  cases seen with
  | endOfText => exact fail _ s
  | token t =>
    simp only
    split
    · exact (advance before hseen).bind fun _ s₁ _ => .pure rfl s₁
    · exact fail _ s

theorem takeIf (kind : TokenKind) :
    Marked catalog before (fun taken => if taken then before ++ [none] else before)
      (takeIf kind) s := by
  by_cases hnext : NextIs kind s.lexemes
  · obtain ⟨l, hls, -⟩ := Progress.exists_next hnext
    obtain ⟨t, ts, ht, -⟩ := Progress.exists_token hls
    exact of_ok (takeIf_of_next hnext) (.one (Progress.lookahead_cons ht)) rfl
  · exact of_ok (takeIf_of_not_next hnext) (.nil s) (List.append_nil _).symm

theorem expectEnd : Marked catalog before (fun _ => before) expectEnd s := by
  refine (peek before s).bind fun seen s₁ _ => ?_
  cases seen with
  | endOfText => exact of_ok rfl (.nil s₁) (List.append_nil _).symm
  | token t => exact fail _ s₁

end Marked

/-! ## The grammar -/

section Grammar

variable {primary : PrimaryParser}

theorem factor_marked (hp : ∀ s, Marked catalog [] Expr.marks (primary .arithmetic) s)
    (s : Progress) : Marked catalog [] Expr.marks (factor primary) s := by
  refine (Marked.peek [] s).bind fun seen s₁ hpeek => ?_
  obtain ⟨hseen, rfl⟩ := peek_ok_iff.1 hpeek
  cases hsign : seen.kind?.bind TokenKind.sign? with
  | none => exact hp s
  | some sign =>
    cases seen with
    | endOfText => cases hsign
    | token t =>
      exact (Marked.advance [] hseen).bind fun _ s₁ _ => ((hp s₁).beside [none] rfl).bind
        fun _ s₂ _ => .pure rfl s₂

/-- Each operand and operator is taken after those to the left of it. -/
theorem operators_marked (hp : ∀ s, Marked catalog [] Expr.marks (primary .arithmetic) s) :
    ∀ (bound least : Nat) (left : Expr) (s : Progress),
      Marked catalog left.marks Expr.marks (operators primary bound least left) s
  | bound, least, left, s => by
    rw [operators.eq_def]
    have hpeek : Marked catalog left.marks (fun _ => left.marks ++ []) (holding left peek) s :=
      (Marked.peek [] s).holding (.refl left.marks) (List.append_nil _).symm
    refine hpeek.bind fun seen s₁ hok => ?_
    obtain ⟨hseen, rfl⟩ := peek_ok_iff.1 (holding_ok_iff.1 hok)
    rw [List.append_nil]
    cases hop : seen.kind?.bind TokenKind.operator? with
    | none => exact .pure rfl s
    | some op =>
      simp only
      split
      · exact .pure rfl s
      · cases bound with
        | zero => exact .pure rfl s
        | succ bound =>
          cases seen with
          | endOfText => cases hop
          | token t =>
            have hleft : left.marks.Sublist (left.marks ++ [none]) := List.sublist_append_left ..
            refine (Marked.advance left.marks hseen).bind fun _ s₁ _ => ?_
            refine ((factor_marked hp s₁).holding hleft (List.append_nil _).symm).bind
              fun operand s₂ _ => ?_
            refine ((operators_marked hp bound _ operand s₂).holding hleft rfl).bind
              fun right s₃ _ => ?_
            have hmarks : (Expr.binary left op right).marks =
                left.marks ++ [none] ++ right.marks := by
              rw [Expr.marks, List.append_assoc]
              rfl
            rw [← hmarks]
            exact operators_marked hp bound least (.binary left op right) s₃

theorem expression_marked (hp : ∀ s, Marked catalog [] Expr.marks (primary .arithmetic) s)
    (s : Progress) : Marked catalog [] Expr.marks (expression primary) s :=
  (factor_marked hp s).bind fun operand s₁ _ =>
    (Marked.tokensAhead operand.marks s₁).bind fun bound s₂ _ =>
      operators_marked hp bound 0 operand s₂

theorem moreArguments_marked (hp : ∀ s, Marked catalog [] Expr.marks (primary .arithmetic) s) :
    ∀ (bound : Nat) (s : Progress),
      Marked catalog [] (fun more => more.flatMap fun e => none :: e.marks)
        (moreArguments primary bound) s
  | 0, s => .pure rfl s
  | bound + 1, s => by
    refine (Marked.takeIf [] s .comma).bind fun comma s₁ _ => ?_
    cases comma with
    | false => exact .pure rfl s₁
    | true =>
      refine ((expression_marked hp s₁).beside [none] rfl).bind fun arg s₂ _ => ?_
      exact ((moreArguments_marked hp bound s₂).holding (List.sublist_append_right [none] _)
        (List.append_nil _).symm).bind fun more s₃ _ => .pure rfl s₃

theorem arguments_marked (hp : ∀ s, Marked catalog [] Expr.marks (primary .arithmetic) s)
    (s : Progress) : Marked catalog [] (fun args => List.intercalate [none] (marksOfList args))
      (arguments primary) s := by
  refine (Marked.peek [] s).bind fun seen s₁ _ => ?_
  split
  · exact .pure rfl s₁
  · refine (expression_marked hp s₁).bind fun arg s₂ _ => ?_
    have hmore : Marked catalog [] (fun more => more.flatMap fun e => none :: e.marks)
        (do moreArguments primary (← tokensAhead)) s₂ :=
      (Marked.tokensAhead [] s₂).bind fun bound s₃ _ => moreArguments_marked hp bound s₃
    exact (hmore.holding (.refl arg.marks) (List.append_nil _).symm).bind
      fun more s₃ _ => .pure (intercalate_marks arg more) s₃

/-- Each piece of a form is taken after those before it. -/
theorem fill_marked (hp : ∀ c s, Marked catalog [] Expr.marks (primary c) s) :
    ∀ (form : List Piece) (s : Progress),
      Marked catalog [] (fun filled => markForm form (marksOfList filled.2) ++ [none])
        (fill primary form) s
  | [], s => (Marked.take [] s .parenRight).discard.bind fun _ s₁ _ => .pure rfl s₁
  | .word :: form, s =>
    (Marked.take [] s .identifier).bind fun _ s₁ _ =>
      ((fill_marked hp form s₁).beside [none] rfl).bind fun _ s₂ _ => .pure rfl s₂
  | .keyword _ :: form, s =>
    (Marked.take [] s .identifier).discard.bind fun _ s₁ _ =>
      (fill_marked hp form s₁).beside [none] rfl
  | .comma :: form, s =>
    (Marked.take [] s .comma).discard.bind fun _ s₁ _ =>
      (fill_marked hp form s₁).beside [none] rfl
  | .expression :: form, s =>
    (expression_marked (hp .arithmetic) s).bind fun slot s₁ _ =>
      ((fill_marked hp form s₁).holding (.refl slot.marks) (List.append_nil _).symm).bind
        fun _ s₂ _ => .pure (List.append_assoc ..) s₂
  | .primary accepts :: form, s =>
    (hp accepts s).bind fun slot s₁ _ =>
      ((fill_marked hp form s₁).holding (.refl slot.marks) (List.append_nil _).symm).bind
        fun _ s₂ _ => .pure (List.append_assoc ..) s₂

theorem callHead_marked (s : Progress) :
    Marked catalog [] (fun _ => [none, none]) callHead s :=
  (Marked.take [] s .identifier).discard.bind fun _ s₁ _ =>
    (Marked.take [none] s₁ .parenLeft).discard

theorem extensionCall_marked (hp : ∀ c s, Marked catalog [] Expr.marks (primary c) s)
    (function : Extension) (s : Progress) :
    Marked catalog []
      (fun filled => none :: none :: (markForm function.form (marksOfList filled.2) ++ [none]))
      (extensionCall primary function) s :=
  (callHead_marked s).bind fun _ s₁ _ =>
    (fill_marked hp function.form s₁).beside [none, none] rfl

/-- The name of an extension's call is reported before anything of the call is taken. It is taken
next, since a parenthesis is known to come after it. -/
theorem functionCall_marked (hp : ∀ c s, Marked catalog [] Expr.marks (primary c) s)
    {s : Progress} {t u : Token} (ht : s.stream.lookahead = .ok (.token t))
    (hname : t.kind = .identifier) (hu : s.tail.stream.lookahead = .ok (.token u))
    (hleft : u.kind = .parenLeft) :
    Marked catalog [] Expr.marks (functionCall catalog primary t) s := by
  cases hbuiltin : Builtin.ofName? t.text with
  | some function =>
    simp only [functionCall, hbuiltin]
    refine (callHead_marked s).bind fun _ s₁ _ => ?_
    refine ((arguments_marked (hp .arithmetic) s₁).beside [none, none] rfl).bind
      fun args s₂ _ => ?_
    have hargs : (args.flatMap Expr.marks).Sublist
        ([none, none] ++ List.intercalate [none] (marksOfList args)) :=
      (sublist_intercalate args).trans (List.sublist_append_right [none, none] _)
    exact ((Marked.take [] s₂ .parenRight).holdingAll args hargs
      (List.append_nil _).symm).discard.bind fun _ s₃ _ => .pure rfl s₃
  | none =>
    cases hfind : catalog.find? t.text with
    | none =>
      simp only [functionCall, hbuiltin, hfind]
      exact .fail _ s
    | some entry =>
      have hknown : Known catalog t.text := .inr (by rw [hfind]; rfl)
      have hstart : functionCall catalog primary t s = callBody catalog primary t s.tail.tail :=
        functionCall_of_known ht hname hu hleft hknown
      simp only [callBody, hbuiltin, hfind] at hstart
      rw [Parse.bind_of_ok (dispatch_eq t)] at hstart
      refine .of_start hstart (.head ht hname hu hleft hbuiltin hfind) ?_
      exact ((fill_marked hp entry.extension.form _).beside [some entry.extension, none] rfl).bind
        fun _ s₁ _ => .pure rfl s₁

theorem nestedPrimary_marked (hp : ∀ c s, Marked catalog [] Expr.marks (primary c) s)
    (accepts : PrimaryClass) (s : Progress) :
    Marked catalog [] Expr.marks (nestedPrimary catalog primary accepts) s := by
  refine (Marked.peek [] s).bind fun seen s₁ hpeek => ?_
  obtain ⟨hseen, rfl⟩ := peek_ok_iff.1 hpeek
  cases seen with
  | endOfText => exact .fail _ s
  | token t =>
    have hleaf : ∀ e : Expr, e.marks = [none] →
        Marked catalog [] Expr.marks (do advance; return e) s := fun e he =>
      (Marked.advance [] hseen).bind fun _ s₁ _ => .pure he s₁
    cases hk : t.kind with
    | parenLeft =>
      cases accepts with
      | string => simpa only [hk] using Marked.fail _ s
      | arithmetic =>
        simp only [hk]
        refine (Marked.advance [] hseen).bind fun _ s₁ _ => ?_
        refine ((expression_marked (hp .arithmetic) s₁).beside [none] rfl).bind fun inner s₂ _ => ?_
        exact ((Marked.take [] s₂ .parenRight).holding (List.sublist_append_right [none] _)
          (List.append_nil _).symm).discard.bind fun _ s₃ _ => .pure rfl s₃
    | integer | float =>
      cases accepts with
      | string => simpa only [hk] using Marked.fail _ s
      | arithmetic => simpa only [hk] using hleaf _ rfl
    | string | parameter => simpa only [hk] using hleaf _ rfl
    | path => simpa only [hk] using hleaf _ rfl
    | identifier =>
      simp only [hk]
      refine (Marked.peekSecond [] s).bind fun second s₁ hok => ?_
      obtain ⟨hsecond, rfl⟩ := peekSecond_ok_iff.1 hok
      by_cases hcall : second.kind? = some .parenLeft
      · rw [if_pos hcall]
        cases second with
        | endOfText => cases hcall
        | token u => exact functionCall_marked hp hseen hk hsecond (Option.some.inj hcall)
      · rw [if_neg hcall]
        cases accepts with
        | string => exact .fail _ s
        | arithmetic => exact hleaf _ rfl
    | parenRight | comma | plus | minus | asterisk | slash =>
      simpa only [hk] using Marked.fail _ s

/-- **Primaries account for all that they take**, and for the calls that are reported. -/
theorem primary_marked : ∀ (room : Nat) (accepts : PrimaryClass) (s : Progress),
    Marked catalog [] Expr.marks (Dql.primary catalog room accepts) s
  | 0, _, s => (Marked.peek [] s).bind fun _ s₁ _ => .fail _ s₁
  | room + 1, accepts, s => nestedPrimary_marked (primary_marked room) accepts s

theorem wholeExpression_marked (s : Progress) :
    Marked catalog [] Expr.marks (wholeExpression catalog) s :=
  (expression_marked (primary_marked maxNesting .arithmetic) s).bind fun e s₁ _ =>
    ((Marked.expectEnd [] s₁).holding (.refl e.marks) (List.append_nil _).symm).bind
      fun _ s₂ _ => .pure (List.append_nil _).symm s₂

end Grammar

/-! ## Steps of a session -/

theorem NodeTable.snd_storeAll_concat (t : NodeTable) (more : List Expr) : (es : List Expr) →
    (t.storeAll (es ++ more)).2 = ((t.storeAll es).2.storeAll more).2
  | [] => rfl
  | e :: es => snd_storeAll_concat (t.store e).2 more es

/-- A step accounts for all that it takes. -/
theorem Step.treeParser_marked (room : Nat) (what : Step) (s : Progress) :
    Marked catalog [] Parsed.marks (what.treeParser catalog room) s := by
  have hp : ∀ c s, Marked catalog [] Expr.marks (Dql.primary catalog room c) s :=
    primary_marked room
  cases what with
  | take kind => exact (Marked.take [] s kind).bind fun _ s₁ _ => .pure rfl s₁
  | finish => exact (Marked.expectEnd [] s).bind fun _ s₁ _ => .pure rfl s₁
  | expression => exact (expression_marked (hp .arithmetic) s).bind fun _ s₁ _ => .pure rfl s₁
  | primary accepts => exact (hp accepts s).bind fun _ s₁ _ => .pure rfl s₁
  | extension function => exact (extensionCall_marked hp function s).bind fun _ s₁ _ => .pure rfl s₁

/-- Whatever a step finds has tokens, unless it only asks for the end of the text. -/
theorem Step.marks_ne_nil {room : Nat} {what : Step} {found : Parsed} {s s₁ : Progress}
    (h : what.treeParser catalog room s = .ok found s₁) (hwhat : what ≠ .finish) :
    found.marks ≠ [] := by
  cases what with
  | take kind =>
    obtain ⟨t, s₂, -, hpure⟩ := Parse.bind_ok_iff.1 h
    obtain ⟨rfl, -⟩ := Parse.pure_ok_iff.1 hpure
    exact List.cons_ne_nil _ _
  | finish => exact absurd rfl hwhat
  | expression =>
    obtain ⟨e, s₂, -, hpure⟩ := Parse.bind_ok_iff.1 h
    obtain ⟨rfl, -⟩ := Parse.pure_ok_iff.1 hpure
    exact e.marks_ne_nil
  | primary accepts =>
    obtain ⟨e, s₂, -, hpure⟩ := Parse.bind_ok_iff.1 h
    obtain ⟨rfl, -⟩ := Parse.pure_ok_iff.1 hpure
    exact e.marks_ne_nil
  | extension function =>
    obtain ⟨filled, s₂, -, hpure⟩ := Parse.bind_ok_iff.1 h
    obtain ⟨rfl, -⟩ := Parse.pure_ok_iff.1 hpure
    exact List.cons_ne_nil _ _

namespace Session

variable (s : Session)

/-- What a step takes, with the marks of the tokens, and the expressions that it stores. What it
stores has some of the marks. -/
structure Spends (s s' : Session) (taken : List Token) (marks : List Mark) (stored : List Expr) :
    Prop where
  reports : Reports s.catalog s.progress taken marks s'.progress
  table : s'.table = (s.table.storeAll stored).2
  sublist : (stored.flatMap Expr.marks).Sublist marks

/-- **A step accounts for what it takes**, whatever becomes of it, and stores no more than that. If
it succeeds, it takes something, unless it only asks for the end of the text. -/
theorem step_spends (what : Step) :
    ∃ taken marks stored, s.Spends (s.step what).2 taken marks stored ∧
      (what ≠ .finish → ∀ answer, (s.step what).1 = .ok answer → marks ≠ []) := by
  have hmarked : Marked s.catalog [] Parsed.marks
      (what.treeParser s.catalog (maxNesting - s.depth)) s.progress :=
    what.treeParser_marked _ _
  cases hrun : what.treeParser s.catalog (maxNesting - s.depth) s.progress with
  | ok found s₁ =>
    obtain ⟨taken, marks, hreports, hfound⟩ := hmarked.ok hrun
    rw [List.nil_append] at hfound
    rw [step_of_ok hrun]
    refine ⟨taken, marks, found.exprs, ⟨hreports, ?_, hfound ▸ found.sublist_marks⟩, ?_⟩
    · show (s.answering found).2.table = _
      rw [Parser.answering_snd]
      rfl
    · exact fun hwhat _ _ => hfound ▸ what.marks_ne_nil hrun hwhat
  | error f s₁ =>
    obtain ⟨taken, marks, hreports, hf⟩ := hmarked.error hrun
    rw [step_of_error hrun]
    exact ⟨taken, marks, f.exprs, ⟨hreports, s.table.storeFragments_snd _, hf⟩, nofun⟩

/-- **So does any number of steps.** -/
theorem run_spends (steps : List Step) :
    ∃ taken marks stored, s.Spends (s.run steps) taken marks stored := by
  induction steps generalizing s with
  | nil => exact ⟨[], [], [], .nil _, rfl, .refl _⟩
  | cons what steps ih =>
    obtain ⟨taken, marks, stored, hstep, -⟩ := s.step_spends what
    obtain ⟨taken', marks', stored', hrun⟩ := ih (s.step what).2
    have hcatalog : (s.step what).2.catalog = s.catalog := s.step_catalog what
    refine ⟨taken ++ taken', marks ++ marks', stored ++ stored', ?_, ?_, ?_⟩
    · exact hstep.reports.trans (hcatalog ▸ hrun.reports)
    · have htable : (s.run (what :: steps)).table = (((s.step what).2).run steps).table := rfl
      rw [htable, hrun.table, hstep.table, NodeTable.snd_storeAll_concat]
    · rw [List.flatMap_append]
      exact hstep.sublist.append hrun.sublist

end Session

end Dql
