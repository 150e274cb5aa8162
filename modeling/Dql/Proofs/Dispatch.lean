import Dql.Proofs.Forest
import Dql.Proofs.NestingLimit
import Dql.Proofs.NormalForm
import Dql.Proofs.Sessions

/-!
# Calls by name and calls on their own

An extension can be called by a name that the catalog has for it, as a primary, or it can be asked
for on its own, whatever the name is. Both ways take the same tokens and come to the same SQL, but
the name costs one level of nesting, so that what is in the slots can be too deep.

* `Closes` - a parser whose success depends on nothing behind the parenthesis that it ends with;
* `Progress.CallAhead` - a call of an extension comes next;
* `Session.Completes` - what asking for an extension on its own came to.

Principal results: `fill_of_derivation` - a form is filled wherever it derives, whatever comes after
it - and `Session.dispatch_agrees`.
-/

namespace Dql

variable {α β : Type} {catalog : Catalog} {s s₁ : Progress}

/-! ## Up to a closing parenthesis -/

/-- What `p` succeeds with in the state `s` ends with a closing parenthesis, and `p` comes to the
same wherever these tokens come first, whatever comes after them. -/
def Closes (p : Parse α) (s : Progress) : Prop :=
  ∀ a s₁, p s = .ok a s₁ → ∃ inner right, right.kind = .parenRight ∧
    s.Takes (inner ++ [right]) s₁ ∧ ∀ (rest : TokenList) (s' : Progress),
      s'.list = rest.prepend (inner ++ [right]) → ∃ s₁', p s' = .ok a s₁' ∧ s₁'.list = rest

namespace Closes

variable {p : Parse α} {f : α → Parse β}

/-- To steps before it the parenthesis is still ahead, so they do not see what comes after it. -/
theorem bind (hp : Replays p p s) (hf : ∀ a s₁, p s = .ok a s₁ → Closes (f a) s₁) :
    Closes (p >>= f) s := by
  intro b s₂ h
  obtain ⟨a, s₁, hps, hfs⟩ := Parse.bind_ok_iff.1 h
  obtain ⟨taken, htakes, hreplay⟩ := hp.ok hps
  obtain ⟨inner, right, hright, htakes₂, hcloses⟩ := hf a s₁ hps b s₂ hfs
  refine ⟨taken ++ inner, right, hright, ?_, fun rest s' hs' => ?_⟩
  · rw [List.append_assoc]
    exact htakes.trans htakes₂
  · have hlook : (rest.prepend (inner ++ [right])).lookahead = s₁.list.lookahead := by
      rw [htakes₂.list]
      cases inner <;> rfl
    rw [List.append_assoc, ← TokenList.prepend_prepend] at hs'
    obtain ⟨s₁', hp', hs₁'⟩ := hreplay _ s' hlook hs'
    obtain ⟨s₂', hf', hs₂'⟩ := hcloses rest s₁' hs₁'
    exact ⟨s₂', by rw [Parse.bind_of_ok hp', hf'], hs₂'⟩

/-- Making something else of the result takes no tokens. -/
theorem map (hp : Closes p s) (g : α → β) : Closes (p >>= fun a => pure (g a)) s := by
  intro b s₁ h
  obtain ⟨a, s₂, hps, hpure⟩ := Parse.bind_ok_iff.1 h
  obtain ⟨rfl, rfl⟩ := Parse.pure_ok_iff.1 hpure
  obtain ⟨inner, right, hright, htakes, hcloses⟩ := hp a s₂ hps
  refine ⟨inner, right, hright, htakes, fun rest s' hs' => ?_⟩
  obtain ⟨s₁', hp', hs₁'⟩ := hcloses rest s' hs'
  exact ⟨s₁', Parse.bind_ok_iff.2 ⟨a, s₁', hp', rfl⟩, hs₁'⟩

theorem holding (hp : Closes p s) (e : Fragment) : Closes (holding e p) s := by
  intro a s₁ h
  obtain ⟨inner, right, hright, htakes, hcloses⟩ := hp a s₁ (holding_ok_iff.1 h)
  refine ⟨inner, right, hright, htakes, fun rest s' hs' => ?_⟩
  obtain ⟨s₁', hp', hs₁'⟩ := hcloses rest s' hs'
  exact ⟨s₁', holding_ok_iff.2 hp', hs₁'⟩

theorem discard_take (s : Progress) :
    Closes (Functor.discard (take .parenRight) : Parse Unit) s := by
  intro a s₁ h
  obtain ⟨right, htake⟩ := Parse.discard_ok_iff.1 h
  obtain ⟨hseen, hright, rfl⟩ := take_ok_iff.1 htake
  refine ⟨[], right, hright, .one hseen, fun rest s' hs' => ?_⟩
  have hseen' : s'.stream.lookahead = .ok (.token right) := by
    rw [← Progress.lookahead_list, hs']
    rfl
  refine ⟨s'.tail, Parse.discard_ok_iff.2 ⟨right, take_ok_iff.2 ⟨hseen', hright, rfl⟩⟩, ?_⟩
  rw [Progress.list_tail, hs']
  rfl

end Closes

/-- Filling a form ends with the closing parenthesis of the call. -/
theorem fill_closes (catalog : Catalog) (room : Nat) :
    ∀ (pieces : List Piece) (s : Progress), Closes (fill (primary catalog room) pieces) s
  | [], s => (Closes.discard_take s).map fun _ => ([], [])
  | .word :: pieces, s =>
    .bind (.take .identifier s) fun word s₁ _ =>
      (fill_closes catalog room pieces s₁).map fun more => (word.text :: more.1, more.2)
  | .keyword _ :: pieces, s =>
    .bind (.discard_take .identifier s) fun _ s₁ _ => fill_closes catalog room pieces s₁
  | .comma :: pieces, s =>
    .bind (.discard_take .comma s) fun _ s₁ _ => fill_closes catalog room pieces s₁
  | .expression :: pieces, s =>
    .bind (expression_primary_replays (Nat.le_refl room) s) fun slot s₁ _ =>
      ((fill_closes catalog room pieces s₁).holding slot).map fun more => (more.1, slot :: more.2)
  | .primary accepts :: pieces, s =>
    .bind (primary_replays (Nat.le_refl room) accepts s) fun slot s₁ _ =>
      ((fill_closes catalog room pieces s₁).holding slot).map fun more => (more.1, slot :: more.2)

/-- **A form is filled wherever it derives**, also in a text that cannot be read to its end. -/
theorem fill_of_derivation {pieces : List Piece} {ls rest : List Lexeme} {room : Nat}
    (d : Derivation catalog (.form pieces) ls rest) (hpieces : separated pieces = true)
    (hroom : d.nesting ≤ room) (hls : s.lexemes = ls) :
    ∃ s₁, fill (primary catalog room) pieces s = .ok d.tree s₁ ∧ s₁.lexemes = rest := by
  -- the same tokens, with nothing behind them that cannot be read
  let readable : Progress := { s with stream := { s.stream with ending := .endOfText 0 } }
  have hyields : Yields (fill (primary catalog room) pieces) readable d.tree rest :=
    d.complete hpieces (fun _ _ => rfl) hroom hls ⟨0, rfl⟩
  obtain ⟨s', hfill, hrest, -, -⟩ := hyields
  obtain ⟨inner, right, -, htakes, hcloses⟩ :=
    fill_closes catalog room pieces readable _ _ hfill
  have htokens : s.stream.ahead = inner ++ [right] ++ s'.stream.ahead :=
    congrArg TokenList.tokens htakes.list
  have hlist : s.list =
      TokenList.prepend (inner ++ [right]) ⟨s'.stream.ahead, s.stream.ending⟩ := by
    rw [Progress.list, htokens]
    rfl
  obtain ⟨s₁, hs₁, hrest'⟩ := hcloses _ s hlist
  exact ⟨s₁, hs₁, (congrArg TokenList.lexemes hrest').trans hrest⟩

/-! ## The two ways to a call -/

/-- A call of the extension comes next: a name that the catalog has for it and that no built-in
function has, and an opening parenthesis. -/
structure Progress.CallAhead (catalog : Catalog) (s : Progress) (name : Token)
    (function : Extension) : Prop where
  ahead : ∃ left more, s.stream.ahead = name :: left :: more ∧ left.kind = .parenLeft
  isName : name.kind = .identifier
  notBuiltin : Builtin.ofName? name.text = none
  found : (catalog.find? name.text).map Entry.extension = some function

namespace Progress.CallAhead

variable {name : Token} {function : Extension} {room : Nat}

/-- The two tokens of the head, as they are looked for. -/
theorem lookahead (h : s.CallAhead catalog name function) :
    s.stream.lookahead = .ok (.token name) ∧
      ∃ left, s.tail.stream.lookahead = .ok (.token left) ∧ left.kind = .parenLeft := by
  obtain ⟨left, more, hahead, hleft⟩ := h.ahead
  have hsecond : s.tail.stream.ahead = left :: more := by simp [tail, Stream.skip, hahead]
  exact ⟨lookahead_cons hahead, left, lookahead_cons hsecond, hleft⟩

/-- Asked for on its own, an extension fills its form after the head. -/
theorem extensionCall_eq (h : s.CallAhead catalog name function) (primary : PrimaryParser) :
    extensionCall primary function s = fill primary function.form s.tail.tail := by
  obtain ⟨hname, left, hsecond, hleft⟩ := h.lookahead
  exact Parse.bind_of_ok (callHead_of_lookahead hname h.isName hsecond hleft) _

/-- Called by name, it is reported, and fills its form after the head with less room. -/
theorem exists_primary_eq (h : s.CallAhead catalog name function) (room : Nat)
    (accepts : PrimaryClass) :
    ∃ s' : Progress, s'.stream = s.tail.tail.stream ∧ primary catalog (room + 1) accepts s =
      (fill (primary catalog room) function.form >>= fun filled =>
        pure (.extension function filled.1 filled.2)) s' := by
  obtain ⟨hname, left, hsecond, hleft⟩ := h.lookahead
  obtain ⟨entry, hfound, rfl⟩ := Option.map_eq_some_iff.1 h.found
  have hcall : (Ahead.token left).kind? = some .parenLeft := congrArg some hleft
  have hknown : Known catalog name.text := .inr (by rw [hfound]; rfl)
  refine ⟨⟨s.tail.tail.stream, s.dispatched ++ [.dispatching name.text name.start]⟩, rfl, ?_⟩
  rw [primary, nestedPrimary_of_identifier _ _ _ hname h.isName hsecond, if_pos hcall,
    functionCall_of_known hname h.isName hsecond hleft hknown]
  simp only [callBody, h.notBuiltin, hfound]
  exact Parse.bind_of_ok (dispatch_eq name) _

theorem primary_ok (h : s.CallAhead catalog name function) {filled : List String × List Expr}
    (hfill : fill (primary catalog room) function.form s.tail.tail = .ok filled s₁)
    (accepts : PrimaryClass) :
    ∃ s₁', primary catalog (room + 1) accepts s =
        .ok (.extension function filled.1 filled.2) s₁' ∧ s₁'.stream = s₁.stream := by
  obtain ⟨s', hs', hprimary⟩ := h.exists_primary_eq room accepts
  have hfollows := fill_follows (primary_follows catalog 0 room) function.form
  obtain ⟨s₁', hfill', hstream⟩ := hfollows.ok_of_stream_eq hs' hfill
  exact ⟨s₁', by rw [hprimary, Parse.bind_of_ok hfill']; rfl, hstream⟩

theorem primary_error (h : s.CallAhead catalog name function) {f : Failure}
    (hfill : fill (primary catalog room) function.form s.tail.tail = .error f s₁)
    (accepts : PrimaryClass) :
    ∃ s₁', primary catalog (room + 1) accepts s = .error f s₁' ∧ s₁'.stream = s₁.stream := by
  obtain ⟨s', hs', hprimary⟩ := h.exists_primary_eq room accepts
  have hfollows := fill_follows (primary_follows catalog 0 room) function.form
  obtain ⟨s₁', hfill', hstream⟩ := hfollows.error_of_stream_eq hs' hfill
  exact ⟨s₁', by rw [hprimary, Parse.bind_of_error hfill'], hstream⟩

end Progress.CallAhead

/-! ## One level of nesting -/

section Nesting

variable {pieces : List Piece} {room : Nat} {filled : List String × List Expr}

/-- With one level less a form is filled as before, or not for want of room. -/
theorem fill_agrees_succ (catalog : Catalog) (pieces : List Piece) (room : Nat) (s : Progress) :
    AgreesAt (fun err => ∃ position, err = .tooDeep position) (fill (primary catalog room) pieces)
      (fill (primary catalog (room + 1)) pieces) s := by
  have hp : ∀ accepts, Agrees (s.lexemes.length + 1)
      (fun err => ∃ position, err = .tooDeep position) (primary catalog room accepts)
      (primary catalog (room + 1) accepts) :=
    primary_agrees (by omega) fun position _ => ⟨position, rfl⟩
  exact fill_agrees hp pieces s (Nat.lt_succ_self _)

/-- What nests less deep than there is room for is filled with one level less. -/
theorem fill_of_nesting_le (hpieces : separated pieces = true)
    (hfill : fill (primary catalog (room + 1)) pieces s = .ok filled s₁)
    (hnesting : nestingOfList filled.2 ≤ room) :
    fill (primary catalog room) pieces s = .ok filled s₁ := by
  obtain ⟨-, d, rfl, -⟩ := fill_sound (primary_sound (room + 1)) pieces _ _ _ hfill
  have hd : nestingOfList d.tree.2 = d.nesting := d.nesting_tree
  have hroom : d.nesting ≤ room := by omega
  obtain ⟨s₂, hless, -⟩ := fill_of_derivation d hpieces hroom rfl
  obtain hsame | ⟨f, s₃, herror, -⟩ := (fill_agrees_succ catalog pieces room s).same_or_early
  · rw [hsame, hfill]
  · rw [hless] at herror
    cases herror

/-- What nests as deep as there is room for is too deep with one level less. -/
theorem tooDeep_of_lt_nesting
    (hfill : fill (primary catalog (room + 1)) pieces s = .ok filled s₁)
    (hnesting : room < nestingOfList filled.2) :
    ∃ f s₂ position, fill (primary catalog room) pieces s = .error f s₂ ∧
      f.error = .tooDeep position := by
  obtain hsame | ⟨f, s₂, herror, ⟨position, htooDeep⟩, -⟩ :=
    (fill_agrees_succ catalog pieces room s).same_or_early
  · rw [hfill] at hsame
    obtain ⟨-, d, rfl, hd⟩ := fill_sound (primary_sound room) pieces _ _ _ hsame
    have hd' : nestingOfList d.tree.2 = d.nesting := d.nesting_tree
    omega
  · exact ⟨f, s₂, position, herror, htooDeep⟩

/-- An error is the same with one level less, or there is none left before it. -/
theorem error_of_error {m : Nat} {f : Failure} (horder : InOrder m s.list.tokens s.list.ending)
    (hfill : fill (primary catalog (room + 1)) pieces s = .error f s₁) :
    ∃ f' s₂, fill (primary catalog room) pieces s = .error f' s₂ ∧
      (f'.error = f.error ∨ ∃ position ≤ f.error.position, f'.error = .tooDeep position) := by
  have hreplays : ∀ room, Replays (fill (primary catalog room) pieces)
      (fill (primary catalog room) pieces) s := fun room =>
    fill_primary_replays (Nat.le_refl room) pieces s
  obtain hsame | ⟨f', s₂, herror, ⟨position, htooDeep⟩, hgoes⟩ :=
    (fill_agrees_succ catalog pieces room s).same_or_early
  · exact ⟨f, s₁, hsame.trans hfill, .inl rfl⟩
  · rw [Parse.after_of_error hfill] at hgoes
    exact ⟨f', s₂, herror, .inr ⟨position, position_le_of_early horder (hreplays room)
      (hreplays (room + 1)) herror htooDeep hfill hgoes, htooDeep⟩⟩

end Nesting

/-! ## Steps of a session -/

namespace Session

/-- What it means that the extension, asked for on its own, was parsed from the session `s` to `s₁`
as this call: it has these expressions in its slots, its form derives from what was taken after the
head, and the last token taken is the parenthesis that closes it. -/
structure Completes (s s₁ : Session) (function : Extension) (call : ExtensionCall)
    (slots : List Expr) : Prop where
  function_eq : call.function = function
  slots_eq : call.slots.mapM s₁.table.expr? = some slots
  derives : Derives s.catalog (.form function.form) maxNesting s.progress.lexemes.tail.tail
    s₁.progress.lexemes (call.words, slots)
  closes : ∃ inner right, right.kind = .parenRight ∧
    s.progress.Takes (inner ++ [right]) s₁.progress

/-- No slot nests deeper than there is room for. -/
theorem Completes.nesting_le {s s₁ : Session} {function : Extension} {call : ExtensionCall}
    {slots : List Expr} (h : s.Completes s₁ function call slots) :
    ∀ e ∈ slots, e.nesting ≤ maxNesting := by
  obtain ⟨d, hd, hroom⟩ := h.derives
  have hnesting : nestingOfList d.tree.2 = d.nesting := d.nesting_tree
  rw [hd] at hnesting
  exact nestingOfList_le_iff.1 (hnesting ▸ hroom)

section Steps

variable {s s' : Session} {name name' : Token} {function : Extension} {progress : Progress}
  {filled : List String × List Expr} {room : Nat}

variable (hdepth : s.depth = 0)
include hdepth

theorem step_primary_of_ok {accepts : PrimaryClass} {e : Expr}
    (h : primary s.catalog maxNesting accepts s.progress = .ok e progress) :
    s.step (.primary accepts) =
      (.ok (.node (s.storing e).1), s.withParser ((s.storing e).2.movedTo progress)) := by
  have hfound : (Step.primary accepts).treeParser s.catalog (maxNesting - s.depth) s.progress =
      .ok (.expr e) progress := by
    rw [hdepth]
    exact Parse.bind_of_ok h _
  exact step_of_ok hfound

theorem step_primary_of_error {accepts : PrimaryClass} {f : Failure}
    (h : primary s.catalog maxNesting accepts s.progress = .error f progress) :
    (s.step (.primary accepts)).1 = .error f.error := by
  have hfails : (Step.primary accepts).treeParser s.catalog (maxNesting - s.depth) s.progress =
      .error f progress := by
    rw [hdepth]
    exact Parse.bind_of_error h _
  rw [step_of_error hfails]

/-- Asking for an extension on its own, if its form is filled. -/
theorem step_extension_ok (h : s.progress.CallAhead s.catalog name function)
    (hfill : fill (primary s.catalog maxNesting) function.form s.progress.tail.tail =
      .ok filled progress) :
    s.step (.extension function) =
      (.ok (.call ⟨function, filled.1, (s.storingAll filled.2).1⟩),
        s.withParser ((s.storingAll filled.2).2.movedTo progress)) := by
  have hfound : (Step.extension function).treeParser s.catalog (maxNesting - s.depth) s.progress =
      .ok (.call function filled.1 filled.2) progress := by
    rw [hdepth]
    exact Parse.bind_of_ok ((h.extensionCall_eq _).trans hfill) _
  exact step_of_ok hfound

theorem completes_of_fill (h : s.progress.CallAhead s.catalog name function)
    (hfill : fill (primary s.catalog maxNesting) function.form s.progress.tail.tail =
      .ok filled progress) :
    s.Completes (s.step (.extension function)).2 function
      ⟨function, filled.1, (s.table.storeAll filled.2).1⟩ filled.2 := by
  have hderives := (fill_sound (primary_sound maxNesting) _ _ _ _ hfill).2
  obtain ⟨hname, left, hsecond, -⟩ := h.lookahead
  obtain ⟨inner, right, hright, htakes, -⟩ :=
    fill_closes s.catalog maxNesting _ _ _ _ hfill
  rw [Progress.lexemes_tail, Progress.lexemes_tail] at hderives
  rw [step_extension_ok hdepth h hfill]
  exact
    { function_eq := rfl
      slots_eq := s.table.mapM_expr?_storeAll filled.2
      derives := hderives
      closes := ⟨[name, left] ++ inner, right, hright,
        List.append_assoc .. ▸ ((Progress.Takes.one hname).trans (.one hsecond)).trans htakes⟩ }

/-- A call by name, if its form is filled with one level less. -/
theorem step_primary_ok (h : s.progress.CallAhead s.catalog name function)
    (hroom : maxNesting = room + 1)
    (hfill : fill (primary s.catalog room) function.form s.progress.tail.tail =
      .ok filled progress) (accepts : PrimaryClass) :
    ∃ id, (s.step (.primary accepts)).1 = .ok (.node id) ∧
      (s.step (.primary accepts)).2.progress.stream = progress.stream ∧
      ∀ style, (s.step (.primary accepts)).2.table.toSql? style id =
        some ((Expr.extension function filled.1 filled.2).toSql style) := by
  obtain ⟨progress', hprimary, hstream⟩ := h.primary_ok hfill accepts
  rw [← hroom] at hprimary
  rw [step_primary_of_ok hdepth hprimary]
  exact ⟨_, rfl, hstream, s.table.toSql?_store _⟩

theorem step_primary_error (h : s.progress.CallAhead s.catalog name function)
    (hroom : maxNesting = room + 1) {f : Failure}
    (hfill : fill (primary s.catalog room) function.form s.progress.tail.tail =
      .error f progress) (accepts : PrimaryClass) :
    (s.step (.primary accepts)).1 = .error f.error := by
  obtain ⟨progress', hprimary, -⟩ := h.primary_error hfill accepts
  rw [← hroom] at hprimary
  exact step_primary_of_error hdepth hprimary

/-- Asking for an extension on its own, if its form is not filled. -/
theorem step_extension_error (h : s.progress.CallAhead s.catalog name function) {f : Failure}
    (hfill : fill (primary s.catalog maxNesting) function.form s.progress.tail.tail =
      .error f progress) : (s.step (.extension function)).1 = .error f.error := by
  have hfails : (Step.extension function).treeParser s.catalog (maxNesting - s.depth) s.progress =
      .error f progress := by
    rw [hdepth]
    exact Parse.bind_of_error ((h.extensionCall_eq _).trans hfill) _
  rw [step_of_error hfails]

/-- A call by name does not depend on which name it is. -/
theorem step_primary_of_other_name (hdepth' : s'.depth = 0)
    (h : s.progress.CallAhead s.catalog name function)
    (h' : s'.progress.CallAhead s'.catalog name' function) (hcatalog : s'.catalog = s.catalog)
    (htail : s'.progress.lexemes.tail = s.progress.lexemes.tail) {accepts : PrimaryClass}
    {id : NodeId} (hok : (s.step (.primary accepts)).1 = .ok (.node id)) (accepts' : PrimaryClass) :
    ∃ id', (s'.step (.primary accepts')).1 = .ok (.node id') ∧
      ∀ style, (s'.step (.primary accepts')).2.table.toSql? style id' =
        (s.step (.primary accepts)).2.table.toSql? style id := by
  obtain ⟨room, hroom⟩ : ∃ room, maxNesting = room + 1 := ⟨_, rfl⟩
  cases hfill : fill (primary s.catalog room) function.form s.progress.tail.tail with
  | error f progress =>
    rw [step_primary_error hdepth h hroom hfill accepts] at hok
    cases hok
  | ok filled progress =>
    obtain ⟨-, d, hd, hnesting⟩ := fill_sound (primary_sound room) _ _ _ _ hfill
    have hlexemes : s'.progress.tail.tail.lexemes = s.progress.tail.tail.lexemes := by
      simp only [Progress.lexemes_tail, htail]
    obtain ⟨progress', hfill', -⟩ :=
      fill_of_derivation d (separated_form function) hnesting hlexemes
    rw [hd, ← hcatalog] at hfill'
    obtain ⟨id₁, hid₁, -, hsql⟩ := step_primary_ok hdepth h hroom hfill accepts
    obtain ⟨id', hid', -, hsql'⟩ := step_primary_ok hdepth' h' hroom hfill' accepts'
    obtain rfl : id₁ = id := Answer.node.inj (Except.ok.inj (hid₁.symm.trans hok))
    exact ⟨id', hid', fun style => (hsql' style).trans (hsql style).symm⟩

/-- With less in the slots than there is room for, a call by name comes to the same SQL. -/
theorem called_alike (h : s.progress.CallAhead s.catalog name function)
    (hfill : fill (primary s.catalog maxNesting) function.form s.progress.tail.tail =
      .ok filled progress) (hslots : ∀ e ∈ filled.2, e.nesting < maxNesting)
    (accepts : PrimaryClass) :
    ∃ id, (s.step (.primary accepts)).1 = .ok (.node id) ∧
      (s.step (.primary accepts)).2.progress.stream = progress.stream ∧
      ∀ style, ∃ sql, (s.step (.primary accepts)).2.table.toSql? style id = some sql ∧
        (s.step (.extension function)).2.table.callToSql? style
          ⟨function, filled.1, (s.table.storeAll filled.2).1⟩ = some sql := by
  obtain ⟨room, hroom⟩ : ∃ room, maxNesting = room + 1 := ⟨_, rfl⟩
  have hnesting : nestingOfList filled.2 ≤ room :=
    nestingOfList_le_iff.2 fun e he => Nat.le_of_lt_succ (Nat.lt_of_lt_of_eq (hslots e he) hroom)
  have hless := fill_of_nesting_le (separated_form function) (hroom ▸ hfill) hnesting
  obtain ⟨id, hid, hstream, hsql⟩ := step_primary_ok hdepth h hroom hless accepts
  rw [step_extension_ok hdepth h hfill]
  exact ⟨id, hid, hstream, fun style =>
    ⟨_, hsql style, s.table.callToSql?_storeAll function filled.1 filled.2 style⟩⟩

/-- With as much in a slot as there is room for, a call by name nests too deep. -/
theorem called_tooDeep (h : s.progress.CallAhead s.catalog name function)
    (hfill : fill (primary s.catalog maxNesting) function.form s.progress.tail.tail =
      .ok filled progress) (hslot : ∃ e ∈ filled.2, e.nesting = maxNesting)
    (accepts : PrimaryClass) :
    ∃ position, (s.step (.primary accepts)).1 = .error (.tooDeep position) := by
  obtain ⟨room, hroom⟩ : ∃ room, maxNesting = room + 1 := ⟨_, rfl⟩
  obtain ⟨e, he, hdeep⟩ := hslot
  have hnesting : room < nestingOfList filled.2 := by
    refine Nat.lt_of_not_le fun hle => ?_
    have := nestingOfList_le_iff.1 hle e he
    omega
  obtain ⟨f, s₂, position, hless, htooDeep⟩ := tooDeep_of_lt_nesting (hroom ▸ hfill) hnesting
  exact ⟨position, htooDeep ▸ step_primary_error hdepth h hroom hless accepts⟩

/-- If a form is not filled, a call by name fails alike. -/
theorem called_error {m : Nat} (h : s.progress.CallAhead s.catalog name function)
    (horder : InOrder m s.progress.list.tokens s.progress.list.ending) {f : Failure}
    (hfill : fill (primary s.catalog maxNesting) function.form s.progress.tail.tail =
      .error f progress) (accepts : PrimaryClass) :
    (s.step (.primary accepts)).1 = .error f.error ∨
      ∃ position ≤ f.error.position,
        (s.step (.primary accepts)).1 = .error (.tooDeep position) := by
  obtain ⟨room, hroom⟩ : ∃ room, maxNesting = room + 1 := ⟨_, rfl⟩
  obtain ⟨hname, left, hsecond, -⟩ := h.lookahead
  obtain ⟨m', horder'⟩ := ((Progress.Takes.one hname).trans (.one hsecond)).inOrder horder
  obtain ⟨f', s₂, hless, herror⟩ := error_of_error horder' (hroom ▸ hfill)
  rw [step_primary_error hdepth h hroom hless accepts]
  obtain hsame | ⟨position, hle, htooDeep⟩ := herror
  · exact .inl (congrArg Except.error hsame)
  · exact .inr ⟨position, hle, congrArg Except.error htooDeep⟩

omit hdepth in
/-- The tokens ahead of a session stand in order. -/
theorem run_inOrder (catalog : Catalog) (text : String) (steps : List Step) :
    ∃ m, InOrder m ((start catalog text).run steps).progress.list.tokens
      ((start catalog text).run steps).progress.list.ending := by
  obtain ⟨-, taken, htakes⟩ := (start catalog text).run_takes steps
  exact htakes.inOrder (ofChars_inOrder 0 text.toList)

end Steps

/-- **A call by name agrees with asking for the extension on its own.** After any steps, let a name
come next, of no built-in function, that the catalog has for the extension, and an opening
parenthesis.

If the extension is parsed on its own, then its form derives from what is after the head, and the
session ends up right after the parenthesis that closes it. If fewer primaries than the limit allows
stand inside one another in each slot, then a primary of either class is parsed as well, up to the
same place, and its SQL in any style is that of the call on its own. If in some slot as many stand
inside one another as the limit allows, then for a primary the text nests too deep. If the extension
is not parsed on its own, then a primary fails with the same error, or for want of room at a place
not behind it.

And it does not matter which name it is: in another text, after other steps, another name for the
same extension with the same lexemes after it gives the same SQL. -/
theorem dispatch_agrees (catalog : Catalog) (text : String) (steps : List Step) {name : Token}
    {function : Extension}
    (h : ((start catalog text).run steps).progress.CallAhead catalog name function) :
    let s := (start catalog text).run steps
    let direct := s.step (.extension function)
    (∀ answer, direct.1 = .ok answer → ∃ call slots, answer = .call call ∧
      s.Completes direct.2 function call slots ∧ (∀ e ∈ slots, e.nesting ≤ maxNesting) ∧
      ((∀ e ∈ slots, e.nesting < maxNesting) → ∀ accepts,
        let called := s.step (.primary accepts)
        ∃ id, called.1 = .ok (.node id) ∧ called.2.progress.stream = direct.2.progress.stream ∧
          ∀ style, ∃ sql, called.2.table.toSql? style id = some sql ∧
            direct.2.table.callToSql? style call = some sql) ∧
      ((∃ e ∈ slots, e.nesting = maxNesting) → ∀ accepts,
        ∃ position, (s.step (.primary accepts)).1 = .error (.tooDeep position))) ∧
    (∀ err, direct.1 = .error err → ∀ accepts,
      (s.step (.primary accepts)).1 = .error err ∨
        ∃ position ≤ err.position, (s.step (.primary accepts)).1 = .error (.tooDeep position)) ∧
    ∀ (text' : String) (steps' : List Step) (name' : Token),
      let s' := (start catalog text').run steps'
      s'.progress.CallAhead catalog name' function →
      s'.progress.lexemes.tail = s.progress.lexemes.tail →
      ∀ accepts id, (s.step (.primary accepts)).1 = .ok (.node id) → ∀ accepts',
        ∃ id', (s'.step (.primary accepts')).1 = .ok (.node id') ∧
          ∀ style, (s'.step (.primary accepts')).2.table.toSql? style id' =
            (s.step (.primary accepts)).2.table.toSql? style id := by
  intro s direct
  have hcatalog : ∀ text steps, ((start catalog text).run steps).catalog = catalog :=
    fun text steps => ((start catalog text).run_takes steps).1
  have hs : s.catalog = catalog := hcatalog text steps
  have hcall : s.progress.CallAhead s.catalog name function := hs ▸ h
  have hdepth : s.depth = 0 := run_depth _ steps
  refine ⟨?parsed, ?fails, ?otherName⟩
  case parsed =>
    intro answer hok
    cases hfill : fill (primary s.catalog maxNesting) function.form s.progress.tail.tail with
    | ok filled progress =>
      have hdirect : direct = _ := step_extension_ok hdepth hcall hfill
      have hstream : direct.2.progress = progress := congrArg (fun r => r.2.progress) hdirect
      have hanswer := (congrArg Prod.fst hdirect).symm.trans hok
      rw [hstream]
      have hcompletes := completes_of_fill hdepth hcall hfill
      exact ⟨_, filled.2, (Except.ok.inj hanswer).symm, hcompletes, hcompletes.nesting_le,
        called_alike hdepth hcall hfill, called_tooDeep hdepth hcall hfill⟩
    | error f progress =>
      have hdirect : direct.1 = .error f.error := step_extension_error hdepth hcall hfill
      rw [hdirect] at hok
      cases hok
  case fails =>
    intro err herr accepts
    cases hfill : fill (primary s.catalog maxNesting) function.form s.progress.tail.tail with
    | ok filled progress =>
      have hdirect : direct = _ := step_extension_ok hdepth hcall hfill
      rw [hdirect] at herr
      cases herr
    | error f progress =>
      have hdirect : direct.1 = .error f.error := step_extension_error hdepth hcall hfill
      obtain rfl : f.error = err := Except.error.inj (hdirect.symm.trans herr)
      obtain ⟨m, horder⟩ := run_inOrder catalog text steps
      exact called_error hdepth hcall horder hfill accepts
  case otherName =>
    intro text' steps' name' s' h' htail accepts id hok accepts'
    have hs' : s'.catalog = catalog := hcatalog text' steps'
    exact step_primary_of_other_name hdepth (run_depth _ steps') hcall (hs' ▸ h')
      (hs'.trans hs.symm) htail hok accepts'

/-- A call under another name, in lower case, and the same SQL for it either way. -/
theorem dispatch_agrees_alias :
    let s := start (Catalog.empty.put "F" ⟨.ifNull, .string⟩) "f(a, 1)"
    let direct := s.step (.extension .ifNull)
    let called := s.step (.primary .string)
    ∃ call id, direct.1 = .ok (.call call) ∧ called.1 = .ok (.node id) ∧
      ∀ style, ∃ sql, called.2.table.toSql? style id = some sql ∧
        direct.2.table.callToSql? style call = some sql := by
  have hahead : (Stream.ofText "f(a, 1)").ahead =
      [⟨.identifier, "f", 0⟩, ⟨.parenLeft, "(", 1⟩, ⟨.identifier, "a", 2⟩, ⟨.comma, ",", 3⟩,
        ⟨.integer, "1", 5⟩, ⟨.parenRight, ")", 6⟩] := by
    decide +kernel
  have hfound : (Catalog.empty.put "F" ⟨.ifNull, .string⟩).find? "f" = some ⟨.ifNull, .string⟩ := by
    have hname : foldCase "F" = foldCase "f" := by
      rw [← String.toList_inj, toList_foldCase, toList_foldCase]
      decide +kernel
    rw [Catalog.find?_put, if_pos hname]
  have hcall : (run (start (Catalog.empty.put "F" ⟨.ifNull, .string⟩) "f(a, 1)")
      []).progress.CallAhead (Catalog.empty.put "F" ⟨.ifNull, .string⟩) ⟨.identifier, "f", 0⟩
        .ifNull :=
    ⟨⟨_, _, hahead, rfl⟩, rfl, by decide +kernel, congrArg (Option.map Entry.extension) hfound⟩
  have hdirect : ((start (Catalog.empty.put "F" ⟨.ifNull, .string⟩) "f(a, 1)").step
      (.extension .ifNull)).1 = .ok (.call ⟨.ifNull, [], [0, 1]⟩) := by
    decide +kernel
  have hnesting : ([0, 1].mapM ((start (Catalog.empty.put "F" ⟨.ifNull, .string⟩) "f(a, 1)").step
      (.extension .ifNull)).2.table.expr?).map (List.map Expr.nesting) = some [1, 1] := by
    decide +kernel
  obtain ⟨call, slots, hanswer, hcompletes, -, hsame, -⟩ :=
    (dispatch_agrees _ "f(a, 1)" [] hcall).1 _ hdirect
  cases hanswer
  have hone : slots.map Expr.nesting = [1, 1] :=
    Option.some.inj ((congrArg _ hcompletes.slots_eq).symm.trans hnesting)
  have hslots : ∀ e ∈ slots, e.nesting < maxNesting := by
    intro e he
    have hmem : e.nesting ∈ slots.map Expr.nesting := List.mem_map_of_mem he
    have hleaf : e.nesting = 1 := by simpa [hone] using hmem
    rw [hleaf]
    decide
  obtain ⟨id, hid, -, hsql⟩ := hsame hslots .string
  exact ⟨_, id, hdirect, hid, hsql⟩

end Session

end Dql
