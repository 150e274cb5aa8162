import Dql.Proofs.Lookahead
import Dql.Proofs.Positions
import Dql.Proofs.Relocation
import Dql.Proofs.Shifting
import Dql.Proofs.TreeSessions

/-!
# Sessions have no memory

After any steps, successful or not, a session goes on like a new one on the rest of the text. All
that the earlier steps leave behind is how far the text was read, the reports, the nodes, and the
arguments of calls that failed: later tokens, errors and reports stand further on, later nodes
behind the earlier ones, and later arguments above those that are still on the stack.

* `Parser.behind`, `Session.behind`, `Answer.behind` - the same behind all that was there before;
* `Session.outcomeBehind` - what a step comes to, behind all that was there before.

Principal results: `Session.step_behind` - a step is the same behind whatever was there before - and
`Session.goes_on_like_new`.
-/

namespace Dql

/-! ## Behind what was there before -/

/-- The state behind all that the state `before` has: the text goes on where that one stands, nodes
come after its nodes, arguments after those on its stack. The primaries that are open are those of
`σ` alone. -/
def Parser.behind (σ before : Parser) : Parser where
  progress := σ.progress.later before.progress.stream.position before.progress.dispatched
  table := before.table.append σ.table
  scratch := before.scratch ++ σ.scratch.map (before.table.size + ·)
  depth := σ.depth

/-- The answer behind all that the state `before` has. -/
def Answer.behind (before : Parser) : Answer → Answer
  | .token found => .token (found.later before.progress.stream.position)
  | .done => .done
  | .node id => .node (before.table.size + id)
  | .call made => .call (made.behind before.table)

/-- The session behind all that the state `before` has. -/
def Session.behind (before : Parser) (s : Session) : Session :=
  s.withParser (s.toParser.behind before)

/-- What a step comes to behind all that the state `before` has. -/
def Session.outcomeBehind (before : Parser) :
    Except ParseError Answer × Session → Except ParseError Answer × Session
  | (.ok answer, s) => (.ok (answer.behind before), s.behind before)
  | (.error err, s) => (.error (err.later before.progress.stream.position), s.behind before)

/-- What is found, `n` bytes later. -/
def Parsed.later (n : Nat) : Parsed → Parsed
  | .token t => .token (t.later n)
  | found => found

namespace Parser

variable (σ before : Parser)

/-! ## Storing -/

theorem storingAll_behind (es : List Expr) :
    (σ.behind before).storingAll es = ((σ.storingAll es).1.map (before.table.size + ·),
      (σ.storingAll es).2.behind before) := by
  simp only [storingAll, behind, NodeTable.storeAll_append]

theorem storing_behind (e : Expr) :
    (σ.behind before).storing e =
      (before.table.size + (σ.storing e).1, (σ.storing e).2.behind before) := by
  simp only [storing, behind, NodeTable.store_append]

theorem answering_behind (found : Parsed) :
    (σ.behind before).answering (found.later before.progress.stream.position) =
      ((σ.answering found).1.behind before, (σ.answering found).2.behind before) := by
  cases found with
  | token | done => rfl
  | expr e =>
    simp only [Parsed.later, answering, storing_behind]
    rfl
  | call function words slots =>
    simp only [Parsed.later, answering, storingAll_behind]
    rfl

/-- What a failure leaves behind is stored after what was there before. Arguments come above those
that were on the stack. -/
theorem leaving_behind (fragments : List Fragment) :
    (σ.behind before).leaving fragments = (σ.leaving fragments).behind before := by
  have hfragments : ∀ u : NodeTable, (before.table.append u).storeFragments fragments =
      ((u.storeFragments fragments).1.map (before.table.size + ·),
        before.table.append (u.storeFragments fragments).2) := by
    induction fragments with
    | nil => exact fun _ => rfl
    | cons e es ih =>
      intro u
      simp only [NodeTable.storeFragments, NodeTable.store_append, ih]
      cases e.isArgument <;> rfl
  simp [leaving, behind, hfragments, Array.append_assoc]

end Parser

/-- A step finds some bytes later what it finds here. -/
theorem Step.treeParser_follows (catalog : Catalog) (n room : Nat) (what : Step) :
    Follows n (.later n) (what.treeParser catalog room) (what.treeParser catalog room) := by
  have hp := primary_follows catalog n room
  cases what with
  | take kind => exact (Follows.take n kind).bind fun _ _ _ => rfl
  | finish => exact (Follows.expectEnd n).bind fun _ _ _ => rfl
  | expression => exact (expression_follows (hp .arithmetic)).bind fun _ _ _ => rfl
  | primary accepts => exact (hp accepts).bind fun _ _ _ => rfl
  | extension function => exact (extensionCall_follows hp function).bind fun _ _ _ => rfl

namespace Session

section Behind

variable (before : Parser) (s : Session)

/-- **A step is the same step behind whatever was there before**, for any session. -/
theorem step_behind (what : Step) :
    (s.behind before).step what = outcomeBehind before (s.step what) := by
  have hfollows : what.treeParser s.catalog (maxNesting - s.depth)
      (s.progress.later before.progress.stream.position before.progress.dispatched) = _ :=
    what.treeParser_follows s.catalog _ _ before.progress.dispatched s.progress
  cases hrun : what.treeParser s.catalog (maxNesting - s.depth) s.progress with
  | ok found progress =>
    have hfound : (s.behind before).step what =
        (.ok ((s.toParser.behind before).answering (found.later _)).1,
          s.withParser (((s.toParser.behind before).answering (found.later _)).2.movedTo
            (progress.later _ _))) :=
      step_of_ok (hfollows.trans (by rw [hrun]; rfl))
    rw [hfound, Parser.answering_behind, step_of_ok hrun]
    rfl
  | error f progress =>
    have hfails : (s.behind before).step what =
        (.error (f.later _).error,
          s.withParser (((s.toParser.behind before).leaving (f.later _).fragments).movedTo
            (progress.later _ _))) :=
      step_of_error (hfollows.trans (by rw [hrun]; rfl))
    rw [hfails, Failure.later, Parser.leaving_behind, step_of_error hrun]
    rfl

theorem run_behind (steps : List Step) :
    (s.behind before).run steps = (s.run steps).behind before := by
  induction steps generalizing s with
  | nil => rfl
  | cons what steps ih =>
    have hstep : ((s.behind before).step what).2 = (s.step what).2.behind before := by
      rw [step_behind]
      obtain ⟨_ | _, s₁⟩ := s.step what <;> rfl
    simp only [run, List.foldl_cons] at ih ⊢
    rw [hstep]
    exact ih _

end Behind

/-! ## What steps take -/

section Takes

variable (s : Session)

theorem extensionCall_replays (catalog : Catalog) (room : Nat) (function : Extension)
    (s : Progress) :
    Replays (extensionCall (primary catalog room) function)
      (extensionCall (primary catalog room) function) s :=
  (callHead_replays s).bind fun _ s₁ _ => fill_primary_replays (Nat.le_refl room) function.form s₁

theorem treeParser_replays (catalog : Catalog) (room : Nat) (what : Step) (s : Progress) :
    Replays (what.treeParser catalog room) (what.treeParser catalog room) s := by
  have hroom := Nat.le_refl room
  cases what with
  | take kind => exact (Replays.take kind s).bind fun t s₁ _ => .pure (Parsed.token t) s₁
  | finish => exact (Replays.expectEnd s).bind fun _ s₁ _ => .pure Parsed.done s₁
  | expression =>
    exact (expression_primary_replays hroom s).bind fun e s₁ _ => .pure (Parsed.expr e) s₁
  | primary accepts =>
    exact (primary_replays hroom accepts s).bind fun e s₁ _ => .pure (Parsed.expr e) s₁
  | extension function =>
    exact (extensionCall_replays catalog room function s).bind fun filled s₁ _ =>
      .pure (Parsed.call function filled.1 filled.2) s₁

/-- **A step goes over tokens and does nothing else to the text**, whatever becomes of it. -/
theorem step_takes (what : Step) : ∃ taken, s.progress.Takes taken (s.step what).2.progress := by
  have hreplays := treeParser_replays s.catalog (maxNesting - s.depth) what s.progress
  cases hrun : what.treeParser s.catalog (maxNesting - s.depth) s.progress with
  | ok found s₁ =>
    obtain ⟨taken, htakes, -⟩ := hreplays.ok hrun
    rw [step_of_ok hrun]
    exact ⟨taken, htakes⟩
  | error f s₁ =>
    obtain ⟨taken, htakes, -⟩ := hreplays.error hrun
    rw [step_of_error hrun]
    exact ⟨taken, htakes⟩

theorem run_takes (steps : List Step) :
    (s.run steps).catalog = s.catalog ∧ ∃ taken, s.progress.Takes taken (s.run steps).progress := by
  induction steps generalizing s with
  | nil => exact ⟨rfl, [], .nil _⟩
  | cons what steps ih =>
    obtain ⟨taken, htakes⟩ := s.step_takes what
    obtain ⟨hcatalog, taken', htakes'⟩ := ih (s.step what).2
    exact ⟨hcatalog.trans (s.step_catalog what), taken ++ taken', htakes.trans htakes'⟩

end Takes

/-! ## The rest of the text -/

/-- After any steps a session is like a new one on the rest of the text, further on. -/
theorem exists_rest (catalog : Catalog) (text : String) (steps : List Step) :
    ∃ front back, text = front ++ back ∧
      front.utf8ByteSize = ((start catalog text).run steps).progress.stream.position ∧
      (start catalog text).run steps =
        (start catalog back).behind ((start catalog text).run steps).toParser := by
  obtain ⟨hcatalog, taken, htakes⟩ := (start catalog text).run_takes steps
  have hdepth : ((start catalog text).run steps).depth = 0 := run_depth _ steps
  generalize (start catalog text).run steps = s at hcatalog htakes hdepth ⊢
  have hlist : TokenList.ofText text = s.progress.list.prepend taken := htakes.list
  obtain ⟨front, back, hcs, hposition, hback⟩ := ofChars_split (congrArg TokenList.tokens hlist)
  rw [Nat.zero_add] at hposition hback
  have hplace : byteSize front = s.progress.stream.position :=
    hposition.trans htakes.position.symm
  -- the rest of the text, read on its own, gives what is ahead
  have hahead :
      s.progress.list = (TokenList.ofText (String.ofList back)).later (byteSize front) := by
    have hending : (TokenList.ofText text).ending = s.progress.list.ending := by rw [hlist]; rfl
    rw [TokenList.ofText, String.toList_ofList, ← ofChars_later, Nat.add_zero, hback,
      ← TokenList.ofText, hending]
  have hstream : s.progress.stream =
      (Stream.ofText (String.ofList back)).later s.progress.stream.position := by
    calc s.progress.stream
        = ⟨s.progress.list.tokens, s.progress.list.ending, s.progress.stream.position⟩ := rfl
      _ = _ := by rw [hahead, hplace]; rfl
  refine ⟨String.ofList front, String.ofList back, ?_, by rw [utf8ByteSize_ofList, hplace], ?_⟩
  · rw [← String.ofList_append, ← hcs, String.ofList_toList]
  · have hparser : s.toParser = (Parser.start (String.ofList back)).behind s.toParser := by
      calc s.toParser
          = ⟨⟨s.progress.stream, s.progress.dispatched⟩, s.table, s.scratch, s.depth⟩ := rfl
        _ = _ := by
          rw [hdepth, hstream]
          simp [Parser.behind, Parser.start, Progress.later, NodeTable.append_empty]
    calc s = ⟨s.toParser, s.catalog⟩ := rfl
      _ = _ := by
        rw [hcatalog]
        exact congrArg (fun σ : Parser => (⟨σ, catalog⟩ : Session)) hparser

/-- **A session goes on like a new one on the rest of the text.** After any steps it stands between
two characters, with no primary open. Whatever further steps are taken, each comes to what it comes
to in a new session on the rest of the text: with the same answer or error, and with the same
progress, reports and nodes, all byte offsets greater by what was read before, and all ids, spans
and indexes by what was there. What failed calls have left on the stack of arguments stays there
beneath all else, and so is never an argument of a later call. -/
theorem goes_on_like_new (catalog : Catalog) (text : String) (steps : List Step) :
    let s := (start catalog text).run steps
    s.depth = 0 ∧ ∃ front back, text = front ++ back ∧
      front.utf8ByteSize = s.progress.stream.position ∧
      ∀ (more : List Step) (what : Step), (s.run more).step what =
        outcomeBehind s.toParser (((start catalog back).run more).step what) := by
  intro s
  obtain ⟨front, back, htext, hposition, hs⟩ := exists_rest catalog text steps
  refine ⟨run_depth _ steps, front, back, htext, hposition, fun more what => ?_⟩
  calc (s.run more).step what
      = (((start catalog back).behind s.toParser).run more).step what :=
        congrArg (fun s => (run s more).step what) hs
    _ = (((start catalog back).run more).behind s.toParser).step what := by rw [run_behind]
    _ = _ := step_behind ..

end Session

end Dql
