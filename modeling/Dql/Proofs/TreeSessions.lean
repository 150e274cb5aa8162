import Dql.Proofs.Refinement

/-!
# Sessions told by trees

What a step of a session comes to is told by a parser to trees. If it succeeds, what it finds is
stored and nothing else is; if it fails, what it leaves behind is stored, and what was an argument
of an open call stays on the stack. In either case as many primaries are open as before, which in a
session is none.

* `Parsed`, `Parsed.exprs` - what a step finds, and the expressions in it;
* `Step.treeParser` - the parser to trees for a step;
* `Parser.answering` - the answer when something is found, and the state with it stored.

Principal results: `Session.step_eq` and `Session.run_depth`.
-/

namespace Dql

/-- What a step of a session finds. -/
inductive Parsed where
  | token (token : Token)
  | done
  | expr (e : Expr)
  /-- a call of this extension: the words of its form, and what is in its slots -/
  | call (function : Extension) (words : List String) (slots : List Expr)

/-- The expressions that are stored for what is found. -/
def Parsed.exprs : Parsed → List Expr
  | .token _ | .done => []
  | .expr e => [e]
  | .call _ _ slots => slots

/-- The parser to trees for a step, with room for so many primaries inside one another. -/
def Step.treeParser (catalog : Catalog) (room : Nat) : Step → Parse Parsed
  | .take kind => return .token (← Dql.take kind)
  | .finish => do
    Dql.expectEnd
    return .done
  | .expression => return .expr (← Dql.expression (Dql.primary catalog room))
  | .primary accepts => return .expr (← Dql.primary catalog room accepts)
  | .extension function => do
    let (words, slots) ← Dql.extensionCall (Dql.primary catalog room) function
    return .call function words slots

namespace Parser

/-- The answer for what is found, and the state with it stored. -/
def answering (σ : Parser) : Parsed → Answer × Parser
  | .token t => (.token t, σ)
  | .done => (.done, σ)
  | .expr e => (.node (σ.storing e).1, (σ.storing e).2)
  | .call function words slots =>
    (.call ⟨function, words, (σ.storingAll slots).1⟩, (σ.storingAll slots).2)

/-- What is found is stored, and nothing else changes. -/
theorem answering_snd (σ : Parser) (found : Parsed) :
    (σ.answering found).2 = (σ.storingAll found.exprs).2 := by
  cases found <;> rfl

/-- **A parser takes a step as the parser to trees does.** -/
theorem step_refines (catalog : Catalog) (what : Step) (σ : Parser) :
    RefinesFrom σ σ.answering (what.treeParser catalog (maxNesting - σ.depth))
      (what.parser catalog) σ := by
  have hprimary := storesPrimaries catalog σ.depth
  cases what with
  | take kind => exact (take_tracks kind σ σ.progress).bind fun _ _ _ => .pure rfl rfl
  | finish => exact (expectEnd_tracks σ σ.progress).bind fun _ _ _ => .pure rfl rfl
  | expression => exact (expression_stores hprimary rfl).bind fun _ _ _ => .pure rfl rfl
  | primary accepts => exact (hprimary accepts σ rfl).bind fun _ _ _ => .pure rfl rfl
  | extension function =>
    exact (extensionCall_refines hprimary function σ rfl σ.progress).bind fun _ _ _ => .pure rfl rfl

end Parser

namespace Session

variable {s : Session} {what : Step}

/-- The session with another state of its parser. -/
def withParser (s : Session) (σ : Parser) : Session := { s with toParser := σ }

/-- **What a step comes to is told by trees.** -/
theorem step_eq (s : Session) (what : Step) :
    s.step what =
      match what.treeParser s.catalog (maxNesting - s.depth) s.progress with
      | .ok found progress =>
        (.ok (s.answering found).1, s.withParser ((s.answering found).2.movedTo progress))
      | .error f progress =>
        (.error f.error, s.withParser ((s.leaving f.fragments).movedTo progress)) := by
  have hrefines := s.toParser.step_refines s.catalog what
  unfold step
  cases hrun : what.treeParser s.catalog (maxNesting - s.depth) s.progress with
  | ok found progress =>
    rw [hrefines.of_ok hrun]
    rfl
  | error f progress =>
    rw [hrefines.of_error hrun]
    rfl

theorem step_of_ok {found : Parsed} {progress : Progress}
    (h : what.treeParser s.catalog (maxNesting - s.depth) s.progress = .ok found progress) :
    s.step what =
      (.ok (s.answering found).1, s.withParser ((s.answering found).2.movedTo progress)) := by
  rw [step_eq, h]

theorem step_of_error {f : Failure} {progress : Progress}
    (h : what.treeParser s.catalog (maxNesting - s.depth) s.progress = .error f progress) :
    s.step what = (.error f.error, s.withParser ((s.leaving f.fragments).movedTo progress)) := by
  rw [step_eq, h]

/-- **A step leaves as many primaries open as there were**, also if it fails inside some. -/
theorem step_depth (s : Session) (what : Step) : (s.step what).2.depth = s.depth := by
  rw [step_eq]
  cases what.treeParser s.catalog (maxNesting - s.depth) s.progress with
  | ok found progress =>
    show (s.answering found).2.depth = s.depth
    rw [Parser.answering_snd]
    rfl
  | error f progress => rfl

theorem run_depth (s : Session) (steps : List Step) : (s.run steps).depth = s.depth := by
  induction steps generalizing s with
  | nil => rfl
  | cons what steps ih => exact (ih (s.step what).2).trans (s.step_depth what)

theorem step_catalog (s : Session) (what : Step) : (s.step what).2.catalog = s.catalog := by
  rw [step_eq]
  cases what.treeParser s.catalog (maxNesting - s.depth) s.progress <;> rfl

end Session

end Dql
