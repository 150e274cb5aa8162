import Mathlib.Data.List.Basic
import Dql.Proofs.Sessions

/-!
# Where failing steps stop

A step that fails leaves its session right before what its error is about: the tokens up to there
are taken, and the one that the error points at is what comes next. So a session can be asked what
is wrong, and can go on from there.

* `Session.After` - a session that has taken the first tokens of a text, and no others;
* `ParseError.PointsAt` - what comes next in a session, as an error has it.

Principal results: `Session.after_run` - a session always stands after some tokens - and
`Session.fails_in_place`.
-/

namespace Dql

variable {text : String}

/-- The session has taken the tokens `taken` of the text, which are its first ones, and stands where
the last of them stops. -/
structure Session.After (text : String) (taken : List Token) (s : Session) : Prop where
  tokens : (TokenList.ofText text).tokens = taken ++ s.progress.stream.ahead
  ending : (TokenList.ofText text).ending = s.progress.stream.ending
  position : s.progress.stream.position = (taken.getLast?.map Token.stop).getD 0

/-- What an error says about the session that it leaves. What was found is the token that comes
next, or the end of the text; a primary that is too deep inside others comes next or is missing at
the end; and a lexical error is what comes next, or what comes after a name. -/
def ParseError.PointsAt (text : String) (s : Session) : ParseError → Prop
  | .mismatch position _ (some found) =>
    ∃ t, s.lookahead = .ok (.token t) ∧ t.start = position ∧ t.text = found
  | .mismatch position _ none =>
    s.lookahead = .ok (.endOfText position) ∧ position = text.utf8ByteSize
  | .tooDeep position => (∃ t, s.lookahead = .ok (.token t) ∧ t.start = position) ∨
    s.lookahead = .ok (.endOfText position) ∧ position = text.utf8ByteSize
  | .lexical cause => s.lookahead = .error cause ∨
    ∃ t, s.lookahead = .ok (.token t) ∧ t.kind = .identifier ∧
      s.progress.stream.skip.lookahead = .error cause

namespace Session

/-! ## Places -/

theorem after_start (catalog : Catalog) (text : String) : (start catalog text).After text [] :=
  ⟨rfl, rfl, rfl⟩

/-- A session that goes over more tokens stands after these. -/
theorem After.takes {s s' : Session} {taken more : List Token} (h : s.After text taken)
    (hmore : s.progress.Takes more s'.progress) : s'.After text (taken ++ more) := by
  have htokens : s.progress.stream.ahead = more ++ s'.progress.stream.ahead :=
    congrArg TokenList.tokens hmore.list
  have hending : s.progress.stream.ending = s'.progress.stream.ending :=
    congrArg TokenList.ending hmore.list
  constructor
  case tokens => rw [h.tokens, htokens, List.append_assoc]
  case ending => rw [h.ending, hending]
  case position =>
    rw [hmore.position, h.position, List.getLast?_append]
    cases more.getLast? <;> rfl

/-- **A session always stands after some tokens**, whatever became of its steps. -/
theorem after_run (catalog : Catalog) (text : String) (steps : List Step) :
    ∃ taken, ((start catalog text).run steps).After text taken := by
  obtain ⟨-, taken, htakes⟩ := (start catalog text).run_takes steps
  exact ⟨taken, (after_start catalog text).takes htakes⟩

/-- A session stands at the start of the text or where a token stops. -/
theorem After.position_eq {s : Session} {taken : List Token} (h : s.After text taken) :
    s.progress.stream.position = 0 ∨
      ∃ t ∈ (TokenList.ofText text).tokens, s.progress.stream.position = t.stop := by
  rw [h.position, h.tokens]
  cases hlast : taken.getLast? with
  | none => exact .inl rfl
  | some t => exact .inr ⟨t, List.mem_append_left _ (List.mem_of_getLast? hlast), rfl⟩

/-- A session that goes over tokens does not go back. -/
theorem After.position_le {s s' : Session} {taken more : List Token} (h : s.After text taken)
    (hmore : s.progress.Takes more s'.progress) :
    s.progress.stream.position ≤ s'.progress.stream.position := by
  have horder := ofChars_inOrder 0 text.toList
  rw [← TokenList.ofText, h.tokens] at horder
  obtain ⟨-, hahead⟩ := horder.after_last
  have htokens : s.progress.stream.ahead = more ++ s'.progress.stream.ahead :=
    congrArg TokenList.tokens hmore.list
  rw [← h.position, htokens] at hahead
  rw [hmore.position]
  exact hahead.after_last.1

/-- Where a session finds the end of its text, that is where the text ends. -/
theorem After.endOfText {s : Session} {taken : List Token} (h : s.After text taken) {position : Nat}
    (hend : s.lookahead = .ok (.endOfText position)) : position = text.utf8ByteSize := by
  have hlist := TokenList.eq_of_lookahead_endOfText (l := s.progress.list) hend
  have hending : (TokenList.ofText text).ending = .endOfText position := by
    rw [h.ending]
    exact congrArg TokenList.ending hlist
  rw [position_of_endOfText hending, Nat.zero_add, utf8ByteSize_eq_byteSize]

/-! ## Errors -/

/-- An error that stops at the place of a session points at what comes next there. -/
theorem After.pointsAt {s : Session} {taken : List Token} (h : s.After text taken)
    {err : ParseError} (hstops : err.StopsAt s.progress.list) : err.PointsAt text s := by
  cases err with
  | lexical cause =>
    rcases hstops with hnext | ⟨t, ht, hname, hsecond⟩
    · exact .inl hnext
    · refine .inr ⟨t, ht, hname, ?_⟩
      rw [← Progress.list_tail] at hsecond
      exact hsecond
  | mismatch position expected found =>
    obtain ⟨⟨seen, hseen, herr⟩, -⟩ := hstops
    cases seen with
    | token t =>
      cases herr
      exact ⟨t, hseen, rfl, rfl⟩
    | endOfText n =>
      cases herr
      exact ⟨hseen, h.endOfText hseen⟩
  | tooDeep position =>
    obtain ⟨seen, hseen, rfl⟩ := hstops
    cases seen with
    | token t => exact .inl ⟨t, hseen, rfl⟩
    | endOfText n => exact .inr ⟨hseen, h.endOfText hseen⟩

/-- What a failing step does to any session: it goes over tokens, and stops where its error does. -/
theorem step_stopsAt {s s' : Session} {what : Step} {err : ParseError}
    (h : s.step what = (.error err, s')) :
    ∃ more, s.progress.Takes more s'.progress ∧ err.StopsAt s'.progress.list := by
  have hreplays := treeParser_replays s.catalog (maxNesting - s.depth) what s.progress
  cases hrun : what.treeParser s.catalog (maxNesting - s.depth) s.progress with
  | ok found s₁ =>
    rw [step_of_ok hrun] at h
    cases h
  | error f s₁ =>
    rw [step_of_error hrun] at h
    cases h
    obtain ⟨more, htakes, hstops, -⟩ := hreplays.error hrun
    exact ⟨more, htakes, hstops⟩

/-- **A failing step stops right before what it complains about.** After any steps on any text, a
step that fails leaves the session at the start of the text or where a token stops, and not before
where it was: it has taken the tokens up to there, and not the one that its error points at, which
comes next. -/
theorem fails_in_place {catalog : Catalog} {text : String} {steps : List Step} {what : Step}
    {err : ParseError} (h : (((start catalog text).run steps).step what).1 = .error err) :
    let s := (start catalog text).run steps
    let s' := (s.step what).2
    (∃ taken, s'.After text taken) ∧
      (s'.progress.stream.position = 0 ∨
        ∃ t ∈ (TokenList.ofText text).tokens, s'.progress.stream.position = t.stop) ∧
      s.progress.stream.position ≤ s'.progress.stream.position ∧ err.PointsAt text s' := by
  intro s s'
  obtain ⟨taken, hafter⟩ := after_run catalog text steps
  obtain ⟨more, htakes, hstops⟩ := step_stopsAt (Prod.ext h rfl)
  have hafter' : s'.After text (taken ++ more) := hafter.takes htakes
  exact ⟨⟨_, hafter'⟩, hafter'.position_eq, hafter.position_le htakes, hafter'.pointsAt hstops⟩

/-- The first argument is taken, and not the token that should have been a comma. -/
theorem fails_in_place_argument :
    let s' := ((start .empty "f(1 2)").run [.take .identifier]).step (.primary .arithmetic)
    s'.1 = .error (.mismatch 4 (.token .parenRight) (some "2")) ∧
      ∃ t, s'.2.lookahead = .ok (.token t) ∧ t.start = 4 ∧ t.text = "2" := by
  have hstep : (((start .empty "f(1 2)").run [.take .identifier]).step (.primary .arithmetic)).1 =
      .error (.mismatch 4 (.token .parenRight) (some "2")) := by
    decide +kernel
  exact ⟨hstep, (fails_in_place hstep).2.2.2⟩

end Session

end Dql
