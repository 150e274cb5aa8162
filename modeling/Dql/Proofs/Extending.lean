import Mathlib.Data.List.Basic
import Dql.Proofs.Agreement
import Dql.Proofs.Parsing
import Dql.Proofs.TreeSessions

/-!
# Extending a catalog

A catalog is asked for a name only where a call of that name stands and no built-in function has the
name. What is found decides how the call is parsed, and if nothing is found parsing ends there. So
with more names in the catalog every text is parsed as before, unless it was rejected for a name
that is known now.

* `Catalog.IncludedIn` - every name of a catalog stands for the same in another one.

Principal result: `extending_cures_unknown_names_only`.
-/

namespace Dql

/-- Every name of the catalog stands for the same extension in the other one. The categories may
differ. -/
def Catalog.IncludedIn (catalog catalog' : Catalog) : Prop :=
  ∀ name entry, catalog.find? name = some entry →
    ∃ entry', catalog'.find? name = some entry' ∧ entry'.extension = entry.extension

/-- Errors about a function that is not known, but would be in the given catalog. -/
def CuredBy (catalog : Catalog) (err : ParseError) : Prop :=
  ∃ position name, err = .mismatch position .knownFunction (some name) ∧
    (catalog.find? name).isSome = true

/-- A new name leaves all others as they are. -/
theorem Catalog.includedIn_put {c : Catalog} {name : String} (h : c.find? name = none)
    (entry : Entry) : c.IncludedIn (c.put name entry) := by
  intro other entry' hfind
  have hother : foldCase name ≠ foldCase other := by
    intro hsame
    rw [find?, hsame, ← find?, hfind] at h
    cases h
  exact ⟨entry', by rw [find?_put, if_neg hother, hfind], rfl⟩

variable {catalog catalog' : Catalog} {n : Nat} {primary primary' : PrimaryParser}

/-! ## Calls -/

/-- Of the entry of a name only the extension matters. -/
theorem functionCall_eq (catalog : Catalog) (primary : PrimaryParser) (name : Token) :
    functionCall catalog primary name =
      match Builtin.ofName? name.text, (catalog.find? name.text).map Entry.extension with
      | some function, _ => builtinCall primary function
      | none, some extension => do
        dispatch name
        let (words, slots) ← extensionCall primary extension
        return .extension extension words slots
      | none, none => Parse.fail (mismatch .knownFunction (.token name)) := by
  unfold functionCall
  cases Builtin.ofName? name.text with
  | some function => rfl
  | none => cases catalog.find? name.text <;> rfl

theorem functionCall_congr {name : Token}
    (h : (catalog.find? name.text).map Entry.extension =
      (catalog'.find? name.text).map Entry.extension) (primary : PrimaryParser) :
    functionCall catalog primary name = functionCall catalog' primary name := by
  rw [functionCall_eq, functionCall_eq, h]

/-- A call is parsed alike under both catalogs, or it fails for a name that only the larger one
has. -/
theorem functionCall_included (h : catalog.IncludedIn catalog')
    (hp : ∀ accepts, Agrees n (CuredBy catalog') (primary accepts) (primary' accepts))
    (name : Token) :
    Agrees (n + 1) (CuredBy catalog') (functionCall catalog primary name)
      (functionCall catalog' primary' name) := by
  have hcall : Agrees (n + 1) (CuredBy catalog') (functionCall catalog' primary name)
      (functionCall catalog' primary' name) := functionCall_agrees hp name
  cases hfind : catalog.find? name.text with
  | some entry =>
    obtain ⟨entry', hfind', hextension⟩ := h name.text entry hfind
    have hsame : (catalog.find? name.text).map Entry.extension =
        (catalog'.find? name.text).map Entry.extension := by
      simp only [hfind, hfind', Option.map_some, hextension]
    rw [functionCall_congr hsame]
    exact hcall
  | none =>
    cases hbuiltin : Builtin.ofName? name.text with
    | some function =>
      rw [functionCall_eq catalog, hbuiltin]
      rwa [functionCall_eq catalog' primary, hbuiltin] at hcall
    | none =>
      cases hfind' : catalog'.find? name.text with
      | none =>
        have hsame : (catalog.find? name.text).map Entry.extension =
            (catalog'.find? name.text).map Entry.extension := by
          simp only [hfind, hfind']
        rw [functionCall_congr hsame]
        exact hcall
      | some entry' =>
        intro s hs
        have hgoes := (hcall s hs).goes
        have hfails : functionCall catalog primary name s =
            .error { error := .mismatch name.start .knownFunction (some name.text) } s := by
          rw [functionCall_eq, hbuiltin, hfind]
          rfl
        exact ⟨hgoes, .inr ⟨_, s, hfails, ⟨name.start, name.text, rfl, by rw [hfind']; rfl⟩, hgoes⟩⟩

/-! ## Primaries and expressions -/

/-- With any room a primary is parsed alike under both catalogs, or parsing ends at a name that only
the larger one has. -/
theorem primary_included (h : catalog.IncludedIn catalog') :
    ∀ (room n : Nat) (accepts : PrimaryClass),
      Agrees n (CuredBy catalog') (Dql.primary catalog room accepts)
        (Dql.primary catalog' room accepts)
  | _, 0, _ => fun _ hs => absurd hs (Nat.not_lt_zero _)
  | 0, _ + 1, _ => Agrees.peek.bind fun _ => .fail _
  | room + 1, n + 1, accepts =>
    nestedPrimary_agrees (primary_included h room n .arithmetic)
      (functionCall_included h (primary_included h room n)) accepts

/-- An expression that a text starts with is parsed alike under both catalogs, if the text is not
rejected for a name that only the larger one has. -/
theorem expression_included (h : catalog.IncludedIn catalog') {text : String}
    (hnot : ∀ err, (parse catalog text).1 = .error err → ¬ CuredBy catalog' err) :
    expression (Dql.primary catalog' maxNesting) (.ofText text) =
      expression (Dql.primary catalog maxNesting) (.ofText text) := by
  have hagree := expression_agrees (primary_included h maxNesting
    ((Progress.ofText text).lexemes.length + 1) .arithmetic) (.ofText text) (Nat.lt_succ_self _)
  obtain hsame | ⟨f, s₁, hfails, hcured, -⟩ := hagree.same_or_early
  · exact hsame.symm
  · exact absurd hcured (hnot _ (parse_eq_error_iff.2 ⟨f, s₁, Parse.bind_of_error hfails _, rfl⟩))

/-! ## Texts -/

/-- **A larger catalog cures unknown names and changes nothing else.** Let a text not be rejected
under the smaller catalog for a name that the larger one has. Then under the larger catalog it is
parsed to the same node of the same table or rejected with the same error, with the same reports,
and compiles to the same SQL in every style; and a session that goes through it comes to the same
state. -/
theorem extending_cures_unknown_names_only {text : String} (h : catalog.IncludedIn catalog')
    (hknown : ∀ position name,
      (parse catalog text).1 = .error (.mismatch position .knownFunction (some name)) →
        catalog'.find? name = none) :
    parseNodes catalog' text = parseNodes catalog text ∧
      parse catalog' text = parse catalog text ∧
      (∀ style, compile catalog' style text = compile catalog style text) ∧
      (Session.start catalog' text).step .expression =
        (((Session.start catalog text).step .expression).1,
          { ((Session.start catalog text).step .expression).2 with catalog := catalog' }) := by
  have hnot : ∀ err, (parse catalog text).1 = .error err → ¬ CuredBy catalog' err := by
    rintro _ herror ⟨position, name, rfl, hsome⟩
    rw [hknown position name herror] at hsome
    cases hsome
  have hexpression := expression_included h hnot
  have hwhole :
      wholeExpression catalog' (.ofText text) = wholeExpression catalog (.ofText text) := by
    simp only [wholeExpression, wholeWith, bind, EStateM.bind, hexpression]
  have hparse : parse catalog' text = parse catalog text := by
    rw [parse_eq, parse_eq, hwhole]
  have hstep : Step.expression.treeParser catalog' maxNesting (.ofText text) =
      Step.expression.treeParser catalog maxNesting (.ofText text) := by
    simp only [Step.treeParser, bind, EStateM.bind, hexpression]
  refine ⟨by rw [parseNodes_eq, parseNodes_eq, hwhole], hparse,
    fun style => by rw [compile_eq, compile_eq, hparse], ?_⟩
  rw [Session.step_eq, Session.step_eq]
  have hstarts : Step.expression.treeParser (Session.start catalog' text).catalog
      (maxNesting - (Session.start catalog' text).depth) (Session.start catalog' text).progress =
      Step.expression.treeParser (Session.start catalog text).catalog
        (maxNesting - (Session.start catalog text).depth) (Session.start catalog text).progress :=
    hstep
  rw [hstarts]
  cases Step.expression.treeParser (Session.start catalog text).catalog
    (maxNesting - (Session.start catalog text).depth) (Session.start catalog text).progress <;> rfl

/-- A name that neither catalog knows. -/
theorem extending_cures_unknown_names_only_unknown :
    Catalog.empty.IncludedIn .mysql ∧
      (parse .empty "1 + foo(d)").1 = .error (.mismatch 4 .knownFunction (some "foo")) ∧
      (parse .mysql "1 + foo(d)").1 = .error (.mismatch 4 .knownFunction (some "foo")) := by
  have hincluded : Catalog.empty.IncludedIn .mysql :=
    Catalog.includedIn_put (Catalog.find?_empty _) _
  have hcompile : (compile .empty {} "1 + foo(d)").1 =
      .error (.mismatch 4 .knownFunction (some "foo")) := by decide +kernel
  have herror := compile_eq_error_iff.1 hcompile
  have hunknown : Catalog.mysql.find? "foo" = none := by decide +kernel
  refine ⟨hincluded, herror, ?_⟩
  rw [(extending_cures_unknown_names_only hincluded ?_).2.1, herror]
  intro position name h
  obtain ⟨-, -, hname⟩ := ParseError.mismatch.inj (Except.error.inj (herror.symm.trans h))
  rw [← Option.some.inj hname, hunknown]

end Dql
