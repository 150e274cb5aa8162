import Dql.Proofs.Marks
import Dql.Proofs.ParserLoops
import Dql.Proofs.Sessions

/-!
# What a step costs

Every recursion of the parsers comes to fewer tokens than it started with, so it ends after as many
rounds as there are bytes left, whether or not there is a limit on nesting. And what a step adds to
the node table is paid for by the tokens that it takes, also where it fails.

* `NodeTable.GrowsBy` - a table that has so many nodes, and so many references, more at most;
* `Parser.EndsWithin` - what so many levels of primaries, and so many rounds of loops, come to.

Principal result: `Session.ends_and_grows`.
-/

namespace Dql

/-! ## Storing -/

namespace NodeTable

/-- From one table to another that has at most `n` more nodes, and at most `n` more arguments and
calls of extensions together. -/
structure GrowsBy (t u : NodeTable) (n : Nat) : Prop where
  nodes : u.size ≤ t.size + n
  references : u.args.size + u.calls.size ≤ t.args.size + t.calls.size + n

namespace GrowsBy

variable {t u v : NodeTable} {m n : Nat}

theorem refl (t : NodeTable) : t.GrowsBy t 0 := ⟨Nat.le_refl _, Nat.le_refl _⟩

theorem trans (h : t.GrowsBy u m) (h' : u.GrowsBy v n) : t.GrowsBy v (m + n) := by
  have := h.nodes
  have := h'.nodes
  have := h.references
  have := h'.references
  exact ⟨by omega, by omega⟩

theorem mono (h : t.GrowsBy u m) (hle : m ≤ n) : t.GrowsBy u n := by
  have := h.nodes
  have := h.references
  exact ⟨by omega, by omega⟩

theorem push (h : t.GrowsBy u m) (node : Node) : t.GrowsBy (u.push node).2 (m + 1) := by
  refine h.trans (n := 1) ⟨?_, Nat.le_add_right _ _⟩
  rw [size_push]
  exact Nat.le_refl _

theorem pushCall (h : t.GrowsBy u m) (function : Builtin) (args : List NodeId) :
    t.GrowsBy (u.pushCall function args).2 (m + max 1 args.length) := by
  refine h.trans ⟨?_, ?_⟩
  · have hsize : (u.pushCall function args).2.size = u.size + 1 := size_push ..
    omega
  · have hargs : (u.pushCall function args).2.args.size = u.args.size + args.length := by
      simp [NodeTable.pushCall, NodeTable.push, append_eq_append_toArray]
    have hcalls : (u.pushCall function args).2.calls = u.calls := rfl
    rw [hargs, hcalls]
    omega

theorem pushExtension (h : t.GrowsBy u m) (call : ExtensionCall) :
    t.GrowsBy (u.pushExtension call).2 (m + 1) := by
  refine h.trans (n := 1) ⟨?_, ?_⟩
  · exact Nat.le_of_eq (size_push ..)
  · have hargs : (u.pushExtension call).2.args = u.args := rfl
    have hcalls : (u.pushExtension call).2.calls.size = u.calls.size + 1 := Array.size_push _
    rw [hargs, hcalls]
    omega

end GrowsBy

theorem length_fst_storeAll (t : NodeTable) (es : List Expr) :
    (t.storeAll es).1.length = es.length := by
  induction es generalizing t with
  | nil => rfl
  | cons e es ih => rw [storeAll, List.length_cons, List.length_cons, ih]

/-- The commas between arguments and the tokens around them pay for the references to them. -/
theorem length_marks_args (args : List Expr) :
    (args.flatMap Expr.marks).length + max 1 args.length ≤
      (List.intercalate [none] (marksOfList args)).length + 1 := by
  cases args with
  | nil => exact Nat.le_refl _
  | cons arg more =>
    rw [intercalate_marks]
    have hmore : (more.flatMap fun e => none :: e.marks).length =
        (more.flatMap Expr.marks).length + more.length := by
      induction more with
      | nil => rfl
      | cons e more ih =>
        simp only [List.flatMap_cons, List.length_append, List.length_cons, ih]
        omega
    simp only [List.flatMap_cons, List.length_append, List.length_cons, hmore]
    omega

mutual

/-- **An expression costs at most one node and one reference for each of its tokens.** -/
theorem store_growsBy (t : NodeTable) : (e : Expr) → t.GrowsBy (t.store e).2 e.marks.length
  | .number _ | .string _ | .path _ _ | .parameter _ => (GrowsBy.refl t).push _
  | .call function args => by
    have hargs := (storeAll_growsBy t args).pushCall function (t.storeAll args).1
    rw [length_fst_storeAll] at hargs
    refine hargs.mono ?_
    have hlength := length_marks_args args
    simp only [Expr.marks, List.length_cons, List.length_append, List.length_nil]
    omega
  | .extension function words slots => by
    refine ((storeAll_growsBy t slots).pushExtension
      ⟨function, words, (t.storeAll slots).1⟩).mono ?_
    have hlength := (sublist_markForm function.form (marksOfList slots)).length_le
    rw [marksOfList_eq_map, ← List.flatMap_def, ← marksOfList_eq_map] at hlength
    simp only [Expr.marks, List.length_cons, List.length_append, List.length_nil]
    omega
  | .binary left op right => by
    refine (((store_growsBy t left).trans (store_growsBy _ right)).push _).mono ?_
    simp only [Expr.marks, List.length_cons, List.length_append]
    omega
  | .signed _ operand => (store_growsBy t operand).push _
  | .paren inner => by
    refine ((store_growsBy t inner).push _).mono ?_
    simp only [Expr.marks, List.length_cons, List.length_append]
    omega

theorem storeAll_growsBy (t : NodeTable) : (es : List Expr) →
    t.GrowsBy (t.storeAll es).2 (es.flatMap Expr.marks).length
  | [] => .refl t
  | e :: es => by
    rw [List.flatMap_cons, List.length_append]
    exact (store_growsBy t e).trans (storeAll_growsBy _ es)

end

end NodeTable

/-! ## Rounds -/

namespace Parser

/-- In the state `σ`, primaries come to the same as `n` of their levels inside one another, whatever
is at the bottom; and so do all that is made of primaries, and as many rounds of the loops over
operators and over arguments. -/
structure EndsWithin (n : Nat) (level : Primary → Primary) (primary : Primary) (σ : Parser) :
    Prop where
  fixed : level primary = primary
  primaries : ∀ bottom accepts, level^[n] bottom accepts σ = primary accepts σ
  expressions : ∀ bottom, expression (level^[n] bottom) σ = expression primary σ
  extensions : ∀ bottom function,
    extensionCall (level^[n] bottom) function σ = extensionCall primary function σ
  operators : ∀ bottom least left,
    (operatorRound primary)^[n] bottom least left σ = chain primary least left σ
  arguments : ∀ bottom, (argumentRound primary)^[n] bottom σ = furtherArguments primary σ

/-- Levels that come to the same as all, where there are fewer lexemes ahead than levels, do so for
all that is made of primaries. -/
theorem EndsWithin.of_iterate {n : Nat} {level : Primary → Primary} {primary : Primary} {σ : Parser}
    (hfixed : level primary = primary)
    (h : ∀ bottom n accepts, SameBelow n (level^[n] bottom accepts) (primary accepts))
    (hσ : σ.left < n) : EndsWithin n level primary σ := by
  have hself : ∀ n, SameBelow n (primary .arithmetic) (primary .arithmetic) := fun n τ hτ =>
    ⟨rfl, (h primary n .arithmetic τ hτ).shrinks⟩
  have hlength : σ.progress.stream.ahead.length = σ.left := (List.length_map ..).symm
  refine ⟨hfixed, fun bottom accepts => (h bottom n accepts σ hσ).eq, fun bottom => ?_,
    fun bottom function => ?_, fun bottom least left => ?_, fun bottom => ?_⟩
  · exact (expression_same (h bottom n .arithmetic) σ hσ).eq
  · exact (extensionCall_same (fun c => (h bottom n c).mono (Nat.le_of_lt hσ)) function).eq
  · exact (operatorRound_iterate hself bottom hσ (Nat.le_of_eq hlength.symm) least left).eq
  · exact (argumentRound_iterate hself bottom hσ (Nat.le_of_eq hlength.symm)).eq

end Parser

/-! ## Sessions -/

/-- Every token is one byte at least. -/
theorem length_tokens_le (position : Nat) (cs : List Char) :
    (TokenList.ofChars position cs).tokens.length ≤ byteSize cs := by
  fun_induction TokenList.ofChars position cs with
  | case1 position cs t rest h after ih =>
    obtain ⟨⟨front, rfl, hstop⟩, hstart, hlt⟩ := front_of_token h
    have hmore : after.tokens.length ≤ byteSize rest := ih
    rw [byteSize_append, List.length_cons]
    omega
  | case2 | case3 | case4 => exact Nat.zero_le _

namespace Session

/-- The tokens ahead of a session are no more than the bytes that are left. -/
theorem length_lexemes_le (catalog : Catalog) (text : String) (steps : List Step) :
    ((start catalog text).run steps).progress.lexemes.length ≤
      text.utf8ByteSize - ((start catalog text).run steps).progress.stream.position := by
  obtain ⟨front, back, rfl, hposition, hrest⟩ := exists_rest catalog text steps
  have hlength : ((start catalog (front ++ back)).run steps).progress.lexemes.length =
      (start catalog back).progress.lexemes.length := by
    rw [hrest]
    exact Progress.length_lexemes_later ..
  have hback : (start catalog back).progress.lexemes.length ≤ byteSize back.toList := by
    rw [Progress.lexemes, List.length_map]
    exact length_tokens_le 0 back.toList
  rw [hlength, ← hposition, String.utf8ByteSize_append, utf8ByteSize_eq_byteSize back]
  omega

/-- **Every step ends, and costs no more than it takes.** Let a session have some bytes left after
any steps. What parses a primary is given by the equation of one level with itself in place of the
level inside, with the limit on nesting and without. Unrolled more often than there are bytes left,
either equation gives all that the parser does, whatever is put at the bottom, and so do the rounds
of the loops over operators and over arguments. Every step goes over tokens, over one at least if it
succeeds and asks for anything but the end; and whatever becomes of it, the table has no more nodes
more than tokens were taken, and no more arguments and calls of extensions together. -/
theorem ends_and_grows (catalog : Catalog) (text : String) (steps : List Step) :
    let s := (start catalog text).run steps
    (∀ n, text.utf8ByteSize - s.progress.stream.position < n →
      Parser.EndsWithin n
        (fun primary accepts => Parser.nested (Parser.nestedPrimary catalog primary accepts))
        (Parser.unlimited catalog) s.toParser ∧
      Parser.EndsWithin n (Parser.limitedPrimary catalog) (Parser.primary catalog) s.toParser) ∧
    ∀ what, ∃ taken, s.progress.Takes taken (s.step what).2.progress ∧
      (what ≠ .finish → ∀ answer, (s.step what).1 = .ok answer → taken ≠ []) ∧
      s.table.GrowsBy (s.step what).2.table taken.length := by
  intro s
  constructor
  · intro n hn
    have hs : s.toParser.left < n := Nat.lt_of_le_of_lt (length_lexemes_le catalog text steps) hn
    exact ⟨.of_iterate (funext fun accepts => (Parser.unlimited_eq catalog accepts).symm)
        (Parser.unlimited_iterate catalog) hs,
      .of_iterate (funext fun accepts => (Parser.primary_eq catalog accepts).symm)
        (Parser.limitedPrimary_iterate catalog) hs⟩
  · intro what
    obtain ⟨taken, marks, stored, hspends, hne⟩ := s.step_spends what
    have hlength := hspends.reports.noted.length_eq
    refine ⟨taken, hspends.reports.takes, fun hwhat answer hok => ?_, ?_⟩
    · rintro rfl
      exact hne hwhat answer hok (List.length_eq_zero_iff.1 hlength.symm)
    · rw [hspends.table]
      refine (NodeTable.storeAll_growsBy s.table stored).mono ?_
      rw [hlength]
      exact hspends.sublist.length_le

end Session

end Dql
