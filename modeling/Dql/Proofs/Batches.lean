import Dql.Console
import Dql.Proofs.Characters
import Mathlib.Data.List.Forall2

/-!
# Batches are answered line for line

The bytes of a batch are cut at newlines. Each line that is UTF-8 gets one line of output, up to the
first that is not. No answer breaks its line: SQL and error messages have a newline only where the
text has one, and a line of input has none.

* `cutAtNewlines`, `isUtf8` - the lines of a batch, and those that are texts;
* `Says`, `Answers` - what is said to a text, and to its UTF-8 form;
* `Console.recorder`, `Console.Timed` - a console that keeps what it writes, and the lines it
  prints.

Principal results: `Batch.lines_eq_cutAtNewlines` and `Console.answers_line_for_line`.
-/

namespace Dql

variable {line : List UInt8} {text answer : String}

/-! ## Lines -/

/-- A line without the carriage return at its end. -/
def dropReturn (line : List UInt8) : List UInt8 :=
  if line.getLast? = some 13 then line.dropLast else line

/-- The pieces of a sequence of bytes between newlines. Those before a newline are lines, without
the carriage return before it. The last piece is a line as it stands, unless it is empty. -/
def cutAtNewlines (input : List UInt8) : List (List UInt8) :=
  let pieces := input.splitOn 10
  pieces.dropLast.map dropReturn ++ pieces.getLast?.toList.filter (· ≠ [])

/-- A byte before the pieces is a newline or belongs to the first of them. -/
theorem splitOn_newline_cons (b : UInt8) (bs : List UInt8) :
    ∃ piece pieces, bs.splitOn 10 = piece :: pieces ∧
      (b :: bs).splitOn 10 = if b = 10 then [] :: piece :: pieces else (b :: piece) :: pieces := by
  obtain ⟨piece, pieces, h⟩ := List.exists_cons_of_ne_nil (List.splitOn_ne_nil 10 bs)
  refine ⟨piece, pieces, h, ?_⟩
  rw [List.splitOn_eq_splitOnP] at h ⊢
  rw [List.splitOnP_cons_eq_if_modifyHead, h]
  simp

theorem cutAtNewlines_newline (bs : List UInt8) :
    cutAtNewlines (10 :: bs) = [] :: cutAtNewlines bs := by
  obtain ⟨piece, pieces, hbs, hcons⟩ := splitOn_newline_cons 10 bs
  rw [if_pos rfl] at hcons
  rw [cutAtNewlines, cutAtNewlines, hbs, hcons]
  simp [dropReturn]

theorem dropReturn_cons {b : UInt8} (h : b = 13 → line ≠ []) :
    dropReturn (b :: line) = b :: dropReturn line := by
  cases line with
  | nil =>
    have hb : b ≠ 13 := fun hb => h hb rfl
    simp [dropReturn, hb]
  | cons b' bs =>
    unfold dropReturn
    rw [List.getLast?_cons_cons, List.dropLast_cons_cons]
    split <;> rfl

/-- A byte that neither ends a line nor belongs to the end of one is put before the next line. -/
theorem cutAtNewlines_inside {b b' : UInt8} (bs : List UInt8) (hb : b ≠ 10)
    (hreturn : ¬ (b = 13 ∧ b' = 10)) :
    ∃ line more, cutAtNewlines (b' :: bs) = line :: more ∧
      cutAtNewlines (b :: b' :: bs) = (b :: line) :: more := by
  obtain ⟨piece, pieces, hafter, hboth⟩ := splitOn_newline_cons b (b' :: bs)
  have hpiece : piece = [] → b' = 10 ∧ pieces ≠ [] := by
    obtain ⟨piece', pieces', -, h⟩ := splitOn_newline_cons b' bs
    rw [hafter] at h
    split at h <;> cases h <;> simp [*]
  rw [if_neg hb] at hboth
  rw [cutAtNewlines, cutAtNewlines, hafter, hboth]
  cases pieces with
  | nil =>
    have hne : piece ≠ [] := fun h => (hpiece h).2 rfl
    simp [hne]
  | cons next pieces =>
    have hdrop : dropReturn (b :: piece) = b :: dropReturn piece :=
      dropReturn_cons fun hb h => hreturn ⟨hb, (hpiece h).1⟩
    simp [hdrop]

/-- A carriage return before a newline is no part of a line. -/
theorem cutAtNewlines_return (bs : List UInt8) :
    cutAtNewlines (13 :: 10 :: bs) = [] :: cutAtNewlines bs := by
  obtain ⟨piece, pieces, hbs, hafter⟩ := splitOn_newline_cons 10 bs
  obtain ⟨piece', pieces', hafter', hboth⟩ := splitOn_newline_cons 13 (10 :: bs)
  rw [hafter, if_pos rfl] at hafter'
  obtain ⟨rfl, rfl⟩ := List.cons.inj hafter'
  rw [cutAtNewlines, cutAtNewlines, hbs, hboth]
  simp [dropReturn]

/-- **Lines end where newlines are.** -/
theorem Batch.lines_eq_cutAtNewlines (input : List UInt8) :
    Batch.lines input = cutAtNewlines input := by
  fun_induction Batch.lines input with
  | case1 => decide
  | case2 => decide
  | case3 b hb =>
    obtain ⟨piece, pieces, hnil, hb'⟩ := splitOn_newline_cons b []
    cases hnil
    rw [cutAtNewlines, hb', if_neg hb]
    simp
  | case4 b' bs ih => rw [ih, cutAtNewlines_newline]
  | case5 b b' bs hb hreturn ih =>
    obtain ⟨rfl, rfl⟩ := hreturn
    rw [ih, cutAtNewlines_newline, cutAtNewlines_return]
  | case6 b b' bs hb hreturn line more hlines ih =>
    obtain ⟨line', more', hafter, hboth⟩ := cutAtNewlines_inside bs hb hreturn
    rw [← ih, hlines] at hafter
    obtain ⟨rfl, rfl⟩ := List.cons.inj hafter
    exact hboth.symm
  | case7 b b' bs hb hreturn hlines ih =>
    obtain ⟨line, more, hafter, -⟩ := cutAtNewlines_inside bs hb hreturn
    rw [← ih, hlines] at hafter
    cases hafter

/-- A carriage return that is not before a newline belongs to its line. -/
example : cutAtNewlines [65, 13, 10, 13, 66] = [[65], [13, 66]] := by decide

/-- No line has a newline. -/
theorem Batch.newline_not_mem (input : List UInt8) : ∀ line ∈ Batch.lines input, 10 ∉ line := by
  fun_induction Batch.lines input with
  | case1 => exact nofun
  | case2 => simp
  | case3 b hb => simpa using Ne.symm hb
  | case4 b' bs ih => exact List.forall_mem_cons.2 ⟨List.not_mem_nil, ih⟩
  | case5 b b' bs hb hreturn ih => exact ih
  | case6 b b' bs hb hreturn line more hlines ih =>
    rw [hlines] at ih
    obtain ⟨hline, hmore⟩ := List.forall_mem_cons.1 ih
    exact List.forall_mem_cons.2 ⟨List.not_mem_cons_of_ne_of_not_mem (Ne.symm hb) hline, hmore⟩
  | case7 b b' bs hb hreturn hlines ih => simpa using Ne.symm hb

/-! ## Texts and answers -/

/-- Whether a line is the UTF-8 form of a text. -/
def isUtf8 (line : List UInt8) : Bool := line.toByteArray.validateUTF8

theorem toByteArray_eq (text : String) : text.toByteArray = (bytes text.toList).toByteArray := by
  conv_lhs => rw [← String.ofList_toList (s := text), String.toByteArray_ofList]
  rfl

theorem fromUTF8?_eq_some_iff :
    String.fromUTF8? line.toByteArray = some text ↔ bytes text.toList = line := by
  rw [← List.toByteArray_inj, ← toByteArray_eq]
  unfold String.fromUTF8?
  constructor
  · intro h
    split at h
    · cases h
      rfl
    · cases h
  · intro h
    rw [← h, dif_pos text.isValidUTF8]
    rfl

theorem isUtf8_iff :
    isUtf8 line = true ↔ ∃ text, String.fromUTF8? line.toByteArray = some text := by
  rw [isUtf8, ByteArray.validateUTF8_eq_true_iff]
  unfold String.fromUTF8?
  split <;> simp [*]

/-- What is said to a text: its SQL with all packs in the default style, or why there is none. -/
inductive Says : String → String → Prop where
  | sql {text sql : String} (h : (compile .defaults {} text).1 = .ok sql) : Says text sql
  | error {text : String} {err : ParseError} (h : (compile .defaults {} text).1 = .error err) :
      Says text ("Error compiling input: " ++ err.message)

theorem Says.unique {other : String} (h : Says text answer) (hother : Says text other) :
    answer = other := by
  cases h with
  | sql h =>
    cases hother with
    | sql hother => exact Except.ok.inj (h.symm.trans hother)
    | error hother => cases h.symm.trans hother
  | error h =>
    cases hother with
    | sql hother => cases h.symm.trans hother
    | error hother => rw [Except.error.inj (h.symm.trans hother)]

/-- What is said to a line that is the UTF-8 form of a text. -/
def Answers (line : List UInt8) (answer : String) : Prop :=
  ∃ text : String, bytes text.toList = line ∧ Says text answer

/-- A line has one answer, whatever lines are beside it. -/
theorem Answers.unique {other : String} (h : Answers line answer) (hother : Answers line other) :
    answer = other := by
  obtain ⟨text, htext, hsays⟩ := h
  obtain ⟨text', htext', hsays'⟩ := hother
  obtain rfl : text = text' := String.toList_inj.1 (bytes_injective (htext.trans htext'.symm))
  exact hsays.unique hsays'

theorem Batch.exists_answer (h : isUtf8 line = true) :
    ∃ answer, Answers line answer ∧ Batch.answer? line = some answer := by
  obtain ⟨text, htext⟩ := isUtf8_iff.1 h
  refine ⟨_, ⟨text, fromUTF8?_eq_some_iff.1 htext, ?_⟩, by rw [Batch.answer?, htext]; rfl⟩
  beta_reduce
  split
  · exact .sql ‹_›
  · exact .error ‹_›

theorem Batch.answer?_eq_none (h : isUtf8 line = false) : Batch.answer? line = none := by
  rw [Batch.answer?, Option.map_eq_none_iff]
  cases htext : String.fromUTF8? line.toByteArray with
  | none => rfl
  | some text => exact absurd (isUtf8_iff.2 ⟨text, htext⟩) (by simp [h])

/-! ## Answers without a newline -/

theorem Says.repeats (h : Says text answer) : Repeats text.toList answer.toList := by
  have htame : Style.Tame {} := tame_of_verbatimPath rfl
  cases h with
  | sql h => exact repeats_of_compile htame h
  | error h =>
    have hwords : Repeats text.toList "Error compiling input: ".toList := .of_all (by decide)
    exact hwords.append_string (repeats_of_error h)

/-- A text without a newline is answered without one. -/
theorem Says.newline_not_mem (h : Says text answer) (htext : '\n' ∉ text.toList) :
    '\n' ∉ answer.toList :=
  h.repeats.not_mem rfl htext

theorem newline_mem_bytes {cs : List Char} (h : '\n' ∈ cs) : 10 ∈ bytes cs :=
  List.mem_flatMap.2 ⟨'\n', h, by decide⟩

theorem Answers.newline_not_mem (h : Answers line answer) (hline : 10 ∉ line) :
    '\n' ∉ answer.toList := by
  obtain ⟨text, rfl, hsays⟩ := h
  exact hsays.newline_not_mem fun htext => hline (newline_mem_bytes htext)

/-! ## Answers of a batch -/

namespace Batch

/-- **Lines up to the first that is not UTF-8 are answered**, each on its own. -/
theorem ofLines_answers (lines : List (List UInt8)) :
    List.Forall₂ Answers (lines.takeWhile isUtf8) (ofLines lines).answers := by
  induction lines with
  | nil => exact .nil
  | cons line more ih =>
    cases h : isUtf8 line with
    | true =>
      obtain ⟨answer, hanswers, hanswer⟩ := exists_answer h
      rw [List.takeWhile_cons_of_pos h, ofLines, hanswer]
      exact .cons hanswers ih
    | false =>
      rw [List.takeWhile_cons_of_neg (by simp [h]), ofLines, answer?_eq_none h]
      exact .nil

theorem ofLines_stopped (lines : List (List UInt8)) :
    (ofLines lines).stopped = true ↔ ∃ line ∈ lines, isUtf8 line = false := by
  induction lines with
  | nil => simp [ofLines]
  | cons line more ih =>
    cases h : isUtf8 line with
    | true =>
      obtain ⟨answer, -, hanswer⟩ := exists_answer h
      simp [ofLines, hanswer, h, ih]
    | false => simp [ofLines, answer?_eq_none h, h]

end Batch

/-! ## What a console prints -/

namespace Console

/-- What a console has written, and how often its clock was looked at. -/
structure Recording where
  looks : Nat := 0
  out : String := ""
  err : String := ""

/-- A console that keeps what it writes. Its clock shows `clock n` after `n` looks. -/
def recorder (clock : Nat → Nat) : Console (StateM Recording) where
  now := modifyGet fun r => (clock r.looks, { r with looks := r.looks + 1 })
  print text := modify fun r => { r with out := r.out ++ text }
  complain text := modify fun r => { r with err := r.err ++ text }

/-- The line that is printed for an answer: how many microseconds it took, and the answer. -/
def Timed (answer : String) (printed : List Char) : Prop :=
  ∃ micros : Nat, printed = s!"[in {micros}μs] {answer}".toList

variable (clock : Nat → Nat)

/-- A line that can be answered is answered by one entry, and then the others are. -/
theorem answerLines_readable (h : Batch.answer? line = some answer) (more : List (List UInt8))
    (r : Recording) :
    ∃ micros r₁, (recorder clock).answerLines (line :: more) r =
        (recorder clock).answerLines more r₁ ∧
      r₁.out = r.out ++ entry micros answer ∧ r₁.err = r.err := by
  rw [answerLines, h]
  exact ⟨(clock (r.looks + 1) - clock r.looks) / 1000, _, rfl, rfl, rfl⟩

/-- A line that cannot be is the last one that is looked at. -/
theorem answerLines_unreadable (h : Batch.answer? line = none) (more : List (List UInt8))
    (r : Recording) :
    ∃ r₁, (recorder clock).answerLines (line :: more) r = (0, r₁) ∧ r₁.out = r.out ∧
      r₁.err = r.err ++ (Batch.unreadable ++ "\n") := by
  rw [answerLines, h]
  exact ⟨_, rfl, rfl, rfl⟩

theorem toList_entry (micros : Nat) (answer : String) :
    (entry micros answer).toList = s!"[in {micros}μs] {answer}".toList ++ ['\n'] := by
  rw [entry, String.toList_append]
  rfl

/-- **A console prints one entry for each answer of a batch**, and complains if it has stopped. -/
theorem run_recorder (lines : List (List UInt8)) (r : Recording) :
    ∃ printed r₁, (recorder clock).answerLines lines r = (0, r₁) ∧
      List.Forall₂ Timed (Batch.ofLines lines).answers printed ∧
      r₁.out.toList = r.out.toList ++ printed.flatMap (· ++ ['\n']) ∧
      r₁.err = r.err ++ if (Batch.ofLines lines).stopped then Batch.unreadable ++ "\n" else "" := by
  induction lines generalizing r with
  | nil => exact ⟨[], r, rfl, .nil, by simp, by simp [Batch.ofLines]⟩
  | cons line more ih =>
    rw [Batch.ofLines]
    cases hanswer : Batch.answer? line with
    | some answer =>
      obtain ⟨micros, r₁, hstep, hout, herr⟩ := answerLines_readable clock hanswer more r
      obtain ⟨printed, r₂, hrun, htimed, hout', herr'⟩ := ih r₁
      refine ⟨_ :: printed, r₂, hstep.trans hrun, .cons ⟨micros, rfl⟩ htimed, ?_, herr ▸ herr'⟩
      rw [hout', hout, String.toList_append, toList_entry, List.flatMap_cons, List.append_assoc]
    | none =>
      obtain ⟨r₁, hstep, hout, herr⟩ := answerLines_unreadable clock hanswer more r
      exact ⟨[], r₁, hstep, .nil, by simp [hout], herr⟩

/-- Printed lines that have no newline are read back by cutting at newlines. -/
theorem splitOn_printed {printed : List (List Char)} (h : ∀ p ∈ printed, '\n' ∉ p) :
    (printed.flatMap (· ++ ['\n'])).splitOn '\n' = printed ++ [[]] := by
  have hjoined : printed.flatMap (· ++ ['\n']) = ['\n'].intercalate (printed ++ [[]]) := by
    induction printed with
    | nil => rfl
    | cons p more ih =>
      obtain ⟨next, others, hmore⟩ : ∃ next others, more ++ [[]] = next :: others :=
        List.exists_cons_of_ne_nil (by simp)
      have hrest := ih (List.forall_mem_cons.1 h).2
      rw [List.flatMap_cons, hrest, List.cons_append, hmore, List.intercalate_cons_cons]
  have hall : ∀ p ∈ printed ++ [[]], '\n' ∉ p := List.forall_mem_append.2 ⟨h, by simp⟩
  rw [hjoined, List.splitOn_intercalate '\n' hall (by simp)]

/-- An answer without a newline is printed as one line. -/
theorem Timed.newline_not_mem {printed : List Char} (h : Timed answer printed)
    (hanswer : '\n' ∉ answer.toList) : '\n' ∉ printed := by
  obtain ⟨micros, rfl⟩ := h
  have hdigits : Repeats [] (toString micros).toList := repeats_toString micros
  have hnumber : '\n' ∉ (toString micros).toList := hdigits.not_mem rfl List.not_mem_nil
  have hopen : '\n' ∉ "[in ".toList := by decide
  have hunit : '\n' ∉ "μs] ".toList := by decide
  simp only [String.toList_append, List.mem_append, not_or]
  exact ⟨⟨⟨hopen, hnumber⟩, hunit⟩, hanswer⟩

/-- What holds for the members of one list, also holds for those of a list that corresponds. -/
theorem forall_of_forall₂ {α β : Type} {R : α → β → Prop} {p : α → Prop} {q : β → Prop}
    {as : List α} {bs : List β} (h : List.Forall₂ R as bs) (hR : ∀ a b, R a b → p a → q b)
    (has : ∀ a ∈ as, p a) : ∀ b ∈ bs, q b := by
  induction h with
  | nil => exact nofun
  | cons hab _ ih =>
    obtain ⟨ha, has⟩ := List.forall_mem_cons.1 has
    exact List.forall_mem_cons.2 ⟨hR _ _ hab ha, ih has⟩

/-- **A batch is answered line for line.** The lines up to the first that is not UTF-8 are answered,
each on its own, and one line is printed for each answer, with nothing after it. A batch stops if
there is a line that is not UTF-8; the exit status is zero then too. No answer to a text without a
newline has one. -/
theorem answers_line_for_line (clock : Nat → Nat) (input : List UInt8) :
    let lines := cutAtNewlines input
    let batch := Batch.run input
    List.Forall₂ Answers (lines.takeWhile isUtf8) batch.answers ∧
      (∀ line answer other, Answers line answer → Answers line other → answer = other) ∧
      (batch.stopped = true ↔ ∃ line ∈ lines, isUtf8 line = false) ∧
      (∃ printed r, (recorder clock).answer input {} = (0, r) ∧
        r.out.toList.splitOn '\n' = printed ++ [[]] ∧
        List.Forall₂ Timed batch.answers printed ∧
        r.err = if batch.stopped then Batch.unreadable ++ "\n" else "") ∧
      ∀ text answer, Says text answer → '\n' ∉ text.toList → '\n' ∉ answer.toList := by
  intro lines batch
  have hlines : Batch.lines input = lines := Batch.lines_eq_cutAtNewlines input
  have hanswers : List.Forall₂ Answers (lines.takeWhile isUtf8) batch.answers := by
    rw [← hlines]
    exact Batch.ofLines_answers _
  have hstopped : batch.stopped = true ↔ ∃ line ∈ lines, isUtf8 line = false := by
    rw [← hlines]
    exact Batch.ofLines_stopped _
  have hread : ∀ line ∈ lines.takeWhile isUtf8, 10 ∉ line := by
    rw [← hlines]
    exact fun line hline =>
      Batch.newline_not_mem input line ((List.takeWhile_prefix _).subset hline)
  obtain ⟨printed, r, hrun, htimed, hout, herr⟩ := run_recorder clock (Batch.lines input) {}
  have hnewline : ∀ p ∈ printed, '\n' ∉ p :=
    forall_of_forall₂ htimed (fun _ _ h => h.newline_not_mem)
      (forall_of_forall₂ hanswers (fun _ _ h => h.newline_not_mem) hread)
  have hsplit : r.out.toList.splitOn '\n' = printed ++ [[]] := by
    rw [hout]
    exact splitOn_printed hnewline
  exact ⟨hanswers, fun _ _ _ h hother => h.unique hother, hstopped,
    ⟨printed, r, hrun, hsplit, htimed, herr.trans String.empty_append⟩,
    fun _ _ h htext => h.newline_not_mem htext⟩

/-- A line with a carriage return, an error, and a line that is no UTF-8. The line after it is not
answered. -/
theorem answers_line_for_line_stopped :
    let input := bytes "1+2\r\n(\n".toList ++ [0xFF, 10] ++ bytes "3".toList
    let answers := ["1 + 2",
      "Error compiling input: [Syntax Error] col 1: Expected arithmetic primary, got end of string"]
    Batch.run input = ⟨answers, true⟩ ∧ '\n' ∉ "1 + 2".toList ∧
      ∃ printed r, (recorder fun _ => 0).answer input {} = (0, r) ∧
        r.out.toList.splitOn '\n' = printed ++ [[]] ∧ List.Forall₂ Timed answers printed ∧
        r.err = Batch.unreadable ++ "\n" := by
  intro input answers
  have hbatch : Batch.run input = ⟨answers, true⟩ := by decide +kernel
  obtain ⟨-, -, -, hprints, hnewline⟩ := answers_line_for_line (fun _ => 0) input
  rw [hbatch] at hprints
  have hsql : (compile .defaults {} "1+2").1 = .ok "1 + 2" := by decide +kernel
  exact ⟨hbatch, hnewline "1+2" _ (.sql hsql) (by decide), hprints⟩

end Console

end Dql
