import Dql.Compile

/-!
# Batches

A batch is a sequence of bytes, one expression a line. Each line is compiled on its own, with all
packs and the default style. A line that is not UTF-8 ends the batch.

* `Batch.lines` - where lines end;
* `Batch.answer?` - what is said to one line;
* `Batch.run` - what is said to all of them.
-/

namespace Dql

/-- What is said to a batch. -/
structure Batch where
  /-- one answer a line, up to the first line that is not UTF-8 -/
  answers : List String
  /-- whether there is such a line -/
  stopped : Bool
  deriving DecidableEq

namespace Batch

/-- The lines of a sequence of bytes. A newline ends a line, together with a carriage return
directly before it. What comes after the last newline is a line too, unless it is empty. -/
def lines : List UInt8 → List (List UInt8)
  | [] => []
  | [b] => if b = 10 then [[]] else [[b]]
  | b :: b' :: bs =>
    if b = 10 then [] :: lines (b' :: bs)
    else if b = 13 ∧ b' = 10 then lines (b' :: bs)
    else match lines (b' :: bs) with
      | line :: more => (b :: line) :: more
      | [] => [[b]]

/-- What is said to a line: its SQL or the error; nothing if it is not UTF-8. -/
def answer? (line : List UInt8) : Option String :=
  (String.fromUTF8? line.toByteArray).map fun text =>
    match (compile .defaults {} text).1 with
    | .ok sql => sql
    | .error err => "Error compiling input: " ++ err.message

/-- What is said about a line that is not UTF-8. -/
def unreadable : String := "Error reading input: stream did not contain valid UTF-8"

/-- Answers lines in turn. -/
def ofLines : List (List UInt8) → Batch
  | [] => ⟨[], false⟩
  | line :: more =>
    match answer? line with
    | some answer =>
      let after := ofLines more
      ⟨answer :: after.answers, after.stopped⟩
    | none => ⟨[], true⟩

/-- Answers every line of a sequence of bytes. -/
def run (input : List UInt8) : Batch := ofLines (lines input)

end Batch

end Dql
