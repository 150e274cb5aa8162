import Dql.Batch

/-!
# Consoles

A batch is answered on a console: each line as soon as it is compiled, with the time that this took.
Of what a console is made is left open, so that the loop can run on standard streams, and also where
all that it writes is kept.

* `Console` - a clock, an output, and an output for complaints;
* `Console.entry` - an answer as it is written;
* `Console.answerLines`, `Console.answer` - lines in turn, and all lines of a sequence of bytes.
-/

namespace Dql

/-- A clock and two outputs, with effects in `m`. -/
structure Console (m : Type → Type) where
  /-- nanoseconds since some moment -/
  now : m Nat
  print : String → m Unit
  complain : String → m Unit

namespace Console

/-- What is written for a line: how many microseconds the answer took, and the answer. -/
def entry (micros : Nat) (answer : String) : String := s!"[in {micros}μs] {answer}\n"

variable {m : Type → Type} [Monad m]

/-- Answers lines in turn, up to the first that is not UTF-8. Gives the exit status; stopping there
is no failure. -/
def answerLines (console : Console m) : List (List UInt8) → m UInt32
  | [] => return 0
  | line :: more => do
    let start ← console.now
    match Batch.answer? line with
    | some answer =>
      let stop ← console.now
      console.print (entry ((stop - start) / 1000) answer)
      console.answerLines more
    | none =>
      console.complain (Batch.unreadable ++ "\n")
      return 0

/-- Answers every line of a sequence of bytes. -/
def answer (console : Console m) (input : List UInt8) : m UInt32 :=
  console.answerLines (Batch.lines input)

end Console

end Dql
