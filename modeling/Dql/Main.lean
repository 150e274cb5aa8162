import Dql.Console

/-!
# The command line

Compiles standard input line by line. Each answer goes to standard output with the time that it
took; the notice about a line that is not UTF-8 goes to standard error.
-/

namespace Dql

/-- Everything that a stream still holds. -/
partial def readAll (input : IO.FS.Stream) (soFar : ByteArray) : IO ByteArray := do
  let chunk ← input.read 65536
  if chunk.isEmpty then return soFar else readAll input (soFar ++ chunk)

/-- The standard streams. What is printed is passed on at once. -/
def Console.standard (output error : IO.FS.Stream) : Console IO where
  now := IO.monoNanosNow
  print text := do
    output.putStr text
    output.flush
  complain text := error.putStr text

end Dql

/-- Answers what standard input holds. -/
def main : IO UInt32 := do
  let input ← Dql.readAll (← IO.getStdin) .empty
  let console := Dql.Console.standard (← IO.getStdout) (← IO.getStderr)
  console.answer input.toList
