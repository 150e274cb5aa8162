import Dql.Name

/-!
# Built-in functions

The functions that every expression may call. Their names are looked up with ASCII letter case
ignored and cannot be given to anything else.

* `Builtin`, `Builtin.name` - the functions and their canonical names;
* `Builtin.ofName?` - look-up.

`ofName?_eq_some_iff` says which names find which function.
-/

namespace Dql

/-- The functions of the language itself. -/
inductive Builtin where
  | abs
  | avg
  | bitAnd
  | bitOr
  | coalesce
  | concat
  | count
  | currentDate
  | currentTime
  | currentTimestamp
  | dateAdd
  | dateDiff
  | dateSub
  | identity
  | length
  | locate
  | lower
  | max
  | min
  | mod
  | nullIf
  | size
  | sqrt
  | substring
  | sum
  | trim
  | upper
  deriving DecidableEq, Inhabited

namespace Builtin

/-- The canonical name, as SQL has it. -/
def name : Builtin → String
  | abs => "ABS"
  | avg => "AVG"
  | bitAnd => "BIT_AND"
  | bitOr => "BIT_OR"
  | coalesce => "COALESCE"
  | concat => "CONCAT"
  | count => "COUNT"
  | currentDate => "CURRENT_DATE"
  | currentTime => "CURRENT_TIME"
  | currentTimestamp => "CURRENT_TIMESTAMP"
  | dateAdd => "DATE_ADD"
  | dateDiff => "DATE_DIFF"
  | dateSub => "DATE_SUB"
  | identity => "IDENTITY"
  | length => "LENGTH"
  | locate => "LOCATE"
  | lower => "LOWER"
  | max => "MAX"
  | min => "MIN"
  | mod => "MOD"
  | nullIf => "NULLIF"
  | size => "SIZE"
  | sqrt => "SQRT"
  | substring => "SUBSTRING"
  | sum => "SUM"
  | trim => "TRIM"
  | upper => "UPPER"

/-- Every built-in function, by name. -/
def all : List Builtin :=
  [abs, avg, bitAnd, bitOr, coalesce, concat, count, currentDate, currentTime, currentTimestamp,
    dateAdd, dateDiff, dateSub, identity, length, locate, lower, max, min, mod, nullIf, size, sqrt,
    substring, sum, trim, upper]

/-- The built-in function of a name, letter case ignored. -/
def ofName? (text : String) : Option Builtin := all.find? fun b => b.name == foldCase text

theorem mem_all (b : Builtin) : b ∈ all := by cases b <;> decide

theorem foldCase_name (b : Builtin) : foldCase b.name = b.name := by
  have h : ∀ b ∈ all, foldCase b.name = b.name := by decide +kernel
  exact h b (mem_all b)

theorem name_injective {a b : Builtin} (h : a.name = b.name) : a = b := by
  have key : ∀ a ∈ all, ∀ b ∈ all, a.name = b.name → a = b := by decide +kernel
  exact key a (mem_all a) b (mem_all b) h

/-- A name stands for a built-in function if it is the function's own name, letter case ignored. -/
theorem ofName?_eq_some_iff {text : String} {b : Builtin} :
    ofName? text = some b ↔ b.name = foldCase text := by
  constructor
  · intro h
    simpa using List.find?_some h
  · intro h
    cases hf : ofName? text with
    | none =>
      have := List.find?_eq_none.1 hf b (mem_all b)
      simp [h] at this
    | some a =>
      have ha : a.name = foldCase text := by simpa using List.find?_some hf
      rw [name_injective (ha.trans h.symm)]

/-- A name stands for no built-in function if it is the name of none, letter case ignored. -/
theorem ofName?_eq_none_iff {text : String} :
    ofName? text = none ↔ ∀ b : Builtin, b.name ≠ foldCase text := by
  constructor
  · intro h b hb
    rw [ofName?_eq_some_iff.2 hb] at h
    cases h
  · intro h
    cases hf : ofName? text with
    | none => rfl
    | some b => exact absurd (ofName?_eq_some_iff.1 hf) (h b)

end Builtin

end Dql
