/-!
# Names

A name is a letter or underscore followed by letters, digits and underscores; all of them ASCII.
Functions are looked up by name with ASCII letter case ignored.

* `isNameStart`, `isNamePart` - the two character classes;
* `isName` - the texts that are names;
* `foldCase` - the form in which names differing only in case meet.
-/

namespace Dql

/-- A name starts with an ASCII letter or an underscore. -/
def isNameStart (c : Char) : Bool := c.isAlpha || c == '_'

/-- A name goes on with ASCII letters, digits and underscores. -/
def isNamePart (c : Char) : Bool := c.isAlphanum || c == '_'

theorem isNamePart_of_isNameStart {c : Char} (h : isNameStart c = true) : isNamePart c = true := by
  simp only [isNameStart, isNamePart, Char.isAlphanum, Bool.or_eq_true] at *
  exact h.imp_left Or.inl

/-- The texts that are names as a whole. -/
def isName (text : String) : Bool :=
  match text.toList with
  | [] => false
  | c :: cs => isNameStart c && cs.all isNamePart

/-- The upper-case form of a text: ASCII letters only, any other character stays as it is. -/
def foldCase (text : String) : String := text.map Char.toUpper

theorem toList_foldCase (text : String) : (foldCase text).toList = text.toList.map Char.toUpper :=
  String.toList_map

end Dql
