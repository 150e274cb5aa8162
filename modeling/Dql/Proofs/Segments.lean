import Dql.Sql
import Mathlib.Data.List.Forall2

/-!
# Segments of SQL

The SQL of an expression is a list of segments, the same for every style. Most are fixed text. A
style says how paths and parameters are written, and has no say in anything else.

* `Segment`, `Expr.segments` - the segments of an expression, in the order of the text;
* `Written` - what a style makes of a segment;
* `Style.write`, `Style.chars` - the same computed, and the characters of several segments.

Principal results: `toList_toSql` - writing an expression fills its segments; and `toSql_written`.
-/

namespace Dql

/-! ## Segments -/

/-- A piece of SQL: fixed text, or a path or parameter of the expression. -/
inductive Segment where
  | fixed (text : String)
  | path (entity : String) (field : Option String)
  | parameter (text : String)
  deriving DecidableEq

/-- What stands between the parentheses of an extension's call: the form, with the words and the
slots' segments put in. -/
def arrangeSegments : List Piece → List String → List (List Segment) → List Segment
  | .word :: form, word :: words, slots => .fixed word :: arrangeSegments form words slots
  | .keyword sql :: form, words, slots =>
    .fixed (" " ++ sql ++ " ") :: arrangeSegments form words slots
  | .comma :: form, words, slots => .fixed ", " :: arrangeSegments form words slots
  | .expression :: form, words, slot :: slots => slot ++ arrangeSegments form words slots
  | .primary _ :: form, words, slot :: slots => slot ++ arrangeSegments form words slots
  | _, _, _ => []

mutual

/-- The segments of an expression, in the order of the text. -/
def Expr.segments : Expr → List Segment
  | .number text => [.fixed text]
  | .string contents => [.fixed ("'" ++ contents ++ "'")]
  | .path entity field => [.path entity field]
  | .parameter text => [.parameter text]
  | .call function args =>
    .fixed (function.name ++ "(") ::
      List.intercalate [.fixed ", "] (segmentsOfList args) ++ [.fixed ")"]
  | .extension function words slots =>
    .fixed (function.name ++ "(") ::
      arrangeSegments function.form words (segmentsOfList slots) ++ [.fixed ")"]
  | .binary left op right => left.segments ++ .fixed (" " ++ op.symbol ++ " ") :: right.segments
  | .signed sign operand => .fixed sign.symbol :: operand.segments
  | .paren inner => .fixed "(" :: inner.segments ++ [.fixed ")"]

/-- The segments of each expression of a list. -/
def segmentsOfList : List Expr → List (List Segment)
  | [] => []
  | e :: es => e.segments :: segmentsOfList es

end

theorem segmentsOfList_eq_map (es : List Expr) : segmentsOfList es = es.map Expr.segments := by
  induction es with
  | nil => rfl
  | cons e es ih => rw [segmentsOfList, ih, List.map_cons]

/-! ## Styles -/

/-- What a style makes of a segment. Fixed text stays. A path is written by the style's resolver. A
parameter is a question mark, or its text as it is. -/
inductive Written (style : Style) : Segment → String → Prop where
  | fixed (text : String) : Written style (.fixed text) text
  | path (entity : String) (field : Option String) :
      Written style (.path entity field) (style.path entity field)
  | positional (text : String) (h : style.parameters = .positional) :
      Written style (.parameter text) "?"
  | verbatim (text : String) (h : style.parameters = .verbatim) :
      Written style (.parameter text) text

/-- The text of a segment. -/
def Style.write (style : Style) : Segment → String
  | .fixed text => text
  | .path entity field => style.path entity field
  | .parameter text => style.parameter text

theorem Style.written_write (style : Style) (s : Segment) : Written style s (style.write s) := by
  cases s with
  | fixed text => exact .fixed text
  | path entity field => exact .path entity field
  | parameter text =>
    rw [write, parameter]
    cases h : style.parameters with
    | positional => exact .positional text h
    | verbatim => exact .verbatim text h

/-- Paths and parameters are written as they are. -/
def Style.verbatim : Style := { parameters := .verbatim }

/-- The characters of a list of segments. -/
def Style.chars (style : Style) (segments : List Segment) : List Char :=
  segments.flatMap fun s => (style.write s).toList

section Style

variable (style : Style)

@[simp] theorem Style.write_fixed (text : String) : style.write (.fixed text) = text := rfl

@[simp] theorem Style.write_path (entity : String) (field : Option String) :
    style.write (.path entity field) = style.path entity field := rfl

@[simp] theorem Style.path_verbatim : Style.verbatim.path = verbatimPath := rfl

@[simp] theorem Style.write_parameter_verbatim (text : String) :
    Style.verbatim.write (.parameter text) = text := rfl

@[simp] theorem Style.chars_nil : style.chars [] = [] := rfl

@[simp] theorem Style.chars_cons (s : Segment) (more : List Segment) :
    style.chars (s :: more) = (style.write s).toList ++ style.chars more := rfl

@[simp] theorem Style.chars_append (front back : List Segment) :
    style.chars (front ++ back) = style.chars front ++ style.chars back :=
  List.flatMap_append

theorem Style.chars_comma (more : List Segment) :
    style.chars (.fixed ", " :: more) = ',' :: ' ' :: style.chars more := by
  simp

/-- Pieces of SQL with the same text between each two. -/
theorem Style.chars_intercalate (text : String) (pieces : List (List Segment)) :
    style.chars (List.intercalate [.fixed text] pieces) =
      List.intercalate text.toList (pieces.map style.chars) := by
  match pieces with
  | [] => rfl
  | [piece] => simp
  | piece :: piece' :: pieces =>
    have ih := Style.chars_intercalate text (piece' :: pieces)
    simp only [List.map_cons, List.intercalate_cons_cons, chars_append] at ih ⊢
    rw [ih, chars_cons, chars_nil, List.append_nil, write_fixed]

/-! ### What SQL of each kind of expression is put together from -/

theorem Style.chars_call (function : Builtin) (args : List Expr) :
    style.chars (Expr.call function args).segments = (function.name ++ "(").toList ++
      (style.chars (List.intercalate [.fixed ", "] (segmentsOfList args)) ++ [')']) := by
  simp [Expr.segments]

theorem Style.chars_extension (function : Extension) (words : List String) (slots : List Expr) :
    style.chars (Expr.extension function words slots).segments = (function.name ++ "(").toList ++
      (style.chars (arrangeSegments function.form words (segmentsOfList slots)) ++ [')']) := by
  simp [Expr.segments]

theorem Style.chars_binary (left : Expr) (op : BinaryOp) (right : Expr) :
    style.chars (Expr.binary left op right).segments = style.chars left.segments ++
      ((' ' :: op.symbol.toList ++ [' ']) ++ style.chars right.segments) := by
  simp [Expr.segments]

theorem Style.chars_signed (sign : Sign) (operand : Expr) :
    style.chars (Expr.signed sign operand).segments =
      sign.symbol.toList ++ style.chars operand.segments := by
  simp [Expr.segments]

theorem Style.chars_paren (inner : Expr) :
    style.chars (Expr.paren inner).segments = ['('] ++ (style.chars inner.segments ++ [')']) := by
  simp [Expr.segments]

theorem Style.chars_string (contents : String) :
    style.chars (Expr.string contents).segments = '\'' :: contents.toList ++ ['\''] := by
  simp [Expr.segments]

end Style

/-! ## Writing -/

/-- What is put into a form is put in segment by segment. -/
theorem toList_arrange (style : Style) (form : List Piece) (words : List String)
    {sqls : List String} {slots : List (List Segment)}
    (h : sqls.map String.toList = slots.map style.chars) :
    (arrange form words sqls).toList = style.chars (arrangeSegments form words slots) := by
  induction form generalizing words sqls slots with
  | nil => rfl
  | cons piece form ih =>
    cases piece with
    | word =>
      cases words with
      | nil => rfl
      | cons word words => simp [arrange, arrangeSegments, ih words h]
    | keyword sql => simp [arrange, arrangeSegments, ih words h]
    | comma => simp [arrange, arrangeSegments, ih words h]
    | expression | primary =>
      cases sqls with
      | nil =>
        cases slots with
        | nil => rfl
        | cons => cases h
      | cons sql sqls =>
        cases slots with
        | nil => cases h
        | cons slot slots =>
          obtain ⟨hslot, hslots⟩ := List.cons_eq_cons.1 h
          simp [arrange, arrangeSegments, ih words hslots, hslot]

mutual

/-- **Writing an expression fills its segments.** -/
theorem toList_toSql (style : Style) : (e : Expr) →
    (e.toSql style).toList = style.chars e.segments
  | .number _ | .path _ _ | .parameter _ => by
    simp [Expr.toSql, Expr.segments, Style.write]
  | .string contents => by simp [Expr.toSql, Expr.segments]
  | .call function args => by
    have hargs := map_toList_toSqlOfList style args
    rw [Style.chars_call, Style.chars_intercalate, ← hargs, Expr.toSql, Builtin.write]
    simp
  | .extension function words slots => by
    have hslots := toList_arrange style function.form words (map_toList_toSqlOfList style slots)
    rw [Style.chars_extension, ← hslots, Expr.toSql, Extension.write]
    simp
  | .binary left op right => by
    have hleft := toList_toSql style left
    have hright := toList_toSql style right
    rw [Style.chars_binary, ← hleft, ← hright, Expr.toSql]
    simp
  | .signed sign operand => by
    have hoperand := toList_toSql style operand
    rw [Style.chars_signed, ← hoperand, Expr.toSql, String.toList_append]
  | .paren inner => by
    have hinner := toList_toSql style inner
    rw [Style.chars_paren, ← hinner, Expr.toSql]
    simp

theorem map_toList_toSqlOfList (style : Style) : (es : List Expr) →
    (toSqlOfList style es).map String.toList = (segmentsOfList es).map style.chars
  | [] => rfl
  | e :: es => by
    rw [toSqlOfList, segmentsOfList, List.map_cons, List.map_cons, toList_toSql style e,
      map_toList_toSqlOfList style es]

end

/-- The SQL of an expression is what a style makes of its segments, one after another. -/
theorem toSql_written (style : Style) (e : Expr) :
    ∃ texts, List.Forall₂ (Written style) e.segments texts ∧ e.toSql style = String.join texts := by
  refine ⟨e.segments.map style.write, ?_, ?_⟩
  · induction e.segments with
    | nil => exact .nil
    | cons s segments ih => exact .cons (style.written_write s) ih
  · rw [← String.toList_inj, toList_toSql]
    induction e.segments with
    | nil => rfl
    | cons s segments ih =>
      rw [Style.chars_cons, List.map_cons, String.join_cons, String.toList_append, ih]

end Dql
