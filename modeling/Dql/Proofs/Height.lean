import Dql.Proofs.RoundTrip

/-!
# How deep writing SQL recurses

SQL of an expression is written by writing its parts first, so writing recurses as deep as the
expression is high. The limit on nesting counts primaries only: operators of one chain stand inside
one another in the tree, but in no primary of one another.

* `Expr.height` - the most expressions that stand inside one another;
* `Expr.operators`, `Expr.longestChain` - the operators on the way down to the operands, at the top
  of an expression and anywhere in it;
* `Expr.ones` - `1 + 1 + ... + 1`.

Principal results: `height_le_of_parse` - the height is at most the limit times the longest chain
with its operand and sign - and `height_unbounded` - no bound holds of all that is parsed.
-/

namespace Dql

/-! ## Heights and chains -/

mutual

/-- The most expressions that stand inside one another. -/
def Expr.height : Expr → Nat
  | .number _ | .string _ | .path _ _ | .parameter _ => 1
  | .call _ args => heightOfList args + 1
  | .extension _ _ slots => heightOfList slots + 1
  | .binary left _ right => max left.height right.height + 1
  | .signed _ operand => operand.height + 1
  | .paren inner => inner.height + 1

/-- The height of the highest expression of a list. -/
def heightOfList : List Expr → Nat
  | [] => 0
  | e :: es => max e.height (heightOfList es)

end

/-- The most operators on the way from the top of an expression down to an operand. -/
def Expr.operators : Expr → Nat
  | .binary left _ right => max left.operators right.operators + 1
  | _ => 0

mutual

/-- The most operators that stand inside one another with no primary between them. -/
def Expr.longestChain : Expr → Nat
  | .number _ | .string _ | .path _ _ | .parameter _ => 0
  | .call _ args => longestChainOfList args
  | .extension _ _ slots => longestChainOfList slots
  | .binary left op right =>
    max (Expr.binary left op right).operators (max left.longestChain right.longestChain)
  | .signed _ operand => operand.longestChain
  | .paren inner => inner.longestChain

/-- The longest chain in the expressions of a list. -/
def longestChainOfList : List Expr → Nat
  | [] => 0
  | e :: es => max e.longestChain (longestChainOfList es)

end

theorem heightOfList_le {es : List Expr} {n : Nat} (h : ∀ e ∈ es, e.height ≤ n) :
    heightOfList es ≤ n := by
  induction es with
  | nil => exact Nat.zero_le n
  | cons e es ih =>
    obtain ⟨he, hes⟩ := List.forall_mem_cons.1 h
    exact Nat.max_le.2 ⟨he, ih hes⟩

theorem longestChain_le_of_mem {e : Expr} {es : List Expr} (he : e ∈ es) :
    e.longestChain ≤ longestChainOfList es := by
  induction he with
  | head => exact Nat.le_max_left _ _
  | tail _ _ ih => exact Nat.le_trans ih (Nat.le_max_right _ _)

theorem nesting_le_of_mem {e : Expr} {es : List Expr} (he : e ∈ es) :
    e.nesting ≤ nestingOfList es := by
  induction he with
  | head => exact Nat.le_max_left _ _
  | tail _ _ ih => exact Nat.le_trans ih (Nat.le_max_right _ _)

theorem Expr.operators_le_longestChain (e : Expr) : e.operators ≤ e.longestChain := by
  cases e with
  | binary => exact Nat.le_max_left _ _
  | _ => exact Nat.zero_le _

theorem Expr.operators_eq_zero {e : Expr} (h : e.rank = 0) : e.operators = 0 := by
  cases e with
  | binary _ op _ =>
    have := op.rank_le
    rw [rank] at h
    omega
  | _ => rfl

/-! ## Each level of nesting -/

/-- Each level of nesting adds a chain of operators, a sign and a primary at most. The bound is
stated with one more level on the left, so that it can be used at the top of each level. -/
theorem Normal.height_add_le {e : Expr} (h : Normal e) {k : Nat} (hk : e.longestChain ≤ k) :
    e.height + (k + 2) ≤ e.operators + min e.rank 1 + 1 + (k + 2) * e.nesting := by
  -- an expression one level further in, as a whole
  have inside : ∀ {a : Expr}, a.longestChain ≤ k →
      (a.height + (k + 2) ≤ a.operators + min a.rank 1 + 1 + (k + 2) * a.nesting) →
      a.height ≤ (k + 2) * a.nesting := by
    intro a ha hbound
    have := a.operators_le_longestChain
    omega
  -- a list of such expressions
  have insideAll : ∀ {es : List Expr}, longestChainOfList es ≤ k →
      (∀ a ∈ es, a.longestChain ≤ k →
        a.height + (k + 2) ≤ a.operators + min a.rank 1 + 1 + (k + 2) * a.nesting) →
      heightOfList es ≤ (k + 2) * nestingOfList es := by
    intro es hes hbound
    refine heightOfList_le fun a ha => ?_
    have hchain := Nat.le_trans (longestChain_le_of_mem ha) hes
    calc a.height ≤ (k + 2) * a.nesting := inside hchain (hbound a ha hchain)
      _ ≤ (k + 2) * nestingOfList es := Nat.mul_le_mul_left _ (nesting_le_of_mem ha)
  induction h with
  | number | string | name | path | parameter =>
    simp only [Expr.height, Expr.nesting, Nat.mul_one]
    omega
  | @call function args _ ih =>
    have hargs := insideAll hk fun a ha hchain => ih a ha hchain
    simp only [Expr.height, Expr.nesting, Nat.mul_add, Nat.mul_one]
    omega
  | @extension function words slots _ _ ih =>
    have hslots := insideAll hk fun a ha hchain => ih a ha hchain
    simp only [Expr.height, Expr.nesting, Nat.mul_add, Nat.mul_one]
    omega
  | @binary left right op _ _ _ _ ihleft ihright =>
    obtain ⟨-, hchains⟩ := Nat.max_le.1 hk
    obtain ⟨hl, hr⟩ := Nat.max_le.1 hchains
    have hleft := ihleft hl
    have hright := ihright hr
    have hrank := op.rank_le
    have hnl := Nat.mul_le_mul_left (k + 2) (Nat.le_max_left left.nesting right.nesting)
    have hnr := Nat.mul_le_mul_left (k + 2) (Nat.le_max_right left.nesting right.nesting)
    simp only [Expr.height, Expr.operators, Expr.rank, Expr.nesting]
    omega
  | @signed sign operand _ hrank ih =>
    have hoperand := ih hk
    rw [Expr.operators_eq_zero hrank, hrank] at hoperand
    simp only [Expr.height, Expr.operators, Expr.rank, Expr.nesting]
    omega
  | @paren inner _ ih =>
    have hchain : inner.longestChain ≤ k := hk
    have hinner := inside hchain (ih hchain)
    simp only [Expr.height, Expr.nesting, Nat.mul_add, Nat.mul_one]
    omega

/-- **An expression is no higher than its nesting times its longest chain**, an operand and its sign
counted with the chain. -/
theorem Normal.height_le {e : Expr} (h : Normal e) :
    e.height ≤ (e.longestChain + 2) * e.nesting := by
  have hbound := h.height_add_le (Nat.le_refl _)
  have := e.operators_le_longestChain
  omega

/-! ## Writing recurses as deep as the expression is high -/

namespace NodeTable

mutual

/-- An expression is found in its table if and only if as many levels of recursion are allowed as it
is high. -/
theorem exprWithin_of_height {t : NodeTable} {id : NodeId} (depth : Nat) : {e : Expr} →
    t.Represents e id → t.exprWithin depth id = if e.height ≤ depth then some e else none
  | e, h => by
    cases depth with
    | zero =>
      have : 0 < e.height := by cases e <;> exact Nat.succ_pos _
      rw [if_neg (by omega)]
      rfl
    | succ depth =>
      cases e with
      | number | string | path | parameter =>
        simp [exprWithin, show t.nodes[id]? = _ from h, Expr.height]
      | call function args =>
        obtain ⟨span, hn, -, hargs⟩ := h
        have hes := mapM_exprWithin_of_height depth hargs
        by_cases hle : heightOfList args ≤ depth <;>
          simp [exprWithin, hn, hes, Expr.height, hle]
      | extension function words slots =>
        obtain ⟨index, ids, hn, hc, hslots⟩ := h
        have hes := mapM_exprWithin_of_height depth hslots
        by_cases hle : heightOfList slots ≤ depth <;>
          simp [exprWithin, hn, hc, hes, Expr.height, hle]
      | binary left op right =>
        obtain ⟨l, r, hn, ⟨-, hleft⟩, -, hright⟩ := h
        have hl := exprWithin_of_height depth hleft
        have hr := exprWithin_of_height depth hright
        have hheight : (Expr.binary left op right).height ≤ depth + 1 ↔
            left.height ≤ depth ∧ right.height ≤ depth := by
          rw [Expr.height, Nat.add_le_add_iff_right, Nat.max_le]
        by_cases hle : left.height ≤ depth <;> by_cases hle' : right.height ≤ depth <;>
          simp [exprWithin, hn, hl, hr, hheight, hle, hle']
      | signed sign operand =>
        obtain ⟨o, hn, -, hoperand⟩ := h
        have ho := exprWithin_of_height depth hoperand
        by_cases hle : operand.height ≤ depth <;> simp [exprWithin, hn, ho, Expr.height, hle]
      | paren inner =>
        obtain ⟨i, hn, -, hinner⟩ := h
        have hi := exprWithin_of_height depth hinner
        by_cases hle : inner.height ≤ depth <;> simp [exprWithin, hn, hi, Expr.height, hle]

theorem mapM_exprWithin_of_height {t : NodeTable} {ids : List NodeId} {bound : NodeId}
    (depth : Nat) : {es : List Expr} → t.RepresentsAll es ids bound →
      ids.mapM (t.exprWithin depth) = if heightOfList es ≤ depth then some es else none
  | [], hnil => by
    cases hnil
    rfl
  | e :: es, ⟨id, more, hids, ⟨_, he⟩, hmore⟩ => by
    have hfirst := exprWithin_of_height depth he
    have hrest := mapM_exprWithin_of_height depth hmore
    have hheight : heightOfList (e :: es) ≤ depth ↔
        e.height ≤ depth ∧ heightOfList es ≤ depth := by
      rw [heightOfList, Nat.max_le]
    by_cases hle : e.height ≤ depth <;> by_cases hle' : heightOfList es ≤ depth <;>
      simp [hids, hfirst, hrest, hheight, hle, hle']

end

/-- SQL is written of an expression if and only if as many levels of recursion are allowed as it is
high. -/
theorem toSqlWithin_of_height {t : NodeTable} {id : NodeId} {e : Expr} (style : Style)
    (depth : Nat) (h : t.Represents e id) :
    t.toSqlWithin style depth id = if e.height ≤ depth then some (e.toSql style) else none := by
  rw [toSqlWithin_eq, exprWithin_of_height depth h]
  split <;> rfl

end NodeTable

/-! ## What the limit bounds, and what it does not -/

/-- The sum of `n + 1` ones. -/
def Expr.ones : Nat → Expr
  | 0 => .number "1"
  | n + 1 => .binary (ones n) .add (.number "1")

theorem Expr.height_ones (n : Nat) : (ones n).height = n + 1 := by
  induction n with
  | zero => rfl
  | succ n ih =>
    rw [ones, height, ih, height]
    omega

theorem Expr.nesting_ones (n : Nat) : (ones n).nesting = 1 := by
  induction n with
  | zero => rfl
  | succ n ih => rw [ones, nesting, ih, nesting, Nat.max_self]

theorem Expr.extensions_ones (n : Nat) : (ones n).extensions = [] := by
  induction n with
  | zero => rfl
  | succ n ih => rw [ones, extensions, ih, extensions, List.append_nil]

theorem Normal.ones (n : Nat) : Normal (.ones n) := by
  have hone : Normal (.number "1") := .number (.inl ⟨by decide, List.all_eq_true.1 rfl⟩)
  induction n with
  | zero => exact hone
  | succ n ih => exact .binary ih hone (Expr.rank_le _) (Nat.zero_lt_succ _)

/-- A sum of ones is parsed, however long it is: its primaries stand side by side. -/
theorem parse_ones (catalog : Catalog) (n : Nat) :
    (parse catalog ((Expr.ones n).toSql .verbatim)).1 = .ok (.ones n) := by
  have hwell : WellFormed (.ones n) := ⟨.ones n, by rw [Expr.nesting_ones]; decide⟩
  refine hwell.parse_toSql fun x hx => ?_
  rw [Expr.extensions_ones] at hx
  exact nomatch hx

/-- **The limit on nesting bounds recursion up to the length of chains.** Writing SQL from the table
that a text is parsed to takes as many levels of recursion as its expression is high, and so does
reading the expression back. That is no more than the limit times the longest chain with its operand
and sign. -/
theorem height_le_of_parse {catalog : Catalog} {text : String} {e : Expr}
    (h : (parse catalog text).1 = .ok e) :
    (parseNodes catalog text).1 = .ok (NodeTable.empty.store e) ∧
    (∀ depth, (NodeTable.empty.store e).2.exprWithin depth (NodeTable.empty.store e).1 =
      if e.height ≤ depth then some e else none) ∧
    (∀ style depth,
      (NodeTable.empty.store e).2.toSqlWithin style depth (NodeTable.empty.store e).1 =
        if e.height ≤ depth then some (e.toSql style) else none) ∧
    e.height ≤ (e.longestChain + 2) * maxNesting := by
  obtain ⟨hnormal, hnesting⟩ := wellFormed_of_parse h
  have hstored := (NodeTable.stores_store NodeTable.empty e).represents
  refine ⟨?_, fun depth => NodeTable.exprWithin_of_height depth hstored,
    fun style depth => NodeTable.toSqlWithin_of_height style depth hstored, ?_⟩
  · rw [parseNodes_eq_parse, h]
    rfl
  calc e.height ≤ (e.longestChain + 2) * e.nesting := hnormal.height_le
    _ ≤ (e.longestChain + 2) * maxNesting := Nat.mul_le_mul_left _ hnesting

/-- A sum of four, which is a chain of three operators. -/
theorem height_le_of_parse_ones :
    (parse .empty "1 + 1 + 1 + 1").1 = .ok (.ones 3) ∧
      (Expr.ones 3).height ≤ (3 + 2) * maxNesting := by
  have htext : (Expr.ones 3).toSql .verbatim = "1 + 1 + 1 + 1" := by decide +kernel
  have h := parse_ones .empty 3
  rw [htext] at h
  exact ⟨h, (height_le_of_parse h).2.2.2⟩

/-- **No bound holds of the height of all expressions that are parsed.** -/
theorem height_unbounded :
    ¬ ∃ bound, ∀ (catalog : Catalog) (text : String) (e : Expr),
      (parse catalog text).1 = .ok e → e.height ≤ bound := by
  rintro ⟨bound, h⟩
  have hle := h .empty _ _ (parse_ones .empty bound)
  rw [Expr.height_ones] at hle
  omega

end Dql
