import Dql.NodeTable

/-!
# Stored expressions are read back

Storing an expression appends to the table and changes nothing that was there, and what is read back
under the id that it gives is the expression.

* `NodeTable.Extends` - one table has all that another has, in the same places;
* `NodeTable.Represents` - an expression is under an id, and its parts are under smaller ones.

Principal results: `NodeTable.expr?_store`, and `NodeTable.toSqlWithin_eq` - the SQL under an id is
that of the expression there.
-/

namespace Dql.NodeTable

/-- The table `t'` has all that `t` has, in the same places. -/
structure Extends (t t' : NodeTable) : Prop where
  nodes : ∃ more, t'.nodes = t.nodes ++ more
  args : ∃ more, t'.args = t.args ++ more
  calls : ∃ more, t'.calls = t.calls ++ more

mutual

/-- The expression is under the id, and its parts are under smaller ones. -/
def Represents (t : NodeTable) : Expr → NodeId → Prop
  | .number text, id => t.nodes[id]? = some (.number text)
  | .string contents, id => t.nodes[id]? = some (.string contents)
  | .path entity field, id => t.nodes[id]? = some (.path entity field)
  | .parameter text, id => t.nodes[id]? = some (.parameter text)
  | .call function args, id => ∃ span, t.nodes[id]? = some (.call function span) ∧
      span.start + span.length ≤ t.args.size ∧ t.RepresentsAll args (t.argsOf span) id
  | .extension function words slots, id => ∃ index ids, t.nodes[id]? = some (.extension index) ∧
      t.calls[index]? = some ⟨function, words, ids⟩ ∧ t.RepresentsAll slots ids id
  | .binary left op right, id => ∃ l r, t.nodes[id]? = some (.binary l op r) ∧
      (l < id ∧ t.Represents left l) ∧ (r < id ∧ t.Represents right r)
  | .signed sign operand, id => ∃ o, t.nodes[id]? = some (.signed sign o) ∧
      o < id ∧ t.Represents operand o
  | .paren inner, id => ∃ i, t.nodes[id]? = some (.paren i) ∧ i < id ∧ t.Represents inner i

/-- The expressions are under the ids, one by one, and these are smaller than `bound`. -/
def RepresentsAll (t : NodeTable) : List Expr → List NodeId → (bound : NodeId) → Prop
  | [], ids, _ => ids = []
  | e :: es, ids, bound => ∃ id more, ids = id :: more ∧ (id < bound ∧ t.Represents e id) ∧
      t.RepresentsAll es more bound

end

variable {t t' u : NodeTable} {id bound : NodeId}

theorem lt_size_of_node {node : Node} (hn : t.nodes[id]? = some node) : id < t.size :=
  (Array.getElem?_eq_some_iff.1 hn).1

/-! ## Tables that grow -/

namespace Extends

theorem refl (t : NodeTable) : t.Extends t :=
  ⟨⟨#[], by simp⟩, ⟨#[], by simp⟩, ⟨#[], by simp⟩⟩

theorem trans (h₁ : t.Extends t') (h₂ : t'.Extends u) : t.Extends u := by
  obtain ⟨⟨n₁, hn₁⟩, ⟨a₁, ha₁⟩, ⟨c₁, hc₁⟩⟩ := h₁
  obtain ⟨⟨n₂, hn₂⟩, ⟨a₂, ha₂⟩, ⟨c₂, hc₂⟩⟩ := h₂
  exact ⟨⟨n₁ ++ n₂, by rw [hn₂, hn₁, Array.append_assoc]⟩,
    ⟨a₁ ++ a₂, by rw [ha₂, ha₁, Array.append_assoc]⟩,
    ⟨c₁ ++ c₂, by rw [hc₂, hc₁, Array.append_assoc]⟩⟩

theorem size_le (h : t.Extends t') : t.size ≤ t'.size := by
  obtain ⟨more, hmore⟩ := h.nodes
  rw [size, size, hmore, Array.size_append]
  omega

theorem args_le (h : t.Extends t') : t.args.size ≤ t'.args.size := by
  obtain ⟨more, hmore⟩ := h.args
  rw [hmore, Array.size_append]
  omega

theorem calls_le (h : t.Extends t') : t.calls.size ≤ t'.calls.size := by
  obtain ⟨more, hmore⟩ := h.calls
  rw [hmore, Array.size_append]
  omega

theorem getElem?_append {α : Type} {xs more : Array α} {i : Nat} {a : α} (h : xs[i]? = some a) :
    (xs ++ more)[i]? = some a := by
  obtain ⟨hi, -⟩ := Array.getElem?_eq_some_iff.1 h
  rw [Array.getElem?_append_left hi, h]

theorem node {node : Node} (h : t.Extends t') (hn : t.nodes[id]? = some node) :
    t'.nodes[id]? = some node := by
  obtain ⟨more, hmore⟩ := h.nodes
  rw [hmore, getElem?_append hn]

theorem call {index : Nat} {call : ExtensionCall} (h : t.Extends t')
    (hc : t.calls[index]? = some call) : t'.calls[index]? = some call := by
  obtain ⟨more, hmore⟩ := h.calls
  rw [hmore, getElem?_append hc]

theorem argsOf {start length : Nat} (h : t.Extends t') (hs : start + length ≤ t.args.size) :
    t'.argsOf ⟨start, length⟩ = t.argsOf ⟨start, length⟩ ∧ start + length ≤ t'.args.size := by
  obtain ⟨more, hmore⟩ := h.args
  constructor
  · rw [NodeTable.argsOf, NodeTable.argsOf, hmore, Array.extract_append, Nat.sub_eq_zero_of_le hs]
    simp
  · rw [hmore, Array.size_append]
    omega

end Extends

mutual

/-- What is in a table stays where it is when the table grows. -/
theorem Represents.mono {t t' : NodeTable} {id : NodeId} (h : t.Extends t') :
    {e : Expr} → t.Represents e id → t'.Represents e id
  | .number _, hn | .string _, hn | .path _ _, hn | .parameter _, hn => h.node hn
  | .call _ _, ⟨span, hn, hs, hargs⟩ =>
    have ⟨hargsOf, hs'⟩ := h.argsOf hs
    ⟨span, h.node hn, hs', by rw [hargsOf]; exact hargs.mono h⟩
  | .extension _ _ _, ⟨index, ids, hn, hc, hslots⟩ =>
    ⟨index, ids, h.node hn, h.call hc, hslots.mono h⟩
  | .binary _ _ _, ⟨l, r, hn, ⟨hl, hleft⟩, hr, hright⟩ =>
    ⟨l, r, h.node hn, ⟨hl, hleft.mono h⟩, hr, hright.mono h⟩
  | .signed _ _, ⟨o, hn, ho, hoperand⟩ => ⟨o, h.node hn, ho, hoperand.mono h⟩
  | .paren _, ⟨i, hn, hi, hinner⟩ => ⟨i, h.node hn, hi, hinner.mono h⟩

theorem RepresentsAll.mono {t t' : NodeTable} {ids : List NodeId} {bound : NodeId}
    (h : t.Extends t') : {es : List Expr} → t.RepresentsAll es ids bound →
      t'.RepresentsAll es ids bound
  | [], hnil => hnil
  | _ :: _, ⟨id, more, hids, ⟨hid, he⟩, hmore⟩ => ⟨id, more, hids, ⟨hid, he.mono h⟩, hmore.mono h⟩

end

/-! ## Storing -/

theorem extends_push (t : NodeTable) (node : Node) : t.Extends (t.push node).2 :=
  ⟨⟨#[node], by simp [push]⟩, ⟨#[], by simp [push]⟩, ⟨#[], by simp [push]⟩⟩

theorem node_push (t : NodeTable) (node : Node) :
    (t.push node).2.nodes[(t.push node).1]? = some node := by
  simp [push, size]

theorem size_push (t : NodeTable) (node : Node) : (t.push node).2.size = (t.push node).1 + 1 := by
  simp [push, size]

/-- What it means that an expression is stored: the table grows, and the expression is under the id
that was given last. -/
structure Stores (t : NodeTable) (e : Expr) (id : NodeId) (t' : NodeTable) : Prop where
  extension : t.Extends t'
  represents : t'.Represents e id
  last : t'.size = id + 1

/-- A stored node whose parts are in the table. -/
theorem stores_push {e : Expr} (node : Node) (he : t.Extends u)
    (h : ∀ v, u.Extends v → v.nodes[u.size]? = some node → v.Represents e u.size) :
    t.Stores e (u.push node).1 (u.push node).2 :=
  ⟨he.trans (extends_push u node), h _ (extends_push u node) (node_push u node), size_push u node⟩

theorem Stores.lt {e : Expr} (h : t.Stores e id u) : id < u.size :=
  h.last ▸ Nat.lt_succ_self id

theorem append_eq_append_toArray {α : Type} (xs : Array α) (l : List α) :
    xs ++ l = xs ++ l.toArray :=
  Array.ext' (by simp)

theorem extends_args (t : NodeTable) (args : List NodeId) :
    t.Extends { t with args := t.args ++ args } :=
  ⟨⟨#[], by simp⟩, ⟨args.toArray, append_eq_append_toArray _ _⟩, ⟨#[], by simp⟩⟩

theorem extends_calls (t : NodeTable) (call : ExtensionCall) :
    t.Extends { t with calls := t.calls.push call } :=
  ⟨⟨#[], by simp⟩, ⟨#[], by simp⟩, ⟨#[call], by simp⟩⟩

/-- The arguments that were packed last. -/
theorem argsOf_append (t : NodeTable) (args : List NodeId) :
    argsOf { t with args := t.args ++ args } ⟨t.args.size, args.length⟩ = args := by
  simp [argsOf, append_eq_append_toArray]

/-- A call of a built-in function whose arguments are in the table. -/
theorem stores_pushCall {function : Builtin} {args : List Expr} {ids : List NodeId}
    (h : t.Extends u) (hargs : u.RepresentsAll args ids u.size) :
    t.Stores (.call function args) (u.pushCall function ids).1 (u.pushCall function ids).2 := by
  have happend := extends_args u ids
  have hspan : u.args.size + ids.length ≤ (u.args ++ ids).size := by
    simp [append_eq_append_toArray]
  refine stores_push _ (h.trans happend) fun v hv hn => ?_
  obtain ⟨hargsOf, hspan'⟩ := hv.argsOf hspan
  refine ⟨⟨u.args.size, ids.length⟩, hn, hspan', ?_⟩
  rw [hargsOf, argsOf_append]
  exact (hargs.mono happend).mono hv

/-- A call of an extension whose slots are in the table. -/
theorem stores_pushExtension (call : ExtensionCall) {slots : List Expr} (h : t.Extends u)
    (hslots : u.RepresentsAll slots call.slots u.size) :
    t.Stores (.extension call.function call.words slots) (u.pushExtension call).1
      (u.pushExtension call).2 := by
  have happend := extends_calls u call
  exact stores_push _ (h.trans happend) fun v hv hn =>
    ⟨_, _, hn, hv.call (by simp), (hslots.mono happend).mono hv⟩

mutual

theorem stores_store (t : NodeTable) : (e : Expr) → t.Stores e (t.store e).1 (t.store e).2
  | .number _ | .string _ | .path _ _ | .parameter _ => stores_push _ (.refl t) fun _ _ hn => hn
  | .call _ args =>
    have ⟨hext, hargs⟩ := stores_storeAll t args
    stores_pushCall hext hargs
  | .extension function words slots =>
    have ⟨hext, hslots⟩ := stores_storeAll t slots
    stores_pushExtension ⟨function, words, _⟩ hext hslots
  | .binary left _ right =>
    have hl := stores_store t left
    have hr := stores_store (t.store left).2 right
    stores_push _ (hl.extension.trans hr.extension) fun _ hv hn =>
      ⟨_, _, hn,
        ⟨Nat.lt_of_lt_of_le hl.lt hr.extension.size_le,
          (hl.represents.mono hr.extension).mono hv⟩,
        hr.lt, hr.represents.mono hv⟩
  | .signed _ operand =>
    have ho := stores_store t operand
    stores_push _ ho.extension fun _ hv hn =>
      ⟨_, hn, ho.lt, ho.represents.mono hv⟩
  | .paren inner =>
    have hi := stores_store t inner
    stores_push _ hi.extension fun _ hv hn =>
      ⟨_, hn, hi.lt, hi.represents.mono hv⟩

theorem stores_storeAll (t : NodeTable) : (es : List Expr) → t.Extends (t.storeAll es).2 ∧
    (t.storeAll es).2.RepresentsAll es (t.storeAll es).1 (t.storeAll es).2.size
  | [] => ⟨.refl t, rfl⟩
  | e :: es =>
    have he := stores_store t e
    have ⟨hext, hes⟩ := stores_storeAll (t.store e).2 es
    ⟨he.extension.trans hext, _, _, rfl,
      ⟨Nat.lt_of_lt_of_le he.lt hext.size_le, he.represents.mono hext⟩, hes⟩

end

/-! ## Reading back -/

mutual

/-- Links lead to smaller ids, so no path of them is longer than the id that it starts from. -/
theorem exprWithin_of_represents {t : NodeTable} {id depth : Nat} : {e : Expr} →
    t.Represents e id → id < depth → t.exprWithin depth id = some e
  | .number _, hn, hd | .string _, hn, hd | .path _ _, hn, hd | .parameter _, hn, hd => by
    obtain ⟨d, rfl⟩ := Nat.exists_eq_add_one.2 (Nat.zero_lt_of_lt hd)
    rw [exprWithin, show t.nodes[id]? = _ from hn]
    rfl
  | .call _ _, ⟨span, hn, _, hargs⟩, hd => by
    obtain ⟨d, rfl⟩ := Nat.exists_eq_add_one.2 (Nat.zero_lt_of_lt hd)
    have hes := mapM_exprWithin_of_representsAll hargs (Nat.le_of_lt_succ hd)
    simp [exprWithin, hn, hes]
  | .extension _ _ _, ⟨index, ids, hn, hc, hslots⟩, hd => by
    obtain ⟨d, rfl⟩ := Nat.exists_eq_add_one.2 (Nat.zero_lt_of_lt hd)
    have hes := mapM_exprWithin_of_representsAll hslots (Nat.le_of_lt_succ hd)
    simp [exprWithin, hn, hc, hes]
  | .binary _ _ _, ⟨l, r, hn, ⟨hl, hleft⟩, hr, hright⟩, hd => by
    obtain ⟨d, rfl⟩ := Nat.exists_eq_add_one.2 (Nat.zero_lt_of_lt hd)
    have hl := exprWithin_of_represents hleft (Nat.lt_of_lt_of_le hl (Nat.le_of_lt_succ hd))
    have hr := exprWithin_of_represents hright (Nat.lt_of_lt_of_le hr (Nat.le_of_lt_succ hd))
    simp [exprWithin, hn, hl, hr]
  | .signed _ _, ⟨o, hn, ho, hoperand⟩, hd | .paren _, ⟨o, hn, ho, hoperand⟩, hd => by
    obtain ⟨d, rfl⟩ := Nat.exists_eq_add_one.2 (Nat.zero_lt_of_lt hd)
    have ho := exprWithin_of_represents hoperand (Nat.lt_of_lt_of_le ho (Nat.le_of_lt_succ hd))
    simp [exprWithin, hn, ho]

theorem mapM_exprWithin_of_representsAll {t : NodeTable} {ids : List NodeId} {bound depth : Nat} :
    {es : List Expr} → t.RepresentsAll es ids bound → bound ≤ depth →
      ids.mapM (t.exprWithin depth) = some es
  | [], hnil, _ => by
    cases hnil
    rfl
  | e :: es, ⟨id, more, hids, ⟨hid, he⟩, hmore⟩, hd => by
    have hfirst := exprWithin_of_represents he (Nat.lt_of_lt_of_le hid hd)
    have hrest := mapM_exprWithin_of_representsAll hmore hd
    simp [hids, hfirst, hrest]

end

/-- **A stored expression is read back** under the id that storing it gave. -/
theorem expr?_store (t : NodeTable) (e : Expr) : (t.store e).2.expr? (t.store e).1 = some e := by
  have h := stores_store t e
  exact exprWithin_of_represents h.represents (by rw [h.last]; omega)

theorem mapM_expr?_storeAll (t : NodeTable) (es : List Expr) :
    (t.storeAll es).1.mapM (t.storeAll es).2.expr? = some es :=
  mapM_exprWithin_of_representsAll (stores_storeAll t es).2 (Nat.le_refl _)

/-! ## SQL of nodes -/

/-- The SQL of several nodes is that of the expressions under them. -/
theorem mapM_toSql {style : Style} {read : NodeId → Option Expr}
    {write : NodeId → Option String} (h : ∀ id, write id = (read id).map (Expr.toSql style))
    (ids : List NodeId) : ids.mapM write = (ids.mapM read).map (toSqlOfList style) := by
  induction ids with
  | nil => rfl
  | cons id ids ih =>
    simp only [List.mapM_cons, h, ih]
    cases read id <;> cases ids.mapM read <;> rfl

/-- **The SQL under an id is that of the expression there.** Both are there or neither is. -/
theorem toSqlWithin_eq (t : NodeTable) (style : Style) (depth : Nat) (id : NodeId) :
    t.toSqlWithin style depth id = (t.exprWithin depth id).map (Expr.toSql style) := by
  induction depth generalizing id with
  | zero => rfl
  | succ depth ih =>
    have hall := mapM_toSql ih
    rw [toSqlWithin, exprWithin]
    cases t.nodes[id]? with
    | none => rfl
    | some node =>
      cases node with
      | number | string | path | parameter => rfl
      | call function span =>
        simp only [Option.bind_eq_bind, Option.bind_some, hall]
        cases (t.argsOf span).mapM (t.exprWithin depth) <;> rfl
      | extension index =>
        simp only [Option.bind_eq_bind, Option.bind_some, hall]
        cases t.calls[index]? with
        | none => rfl
        | some call =>
          dsimp only [Option.bind_some]
          cases call.slots.mapM (t.exprWithin depth) <;> rfl
      | binary left op right =>
        simp only [Option.bind_eq_bind, Option.bind_some, ih]
        cases t.exprWithin depth left <;> cases t.exprWithin depth right <;> rfl
      | signed _ operand | paren operand =>
        simp only [Option.bind_eq_bind, Option.bind_some, ih]
        cases t.exprWithin depth operand <;> rfl

theorem toSql?_eq (t : NodeTable) (style : Style) (id : NodeId) :
    t.toSql? style id = (t.expr? id).map (Expr.toSql style) :=
  t.toSqlWithin_eq style t.size id

theorem toSql?_store (t : NodeTable) (e : Expr) (style : Style) :
    (t.store e).2.toSql? style (t.store e).1 = some (e.toSql style) := by
  rw [toSql?_eq, expr?_store, Option.map_some]

theorem callToSql?_storeAll (t : NodeTable) (function : Extension) (words : List String)
    (slots : List Expr) (style : Style) :
    (t.storeAll slots).2.callToSql? style ⟨function, words, (t.storeAll slots).1⟩ =
      some ((Expr.extension function words slots).toSql style) := by
  simp only [callToSql?, mapM_toSql (toSql?_eq _ style), mapM_expr?_storeAll]
  rfl

end Dql.NodeTable
