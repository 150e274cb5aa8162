import Dql.Proofs.Storage

/-!
# Storing behind other nodes

Storing an expression appends nodes that refer to one another, so what is appended is the same
whatever the table already has, with all ids, spans and indexes moved behind that.

* `Node.behind`, `ExtensionCall.behind` - the same with its links moved behind a table;
* `NodeTable.append` - one table behind another.

Principal results: `NodeTable.store_append` and `NodeTable.storeAll_append`.
-/

namespace Dql

/-- The node with its links moved behind the table `t`. -/
def Node.behind (t : NodeTable) : Node → Node
  | .call function span => .call function ⟨t.args.size + span.start, span.length⟩
  | .extension index => .extension (t.calls.size + index)
  | .binary left op right => .binary (t.size + left) op (t.size + right)
  | .signed sign operand => .signed sign (t.size + operand)
  | .paren inner => .paren (t.size + inner)
  | node => node

/-- The call with its slots moved behind the table `t`. -/
def ExtensionCall.behind (t : NodeTable) (call : ExtensionCall) : ExtensionCall :=
  { call with slots := call.slots.map (t.size + ·) }

namespace NodeTable

/-- The table `u` behind the table `t`. -/
def append (t u : NodeTable) : NodeTable where
  nodes := t.nodes ++ u.nodes.map (.behind t)
  args := t.args ++ u.args.map (t.size + ·)
  calls := t.calls ++ u.calls.map (.behind t)

theorem append_empty (t : NodeTable) : t.append {} = t := by
  simp [append]

/-! ## Adding nodes -/

theorem push_append (t u : NodeTable) (node : Node) :
    (t.append u).push (node.behind t) = (t.size + (u.push node).1, t.append (u.push node).2) := by
  simp [push, append, size]

theorem pushCall_append (t u : NodeTable) (function : Builtin) (ids : List NodeId) :
    (t.append u).pushCall function (ids.map (t.size + ·)) =
      (t.size + (u.pushCall function ids).1, t.append (u.pushCall function ids).2) := by
  simp [pushCall, push, append, size, Node.behind, append_eq_append_toArray, Array.append_assoc]

theorem pushExtension_append (t u : NodeTable) (call : ExtensionCall) :
    (t.append u).pushExtension (call.behind t) =
      (t.size + (u.pushExtension call).1, t.append (u.pushExtension call).2) := by
  simp [pushExtension, push, append, size, Node.behind]

/-! ## Storing -/

mutual

/-- **Behind another table, the same is stored**, with everything moved behind that table. -/
theorem store_append (t u : NodeTable) : (e : Expr) →
    (t.append u).store e = (t.size + (u.store e).1, t.append (u.store e).2)
  | .number text => push_append t u (.number text)
  | .string contents => push_append t u (.string contents)
  | .path entity field => push_append t u (.path entity field)
  | .parameter text => push_append t u (.parameter text)
  | .call function args => by
    have hargs := storeAll_append t u args
    simp only [store, hargs]
    exact pushCall_append t _ function _
  | .extension function words slots => by
    have hslots := storeAll_append t u slots
    simp only [store, hslots]
    exact pushExtension_append t _ ⟨function, words, _⟩
  | .binary left op right => by
    have hleft := store_append t u left
    have hright := store_append t (u.store left).2 right
    simp only [store, hleft, hright]
    exact push_append t _ (.binary _ op _)
  | .signed sign operand => by
    have hoperand := store_append t u operand
    simp only [store, hoperand]
    exact push_append t _ (.signed sign _)
  | .paren inner => by
    have hinner := store_append t u inner
    simp only [store, hinner]
    exact push_append t _ (.paren _)

theorem storeAll_append (t u : NodeTable) : (es : List Expr) →
    (t.append u).storeAll es = ((u.storeAll es).1.map (t.size + ·), t.append (u.storeAll es).2)
  | [] => rfl
  | e :: es => by
    have he := store_append t u e
    have hes := storeAll_append t (u.store e).2 es
    simp only [storeAll, he, hes, List.map_cons]

end

end NodeTable

end Dql
