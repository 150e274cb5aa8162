import Dql.Proofs.Forest
import Dql.Proofs.Parsing
import Dql.Proofs.Sessions

/-!
# Expressions are laid out in post-order

What a successful step adds to the table is the tree that it gives, and nothing else: its nodes in
post-order, the one that stands for the whole last, the arguments of its calls in the order of these
and the calls of extensions, too.

* `NodeTable.postorder` - the nodes under an id, children from left to right before their parent;
* `NodeTable.follow` - where a route leads from a node, from child to child;
* `NodeTable.Appends` - one table has the trees under some ids more than another;
* `NodeTable.Packed` - the packed arguments and the calls stand in the order of their nodes;
* `NodeTable.LaysOut` - all that is said about a tree that was added to a table.

Principal results: `NodeTable.laysOut_store` and `Session.lays_out_in_postorder`.
-/

namespace Dql

/-- The places in the packed arguments that are those of a node. -/
def Node.argIndices : Node → List Nat
  | .call _ span => List.range' span.start span.length
  | _ => []

/-- The index of the extension call that a node stands for, if it does. -/
def Node.callIndices : Node → List Nat
  | .extension index => [index]
  | _ => []

namespace NodeTable

/-- The nodes under an id in post-order, as long as no path of links is longer than `depth`. -/
def postorderWithin (t : NodeTable) : (depth : Nat) → NodeId → List NodeId
  | 0, _ => []
  | depth + 1, id =>
    match t.nodes[id]? with
    | some node => (t.children node).flatMap (t.postorderWithin depth) ++ [id]
    | none => []

/-- The nodes under an id in post-order: those under each child, from left to right, and then the
node itself. -/
def postorder (t : NodeTable) (id : NodeId) : List NodeId := t.postorderWithin t.size id

/-- Where a route leads from a node. It says in turn which child to go to, counted from zero. -/
def follow (t : NodeTable) : NodeId → (route : List Nat) → Option NodeId
  | id, [] => some id
  | id, place :: route => do
    let node ← t.nodes[id]?
    let child ← (t.children node)[place]?
    t.follow child route

/-- The nodes under ids, in turn. -/
def nodesAt (t : NodeTable) (ids : List NodeId) : List Node := ids.filterMap (t.nodes[·]?)

/-- The table `u` has the trees under `ids` more than `t`: in post-order, their nodes are those that
are new. -/
structure Appends (t u : NodeTable) (ids : List NodeId) : Prop where
  size_le : t.size ≤ u.size
  postorder : ids.flatMap u.postorder = List.range' t.size (u.size - t.size)

/-- The packed arguments are those of the nodes in turn, and so are the calls of extensions. -/
structure Packed (t : NodeTable) : Prop where
  args : t.nodes.toList.flatMap Node.argIndices = List.range t.args.size
  calls : t.nodes.toList.flatMap Node.callIndices = List.range t.calls.size

/-- The table `u` is `t` with the tree under `id` added in post-order. -/
structure LaysOut (t u : NodeTable) (id : NodeId) : Prop where
  extension : t.Extends u
  /-- The root is the last node. -/
  last : u.size = id + 1
  /-- The nodes that are new are those of the tree, each of them once. -/
  postorder : u.postorder id = List.range' t.size (u.size - t.size)
  /-- They refer to new nodes only. -/
  child_ge : ∀ x node, t.size ≤ x → u.nodes[x]? = some node →
    ∀ child ∈ u.children node, t.size ≤ child
  /-- The arguments that are new are those of the calls in the tree, in turn. -/
  args : (u.nodesAt (u.postorder id)).flatMap Node.argIndices =
    List.range' t.args.size (u.args.size - t.args.size)
  /-- The calls of extensions that are new are those of its nodes, in turn. -/
  calls : (u.nodesAt (u.postorder id)).flatMap Node.callIndices =
    List.range' t.calls.size (u.calls.size - t.calls.size)
  /-- From the root to each node that is new leads one route. -/
  one_route : ∀ x, t.size ≤ x → x < u.size → ∃! route, u.follow id route = some x

variable {t u v : NodeTable} {roots roots' ids : List NodeId} {id : NodeId} {node : Node}

/-! ## Post-order -/

/-- No depth matters above the id, since links lead to smaller ones. -/
theorem Forest.postorderWithin_eq (h : t.Forest roots) {depth depth' : Nat} (hd : id < depth)
    (hd' : id < depth') : t.postorderWithin depth id = t.postorderWithin depth' id := by
  induction id using Nat.strongRecOn generalizing depth depth' with
  | ind id ih =>
    obtain ⟨d, rfl⟩ := Nat.exists_eq_add_one.2 (Nat.zero_lt_of_lt hd)
    obtain ⟨d', rfl⟩ := Nat.exists_eq_add_one.2 (Nat.zero_lt_of_lt hd')
    unfold postorderWithin
    cases hn : t.nodes[id]? with
    | none => rfl
    | some node =>
      have hchildren : (t.children node).flatMap (t.postorderWithin d) =
          (t.children node).flatMap (t.postorderWithin d') := by
        apply List.flatMap_congr
        intro child hchild
        have hlt := h.child_lt id node hn child hchild
        exact ih child hlt (Nat.lt_of_lt_of_le hlt (Nat.le_of_lt_succ hd))
          (Nat.lt_of_lt_of_le hlt (Nat.le_of_lt_succ hd'))
      simp only [hchildren]

/-- Post-order, child by child. -/
theorem Forest.postorder_eq (h : t.Forest roots) (hn : t.nodes[id]? = some node) :
    t.postorder id = (t.children node).flatMap t.postorder ++ [id] := by
  have hid := lt_size_of_node hn
  have hdepth : t.postorder id = t.postorderWithin (t.size + 1) id :=
    h.postorderWithin_eq hid (Nat.lt_succ_of_lt hid)
  rw [hdepth]
  unfold postorderWithin
  simp only [hn]
  rfl

theorem Forest.mem_postorder_self (h : t.Forest roots) (hid : id < t.size) :
    id ∈ t.postorder id := by
  rw [h.postorder_eq (Array.getElem?_eq_getElem hid)]
  simp

/-- What is under an id stays the same when the table grows. -/
theorem Forest.postorder_extends (h : t.Forest roots) (hu : u.Forest roots') (hext : t.Extends u)
    (hid : id < t.size) : u.postorder id = t.postorder id := by
  induction id using Nat.strongRecOn with
  | ind id ih =>
    have hn : t.nodes[id]? = some t.nodes[id] := Array.getElem?_eq_getElem hid
    rw [h.postorder_eq hn, hu.postorder_eq (hext.node hn), h.children_eq hext hn]
    congr 1
    apply List.flatMap_congr
    intro child hchild
    have hlt := h.child_lt id _ hn child hchild
    exact ih child hlt (Nat.lt_trans hlt hid)

/-- With a node, its children are among those under an id. -/
theorem Forest.child_mem_postorder (h : t.Forest roots) (hid : id < t.size) {x child : NodeId}
    (hx : x ∈ t.postorder id) (hn : t.nodes[x]? = some node) (hchild : child ∈ t.children node) :
    child ∈ t.postorder id := by
  induction id using Nat.strongRecOn with
  | ind id ih =>
    have hid' : t.nodes[id]? = some t.nodes[id] := Array.getElem?_eq_getElem hid
    rw [h.postorder_eq hid'] at hx ⊢
    apply List.mem_append_left
    rcases List.mem_append.1 hx with hx | hx
    · obtain ⟨c, hc, hx⟩ := List.mem_flatMap.1 hx
      have hlt := h.child_lt id _ hid' c hc
      exact List.mem_flatMap.2 ⟨c, hc, ih c hlt (Nat.lt_trans hlt hid) hx⟩
    · obtain rfl := List.mem_singleton.1 hx
      obtain rfl : t.nodes[x] = node := Option.some.inj (hid'.symm.trans hn)
      have hlt := h.child_lt x _ hn child hchild
      exact List.mem_flatMap.2 ⟨child, hchild, h.mem_postorder_self (Nat.lt_trans hlt hid)⟩

/-! ## Storing in post-order -/

/-- Trees are added after trees. -/
theorem Appends.append {more : List NodeId} (h : t.Appends u ids) (hu : u.Forest (ids ++ roots))
    (hmore : u.Appends v more) (hv : v.Forest roots') (hext : u.Extends v) :
    t.Appends v (ids ++ more) := by
  have hle := h.size_le
  have hle' := hmore.size_le
  have hold : ids.flatMap v.postorder = ids.flatMap u.postorder := by
    apply List.flatMap_congr
    intro id hid
    exact hu.postorder_extends hv hext (hu.root_lt id (List.mem_append_left _ hid))
  refine ⟨by omega, ?_⟩
  rw [List.flatMap_append, hold, h.postorder, hmore.postorder]
  have hstart : u.size = t.size + (u.size - t.size) := by omega
  have hlength : v.size - t.size = (u.size - t.size) + (v.size - u.size) := by omega
  rw [hlength, ← List.range'_append_1, ← hstart]

/-- A node is added after the trees under its children, whatever else comes with it. -/
theorem Appends.push (h : t.Appends u ids) (hu : u.Forest (ids ++ roots)) (hext : u.Extends v)
    (hnodes : v.nodes = u.nodes) (hchildren : v.children node = ids)
    (hforest : (v.push node).2.Forest roots') :
    t.Appends (v.push node).2 [(v.push node).1] := by
  have hle := h.size_le
  have hsize : (v.push node).1 = u.size := by
    show v.nodes.size = u.nodes.size
    rw [hnodes]
  have hold : ids.flatMap (v.push node).2.postorder = ids.flatMap u.postorder := by
    apply List.flatMap_congr
    intro id hid
    apply hu.postorder_extends hforest (hext.trans (extends_push v node))
    exact hu.root_lt id (List.mem_append_left _ hid)
  have hcount : u.size + 1 - t.size = (u.size - t.size) + 1 := by omega
  have hlast : u.size = t.size + (u.size - t.size) := by omega
  constructor
  case size_le =>
    rw [size_push, hsize]
    omega
  case postorder =>
    rw [List.flatMap_singleton, hforest.postorder_eq (node_push v node), children_push, hchildren,
      hold, h.postorder, size_push, hsize, hcount, List.range'_1_concat, ← hlast]

/-- A node that comes with nothing else. -/
theorem Appends.push_plain (h : t.Appends u ids) (hu : u.Forest (ids ++ roots))
    (hchildren : u.children node = ids) (hforest : (u.push node).2.Forest roots') :
    t.Appends (u.push node).2 [(u.push node).1] :=
  h.push hu (.refl u) rfl hchildren hforest

theorem appends_nil (t : NodeTable) : t.Appends t [] := ⟨Nat.le_refl _, by simp⟩

mutual

/-- **An expression is stored in post-order.** -/
theorem store_appends {t : NodeTable} {roots : List NodeId} (h : t.Forest roots) : (e : Expr) →
    t.Appends (t.store e).2 [(t.store e).1]
  | .number text => (appends_nil t).push_plain h rfl (h.store (.number text))
  | .string contents => (appends_nil t).push_plain h rfl (h.store (.string contents))
  | .path entity field => (appends_nil t).push_plain h rfl (h.store (.path entity field))
  | .parameter text => (appends_nil t).push_plain h rfl (h.store (.parameter text))
  | .call function args => by
    have hext := extends_args (t.storeAll args).2 (t.storeAll args).1
    apply (storeAll_appends h args).push (h.storeAll args) hext rfl
    · exact argsOf_append _ _
    · exact h.store (.call function args)
  | .extension function words slots => by
    have hext := extends_calls (t.storeAll slots).2 ⟨function, words, (t.storeAll slots).1⟩
    apply (storeAll_appends h slots).push (h.storeAll slots) hext rfl
    · simp [children]
    · exact h.store (.extension function words slots)
  | .binary left op right => by
    have hleft := h.store left
    have hright := hleft.store right
    have hext := (stores_store (t.store left).2 right).extension
    have hboth := (store_appends h left).append hleft (store_appends hleft right) hright hext
    exact hboth.push_plain (hright.perm (.swap _ _ _)) rfl (h.store (.binary left op right))
  | .signed sign operand =>
    (store_appends h operand).push_plain (h.store operand) rfl (h.store (.signed sign operand))
  | .paren inner =>
    (store_appends h inner).push_plain (h.store inner) rfl (h.store (.paren inner))

theorem storeAll_appends {t : NodeTable} {roots : List NodeId} (h : t.Forest roots) :
    (es : List Expr) → t.Appends (t.storeAll es).2 (t.storeAll es).1
  | [] => appends_nil t
  | e :: es => by
    have he := h.store e
    have hext := (stores_storeAll (t.store e).2 es).1
    exact (store_appends h e).append he (storeAll_appends he es) (he.storeAll es) hext

end

/-! ## The packed arrays -/

theorem range_append_range' (m n : Nat) : List.range m ++ List.range' m n = List.range (m + n) := by
  have h := List.range'_append_1 (s := 0) (m := m) (n := n)
  rwa [Nat.zero_add, ← List.range_eq_range', ← List.range_eq_range'] at h

theorem packed_empty : empty.Packed := ⟨rfl, rfl⟩

theorem Packed.push_plain (h : t.Packed) (hargs : node.argIndices = [])
    (hcalls : node.callIndices = []) : (t.push node).2.Packed := by
  constructor
  · show (t.nodes.push node).toList.flatMap Node.argIndices = _
    rw [Array.toList_push, List.flatMap_append, h.args]
    simp [hargs, NodeTable.push]
  · show (t.nodes.push node).toList.flatMap Node.callIndices = _
    rw [Array.toList_push, List.flatMap_append, h.calls]
    simp [hcalls, NodeTable.push]

theorem Packed.pushCall (h : t.Packed) (function : Builtin) (args : List NodeId) :
    (t.pushCall function args).2.Packed := by
  constructor
  · have hsize : (t.args ++ args).size = t.args.size + args.length := by
      simp [append_eq_append_toArray]
    show (t.nodes.push _).toList.flatMap Node.argIndices = List.range (t.args ++ args).size
    rw [Array.toList_push, List.flatMap_append, h.args, List.flatMap_singleton, hsize]
    exact range_append_range' _ _
  · show (t.nodes.push _).toList.flatMap Node.callIndices = _
    rw [Array.toList_push, List.flatMap_append, h.calls]
    simp [Node.callIndices, NodeTable.pushCall, NodeTable.push]

theorem Packed.pushExtension (h : t.Packed) (call : ExtensionCall) :
    (t.pushExtension call).2.Packed := by
  constructor
  · show (t.nodes.push _).toList.flatMap Node.argIndices = _
    rw [Array.toList_push, List.flatMap_append, h.args]
    simp [Node.argIndices, NodeTable.pushExtension, NodeTable.push]
  · show (t.nodes.push _).toList.flatMap Node.callIndices = List.range (t.calls.push call).size
    rw [Array.toList_push, List.flatMap_append, h.calls, Array.size_push, List.range_succ]
    simp [Node.callIndices]

mutual

/-- **Storing an expression keeps the arrays packed.** -/
theorem Packed.store {t : NodeTable} (h : t.Packed) : (e : Expr) → (t.store e).2.Packed
  | .number _ | .string _ | .path _ _ | .parameter _ => h.push_plain rfl rfl
  | .call function args => (h.storeAll args).pushCall function _
  | .extension _ _ slots => (h.storeAll slots).pushExtension _
  | .binary left _ right => ((h.store left).store right).push_plain rfl rfl
  | .signed _ operand => (h.store operand).push_plain rfl rfl
  | .paren inner => (h.store inner).push_plain rfl rfl

theorem Packed.storeAll {t : NodeTable} (h : t.Packed) :
    (es : List Expr) → (t.storeAll es).2.Packed
  | [] => h
  | e :: es => (h.store e).storeAll es

end

/-- What the nodes that are new have in an array that was and is packed, is what is new there. -/
theorem new_of_packed (hext : t.Extends u) {f : Node → List Nat} {m n : Nat}
    (ht : t.nodes.toList.flatMap f = List.range m) (hu : u.nodes.toList.flatMap f = List.range n)
    (hle : m ≤ n) : (u.nodes.toList.drop t.size).flatMap f = List.range' m (n - m) := by
  obtain ⟨more, hmore⟩ := hext.nodes
  have hlist : u.nodes.toList = t.nodes.toList ++ more.toList := by simp [hmore]
  have hdrop : u.nodes.toList.drop t.size = more.toList := by
    rw [hlist, size, ← Array.length_toList, List.drop_left]
  have hsum : n = m + (n - m) := by omega
  rw [hlist, List.flatMap_append, ht, hsum, ← range_append_range'] at hu
  rw [hdrop]
  exact List.append_cancel_left hu

/-- The nodes from an id on, one by one. -/
theorem nodesAt_range' (u : NodeTable) {k n : Nat} (h : k + n = u.size) :
    u.nodesAt (List.range' k n) = u.nodes.toList.drop k := by
  induction n generalizing k with
  | zero =>
    have hdrop : u.nodes.toList.drop k = [] := by
      apply List.drop_eq_nil_of_le
      rw [Array.length_toList]
      exact Nat.le_of_eq h.symm
    rw [hdrop]
    rfl
  | succ n ih =>
    have hk : k < u.nodes.toList.length := by
      rw [Array.length_toList]
      show k < u.size
      omega
    have hnode : u.nodes[k]? = some u.nodes.toList[k] := by
      rw [← Array.getElem?_toList, List.getElem?_eq_getElem hk]
    rw [List.drop_eq_getElem_cons hk, ← ih (by omega), nodesAt, List.range'_succ,
      List.filterMap_cons_some hnode]
    rfl

/-! ## Routes -/

theorem follow_cons_eq_some_iff {x : NodeId} {place : Nat} {route : List Nat} :
    t.follow id (place :: route) = some x ↔ ∃ node child, t.nodes[id]? = some node ∧
      (t.children node)[place]? = some child ∧ t.follow child route = some x := by
  simp [follow, Option.bind_eq_some_iff]

/-- A route leads to a node under the id. -/
theorem Forest.mem_postorder_of_follow (h : t.Forest roots) (hid : id < t.size) {x : NodeId}
    {route : List Nat} (hroute : t.follow id route = some x) : x ∈ t.postorder id := by
  induction route generalizing id with
  | nil =>
    obtain rfl : id = x := Option.some.inj hroute
    exact h.mem_postorder_self hid
  | cons place route ih =>
    obtain ⟨node, child, hn, hchild, hrest⟩ := follow_cons_eq_some_iff.1 hroute
    have hmem := List.mem_of_getElem? hchild
    have hlt := h.child_lt id node hn child hmem
    rw [h.postorder_eq hn]
    apply List.mem_append_left
    exact List.mem_flatMap.2 ⟨child, hmem, ih (Nat.lt_trans hlt hid) hrest⟩

/-- A route leads to smaller ids, if it leads on at all. -/
theorem Forest.follow_le (h : t.Forest roots) {x : NodeId} {route : List Nat}
    (hroute : t.follow id route = some x) : x ≤ id := by
  induction route generalizing id with
  | nil => exact Nat.le_of_eq (Option.some.inj hroute).symm
  | cons place route ih =>
    obtain ⟨node, child, hn, hchild, hrest⟩ := follow_cons_eq_some_iff.1 hroute
    have hlt := h.child_lt id node hn child (List.mem_of_getElem? hchild)
    exact Nat.le_trans (ih hrest) (Nat.le_of_lt hlt)

theorem Forest.follow_cons_ne (h : t.Forest roots) {place : Nat} {route : List Nat} :
    t.follow id (place :: route) ≠ some id := by
  intro hroute
  obtain ⟨node, child, hn, hchild, hrest⟩ := follow_cons_eq_some_iff.1 hroute
  have hlt := h.child_lt id node hn child (List.mem_of_getElem? hchild)
  exact absurd (h.follow_le hrest) (Nat.not_le_of_lt hlt)

/-- To every node under the id leads a route. -/
theorem Forest.exists_follow (h : t.Forest roots) (hid : id < t.size) {x : NodeId}
    (hx : x ∈ t.postorder id) : ∃ route, t.follow id route = some x := by
  induction id using Nat.strongRecOn with
  | ind id ih =>
    have hn : t.nodes[id]? = some t.nodes[id] := Array.getElem?_eq_getElem hid
    rw [h.postorder_eq hn] at hx
    rcases List.mem_append.1 hx with hx | hx
    · obtain ⟨child, hchild, hx⟩ := List.mem_flatMap.1 hx
      have hlt := h.child_lt id _ hn child hchild
      obtain ⟨route, hroute⟩ := ih child hlt (Nat.lt_trans hlt hid) hx
      obtain ⟨place, hplace⟩ := List.mem_iff_getElem?.1 hchild
      exact ⟨place :: route, follow_cons_eq_some_iff.2 ⟨_, child, hn, hplace, hroute⟩⟩
    · obtain rfl := List.mem_singleton.1 hx
      exact ⟨[], rfl⟩

/-- An item of only one of several lists is at one place among them. -/
theorem place_unique {α β : Type} {f : α → List β} {xs : List α} {a b : α} {x : β} {i j : Nat}
    (h : (xs.flatMap f).Nodup) (ha : xs[i]? = some a) (hb : xs[j]? = some b) (hxa : x ∈ f a)
    (hxb : x ∈ f b) : i = j := by
  obtain ⟨-, hapart⟩ := List.nodup_flatMap.1 h
  have hlt : ∀ {i j : Nat} {a b : α}, xs[i]? = some a → xs[j]? = some b → i < j → x ∈ f a →
      x ∉ f b := by
    intro i j a b ha hb hij
    obtain ⟨hi, rfl⟩ := List.getElem?_eq_some_iff.1 ha
    obtain ⟨hj, rfl⟩ := List.getElem?_eq_some_iff.1 hb
    exact fun hxa hxb => List.pairwise_iff_getElem.1 hapart i j hi hj hij hxa hxb
  rcases Nat.lt_trichotomy i j with hij | hij | hij
  · exact absurd hxb (hlt ha hb hij hxa)
  · exact hij
  · exact absurd hxa (hlt hb ha hij hxb)

/-- Where no node is met twice, one route leads to each. -/
theorem Forest.follow_unique (h : t.Forest roots) (hid : id < t.size)
    (hnodup : (t.postorder id).Nodup) {x : NodeId} {route route' : List Nat}
    (hroute : t.follow id route = some x) (hroute' : t.follow id route' = some x) :
    route = route' := by
  induction route generalizing id route' with
  | nil =>
    obtain rfl : id = x := Option.some.inj hroute
    cases route' with
    | nil => rfl
    | cons place' rest' => exact absurd hroute' h.follow_cons_ne
  | cons place rest ih =>
    cases route' with
    | nil =>
      obtain rfl : id = x := Option.some.inj hroute'
      exact absurd hroute h.follow_cons_ne
    | cons place' rest' =>
      obtain ⟨node, child, hn, hchild, hrest⟩ := follow_cons_eq_some_iff.1 hroute
      obtain ⟨node', child', hn', hchild', hrest'⟩ := follow_cons_eq_some_iff.1 hroute'
      obtain rfl : node = node' := Option.some.inj (hn.symm.trans hn')
      have hmem := List.mem_of_getElem? hchild
      have hid₁ := Nat.lt_trans (h.child_lt id node hn child hmem) hid
      have hid₂ := Nat.lt_trans (h.child_lt id node hn child' (List.mem_of_getElem? hchild')) hid
      rw [h.postorder_eq hn] at hnodup
      have hbelow := (List.nodup_append.1 hnodup).1
      -- the node is under one child only, and there the rest of the route is the only one
      obtain rfl := place_unique hbelow hchild hchild' (h.mem_postorder_of_follow hid₁ hrest)
        (h.mem_postorder_of_follow hid₂ hrest')
      obtain rfl : child = child' := Option.some.inj (hchild.symm.trans hchild')
      rw [ih hid₁ ((List.nodup_flatMap.1 hbelow).1 child hmem) hrest hrest']

/-! ## Trees that are added -/

/-- **A stored expression is laid out in post-order**, and nothing else is added. -/
theorem laysOut_store (h : t.Forest roots) (hpacked : t.Packed) (e : Expr) :
    t.LaysOut (t.store e).2 (t.store e).1 := by
  have hstores := stores_store t e
  have hforest := h.store e
  have happends := store_appends h e
  have hnew := hpacked.store e
  generalize (t.store e).1 = id, (t.store e).2 = u at hstores hforest happends hnew ⊢
  have hext := hstores.extension
  have hid : id < u.size := hstores.lt
  have hle := happends.size_le
  have hpostorder : u.postorder id = List.range' t.size (u.size - t.size) := by
    rw [← happends.postorder, List.flatMap_singleton]
  have hmem : ∀ x, x ∈ u.postorder id ↔ t.size ≤ x ∧ x < u.size := by
    intro x
    rw [hpostorder, List.mem_range'_1, Nat.add_sub_of_le hle]
  have hnodes : u.nodesAt (u.postorder id) = u.nodes.toList.drop t.size := by
    rw [hpostorder]
    exact nodesAt_range' u (by omega)
  constructor
  case extension => exact hext
  case last => exact hstores.last
  case postorder => exact hpostorder
  case child_ge =>
    intro x node hx hn child hchild
    have hx' := (hmem x).2 ⟨hx, lt_size_of_node hn⟩
    exact ((hmem child).1 (hforest.child_mem_postorder hid hx' hn hchild)).1
  case args =>
    rw [hnodes]
    exact new_of_packed hext hpacked.args hnew.args hext.args_le
  case calls =>
    rw [hnodes]
    exact new_of_packed hext hpacked.calls hnew.calls hext.calls_le
  case one_route =>
    intro x hx hx'
    obtain ⟨route, hroute⟩ := hforest.exists_follow hid ((hmem x).2 ⟨hx, hx'⟩)
    have hnodup : (u.postorder id).Nodup := by
      rw [hpostorder]
      exact List.nodup_range'
    exact ⟨route, hroute, fun route' hroute' => hforest.follow_unique hid hnodup hroute' hroute⟩

end NodeTable

/-! ## Sessions -/

/-- From the lexemes `ls`, of which `rest` are left over, what the step asks for derives as the
expression `e`. -/
def Step.Parses (catalog : Catalog) (ls rest : List Lexeme) (e : Expr) : Step → Prop
  | .expression => Derives catalog .expression maxNesting ls rest e
  | .primary accepts => Derives catalog (.primary accepts) maxNesting ls rest e
  | .take _ | .finish | .extension _ => False

namespace Session

variable {s : Session}

/-- **A step keeps the arrays packed**, also if it fails. -/
theorem step_packed (h : s.table.Packed) (what : Step) : (s.step what).2.table.Packed := by
  obtain ⟨es, -, htable, -⟩ := s.step_stores what
  rw [htable]
  exact h.storeAll es

theorem run_packed (h : s.table.Packed) (steps : List Step) : (s.run steps).table.Packed := by
  induction steps generalizing s with
  | nil => exact h
  | cons what steps ih => exact ih (step_packed h what)

/-- A step that succeeds in parsing an expression or a primary has stored it, and gives its node.
The stack of arguments is as it was. -/
theorem step_node {what : Step} {answer : Answer} (hdepth : s.depth = 0)
    (h : (s.step what).1 = .ok answer)
    (hwhat : what = .expression ∨ ∃ accepts, what = .primary accepts) :
    ∃ e, what.Parses s.catalog s.progress.lexemes (s.step what).2.progress.lexemes e ∧
      (s.step what).2.table = (s.table.store e).2 ∧ (s.step what).2.scratch = s.scratch ∧
      answer = .node (s.table.store e).1 := by
  cases hrun : what.treeParser s.catalog (maxNesting - s.depth) s.progress with
  | error f progress =>
    rw [step_of_error hrun] at h
    cases h
  | ok found progress =>
    rw [step_of_ok hrun] at h ⊢
    rw [hdepth, Nat.sub_zero] at hrun
    rcases hwhat with rfl | ⟨accepts, rfl⟩
    · obtain ⟨e, s₁, hp, hpure⟩ := Parse.bind_ok_iff.1 hrun
      obtain ⟨rfl, rfl⟩ := Parse.pure_ok_iff.1 hpure
      cases h
      have hsound := expression_sound (primary_sound maxNesting .arithmetic) _ _ _ hp
      exact ⟨e, hsound.2, rfl, rfl, rfl⟩
    · obtain ⟨e, s₁, hp, hpure⟩ := Parse.bind_ok_iff.1 hrun
      obtain ⟨rfl, rfl⟩ := Parse.pure_ok_iff.1 hpure
      cases h
      exact ⟨e, (primary_sound maxNesting accepts _ _ _ hp).2, rfl, rfl, rfl⟩

/-- A whole text is parsed by two steps, and then its expression is in the table and nothing else,
as it is when the text is parsed at once. -/
theorem answers_of_parse {catalog : Catalog} {text : String} {e : Expr}
    (h : (parse catalog text).1 = .ok e) :
    (start catalog text).answers [.expression, .finish] =
        [.node (NodeTable.empty.store e).1, .done] ∧
      ((start catalog text).run [.expression, .finish]).table = (NodeTable.empty.store e).2 := by
  obtain ⟨s, hwhole⟩ := parse_eq_ok_iff_run.1 h
  obtain ⟨found, s₁, hexpr, hrest⟩ := Parse.bind_ok_iff.1 hwhole
  obtain ⟨_, s₂, hend, hpure⟩ := Parse.bind_ok_iff.1 hrest
  obtain ⟨rfl, rfl⟩ := Parse.pure_ok_iff.1 hpure
  have hfound : Step.expression.treeParser catalog maxNesting (.ofText text) =
      .ok (.expr found) s₁ :=
    Parse.bind_ok_iff.2 ⟨found, s₁, hexpr, rfl⟩
  have hfirst : (start catalog text).step .expression = _ := step_of_ok hfound
  have hdone : Step.finish.treeParser catalog maxNesting s₁ = .ok .done s₂ :=
    Parse.bind_ok_iff.2 ⟨(), s₂, holding_ok_iff.1 hend, rfl⟩
  have hsecond : ((start catalog text).step .expression).2.step .finish = _ :=
    step_of_ok (by rw [hfirst]; exact hdone)
  rw [hfirst] at hsecond
  simp only [answers, run, List.foldl_cons, List.foldl_nil, hfirst, hsecond]
  exact ⟨rfl, rfl⟩

/-- **What is parsed is laid out in post-order.** After any steps on any text, a step that succeeds
in parsing an expression or a primary gives a node, and adds to the table the tree of what it took
and nothing else: the node is the last one, the tree in post-order is all that is new and refers to
nothing older, its calls stand in the order of the packed arguments and its extension calls in
theirs, and one route leads from the root to each node. On the stack of arguments is what was there
before. In particular there is nothing but this tree in the table when a whole text is parsed. -/
theorem lays_out_in_postorder (catalog : Catalog) (text : String) :
    (∀ (steps : List Step) (what : Step) (answer : Answer),
      let s := (start catalog text).run steps
      let s' := (s.step what).2
      (s.step what).1 = .ok answer → what = .expression ∨ (∃ accepts, what = .primary accepts) →
        s'.scratch = s.scratch ∧
        ∃ id e, answer = .node id ∧ s.table.LaysOut s'.table id ∧ s'.table.expr? id = some e ∧
          what.Parses catalog s.progress.lexemes s'.progress.lexemes e) ∧
    ∀ e, (parse catalog text).1 = .ok e →
      let s' := (start catalog text).run [.expression, .finish]
      ∃ root, (start catalog text).answers [.expression, .finish] = [.node root, .done] ∧
        (parseNodes catalog text).1 = .ok (root, s'.table) ∧
        s'.table.expr? root = some e ∧ NodeTable.empty.LaysOut s'.table root ∧
        ∀ x < s'.table.size, ∃! route, s'.table.follow root route = some x := by
  constructor
  · intro steps what answer s s' h hwhat
    have hdepth : s.depth = 0 := run_depth _ steps
    obtain ⟨e, hparses, htable, hscratch, rfl⟩ := step_node hdepth h hwhat
    have hforest := forest_run catalog text steps
    have hpacked := run_packed (s := start catalog text) NodeTable.packed_empty steps
    have hcatalog : s.catalog = catalog := ((start catalog text).run_takes steps).1
    have hlays := NodeTable.laysOut_store hforest hpacked e
    have hexpr := NodeTable.expr?_store s.table e
    rw [← htable] at hlays hexpr
    rw [hcatalog] at hparses
    exact ⟨hscratch, _, e, rfl, hlays, hexpr, hparses⟩
  · intro e h s'
    obtain ⟨hanswers, htable⟩ := answers_of_parse h
    have hnodes : (parseNodes catalog text).1 = .ok (NodeTable.empty.store e) := by
      rw [parseNodes_eq_parse, h]
      rfl
    have hlays := NodeTable.laysOut_store NodeTable.forest_empty NodeTable.packed_empty e
    have hexpr := NodeTable.expr?_store .empty e
    rw [← htable] at hlays hexpr
    refine ⟨_, hanswers, ?_, hexpr, hlays, fun x hx => hlays.one_route x (Nat.zero_le x) hx⟩
    rw [hnodes, htable]

/-- A call after a failure, which has left one node behind. -/
theorem lays_out_in_postorder_after_failure :
    let s := (start .empty "(1 LOWER(-d)").run [.primary .arithmetic]
    let s' := (s.step .expression).2
    (s.step .expression).1 = .ok (.node 3) ∧ s.table.LaysOut s'.table 3 ∧
      s.table.size = 1 ∧ s'.table.postorder 3 = [1, 2, 3] := by
  have hstep : (((start .empty "(1 LOWER(-d)").run [.primary .arithmetic]).step .expression).1 =
      .ok (.node 3) := by
    decide +kernel
  have hsize : ((start .empty "(1 LOWER(-d)").run [.primary .arithmetic]).table.size = 1 := by
    decide +kernel
  obtain ⟨-, id, e, hid, hlays, -⟩ :=
    (lays_out_in_postorder .empty "(1 LOWER(-d)").1 _ _ _ hstep (.inl rfl)
  cases hid
  refine ⟨hstep, hlays, hsize, ?_⟩
  rw [hlays.postorder, hlays.last, hsize]
  rfl

end Session

end Dql
