import Mathlib.Data.List.Perm.Basic
import Mathlib.Data.List.Nodup
import Dql.Proofs.Storage
import Dql.Proofs.TreeSessions

/-!
# What a session stores is a forest

Storing only ever appends nodes that refer to finished ones, and each finished node is used once: by
its parent, by whoever the session handed it to, or by nobody if it was left behind by a failure, be
it on the stack of arguments or not. So links never meet and never turn back, and whatever is in the
table can be written as SQL.

* `NodeTable.children`, `NodeTable.links` - what a node refers to, and all that nodes refer to;
* `NodeTable.Forest` - the invariant of a table, and of the nodes that were handed out;
* `Answer.ids`, `Session.answers` - what is handed out in a session.

Principal results: `Session.step_forest` - a step keeps the invariant - and
`Session.stored_once_and_for_all`.
-/

namespace Dql

namespace NodeTable

/-- The ids that a node refers to: its operands, its arguments, or what is in its slots. -/
def children (t : NodeTable) : Node → List NodeId
  | .number _ | .string _ | .path _ _ | .parameter _ => []
  | .call _ span => t.argsOf span
  | .extension index => t.calls[index]?.elim [] ExtensionCall.slots
  | .binary left _ right => [left, right]
  | .signed _ operand => [operand]
  | .paren inner => [inner]

/-- The ids that nodes refer to, node by node. -/
def links (t : NodeTable) : List NodeId := t.nodes.toList.flatMap t.children

/-- The nodes of a table form a forest, and those in `roots` are among the roots of its trees. -/
structure Forest (t : NodeTable) (roots : List NodeId) : Prop where
  /-- Links lead to smaller ids. -/
  child_lt : ∀ (id : NodeId) (node : Node), t.nodes[id]? = some node →
    ∀ child ∈ t.children node, child < id
  /-- The arguments of a call are there. -/
  span_le : ∀ (id : NodeId) (function : Builtin) (span : Span),
    t.nodes[id]? = some (.call function span) → span.start + span.length ≤ t.args.size
  /-- The arguments of a call are behind those of the calls before it. -/
  spans_apart : ∀ (id id' : NodeId) (function function' : Builtin) (span span' : Span), id < id' →
    t.nodes[id]? = some (.call function span) → t.nodes[id']? = some (.call function' span') →
      span.start + span.length ≤ span'.start
  /-- The call of an extension is there. -/
  index_lt : ∀ (id : NodeId) (index : Nat), t.nodes[id]? = some (.extension index) →
    index < t.calls.size
  /-- Every call of an extension that is there is that of one node. -/
  one_extension : ∀ index < t.calls.size, ∃! id : NodeId, t.nodes[id]? = some (.extension index)
  /-- The roots are there. -/
  root_lt : ∀ id ∈ roots, id < t.size
  /-- Nothing is referred to twice, and no root at all. -/
  one_parent : (roots ++ t.links).Nodup

variable {t u : NodeTable} {roots roots' : List NodeId}

theorem forest_empty : empty.Forest [] where
  child_lt _ _ h := by simp [empty] at h
  span_le _ _ _ h := by simp [empty] at h
  spans_apart _ _ _ _ _ _ _ h := by simp [empty] at h
  index_lt _ _ h := by simp [empty] at h
  one_extension _ h := by simp [empty] at h
  root_lt := by simp
  one_parent := by simp [links, empty]

namespace Forest

theorem perm (h : t.Forest roots) (hp : roots.Perm roots') : t.Forest roots' :=
  { h with
    root_lt := fun id hid => h.root_lt id (hp.mem_iff.2 hid)
    one_parent := (hp.append_right t.links).nodup_iff.1 h.one_parent }

theorem sublist (h : t.Forest roots) (hs : roots'.Sublist roots) : t.Forest roots' :=
  { h with
    root_lt := fun id hid => h.root_lt id (hs.subset hid)
    one_parent := h.one_parent.sublist (hs.append_right t.links) }

theorem link_lt (h : t.Forest roots) {id : NodeId} (hid : id ∈ t.links) : id < t.size := by
  obtain ⟨node, hnode, hchild⟩ := List.mem_flatMap.1 hid
  obtain ⟨place, hplace, rfl⟩ := Array.mem_iff_getElem.1 (Array.mem_toList_iff.1 hnode)
  exact Nat.lt_trans (h.child_lt place _ (Array.getElem?_eq_getElem hplace) id hchild) hplace

/-- A node refers to the same ids when the table grows. -/
theorem children_eq (h : t.Forest roots) (hext : t.Extends u) {id : NodeId} {node : Node}
    (hn : t.nodes[id]? = some node) : u.children node = t.children node := by
  cases node with
  | call function span => exact (hext.argsOf (h.span_le id function span hn)).1
  | extension index =>
    have hcall := Array.getElem?_eq_getElem (h.index_lt id index hn)
    simp only [children, hcall, hext.call hcall]
  | _ => rfl

end Forest

/-! ## Adding nodes -/

theorem children_push (t : NodeTable) (node other : Node) :
    (t.push node).2.children other = t.children other := by
  cases other <;> rfl

theorem getElem?_push_eq_some {node other : Node} {id : NodeId} :
    (t.push node).2.nodes[id]? = some other ↔
      t.nodes[id]? = some other ∨ id = t.size ∧ other = node := by
  simp only [push, size]
  rw [Array.getElem?_push]
  split
  case isTrue hid =>
    simp only [hid, Array.getElem?_size, reduceCtorEq, false_or, true_and, Option.some.injEq]
    exact eq_comm
  case isFalse hid => simp [hid]

/-- One more node adds its children to the links, whatever else comes with it. -/
theorem Forest.links_push (h : t.Forest roots) (hext : t.Extends u) (hnodes : u.nodes = t.nodes)
    (node : Node) : (u.push node).2.links = t.links ++ u.children node := by
  have hold : t.nodes.toList.flatMap u.children = t.links := by
    refine List.flatMap_congr fun other hother => ?_
    obtain ⟨id, hid, rfl⟩ := Array.mem_iff_getElem.1 (Array.mem_toList_iff.1 hother)
    exact h.children_eq hext (Array.getElem?_eq_getElem hid)
  have hchildren : (u.push node).2.children = u.children := funext (children_push u node)
  rw [links, hchildren, NodeTable.push, hnodes, Array.toList_push, List.flatMap_append, hold,
    List.flatMap_singleton]

/-- **One more node.** Its children were roots and it becomes one in their place; its arguments and
its call, if it has any, are new ones. -/
theorem Forest.push {node : Node} {ids : List NodeId} (h : t.Forest (ids ++ roots))
    (hext : t.Extends u) (hnodes : u.nodes = t.nodes) (hids : u.children node = ids)
    (hspan : ∀ function span, node = .call function span →
      t.args.size ≤ span.start ∧ span.start + span.length ≤ u.args.size)
    (hcall : ∀ index, node = .extension index ↔ t.calls.size ≤ index ∧ index < u.calls.size) :
    (u.push node).2.Forest ((u.push node).1 :: roots) := by
  have hsize : u.size = t.size := by rw [size, size, hnodes]
  have hget : ∀ id other, (u.push node).2.nodes[id]? = some other ↔
      t.nodes[id]? = some other ∨ id = t.size ∧ other = node := by
    intro id other
    rw [getElem?_push_eq_some, hnodes, hsize]
  constructor
  case child_lt =>
    intro id other hn child hchild
    rw [children_push] at hchild
    obtain hn | ⟨rfl, rfl⟩ := (hget id other).1 hn
    · rw [h.children_eq hext hn] at hchild
      exact h.child_lt id other hn child hchild
    · rw [hids] at hchild
      exact h.root_lt child (List.mem_append_left _ hchild)
  case span_le =>
    intro id function span hn
    obtain hn | ⟨-, hn⟩ := (hget id _).1 hn
    · exact Nat.le_trans (h.span_le id function span hn) hext.args_le
    · exact (hspan function span hn.symm).2
  case spans_apart =>
    intro id id' function function' span span' hlt hn hn'
    obtain hn₂ | ⟨rfl, hnode⟩ := (hget id' _).1 hn'
    · obtain hn₁ | ⟨rfl, -⟩ := (hget id _).1 hn
      · exact h.spans_apart id id' function function' span span' hlt hn₁ hn₂
      · exact absurd (lt_size_of_node hn₂) (Nat.lt_asymm hlt)
    · obtain hn₁ | ⟨rfl, -⟩ := (hget id _).1 hn
      · exact Nat.le_trans (h.span_le id function span hn₁) (hspan function' span' hnode.symm).1
      · exact absurd hlt (Nat.lt_irrefl _)
  case index_lt =>
    intro id index hn
    obtain hn | ⟨-, hn⟩ := (hget id _).1 hn
    · exact Nat.lt_of_lt_of_le (h.index_lt id index hn) hext.calls_le
    · exact ((hcall index).1 hn.symm).2
  case one_extension =>
    intro index hindex
    by_cases hnew : t.calls.size ≤ index
    · have hnode := (hcall index).2 ⟨hnew, hindex⟩
      refine ⟨t.size, (hget _ _).2 (.inr ⟨rfl, hnode.symm⟩), fun id hid => ?_⟩
      obtain hn | ⟨hid, -⟩ := (hget id _).1 hid
      · exact absurd (h.index_lt id index hn) (by omega)
      · exact hid
    · obtain ⟨id, hid, huniq⟩ := h.one_extension index (by omega)
      refine ⟨id, (hget _ _).2 (.inl hid), fun id' hid' => ?_⟩
      obtain hn | ⟨-, hnode⟩ := (hget id' _).1 hid'
      · exact huniq id' hn
      · exact absurd ((hcall index).1 hnode.symm).1 hnew
  case root_lt =>
    intro id hid
    rw [size_push]
    obtain rfl | hid := List.mem_cons.1 hid
    · exact Nat.lt_succ_self _
    · have hlt := h.root_lt id (List.mem_append_right _ hid)
      exact Nat.lt_succ_of_lt (Nat.lt_of_lt_of_eq hlt hsize.symm)
  case one_parent =>
    have hfresh : (u.push node).1 ∉ (ids ++ roots) ++ t.links := by
      intro hmem
      have hlt : (u.push node).1 < t.size := (List.mem_append.1 hmem).elim (h.root_lt _) h.link_lt
      exact absurd hlt (Nat.not_lt_of_le (Nat.le_of_eq hsize.symm))
    have hperm : ((ids ++ roots) ++ t.links).Perm (roots ++ (t.links ++ ids)) := by
      rw [List.append_assoc, ← List.append_assoc roots]
      exact List.perm_append_comm
    rw [h.links_push hext hnodes, hids, List.cons_append, ← (hperm.cons _).nodup_iff]
    exact List.nodup_cons.2 ⟨hfresh, h.one_parent⟩

/-- A node that has neither arguments nor a call of an extension. -/
theorem Forest.push_plain {node : Node} (ids : List NodeId) (h : t.Forest (ids ++ roots))
    (hids : t.children node = ids) (hspan : ∀ function span, node ≠ .call function span)
    (hcall : ∀ index, node ≠ .extension index) :
    (t.push node).2.Forest ((t.push node).1 :: roots) :=
  h.push (.refl t) rfl hids (fun function span hn => absurd hn (hspan function span))
    fun index => ⟨fun hn => absurd hn (hcall index), fun hi => by omega⟩

theorem Forest.pushCall {ids : List NodeId} (h : t.Forest (ids ++ roots)) (function : Builtin) :
    (t.pushCall function ids).2.Forest ((t.pushCall function ids).1 :: roots) := by
  refine h.push (extends_args t ids) rfl ?_ ?_ ?_
  · exact argsOf_append t ids
  · rintro _ _ ⟨⟩
    simp [append_eq_append_toArray]
  · intro index
    simp only [reduceCtorEq, false_iff]
    omega

theorem Forest.pushExtension (call : ExtensionCall) (h : t.Forest (call.slots ++ roots)) :
    (t.pushExtension call).2.Forest ((t.pushExtension call).1 :: roots) := by
  refine h.push (extends_calls t call) rfl ?_ ?_ ?_
  · simp [children]
  · rintro _ _ ⟨⟩
  · intro index
    simp only [Node.extension.injEq, Array.size_push]
    omega

/-! ## Storing -/

mutual

/-- **A stored expression is one more root**, for any expression and any table. -/
theorem Forest.store {t : NodeTable} {roots : List NodeId} (h : t.Forest roots) : (e : Expr) →
    (t.store e).2.Forest ((t.store e).1 :: roots)
  | .number _ | .string _ | .path _ _ | .parameter _ =>
    Forest.push_plain [] h rfl (by simp) (by simp)
  | .call function args => (h.storeAll args).pushCall function
  | .extension function words slots =>
    Forest.pushExtension ⟨function, words, _⟩ (h.storeAll slots)
  | .binary left op right =>
    -- the right operand is stored last, so the roots stand in the other order
    have hboth := ((h.store left).store right).perm (.swap _ _ _)
    Forest.push_plain [_, _] hboth rfl (by simp) (by simp)
  | .signed sign operand =>
    Forest.push_plain [_] (h.store operand) rfl (by simp) (by simp)
  | .paren inner => Forest.push_plain [_] (h.store inner) rfl (by simp) (by simp)

theorem Forest.storeAll {t : NodeTable} {roots : List NodeId} (h : t.Forest roots) :
    (es : List Expr) → (t.storeAll es).2.Forest ((t.storeAll es).1 ++ roots)
  | [] => h
  | e :: es => ((h.store e).storeAll es).perm List.perm_middle

end

/-! ## Reading back -/

/-- Ids below `bound` that have expressions under them have a list of expressions. -/
theorem exists_representsAll {bound : NodeId} (h : ∀ id < bound, ∃ e, t.Represents e id) :
    ∀ ids : List NodeId, (∀ id ∈ ids, id < bound) → ∃ es, t.RepresentsAll es ids bound
  | [], _ => ⟨[], rfl⟩
  | id :: ids, hids => by
    obtain ⟨hid, hrest⟩ := List.forall_mem_cons.1 hids
    obtain ⟨e, he⟩ := h id hid
    obtain ⟨es, hes⟩ := exists_representsAll h ids hrest
    exact ⟨e :: es, id, ids, rfl, ⟨hid, he⟩, hes⟩

/-- Under every id of a forest is an expression. -/
theorem Forest.exists_represents (h : t.Forest roots) (id : NodeId) :
    id < t.size → ∃ e, t.Represents e id := by
  induction id using Nat.strongRecOn with
  | ind id ih =>
    intro hid
    have hn : t.nodes[id]? = some t.nodes[id] := Array.getElem?_eq_getElem hid
    generalize t.nodes[id] = node at hn
    have hlt := h.child_lt id node hn
    have hbelow : ∀ child < id, ∃ e, t.Represents e child := fun child hchild =>
      ih child hchild (Nat.lt_trans hchild hid)
    cases node with
    | number text => exact ⟨.number text, hn⟩
    | string contents => exact ⟨.string contents, hn⟩
    | path entity field => exact ⟨.path entity field, hn⟩
    | parameter text => exact ⟨.parameter text, hn⟩
    | call function span =>
      obtain ⟨es, hes⟩ := exists_representsAll hbelow (t.argsOf span) hlt
      exact ⟨.call function es, span, hn, h.span_le id function span hn, hes⟩
    | extension index =>
      obtain ⟨call, hcall⟩ : ∃ call, t.calls[index]? = some call :=
        ⟨_, Array.getElem?_eq_getElem (h.index_lt id index hn)⟩
      obtain ⟨es, hes⟩ := exists_representsAll hbelow call.slots
        (by simpa only [children, hcall, Option.elim_some] using hlt)
      exact ⟨.extension _ _ es, index, _, hn, hcall, hes⟩
    | binary left op right =>
      have hleft : left < id := hlt left (by simp [children])
      have hright : right < id := hlt right (by simp [children])
      obtain ⟨l, hl⟩ := hbelow left hleft
      obtain ⟨r, hr⟩ := hbelow right hright
      exact ⟨.binary l op r, left, right, hn, ⟨hleft, hl⟩, hright, hr⟩
    | signed sign operand =>
      have hoperand : operand < id := hlt operand (by simp [children])
      obtain ⟨e, he⟩ := hbelow operand hoperand
      exact ⟨.signed sign e, operand, hn, hoperand, he⟩
    | paren inner =>
      have hinner : inner < id := hlt inner (by simp [children])
      obtain ⟨e, he⟩ := hbelow inner hinner
      exact ⟨.paren e, inner, hn, hinner, he⟩

/-- What is written for an id stays the same when the table grows. -/
theorem Forest.exists_toSql? (h : t.Forest roots) (style : Style) {id : NodeId}
    (hid : id < t.size) : ∃ sql, ∀ u, t.Extends u → u.toSql? style id = some sql := by
  obtain ⟨e, he⟩ := h.exists_represents id hid
  refine ⟨e.toSql style, fun u hu => ?_⟩
  have hexpr : u.expr? id = some e :=
    exprWithin_of_represents (he.mono hu) (Nat.lt_of_lt_of_le hid hu.size_le)
  rw [toSql?_eq, hexpr, Option.map_some]

/-- The same for a call that is not in the table, if its slots are. -/
theorem Forest.exists_callToSql? (h : t.Forest roots) (style : Style) {call : ExtensionCall}
    (hslots : ∀ id ∈ call.slots, id < t.size) :
    ∃ sql, ∀ u, t.Extends u → u.callToSql? style call = some sql := by
  obtain ⟨es, hes⟩ := exists_representsAll h.exists_represents call.slots hslots
  refine ⟨(Expr.extension call.function call.words es).toSql style, fun u hu => ?_⟩
  have hmap : call.slots.mapM u.expr? = some es :=
    mapM_exprWithin_of_representsAll (hes.mono hu) hu.size_le
  simp only [callToSql?, mapM_toSql (toSql?_eq u style), hmap]
  rfl

/-- The fragments that are arguments are among all that are stored. -/
theorem storeFragments_sublist (t : NodeTable) (fragments : List Fragment) :
    (t.storeFragments fragments).1.Sublist (t.storeAll (fragments.map Fragment.expr)).1 := by
  induction fragments generalizing t with
  | nil => exact .refl _
  | cons e es ih =>
    have hes := ih (t.store e.expr).2
    rw [storeFragments]
    cases e.isArgument with
    | true => exact hes.cons_cons _
    | false => exact hes.cons _

end NodeTable

/-! ## Sessions -/

/-- The ids that an answer hands out. -/
def Answer.ids : Answer → List NodeId
  | .node id => [id]
  | .call made => made.slots
  | .token _ | .done => []

namespace Session

/-- What the steps that succeed answer, in turn. -/
def answers (s : Session) : List Step → List Answer
  | [] => []
  | what :: steps => (s.step what).1.toOption.toList ++ (s.step what).2.answers steps

section Steps

variable (s : Session)

/-- **A step stores some expressions in turn.** Some of their ids are handed out if it succeeds, and
some are kept on the stack of arguments if it fails. -/
theorem step_stores (what : Step) : ∃ es kept,
    (s.step what).2.table = (s.table.storeAll es).2 ∧
    (s.step what).2.scratch = s.scratch ++ kept.toArray ∧
    ((s.step what).1.toOption.toList.flatMap Answer.ids ++ kept).Sublist
      (s.table.storeAll es).1 := by
  cases hrun : what.treeParser s.catalog (maxNesting - s.depth) s.progress with
  | ok found progress =>
    rw [step_of_ok hrun, Parser.answering_snd]
    refine ⟨found.exprs, [], rfl, by simp [withParser, Parser.movedTo, Parser.storingAll], ?_⟩
    rw [List.append_nil]
    cases found with
    | token | done => exact .refl _
    | expr e => exact .refl _
    | call function words slots =>
      simp [Except.toOption, Parser.answering, Answer.ids, Parsed.exprs, Parser.storingAll]
  | error f progress =>
    rw [step_of_error hrun]
    refine ⟨f.exprs, (s.table.storeFragments f.fragments).1,
      s.table.storeFragments_snd f.fragments, rfl, ?_⟩
    exact s.table.storeFragments_sublist f.fragments

/-- **A step never changes what is in the table**, it only adds to it. -/
theorem step_extends (what : Step) : s.table.Extends (s.step what).2.table := by
  obtain ⟨es, -, htable, -⟩ := s.step_stores what
  rw [htable]
  exact (NodeTable.stores_storeAll s.table es).1

theorem run_extends (steps : List Step) : s.table.Extends (s.run steps).table := by
  induction steps generalizing s with
  | nil => exact .refl _
  | cons what steps ih => exact (s.step_extends what).trans (ih _)

variable {s} {roots : List NodeId}

/-- **A step keeps the table a forest.** What it hands out is a root from then on, and so is what it
keeps on the stack of arguments. -/
theorem step_forest (h : s.table.Forest (roots ++ s.scratch.toList)) (what : Step) :
    (s.step what).2.table.Forest
      ((s.step what).1.toOption.toList.flatMap Answer.ids ++ roots ++
        (s.step what).2.scratch.toList) := by
  obtain ⟨es, kept, htable, hscratch, hids⟩ := s.step_stores what
  have hstored := (h.storeAll es).sublist (hids.append_right _)
  rw [htable, hscratch]
  refine hstored.perm ?_
  generalize (s.step what).1.toOption.toList.flatMap Answer.ids = ids
  -- what is kept moves behind the roots and the older arguments
  have hmoved : (ids ++ kept ++ (roots ++ s.scratch.toList)).Perm
      (ids ++ (roots ++ s.scratch.toList ++ kept)) := by
    rw [List.append_assoc]
    exact List.perm_append_comm.append_left ids
  simpa [List.append_assoc] using hmoved

theorem run_forest (h : s.table.Forest (roots ++ s.scratch.toList)) (steps : List Step) :
    (s.run steps).table.Forest
      ((s.answers steps).flatMap Answer.ids ++ roots ++ (s.run steps).scratch.toList) := by
  induction steps generalizing s roots with
  | nil => exact h
  | cons what steps ih =>
    refine (ih (step_forest h what)).perm (.append_right _ ?_)
    rw [answers, List.flatMap_append, List.append_assoc]
    exact List.perm_append_comm_assoc _ _ _

/-- After any steps the table is a forest. What was handed out are roots of it, and so is what is
left on the stack of arguments. -/
theorem forest_run (catalog : Catalog) (text : String) (steps : List Step) :
    ((start catalog text).run steps).table.Forest
      (((start catalog text).answers steps).flatMap Answer.ids ++
        ((start catalog text).run steps).scratch.toList) := by
  have hempty : (start catalog text).table.Forest ([] ++ (start catalog text).scratch.toList) :=
    NodeTable.forest_empty
  simpa using run_forest hempty steps

end Steps

/-- **What a session stores is there once and for all.** After any steps, successful or not, the
table is a forest, and what was handed out or left on the stack of arguments is a root of it, each
only once: links lead to smaller ids, arguments are in place and those of different calls apart,
every call of an extension is that of one node, and nothing is referred to twice. A further step
adds to the table and changes nothing in it. So SQL can be written for every id, and for every call
that was handed out, and it stays the same for the rest of the session. -/
theorem stored_once_and_for_all (catalog : Catalog) (text : String) (steps : List Step) :
    let s := (start catalog text).run steps
    let answers := (start catalog text).answers steps
    s.table.Forest (answers.flatMap Answer.ids ++ s.scratch.toList) ∧
    (∀ what, s.table.Extends (s.step what).2.table) ∧
    ∀ style : Style,
      (∀ id < s.table.size, ∃ sql, ∀ more, (s.run more).table.toSql? style id = some sql) ∧
      ∀ call, .call call ∈ answers →
        ∃ sql, ∀ more, (s.run more).table.callToSql? style call = some sql := by
  intro s answers
  have hforest := forest_run catalog text steps
  refine ⟨hforest, s.step_extends, fun style => ⟨fun id hid => ?_, fun call hcall => ?_⟩⟩
  · obtain ⟨sql, hsql⟩ := hforest.exists_toSql? style hid
    exact ⟨sql, fun more => hsql _ (s.run_extends more)⟩
  · have hslots : ∀ id ∈ call.slots, id < s.table.size := fun id hid =>
      hforest.root_lt id (List.mem_append_left _ (List.mem_flatMap.2 ⟨.call call, hcall, hid⟩))
    obtain ⟨sql, hsql⟩ := hforest.exists_callToSql? style hslots
    exact ⟨sql, fun more => hsql _ (s.run_extends more)⟩

end Session

end Dql
