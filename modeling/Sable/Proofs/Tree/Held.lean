import Sable.Tree

/-! The nodes that a tree is made of, and the places that hold them.

A body, a declaration and a node hold nodes. Each node has a number, under which it stands among the nodes that
were made, and a node that holds another one has the greater number. -/
namespace Sable

/-- A node of either kind. -/
inductive TreeNode where
  | expr (e : Expr)
  | type (t : TypeExpr)

/-- The number of a node, among the nodes of its kind. -/
inductive TreeNode.Id where
  | expr (number : Nat)
  | type (number : Nat)
deriving DecidableEq

/-- Less among the numbers of one kind. -/
def TreeNode.Id.Below : Id → Id → Prop
  | expr i, expr j => i < j
  | type i, type j => i < j
  | _, _ => True

/-! ## What is held -/

/-- The types of the parameters. -/
def ParameterList.held (ps : ParameterList (Parameter TypeExpr)) : List TreeNode :=
  ps.toList.map fun p => .type p.type

/-- A type that may be left out. -/
def TypeExpr.held? (t : Option TypeExpr) : List TreeNode := t.toList.map .type

def TypeExpr.parts : TypeExpr → List TreeNode
  | named _ _ arguments => arguments.map .type
  | object _ fields => fields.map fun field => .type field.2
  | function _ _ ps result => ps.held ++ [.type result]
  | nullable _ inner => [.type inner]

def Expr.parts : Expr → List TreeNode
  | number .. | bigInteger .. | boolean .. | null _ | reference .. => []
  | object _ fields => fields.map fun field => .expr field.value
  | binary _ _ lhs rhs => [.expr lhs, .expr rhs]
  | unary _ _ operand => [.expr operand]
  | conditional _ condition thenBranch elseBranch => [.expr condition, .expr thenBranch, .expr elseBranch]
  | call _ callee types arguments => .expr callee :: types.map .type ++ arguments.map .expr
  | lambda _ _ ps result body => ps.held ++ TypeExpr.held? result ++ [.expr body]
  | field _ owner _ => [.expr owner]
  | tagged _ value _ | hasTag _ value _ | untag _ value => [.expr value]
  | cases _ scrutinee arms => .expr scrutinee :: arms.map fun arm => .expr arm.body

namespace TreeNode

def id : TreeNode → Id
  | expr e => .expr e.site.id
  | type t => .type t.site.id

/-- The nodes that the node holds. -/
def parts : TreeNode → List TreeNode
  | expr e => e.parts
  | type t => t.parts

/-- How many of the nodes have the number. -/
def count (id : Id) (nodes : List TreeNode) : Nat := (nodes.map TreeNode.id).count id

end TreeNode

mutual

/-- The nodes that a declaration holds, those in the body of a function included. -/
def Declaration.held : Declaration → List TreeNode
  | .value _ _ type value => TypeExpr.held? type ++ [.expr value]
  | .function _ _ _ ps result body => ps.held ++ TypeExpr.held? result ++ body.held
  | .external _ _ _ ps result => ps.held ++ [.type result]
  | .alias _ _ _ target => [.type target]
  | .union _ _ _ alternatives => alternatives.map fun a => .type a.payload

/-- The nodes that a body and its declarations hold. -/
def Body.held : Body → List TreeNode
  | .mk declarations result _ => Declaration.heldByAll declarations ++ [.expr result]

def Declaration.heldByAll : List Declaration → List TreeNode
  | [] => []
  | d :: rest => d.held ++ Declaration.heldByAll rest

end

theorem Declaration.heldByAll_append (ds rest : List Declaration) :
    heldByAll (ds ++ rest) = heldByAll ds ++ heldByAll rest := by
  induction ds with
  | nil => rfl
  | cons d ds ih => rw [List.cons_append, heldByAll, heldByAll, ih, List.append_assoc]

/-! ## Counting -/

namespace TreeNode

variable (id : Id)

@[simp] theorem count_nil : count id [] = 0 := rfl

@[simp] theorem count_append (xs ys : List TreeNode) : count id (xs ++ ys) = count id xs + count id ys := by
  rw [count, List.map_append, List.count_append]
  rfl

theorem count_singleton (node : TreeNode) : count id [node] = if node.id = id then 1 else 0 := by
  rw [count, List.map_singleton, List.count_singleton]
  simp only [beq_iff_eq]

theorem count_perm {xs ys : List TreeNode} (h : xs.Perm ys) : count id xs = count id ys := (h.map _).count_eq id

end TreeNode

/-! ## The nodes made -/

namespace Nodes

/-- The node that has the number. -/
def get? (n : Nodes) : TreeNode.Id → Option TreeNode
  | .expr i => n.expressions[i]?.map .expr
  | .type i => n.types[i]?.map .type

def toList (n : Nodes) : List TreeNode := n.expressions.toList.map .expr ++ n.types.toList.map .type

/-- The nodes that some node holds, as often as nodes hold them. -/
def held (n : Nodes) : List TreeNode := n.toList.flatMap TreeNode.parts

/-- How many nodes have the number: one or none. -/
def tally (n : Nodes) (id : TreeNode.Id) : Nat := if (n.get? id).isSome then 1 else 0

/-- The number of the next node of the same kind. -/
def next (n : Nodes) : TreeNode → TreeNode.Id
  | .expr _ => .expr n.expressions.size
  | .type _ => .type n.types.size

/-- With one more node. -/
def push (n : Nodes) : TreeNode → Nodes
  | .expr e => { n with expressions := n.expressions.push e }
  | .type t => { n with types := n.types.push t }

/-- Every node is there under the same number. -/
def Within (n m : Nodes) : Prop := ∀ id node, n.get? id = some node → m.get? id = some node

/-- Nodes stand under their own numbers and hold nodes that stand there, too, under smaller ones. -/
structure Sound (n : Nodes) : Prop where
  numbered : ∀ id node, n.get? id = some node → node.id = id
  descending : ∀ node ∈ n.toList, ∀ part ∈ node.parts, part.id.Below node.id
  present : ∀ part ∈ n.held, n.get? part.id = some part

variable {n m : Nodes} {node : TreeNode}

theorem Within.refl (n : Nodes) : n.Within n := fun _ _ h => h

theorem Within.trans {l : Nodes} (h : l.Within n) (h' : n.Within m) : l.Within m :=
  fun id node hnode => h' id node (h id node hnode)

theorem get?_push (n : Nodes) (node : TreeNode) (id : TreeNode.Id) :
    (n.push node).get? id = if id = n.next node then some node else n.get? id := by
  cases node <;> cases id <;> simp only [push, get?, next, Array.getElem?_push, reduceCtorEq, if_false,
    TreeNode.Id.expr.injEq, TreeNode.Id.type.injEq]
  all_goals split <;> rfl

theorem get?_next (n : Nodes) (node : TreeNode) : n.get? (n.next node) = none := by
  cases node <;> simp [get?, next]

theorem within_push (n : Nodes) (node : TreeNode) : n.Within (n.push node) := by
  intro id other h
  rw [get?_push, if_neg]
  · exact h
  · rintro rfl
    rw [get?_next] at h
    cases h

theorem toList_push (n : Nodes) (node : TreeNode) : (n.push node).toList.Perm (n.toList ++ [node]) := by
  cases node with
  | expr e =>
      simp only [push, toList, Array.toList_push, List.map_append, List.append_assoc]
      exact (List.perm_append_comm).append_left _
  | type t =>
      simp only [push, toList, Array.toList_push, List.map_append, List.append_assoc]
      exact .refl _

theorem held_push (n : Nodes) (node : TreeNode) : (n.push node).held.Perm (n.held ++ node.parts) := by
  have h := (n.toList_push node).flatMap_right TreeNode.parts
  rwa [List.flatMap_append, List.flatMap_singleton] at h

theorem tally_le_one (n : Nodes) (id : TreeNode.Id) : n.tally id ≤ 1 := by
  rw [tally]
  split <;> omega

theorem tally_push (n : Nodes) (node : TreeNode) (id : TreeNode.Id) :
    (n.push node).tally id = n.tally id + if n.next node = id then 1 else 0 := by
  rw [tally, get?_push]
  by_cases h : id = n.next node
  · simp [h, tally, get?_next]
  · simp [h, Ne.symm h, tally]

/-- The numbers of the nodes that are there are below the next ones. -/
theorem below_next {id : TreeNode.Id} {other : TreeNode} (h : n.get? id = some other) (node : TreeNode) :
    id.Below (n.next node) := by
  cases id <;> cases node <;> simp only [get?, Option.map_eq_some_iff] at h <;>
    simp only [next, TreeNode.Id.Below]
  all_goals
    obtain ⟨_, h, -⟩ := h
    exact (Array.getElem?_eq_some_iff.mp h).1

/-- A node may be added that holds nodes which are there. -/
theorem Sound.push (h : n.Sound) (hid : node.id = n.next node)
    (hparts : ∀ part ∈ node.parts, n.get? part.id = some part) : (n.push node).Sound := by
  refine ⟨fun id other hother => ?_, fun other hother part hpart => ?_, fun part hpart => ?_⟩
  · rw [get?_push] at hother
    split at hother
    · rename_i hnext
      cases hother
      rw [hid, hnext]
    · exact h.numbered id other hother
  · rcases List.mem_append.mp ((n.toList_push node).mem_iff.mp hother) with hother | hother
    · exact h.descending other hother part hpart
    · obtain rfl := List.mem_singleton.mp hother
      rw [hid]
      exact below_next (hparts part hpart) other
  · rcases List.mem_append.mp ((n.held_push node).mem_iff.mp hpart) with hpart | hpart
    · exact within_push n node _ _ (h.present part hpart)
    · exact within_push n node _ _ (hparts part hpart)

end Nodes

/-! ## Trees -/

namespace Tree

/-- The nodes that the body, its declarations and all nodes that were made hold, as often as they are held. -/
def held (tree : Tree) : List TreeNode := tree.body.held ++ tree.nodes.held

/-- The tree lies in its nodes: each stands under its own number, and so does each that is held, under a smaller
number than the node that holds it. No node is held in two places. -/
structure Arranged (tree : Tree) : Prop where
  numbered : ∀ id node, tree.nodes.get? id = some node → node.id = id
  present : ∀ node ∈ tree.held, tree.nodes.get? node.id = some node
  descending : ∀ node ∈ tree.nodes.toList, ∀ part ∈ node.parts, part.id.Below node.id
  once : ∀ id, TreeNode.count id tree.held ≤ 1

/-- Every node that was made is held in one place. -/
def Filled (tree : Tree) : Prop :=
  ∀ id node, tree.nodes.get? id = some node → TreeNode.count id tree.held = 1

/-- A measure of the nodes: below a type there are types, of smaller numbers, and below an expression expressions of
smaller numbers, and types. -/
def rank (tree : Tree) : TreeNode.Id → Nat
  | .expr i => tree.types + i
  | .type i => i

end Tree

theorem Nodes.mem_toList_of_get? {n : Nodes} {id : TreeNode.Id} {node : TreeNode} (h : n.get? id = some node) :
    node ∈ n.toList := by
  rw [toList, List.mem_append, List.mem_map, List.mem_map]
  cases id <;> obtain ⟨found, hfound, rfl⟩ := Option.map_eq_some_iff.mp h
  · exact .inl ⟨found, Array.mem_toList_iff.mpr (Array.mem_of_getElem? hfound), rfl⟩
  · exact .inr ⟨found, Array.mem_toList_iff.mpr (Array.mem_of_getElem? hfound), rfl⟩

theorem TypeExpr.eq_type_of_mem_parts {t : TypeExpr} {part : TreeNode} (h : part ∈ t.parts) :
    ∃ inner, part = .type inner := by
  cases t <;> simp only [parts, ParameterList.held, List.mem_append, List.mem_map, List.mem_singleton] at h
  · obtain ⟨inner, -, rfl⟩ := h
    exact ⟨inner, rfl⟩
  · obtain ⟨field, -, rfl⟩ := h
    exact ⟨_, rfl⟩
  · rcases h with ⟨p, -, rfl⟩ | rfl
    · exact ⟨_, rfl⟩
    · exact ⟨_, rfl⟩
  · exact ⟨_, h⟩

namespace Tree

variable {tree : Tree} {id : TreeNode.Id} {node part : TreeNode}

theorem rank_lt_of_get? (h : tree.nodes.get? id = some node) : tree.rank id < tree.types + tree.expressions := by
  cases id <;> obtain ⟨_, hget, -⟩ := Option.map_eq_some_iff.mp h
  · exact Nat.add_lt_add_left (Array.getElem?_eq_some_iff.mp hget).1 _
  · exact Nat.lt_add_right _ (Array.getElem?_eq_some_iff.mp hget).1

namespace Arranged

/-- What a node holds is there, too. -/
theorem get?_of_mem_parts (h : tree.Arranged) (hnode : tree.nodes.get? id = some node) (hpart : part ∈ node.parts) :
    tree.nodes.get? part.id = some part :=
  h.present part (List.mem_append_right _ (List.mem_flatMap.mpr ⟨node, Nodes.mem_toList_of_get? hnode, hpart⟩))

/-- Going down from a node comes to an end. -/
theorem rank_lt (h : tree.Arranged) (hnode : tree.nodes.get? id = some node) (hpart : part ∈ node.parts) :
    tree.rank part.id < tree.rank id := by
  have hbelow := h.descending node (Nodes.mem_toList_of_get? hnode) part hpart
  have hpresent := h.get?_of_mem_parts hnode hpart
  obtain rfl := h.numbered id node hnode
  cases node with
  | expr e =>
      cases part with
      | expr inner => exact Nat.add_lt_add_left hbelow _
      | type inner =>
          obtain ⟨_, hget, -⟩ := Option.map_eq_some_iff.mp hpresent
          exact Nat.lt_add_right _ (Array.getElem?_eq_some_iff.mp hget).1
  | type t =>
      obtain ⟨inner, rfl⟩ := TypeExpr.eq_type_of_mem_parts hpart
      exact hbelow

end Arranged

end Tree

end Sable
