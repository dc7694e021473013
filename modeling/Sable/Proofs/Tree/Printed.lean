import Sable.Proofs.Tree.Held
import Sable.Tree.Dump

/-! Dumps made from the nodes alone.

The text of a node has gaps, and into each of them goes the dump of a node that it holds. A dump can be made by the
numbers of those: each is looked up among the nodes that were made. In a tree that lies in its nodes every look-up
finds a node and the way down comes to an end, and what is made is the dump of the tree. -/
namespace Sable

/-- A piece of a dump: text, or a gap for the dump of a node. -/
inductive Fragment where
  | text (s : String)
  | gap (node : TreeNode)

namespace Fragment

/-- With one blank between each two. -/
def spread (parts : List (List Fragment)) : List Fragment := List.intercalate [text " "] parts

/-- The nodes whose dumps go into the gaps. -/
def gaps (fragments : List Fragment) : List TreeNode :=
  fragments.filterMap fun
    | text _ => none
    | gap node => some node

end Fragment

/-! ## The text around the gaps -/

section

open Fragment

def Parameter.fragments (p : Parameter TypeExpr) : List Fragment :=
  [text ("(" ++ p.name.value ++ " : "), gap (.type p.type), text ")"]

def ParameterList.fragments : ParameterList (Parameter TypeExpr) → List Fragment
  | .fixed ps => text "(" :: spread (ps.map (·.fragments)) ++ [text ")"]
  | .variadic p => [text ("((..." ++ p.name.value ++ " : "), gap (.type p.type), text "))"]

namespace TypeExpr

/-- The type after a colon, or nothing. -/
def annotationFragments : Option TypeExpr → List Fragment
  | some type => [text " : ", gap (.type type)]
  | none => []

def fragments : TypeExpr → List Fragment
  | named _ name arguments =>
    if arguments.isEmpty then [text name]
    else text ("(" ++ name) :: arguments.flatMap (fun type => [text " ", gap (.type type)]) ++ [text ")"]
  | object _ fields =>
    text "\x7b" :: spread (fields.map fun field => [text (":" ++ field.1 ++ " "), gap (.type field.2)])
      ++ [text "\x7d"]
  | function _ names ps result =>
    text ("(Fn" ++ names.dump ++ " ") :: ps.fragments ++ [text " ", gap (.type result), text ")"]
  | nullable _ inner => [text "(Nullable ", gap (.type inner), text ")"]

end TypeExpr

def Expr.fragments : Expr → List Fragment
  | number _ x => [text (numberText .source x)]
  | bigInteger _ digits => [text (digits ++ "n")]
  | boolean _ b => [text (if b then "true" else "false")]
  | null _ => [text "null"]
  | object _ fields =>
    text "\x7b" :: spread (fields.map fun field => [text (":" ++ field.name ++ " "), gap (.expr field.value)])
      ++ [text "\x7d"]
  | reference _ name => [text name]
  | binary _ op lhs rhs => [text ("(" ++ op.symbol ++ " "), gap (.expr lhs), text " ", gap (.expr rhs), text ")"]
  | unary _ op operand => [text ("(" ++ op.symbol ++ " "), gap (.expr operand), text ")"]
  | conditional _ condition thenBranch elseBranch =>
    [text "(if ", gap (.expr condition), text " ", gap (.expr thenBranch), text " ", gap (.expr elseBranch), text ")"]
  | call _ callee types arguments =>
    text "(" :: gap (.expr callee) ::
      (if types.isEmpty then [] else text " [" :: spread (types.map fun type => [gap (.type type)]) ++ [text "]"])
      ++ arguments.flatMap (fun argument => [text " ", gap (.expr argument)]) ++ [text ")"]
  | lambda _ names ps result body =>
    text ("(fn" ++ names.dump ++ " ") :: ps.fragments ++ TypeExpr.annotationFragments result
      ++ [text " ", gap (.expr body), text ")"]
  | field _ owner name => [text ("(." ++ name ++ " "), gap (.expr owner), text ")"]
  | tagged _ value tag => [text "(tag ", gap (.expr value), text (" " ++ tag ++ ")")]
  | hasTag _ value tag => [text "(is ", gap (.expr value), text (" " ++ tag ++ ")")]
  | untag _ value => [text "(untag ", gap (.expr value), text ")"]
  | cases _ scrutinee arms =>
    text "(match " :: gap (.expr scrutinee) :: arms.flatMap (fun arm =>
      [text (" (" ++ arm.tag.value ++ " " ++ arm.binding.value ++ " "), gap (.expr arm.body), text ")"]) ++ [text ")"]

mutual

def Declaration.fragments (depth : Nat) : Declaration → List Fragment
  | .value _ name type value =>
    text (indent depth ++ "(val " ++ name.value) :: TypeExpr.annotationFragments type
      ++ [text " ", gap (.expr value), text ")\n"]
  | .function _ name names ps result body =>
    text (indent depth ++ "(def " ++ name.value ++ names.dump ++ " ") :: ps.fragments
      ++ TypeExpr.annotationFragments result ++ text "\n" :: body.fragments (depth + 1)
      ++ [text (indent depth ++ ")\n")]
  | .external _ name names ps result =>
    text (indent depth ++ "(external def " ++ name.value ++ names.dump ++ " ") :: ps.fragments
      ++ [text " : ", gap (.type result), text ")\n"]
  | .alias _ name names target =>
    [text (indent depth ++ "(type " ++ name.value ++ names.dump ++ " "), gap (.type target), text ")\n"]
  | .union _ name names alternatives =>
    text (indent depth ++ "(union " ++ name.value ++ names.dump) :: alternatives.flatMap (fun a =>
      [text (" (" ++ a.tag ++ " "), gap (.type a.payload), text ")"]) ++ [text ")\n"]

def Declaration.allFragments (depth : Nat) : List Declaration → List Fragment
  | [] => []
  | d :: rest => d.fragments depth ++ Declaration.allFragments depth rest

def Body.fragments (depth : Nat) : Body → List Fragment
  | .mk declarations result _ =>
    Declaration.allFragments depth declarations
      ++ [text (indent depth ++ "(return "), gap (.expr result), text ")\n"]

end

end

namespace TreeNode

def dump : TreeNode → String
  | expr e => e.dump
  | type t => t.dump

def fragments : TreeNode → List Fragment
  | expr e => e.fragments
  | type t => t.fragments

end TreeNode

/-! ## Gaps -/

namespace Fragment

@[simp] theorem gaps_nil : gaps [] = [] := rfl

@[simp] theorem gaps_text (s : String) (rest : List Fragment) : gaps (text s :: rest) = gaps rest := rfl

@[simp] theorem gaps_gap (node : TreeNode) (rest : List Fragment) : gaps (gap node :: rest) = node :: gaps rest := rfl

@[simp] theorem gaps_append (xs ys : List Fragment) : gaps (xs ++ ys) = gaps xs ++ gaps ys := List.filterMap_append

@[simp] theorem gaps_flatMap {α : Type} (xs : List α) (f : α → List Fragment) :
    gaps (xs.flatMap f) = xs.flatMap fun x => gaps (f x) := by
  induction xs with
  | nil => rfl
  | cons x xs ih => rw [List.flatMap_cons, gaps_append, ih, List.flatMap_cons]

@[simp] theorem gaps_spread (parts : List (List Fragment)) : gaps (spread parts) = parts.flatMap gaps := by
  induction parts with
  | nil => rfl
  | cons part rest ih =>
      cases rest with
      | nil => simp [spread]
      | cons next rest =>
          rw [spread, List.intercalate_cons_cons, gaps_append, gaps_append, List.flatMap_cons, ← ih]
          simp [spread]

end Fragment

open Fragment

/-! ### What the gaps are for -/

@[simp] theorem ParameterList.gaps_fragments (ps : ParameterList (Parameter TypeExpr)) :
    gaps ps.fragments = ps.held := by
  cases ps with
  | fixed ps =>
      simp [fragments, held, Parameter.fragments, List.flatMap_map, toList, ← List.map_eq_flatMap]
  | variadic p => rfl

@[simp] theorem TypeExpr.gaps_annotationFragments (t : Option TypeExpr) : gaps (annotationFragments t) = held? t := by
  cases t <;> rfl

theorem TypeExpr.gaps_fragments (t : TypeExpr) : gaps t.fragments = t.parts := by
  cases t with
  | named _ name arguments =>
      cases arguments <;> simp [fragments, parts, ← List.map_eq_flatMap]
  | object _ fields => simp [fragments, parts, List.flatMap_map, ← List.map_eq_flatMap]
  | function _ names ps result => simp [fragments, parts]
  | nullable _ inner => rfl

theorem Expr.gaps_fragments (e : Expr) : gaps e.fragments = e.parts := by
  cases e with
  | object _ fields => simp [fragments, parts, List.flatMap_map, ← List.map_eq_flatMap]
  | call _ callee types arguments =>
      cases types <;> simp [fragments, parts, List.flatMap_map, ← List.map_eq_flatMap]
  | lambda _ names ps result body => simp [fragments, parts]
  | cases _ scrutinee arms => simp [fragments, parts, ← List.map_eq_flatMap]
  | _ => rfl

/-- The gaps of a node are for those it holds. -/
theorem TreeNode.gaps_fragments (node : TreeNode) : gaps node.fragments = node.parts := by
  cases node with
  | expr e => exact e.gaps_fragments
  | type t => exact t.gaps_fragments

mutual

theorem Declaration.gaps_fragments (depth : Nat) : ∀ d : Declaration, gaps (d.fragments depth) = d.held
  | .value .. | .external .. => by simp [Declaration.fragments, Declaration.held]
  | .function _ _ _ _ _ body => by
      simp [Declaration.fragments, Declaration.held, body.gaps_fragments (depth + 1)]
  | .alias .. => rfl
  | .union .. => by simp [Declaration.fragments, Declaration.held, ← List.map_eq_flatMap]

theorem Declaration.gaps_allFragments (depth : Nat) : ∀ ds : List Declaration,
    gaps (Declaration.allFragments depth ds) = Declaration.heldByAll ds
  | [] => rfl
  | d :: rest => by
      rw [Declaration.allFragments, gaps_append, d.gaps_fragments, Declaration.gaps_allFragments depth rest,
        Declaration.heldByAll]

/-- The gaps of a body are for the nodes that it and its declarations hold. -/
theorem Body.gaps_fragments (depth : Nat) : ∀ b : Body, gaps (b.fragments depth) = b.held
  | .mk declarations result _ => by
      simp [Body.fragments, Body.held, Declaration.gaps_allFragments depth declarations]

end

/-! ## Filled gaps -/

namespace Fragment

def dump : Fragment → String
  | text s => s
  | gap node => node.dump

/-- The pieces one after the other. -/
def dumpAll (fragments : List Fragment) : String := String.join (fragments.map dump)

@[simp] theorem dump_text (s : String) : (text s).dump = s := rfl

@[simp] theorem dump_expr (e : Expr) : (gap (.expr e)).dump = e.dump := rfl

@[simp] theorem dump_type (t : TypeExpr) : (gap (.type t)).dump = t.dump := rfl

@[simp] theorem dumpAll_nil : dumpAll [] = "" := rfl

@[simp] theorem dumpAll_cons (x : Fragment) (rest : List Fragment) : dumpAll (x :: rest) = x.dump ++ dumpAll rest :=
  String.join_cons

@[simp] theorem dumpAll_append (xs ys : List Fragment) : dumpAll (xs ++ ys) = dumpAll xs ++ dumpAll ys := by
  rw [dumpAll, List.map_append, String.join_append, dumpAll, dumpAll]

@[simp] theorem dumpAll_flatMap {α : Type} (xs : List α) (f : α → List Fragment) :
    dumpAll (xs.flatMap f) = String.join (xs.map fun x => dumpAll (f x)) := by
  induction xs with
  | nil => rfl
  | cons x xs ih => rw [List.flatMap_cons, dumpAll_append, ih, List.map_cons, String.join_cons]

@[simp] theorem dumpAll_spread (parts : List (List Fragment)) :
    dumpAll (spread parts) = spaced (parts.map dumpAll) := by
  induction parts with
  | nil => rfl
  | cons part rest ih =>
      cases rest with
      | nil => simp [spread, spaced]
      | cons next rest =>
          rw [spread, List.intercalate_cons_cons, dumpAll_append, dumpAll_append, ← spread, ih]
          simp [spaced]

end Fragment

/-! ### Types -/

namespace TypeExpr

theorem dumpArguments_eq_join (arguments : List TypeExpr) :
    dumpArguments arguments = String.join (arguments.map fun type => " " ++ type.dump) := by
  induction arguments with
  | nil => rfl
  | cons type rest ih => rw [dumpArguments, ih, List.map_cons, String.join_cons]

theorem dumpFields_eq_map (fields : List (String × TypeExpr)) :
    dumpFields fields = fields.map fun field => ":" ++ field.1 ++ " " ++ field.2.dump := by
  induction fields with
  | nil => rfl
  | cons field rest ih => rw [dumpFields, ih, List.map_cons]

theorem dumpEach_eq_map (ps : List (Parameter TypeExpr)) :
    dumpEach ps = ps.map fun p => "(" ++ p.name.value ++ " : " ++ p.type.dump ++ ")" := by
  induction ps with
  | nil => rfl
  | cons p rest ih => rw [dumpEach, ih, List.map_cons]

@[simp] theorem dumpAll_parameters (ps : ParameterList (Parameter TypeExpr)) :
    dumpAll ps.fragments = dumpParameters ps := by
  cases ps <;> simp [ParameterList.fragments, dumpParameters, dumpEach_eq_map, Parameter.fragments,
    Function.comp_def, String.append_assoc]

@[simp] theorem dumpAll_annotation (t : Option TypeExpr) : dumpAll (annotationFragments t) = dumpAnnotation t := by
  cases t <;> simp [annotationFragments, dumpAnnotation]

theorem dumpAll_fragments (t : TypeExpr) : dumpAll t.fragments = t.dump := by
  cases t with
  | named _ name arguments =>
      cases arguments <;> simp [fragments, dump, dumpArguments_eq_join, String.append_assoc]
  | object _ fields => simp [fragments, dump, dumpFields_eq_map, Function.comp_def, String.append_assoc]
  | function _ names ps result => simp [fragments, dump, String.append_assoc]
  | nullable _ inner => simp [fragments, dump, String.append_assoc]

end TypeExpr

/-! ### Expressions -/

namespace Expr

theorem dumpArguments_eq_join (arguments : List Expr) :
    dumpArguments arguments = String.join (arguments.map fun argument => " " ++ argument.dump) := by
  induction arguments with
  | nil => rfl
  | cons argument rest ih => rw [dumpArguments, ih, List.map_cons, String.join_cons]

theorem dumpFields_eq_map (fields : List (FieldInit Expr)) :
    dumpFields fields = fields.map fun field => ":" ++ field.name ++ " " ++ field.value.dump := by
  induction fields with
  | nil => rfl
  | cons field rest ih => rw [dumpFields, ih, List.map_cons]

theorem dumpArms_eq_join (arms : List (MatchArm Expr)) : dumpArms arms = String.join (arms.map fun arm =>
    " (" ++ arm.tag.value ++ " " ++ arm.binding.value ++ " " ++ arm.body.dump ++ ")") := by
  induction arms with
  | nil => rfl
  | cons arm rest ih => rw [dumpArms, ih, List.map_cons, String.join_cons]

theorem dumpAll_fragments (e : Expr) : dumpAll e.fragments = e.dump := by
  cases e with
  | object _ fields => simp [fragments, dump, dumpFields_eq_map, Function.comp_def, String.append_assoc]
  | call _ callee types arguments =>
      cases types <;> simp [fragments, dump, dumpArguments_eq_join, Function.comp_def, String.append_assoc]
  | cases _ scrutinee arms => simp [fragments, dump, dumpArms_eq_join, String.append_assoc]
  | _ => simp [fragments, dump, String.append_assoc]

end Expr

/-- A node's dump is its text with the dumps of the nodes that it holds in the gaps. -/
theorem TreeNode.dumpAll_fragments (node : TreeNode) : dumpAll node.fragments = node.dump := by
  cases node with
  | expr e => exact e.dumpAll_fragments
  | type t => exact t.dumpAll_fragments

/-! ### Declarations -/

mutual

theorem Declaration.dumpAll_fragments (depth : Nat) : ∀ d : Declaration, dumpAll (d.fragments depth) = d.dump depth
  | .value .. | .external .. | .alias .. => by
      simp [Declaration.fragments, Declaration.dump, String.append_assoc]
  | .function _ _ _ _ _ body => by
      simp [Declaration.fragments, Declaration.dump, body.dumpAll_fragments (depth + 1), String.append_assoc]
  | .union .. => by simp [Declaration.fragments, Declaration.dump, Alternative.dumpAll, String.append_assoc]

theorem Declaration.dumpAll_allFragments (depth : Nat) : ∀ ds : List Declaration,
    Fragment.dumpAll (Declaration.allFragments depth ds) = Declaration.dumpAll depth ds
  | [] => rfl
  | d :: rest => by
      rw [Declaration.allFragments, Fragment.dumpAll_append, d.dumpAll_fragments,
        Declaration.dumpAll_allFragments depth rest, Declaration.dumpAll]

/-- The dump of a body is its text with the dumps of the nodes in the gaps. -/
theorem Body.dumpAll_fragments (depth : Nat) : ∀ b : Body, dumpAll (b.fragments depth) = b.dump depth
  | .mk declarations result _ => by
      simp [Body.fragments, Body.dump, Declaration.dumpAll_allFragments depth declarations, String.append_assoc]

end

/-! ## Dumps by numbers -/

namespace Fragment

/-- The piece with the gap filled by what is found under the number of its node, if anything is. -/
def print (find : TreeNode.Id → Option String) : Fragment → Option String
  | text s => some s
  | gap node => find node.id

def printAll (find : TreeNode.Id → Option String) : List Fragment → Option String
  | [] => some ""
  | x :: rest => do
    let s ← x.print find
    let others ← printAll find rest
    pure (s ++ others)

theorem printAll_eq {find : TreeNode.Id → Option String} {fragments : List Fragment}
    (h : ∀ node ∈ gaps fragments, find node.id = some node.dump) : printAll find fragments = some (dumpAll fragments) := by
  induction fragments with
  | nil => rfl
  | cons x rest ih =>
      cases x with
      | text s => rw [printAll, ih h, dumpAll_cons]; rfl
      | gap node =>
          rw [gaps_gap, List.forall_mem_cons] at h
          rw [printAll, ih h.2, print, h.1, dumpAll_cons]; rfl

end Fragment

/-- The dump of the node of a number, made from the nodes alone. There is none if a number is met that no node has,
nor if `steps` nodes, one below the other, are not enough. -/
def Nodes.print (n : Nodes) : (steps : Nat) → TreeNode.Id → Option String
  | 0, _ => none
  | steps + 1, id => do
    let node ← n.get? id
    Fragment.printAll (n.print steps) node.fragments

/-- The dump of a tree by the numbers of the nodes. No more nodes can stand one below the other than there are. -/
def Tree.print (tree : Tree) : Option String :=
  Fragment.printAll (tree.nodes.print (tree.types + tree.expressions)) (tree.body.fragments 0)

namespace Tree.Arranged

variable {tree : Tree}

/-- Every node's dump is made, from the nodes of smaller rank up. -/
theorem print_node (h : tree.Arranged) {steps : Nat} {id : TreeNode.Id} {node : TreeNode}
    (hnode : tree.nodes.get? id = some node) (hsteps : tree.rank id < steps) :
    tree.nodes.print steps id = some node.dump := by
  induction steps generalizing id node with
  | zero => exact absurd hsteps (Nat.not_lt_zero _)
  | succ steps ih =>
      have hparts : ∀ part ∈ gaps node.fragments, tree.nodes.print steps part.id = some part.dump := by
        intro part hpart
        rw [node.gaps_fragments] at hpart
        exact ih (h.get?_of_mem_parts hnode hpart) (Nat.lt_of_lt_of_le (h.rank_lt hnode hpart) (Nat.le_of_lt_succ hsteps))
      rw [Nodes.print, hnode, Option.bind_eq_bind, Option.bind_some, printAll_eq hparts, node.dumpAll_fragments]

/-- A tree that lies in its nodes can be printed by their numbers: none is met that no node has, and the way down
comes to an end. -/
theorem print_eq (h : tree.Arranged) : tree.print = some tree.dump := by
  have hbody : ∀ node ∈ gaps (tree.body.fragments 0),
      tree.nodes.print (tree.types + tree.expressions) node.id = some node.dump := by
    intro node hnode
    rw [tree.body.gaps_fragments] at hnode
    have hpresent := h.present node (List.mem_append_left _ hnode)
    exact h.print_node hpresent (rank_lt_of_get? hpresent)
  rw [print, printAll_eq hbody, tree.body.dumpAll_fragments, dump]

end Tree.Arranged

end Sable
