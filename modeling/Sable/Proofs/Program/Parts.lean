import Mathlib.Logic.Relation
import Sable.Proofs.Program.Scoped

/-! The parts of a program, nodes and bindings, and how they lie in each other and hang together. -/
namespace Sable.Program

/-- A node or a binding. -/
inductive Part where
  | node (id : NodeId)
  | binding (id : BindingId)
deriving DecidableEq, Repr

/-- The bindings of a body and the node they lead up to. -/
def bodyParts (body : FunctionBody) : List Part :=
  body.bindings.map .binding ++ [.node body.result]

/-- The bindings of the parameters, and the body. -/
def functionParts (s : Signature) (body : Option FunctionBody) : List Part :=
  s.parameters.map .binding ++ body.toList.flatMap bodyParts

/-- The binding of the payload, and the body. -/
def armParts (arm : Arm) : List Part := [.binding arm.binding, .node arm.body]

variable (p : Program)

/-! ## Parts within parts -/

/-- The parts directly inside a part. -/
def parts : Part → List Part
  | .node id =>
    match (p.node id).form with
    | .lambda s body => functionParts s (some body)
    | .cases scrutinee arms => .node scrutinee :: arms.flatMap armParts
    | form => (children form).map .node
  | .binding id =>
    match p.binding id with
    | .value _ _ _ node => [.node node]
    | .function _ _ s body => functionParts s body
    | .parameter .. | .payload .. => []

/-- A part lies inside another, at any depth, or is the same. -/
abbrev Inside (part inner : Part) : Prop :=
  Relation.ReflTransGen (fun outer inner => inner ∈ p.parts outer) part inner

/-- What holds of all that is inside a part holds of the part itself and inside its parts. -/
theorem forall_inside_iff {V : Part → Prop} {part : Part} : (∀ inner, p.Inside part inner → V inner) ↔
    V part ∧ ∀ inner ∈ p.parts part, ∀ deep, p.Inside inner deep → V deep := by
  constructor
  · exact fun h => ⟨h part .refl, fun inner hinner deep hdeep => h deep (hdeep.head hinner)⟩
  · rintro ⟨hown, hparts⟩ inner hinside
    rcases Relation.ReflTransGen.cases_head hinside with rfl | ⟨next, hnext, hinner⟩
    · exact hown
    · exact hparts next hnext inner hinner

/-- The type parameters that a part brings into scope inside. -/
def typeParameters : Part → List TypeVariable
  | .node id =>
    match (p.node id).form with
    | .lambda s _ => s.typeVariables
    | _ => []
  | .binding id =>
    match p.binding id with
    | .function _ _ s _ => s.typeVariables
    | _ => []

/-! ## Types that depend on types -/

/-- The nodes whose types decide on the type of a function. -/
def signatureAsks (s : Signature) (body : Option FunctionBody) : List NodeId :=
  if s.result.isSome then [] else body.toList.map (·.result)

/-- The nodes whose types decide on the type of a binding. -/
def bindingAsks (id : BindingId) : List NodeId :=
  match p.binding id with
  | .value _ _ type node => if type.isSome then [] else [node]
  | .function _ _ s body => signatureAsks s body
  | .parameter .. => []
  | .payload _ _ scrutinee _ => [scrutinee]

/-- The nodes whose types decide on the type of a name. A function seen from inside its own body never
needs that body. -/
def targetAsks : Target → List NodeId
  | .enclosing id =>
    match p.binding id with
    | .function .. => []
    | _ => p.bindingAsks id
  | target => p.bindingAsks target.id

/-- The nodes whose types decide on the type of a node. -/
def asks (id : NodeId) : List NodeId :=
  match (p.node id).form with
  | .reference _ target => target.toList.flatMap p.targetAsks
  | .lambda s body => signatureAsks s (some body)
  | form => children form

/-! ## Programs as they are laid out -/

/-- The binding is one of a value or of a function, which is to say a declared one. -/
def IsDeclared (id : BindingId) : Prop :=
  (∃ name span type node, p.binding id = .value name span type node) ∨
    ∃ name span s body, p.binding id = .function name span s body

/-- The parameters of a signature have bindings, in order. -/
def ParametersLaid (s : Signature) : Prop :=
  List.Forall₂ (fun id (q : String × Ty) => ∃ span, p.binding id = .parameter q.1 span q.2)
    s.parameters (insideParameters s.arguments)

/-- A node that is made after all nodes inside it and all that its type depends on. -/
structure NodeLaid (id : NodeId) : Prop where
  asks : ∀ c ∈ p.asks id, c < id
  nodes : ∀ c, .node c ∈ p.parts (.node id) → c < id
  lambda : ∀ s body, (p.node id).form = .lambda s body → p.ParametersLaid s ∧ body.bindings = []
  arms : ∀ scrutinee arms, (p.node id).form = .cases scrutinee arms → ∀ arm ∈ arms,
    ∃ name span, p.binding arm.binding = .payload name span scrutinee arm.tag

/-- A binding that is made before the bindings of its body. -/
structure BindingLaid (id : BindingId) : Prop where
  asks : ∀ c ∈ p.bindingAsks id, c < p.nodes.size
  nodes : ∀ c, .node c ∈ p.parts (.binding id) → c < p.nodes.size
  parameters : ∀ name span s body, p.binding id = .function name span s body → p.ParametersLaid s
  body : ∀ name span s body, p.binding id = .function name span s (some body) →
    ∀ b ∈ body.bindings, id < b ∧ b < p.bindings.size ∧ p.IsDeclared b
  external : ∀ name span s, p.binding id = .function name span s none → s.result.isSome = true

/-- A program without a part that hangs in the air: all of them lie inside its body. -/
structure LaidOut : Prop where
  node : ∀ id, id < p.nodes.size → p.NodeLaid id
  binding : ∀ id, id < p.bindings.size → p.BindingLaid id
  result : p.body.result < p.nodes.size
  bindings : ∀ b ∈ p.body.bindings, b < p.bindings.size ∧ p.IsDeclared b
  node_inside : ∀ id, id < p.nodes.size → ∃ part ∈ bodyParts p.body, p.Inside part (.node id)
  binding_inside : ∀ id, id < p.bindings.size → ∃ part ∈ bodyParts p.body, p.Inside part (.binding id)

end Sable.Program
