import Sable.Proofs.Tree.Moved
import Sable.Proofs.Ty.RaisedRelations
import Sable.Program.Validation

/-! Programs behind declarations.

Declarations in front of a program that make no nodes leave its nodes their numbers. Its bindings and type
variables get higher numbers, and its spans begin later. -/
namespace Sable

/-- What declarations in front of a program make. -/
structure Front where
  bindings : Array Binding
  /-- Those of the declarations themselves. -/
  declared : List BindingId
  /-- How many type variables. -/
  typeVariables : Nat
  /-- How far they move the trees behind them. -/
  shift : Shift

namespace Front

/-- A binding of a parameter, or a function without a body, no two parameters of which have one name. -/
inductive Harmless : Binding → Prop
  | parameter (name : String) (span : Span) (type : Ty) : Harmless (.parameter name span type)
  | function (name : String) (span : Span) {s : Signature}
      (hs : ∀ ps, s.arguments = .fixed ps → (ps.map Prod.fst).Nodup) : Harmless (.function name span s none)

end Front

variable (f : Front)

/-! ## Numbers behind others -/

def Target.behind : Target → Target
  | bound id => bound (id + f.bindings.size)
  | enclosing id => enclosing (id + f.bindings.size)
  | narrowed id tag => narrowed (id + f.bindings.size) tag
  | nonNull id => nonNull (id + f.bindings.size)

theorem Target.id_behind (t : Target) : (t.behind f).id = t.id + f.bindings.size := by cases t <;> rfl

def TypeMeaning.behind : TypeMeaning → TypeMeaning
  | .alias parameters target => .alias (parameters.map (.raised f.typeVariables)) (target.raised f.typeVariables)
  | .variable v => .variable (v.raised f.typeVariables)
  | .constructor c => .constructor c

def FunctionBody.behind (body : FunctionBody) : FunctionBody :=
  ⟨body.bindings.map (· + f.bindings.size), body.result⟩

def Signature.behind (s : Signature) : Signature :=
  ⟨s.typeVariables.map (.raised f.typeVariables), Ty.raisedParameters f.typeVariables s.arguments,
    s.parameters.map (· + f.bindings.size), s.result.map (.raised f.typeVariables)⟩

def Arm.behind (arm : Arm) : Arm :=
  ⟨arm.tag, arm.binding + f.bindings.size, arm.body, arm.span.moved f.shift.offset⟩

def Form.behind : Form → Form
  | reference name target => reference name (target.map (.behind f))
  | call callee typeArguments arguments => call callee (typeArguments.map (.raised f.typeVariables)) arguments
  | lambda s body => lambda (s.behind f) (body.behind f)
  | cases scrutinee arms => cases scrutinee (arms.map (.behind f))
  | form => form

def Node.behind (n : Node) : Node := ⟨n.form.behind f, n.span.moved f.shift.offset⟩

def Binding.behind : Binding → Binding
  | value name span type node => value name (span.moved f.shift.offset) (type.map (.raised f.typeVariables)) node
  | function name span s body => function name (span.moved f.shift.offset) (s.behind f) (body.map (.behind f))
  | parameter name span type => parameter name (span.moved f.shift.offset) (type.raised f.typeVariables)
  | payload name span scrutinee tag => payload name (span.moved f.shift.offset) scrutinee tag

theorem Binding.name_behind (b : Binding) : (b.behind f).name = b.name := by cases b <;> rfl

namespace Program

/-- The program behind declarations. -/
def behind (p : Program) : Program :=
  ⟨p.nodes.map (.behind f), f.bindings ++ p.bindings.map (.behind f),
    ⟨f.declared ++ p.body.bindings.map (· + f.bindings.size), p.body.result⟩⟩

variable (p : Program)

theorem node_behind {id : NodeId} (hid : id < p.nodes.size) : (p.behind f).node id = (p.node id).behind f := by
  simp [node, behind, hid]

/-- The forms of nodes are the same up to numbers, also for a number that belongs to no node. -/
@[simp] theorem form_behind (id : NodeId) : ((p.behind f).node id).form = (p.node id).form.behind f := by
  rcases Nat.lt_or_ge id p.nodes.size with hid | hid
  · rw [node_behind f p hid, Node.behind]
  · simp [node, behind, hid, Form.behind]

@[simp] theorem size_nodes_behind : (p.behind f).nodes.size = p.nodes.size := Array.size_map

theorem size_bindings_behind : (p.behind f).bindings.size = f.bindings.size + p.bindings.size := by
  simp [behind]

theorem binding_behind_of_lt {id : BindingId} (hid : id < f.bindings.size) :
    (p.behind f).binding id = f.bindings[id] := by
  simp [binding, behind, Array.getElem?_append_left hid, hid]

theorem binding_behind {id : BindingId} (hid : id < p.bindings.size) :
    (p.behind f).binding (id + f.bindings.size) = (p.binding id).behind f := by
  simp [binding, behind, Array.getElem?_append_right, hid]

/-- The number of no binding stays one. -/
theorem binding_of_size_le {id : BindingId} (hid : p.bindings.size ≤ id) :
    p.binding id = .parameter "" .none .null ∧
      (p.behind f).binding (id + f.bindings.size) = .parameter "" .none .null := by
  simp [binding, behind, Array.getElem?_append_right, hid]

theorem name_binding_behind (id : BindingId) :
    ((p.behind f).binding (id + f.bindings.size)).name = (p.binding id).name := by
  rcases Nat.lt_or_ge id p.bindings.size with hid | hid
  · rw [binding_behind f p hid, Binding.name_behind]
  · rw [(binding_of_size_le f p hid).1, (binding_of_size_le f p hid).2]

end Program

end Sable
