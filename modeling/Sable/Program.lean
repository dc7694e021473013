import Sable.Operator
import Sable.Scope
import Sable.Span

/-! Resolved programs.

A program is a table of nodes, its expressions, and a table of bindings, the things that names stand for.
They refer to each other by number; a node refers to nodes made before it. Types are resolved: they no
longer hold names that a scope would have to explain. -/
namespace Sable

/-- The number of a node in a program. -/
abbrev NodeId := Nat

/-- Bindings, each seen by those after it, and the node they lead up to. -/
structure FunctionBody where
  bindings : List BindingId
  result : NodeId
deriving DecidableEq, Repr

/-- What functions with a name and without have in common. -/
structure Signature where
  typeVariables : List TypeVariable
  arguments : Parameters
  /-- The bindings of the parameters, in order. -/
  parameters : List BindingId
  /-- The result type, where it is written down. -/
  result : Option Ty
deriving Repr

/-- Something that a name can stand for. -/
inductive Binding where
  | value (name : String) (span : Span) (type : Option Ty) (value : NodeId)
  /-- A function; one that is implemented outside the language has no body. -/
  | function (name : String) (span : Span) (signature : Signature) (body : Option FunctionBody)
  /-- A parameter, with the type that it has inside the function. -/
  | parameter (name : String) (span : Span) (type : Ty)
  /-- What a match gets out of the value of the node `scrutinee` if that has the given tag. -/
  | payload (name : String) (span : Span) (scrutinee : NodeId) (tag : String)
deriving Repr

namespace Binding

def name : Binding → String
  | value name .. | function name .. | parameter name .. | payload name .. => name

def span : Binding → Span
  | value _ span .. | function _ span .. | parameter _ span .. | payload _ span .. => span

end Binding

/-- An arm of a match; `binding` is that of the payload. -/
structure Arm where
  tag : String
  binding : BindingId
  body : NodeId
  span : Span
deriving DecidableEq, Repr

inductive Form where
  | number (value : Float)
  | bigInteger (value : Int)
  | boolean (value : Bool)
  | null
  | object (fields : List (String × NodeId))
  | arithmetic (op : ArithmeticOp) (lhs rhs : NodeId)
  | negate (operand : NodeId)
  | comparison (op : ComparisonOp) (lhs rhs : NodeId)
  | logical (op : LogicalOp) (lhs rhs : NodeId)
  | not (operand : NodeId)
  | conditional (condition thenBranch elseBranch : NodeId)
  /-- A name, and what it stands for if it is in scope. -/
  | reference (name : String) (target : Option Target)
  | call (callee : NodeId) (typeArguments : List Ty) (arguments : List NodeId)
  | lambda (signature : Signature) (body : FunctionBody)
  | field (owner : NodeId) (name : String)
  | tagged (value : NodeId) (tag : String)
  | hasTag (value : NodeId) (tag : String)
  | untag (value : NodeId)
  | cases (scrutinee : NodeId) (arms : List Arm)
deriving Repr

/-- An expression of a program. -/
structure Node where
  form : Form
  span : Span
deriving Repr

structure Program where
  nodes : Array Node
  bindings : Array Binding
  body : FunctionBody
deriving Repr

namespace Program

/-- The node of a number. A number that belongs to no node reads as a `null` that stands nowhere. -/
def node (p : Program) (id : NodeId) : Node := p.nodes.getD id ⟨.null, .none⟩

/-- The binding of a number. A number that belongs to no binding reads as a nameless parameter. -/
def binding (p : Program) (id : BindingId) : Binding :=
  p.bindings.getD id (.parameter "" .none .null)

/-- The last function of this name among the bindings of the program itself. -/
def function? (p : Program) (name : String) : Option Binding :=
  (p.body.bindings.reverse.map p.binding).find? fun
    | .function own .. => own == name
    | _ => false

end Program

end Sable
