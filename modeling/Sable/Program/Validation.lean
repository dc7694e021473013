import Sable.Program.Lowering
import Sable.Program.Typing
import Sable.Reader.Body

/-! Validation: every expression of a program has a type, be it in a function that nobody calls, declared
types accept what they are declared for, and no function has two parameters of one name. -/
namespace Sable.Program

variable [EntryOrder]

/-- Requires that no parameter has the name of one before it; `seen` are the names so far. -/
def requireDistinct (p : Program) (seen : List String) :
    List (String × Ty) → List BindingId → Typing Unit
  | (name, _) :: rest, id :: ids => do
    if seen.contains name then fail (.duplicateArgument name) (p.binding id).span
    p.requireDistinct (seen ++ [name]) rest ids
  | _, _ => pure ()

/-- Requires that the value of a node fits a type, if one is declared. -/
def requireDeclared (p : Program) (declared : Option Ty) (id : NodeId) : Typing Unit :=
  match declared with
  | none => pure ()
  | some type => do requireAssignable (← p.typeOf id) type (p.node id).span

/-- Goes through a list up to the first failure. -/
def forAll {α : Type} (check : α → Typing Unit) : List α → Typing Unit
  | [] => pure ()
  | a :: rest => do
    check a
    forAll check rest

section

variable (p : Program) (node : NodeId → Typing Unit) (binding : BindingId → Typing Unit)

def validateBodyWith (body : FunctionBody) : Typing Unit := do
  forAll binding body.bindings
  node body.result

def validateFunctionWith (signature : Signature) (body : Option FunctionBody) : Typing Unit := do
  match signature.arguments with
  | .fixed arguments => p.requireDistinct [] arguments signature.parameters
  | .variadic _ => pure ()
  match body with
  | none => pure ()
  | some body => do
    validateBodyWith node binding body
    p.requireDeclared signature.result body.result

def validateBindingWith (id : BindingId) : Typing Unit :=
  match p.binding id with
  | .value _ _ type value => do
    node value
    p.requireDeclared type value
  | .function _ _ signature body => validateFunctionWith p node binding signature body
  | .parameter .. | .payload .. => pure ()

/-- The nodes inside a node that are not inside a function of their own, in order. -/
def children : Form → List NodeId
  | .number _ | .bigInteger _ | .boolean _ | .null | .reference .. | .lambda .. => []
  | .object fields => fields.map Prod.snd
  | .arithmetic _ lhs rhs | .comparison _ lhs rhs | .logical _ lhs rhs => [lhs, rhs]
  | .negate operand | .not operand | .untag operand => [operand]
  | .field value _ | .tagged value _ | .hasTag value _ => [value]
  | .conditional condition thenBranch elseBranch => [condition, thenBranch, elseBranch]
  | .call callee _ arguments => callee :: arguments
  | .cases scrutinee arms => scrutinee :: arms.map (·.body)

def validateNodeWith (id : NodeId) : Typing Unit := do
  let _ ← p.typeOf id
  match (p.node id).form with
  | .lambda signature body => validateFunctionWith p node binding signature (some body)
  | form => forAll node (children form)

end

mutual

/-- Validates a node with at most `depth` nodes and bindings around any part of it. -/
def validateNodeUpTo (p : Program) : (depth : Nat) → NodeId → Typing Unit
  | 0, id => fail .loop (p.node id).span
  | depth + 1, id =>
    validateNodeWith p (p.validateNodeUpTo depth) (p.validateBindingUpTo depth) id

def validateBindingUpTo (p : Program) : (depth : Nat) → BindingId → Typing Unit
  | 0, id => fail .loop (p.binding id).span
  | depth + 1, id =>
    validateBindingWith p (p.validateNodeUpTo depth) (p.validateBindingUpTo depth) id

end

/-- Validates a program, up to the first thing that is wrong with it. Nodes and bindings lie in each
other without repetition, so never more of them than there are. -/
def validate (p : Program) : Typing Unit :=
  let depth := p.nodes.size + p.bindings.size
  validateBodyWith (p.validateNodeUpTo depth) (p.validateBindingUpTo depth) p.body

end Sable.Program

namespace Sable

/-- Why a source text is not a program. -/
inductive SourceError where
  | parse (errors : List ParseError)
  | type (error : TypeError)
deriving Repr

/-- The error as a text, with places. -/
def SourceError.text : SourceError → String
  | parse errors => String.intercalate "\n" (errors.map ParseError.text)
  | type error => error.text

namespace Program

/-- The program of a source text, not validated. -/
def ofSource (source : String) : Except SourceError Program :=
  let parsed := parse source
  if parsed.errors.isEmpty then (ofTree parsed.tree).mapError .type
  else .error (.parse parsed.errors)

/-- The program of a source text, if it is a valid one. -/
def check [EntryOrder] (source : String) : Except SourceError Program := do
  let p ← ofSource source
  match (p.validate.run p.blank).1 with
  | .ok _ => pure p
  | .error e => .error (.type e)

end Program

end Sable
