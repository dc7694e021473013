import Sable.Program
import Sable.Tree
import Sable.TypeError
import Sable.Token.Scan

/-! Lowering: from a syntax tree to a resolved program.

Names are looked up in scopes, type expressions become types, and what an `if` or a `match` finds out
about a name is put into the scopes of its branches. Nodes are made in the order of the expressions of
the tree. -/
namespace Sable

/-- The part of a program made so far. -/
structure Draft where
  nodes : Array Node
  bindings : Array Binding
  /-- The number of the next type variable. -/
  nextVariable : Nat

/-- A step of lowering; it adds to the draft or finds the program wrong. -/
abbrev Lowering := StateT Draft (Except TypeError)

namespace Lowering

/-! ## Adding to the draft -/

def addNode (form : Form) (span : Span) : Lowering NodeId :=
  modifyGet fun d => (d.nodes.size, { d with nodes := d.nodes.push ⟨form, span⟩ })

def addBinding (b : Binding) : Lowering BindingId :=
  modifyGet fun d => (d.bindings.size, { d with bindings := d.bindings.push b })

/-- Completes a binding that was added before. -/
def setBinding (id : BindingId) (b : Binding) : Lowering Unit :=
  modify fun d => { d with bindings := d.bindings.setIfInBounds id b }

def freshVariable (name : String) : Lowering TypeVariable :=
  modifyGet fun d => (⟨name, d.nextVariable⟩, { d with nextVariable := d.nextVariable + 1 })

def fail {α : Type} (fault : TypeFault) (span : Span) : Lowering α := throw ⟨fault, span⟩

/-! ## Types -/

/-- New variables for type parameters, after the ones made `earlier`, and the scope that has them. -/
def lowerGenericsFrom (earlier : List TypeVariable) (scope : Scope) :
    Generics → Lowering (List TypeVariable × Scope)
  | [] => pure (earlier, scope)
  | g :: rest => do
    if earlier.any (·.name == g.value) then fail (.duplicateTypeParameter g.value) g.span
    let v ← freshVariable g.value
    lowerGenericsFrom (earlier ++ [v]) (scope.withType g.value (.variable v)) rest

def lowerGenerics (scope : Scope) (names : Generics) : Lowering (List TypeVariable × Scope) :=
  lowerGenericsFrom [] scope names

/-- The type that a name with type arguments stands for. -/
def resolveType (scope : Scope) (name : String) (arguments : List Ty) (span : Span) : Lowering Ty :=
  match scope.type? name with
  | none => fail (.unknownType name) span
  | some (.variable v) =>
    if arguments.isEmpty then pure (.var v) else fail (.variableWithArguments name) span
  | some (.constructor c) =>
    match arguments with
    | [element] => pure (c.apply element)
    | _ => fail (.constructorArguments c.name arguments.length) span
  | some (.alias parameters target) =>
    if parameters.length = arguments.length then
      pure ((Substitution.ofList (parameters.zip arguments)).apply target)
    else fail (.aliasArguments name parameters.length arguments.length) span

mutual

def lowerType (scope : Scope) : TypeExpr → Lowering Ty
  | .named site name arguments => do
    let types ← lowerTypes scope arguments
    resolveType scope name types site.span
  | .object site fields => do
    pure (.object (← lowerTypeFields scope site.span [] fields))
  | .function _ names ps result => do
    let (vs, inner) ← lowerGenerics scope names
    let parameters ← lowerParameters inner ps
    pure (.function vs parameters (← lowerType inner result))
  | .nullable _ inner => do pure (← lowerType scope inner).orNull

def lowerTypes (scope : Scope) : List TypeExpr → Lowering (List Ty)
  | [] => pure []
  | t :: rest => do
    let type ← lowerType scope t
    pure (type :: (← lowerTypes scope rest))

/-- Adds the fields of an object type to those `done`. -/
def lowerTypeFields (scope : Scope) (span : Span) (done : Fields Ty) :
    List (String × TypeExpr) → Lowering (Fields Ty)
  | [] => pure done
  | (name, t) :: rest => do
    let type ← lowerType scope t
    if Fields.contains name done then fail (.duplicateTypeField name) span
    lowerTypeFields scope span (Fields.insert name type done) rest

def lowerParameters (scope : Scope) : ParameterList (Parameter TypeExpr) → Lowering Parameters
  | .fixed ps => do pure (.fixed (← lowerEachParameter scope ps))
  | .variadic ⟨name, t, _⟩ => do pure (.variadic (name.value, ← lowerType scope t))

def lowerEachParameter (scope : Scope) : List (Parameter TypeExpr) → Lowering (List (String × Ty))
  | [] => pure []
  | ⟨name, t, _⟩ :: rest => do
    let type ← lowerType scope t
    pure ((name.value, type) :: (← lowerEachParameter scope rest))

end

/-- A type that may be left out. -/
def lowerType? (scope : Scope) : Option TypeExpr → Lowering (Option Ty)
  | none => pure none
  | some t => do pure (some (← lowerType scope t))

/-- Adds the alternatives of a union to those `done`. -/
def lowerAlternatives (scope : Scope) (union : String) (done : Fields Ty) :
    List Alternative → Lowering (Fields Ty)
  | [] => pure done
  | ⟨tag, payload, span⟩ :: rest => do
    let type ← lowerType scope payload
    if Fields.contains tag done then fail (.duplicateTag tag union) span
    lowerAlternatives scope union (Fields.insert tag type done) rest

/-! ## Parameters -/

/-- Adds a binding for each parameter. -/
def addParameters : List (String × Ty) → List Span → Lowering (List BindingId)
  | (name, type) :: rest, span :: spans => do
    let id ← addBinding (.parameter name span type)
    pure (id :: (← addParameters rest spans))
  | _, _ => pure []

/-- The argument list of a function and the bindings of its parameters. The one parameter that takes
every argument is a list of them inside the function. -/
def lowerSignatureParameters (scope : Scope) (ps : ParameterList (Parameter TypeExpr)) :
    Lowering (Parameters × List BindingId) := do
  let arguments ← lowerParameters scope ps
  let spans := ps.toList.map (·.span)
  let inside := match arguments with
    | .fixed list => list
    | .variadic (name, type) => [(name, .list type)]
  pure (arguments, ← addParameters inside spans)

/-- Brings bindings into scope under their own names. -/
def bindAll (bindings : Array Binding) (scope : Scope) (ids : List BindingId) : Scope :=
  ids.foldl (fun scope id =>
    match bindings[id]? with
    | some b => scope.withValue b.name (.bound id)
    | none => scope) scope

def bindParameters (scope : Scope) (ids : List BindingId) : Lowering Scope := do
  pure (bindAll (← get).bindings scope ids)

/-! ## What conditions tell -/

/-- The scope in which `subject`, if it is the name of a complete binding, is known to have a tag. -/
def narrowedScope (scope : Scope) (subject : Expr) (tag : String) : Scope :=
  match subject with
  | .reference _ name =>
    match scope.value? name with
    | some (.bound id) | some (.narrowed id _) => scope.withValue name (.narrowed id tag)
    | _ => scope
  | _ => scope

/-- The scope in which `subject`, if it is the name of a complete binding, is known not to be `null`. -/
def nonNullScope (scope : Scope) (subject : Expr) : Scope :=
  match subject with
  | .reference _ name =>
    match scope.value? name with
    | some (.bound id) | some (.nonNull id) => scope.withValue name (.nonNull id)
    | _ => scope
  | _ => scope

/-- The scopes of the two branches under a condition: `x is T` tells something of `x` where it holds,
`x == null` where it does not. -/
def branchScopes (scope : Scope) : Expr → Scope × Scope
  | .hasTag _ value tag => (narrowedScope scope value tag, scope)
  | .binary _ (.comparison .equal) lhs rhs =>
    match lhs, rhs with
    | _, .null _ => (scope, nonNullScope scope lhs)
    | .null _, _ => (scope, nonNullScope scope rhs)
    | _, _ => (scope, scope)
  | _ => (scope, scope)

/-! ## Expressions -/

def binaryForm : BinaryOp → NodeId → NodeId → Form
  | .arithmetic op => .arithmetic op
  | .comparison op => .comparison op
  | .logical op => .logical op

def unaryForm : UnaryOp → NodeId → Form
  | .negate => .negate
  | .not => .not

mutual

def lowerExpr (scope : Scope) : Expr → Lowering NodeId
  | .number site x => addNode (.number x) site.span
  | .bigInteger site digits => addNode (.bigInteger (Token.digitsValue digits.toList)) site.span
  | .boolean site b => addNode (.boolean b) site.span
  | .null site => addNode .null site.span
  | .object site fields => do
    let fields ← lowerFields scope fields
    addNode (.object fields) site.span
  | .reference site name => addNode (.reference name (scope.value? name)) site.span
  | .binary site op lhs rhs => do
    let l ← lowerExpr scope lhs
    let r ← lowerExpr scope rhs
    addNode (binaryForm op l r) site.span
  | .unary site op operand => do
    let e ← lowerExpr scope operand
    addNode (unaryForm op e) site.span
  | .conditional site condition thenBranch elseBranch => do
    let (thenScope, elseScope) := branchScopes scope condition
    let c ← lowerExpr scope condition
    let t ← lowerExpr thenScope thenBranch
    let e ← lowerExpr elseScope elseBranch
    addNode (.conditional c t e) site.span
  | .call site callee types arguments => do
    let f ← lowerExpr scope callee
    let types ← lowerTypes scope types
    let arguments ← lowerExprs scope arguments
    addNode (.call f types arguments) site.span
  | .lambda site names ps result body => do
    let (vs, inner) ← lowerGenerics scope names
    let (arguments, parameters) ← lowerSignatureParameters inner ps
    let result ← lowerType? inner result
    let inside ← bindParameters inner parameters
    let value ← lowerExpr inside body
    addNode (.lambda ⟨vs, arguments, parameters, result⟩ ⟨[], value⟩) site.span
  | .field site owner name => do
    let e ← lowerExpr scope owner
    addNode (.field e name) site.span
  | .tagged site value tag => do
    let e ← lowerExpr scope value
    addNode (.tagged e tag) site.span
  | .hasTag site value tag => do
    let e ← lowerExpr scope value
    addNode (.hasTag e tag) site.span
  | .untag site value => do
    let e ← lowerExpr scope value
    addNode (.untag e) site.span
  | .cases site scrutinee arms => do
    let e ← lowerExpr scope scrutinee
    let arms ← lowerArms scope scrutinee e arms
    addNode (.cases e arms) site.span

def lowerExprs (scope : Scope) : List Expr → Lowering (List NodeId)
  | [] => pure []
  | e :: rest => do
    let id ← lowerExpr scope e
    pure (id :: (← lowerExprs scope rest))

def lowerFields (scope : Scope) : List (FieldInit Expr) → Lowering (List (String × NodeId))
  | [] => pure []
  | ⟨name, value, _⟩ :: rest => do
    let id ← lowerExpr scope value
    pure ((name, id) :: (← lowerFields scope rest))

/-- The arms of a match on `subject`, which is the node `scrutinee`. -/
def lowerArms (scope : Scope) (subject : Expr) (scrutinee : NodeId) :
    List (MatchArm Expr) → Lowering (List Arm)
  | [] => pure []
  | ⟨tag, name, body, span⟩ :: rest => do
    let id ← addBinding (.payload name.value name.span scrutinee tag.value)
    let inside := (narrowedScope scope subject tag.value).withValue name.value (.bound id)
    let value ← lowerExpr inside body
    pure (⟨tag.value, id, value, span⟩ :: (← lowerArms scope subject scrutinee rest))

end

/-! ## Declarations and bodies -/

mutual

/-- A declaration: the binding it makes, if it is not one of a type, and the scope after it. -/
def lowerDeclaration (scope : Scope) : Declaration → Lowering (Option BindingId × Scope)
  | .value span name type value => do
    let type ← lowerType? scope type
    let node ← lowerExpr scope value
    let id ← addBinding (.value name.value span type node)
    pure (some id, scope.withValue name.value (.bound id))
  | .function span name names ps result body => do
    let (vs, inner) ← lowerGenerics scope names
    let (arguments, parameters) ← lowerSignatureParameters inner ps
    let result ← lowerType? inner result
    let signature : Signature := ⟨vs, arguments, parameters, result⟩
    let id ← addBinding (.function name.value span signature none)
    let inside ← bindParameters (inner.withValue name.value (.enclosing id)) parameters
    let body ← lowerBody inside body
    setBinding id (.function name.value span signature (some body))
    pure (some id, scope.withValue name.value (.bound id))
  | .external span name names ps result => do
    let (vs, inner) ← lowerGenerics scope names
    let (arguments, parameters) ← lowerSignatureParameters inner ps
    let result ← lowerType inner result
    let id ← addBinding (.function name.value span ⟨vs, arguments, parameters, some result⟩ none)
    pure (some id, scope.withValue name.value (.bound id))
  | .alias _ name names target => do
    let (vs, inner) ← lowerGenerics scope names
    let target ← lowerType inner target
    pure (none, scope.withType name.value (.alias vs target))
  | .union _ name names alternatives => do
    let (vs, inner) ← lowerGenerics scope names
    let fields ← lowerAlternatives inner name.value [] alternatives
    pure (none, scope.withType name.value (.alias vs (.union fields none)))

def lowerDeclarations (scope : Scope) : List Declaration → Lowering (List BindingId × Scope)
  | [] => pure ([], scope)
  | d :: rest => do
    let (id, scope) ← lowerDeclaration scope d
    let (ids, scope) ← lowerDeclarations scope rest
    pure (id.toList ++ ids, scope)

def lowerBody (scope : Scope) : Body → Lowering FunctionBody
  | .mk declarations result _ => do
    let (ids, scope) ← lowerDeclarations scope declarations
    let node ← lowerExpr scope result
    pure ⟨ids, node⟩

end

end Lowering

/-- The program of a tree. -/
def Program.ofTree (tree : Tree) : Except TypeError Program := do
  let (body, draft) ← (Lowering.lowerBody .root tree.body).run ⟨#[], #[], 0⟩
  pure ⟨draft.nodes, draft.bindings, body⟩

end Sable
