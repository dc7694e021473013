import Sable.Operator
import Sable.ParameterList
import Sable.Span

/-! Syntax trees.

Expressions and type expressions carry a site: their span, and their number in the order in which
nodes of their kind were made while reading. The numbers of a tree need not be consecutive, because
reading goes on after an error and leaves the nodes of the unreadable part behind. -/
namespace Sable

/-- Where a node stands, and which one it is. -/
structure Site where
  id : Nat
  span : Span
deriving DecidableEq, Repr, Inhabited

/-- A parameter `name: type`. -/
structure Parameter (τ : Type) where
  name : Spanned String
  type : τ
  span : Span
deriving DecidableEq, Repr

/-- Names of type parameters, the `A` and `B` of `[A, B]`. -/
abbrev Generics := List (Spanned String)

inductive TypeExpr where
  /-- A name with type arguments, as in `Number`, `List[Number]`, `Pair[A]`. -/
  | named (site : Site) (name : String) (arguments : List TypeExpr)
  | object (site : Site) (fields : List (String × TypeExpr))
  | function (site : Site) (generics : Generics) (parameters : ParameterList (Parameter TypeExpr))
      (result : TypeExpr)
  | nullable (site : Site) (inner : TypeExpr)
deriving Repr

def TypeExpr.site : TypeExpr → Site
  | named site .. | object site .. | function site .. | nullable site .. => site

/-- A field `name: value` of an object literal. -/
structure FieldInit (ε : Type) where
  name : String
  value : ε
  span : Span
deriving DecidableEq, Repr

/-- An arm `tag binding => body` of a match. -/
structure MatchArm (ε : Type) where
  tag : Spanned String
  binding : Spanned String
  body : ε
  span : Span
deriving DecidableEq, Repr

inductive Expr where
  | number (site : Site) (value : Float)
  | bigInteger (site : Site) (digits : String)
  | boolean (site : Site) (value : Bool)
  | null (site : Site)
  | object (site : Site) (fields : List (FieldInit Expr))
  | reference (site : Site) (name : String)
  | binary (site : Site) (op : BinaryOp) (lhs rhs : Expr)
  | unary (site : Site) (op : UnaryOp) (operand : Expr)
  | conditional (site : Site) (condition thenBranch elseBranch : Expr)
  | call (site : Site) (callee : Expr) (typeArguments : List TypeExpr) (arguments : List Expr)
  | lambda (site : Site) (generics : Generics) (parameters : ParameterList (Parameter TypeExpr))
      (result : Option TypeExpr) (body : Expr)
  | field (site : Site) (object : Expr) (name : String)
  /-- A value given a tag, `value # tag`. -/
  | tagged (site : Site) (value : Expr) (tag : String)
  /-- A test for a tag, `value is tag`. -/
  | hasTag (site : Site) (value : Expr) (tag : String)
  | untag (site : Site) (value : Expr)
  | cases (site : Site) (scrutinee : Expr) (arms : List (MatchArm Expr))
deriving Repr

def Expr.site : Expr → Site
  | number site .. | bigInteger site .. | boolean site .. | null site | object site ..
  | reference site .. | binary site .. | unary site .. | conditional site .. | call site ..
  | lambda site .. | field site .. | tagged site .. | hasTag site .. | untag site .. | cases site .. =>
    site

def Expr.span (e : Expr) : Span := e.site.span

/-- An alternative `tag: payload` of a union. -/
structure Alternative where
  tag : String
  payload : TypeExpr
  span : Span
deriving Repr

mutual

inductive Declaration where
  | value (span : Span) (name : Spanned String) (type : Option TypeExpr) (value : Expr)
  | function (span : Span) (name : Spanned String) (generics : Generics)
      (parameters : ParameterList (Parameter TypeExpr)) (result : Option TypeExpr) (body : Body)
  /-- A function that is implemented outside the language. -/
  | external (span : Span) (name : Spanned String) (generics : Generics)
      (parameters : ParameterList (Parameter TypeExpr)) (result : TypeExpr)
  | alias (span : Span) (name : Spanned String) (generics : Generics) (target : TypeExpr)
  | union (span : Span) (name : Spanned String) (generics : Generics)
      (alternatives : List Alternative)
deriving Repr

/-- Declarations, each seen by those after it, and the expression they lead up to. -/
inductive Body where
  | mk (declarations : List Declaration) (result : Expr) (span : Span)
deriving Repr

end

namespace Body

def declarations : Body → List Declaration
  | mk declarations .. => declarations

def result : Body → Expr
  | mk _ result _ => result

def span : Body → Span
  | mk _ _ span => span

end Body

/-- The nodes made while reading, those of each kind in the order of their numbers. -/
structure Nodes where
  expressions : Array Expr
  types : Array TypeExpr
deriving Repr

/-- A source text as a tree, with all the nodes that were made on the way. -/
structure Tree where
  body : Body
  nodes : Nodes
deriving Repr

namespace Tree

/-- How many expressions were made. -/
def expressions (tree : Tree) : Nat := tree.nodes.expressions.size

/-- How many type expressions were made. -/
def types (tree : Tree) : Nat := tree.nodes.types.size

end Tree

end Sable
