import Sable.Decimal
import Sable.Tree

/-! The dump of a tree: one declaration a line, every node a list in parentheses that begins with its
kind, bodies of functions indented. -/
namespace Sable

def spaced (texts : List String) : String := String.intercalate " " texts

namespace Generics

/-- The names in brackets, as in `[A B]`, or nothing. -/
def dump (names : Generics) : String :=
  if names.isEmpty then "" else "[" ++ spaced (names.map (·.value)) ++ "]"

end Generics

namespace TypeExpr

mutual

def dump : TypeExpr → String
  | named _ name arguments =>
    if arguments.isEmpty then name else "(" ++ name ++ dumpArguments arguments ++ ")"
  | object _ fields => "\x7b" ++ spaced (dumpFields fields) ++ "\x7d"
  | function _ names ps result =>
    "(Fn" ++ Generics.dump names ++ " " ++ dumpParameters ps ++ " " ++ result.dump ++ ")"
  | nullable _ inner => "(Nullable " ++ inner.dump ++ ")"

def dumpArguments : List TypeExpr → String
  | [] => ""
  | type :: rest => " " ++ type.dump ++ dumpArguments rest

def dumpFields : List (String × TypeExpr) → List String
  | [] => []
  | (name, type) :: rest => (":" ++ name ++ " " ++ type.dump) :: dumpFields rest

def dumpParameters : ParameterList (Parameter TypeExpr) → String
  | .fixed ps => "(" ++ spaced (dumpEach ps) ++ ")"
  | .variadic ⟨name, type, _⟩ => "((..." ++ name.value ++ " : " ++ type.dump ++ "))"

def dumpEach : List (Parameter TypeExpr) → List String
  | [] => []
  | ⟨name, type, _⟩ :: rest => ("(" ++ name.value ++ " : " ++ type.dump ++ ")") :: dumpEach rest

end

/-- The type after a colon, as in ` : Number`, or nothing. -/
def dumpAnnotation : Option TypeExpr → String
  | some type => " : " ++ type.dump
  | none => ""

end TypeExpr

namespace Expr

mutual

def dump : Expr → String
  | number _ x => numberText .source x
  | bigInteger _ digits => digits ++ "n"
  | boolean _ b => if b then "true" else "false"
  | null _ => "null"
  | object _ fields => "\x7b" ++ spaced (dumpFields fields) ++ "\x7d"
  | reference _ name => name
  | binary _ op lhs rhs => "(" ++ op.symbol ++ " " ++ lhs.dump ++ " " ++ rhs.dump ++ ")"
  | unary _ op operand => "(" ++ op.symbol ++ " " ++ operand.dump ++ ")"
  | conditional _ condition thenBranch elseBranch =>
    "(if " ++ condition.dump ++ " " ++ thenBranch.dump ++ " " ++ elseBranch.dump ++ ")"
  | call _ callee types arguments =>
    "(" ++ callee.dump
      ++ (if types.isEmpty then "" else " [" ++ spaced (types.map TypeExpr.dump) ++ "]")
      ++ dumpArguments arguments ++ ")"
  | lambda _ names ps result body =>
    "(fn" ++ Generics.dump names ++ " " ++ TypeExpr.dumpParameters ps
      ++ TypeExpr.dumpAnnotation result ++ " " ++ body.dump ++ ")"
  | field _ owner name => "(." ++ name ++ " " ++ owner.dump ++ ")"
  | tagged _ value tag => "(tag " ++ value.dump ++ " " ++ tag ++ ")"
  | hasTag _ value tag => "(is " ++ value.dump ++ " " ++ tag ++ ")"
  | untag _ value => "(untag " ++ value.dump ++ ")"
  | cases _ scrutinee arms => "(match " ++ scrutinee.dump ++ dumpArms arms ++ ")"

def dumpArguments : List Expr → String
  | [] => ""
  | e :: rest => " " ++ e.dump ++ dumpArguments rest

def dumpFields : List (FieldInit Expr) → List String
  | [] => []
  | ⟨name, value, _⟩ :: rest => (":" ++ name ++ " " ++ value.dump) :: dumpFields rest

def dumpArms : List (MatchArm Expr) → String
  | [] => ""
  | ⟨tag, binding, body, _⟩ :: rest =>
    " (" ++ tag.value ++ " " ++ binding.value ++ " " ++ body.dump ++ ")" ++ dumpArms rest

end

end Expr

/-- Each alternative in parentheses, as in ` (tag payload)`. -/
def Alternative.dumpAll (alternatives : List Alternative) : String :=
  String.join (alternatives.map fun a => " (" ++ a.tag ++ " " ++ a.payload.dump ++ ")")

/-- The blanks in front of a line in a body with `depth` bodies around it. -/
def indent (depth : Nat) : String := String.ofList (List.replicate (2 * depth) ' ')

mutual

def Declaration.dump (depth : Nat) : Declaration → String
  | .value _ name type value =>
    indent depth ++ "(val " ++ name.value ++ TypeExpr.dumpAnnotation type ++ " " ++ value.dump ++ ")\n"
  | .function _ name names ps result body =>
    indent depth ++ "(def " ++ name.value ++ Generics.dump names ++ " " ++ TypeExpr.dumpParameters ps
      ++ TypeExpr.dumpAnnotation result ++ "\n" ++ body.dump (depth + 1) ++ indent depth ++ ")\n"
  | .external _ name names ps result =>
    indent depth ++ "(external def " ++ name.value ++ Generics.dump names ++ " "
      ++ TypeExpr.dumpParameters ps ++ " : " ++ result.dump ++ ")\n"
  | .alias _ name names target =>
    indent depth ++ "(type " ++ name.value ++ Generics.dump names ++ " " ++ target.dump ++ ")\n"
  | .union _ name names alternatives =>
    indent depth ++ "(union " ++ name.value ++ Generics.dump names ++ Alternative.dumpAll alternatives
      ++ ")\n"

def Declaration.dumpAll (depth : Nat) : List Declaration → String
  | [] => ""
  | d :: rest => d.dump depth ++ Declaration.dumpAll depth rest

def Body.dump (depth : Nat) : Body → String
  | .mk declarations result _ =>
    Declaration.dumpAll depth declarations ++ indent depth ++ "(return " ++ result.dump ++ ")\n"

end

/-- The dump of a whole tree. -/
def Tree.dump (tree : Tree) : String := tree.body.dump 0

end Sable
