import Sable.Operator
import Sable.Span
import Sable.Ty.Assignable

/-! What can be wrong with a program that is a well-formed text: names that stand for nothing, types
that do not exist or do not fit. -/
namespace Sable

inductive TypeFault where
  -- Names and types written in the program
  | unknownType (name : String)
  | duplicateTypeParameter (name : String)
  | duplicateTag (tag union : String)
  | duplicateTypeField (name : String)
  | variableWithArguments (name : String)
  | constructorArguments (name : String) (actual : Nat)
  | aliasArguments (name : String) (expected actual : Nat)
  -- Types of expressions
  | loop
  | recursiveFunction (name : String)
  | missingResultType
  | undefinedVariable (name : String)
  | duplicateField (name : String)
  | unaryOperator (symbol : String) (operand : Ty)
  | binaryOperator (symbol : String) (lhs rhs : Ty)
  | conditionNotBoolean (actual : Ty)
  | branchesDiffer (first second : Ty)
  | notCallable (actual : Ty)
  /-- The name `callee` is that of the function, if it is called by one. -/
  | argumentCount (callee : Option String) (expected actual : Nat)
  | typeArgumentCount (callee : Option String) (expected actual : Nat)
  | inference (error : InferenceError)
  | noField (owner : Ty) (name : String)
  | notTagged (construct : String) (actual : Ty)
  | invalidTag (tag : String) (type : Ty)
  | notNarrowed (actual : Ty)
  | duplicateArm (tag : String)
  | armsDiffer (first second : Ty)
  | missingArms (tags : List String)
  | noArms
  -- Types that do not fit
  | mismatch (expected actual : Ty)
  | relation (error : RelationError)
  | duplicateArgument (name : String)
deriving Repr

namespace TypeFault

private def quoted (name : String) : String := "'" ++ name ++ "'"

private def callee : Option String → String
  | some name => "function " ++ quoted name
  | none => "function"

def message : TypeFault → String
  | unknownType name => "unknown type " ++ quoted name
  | duplicateTypeParameter name => "duplicate type parameter " ++ quoted name
  | duplicateTag tag union => "duplicate tag " ++ quoted tag ++ " in union " ++ union
  | duplicateTypeField name => "duplicate field " ++ quoted name ++ " in object type"
  | variableWithArguments name => "type variable " ++ quoted name ++ " does not take type arguments"
  | constructorArguments name actual =>
    "type " ++ name ++ " expects 1 type argument, got " ++ toString actual
  | aliasArguments name expected actual =>
    "type " ++ name ++ " expects " ++ toString expected ++ " type arguments, got " ++ toString actual
  | loop => "type determination entered a loop"
  | recursiveFunction name =>
    "type determination entered a loop: recursive function " ++ quoted name
      ++ " needs an explicit return type"
  | missingResultType => "function without a body needs an explicit return type"
  | undefinedVariable name => "undefined variable " ++ quoted name
  | duplicateField name => "duplicate field " ++ quoted name ++ " in object literal"
  | unaryOperator symbol operand =>
    "operator " ++ quoted symbol ++ " cannot be applied to " ++ operand.text
  | binaryOperator symbol lhs rhs =>
    "operator " ++ quoted symbol ++ " cannot be applied to " ++ lhs.text ++ " and " ++ rhs.text
  | conditionNotBoolean actual => "if condition must be Boolean, got " ++ actual.text
  | branchesDiffer first second =>
    "if branches have different types: " ++ first.text ++ " and " ++ second.text
  | notCallable actual => "cannot call a value of type " ++ actual.text
  | argumentCount name expected actual =>
    callee name ++ " expects " ++ toString expected ++ " arguments, got " ++ toString actual
  | typeArgumentCount name expected actual =>
    callee name ++ " expects " ++ toString expected ++ " type arguments, got " ++ toString actual
  | inference error => error.message
  | noField owner name => "type " ++ owner.text ++ " has no field " ++ quoted name
  | notTagged construct actual =>
    quoted construct ++ " requires a union or tagged value, got " ++ actual.text
  | invalidTag tag type => (RelationError.invalidTag tag type).message
  | notNarrowed actual =>
    "cannot untag a value of type " ++ actual.text ++ " that is not narrowed to one alternative"
  | duplicateArm tag => "duplicate match arm for tag " ++ quoted tag
  | armsDiffer first second =>
    "match arms have different types: " ++ first.text ++ " and " ++ second.text
  | missingArms tags => "non-exhaustive match: missing tags: " ++ String.intercalate ", " tags
  | noArms => "match needs at least one arm"
  | mismatch expected actual => (InferenceError.mismatch expected actual).message
  | relation error => error.message
  | duplicateArgument name => "duplicate argument name " ++ quoted name

end TypeFault

structure TypeError where
  fault : TypeFault
  span : Span
deriving Repr

namespace TypeError

def message (e : TypeError) : String := e.fault.message

/-- The error with its place in front. -/
def text (e : TypeError) : String :=
  "[" ++ toString e.span.start ++ ":" ++ toString e.span.stop ++ "] " ++ e.message

end TypeError

end Sable
