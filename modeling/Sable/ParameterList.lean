/-! Lists of parameters: a fixed number of them, or one that stands for any number of arguments. -/
namespace Sable

inductive ParameterList (α : Type) where
  | fixed (parameters : List α)
  /-- Takes every argument there is. -/
  | variadic (parameter : α)
deriving DecidableEq, Repr

namespace ParameterList

variable {α β : Type}

/-- The parameters that are written down. -/
def toList : ParameterList α → List α
  | fixed parameters => parameters
  | variadic parameter => [parameter]

/-- The parameter that takes the argument at `index`. -/
def get? (index : Nat) : ParameterList α → Option α
  | fixed parameters => parameters[index]?
  | variadic parameter => some parameter

def map (f : α → β) : ParameterList α → ParameterList β
  | fixed parameters => fixed (parameters.map f)
  | variadic parameter => variadic (f parameter)

def isVariadic : ParameterList α → Bool
  | fixed _ => false
  | variadic _ => true

end ParameterList

end Sable
