import Sable.Ty

/-! Scopes: what the names in a program stand for while it is resolved.

Names of values and names of types are kept apart. A scope never changes: a longer one is made from it,
in which newer names hide older ones. -/
namespace Sable

/-- The number of a binding in a program. -/
abbrev BindingId := Nat

/-- What the name of a value stands for. -/
inductive Target where
  /-- A binding that is complete. -/
  | bound (id : BindingId)
  /-- A function, seen from inside its own body. -/
  | enclosing (id : BindingId)
  /-- A binding known to hold the alternative `tag` of its union. -/
  | narrowed (id : BindingId) (tag : String)
  /-- A binding known not to hold `null`. -/
  | nonNull (id : BindingId)
deriving DecidableEq, Repr

def Target.id : Target → BindingId
  | bound id | enclosing id | narrowed id _ | nonNull id => id

/-- The types that take an element type. -/
inductive TypeConstructor where
  | list | sequence
deriving DecidableEq, Repr

namespace TypeConstructor

def apply : TypeConstructor → Ty → Ty
  | list, element => .list element
  | sequence, element => .sequence element

def name : TypeConstructor → String
  | list => "List"
  | sequence => "Sequence"

end TypeConstructor

/-- What the name of a type stands for. -/
inductive TypeMeaning where
  /-- A type with parameters, as in `type Pair[A] = List[A]`. -/
  | alias (parameters : List TypeVariable) (target : Ty)
  | variable (v : TypeVariable)
  | constructor (c : TypeConstructor)
deriving Repr

inductive Scope.Entry where
  | value (name : String) (target : Target)
  | type (name : String) (meaning : TypeMeaning)
deriving Repr

/-- The names in scope, the newest first. -/
structure Scope where
  entries : List Scope.Entry
deriving Repr

namespace Scope

def empty : Scope := ⟨[]⟩

def withValue (scope : Scope) (name : String) (target : Target) : Scope :=
  ⟨.value name target :: scope.entries⟩

def withType (scope : Scope) (name : String) (meaning : TypeMeaning) : Scope :=
  ⟨.type name meaning :: scope.entries⟩

def valueIn (name : String) : List Entry → Option Target
  | [] => none
  | .value own target :: rest => if own = name then some target else valueIn name rest
  | .type .. :: rest => valueIn name rest

def typeIn (name : String) : List Entry → Option TypeMeaning
  | [] => none
  | .type own meaning :: rest => if own = name then some meaning else typeIn name rest
  | .value .. :: rest => typeIn name rest

/-- What a name of a value stands for. -/
def value? (scope : Scope) (name : String) : Option Target := valueIn name scope.entries

/-- What a name of a type stands for. -/
def type? (scope : Scope) (name : String) : Option TypeMeaning := typeIn name scope.entries

/-- The scope of a whole program: the types that need no declaration. -/
def root : Scope :=
  empty
    |>.withType "Number" (.alias [] .number)
    |>.withType "Boolean" (.alias [] .boolean)
    |>.withType "BigInteger" (.alias [] .bigInteger)
    |>.withType "Null" (.alias [] .null)
    |>.withType "List" (.constructor .list)
    |>.withType "Sequence" (.constructor .sequence)

end Scope

end Sable
