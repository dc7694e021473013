import Sable.Fields
import Sable.ParameterList

/-! Types of the language, their equality, and what they show of unions and tagged values. -/
namespace Sable

/-- A type parameter; the number tells apart parameters of one name. -/
structure TypeVariable where
  name : String
  id : Nat
deriving DecidableEq, Repr

inductive Ty where
  | number | boolean | bigInteger
  /-- The type of `null` alone. -/
  | null
  | list (element : Ty)
  | sequence (element : Ty)
  | object (fields : List (String × Ty))
  | function (typeVariables : List TypeVariable) (parameters : ParameterList (String × Ty)) (result : Ty)
  /-- Payloads by tag; a narrowed union is known to hold one alternative. -/
  | union (alternatives : List (String × Ty)) (narrowed : Option String)
  /-- The type of `payload # tag`. -/
  | tagged (payload : Ty) (tag : String)
  | nullable (inner : Ty)
  | var (v : TypeVariable)
deriving Repr

/-- Parameters of a function type, by name. -/
abbrev Parameters := ParameterList (String × Ty)

namespace Ty

/-! ## Equality

Types are equal when they are built alike. The names of parameters do not count. -/

mutual

def same : Ty → Ty → Bool
  | number, number | boolean, boolean | bigInteger, bigInteger | null, null => true
  | list a, list b | sequence a, sequence b | nullable a, nullable b => a.same b
  | object fields, object others => sameFields fields others
  | function vs ps a, function ws qs b => vs == ws && sameParameters ps qs && a.same b
  | union fields narrowed, union others narrowed' =>
    sameFields fields others && narrowed == narrowed'
  | tagged a tag, tagged b tag' => a.same b && tag == tag'
  | var v, var w => v == w
  | _, _ => false
termination_by structural a => a

def sameFields : List (String × Ty) → List (String × Ty) → Bool
  | [], [] => true
  | (name, a) :: rest, (name', b) :: rest' => name == name' && a.same b && sameFields rest rest'
  | _, _ => false
termination_by structural a => a

def sameParameters : ParameterList (String × Ty) → ParameterList (String × Ty) → Bool
  | .fixed ps, .fixed qs => sameTypes ps qs
  | .variadic (_, a), .variadic (_, b) => a.same b
  | _, _ => false
termination_by structural a => a

def sameTypes : List (String × Ty) → List (String × Ty) → Bool
  | [], [] => true
  | (_, a) :: rest, (_, b) :: rest' => a.same b && sameTypes rest rest'
  | _, _ => false
termination_by structural a => a

end

instance : BEq Ty := ⟨same⟩

/-! ## Size and variables -/

mutual

/-- The number of types in a type. -/
def size : Ty → Nat
  | number | boolean | bigInteger | null | var _ => 1
  | list a | sequence a | nullable a | tagged a _ => a.size + 1
  | object fields | union fields _ => sizeFields fields + 1
  | function _ ps result => sizeParameters ps + result.size + 1

def sizeFields : List (String × Ty) → Nat
  | [] => 0
  | (_, a) :: rest => a.size + sizeFields rest

def sizeParameters : ParameterList (String × Ty) → Nat
  | .fixed ps => sizeFields ps
  | .variadic (_, a) => a.size

end

mutual

/-- Whether one of the variables occurs in the type, be it as one that a function type binds. -/
def mentions (vs : List TypeVariable) : Ty → Bool
  | number | boolean | bigInteger | null => false
  | var v => vs.contains v
  | list a | sequence a | nullable a | tagged a _ => a.mentions vs
  | object fields | union fields _ => mentionsFields vs fields
  | function _ ps result => mentionsParameters vs ps || result.mentions vs

def mentionsFields (vs : List TypeVariable) : List (String × Ty) → Bool
  | [] => false
  | (_, a) :: rest => a.mentions vs || mentionsFields vs rest

def mentionsParameters (vs : List TypeVariable) : ParameterList (String × Ty) → Bool
  | .fixed ps => mentionsFields vs ps
  | .variadic (_, a) => a.mentions vs

end

/-! ## Optional types and unions -/

/-- The type of `null` and what has the given type; `null` is added only once. -/
def orNull : Ty → Ty
  | nullable inner => nullable inner
  | inner => nullable inner

/-- The type without `null`, if it is an optional one. -/
def withoutNull : Ty → Ty
  | nullable inner => inner
  | type => type

/-- Known to hold the alternative `tag`, if the type is a union that has it. -/
def narrow? (tag : String) : Ty → Option Ty
  | union alternatives _ =>
    if Fields.contains tag alternatives then some (union alternatives (some tag)) else none
  | _ => none

/-- The type without what is known of the alternative it holds. -/
def widened : Ty → Ty
  | union alternatives _ => union alternatives none
  | type => type

/-- What a value of a union or a tagged type may hold. A tagged type is like a union of one alternative
that is known to be held. -/
structure TagView where
  alternatives : Fields Ty
  /-- The alternative known to be held. -/
  pinned : Option (String × Ty)

def tagView? : Ty → Option TagView
  | union alternatives narrowed =>
    some ⟨alternatives, narrowed.bind fun tag => (Fields.get? tag alternatives).map (tag, ·)⟩
  | tagged payload tag => some ⟨[(tag, payload)], some (tag, payload)⟩
  | _ => none

namespace TagView

def payload? (view : TagView) (tag : String) : Option Ty := Fields.get? tag view.alternatives

def hasTag (view : TagView) (tag : String) : Bool := (view.payload? tag).isSome

/-- The tags that a match has to deal with. -/
def required (view : TagView) : List String :=
  match view.pinned with
  | some (tag, _) => [tag]
  | none => Fields.names view.alternatives

end TagView

end Ty

end Sable
