import Sable.Builtin
import Sable.Decimal
import Sable.Fields
import Sable.Program

/-! Values of the language.

Functions and sequences are told apart by identity: each one made while a program runs has a number of
its own, and two are equal when they are the same one. A function holds an environment, the values of the
names it was made among; `κ` is the type of the keys of environments, which are names unless said
otherwise. -/
namespace Sable

/-- Where the items of a sequence come from. -/
inductive Sequence.Source (ν : Type) where
  /-- The numbers `next`, `next + 1`, … up to, not including, `stop`, or without an end. -/
  | range (next : Float) (stop : Option Float)
  | items (items : List ν)

/-- What an item goes through on its way out of a sequence. -/
inductive Sequence.Stage (ν : Type) where
  /-- The item goes on if the predicate holds of it. -/
  | filter (predicate : ν)
  /-- The function's result goes on instead of the item. -/
  | map (function : ν)

/-- A sequence that yields its items on demand. What is left of a sequence after some of its items is
again a sequence. -/
structure Sequence (ν : Type) where
  source : Sequence.Source ν
  /-- In the order in which items go through them. -/
  stages : List (Sequence.Stage ν)

/-- A function with the names it was made among. One that has a name sees itself under that name while
it runs. -/
structure Closure (ν : Type) (κ : Type := String) where
  name : Option κ
  parameters : ParameterList κ
  body : FunctionBody
  environment : List (κ × ν)

inductive Function (ν : Type) (κ : Type := String) where
  | closure (identity : Nat) (closure : Closure ν κ)
  | builtin (builtin : Builtin)
  /-- A function declared as external for which there is no implementation. -/
  | unbound (name : String)

inductive Value (κ : Type := String) where
  | number (value : Float)
  | boolean (value : Bool)
  | bigInteger (value : Int)
  | null
  | list (items : List (Value κ))
  | sequence (identity : Nat) (sequence : Sequence (Value κ))
  | object (fields : List (String × Value κ))
  /-- A value of a union, or of a tagged type. -/
  | tagged (payload : Value κ) (tag : String)
  | function (function : Function (Value κ) κ)

/-- Values by key, the newest first. -/
abbrev Environment (κ : Type := String) := List (κ × Value κ)

/-- The kinds of values, by which errors speak of them. -/
inductive Kind where
  | number | boolean | bigInteger | null | list | sequence | object | tagged | function
deriving DecidableEq, Repr

def Kind.name : Kind → String
  | number => "Number" | boolean => "Boolean" | bigInteger => "BigInteger" | null => "Null"
  | list => "List" | sequence => "Sequence" | object => "Object" | tagged => "Tagged"
  | function => "Function"

namespace Value

variable {κ : Type}

def kind : Value κ → Kind
  | number _ => .number
  | boolean _ => .boolean
  | bigInteger _ => .bigInteger
  | null => .null
  | list _ => .list
  | sequence .. => .sequence
  | object _ => .object
  | tagged .. => .tagged
  | function _ => .function

/-! ## Equality -/

def sameFunction : Function (Value κ) κ → Function (Value κ) κ → Bool
  | .closure identity _, .closure identity' _ => identity == identity'
  | .builtin b, .builtin c => b == c
  | .unbound name, .unbound name' => name == name'
  | _, _ => false

mutual

/-- Equality as `==` of the language has it: a number that is not one differs from itself. -/
def same : Value κ → Value κ → Bool
  | number x, number y => x == y
  | boolean a, boolean b => a == b
  | bigInteger a, bigInteger b => a == b
  | null, null => true
  | list items, list others => sameItems items others
  | sequence identity _, sequence identity' _ => identity == identity'
  | object fields, object others => sameFields fields others
  | tagged a tag, tagged b tag' => tag == tag' && a.same b
  | function f, function g => sameFunction f g
  | _, _ => false

def sameItems : List (Value κ) → List (Value κ) → Bool
  | [], [] => true
  | a :: rest, b :: rest' => a.same b && sameItems rest rest'
  | _, _ => false

def sameFields : List (String × Value κ) → List (String × Value κ) → Bool
  | [], [] => true
  | (name, a) :: rest, (name', b) :: rest' => name == name' && a.same b && sameFields rest rest'
  | _, _ => false

end

/-! ## Text -/

def functionText : Function Value → String
  | .closure _ c =>
    match c.name with
    | some name => "<fn " ++ name ++ ">"
    | none => "<fn>"
  | .builtin b => "<builtin " ++ b.name ++ ">"
  | .unbound name => "<external " ++ name ++ ">"

mutual

def text : Value → String
  | number x => numberText .value x
  | boolean b => if b then "true" else "false"
  | bigInteger n => toString n ++ "n"
  | null => "null"
  | list items => "[" ++ String.intercalate ", " (itemTexts items) ++ "]"
  | sequence .. => "<sequence>"
  | object fields => "\x7b" ++ String.intercalate ", " (fieldTexts fields) ++ "\x7d"
  | tagged payload tag =>
    match payload with
    | tagged .. => "(" ++ payload.text ++ ") # " ++ tag
    | _ => payload.text ++ " # " ++ tag
  | function f => functionText f

def itemTexts : List Value → List String
  | [] => []
  | a :: rest => a.text :: itemTexts rest

def fieldTexts : List (String × Value) → List String
  | [] => []
  | (name, a) :: rest => (name ++ ": " ++ a.text) :: fieldTexts rest

end

end Value

end Sable
