import Sable.Ty.Text

/-! Substitutions: types put in the place of type variables. -/
namespace Sable

/-- Types by variable; no variable occurs twice. -/
structure Substitution where
  entries : List (TypeVariable × Ty)
deriving Repr

/-- An order in which the entries of a substitution are gone through. They do not lie in one of their own, so a search
among them may come upon any of them first; and for other entries it may be quite another order. -/
class EntryOrder where
  walk : List (TypeVariable × Ty) → List (TypeVariable × Ty)
  perm : ∀ entries, (walk entries).Perm entries

/-- Entries are gone through in the order in which they were put in, unless another order is given. -/
instance EntryOrder.asPutIn : EntryOrder := ⟨id, .refl⟩

/-- Why the type arguments of a call cannot be inferred. -/
inductive InferenceError where
  | ambiguous (name : String) (first second : Ty)
  | unmapped (name : String)
  | mismatch (expected actual : Ty)
deriving Repr

def InferenceError.message : InferenceError → String
  | ambiguous v first second =>
    "ambiguous type for type argument " ++ v ++ ": both " ++ first.text ++ " and " ++ second.text
  | unmapped v => "could not infer type for type argument " ++ v
  | mismatch expected actual => "type mismatch: expected " ++ expected.text ++ ", got " ++ actual.text

namespace Substitution

def empty : Substitution := ⟨[]⟩

def single (v : TypeVariable) (type : Ty) : Substitution := ⟨[(v, type)]⟩

def size (s : Substitution) : Nat := s.entries.length

def isEmpty (s : Substitution) : Bool := s.entries.isEmpty

/-- The type in the place of a variable, among `entries`. -/
def find? (v : TypeVariable) : List (TypeVariable × Ty) → Option Ty
  | [] => none
  | (own, type) :: rest => if own = v then some type else find? v rest

def get? (s : Substitution) (v : TypeVariable) : Option Ty := find? v s.entries

/-- Puts a type in the place of a variable, whatever was there. -/
def put (v : TypeVariable) (type : Ty) : List (TypeVariable × Ty) → List (TypeVariable × Ty)
  | [] => [(v, type)]
  | (own, old) :: rest => if own = v then (v, type) :: rest else (own, old) :: put v type rest

/-- Of two types for one variable the later counts. -/
def ofList (pairs : List (TypeVariable × Ty)) : Substitution :=
  ⟨pairs.foldl (fun entries (v, type) => put v type entries) []⟩

/-- Adds entries, one after the other. A variable may have one type only. -/
def mergeEntries (s : Substitution) :
    List (TypeVariable × Ty) → Except InferenceError Substitution
  | [] => .ok s
  | (v, type) :: rest =>
    match s.get? v with
    | some old => if old == type then s.mergeEntries rest else .error (.ambiguous v.name old type)
    | none => Substitution.mergeEntries ⟨s.entries ++ [(v, type)]⟩ rest

/-- Adds the entries of another substitution. Where several of them are for variables that have other types, the order
decides which of these is named. -/
def merge [EntryOrder] (s other : Substitution) : Except InferenceError Substitution :=
  s.mergeEntries (EntryOrder.walk other.entries)

/-! ## Application -/

mutual

/-- Puts types in the place of variables, wherever these occur. -/
def replace (s : Substitution) : Ty → Ty
  | .number => .number
  | .boolean => .boolean
  | .bigInteger => .bigInteger
  | .null => .null
  | .var v => (s.get? v).getD (.var v)
  | .list a => .list (s.replace a)
  | .sequence a => .sequence (s.replace a)
  | .nullable a => (s.replace a).orNull
  | .tagged a tag => .tagged (s.replace a) tag
  | .object fields => .object (s.replaceFields fields)
  | .union alternatives narrowed => .union (s.replaceFields alternatives) narrowed
  | .function vs ps result => .function vs (s.replaceParameters ps) (s.replace result)

def replaceFields (s : Substitution) : List (String × Ty) → List (String × Ty)
  | [] => []
  | (name, a) :: rest => (name, s.replace a) :: s.replaceFields rest

def replaceParameters (s : Substitution) : ParameterList (String × Ty) → ParameterList (String × Ty)
  | .fixed ps => .fixed (s.replaceFields ps)
  | .variadic (name, a) => .variadic (name, s.replace a)

end

/-- The type with the variables replaced. The empty substitution leaves it as it is, optional types of
optional types included. -/
def apply (s : Substitution) (type : Ty) : Ty := if s.isEmpty then type else s.replace type

def applyParameters (s : Substitution) (ps : Parameters) : Parameters :=
  if s.isEmpty then ps else s.replaceParameters ps

end Substitution

end Sable
