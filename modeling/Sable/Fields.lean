/-! Named fields in the order of their names, which is the order in which objects and unions are
compared and shown. -/
namespace Sable

/-- Fields by name: the names ascend, so none occurs twice. -/
abbrev Fields (α : Type) := List (String × α)

namespace Fields

variable {α : Type}

def get? (name : String) : Fields α → Option α
  | [] => none
  | (own, a) :: rest => if own = name then some a else get? name rest

def contains (name : String) (fields : Fields α) : Bool := (get? name fields).isSome

def names (fields : Fields α) : List String := fields.map Prod.fst

/-- Puts a field at its place; a field of that name is replaced. -/
def insert (name : String) (a : α) : Fields α → Fields α
  | [] => [(name, a)]
  | (own, b) :: rest =>
    if name = own then (name, a) :: rest
    else if name < own then (name, a) :: (own, b) :: rest
    else (own, b) :: insert name a rest

/-- The fields in any order, put in order; of two with one name the later counts. -/
def ofList (entries : List (String × α)) : Fields α :=
  entries.foldl (fun fields (name, a) => insert name a fields) []

end Fields

end Sable
