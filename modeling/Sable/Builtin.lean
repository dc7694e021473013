/-! The functions that are implemented outside the language. -/
namespace Sable

inductive Builtin where
  | range | naturals | filter | map | take | list | sequence | length | get | sum | bigint
deriving DecidableEq, Repr

namespace Builtin

def all : List Builtin :=
  [range, naturals, filter, map, take, list, sequence, length, get, sum, bigint]

def name : Builtin → String
  | range => "range" | naturals => "naturals" | filter => "filter" | map => "map" | take => "take"
  | list => "list" | sequence => "sequence" | length => "length" | get => "get" | sum => "sum"
  | bigint => "bigint"

/-- The builtin of this name, if there is one. -/
def ofName? (name : String) : Option Builtin := all.find? (·.name == name)

/-- How many arguments a builtin takes, if not any number of them. -/
def arity? : Builtin → Option Nat
  | naturals => some 0
  | sequence | length | bigint => some 1
  | range | filter | map | take | get => some 2
  | list | sum => none

end Builtin

end Sable
