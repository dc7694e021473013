import Sable.Ty.Substitution

/-! Assignability: whether a value of one type may stand where another type is required. -/
namespace Sable

/-- A pair of types of which it makes no sense to ask whether one is assignable to the other. -/
inductive RelationError where
  | invalidTag (tag : String) (target : Ty)
deriving Repr

def RelationError.message : RelationError → String
  | invalidTag tag target => "invalid tag '" ++ tag ++ "' for type " ++ target.text

namespace Ty

/-- What has to be assignable to what for a function with the parameters `own` to stand in for one with
the parameters `required`: it takes no more of them, and whatever is passed to the one required. -/
def obligations? (own required : Parameters) : Option (List (Ty × Ty)) :=
  match own, required with
  | .fixed own, .fixed required =>
    if own.length > required.length then none
    else some ((required.map Prod.snd).zip (own.map Prod.snd))
  | .variadic own, .fixed required => some (required.map fun r => (r.2, own.2))
  | .variadic own, .variadic required => some [(required.2, own.2)]
  | .fixed _, .variadic _ => none

/-- Whether all of the pairs are related, asked in order up to the first that is not. -/
def allRelated (related : Ty → Ty → Except RelationError Bool) :
    List (Ty × Ty) → Except RelationError Bool
  | [] => .ok true
  | (a, b) :: rest => do
    if ← related a b then allRelated related rest else pure false

/-- Whether a function of parameters `own` may stand in for one of parameters `required`. -/
def parametersRelated (related : Ty → Ty → Except RelationError Bool) (own required : Parameters) :
    Except RelationError Bool :=
  match obligations? own required with
  | some pairs => allRelated related pairs
  | none => .ok false

/-- The rules of assignability, with `related` for the parts of the types. -/
def assignableWith (related : Ty → Ty → Except RelationError Bool) (own required : Ty) :
    Except RelationError Bool :=
  if own == required then .ok true else
    match own, required with
    | .function vs ps result, .function ws qs wanted =>
      if vs.length ≠ ws.length then .ok false else
        let matching := Substitution.ofList (ws.zip (vs.map .var))
        if result == matching.apply wanted then
          parametersRelated related ps (matching.applyParameters qs)
        else .ok false
    | .tagged payload tag, .union alternatives narrowed =>
      match Fields.get? tag alternatives with
      | none => .error (.invalidTag tag required)
      | some alternative =>
        if narrowed.any (· ≠ tag) then .ok false else related payload alternative
    | .union alternatives narrowed, .union others narrowed' =>
      .ok (narrowed.isSome && narrowed'.isNone && sameFields alternatives others)
    | .null, .nullable _ => .ok true
    | .nullable a, .nullable b => related a b
    | a, .nullable b => related a b
    | _, _ => .ok false

/-- Assignability of types that are built in at most `depth` steps. -/
def assignableUpTo : (depth : Nat) → Ty → Ty → Except RelationError Bool
  | 0 => fun own required => .ok (own == required)
  | depth + 1 => assignableWith (assignableUpTo depth)

/-- Whether a value of type `own` may stand where `required` is required. Equal types always may;
functions may take fewer parameters and wider ones, up to the names of their type parameters; a tagged
value may stand for a union that has its tag, a narrowed union for the whole one, and both `null` and
a plain value for an optional one. To ask for a tag that a union does not have is an error. -/
def assignable (own required : Ty) : Except RelationError Bool :=
  assignableUpTo (own.size + required.size) own required

/-- Whether a function with the parameters `own` may stand in for one with the parameters `required`. -/
def parametersAssignable (own required : Parameters) : Except RelationError Bool :=
  parametersRelated assignable own required

end Ty

end Sable
