import Sable.Ty.Substitution

/-! Inference of the type arguments of a call.

The declared types of the parameters are laid over the types of the arguments. Where a variable comes to
lie over a type, it stands for that type; a variable has to stand for the same type everywhere. -/
namespace Sable

namespace Substitution

section

variable [EntryOrder]

/-- Lays a parameter over every type, where `laid` lays it over one. -/
def unifyEach (laid : Ty → Except InferenceError Substitution) (found : Substitution) :
    List Ty → Except InferenceError Substitution
  | [] => .ok found
  | b :: rest => do unifyEach laid (← found.merge (← laid b)) rest

mutual

/-- Lays `declared` over `actual`. Parts without variables are not compared: whether they fit is a
question of assignability. -/
def unify (vs : List TypeVariable) (declared actual : Ty) : Except InferenceError Substitution :=
  if declared.mentions vs then
    match declared, actual with
    | .var v, _ => .ok (single v actual.widened)
    | .list a, .list b => unify vs a b
    | .sequence a, .sequence b => unify vs a b
    | .nullable _, .null => .ok empty
    | .nullable a, .nullable b => unify vs a b
    | .nullable a, _ => unify vs a actual
    | .tagged a own, .tagged b tag =>
      if own = tag then unify vs a b else .error (.mismatch declared actual)
    | .object own, .object others => unifyFields vs (.mismatch declared actual) others empty own
    | .union own _, .union others _ => unifyFields vs (.mismatch declared actual) others empty own
    | .union own _, .tagged payload tag =>
      unifyAlternative vs (.mismatch declared actual) tag payload own
    | .function _ ps result, .function _ qs actualResult => do
      (← unifyParameters vs ps qs).merge (← unify vs result actualResult)
    | _, _ => .error (.mismatch declared actual)
  else .ok empty
termination_by structural declared

/-- Lays each field over the one of the same name, adding to `found`. -/
def unifyFields (vs : List TypeVariable) (missing : InferenceError) (actual : Fields Ty)
    (found : Substitution) : List (String × Ty) → Except InferenceError Substitution
  | [] => .ok found
  | (name, a) :: rest =>
    match Fields.get? name actual with
    | none => .error missing
    | some b => do
      unifyFields vs missing actual (← found.merge (← unify vs a b)) rest
termination_by structural fields => fields

/-- Lays the alternative of the given tag over a payload. -/
def unifyAlternative (vs : List TypeVariable) (missing : InferenceError) (tag : String)
    (payload : Ty) : List (String × Ty) → Except InferenceError Substitution
  | [] => .error missing
  | (name, a) :: rest =>
    if name = tag then unify vs a payload else unifyAlternative vs missing tag payload rest
termination_by structural alternatives => alternatives

/-- Lays parameters over parameters, by position. -/
def unifyParameters (vs : List TypeVariable) :
    ParameterList (String × Ty) → ParameterList (String × Ty) → Except InferenceError Substitution
  | .fixed ps, .fixed qs => unifyZip vs empty ps (qs.map Prod.snd)
  | .fixed ps, .variadic (_, b) => unifyOver vs b empty ps
  | .variadic (_, a), .fixed qs => unifyEach (fun b => unify vs a b) empty (qs.map Prod.snd)
  | .variadic (_, a), .variadic (_, b) => unifyEach (fun b => unify vs a b) empty [b]
termination_by structural own => own

def unifyZip (vs : List TypeVariable) (found : Substitution) :
    List (String × Ty) → List Ty → Except InferenceError Substitution
  | (_, a) :: rest, b :: others => do
    unifyZip vs (← found.merge (← unify vs a b)) rest others
  | _, _ => .ok found
termination_by structural own => own

/-- Lays every parameter over the same type. -/
def unifyOver (vs : List TypeVariable) (b : Ty) (found : Substitution) :
    List (String × Ty) → Except InferenceError Substitution
  | [] => .ok found
  | (_, a) :: rest => do unifyOver vs b (← found.merge (← unify vs a b)) rest
termination_by structural own => own

end

/-- The declared type and the actual type of each argument that a parameter takes. -/
def argumentPairs (declared : Parameters) (actual : List Ty) : List (Ty × Ty) :=
  match declared with
  | .fixed ps => (ps.map Prod.snd).zip actual
  | .variadic (_, a) => actual.map (a, ·)

/-- Lays declared types over actual ones in order. -/
def unifyPairs (vs : List TypeVariable) (found : Substitution) :
    List (Ty × Ty) → Except InferenceError Substitution
  | [] => .ok found
  | (a, b) :: rest => do unifyPairs vs (← found.merge (← unify vs a b)) rest

/-- What each of the variables stands for in a call with arguments of the given types. -/
def infer (vs : List TypeVariable) (declared : Parameters) (actual : List Ty) :
    Except InferenceError Substitution := do
  let found ← unifyPairs vs empty (argumentPairs declared actual)
  match vs.find? fun v => (found.get? v).isNone with
  | some v => .error (.unmapped v.name)
  | none => pure found

end

end Substitution

end Sable
