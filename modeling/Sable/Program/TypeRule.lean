import Sable.Program
import Sable.Ty.Inference
import Sable.TypeError

/-! The rules that give every expression and every binding of a program its type.

A rule asks for the types of other nodes by way of a function `ask`, and it runs in any monad in which
type errors can be raised; so the same rules serve a determination that remembers what it found and one
that does not. -/
namespace Sable.Program

section

variable {m : Type → Type} [Monad m] [MonadExceptOf TypeError m] [EntryOrder]

def fail {α : Type} (fault : TypeFault) (span : Span) : m α := throw ⟨fault, span⟩

/-! ## What types have to be -/

/-- Requires that a value of type `actual` may stand where `expected` is required. -/
def requireAssignable (actual expected : Ty) (span : Span) : m Unit :=
  match actual.assignable expected with
  | .ok true => pure ()
  | .ok false => fail (.mismatch expected actual) span
  | .error e => fail (.relation e) span

/-- Requires a union or a tagged type, for the sake of the given construct. -/
def requireTagView (construct : String) (type : Ty) (span : Span) : m Ty.TagView :=
  match type.tagView? with
  | some view => pure view
  | none => fail (.notTagged construct type) span

/-- Whether it is known that values of type `own` may stand for those of type `other`. -/
def surelyAssignable (own other : Ty) : Bool :=
  match own.assignable other with
  | .ok related => related
  | .error _ => false

/-- Whether values of the two types may be compared by `==`. -/
def comparable (a b : Ty) : Bool :=
  surelyAssignable a.widened b.widened || surelyAssignable b.widened a.widened

/-- The type of a choice between two values, if there is one: types agree when they are equal, or when
they are narrowings of one union. -/
def agreeing? (a b : Ty) : Option Ty :=
  if a == b then some a else if a.widened == b.widened then some a.widened else none

/-! ## Bindings -/

section

variable (p : Program) (ask : NodeId → m Ty)

/-- The type of a function. Where no result type is written down, the body decides. -/
def signatureType (signature : Signature) (body : Option FunctionBody) : m Ty := do
  let result ← match signature.result, body with
    | some type, _ => pure type
    | none, some body => ask body.result
    | none, none => fail .missingResultType .none
  pure (.function signature.typeVariables signature.arguments result)

def bindingType (id : BindingId) : m Ty :=
  match p.binding id with
  | .value _ _ (some type) _ => pure type
  | .value _ _ none node => ask node
  | .function _ _ signature body => signatureType ask signature body
  | .parameter _ _ type => pure type
  | .payload _ span scrutinee tag => do
    let type ← ask scrutinee
    match type.tagView?.bind (·.payload? tag) with
    | some payload => pure payload
    | none => fail (.invalidTag tag type) span

/-- The type of a name. -/
def referenceType (name : String) (target : Option Target) (span : Span) : m Ty :=
  match target with
  | none => fail (.undefinedVariable name) span
  | some (.bound id) => bindingType p ask id
  | some (.enclosing id) =>
    match p.binding id with
    | .function _ _ signature _ =>
      if signature.result.isSome then signatureType ask signature none
      else fail (.recursiveFunction name) span
    | _ => bindingType p ask id
  | some (.narrowed id tag) => do
    let type ← bindingType p ask id
    pure ((type.narrow? tag).getD type)
  | some (.nonNull id) => do pure (← bindingType p ask id).withoutNull

/-! ## Expressions -/

/-- Types of nodes in order. -/
def askAll : List NodeId → m (List Ty)
  | [] => pure []
  | id :: rest => do
    let type ← ask id
    pure (type :: (← askAll rest))

/-- Adds the types of the fields of an object literal to those `done`. -/
def objectFields (span : Span) (done : Fields Ty) : List (String × NodeId) → m (Fields Ty)
  | [] => pure done
  | (name, id) :: rest => do
    let type ← ask id
    if Fields.contains name done then fail (.duplicateField name) span
    objectFields span (Fields.insert name type done) rest

def arithmeticType (op : ArithmeticOp) (a b : Ty) (span : Span) : m Ty :=
  match a, b with
  | .number, .number => pure .number
  | .bigInteger, .bigInteger =>
    if op.onBigIntegers then pure .bigInteger else fail (.binaryOperator op.symbol a b) span
  | _, _ => fail (.binaryOperator op.symbol a b) span

def comparisonType (op : ComparisonOp) (a b : Ty) (span : Span) : m Ty :=
  let allowed := match op, a, b with
    | .equal, _, _ => comparable a b
    | _, .number, .number => true
    | _, .bigInteger, .bigInteger => true
    | _, _, _ => false
  if allowed then pure .boolean else fail (.binaryOperator op.symbol a b) span

/-- The name by which a function is called, if it is called by one. -/
def calleeName? (callee : NodeId) : Option String :=
  match (p.node callee).form with
  | .reference name _ => some name
  | _ => none

/-- The type arguments of a call: those written down, or else those inferred. -/
def callSubstitution (callee : Option String) (vs : List TypeVariable) (parameters : Parameters)
    (written : List Ty) (arguments : List Ty) (span : Span) : m Substitution :=
  if written.isEmpty then
    if vs.isEmpty then pure .empty
    else
      match Substitution.infer vs parameters arguments with
      | .ok s => pure s
      | .error e => fail (.inference e) span
  else if written.length = vs.length then pure (.ofList (vs.zip written))
  else fail (.typeArgumentCount callee vs.length written.length) span

/-- Requires that the arguments, whose nodes and types are given in order, fit their parameters. -/
def requireArguments : Parameters → List (NodeId × Ty) → m Unit
  | _, [] => pure ()
  | .fixed [], _ => pure ()
  | .fixed ((_, expected) :: ps), (id, actual) :: rest => do
    requireAssignable actual expected (p.node id).span
    requireArguments (.fixed ps) rest
  | .variadic parameter, (id, actual) :: rest => do
    requireAssignable actual parameter.2 (p.node id).span
    requireArguments (.variadic parameter) rest

def callType (callee : NodeId) (written : List Ty) (arguments : List NodeId) (span : Span) :
    m Ty := do
  match ← ask callee with
  | .function vs parameters result =>
    let types ← askAll ask arguments
    match parameters with
    | .fixed ps =>
      if ps.length ≠ arguments.length then
        fail (.argumentCount (p.calleeName? callee) ps.length arguments.length) span
    | .variadic _ => pure ()
    let s ← callSubstitution (p.calleeName? callee) vs parameters written types span
    requireArguments p (s.applyParameters parameters) (arguments.zip types)
    pure (s.apply result)
  | other => fail (.notCallable other) span

/-- Goes on with the arms of a match on a value of type `type` after those of the tags `seen`, the types
of which agree on `agreed`; gives all tags and what all types agree on. -/
def armTypes (view : Ty.TagView) (type : Ty) (seen : List String) (agreed : Option Ty) :
    List Arm → m (List String × Option Ty)
  | [] => pure (seen, agreed)
  | arm :: rest => do
    if !view.hasTag arm.tag then fail (.invalidTag arm.tag type) arm.span
    if seen.contains arm.tag then fail (.duplicateArm arm.tag) arm.span
    let body ← ask arm.body
    let next ← match agreed with
      | none => pure body
      | some first =>
        match agreeing? first body with
        | some both => pure both
        | none => fail (.armsDiffer first body) arm.span
    armTypes view type (seen ++ [arm.tag]) (some next) rest

def casesType (scrutinee : NodeId) (arms : List Arm) (span : Span) : m Ty := do
  let type ← ask scrutinee
  let view ← requireTagView "match" type span
  let (seen, agreed) ← armTypes ask view type [] none arms
  let missing := view.required.filter fun tag => !seen.contains tag
  if !missing.isEmpty then fail (.missingArms missing) span
  match agreed with
  | some result => pure result
  | none => fail .noArms span

/-- The type of a node. -/
def typeRule (id : NodeId) : m Ty := do
  let span := (p.node id).span
  match (p.node id).form with
  | .number _ => pure .number
  | .bigInteger _ => pure .bigInteger
  | .boolean _ => pure .boolean
  | .null => pure .null
  | .object fields => do pure (.object (← objectFields ask span [] fields))
  | .arithmetic op lhs rhs => do
    let a ← ask lhs
    let b ← ask rhs
    arithmeticType op a b span
  | .negate operand => do
    match ← ask operand with
    | .number => pure .number
    | .bigInteger => pure .bigInteger
    | other => fail (.unaryOperator "-" other) span
  | .comparison op lhs rhs => do
    let a ← ask lhs
    let b ← ask rhs
    comparisonType op a b span
  | .logical op lhs rhs => do
    let a ← ask lhs
    let b ← ask rhs
    if a == .boolean && b == .boolean then pure .boolean
    else fail (.binaryOperator op.symbol a b) span
  | .not operand => do
    match ← ask operand with
    | .boolean => pure .boolean
    | other => fail (.unaryOperator "not" other) span
  | .conditional condition thenBranch elseBranch => do
    let c ← ask condition
    if !(c == .boolean) then fail (.conditionNotBoolean c) (p.node condition).span
    let a ← ask thenBranch
    let b ← ask elseBranch
    match agreeing? a b with
    | some both => pure both
    | none => fail (.branchesDiffer a b) span
  | .reference name target => referenceType p ask name target span
  | .call callee written arguments => callType p ask callee written arguments span
  | .lambda signature body => signatureType ask signature (some body)
  | .field owner name => do
    match ← ask owner with
    | .object fields =>
      match Fields.get? name fields with
      | some type => pure type
      | none => fail (.noField (.object fields) name) span
    | other => fail (.noField other name) span
  | .tagged value tag => do pure (.tagged (← ask value) tag)
  | .hasTag value tag => do
    let type ← ask value
    let view ← requireTagView "is" type span
    if view.hasTag tag then pure .boolean else fail (.invalidTag tag type) span
  | .untag value => do
    let type ← ask value
    let view ← requireTagView "untag" type span
    match view.pinned with
    | some (_, payload) => pure payload
    | none => fail (.notNarrowed type) span
  | .cases scrutinee arms => casesType ask scrutinee arms span

end

end

end Sable.Program
