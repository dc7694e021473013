import Sable.Reader

/-! Reading type expressions, and the lists of type parameters and of parameters that they share with
functions. -/
namespace Sable.Reader

/-- The type parameters of a function, `[A, B]`, or none. -/
def generics : Reader Generics := do
  if ← mark? .leftBracket then
    let names ← separated .comma ident
    mark .rightBracket
    pure names
  else pure []

section

-- How a type inside another one is read.
variable (nested : Reader TypeExpr)

/-- A parameter, `name: type`. -/
def parameterWith : Reader (Parameter TypeExpr) := do
  let name ← ident
  mark .colon
  let type ← nested
  pure ⟨name, type, ← spanFrom name.span⟩

/-- Parameters, `(a: T, b: U)` or `(...items: T)`. -/
def parametersWith : Reader (ParameterList (Parameter TypeExpr)) := do
  mark .leftParen
  if ← mark? .ellipsis then
    let p ← parameterWith nested
    mark .rightParen
    pure (.variadic p)
  else
    let ps ← itemsUntil .rightParen (parameterWith nested)
    pure (.fixed ps)

/-- Type arguments, `[T, U]`, after the opening bracket. -/
def typeArgumentsWith : Reader (List TypeExpr) := do
  let types ← separated .comma nested
  mark .rightBracket
  pure types

def functionTypeWith (start : Span) : Reader TypeExpr := do
  let names ← generics
  let ps ← parametersWith nested
  mark .arrow
  let result ← nested
  newType (← spanFrom start) (.function · names ps result)

/-- A field of an object type, `name: type`. -/
def typeFieldWith : Reader (String × TypeExpr) := do
  let name ← ident
  mark .colon
  let type ← nested
  pure (name.value, type)

/-- Whether an opening parenthesis and the tokens after it begin a list of parameters and not a type in
parentheses. -/
def opensParameters : List (Spanned Token) → Bool
  | _ :: ⟨.mark .rightParen, _⟩ :: _ => true
  | _ :: ⟨.mark .ellipsis, _⟩ :: _ => true
  | _ :: ⟨.ident _, _⟩ :: ⟨.mark .colon, _⟩ :: _ => true
  | _ => false

def atParameters : Reader Bool := fun s => (some (opensParameters s.rest), s)

def primaryTypeWith : Reader TypeExpr := do
  let start ← here
  match ← peek with
  | some (.ident name) =>
    advance
    let arguments ← if ← mark? .leftBracket then typeArgumentsWith nested else pure []
    newType (← spanFrom start) (.named · name arguments)
  | some (.mark .leftBrace) =>
    advance
    let fields ← itemsUntil .rightBrace (typeFieldWith nested)
    newType (← spanFrom start) (.object · fields)
  | some (.mark .leftBracket) => functionTypeWith nested start
  | some (.mark .leftParen) =>
    if ← atParameters then functionTypeWith nested start
    else
      advance
      let inner ← nested
      mark .rightParen
      pure inner
  | _ => expected .type

end

/-- The question marks after a type. -/
def nullableUpTo : Nat → TypeExpr → Reader TypeExpr
  | 0, type => pure type
  | count + 1, type => do
    if ← mark? .question then
      let wider ← newType (← spanFrom type.site.span) (.nullable · type)
      nullableUpTo count wider
    else pure type

def typeWith (nested : Reader TypeExpr) : Reader TypeExpr := do
  let type ← primaryTypeWith nested
  bounded (nullableUpTo · type)

/-- A type with at most `depth` types around any part of it. -/
def typeUpTo : (depth : Nat) → Reader TypeExpr
  | 0 => expected .type
  | depth + 1 => typeWith (typeUpTo depth)

/-- A type. A type inside another one begins after at least one token, so there are no more around any
part than there are tokens. -/
def type : Reader TypeExpr := bounded typeUpTo

def parameters : Reader (ParameterList (Parameter TypeExpr)) := parametersWith type

/-- A type after a colon, `: type`, or nothing. -/
def annotation? : Reader (Option TypeExpr) := do
  if ← mark? .colon then
    let t ← type
    pure (some t)
  else pure none

end Sable.Reader
