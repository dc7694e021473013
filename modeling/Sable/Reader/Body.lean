import Sable.Reader.Expr

/-! Reading declarations and bodies. An error inside a declaration costs that declaration: reading goes
on at the next place where one may begin. -/
namespace Sable.Reader

/-! ## Going on after an error -/

/-- Skips to the next keyword that begins a declaration, `return`, or closing brace that is not inside
brackets opened on the way; `depth` of these are open. Gives the last token skipped and what is left. -/
def skipFrom : (depth : Nat) → (previous : Span) → List (Spanned Token) → Span × List (Spanned Token)
  | _, previous, [] => (previous, [])
  | depth, previous, t :: rest =>
    match t.value with
    | .mark .leftParen | .mark .leftBracket | .mark .leftBrace => skipFrom (depth + 1) t.span rest
    | .mark .rightParen | .mark .rightBracket => skipFrom (depth - 1) t.span rest
    | .mark .rightBrace =>
      if depth = 0 then (previous, t :: rest) else skipFrom (depth - 1) t.span rest
    | .keyword k =>
      if depth = 0 ∧ (k.opensDeclaration ∨ k = .returnWord) then (previous, t :: rest)
      else skipFrom depth t.span rest
    | _ => skipFrom depth t.span rest

def recover : Reader Unit := fun s =>
  let (previous, rest) := skipFrom 0 s.previous s.rest
  (some (), { s with previous, rest })

/-- Passes over something that begins no declaration. -/
def passOver : Reader Unit := do
  report (.expected .declaration)
  advance
  recover

/-- Stands in for an expression that cannot be read. -/
def placeholder : Reader Expr := do newExpr (← here) .null

/-! ## Declarations -/

/-- A value, after `val`. -/
def valueDeclaration (start : Span) : Reader Declaration := do
  let name ← ident
  let type ← annotation?
  mark .assign
  let value ← expr
  pure (.value (← spanFrom start) name type value)

/-- An alternative of a union, `tag: payload`. -/
def alternative : Reader Alternative := do
  let tag ← ident
  mark .colon
  let payload ← type
  pure ⟨tag.value, payload, ← spanFrom tag.span⟩

/-- A named type, after `type`. -/
def aliasDeclaration (start : Span) : Reader Declaration := do
  let name ← ident
  let names ← generics
  mark .assign
  let target ← type
  pure (.alias (← spanFrom start) name names target)

/-- A union, after `union`. -/
def unionDeclaration (start : Span) : Reader Declaration := do
  let name ← ident
  let names ← generics
  mark .assign
  let alternatives ← separated .pipe alternative
  pure (.union (← spanFrom start) name names alternatives)

/-- A function without a body, after `external`. -/
def externalDeclaration (start : Span) : Reader Declaration := do
  keyword .defWord
  let name ← ident
  let names ← generics
  let ps ← parameters
  mark .colon
  let result ← type
  pure (.external (← spanFrom start) name names ps result)

section

-- How a body inside another one is read.
variable (nested : Reader Body)

/-- What a function does, `= expression` or `{ body }`. -/
def functionBodyWith : Reader Body := do
  match ← peek with
  | some (.mark .assign) =>
    advance
    let result ← expr
    pure (.mk [] result result.span)
  | some (.mark .leftBrace) =>
    advance
    let body ← nested
    mark .rightBrace
    pure body
  | _ => expected .functionBody

/-- A function, after `def`. -/
def functionDeclarationWith (start : Span) : Reader Declaration := do
  let name ← ident
  let names ← generics
  let ps ← parameters
  let result ← annotation?
  let body ← functionBodyWith nested
  pure (.function (← spanFrom start) name names ps result body)

/-- The declaration that the keyword `k` begins. -/
def declarationWith (k : Keyword) : Reader Declaration := do
  let start ← here
  advance
  match k with
  | .valWord => valueDeclaration start
  | .externalWord => externalDeclaration start
  | .typeWord => aliasDeclaration start
  | .unionWord => unionDeclaration start
  | _ => functionDeclarationWith nested start

/-! ## Bodies -/

/-- The body whose end is missing. -/
def unfinished (start : Span) (declarations : List Declaration) : Reader Body := do
  report (.expected .declaration)
  let stop ← here
  let result ← placeholder
  pure (.mk declarations result (start.merge stop))

/-- The body that `return` ends. -/
def finished (start : Span) (declarations : List Declaration) : Reader Body := do
  advance
  let result ← match ← attempt expr with
    | some result => pure result
    | none => placeholder
  pure (.mk declarations result (← spanFrom start))

/-- The rest of a body that begins at `start`, after the given declarations. -/
def bodyRestUpTo (start : Span) : Nat → List Declaration → Reader Body
  | 0, declarations => unfinished start declarations
  | count + 1, declarations => do
    match ← peek with
    | none | some (.mark .rightBrace) => unfinished start declarations
    | some (.keyword k) =>
      if k.opensDeclaration then
        match ← attempt (declarationWith nested k) with
        | some d => bodyRestUpTo start count (declarations ++ [d])
        | none =>
          recover
          bodyRestUpTo start count declarations
      else if k = .returnWord then finished start declarations
      else
        passOver
        bodyRestUpTo start count declarations
    | some _ =>
      passOver
      bodyRestUpTo start count declarations

def bodyWith : Reader Body := do
  let start ← here
  bounded (bodyRestUpTo nested start · [])

end

/-- A body with at most `depth` bodies around any part of it. -/
def bodyUpTo : (depth : Nat) → Reader Body
  | 0 => do unfinished (← here) []
  | depth + 1 => bodyWith (bodyUpTo depth)

/-- Declarations and `return` with an expression. A body inside another one begins after at least one
token, so there are no more around any part than there are tokens. -/
def body : Reader Body := bounded bodyUpTo

/-- A body with nothing after it. -/
def program : Reader Body := do
  let b ← body
  if (← peek).isSome then report .trailing
  pure b

/-- The state before the first token. -/
def State.start (tokens : List (Spanned Token)) : State where
  rest := tokens
  previous := .none
  finish := match tokens.getLast? with
    | some t => ⟨t.span.stop, t.span.stop⟩
    | none => .none
  nodes := ⟨#[], #[]⟩
  errors := #[]

end Sable.Reader

namespace Sable

/-- A tree, and what was wrong with the text it was read from. -/
structure Parse where
  tree : Tree
  errors : List ParseError
deriving Repr

/-- The tree of a list of tokens. Reading a program never fails, so there is always one. -/
def Parse.ofTokens (tokens : List (Spanned Token)) : Parse :=
  match Reader.program (.start tokens) with
  | (some body, s) => ⟨⟨body, s.nodes⟩, s.errors.toList⟩
  | (none, s) => ⟨⟨.mk [] (.null default) .none, s.nodes⟩, s.errors.toList⟩

/-- Reads a source text. Its unexpected characters are reported before anything else. -/
def parse (source : String) : Parse :=
  let found := scan source
  let read := Parse.ofTokens found.tokens
  { read with errors := found.unexpected.map (⟨.unexpectedCharacter, ·⟩) ++ read.errors }

end Sable
