import Sable.ParseError
import Sable.Token.Scan
import Sable.Tree

/-! Readers: steps of reading a tree from a list of tokens.

A reader looks at the tokens that are left, takes some of them, and gives a result or fails. A reader
that fails has put down an error; the tokens it took stay taken. -/
namespace Sable

/-- The state of reading. -/
structure Reader.State where
  /-- The tokens left. -/
  rest : List (Spanned Token)
  /-- Where the last token taken stands. -/
  previous : Span
  /-- The place after the last token of all. -/
  finish : Span
  /-- The nodes made. -/
  nodes : Nodes
  /-- The errors found, in order. -/
  errors : Array ParseError

/-- A step of reading. -/
def Reader (α : Type) : Type := Reader.State → Option α × Reader.State

namespace Reader

variable {α β : Type}

instance : Monad Reader where
  pure a := fun s => (some a, s)
  bind r next := fun s =>
    match r s with
    | (some a, t) => next a t
    | (none, t) => (none, t)

/-! ## The next token -/

/-- The next token. -/
def peek : Reader (Option Token) := fun s => (some (s.rest.head?.map (·.value)), s)

/-- Where the next token stands, or where it would stand. -/
def State.here (s : State) : Span :=
  match s.rest with
  | [] => s.finish
  | t :: _ => t.span

def here : Reader Span := fun s => (some s.here, s)

/-- The state after taking the next token. -/
def State.advance (s : State) : State :=
  match s.rest with
  | [] => s
  | t :: rest => { s with rest, previous := t.span }

def advance : Reader Unit := fun s => (some (), s.advance)

/-- The span from `start` to the end of the last token taken. -/
def spanFrom (start : Span) : Reader Span := fun s => (some (start.merge s.previous), s)

/-! ## Errors -/

/-- Puts down an error at the next token. -/
def report (fault : Option Token → ParseFault) : Reader Unit := fun s =>
  (some (), { s with errors := s.errors.push ⟨fault (s.rest.head?.map (·.value)), s.here⟩ })

/-- Fails, because the next token is not what is wanted. -/
def expected (what : Expectation) : Reader α := fun s =>
  (none, (report (.expected what) s).2)

/-- Goes on when a reader fails. -/
def attempt (r : Reader α) : Reader (Option α) := fun s => (some (r s).1, (r s).2)

/-! ## Single tokens -/

/-- Takes the next token if it is `token`. -/
def token? (token : Token) : Reader Bool := do
  if (← peek) = some token then
    advance
    pure true
  else pure false

/-- Takes the token `token`. -/
def token (token : Token) : Reader Unit := do
  if ← token? token then pure () else expected (.token token)

def mark? (p : Punctuation) : Reader Bool := token? (.mark p)

def mark (p : Punctuation) : Reader Unit := token (.mark p)

def keyword (k : Keyword) : Reader Unit := token (.keyword k)

/-- Takes a name. -/
def ident : Reader (Spanned String) := do
  match ← peek with
  | some (.ident name) =>
    let span ← here
    advance
    pure ⟨name, span⟩
  | _ => expected .identifier

/-! ## Nodes -/

/-- Makes the next expression. -/
def newExpr (span : Span) (make : Site → Expr) : Reader Expr := fun s =>
  let e := make ⟨s.nodes.expressions.size, span⟩
  (some e, { s with nodes.expressions := s.nodes.expressions.push e })

/-- Makes the next type expression. -/
def newType (span : Span) (make : Site → TypeExpr) : Reader TypeExpr := fun s =>
  let type := make ⟨s.nodes.types.size, span⟩
  (some type, { s with nodes.types := s.nodes.types.push type })

/-! ## Repetition -/

/-- Allows a reader as many repetitions as there are tokens left. -/
def bounded (r : Nat → Reader α) : Reader α := fun s => r s.rest.length s

/-- Items after separators, as long as there is a separator. -/
def moreUpTo (separator : Punctuation) (item : Reader α) : Nat → Reader (List α)
  | 0 => pure []
  | count + 1 => do
    if ← mark? separator then
      let a ← item
      let rest ← moreUpTo separator item count
      pure (a :: rest)
    else pure []

/-- One item or more, with separators between them. -/
def separated (separator : Punctuation) (item : Reader α) : Reader (List α) := do
  let a ← item
  let rest ← bounded (moreUpTo separator item)
  pure (a :: rest)

/-- Whether the next token is `close`, or there is none. -/
def atClose (close : Punctuation) : Reader Bool := do
  match ← peek with
  | none => pure true
  | some t => pure (t = .mark close)

def itemsUpTo (close : Punctuation) (item : Reader α) : Nat → Reader (List α)
  | 0 => pure []
  | count + 1 => do
    if ← atClose close then pure []
    else
      let a ← item
      if ← mark? .comma then
        let rest ← itemsUpTo close item count
        pure (a :: rest)
      else pure [a]

/-- Items with commas between them, up to and with `close`; a comma may stand after the last. -/
def itemsUntil (close : Punctuation) (item : Reader α) : Reader (List α) := do
  let items ← bounded (itemsUpTo close item)
  mark close
  pure items

end Reader

end Sable
