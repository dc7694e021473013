import Sable.Token.Label
import Sable.Span

/-! What can be wrong with a source text. -/
namespace Sable

/-- What a reader was looking for. -/
inductive Expectation where
  | token (token : Token)
  | identifier
  | declaration
  | functionBody
  | type
  | expression
deriving DecidableEq, Repr

def Expectation.text : Expectation → String
  | token t => t.label
  | identifier => "identifier"
  | declaration => "declaration or 'return'"
  | functionBody => "'=' or '\x7b' to start function body"
  | type => "type"
  | expression => "expression"

/-- A fault in a source text; `found` is the next token, if there is one. -/
inductive ParseFault where
  | unexpectedCharacter
  | expected (what : Expectation) (found : Option Token)
  /-- Text goes on after the final expression. -/
  | trailing (found : Option Token)
deriving DecidableEq, Repr

def ParseFault.message : ParseFault → String
  | unexpectedCharacter => "unexpected character"
  | expected what found => "expected " ++ what.text ++ ", found " ++ describe found
  | trailing found => "unexpected " ++ describe found ++ " after return expression"
where
  describe : Option Token → String
    | some t => t.label
    | none => "end of input"

structure ParseError where
  fault : ParseFault
  span : Span
deriving DecidableEq, Repr

namespace ParseError

def message (e : ParseError) : String := e.fault.message

/-- The error with its place in front. -/
def text (e : ParseError) : String :=
  toString e.span.start ++ ":" ++ toString e.span.stop ++ ": " ++ e.message

end ParseError

end Sable
