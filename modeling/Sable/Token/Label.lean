import Sable.Decimal
import Sable.Token

/-! The labels by which token listings and error messages call a token. -/
namespace Sable.Token

/-- The kind of the token, with what it holds in parentheses. -/
def label : Token → String
  | mark p => p.label
  | keyword k => k.label
  | number x => "Number(" ++ numberText .source x ++ ")"
  | bigInteger digits => "BigInteger(\"" ++ digits ++ "\")"
  | ident name => "Ident(\"" ++ name ++ "\")"

end Sable.Token
