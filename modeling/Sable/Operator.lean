/-! The operators of the language and the symbols by which they are written. -/
namespace Sable

inductive ArithmeticOp where
  | add | subtract | multiply | divide
  /-- The quotient rounded down. -/
  | floorDivide
  | remainder
deriving DecidableEq, Repr

namespace ArithmeticOp

def symbol : ArithmeticOp → String
  | add => "+" | subtract => "-" | multiply => "*" | divide => "/" | floorDivide => "//"
  | remainder => "%"

/-- A quotient and a remainder are taken of numbers only. -/
def onBigIntegers : ArithmeticOp → Bool
  | add | subtract | multiply | floorDivide => true
  | divide | remainder => false

end ArithmeticOp

inductive ComparisonOp where
  | less | greater | equal
deriving DecidableEq, Repr

def ComparisonOp.symbol : ComparisonOp → String
  | less => "<" | greater => ">" | equal => "=="

inductive LogicalOp where
  | and | or
deriving DecidableEq, Repr

def LogicalOp.symbol : LogicalOp → String
  | and => "and" | or => "or"

inductive BinaryOp where
  | arithmetic (op : ArithmeticOp)
  | comparison (op : ComparisonOp)
  | logical (op : LogicalOp)
deriving DecidableEq, Repr

def BinaryOp.symbol : BinaryOp → String
  | arithmetic op => op.symbol
  | comparison op => op.symbol
  | logical op => op.symbol

inductive UnaryOp where
  | negate | not
deriving DecidableEq, Repr

def UnaryOp.symbol : UnaryOp → String
  | negate => "-" | not => "not"

end Sable
