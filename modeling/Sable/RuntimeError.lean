import Sable.Value

/-! What can go wrong while a program runs. -/
namespace Sable

inductive RuntimeFault where
  | undefinedVariable (name : String)
  | wrongKind (expected actual : Kind)
  | unaryOperator (symbol : String) (operand : Kind)
  | binaryOperator (symbol : String) (lhs rhs : Kind)
  | divisionByZero
  | missingField (name : String)
  | notAnObject (name : String) (actual : Kind)
  | noArm (tag : String)
  | notImplemented (name : String)
  | argumentCount (expected actual : Nat)
  | builtinArgumentCount (builtin : Builtin) (expected actual : Nat)
  | notWhole (builtin : Builtin) (actual : Float)
  | negativeCount

namespace RuntimeFault

private def wanted : Kind → String
  | .tagged => "a tagged value"
  | kind => kind.name

def message : RuntimeFault → String
  | undefinedVariable name => "undefined variable '" ++ name ++ "'"
  | wrongKind expected actual => "expected " ++ wanted expected ++ ", got " ++ actual.name
  | unaryOperator symbol operand => "operator '" ++ symbol ++ "' cannot be applied to " ++ operand.name
  | binaryOperator symbol lhs rhs =>
    "operator '" ++ symbol ++ "' cannot be applied to " ++ lhs.name ++ " and " ++ rhs.name
  | divisionByZero => "division by zero"
  | missingField name => "object has no field '" ++ name ++ "'"
  | notAnObject name actual => "cannot read field '" ++ name ++ "' of " ++ actual.name
  | noArm tag => "no match arm for tag '" ++ tag ++ "'"
  | notImplemented name => "external function '" ++ name ++ "' has no implementation"
  | argumentCount expected actual =>
    "expected " ++ toString expected ++ " arguments, got " ++ toString actual
  | builtinArgumentCount b expected actual =>
    b.name ++ " expects " ++ toString expected ++ " arguments, got " ++ toString actual
  | notWhole b actual => b.name ++ " expects a whole number, got " ++ numberText .value actual
  | negativeCount => "take expects a non-negative count"

end RuntimeFault

structure RuntimeError where
  fault : RuntimeFault
  span : Span

namespace RuntimeError

def message (e : RuntimeError) : String := e.fault.message

/-- The error with its place in front. -/
def text (e : RuntimeError) : String :=
  "[" ++ toString e.span.start ++ ":" ++ toString e.span.stop ++ "] " ++ e.message

end RuntimeError

/-! ## Operators and casts -/

namespace Value

variable {κ : Type}

/-- A value of the wanted kind, as what it holds. -/
def asNumber : Value κ → Except RuntimeFault Float
  | number x => .ok x
  | other => .error (.wrongKind .number other.kind)

def asBoolean : Value κ → Except RuntimeFault Bool
  | boolean b => .ok b
  | other => .error (.wrongKind .boolean other.kind)

def asList : Value κ → Except RuntimeFault (List (Value κ))
  | list items => .ok items
  | other => .error (.wrongKind .list other.kind)

def asSequence : Value κ → Except RuntimeFault (Sequence (Value κ))
  | sequence _ s => .ok s
  | other => .error (.wrongKind .sequence other.kind)

def asFunction : Value κ → Except RuntimeFault (Function (Value κ) κ)
  | function f => .ok f
  | other => .error (.wrongKind .function other.kind)

/-- Tag and payload. -/
def asTagged : Value κ → Except RuntimeFault (String × Value κ)
  | tagged payload tag => .ok (tag, payload)
  | other => .error (.wrongKind .tagged other.kind)

def numberArithmetic (op : ArithmeticOp) (x y : Float) : Except RuntimeFault Float :=
  match op with
  | .add => .ok (x + y)
  | .subtract => .ok (x - y)
  | .multiply => .ok (x * y)
  | .divide => if y == 0 then .error .divisionByZero else .ok (x / y)
  | .floorDivide => if y == 0 then .error .divisionByZero else .ok (Binary64.floor (x / y))
  | .remainder => if y == 0 then .error .divisionByZero else .ok (Binary64.remainder x y)

/-- The quotient rounded down: the one rounded toward zero, or one less where that lies above the
exact one. -/
def floorQuotient (a b : Int) : Int :=
  let quotient := a.tdiv b
  if a.tmod b ≠ 0 ∧ decide (a < 0) ≠ decide (b < 0) then quotient - 1 else quotient

def bigIntegerArithmetic (op : ArithmeticOp) (a b : Int) : Except RuntimeFault Int :=
  match op with
  | .add => .ok (a + b)
  | .subtract => .ok (a - b)
  | .multiply => .ok (a * b)
  | .floorDivide => if b = 0 then .error .divisionByZero else .ok (floorQuotient a b)
  | .divide | .remainder => .error (.unaryOperator op.symbol .bigInteger)

def arithmetic (op : ArithmeticOp) : Value κ → Value κ → Except RuntimeFault (Value κ)
  | number x, number y => number <$> numberArithmetic op x y
  | bigInteger a, bigInteger b => bigInteger <$> bigIntegerArithmetic op a b
  | a, b => .error (.binaryOperator op.symbol a.kind b.kind)

def negate : Value κ → Except RuntimeFault (Value κ)
  | number x => .ok (number (-x))
  | bigInteger n => .ok (bigInteger (-n))
  | other => .error (.unaryOperator "-" other.kind)

def compare (op : ComparisonOp) (a b : Value κ) : Except RuntimeFault Bool :=
  match op, a, b with
  | .equal, a, b => .ok (a.same b)
  | .less, number x, number y => .ok (x < y)
  | .greater, number x, number y => .ok (y < x)
  | .less, bigInteger m, bigInteger n => .ok (m < n)
  | .greater, bigInteger m, bigInteger n => .ok (n < m)
  | _, a, b => .error (.binaryOperator op.symbol a.kind b.kind)

end Value

end Sable
