import Sable.Reader.Type

/-! Reading expressions, from the operators that bind least to those that bind most: `or`, `and`,
comparison, tags, sums, products, leading operators, and what may follow a primary expression. -/
namespace Sable.Reader

/-! ## Operators -/

def orOp? : Token → Option BinaryOp
  | .keyword .orWord => some (.logical .or)
  | _ => none

def andOp? : Token → Option BinaryOp
  | .keyword .andWord => some (.logical .and)
  | _ => none

def comparisonOp? : Token → Option BinaryOp
  | .mark .less => some (.comparison .less)
  | .mark .greater => some (.comparison .greater)
  | .mark .equals => some (.comparison .equal)
  | _ => none

def sumOp? : Token → Option BinaryOp
  | .mark .plus => some (.arithmetic .add)
  | .mark .minus => some (.arithmetic .subtract)
  | _ => none

def productOp? : Token → Option BinaryOp
  | .mark .star => some (.arithmetic .multiply)
  | .mark .slash => some (.arithmetic .divide)
  | .mark .doubleSlash => some (.arithmetic .floorDivide)
  | .mark .percent => some (.arithmetic .remainder)
  | _ => none

/-- What an operator in front of its operand makes of it. -/
def leadingOp? : Token → Option (Site → Expr → Expr)
  | .keyword .notWord => some (.unary · .not)
  | .mark .minus => some (.unary · .negate)
  | .keyword .untagWord => some .untag
  | _ => none

/-- What `# tag` and `is tag` make of the value before them. -/
def tagOp? : Token → Option (Site → Expr → String → Expr)
  | .mark .hash => some .tagged
  | .keyword .isWord => some .hasTag
  | _ => none

/-- The next token as an operator. -/
def operator? {α : Type} (read : Token → Option α) : Reader (Option α) := do
  pure ((← peek).bind read)

/-- The node for `lhs op rhs`. -/
def newBinary (op : BinaryOp) (lhs rhs : Expr) : Reader Expr :=
  newExpr (lhs.span.merge rhs.span) (.binary · op lhs rhs)

/-- Operators of one rank after `lhs`, grouped to the left. -/
def chainUpTo (op? : Token → Option BinaryOp) (operand : Reader Expr) : Nat → Expr → Reader Expr
  | 0, lhs => pure lhs
  | count + 1, lhs => do
    match ← operator? op? with
    | none => pure lhs
    | some op =>
      advance
      let rhs ← operand
      let grouped ← newBinary op lhs rhs
      chainUpTo op? operand count grouped

/-- Operands with operators of one rank between them. -/
def chain (op? : Token → Option BinaryOp) (operand : Reader Expr) : Reader Expr := do
  let lhs ← operand
  bounded (chainUpTo op? operand · lhs)

section

-- How an expression inside another one is read.
variable (nested : Reader Expr)

/-! ## Primary expressions -/

/-- A field of an object literal, `name: value`. -/
def fieldInitWith : Reader (FieldInit Expr) := do
  let name ← ident
  mark .colon
  let value ← nested
  pure ⟨name.value, value, ← spanFrom name.span⟩

/-- An arm of a match, `tag binding => body`. -/
def matchArmWith : Reader (MatchArm Expr) := do
  let tag ← ident
  let binding ← ident
  mark .fatArrow
  let body ← nested
  pure ⟨tag, binding, body, ← spanFrom tag.span⟩

/-- A literal that is a single token. -/
def literal? : Token → Option (Site → Expr)
  | .number x => some (.number · x)
  | .bigInteger digits => some (.bigInteger · digits)
  | .keyword .trueWord => some (.boolean · true)
  | .keyword .falseWord => some (.boolean · false)
  | .keyword .nullWord => some .null
  | .ident name => some (.reference · name)
  | _ => none

def conditionalWith (start : Span) : Reader Expr := do
  let condition ← nested
  keyword .thenWord
  let thenBranch ← nested
  keyword .elseWord
  let elseBranch ← nested
  newExpr (← spanFrom start) (.conditional · condition thenBranch elseBranch)

def lambdaWith (start : Span) : Reader Expr := do
  let names ← generics
  let ps ← parameters
  let result ← annotation?
  mark .fatArrow
  let body ← nested
  newExpr (← spanFrom start) (.lambda · names ps result body)

def casesWith (start : Span) : Reader Expr := do
  let scrutinee ← nested
  mark .leftBrace
  let arms ← itemsUntil .rightBrace (matchArmWith nested)
  newExpr (← spanFrom start) (.cases · scrutinee arms)

/-- An expression that needs no parentheses whatever stands around it, and the forms that begin with a
keyword. Parentheses leave no node of their own. -/
def primaryWith : Reader Expr := do
  let start ← here
  match ← peek with
  | some (.mark .leftParen) =>
    advance
    let inner ← nested
    mark .rightParen
    pure inner
  | some (.mark .leftBrace) =>
    advance
    let fields ← itemsUntil .rightBrace (fieldInitWith nested)
    newExpr (← spanFrom start) (.object · fields)
  | some (.keyword .ifWord) =>
    advance
    conditionalWith nested start
  | some (.keyword .fnWord) =>
    advance
    lambdaWith nested start
  | some (.keyword .matchWord) =>
    advance
    casesWith nested start
  | next =>
    match next.bind literal? with
    | some make =>
      advance
      newExpr (← spanFrom start) make
    | none => expected .expression

/-! ## Operators around primary expressions -/

/-- Field names and lists of arguments after an expression. -/
def accessUpTo : Nat → Expr → Reader Expr
  | 0, e => pure e
  | count + 1, e => do
    match ← peek with
    | some (.mark .dot) =>
      advance
      let name ← ident
      let e ← newExpr (← spanFrom e.span) (.field · e name.value)
      accessUpTo count e
    | some (.mark .leftParen) =>
      advance
      let arguments ← itemsUntil .rightParen nested
      let e ← newExpr (← spanFrom e.span) (.call · e [] arguments)
      accessUpTo count e
    | some (.mark .leftBracket) =>
      advance
      let types ← typeArgumentsWith type
      mark .leftParen
      let arguments ← itemsUntil .rightParen nested
      let e ← newExpr (← spanFrom e.span) (.call · e types arguments)
      accessUpTo count e
    | _ => pure e

def accessWith : Reader Expr := do
  let e ← primaryWith nested
  bounded (accessUpTo nested · e)

def unaryUpTo : Nat → Reader Expr
  | 0 => accessWith nested
  | count + 1 => do
    let start ← here
    match ← operator? leadingOp? with
    | some make =>
      advance
      let operand ← unaryUpTo count
      newExpr (← spanFrom start) (make · operand)
    | none => accessWith nested

def unaryWith : Reader Expr := bounded (unaryUpTo nested)

def productWith : Reader Expr := chain productOp? (unaryWith nested)

def sumWith : Reader Expr := chain sumOp? (productWith nested)

def tagsUpTo : Nat → Expr → Reader Expr
  | 0, value => pure value
  | count + 1, value => do
    match ← operator? tagOp? with
    | some make =>
      advance
      let tag ← ident
      let e ← newExpr (value.span.merge tag.span) (make · value tag.value)
      tagsUpTo count e
    | none => pure value

def tagsWith : Reader Expr := do
  let value ← sumWith nested
  bounded (tagsUpTo · value)

/-- Comparisons do not chain. -/
def comparisonWith : Reader Expr := do
  let lhs ← tagsWith nested
  match ← operator? comparisonOp? with
  | none => pure lhs
  | some op =>
    advance
    let rhs ← tagsWith nested
    newBinary op lhs rhs

def conjunctionWith : Reader Expr := chain andOp? (comparisonWith nested)

def exprWith : Reader Expr := chain orOp? (conjunctionWith nested)

end

/-- An expression with at most `depth` expressions around any part of it. -/
def exprUpTo : (depth : Nat) → Reader Expr
  | 0 => expected .expression
  | depth + 1 => exprWith (exprUpTo depth)

/-- An expression. An expression inside another one begins after at least one token, so there are no
more around any part than there are tokens. -/
def expr : Reader Expr := bounded exprUpTo

end Sable.Reader
