import Sable.Token
import Sable.Tree

/-! The grammar of the language, over tokens.

A phrase tells which lists of tokens stand for which trees. Sites and spans in a tree are left open, for
tokens tell neither where they stand nor in which order nodes are made. How a type, an expression or a body
inside another one is written is a parameter, `nested`, until all their forms are there. -/
namespace Sable.Grammar

/-- Lists of tokens with the trees that they stand for. -/
abbrev Phrase (α : Type) := List Token → α → Prop

/-! ## Lists -/

section

variable {α : Type} (item : Phrase α)

/-- Any number of items with commas between them, and maybe one after the last. -/
inductive Items : Phrase (List α)
  | none : Items [] []
  | last {xs : List Token} {a : α} (h : item xs a) : Items xs [a]
  | more {xs ys : List Token} {a : α} {rest : List α} (h : item xs a) (hrest : Items ys rest) :
      Items (xs ++ .mark .comma :: ys) (a :: rest)

/-- One item or more with separators between them. -/
inductive Separated (separator : Punctuation) : Phrase (List α)
  | last {xs : List Token} {a : α} (h : item xs a) : Separated separator xs [a]
  | more {xs ys : List Token} {a : α} {rest : List α} (h : item xs a) (hrest : Separated separator ys rest) :
      Separated separator (xs ++ .mark separator :: ys) (a :: rest)

/-- Any number of items one after the other. -/
inductive Repeated : Phrase (List α)
  | none : Repeated [] []
  | more {xs ys : List Token} {a : α} {rest : List α} (h : item xs a) (hrest : Repeated ys rest) :
      Repeated (xs ++ ys) (a :: rest)

end

theorem Repeated.concat {α : Type} {item : Phrase α} {xs ys : List Token} {a : α} {as : List α}
    (h : Repeated item xs as) (ha : item ys a) : Repeated item (xs ++ ys) (as ++ [a]) := by
  induction h with
  | none => simpa using Repeated.more ha .none
  | more hb _ ih => simpa using Repeated.more hb ih

/-! ## Types -/

inductive Name : Phrase (Spanned String)
  | mk {name : String} {span : Span} : Name [.ident name] ⟨name, span⟩

/-- Type parameters, `[A, B]`, or none. -/
inductive TypeParameters : Phrase Generics
  | none : TypeParameters [] []
  | some {xs : List Token} {names : Generics} (h : Separated Name .comma xs names) :
      TypeParameters (.mark .leftBracket :: xs ++ [.mark .rightBracket]) names

section

variable (nested : Phrase TypeExpr)

/-- A parameter, `name: type`. -/
inductive TypedName : Phrase (Parameter TypeExpr)
  | mk {name : String} {xs : List Token} {type : TypeExpr} {nameSpan span : Span} (h : nested xs type) :
      TypedName (.ident name :: .mark .colon :: xs) ⟨⟨name, nameSpan⟩, type, span⟩

/-- Parameters, `(a: T, b: U)` or `(...items: T)`. -/
inductive ParameterGroup : Phrase (ParameterList (Parameter TypeExpr))
  | fixed {xs : List Token} {ps : List (Parameter TypeExpr)} (h : Items (TypedName nested) xs ps) :
      ParameterGroup (.mark .leftParen :: xs ++ [.mark .rightParen]) (.fixed ps)
  | variadic {xs : List Token} {p : Parameter TypeExpr} (h : TypedName nested xs p) :
      ParameterGroup (.mark .leftParen :: .mark .ellipsis :: xs ++ [.mark .rightParen]) (.variadic p)

/-- A field of an object type, `name: type`. -/
inductive TypeEntry : Phrase (String × TypeExpr)
  | mk {name : String} {xs : List Token} {type : TypeExpr} (h : nested xs type) :
      TypeEntry (.ident name :: .mark .colon :: xs) (name, type)

/-- Type arguments, `[T, U]`. -/
inductive TypeArguments : Phrase (List TypeExpr)
  | mk {xs : List Token} {types : List TypeExpr} (h : Separated nested .comma xs types) :
      TypeArguments (.mark .leftBracket :: xs ++ [.mark .rightBracket]) types

inductive PrimaryType : Phrase TypeExpr
  | named {name : String} {site : Site} : PrimaryType [.ident name] (.named site name [])
  | applied {name : String} {xs : List Token} {types : List TypeExpr} {site : Site}
      (h : TypeArguments nested xs types) : PrimaryType (.ident name :: xs) (.named site name types)
  | object {xs : List Token} {fields : List (String × TypeExpr)} {site : Site}
      (h : Items (TypeEntry nested) xs fields) :
      PrimaryType (.mark .leftBrace :: xs ++ [.mark .rightBrace]) (.object site fields)
  | function {xs ys zs : List Token} {names : Generics} {ps : ParameterList (Parameter TypeExpr)}
      {result : TypeExpr} {site : Site} (hnames : TypeParameters xs names)
      (hps : ParameterGroup nested ys ps) (hresult : nested zs result) :
      PrimaryType (xs ++ ys ++ .mark .arrow :: zs) (.function site names ps result)
  | parens {xs : List Token} {type : TypeExpr} (h : nested xs type) :
      PrimaryType (.mark .leftParen :: xs ++ [.mark .rightParen]) type

/-- A type with any number of question marks after it. -/
inductive NullableType : Phrase TypeExpr
  | primary {xs : List Token} {type : TypeExpr} (h : PrimaryType nested xs type) : NullableType xs type
  | nullable {xs : List Token} {type : TypeExpr} {site : Site} (h : NullableType xs type) :
      NullableType (xs ++ [.mark .question]) (.nullable site type)

end

inductive TypePhrase : Phrase TypeExpr
  | mk {xs : List Token} {type : TypeExpr} (h : NullableType TypePhrase xs type) : TypePhrase xs type

/-- A type after a colon, `: type`, or nothing. -/
inductive Annotation : Phrase (Option TypeExpr)
  | none : Annotation [] none
  | some {xs : List Token} {type : TypeExpr} (h : TypePhrase xs type) :
      Annotation (.mark .colon :: xs) (some type)

/-! ## Operators -/

inductive OrOp : Token → BinaryOp → Prop
  | or : OrOp (.keyword .orWord) (.logical .or)

inductive AndOp : Token → BinaryOp → Prop
  | and : AndOp (.keyword .andWord) (.logical .and)

inductive ComparisonSign : Token → BinaryOp → Prop
  | less : ComparisonSign (.mark .less) (.comparison .less)
  | greater : ComparisonSign (.mark .greater) (.comparison .greater)
  | equal : ComparisonSign (.mark .equals) (.comparison .equal)

inductive SumOp : Token → BinaryOp → Prop
  | add : SumOp (.mark .plus) (.arithmetic .add)
  | subtract : SumOp (.mark .minus) (.arithmetic .subtract)

inductive ProductOp : Token → BinaryOp → Prop
  | multiply : ProductOp (.mark .star) (.arithmetic .multiply)
  | divide : ProductOp (.mark .slash) (.arithmetic .divide)
  | floorDivide : ProductOp (.mark .doubleSlash) (.arithmetic .floorDivide)
  | remainder : ProductOp (.mark .percent) (.arithmetic .remainder)

/-! ## Expressions -/

section

variable (op : Token → BinaryOp → Prop) (operand : Phrase Expr)

/-- Operands with operators between them, grouped to the left. -/
inductive Chain : Phrase Expr
  | operand {xs : List Token} {e : Expr} (h : operand xs e) : Chain xs e
  | more {xs ys : List Token} {t : Token} {o : BinaryOp} {lhs rhs : Expr} {site : Site}
      (hlhs : Chain xs lhs) (hop : op t o) (hrhs : operand ys rhs) :
      Chain (xs ++ t :: ys) (.binary site o lhs rhs)

/-- A comparison of two operands, or an operand. -/
inductive Comparison : Phrase Expr
  | operand {xs : List Token} {e : Expr} (h : operand xs e) : Comparison xs e
  | compare {xs ys : List Token} {t : Token} {o : BinaryOp} {lhs rhs : Expr} {site : Site}
      (hlhs : operand xs lhs) (hop : ComparisonSign t o) (hrhs : operand ys rhs) :
      Comparison (xs ++ t :: ys) (.binary site o lhs rhs)

/-- An operand with any number of tags and tests for tags after it. -/
inductive Tags : Phrase Expr
  | operand {xs : List Token} {e : Expr} (h : operand xs e) : Tags xs e
  | tagged {xs : List Token} {e : Expr} {tag : String} {site : Site} (h : Tags xs e) :
      Tags (xs ++ [.mark .hash, .ident tag]) (.tagged site e tag)
  | hasTag {xs : List Token} {e : Expr} {tag : String} {site : Site} (h : Tags xs e) :
      Tags (xs ++ [.keyword .isWord, .ident tag]) (.hasTag site e tag)

/-- An operand with any number of operators in front of it. -/
inductive Unary : Phrase Expr
  | operand {xs : List Token} {e : Expr} (h : operand xs e) : Unary xs e
  | not {xs : List Token} {e : Expr} {site : Site} (h : Unary xs e) :
      Unary (.keyword .notWord :: xs) (.unary site .not e)
  | negate {xs : List Token} {e : Expr} {site : Site} (h : Unary xs e) :
      Unary (.mark .minus :: xs) (.unary site .negate e)
  | untag {xs : List Token} {e : Expr} {site : Site} (h : Unary xs e) :
      Unary (.keyword .untagWord :: xs) (.untag site e)

end

section

variable (nested : Phrase Expr)

/-- A field of an object literal, `name: value`. -/
inductive ValueEntry : Phrase (FieldInit Expr)
  | mk {name : String} {xs : List Token} {value : Expr} {span : Span} (h : nested xs value) :
      ValueEntry (.ident name :: .mark .colon :: xs) ⟨name, value, span⟩

/-- An arm of a match, `tag binding => body`. -/
inductive ArmEntry : Phrase (MatchArm Expr)
  | mk {tag binding : String} {xs : List Token} {body : Expr} {tagSpan bindingSpan span : Span}
      (h : nested xs body) : ArmEntry (.ident tag :: .ident binding :: .mark .fatArrow :: xs)
        ⟨⟨tag, tagSpan⟩, ⟨binding, bindingSpan⟩, body, span⟩

/-- The arguments of a call, `(x, y)`. -/
inductive Arguments : Phrase (List Expr)
  | mk {xs : List Token} {arguments : List Expr} (h : Items nested xs arguments) :
      Arguments (.mark .leftParen :: xs ++ [.mark .rightParen]) arguments

inductive Primary : Phrase Expr
  | number {value : Float} {site : Site} : Primary [.number value] (.number site value)
  | bigInteger {digits : String} {site : Site} : Primary [.bigInteger digits] (.bigInteger site digits)
  | trueWord {site : Site} : Primary [.keyword .trueWord] (.boolean site true)
  | falseWord {site : Site} : Primary [.keyword .falseWord] (.boolean site false)
  | null {site : Site} : Primary [.keyword .nullWord] (.null site)
  | reference {name : String} {site : Site} : Primary [.ident name] (.reference site name)
  | parens {xs : List Token} {e : Expr} (h : nested xs e) :
      Primary (.mark .leftParen :: xs ++ [.mark .rightParen]) e
  | object {xs : List Token} {fields : List (FieldInit Expr)} {site : Site}
      (h : Items (ValueEntry nested) xs fields) :
      Primary (.mark .leftBrace :: xs ++ [.mark .rightBrace]) (.object site fields)
  | conditional {xs ys zs : List Token} {c t e : Expr} {site : Site} (hc : nested xs c) (ht : nested ys t)
      (he : nested zs e) : Primary (.keyword .ifWord :: xs ++ .keyword .thenWord :: ys ++
        .keyword .elseWord :: zs) (.conditional site c t e)
  | lambda {xs ys zs ws : List Token} {names : Generics} {ps : ParameterList (Parameter TypeExpr)}
      {result : Option TypeExpr} {body : Expr} {site : Site} (hnames : TypeParameters xs names)
      (hps : ParameterGroup TypePhrase ys ps) (hresult : Annotation zs result) (hbody : nested ws body) :
      Primary (.keyword .fnWord :: xs ++ ys ++ zs ++ .mark .fatArrow :: ws)
        (.lambda site names ps result body)
  | cases {xs ys : List Token} {scrutinee : Expr} {arms : List (MatchArm Expr)} {site : Site}
      (hscrutinee : nested xs scrutinee) (harms : Items (ArmEntry nested) ys arms) :
      Primary (.keyword .matchWord :: xs ++ .mark .leftBrace :: ys ++ [.mark .rightBrace])
        (.cases site scrutinee arms)

/-- A primary expression with any number of field names and lists of arguments after it. -/
inductive Access : Phrase Expr
  | primary {xs : List Token} {e : Expr} (h : Primary nested xs e) : Access xs e
  | field {xs : List Token} {e : Expr} {name : String} {site : Site} (h : Access xs e) :
      Access (xs ++ [.mark .dot, .ident name]) (.field site e name)
  | call {xs ys : List Token} {e : Expr} {arguments : List Expr} {site : Site} (h : Access xs e)
      (harguments : Arguments nested ys arguments) : Access (xs ++ ys) (.call site e [] arguments)
  | instantiate {xs ys zs : List Token} {e : Expr} {types : List TypeExpr} {arguments : List Expr}
      {site : Site} (h : Access xs e) (htypes : TypeArguments TypePhrase ys types)
      (harguments : Arguments nested zs arguments) :
      Access (xs ++ (ys ++ zs)) (.call site e types arguments)

end

section

variable (nested : Phrase Expr)

abbrev Product : Phrase Expr := Chain ProductOp (Unary (Access nested))

abbrev Sum : Phrase Expr := Chain SumOp (Product nested)

abbrev Conjunction : Phrase Expr := Chain AndOp (Comparison (Tags (Sum nested)))

abbrev Disjunction : Phrase Expr := Chain OrOp (Conjunction nested)

end

/-- An expression: what binds least stands first. This is a `Disjunction`, which has to be written out here. -/
inductive ExprPhrase : Phrase Expr
  | mk {xs : List Token} {e : Expr} (h : Chain OrOp (Chain AndOp (Comparison (Tags (Chain SumOp
      (Chain ProductOp (Unary (Access ExprPhrase))))))) xs e) : ExprPhrase xs e

/-! ## Declarations and bodies -/

/-- An alternative of a union, `tag: payload`. -/
inductive UnionEntry : Phrase Alternative
  | mk {tag : String} {xs : List Token} {payload : TypeExpr} {span : Span} (h : TypePhrase xs payload) :
      UnionEntry (.ident tag :: .mark .colon :: xs) ⟨tag, payload, span⟩

section

variable (nested : Phrase Body)

/-- What a function does, `= expression` or `{ body }`. -/
inductive FunctionBlock : Phrase Body
  | expression {xs : List Token} {e : Expr} {span : Span} (h : ExprPhrase xs e) :
      FunctionBlock (.mark .assign :: xs) (.mk [] e span)
  | block {xs : List Token} {body : Body} (h : nested xs body) :
      FunctionBlock (.mark .leftBrace :: xs ++ [.mark .rightBrace]) body

inductive Declared : Phrase Declaration
  | value {name : String} {xs ys : List Token} {type : Option TypeExpr} {e : Expr} {nameSpan span : Span}
      (htype : Annotation xs type) (hvalue : ExprPhrase ys e) :
      Declared (.keyword .valWord :: .ident name :: xs ++ .mark .assign :: ys)
        (.value span ⟨name, nameSpan⟩ type e)
  | function {name : String} {xs ys zs ws : List Token} {names : Generics}
      {ps : ParameterList (Parameter TypeExpr)} {result : Option TypeExpr} {body : Body}
      {nameSpan span : Span} (hnames : TypeParameters xs names) (hps : ParameterGroup TypePhrase ys ps)
      (hresult : Annotation zs result) (hbody : FunctionBlock nested ws body) :
      Declared (.keyword .defWord :: .ident name :: xs ++ ys ++ zs ++ ws)
        (.function span ⟨name, nameSpan⟩ names ps result body)
  | external {name : String} {xs ys zs : List Token} {names : Generics}
      {ps : ParameterList (Parameter TypeExpr)} {result : TypeExpr} {nameSpan span : Span}
      (hnames : TypeParameters xs names) (hps : ParameterGroup TypePhrase ys ps)
      (hresult : TypePhrase zs result) :
      Declared (.keyword .externalWord :: .keyword .defWord :: .ident name :: xs ++ ys ++ .mark .colon :: zs)
        (.external span ⟨name, nameSpan⟩ names ps result)
  | typeAlias {name : String} {xs ys : List Token} {names : Generics} {target : TypeExpr}
      {nameSpan span : Span} (hnames : TypeParameters xs names) (htarget : TypePhrase ys target) :
      Declared (.keyword .typeWord :: .ident name :: xs ++ .mark .assign :: ys)
        (.alias span ⟨name, nameSpan⟩ names target)
  | union {name : String} {xs ys : List Token} {names : Generics} {alternatives : List Alternative}
      {nameSpan span : Span} (hnames : TypeParameters xs names)
      (halternatives : Separated UnionEntry .pipe ys alternatives) :
      Declared (.keyword .unionWord :: .ident name :: xs ++ .mark .assign :: ys)
        (.union span ⟨name, nameSpan⟩ names alternatives)

/-- Declarations, and `return` with an expression. -/
inductive Block : Phrase Body
  | mk {xs ys : List Token} {declarations : List Declaration} {result : Expr} {span : Span}
      (hdeclarations : Repeated (Declared nested) xs declarations) (hresult : ExprPhrase ys result) :
      Block (xs ++ .keyword .returnWord :: ys) (.mk declarations result span)

end

/-- The body of a function, or a whole program. -/
inductive BodyPhrase : Phrase Body
  | mk {xs : List Token} {body : Body} (h : Block BodyPhrase xs body) : BodyPhrase xs body

end Sable.Grammar
