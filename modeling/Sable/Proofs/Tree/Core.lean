import Sable.Tree

/-! The core of the language: trees without type parameters on functions, without variadic parameters
and without external functions. Aliases and unions may have type parameters. And trees that only do
without external functions. -/
namespace Sable

mutual

def TypeExpr.isCore : TypeExpr → Bool
  | .named _ _ arguments => TypeExpr.areCore arguments
  | .object _ fields => TypeExpr.fieldsAreCore fields
  | .function _ generics ps result =>
    generics.isEmpty && TypeExpr.parametersAreCore ps && result.isCore
  | .nullable _ inner => inner.isCore

def TypeExpr.areCore : List TypeExpr → Bool
  | [] => true
  | t :: rest => t.isCore && TypeExpr.areCore rest

def TypeExpr.fieldsAreCore : List (String × TypeExpr) → Bool
  | [] => true
  | (_, t) :: rest => t.isCore && TypeExpr.fieldsAreCore rest

def TypeExpr.parametersAreCore : ParameterList (Parameter TypeExpr) → Bool
  | .fixed ps => TypeExpr.eachIsCore ps
  | .variadic ⟨_, _, _⟩ => false

def TypeExpr.eachIsCore : List (Parameter TypeExpr) → Bool
  | [] => true
  | ⟨_, t, _⟩ :: rest => t.isCore && TypeExpr.eachIsCore rest

end

/-- A type that may be left out. -/
def TypeExpr.isCore? (t : Option TypeExpr) : Bool := t.all TypeExpr.isCore

mutual

def Expr.isCore : Expr → Bool
  | .number .. | .bigInteger .. | .boolean .. | .null _ | .reference .. => true
  | .object _ fields => Expr.fieldsAreCore fields
  | .binary _ _ lhs rhs => lhs.isCore && rhs.isCore
  | .unary _ _ operand => operand.isCore
  | .conditional _ condition thenBranch elseBranch =>
    condition.isCore && thenBranch.isCore && elseBranch.isCore
  | .call _ callee types arguments =>
    callee.isCore && TypeExpr.areCore types && Expr.areCore arguments
  | .lambda _ generics ps result body =>
    generics.isEmpty && TypeExpr.parametersAreCore ps && TypeExpr.isCore? result && body.isCore
  | .field _ owner _ => owner.isCore
  | .tagged _ value _ | .hasTag _ value _ | .untag _ value => value.isCore
  | .cases _ scrutinee arms => scrutinee.isCore && Expr.armsAreCore arms

def Expr.areCore : List Expr → Bool
  | [] => true
  | e :: rest => e.isCore && Expr.areCore rest

def Expr.fieldsAreCore : List (FieldInit Expr) → Bool
  | [] => true
  | ⟨_, value, _⟩ :: rest => value.isCore && Expr.fieldsAreCore rest

def Expr.armsAreCore : List (MatchArm Expr) → Bool
  | [] => true
  | ⟨_, _, body, _⟩ :: rest => body.isCore && Expr.armsAreCore rest

end

def Alternative.isCore (a : Alternative) : Bool := a.payload.isCore

mutual

def Declaration.isCore : Declaration → Bool
  | .value _ _ type value => TypeExpr.isCore? type && value.isCore
  | .function _ _ generics ps result body =>
    generics.isEmpty && TypeExpr.parametersAreCore ps && TypeExpr.isCore? result && body.isCore
  | .external .. => false
  | .alias _ _ _ target => target.isCore
  | .union _ _ _ alternatives => alternatives.all Alternative.isCore

def Declaration.areCore : List Declaration → Bool
  | [] => true
  | d :: rest => d.isCore && Declaration.areCore rest

def Body.isCore : Body → Bool
  | .mk declarations result _ => Declaration.areCore declarations && result.isCore

end

mutual

/-- Whether the declaration is one of an external function, or has one inside. -/
def Declaration.hasExternal : Declaration → Bool
  | .function _ _ _ _ _ body => body.hasExternal
  | .external .. => true
  | .value .. | .alias .. | .union .. => false

def Declaration.haveExternal : List Declaration → Bool
  | [] => false
  | d :: rest => d.hasExternal || Declaration.haveExternal rest

def Body.hasExternal : Body → Bool
  | .mk declarations _ _ => Declaration.haveExternal declarations

end

mutual

/-- There are no external functions in the core. -/
theorem Declaration.hasExternal_of_isCore : ∀ {d : Declaration}, d.isCore = true → d.hasExternal = false
  | .value .., _ | .alias .., _ | .union .., _ => rfl
  | .function _ _ _ _ _ body, h => by
      simp only [Declaration.isCore, Bool.and_eq_true] at h
      have hbody : body.hasExternal = false := Body.hasExternal_of_isCore h.2
      exact hbody
  | .external .., h => nomatch h

theorem Declaration.haveExternal_of_areCore : ∀ {declarations : List Declaration},
    Declaration.areCore declarations = true → Declaration.haveExternal declarations = false
  | [], _ => rfl
  | d :: rest, h => by
      simp only [Declaration.areCore, Bool.and_eq_true] at h
      simp only [Declaration.haveExternal, Declaration.hasExternal_of_isCore h.1,
        Declaration.haveExternal_of_areCore h.2, Bool.or_false]

theorem Body.hasExternal_of_isCore : ∀ {body : Body}, body.isCore = true → body.hasExternal = false
  | .mk declarations _ _, h => by
      simp only [Body.isCore, Bool.and_eq_true] at h
      exact Declaration.haveExternal_of_areCore h.1

end

end Sable
