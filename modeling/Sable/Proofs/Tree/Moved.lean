import Sable.Proofs.Token.Pieces
import Sable.Proofs.Tree.Core

/-! Trees that are moved: the text they are read from begins at a later byte, and other nodes are made before
theirs. Only sites and spans tell. -/
namespace Sable

theorem Span.merge_moved (n : Nat) (a b : Span) : (a.moved n).merge (b.moved n) = (a.merge b).moved n := by
  simp only [merge, moved, Nat.add_min_add_right, Nat.add_max_add_right]

/-- How far a tree is moved, in bytes, expressions and type expressions. -/
structure Shift where
  offset : Nat
  expressions : Nat
  types : Nat

variable (m : Shift)

def Site.movedBy (count : Nat) (site : Site) : Site := ⟨site.id + count, site.span.moved m.offset⟩

def Parameter.moved {τ : Type} (f : τ → τ) (p : Parameter τ) : Parameter τ :=
  ⟨p.name.moved m.offset, f p.type, p.span.moved m.offset⟩

def FieldInit.moved {ε : Type} (f : ε → ε) (field : FieldInit ε) : FieldInit ε :=
  ⟨field.name, f field.value, field.span.moved m.offset⟩

def MatchArm.moved {ε : Type} (f : ε → ε) (arm : MatchArm ε) : MatchArm ε :=
  ⟨arm.tag.moved m.offset, arm.binding.moved m.offset, f arm.body, arm.span.moved m.offset⟩

def Generics.moved (names : Generics) : Generics := names.map (·.moved m.offset)

namespace TypeExpr

mutual

def moved : TypeExpr → TypeExpr
  | named site name arguments => named (site.movedBy m m.types) name (movedEach arguments)
  | object site fields => object (site.movedBy m m.types) (movedFields fields)
  | function site names ps result =>
    function (site.movedBy m m.types) (names.moved m) (movedParameters ps) result.moved
  | nullable site inner => nullable (site.movedBy m m.types) inner.moved

def movedEach : List TypeExpr → List TypeExpr
  | [] => []
  | t :: rest => t.moved :: movedEach rest

def movedFields : List (String × TypeExpr) → List (String × TypeExpr)
  | [] => []
  | (name, t) :: rest => (name, t.moved) :: movedFields rest

def movedParameters : ParameterList (Parameter TypeExpr) → ParameterList (Parameter TypeExpr)
  | .fixed ps => .fixed (movedEachParameter ps)
  | .variadic ⟨name, t, span⟩ => .variadic ⟨name.moved m.offset, t.moved, span.moved m.offset⟩

def movedEachParameter : List (Parameter TypeExpr) → List (Parameter TypeExpr)
  | [] => []
  | ⟨name, t, span⟩ :: rest => ⟨name.moved m.offset, t.moved, span.moved m.offset⟩ :: movedEachParameter rest

end

@[simp] theorem movedEach_eq_map (types : List TypeExpr) : movedEach m types = types.map (moved m) := by
  induction types with
  | nil => rfl
  | cons t rest ih => rw [movedEach, ih, List.map_cons]

@[simp] theorem movedFields_eq_map (fields : List (String × TypeExpr)) :
    movedFields m fields = fields.map fun field => (field.1, field.2.moved m) := by
  induction fields with
  | nil => rfl
  | cons field rest ih => rw [movedFields, ih, List.map_cons]

@[simp] theorem movedEachParameter_eq_map (ps : List (Parameter TypeExpr)) :
    movedEachParameter m ps = ps.map (Parameter.moved m (moved m)) := by
  induction ps with
  | nil => rfl
  | cons p rest ih =>
      rw [movedEachParameter, ih, List.map_cons]
      rfl

@[simp] theorem movedParameters_eq_map (ps : ParameterList (Parameter TypeExpr)) :
    movedParameters m ps = ps.map (Parameter.moved m (moved m)) := by
  cases ps with
  | fixed ps => rw [movedParameters, movedEachParameter_eq_map, ParameterList.map]
  | variadic p => rfl

theorem site_moved (t : TypeExpr) : (t.moved m).site = t.site.movedBy m m.types := by cases t <;> rfl

end TypeExpr

namespace Expr

mutual

def moved : Expr → Expr
  | number site x => number (site.movedBy m m.expressions) x
  | bigInteger site digits => bigInteger (site.movedBy m m.expressions) digits
  | boolean site b => boolean (site.movedBy m m.expressions) b
  | null site => null (site.movedBy m m.expressions)
  | object site fields => object (site.movedBy m m.expressions) (movedFields fields)
  | reference site name => reference (site.movedBy m m.expressions) name
  | binary site op lhs rhs => binary (site.movedBy m m.expressions) op lhs.moved rhs.moved
  | unary site op operand => unary (site.movedBy m m.expressions) op operand.moved
  | conditional site condition thenBranch elseBranch =>
    conditional (site.movedBy m m.expressions) condition.moved thenBranch.moved elseBranch.moved
  | call site callee types arguments =>
    call (site.movedBy m m.expressions) callee.moved (types.map (TypeExpr.moved m)) (movedEach arguments)
  | lambda site names ps result body =>
    lambda (site.movedBy m m.expressions) (names.moved m) (ps.map (Parameter.moved m (TypeExpr.moved m)))
      (result.map (TypeExpr.moved m)) body.moved
  | field site owner name => field (site.movedBy m m.expressions) owner.moved name
  | tagged site value tag => tagged (site.movedBy m m.expressions) value.moved tag
  | hasTag site value tag => hasTag (site.movedBy m m.expressions) value.moved tag
  | untag site value => untag (site.movedBy m m.expressions) value.moved
  | cases site scrutinee arms => cases (site.movedBy m m.expressions) scrutinee.moved (movedArms arms)

def movedEach : List Expr → List Expr
  | [] => []
  | e :: rest => e.moved :: movedEach rest

def movedFields : List (FieldInit Expr) → List (FieldInit Expr)
  | [] => []
  | ⟨name, e, span⟩ :: rest => ⟨name, e.moved, span.moved m.offset⟩ :: movedFields rest

def movedArms : List (MatchArm Expr) → List (MatchArm Expr)
  | [] => []
  | ⟨tag, binding, e, span⟩ :: rest =>
    ⟨tag.moved m.offset, binding.moved m.offset, e.moved, span.moved m.offset⟩ :: movedArms rest

end

@[simp] theorem movedEach_eq_map (es : List Expr) : movedEach m es = es.map (moved m) := by
  induction es with
  | nil => rfl
  | cons e rest ih => rw [movedEach, ih, List.map_cons]

@[simp] theorem movedFields_eq_map (fields : List (FieldInit Expr)) :
    movedFields m fields = fields.map (FieldInit.moved m (moved m)) := by
  induction fields with
  | nil => rfl
  | cons field rest ih =>
      rw [movedFields, ih, List.map_cons]
      rfl

@[simp] theorem movedArms_eq_map (arms : List (MatchArm Expr)) :
    movedArms m arms = arms.map (MatchArm.moved m (moved m)) := by
  induction arms with
  | nil => rfl
  | cons arm rest ih =>
      rw [movedArms, ih, List.map_cons]
      rfl

theorem span_moved (e : Expr) : (e.moved m).span = e.span.moved m.offset := by cases e <;> rfl

end Expr

def Alternative.moved (a : Alternative) : Alternative := ⟨a.tag, a.payload.moved m, a.span.moved m.offset⟩

mutual

def Declaration.moved : Declaration → Declaration
  | .value span name type value =>
    .value (span.moved m.offset) (name.moved m.offset) (type.map (TypeExpr.moved m)) (value.moved m)
  | .function span name names ps result body =>
    .function (span.moved m.offset) (name.moved m.offset) (names.moved m)
      (ps.map (Parameter.moved m (TypeExpr.moved m))) (result.map (TypeExpr.moved m)) body.moved
  | .external span name names ps result =>
    .external (span.moved m.offset) (name.moved m.offset) (names.moved m)
      (ps.map (Parameter.moved m (TypeExpr.moved m))) (result.moved m)
  | .alias span name names target =>
    .alias (span.moved m.offset) (name.moved m.offset) (names.moved m) (target.moved m)
  | .union span name names alternatives =>
    .union (span.moved m.offset) (name.moved m.offset) (names.moved m) (alternatives.map (Alternative.moved m))

def Body.moved : Body → Body
  | .mk declarations result span =>
    .mk (Declaration.movedEach declarations) (result.moved m) (span.moved m.offset)

def Declaration.movedEach : List Declaration → List Declaration
  | [] => []
  | d :: rest => d.moved :: Declaration.movedEach rest

end

@[simp] theorem Declaration.movedEach_eq_map (declarations : List Declaration) :
    movedEach m declarations = declarations.map (moved m) := by
  induction declarations with
  | nil => rfl
  | cons d rest ih => rw [movedEach, ih, List.map_cons]

mutual

/-- Moving does not make external functions. -/
theorem Declaration.hasExternal_moved : ∀ d : Declaration, (d.moved m).hasExternal = d.hasExternal
  | .value .. | .external .. | .alias .. | .union .. => rfl
  | .function _ _ _ _ _ body => Body.hasExternal_moved body

theorem Body.hasExternal_moved : ∀ body : Body, (body.moved m).hasExternal = body.hasExternal
  | .mk declarations _ _ => Declaration.haveExternal_moved declarations

theorem Declaration.haveExternal_moved : ∀ declarations : List Declaration,
    Declaration.haveExternal (Declaration.movedEach m declarations) = Declaration.haveExternal declarations
  | [] => rfl
  | d :: rest => by
      simp only [Declaration.movedEach, Declaration.haveExternal, Declaration.hasExternal_moved d,
        Declaration.haveExternal_moved rest]

end

end Sable
