import Sable.Proofs.Lowering.Kept

/-! The scopes that lowering comes to.

It goes from one declaration to the next, and from the declaration of a function to those in its body. In every scope
on the way the names of types stand for types with the properties that lowering keeps. -/
namespace Sable

namespace Lowering

variable {P : Nat → Ty → Prop} {scope scope' : Scope} {vs : List TypeVariable} {d d' : Draft}

/-! ## Functions up to their bodies -/

/-- What is done of a function before its body: its binding is made, and the scope of the body. -/
def enterFunction (scope : Scope) (span : Span) (name : Spanned String) (names : Generics)
    (ps : ParameterList (Parameter TypeExpr)) (result : Option TypeExpr) :
    Lowering (BindingId × Signature × Scope) := do
  let (vs, inner) ← lowerGenerics scope names
  let (arguments, parameters) ← lowerSignatureParameters inner ps
  let result ← lowerType? inner result
  let signature : Signature := ⟨vs, arguments, parameters, result⟩
  let id ← addBinding (.function name.value span signature none)
  let inside ← bindParameters (inner.withValue name.value (.enclosing id)) parameters
  pure (id, signature, inside)

theorem lowerDeclaration_function (scope : Scope) (span : Span) (name : Spanned String) (names : Generics)
    (ps : ParameterList (Parameter TypeExpr)) (result : Option TypeExpr) (body : Body) :
    lowerDeclaration scope (.function span name names ps result body) = (do
      let (id, signature, inside) ← enterFunction scope span name names ps result
      let body ← lowerBody inside body
      setBinding id (.function name.value span signature (some body))
      pure (some id, scope.withValue name.value (.bound id))) := by
  simp only [lowerDeclaration, enterFunction, bind_assoc, pure_bind]

theorem enterFunction_sound {span : Span} {name : Spanned String} {names : Generics}
    {ps : ParameterList (Parameter TypeExpr)} {result : Option TypeExpr} {id : BindingId} {signature : Signature}
    (hsound : ScopeSound False vs d.nextVariable scope)
    (h : (enterFunction scope span name names ps result).run d = .ok ((id, signature, scope'), d')) :
    ScopeSound False (signature.typeVariables ++ vs) d'.nextVariable scope' ∧
      ∀ P, Kept P → ScopeHas P d.nextVariable scope → ScopeHas P d'.nextVariable scope' := by
  simp only [enterFunction, run_bind_eq_ok, run_addBinding_eq_ok, run_bindParameters_eq_ok, run_pure_eq_ok,
    Prod.mk.injEq, Prod.exists] at h
  obtain ⟨us, inner, d₁, hgenerics, arguments, ids, d₂, hps, result', d₃, hresult, _, _, ⟨rfl, rfl⟩, _, _, ⟨rfl, rfl⟩,
    ⟨rfl, rfl, rfl⟩, rfl⟩ := h
  obtain ⟨hg, -⟩ := lowerGenerics_sound hgenerics hsound
  have hps := lowerSignatureParameters_sound False.elim hg.sound hps
  obtain ⟨hd₃, -⟩ := lowerType?_scoped False.elim (hg.sound.later hps.grows.next) hresult
  have hnext := (hps.grows.trans hd₃.grows).next
  refine ⟨((hg.sound.later hnext).withValue name.value (.enclosing d₃.bindings.size)).bindAll _ ids, ?_⟩
  intro P hP hscope other meaning hget
  rw [type?_bindAll] at hget
  exact hP.scope_later hnext (hP.lowerGenerics hscope hgenerics).2 other meaning hget

/-! ## Declarations -/

theorem lowerDeclaration_scopes {declaration : Declaration} {id : Option BindingId}
    (hsound : ScopeSound False vs d.nextVariable scope)
    (h : (lowerDeclaration scope declaration).run d = .ok ((id, scope'), d')) :
    Grows d d' ∧ ScopeSound False vs d'.nextVariable scope' := by
  have hdeclaration : DeclarationSound False Program.anyFunction vs scope scope' d d' id :=
    lowerDeclaration_sound declaration False.elim (fun _ _ _ => trivial) hsound h
  exact ⟨hdeclaration.1, hdeclaration.2.1⟩

theorem Kept.lowerDeclaration (hP : Kept P) {declaration : Declaration} {id : Option BindingId}
    (hsound : ScopeSound False vs d.nextVariable scope) (hscope : ScopeHas P d.nextVariable scope)
    (h : (lowerDeclaration scope declaration).run d = .ok ((id, scope'), d')) : ScopeHas P d'.nextVariable scope' := by
  have hlater := hP.scope_later (lowerDeclaration_scopes hsound h).1.next hscope
  match declaration, h with
  | .value .., h =>
      simp only [Lowering.lowerDeclaration, run_bind_eq_ok, run_pure_eq_ok, Prod.mk.injEq] at h
      obtain ⟨_, _, -, _, _, -, _, _, -, ⟨-, rfl⟩, rfl⟩ := h
      exact hlater
  | .function .., h =>
      simp only [lowerDeclaration_function, run_bind_eq_ok, run_pure_eq_ok, Prod.mk.injEq, Prod.exists] at h
      obtain ⟨_, _, _, _, -, _, _, -, _, _, -, ⟨-, rfl⟩, rfl⟩ := h
      exact hlater
  | .external .., h =>
      simp only [Lowering.lowerDeclaration, run_bind_eq_ok, run_pure_eq_ok, Prod.mk.injEq, Prod.exists] at h
      obtain ⟨_, _, _, -, _, _, _, -, _, _, -, _, _, -, ⟨-, rfl⟩, rfl⟩ := h
      exact hlater
  | .alias .., h =>
      simp only [Lowering.lowerDeclaration, run_bind_eq_ok, run_pure_eq_ok, Prod.mk.injEq, Prod.exists] at h
      obtain ⟨_, inner, d₁, hgenerics, type, d₂, htype, ⟨-, rfl⟩, rfl⟩ := h
      exact hlater.withType _ (hP.lowerType (hP.lowerGenerics hscope hgenerics).2 htype).2
  | .union .., h =>
      simp only [Lowering.lowerDeclaration, run_bind_eq_ok, run_pure_eq_ok, Prod.mk.injEq, Prod.exists] at h
      obtain ⟨_, inner, d₁, hgenerics, fields, d₂, hfields, ⟨-, rfl⟩, rfl⟩ := h
      have hinner := (hP.lowerGenerics hscope hgenerics).2
      exact hlater.withType _ (hP.union (hP.lowerAlternatives hinner (List.forall_mem_nil _) hfields).2)

/-! ## Scopes on the way -/

/-- Lowering the body of a program comes to a scope, with a draft, where the given declarations are left to be lowered. -/
inductive ComesTo (body : Body) : Scope → Draft → List Declaration → Prop
  | start : ComesTo body .root ⟨#[], #[], 0⟩ body.declarations
  /-- A declaration has been lowered. -/
  | next {scope scope' : Scope} {d d' : Draft} {declaration : Declaration} {rest : List Declaration}
      {id : Option BindingId} (h : ComesTo body scope d (declaration :: rest))
      (hrun : (lowerDeclaration scope declaration).run d = .ok ((id, scope'), d')) : ComesTo body scope' d' rest
  /-- The body of a function is about to be lowered. -/
  | inside {scope scope' : Scope} {d d' : Draft} {span : Span} {name : Spanned String} {names : Generics}
      {ps : ParameterList (Parameter TypeExpr)} {result : Option TypeExpr} {inner : Body} {rest : List Declaration}
      {id : BindingId} {signature : Signature}
      (h : ComesTo body scope d (.function span name names ps result inner :: rest))
      (hrun : (enterFunction scope span name names ps result).run d = .ok ((id, signature, scope'), d')) :
      ComesTo body scope' d' inner.declarations

/-- Every scope that is reached has the properties that lowering keeps. -/
theorem ComesTo.has {body : Body} {declarations : List Declaration} (h : ComesTo body scope d declarations) :
    (∃ vs, ScopeSound False vs d.nextVariable scope) ∧ ∀ P, Kept P → ScopeHas P d.nextVariable scope := by
  induction h with
  | start => exact ⟨⟨[], scopeSound_root⟩, fun P hP => hP.root⟩
  | next _ hrun ih =>
      obtain ⟨⟨vs, hsound⟩, hhas⟩ := ih
      exact ⟨⟨vs, (lowerDeclaration_scopes hsound hrun).2⟩, fun P hP => hP.lowerDeclaration hsound (hhas P hP) hrun⟩
  | inside _ hrun ih =>
      obtain ⟨⟨vs, hsound⟩, hhas⟩ := ih
      obtain ⟨hinside, hkeeps⟩ := enterFunction_sound hsound hrun
      exact ⟨⟨_, hinside⟩, fun P hP => hkeeps P hP (hhas P hP)⟩

end Lowering

end Sable
