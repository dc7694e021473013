import Sable.Proofs.Meaning.Steady
import Sable.Proofs.Soundness.Functions
import Sable.Proofs.Typing.Validity
import Sable.Proofs.Typing.Variables

/-! Regular programs.

The checks of a program take a few things for granted that do not hold of all programs. Those of which they do
hold are regular, and a check, of the soundness of which it is proved here, finds many of them. -/
namespace Sable.Program

open Ty

variable {p : Program} {τ : TypeTable} {exact : Nat → Prop}

/-- What the checks of a program take for granted. Functions with a number of parameters that is `exact` must
not stand for functions with more, and variadic ones stand for such numbers of parameters only. -/
structure Regular (p : Program) (τ : TypeTable) (exact : Nat → Prop) : Prop where
  /-- Inference comes back with no variables but those that are free in the types of the arguments. -/
  infers : p.InfersContained τ
  /-- Type arguments are not put under binders that would capture their variables. -/
  spares : ∀ {vs : List TypeVariable} {parameters : Parameters} {result : Ty} {types : List Ty}
    {s : Substitution}, p.CallOf τ vs parameters result types s → s.isEmpty = false →
      everyParameter s.sparesBound parameters = true ∧ result.every s.sparesBound = true
  captures : ∀ {a b : Ty}, p.Asked τ a b → a.assignable b = .ok true → CapturesNothing a b
  keepsArity : ∀ {a b : Ty}, p.Asked τ a b → a.assignable b = .ok true → KeepsArity exact a b

/-! ## Calls -/

theorem askAll_of_forall₂ {ids : List NodeId} {types : List Ty}
    (h : List.Forall₂ (fun id type => τ id = .ok type) ids types) : askAll τ ids = .ok types := by
  induction h with
  | nil => rfl
  | cons hid _ ih => exact bind_eq_ok.mpr ⟨_, hid, bind_eq_ok.mpr ⟨_, ih, rfl⟩⟩

theorem callSubstitution_of_instantiates {vs : List TypeVariable} {parameters : Parameters}
    {written types : List Ty} {s : Substitution} (h : Instantiates vs parameters written types s)
    (callee : Option String) (span : Span) :
    (callSubstitution callee vs parameters written types span : Except TypeError Substitution) = .ok s := by
  unfold callSubstitution
  cases h with
  | plain hvs => simp [hvs, pure, Except.pure]
  | inferred hvs hinfer => simp [hvs, hinfer, pure, Except.pure]
  | written hne hlength => simp [hne, hlength, pure, Except.pure]

/-! ## The check -/

section

variable (p τ exact) [DecidablePred exact]

/-- Whether types are put in and arguments are compared as they should be in a call. -/
def regularCall (parameters : Parameters) (result : Ty) (types : List Ty)
    (s : Substitution) : Bool :=
  (s.isEmpty || (everyParameter s.sparesBound parameters && result.every s.sparesBound)) &&
    types.zipIdx.all fun (type, i) =>
      match (s.applyParameters parameters).get? i with
      | some q => isSteady exact type q.2
      | none => true

/-- Whether a type is compared as it should be with the one declared for it. -/
def regularAnswer (declared : Option Ty) (type : Except TypeError Ty) : Bool :=
  match declared, type with
  | some declared, .ok type => isSteady exact type declared
  | _, _ => true

def regularForm : Form → Bool
  | .call callee written arguments =>
    match τ callee, (askAll τ arguments : Except TypeError (List Ty)) with
    | .ok (.function vs parameters result), .ok types =>
      match (callSubstitution none vs parameters written types .none : Except TypeError Substitution) with
      | .ok s => regularCall exact parameters result types s
      | .error _ => true
    | _, _ => true
  | .lambda s body => regularAnswer exact s.result (τ body.result)
  | _ => true

def regularBinding : Binding → Bool
  | .value _ _ declared node => regularAnswer exact declared (τ node)
  | .function _ _ s (some body) => regularAnswer exact s.result (τ body.result)
  | _ => true

/-- Whether a program is regular, as far as the check can tell. -/
def isRegular : Bool :=
  p.infersFromBinderless τ && (List.range p.nodes.size).all (fun id => regularForm τ exact (p.node id).form) &&
    (List.range p.bindings.size).all fun id => regularBinding τ exact (p.binding id)

end

section

variable [DecidablePred exact] (h : p.isRegular τ exact = true)
include h

theorem regularForm_of_isRegular {id : NodeId} {form : Form} (hform : (p.node id).form = form) :
    regularForm τ exact form = true := by
  simp only [isRegular, Bool.and_eq_true] at h
  subst hform
  by_cases hid : id < p.nodes.size
  · exact List.all_eq_true.mp h.1.2 id (List.mem_range.mpr hid)
  · rw [node_of_size_le (Nat.le_of_not_lt hid)]
    rfl

theorem regularBinding_of_isRegular {id : BindingId} {b : Binding} (hbinding : p.binding id = b) :
    regularBinding τ exact b = true := by
  simp only [isRegular, Bool.and_eq_true] at h
  subst hbinding
  by_cases hid : id < p.bindings.size
  · exact List.all_eq_true.mp h.2 id (List.mem_range.mpr hid)
  · rw [binding, Array.getD_eq_getD_getElem?, Array.getElem?_eq_none (Nat.le_of_not_lt hid)]
    rfl

theorem regularCall_of_isRegular {vs : List TypeVariable} {parameters : Parameters} {result : Ty} {types : List Ty}
    {s : Substitution} (hcall : p.CallOf τ vs parameters result types s) :
    regularCall exact parameters result types s = true := by
  obtain ⟨hform, hcallee, htypes, hinstance⟩ := hcall
  have hregular := regularForm_of_isRegular h hform
  simp only [regularForm, hcallee, askAll_of_forall₂ htypes, callSubstitution_of_instantiates hinstance] at hregular
  exact hregular

theorem isSteady_of_isRegular {a b : Ty} (hasked : p.Asked τ a b) : isSteady exact a b = true := by
  cases hasked with
  | argument hcall htype hq =>
      have hregular := regularCall_of_isRegular h hcall
      simp only [regularCall, Bool.and_eq_true, List.all_eq_true] at hregular
      have hsteady := hregular.2 (a, _) (List.mem_zipIdx_iff_getElem?.mpr htype)
      simp only [hq] at hsteady
      exact hsteady
  | value hbinding htype =>
      have hregular := regularBinding_of_isRegular h hbinding
      rwa [regularBinding, htype] at hregular
  | result hbinding hdeclared htype =>
      have hregular := regularBinding_of_isRegular h hbinding
      rwa [regularBinding, hdeclared, htype] at hregular
  | lambda hform hdeclared htype =>
      have hregular := regularForm_of_isRegular h hform
      rwa [regularForm, hdeclared, htype] at hregular

/-- What the check finds to be regular is regular. -/
theorem regular_of_isRegular : p.Regular τ exact where
  infers := by
    simp only [isRegular, Bool.and_eq_true] at h
    exact InfersFromBinderless.contained (infersFromBinderless_sound h.1.1)
  spares := by
    intro vs parameters result types s hcall hs
    have hregular := regularCall_of_isRegular h hcall
    simp only [regularCall, hs, Bool.false_or, Bool.and_eq_true] at hregular
    exact hregular.1
  captures := fun hasked _ => capturesNothing_of_isSteady (isSteady_of_isRegular h hasked)
  keepsArity := fun hasked _ => keepsArity_of_isSteady (isSteady_of_isRegular h hasked)

end

end Sable.Program
