import Sable.Proofs.Evaluation.Cursors
import Sable.Proofs.Evaluation.Ends
import Sable.Proofs.Ty.Alike

/-! Which values inhabit a type, by what is seen of them.

A sequence is seen through cursors and a function through calls. Both may fail, with errors that are given: so it
can be said of an error that it is one of a function or a sequence among the arguments of a call. -/
namespace Sable.Ty

/-- The values that each type variable stands for. -/
abbrev Extents := TypeVariable → Value → Prop

section

variable (p : Program) (E : RuntimeError → Prop)

mutual

/-- The value inhabits the type. Functions and sequences fail with no other errors than those of `E`. -/
def Inhabits : Ty → Extents → Value → Prop
  | number, _, v => ∃ x, v = .number x
  | boolean, _, v => ∃ b, v = .boolean b
  | bigInteger, _, v => ∃ n, v = .bigInteger n
  | null, _, v => v = .null
  | list a, ρ, v => ∃ items, v = .list items ∧ ∀ item ∈ items, a.Inhabits ρ item
  | sequence a, ρ, v => ∃ identity s, v = .sequence identity s ∧
      (∀ item, s.Finds p (.ok (some item)) → a.Inhabits ρ item) ∧ ∀ e, s.Finds p (.error e) → E e
  | object fields, ρ, v => ∃ entries, v = .object entries ∧ InhabitsFields fields ρ entries
  | function vs ps result, ρ, v => ∃ f, v = .function f ∧ ∀ σ : Extents, (∀ x, x ∉ vs → σ x = ρ x) →
      ∀ arguments, InhabitsParameters ps σ arguments → ∀ steps span,
        (p.call steps v arguments span).Ends E (result.Inhabits σ)
  | union alternatives narrowed, ρ, v => ∃ payload tag, v = .tagged payload tag ∧
      (∀ t ∈ narrowed, t = tag) ∧ InhabitsAlternative alternatives ρ tag payload
  | tagged a tag, ρ, v => ∃ payload, v = .tagged payload tag ∧ a.Inhabits ρ payload
  | nullable a, ρ, v => v = .null ∨ a.Inhabits ρ v
  | var x, ρ, v => ρ x v
termination_by structural a => a

/-- Values by the same names in the same order, each inhabits the type under its name. -/
def InhabitsFields : List (String × Ty) → Extents → List (String × Value) → Prop
  | [], _, entries => entries = []
  | (name, a) :: rest, ρ, entries => ∃ v entries', entries = (name, v) :: entries' ∧
      a.Inhabits ρ v ∧ InhabitsFields rest ρ entries'
termination_by structural fields => fields

/-- The payload inhabits the type under the tag. -/
def InhabitsAlternative : List (String × Ty) → Extents → String → Value → Prop
  | [], _, _, _ => False
  | (name, a) :: rest, ρ, tag, payload =>
    if name = tag then a.Inhabits ρ payload else InhabitsAlternative rest ρ tag payload
termination_by structural alternatives => alternatives

/-- Arguments in the declared number, each inhabits the type of its parameter. -/
def InhabitsParameters : ParameterList (String × Ty) → Extents → List Value → Prop
  | .fixed ps, ρ, arguments => InhabitsEach ps ρ arguments
  | .variadic (_, a), ρ, arguments => ∀ v ∈ arguments, a.Inhabits ρ v
termination_by structural ps => ps

def InhabitsEach : List (String × Ty) → Extents → List Value → Prop
  | [], _, arguments => arguments = []
  | (_, a) :: rest, ρ, arguments => ∃ v arguments', arguments = v :: arguments' ∧
      a.Inhabits ρ v ∧ InhabitsEach rest ρ arguments'
termination_by structural ps => ps

end

end

/-! ## Equal types -/

section

variable {p : Program} {E : RuntimeError → Prop}

mutual

/-- Equal types have the same inhabitants. -/
theorem inhabits_eq_of_same : ∀ {a b : Ty}, a.same b = true → a.Inhabits p E = b.Inhabits p E
  | .number, b, h | .boolean, b, h | .bigInteger, b, h | .null, b, h => by
      cases b <;> first | exact absurd h Bool.false_ne_true | rfl
  | .var v, b, h => by
      cases b with
      | var w => rw [beq_iff_eq.mp h]
      | _ => exact absurd h Bool.false_ne_true
  | .list a, b, h | .sequence a, b, h | .nullable a, b, h => by
      cases b with
      | list b | sequence b | nullable b =>
          first
          | exact absurd h Bool.false_ne_true
          | funext ρ v
            simp only [Inhabits, inhabits_eq_of_same (a := a) (b := b) h]
      | _ => exact absurd h Bool.false_ne_true
  | .tagged a tag, b, h => by
      cases b with
      | tagged b tag' =>
          simp only [same, Bool.and_eq_true, beq_iff_eq] at h
          obtain ⟨h, rfl⟩ := h
          funext ρ v
          simp only [Inhabits, inhabits_eq_of_same h]
      | _ => exact absurd h Bool.false_ne_true
  | .object fields, b, h => by
      cases b with
      | object others =>
          funext ρ v
          simp only [Inhabits, inhabitsFields_eq_of_same h]
      | _ => exact absurd h Bool.false_ne_true
  | .union fields narrowed, b, h => by
      cases b with
      | union others narrowed' =>
          simp only [same, Bool.and_eq_true, beq_iff_eq] at h
          obtain ⟨h, rfl⟩ := h
          funext ρ v
          simp only [Inhabits, inhabitsAlternative_eq_of_same h]
      | _ => exact absurd h Bool.false_ne_true
  | .function vs ps a, b, h => by
      cases b with
      | function ws qs b =>
          simp only [same, Bool.and_eq_true, beq_iff_eq] at h
          obtain ⟨⟨rfl, hps⟩, ha⟩ := h
          funext ρ v
          simp only [Inhabits, inhabitsParameters_eq_of_same hps, inhabits_eq_of_same ha]
      | _ => exact absurd h Bool.false_ne_true
termination_by structural a => a

theorem inhabitsFields_eq_of_same : ∀ {fields others : List (String × Ty)}, sameFields fields others = true →
    InhabitsFields p E fields = InhabitsFields p E others
  | [], others, h => by
      cases others with
      | nil => rfl
      | cons _ _ => exact absurd h Bool.false_ne_true
  | (_, a) :: rest, others, h => by
      cases others with
      | nil => exact absurd h Bool.false_ne_true
      | cons other rest' =>
          simp only [sameFields, Bool.and_eq_true, beq_iff_eq] at h
          obtain ⟨⟨rfl, ha⟩, hrest⟩ := h
          funext ρ entries
          simp only [InhabitsFields, inhabits_eq_of_same ha, inhabitsFields_eq_of_same hrest]
termination_by structural fields => fields

theorem inhabitsAlternative_eq_of_same : ∀ {fields others : List (String × Ty)}, sameFields fields others = true →
    InhabitsAlternative p E fields = InhabitsAlternative p E others
  | [], others, h => by
      cases others with
      | nil => rfl
      | cons _ _ => exact absurd h Bool.false_ne_true
  | (_, a) :: rest, others, h => by
      cases others with
      | nil => exact absurd h Bool.false_ne_true
      | cons other rest' =>
          simp only [sameFields, Bool.and_eq_true, beq_iff_eq] at h
          obtain ⟨⟨rfl, ha⟩, hrest⟩ := h
          funext ρ tag payload
          simp only [InhabitsAlternative, inhabits_eq_of_same ha, inhabitsAlternative_eq_of_same hrest]
termination_by structural fields => fields

theorem inhabitsParameters_eq_of_same : ∀ {ps qs : ParameterList (String × Ty)}, sameParameters ps qs = true →
    InhabitsParameters p E ps = InhabitsParameters p E qs
  | .fixed ps, .fixed qs, h => @inhabitsEach_eq_of_same ps qs h
  | .variadic (_, a), .variadic (_, b), h => by
      funext ρ arguments
      simp only [InhabitsParameters, inhabits_eq_of_same (a := a) (b := b) h]
  | .fixed _, .variadic _, h | .variadic _, .fixed _, h => absurd h Bool.false_ne_true
termination_by structural ps => ps

theorem inhabitsEach_eq_of_same : ∀ {ps qs : List (String × Ty)}, sameTypes ps qs = true →
    InhabitsEach p E ps = InhabitsEach p E qs
  | [], qs, h => by
      cases qs with
      | nil => rfl
      | cons _ _ => exact absurd h Bool.false_ne_true
  | (_, a) :: rest, qs, h => by
      cases qs with
      | nil => exact absurd h Bool.false_ne_true
      | cons q rest' =>
          simp only [sameTypes, Bool.and_eq_true] at h
          funext ρ arguments
          simp only [InhabitsEach, inhabits_eq_of_same h.1, inhabitsEach_eq_of_same h.2]
termination_by structural ps => ps

end

end

end Sable.Ty
