import Sable.Proofs.Ty.Alike
import Sable.Proofs.Ty.Replaced

/-! What substitution ought to make of a type, and when it does.

An instance of a type has types in the places of variables. A variable that a function type binds stays bound by
it, under whatever name, and nothing that is put in the place of another one is bound there. Substitution renames
nothing, and it knows no binders: it gives an instance where it comes to no bound variable and puts no variable in
the scope of a binder for it. -/
namespace Sable

namespace Ty

/-! ## Occurrences of variables -/

/-- A variable at a place in a type, and the variables that are bound there. -/
structure Occurrence where
  v : TypeVariable
  bound : List TypeVariable
deriving DecidableEq, Repr

/-- Seen from outside a function type with the variables `vs`. -/
def Occurrence.below (vs : List TypeVariable) (o : Occurrence) : Occurrence := ⟨o.v, vs ++ o.bound⟩

mutual

def occurrences : Ty → List Occurrence
  | number | boolean | bigInteger | null => []
  | var v => [⟨v, []⟩]
  | list a | sequence a | nullable a | tagged a _ => a.occurrences
  | object fields | union fields _ => occurrencesFields fields
  | function vs ps result => (occurrencesParameters ps ++ result.occurrences).map (·.below vs)

def occurrencesFields : List (String × Ty) → List Occurrence
  | [] => []
  | (_, a) :: rest => a.occurrences ++ occurrencesFields rest

def occurrencesParameters : ParameterList (String × Ty) → List Occurrence
  | .fixed ps => occurrencesFields ps
  | .variadic (_, a) => a.occurrences

end

/-- The variable occurs at a place where it is not bound. -/
def IsFree (v : TypeVariable) (a : Ty) : Prop := ∃ o ∈ a.occurrences, o.v = v ∧ v ∉ o.bound

instance (v : TypeVariable) (a : Ty) : Decidable (a.IsFree v) := by
  unfold IsFree
  infer_instance

theorem isFree_var {v w : TypeVariable} : (var w).IsFree v ↔ w = v := by
  simp [IsFree, occurrences]

/-! ## Instances -/

/-- The types that may stand in the place of a variable. -/
abbrev Choice := TypeVariable → Ty → Prop

/-- Below function types with the variables `vs` and, in the instance, `ws`: those stand for each other, and what
is put in the place of another variable is not bound. -/
def Choice.below (P : Choice) (vs ws : List TypeVariable) : Choice := fun v b =>
  (∃ w, b = var w ∧ Matching.bind (vs.zip ws) (fun _ _ => False) v w) ∨
    (v ∉ vs ∧ P v b ∧ ∀ w ∈ ws, ¬b.IsFree w)

section

-- How an optional type is made of what the type below it becomes.
variable (optional : Ty → Ty)

mutual

/-- Built alike, with one of the types that are allowed for it in the place of each variable. -/
def Instance (P : Choice) : Ty → Ty → Prop
  | number, b => b = number
  | boolean, b => b = boolean
  | bigInteger, b => b = bigInteger
  | null, b => b = null
  | var v, b => P v b
  | list a, b => ∃ a', a.Instance P a' ∧ b = list a'
  | sequence a, b => ∃ a', a.Instance P a' ∧ b = sequence a'
  | nullable a, b => ∃ a', a.Instance P a' ∧ b = optional a'
  | tagged a tag, b => ∃ a', a.Instance P a' ∧ b = tagged a' tag
  | object fields, b => ∃ fields', InstanceFields P fields fields' ∧ b = object fields'
  | union fields narrowed, b => ∃ fields', InstanceFields P fields fields' ∧ b = union fields' narrowed
  | function vs ps a, b => ∃ ws qs a', vs.length = ws.length ∧ InstanceParameters (P.below vs ws) ps qs ∧
      a.Instance (P.below vs ws) a' ∧ b = function ws qs a'

def InstanceFields (P : Choice) : List (String × Ty) → List (String × Ty) → Prop
  | [], others => others = []
  | (name, a) :: rest, others => ∃ a' rest', a.Instance P a' ∧ InstanceFields P rest rest' ∧
      others = (name, a') :: rest'

def InstanceParameters (P : Choice) : ParameterList (String × Ty) → ParameterList (String × Ty) → Prop
  | .fixed ps, qs => ∃ fields, InstanceFields P ps fields ∧ qs = .fixed fields
  | .variadic (name, a), qs => ∃ a', a.Instance P a' ∧ qs = .variadic (name, a')

end

end

/-- The same type, but for the names of the variables that function types in it bind. -/
def Renames : Ty → Ty → Prop := Instance .nullable fun v b => b = var v

end Ty

namespace Substitution

/-- What is put in the place of a variable: itself, unless it is mapped. -/
def typeOf (s : Substitution) (v : TypeVariable) : Ty := (s.get? v).getD (.var v)

/-- The empty substitution leaves optional types of optional types as they are. -/
def optional (s : Substitution) : Ty → Ty := if s.isEmpty then .nullable else .orNull

/-- The second type is the first one with the types of the substitution in the places where the variables are free,
where nothing in them is bound. -/
def CaptureAvoiding (s : Substitution) : Ty → Ty → Prop :=
  Ty.Instance s.optional fun v b => (s.typeOf v).Renames b

/-- At this place substitution leaves a bound variable alone, or puts in a type no variable of which is bound. -/
def SparesAt (s : Substitution) (o : Ty.Occurrence) : Prop :=
  if o.v ∈ o.bound then s.typeOf o.v = .var o.v
  else ∀ w ∈ o.bound, ¬(s.typeOf o.v).IsFree w

end Substitution

namespace Ty

/-! ## Instances without renaming -/

theorem bind_false_iff {vs : List TypeVariable} {v w : TypeVariable} :
    Matching.bind (vs.zip vs) (fun _ _ => False) v w ↔ v ∈ vs ∧ w = v := by
  induction vs with
  | nil => simp [Matching.bind]
  | cons a vs ih =>
      simp only [List.zip_cons_cons, Matching.bind, ih, List.mem_cons]
      constructor
      · rintro (⟨rfl, rfl⟩ | ⟨-, -, hv, rfl⟩)
        · exact ⟨.inl rfl, rfl⟩
        · exact ⟨.inr hv, rfl⟩
      · rintro ⟨hv, rfl⟩
        by_cases ha : w = a
        · exact .inl ⟨ha, ha⟩
        · exact .inr ⟨ha, ha, hv.resolve_left ha, rfl⟩

namespace Choice

variable {P : Choice} {vs us : List TypeVariable} {v : TypeVariable} {b : Ty}

theorem below_self : P.below vs vs v b ↔ if v ∈ vs then b = var v else P v b ∧ ∀ w ∈ vs, ¬b.IsFree w := by
  simp only [below, bind_false_iff]
  split
  · rename_i hv
    constructor
    · rintro (⟨_, rfl, -, rfl⟩ | ⟨hnot, -⟩)
      · rfl
      · exact absurd hv hnot
    · rintro rfl
      exact .inl ⟨v, rfl, hv, rfl⟩
  · rename_i hv
    constructor
    · rintro (⟨_, _, hmem, -⟩ | ⟨-, h⟩)
      · exact absurd hmem hv
      · exact h
    · exact fun h => .inr ⟨hv, h⟩

/-- One binder inside another. -/
theorem below_below : (P.below vs vs).below us us v b ↔ P.below (vs ++ us) (vs ++ us) v b := by
  simp only [below_self, List.mem_append]
  by_cases hu : v ∈ us
  · simp [hu]
  · by_cases hv : v ∈ vs
    · simp only [hu, hv, if_false, if_true, or_false, and_iff_left_iff_imp]
      rintro rfl w hw hfree
      rw [isFree_var] at hfree
      exact hu (hfree ▸ hw)
    · simp only [hu, hv, if_false, or_self, or_imp, forall_and, and_assoc]

theorem below_var (h : P v (var v)) : P.below vs vs v (var v) := by
  rw [below_self]
  split
  · rfl
  · rename_i hv
    refine ⟨h, fun w hw hfree => ?_⟩
    rw [isFree_var] at hfree
    exact hv (hfree ▸ hw)

end Choice

section

variable {P : Choice} {vs : List TypeVariable}

/-- What holds of the occurrences in a function type holds of those in its parts, seen from inside. -/
theorem forall_occurrences_function {p : Occurrence → Prop} {ps : Parameters} {a : Ty}
    (h : ∀ o ∈ (function vs ps a).occurrences, p o) :
    (∀ o ∈ occurrencesParameters ps, p (o.below vs)) ∧ ∀ o ∈ a.occurrences, p (o.below vs) := by
  rw [occurrences, List.forall_mem_map, List.forall_mem_append] at h
  exact h

mutual

theorem instance_self : ∀ {a : Ty} {P : Choice} (_ : ∀ o ∈ a.occurrences, P.below o.bound o.bound o.v (var o.v)),
    Instance nullable P a a
  | .number, _, _ | .boolean, _, _ | .bigInteger, _, _ | .null, _, _ => rfl
  | .var v, P, h => by
      simpa [Choice.below_self, Instance] using h ⟨v, []⟩ (List.mem_singleton.mpr rfl)
  | .list a, _, h | .sequence a, _, h | .nullable a, _, h | .tagged a _, _, h => ⟨a, instance_self (a := a) h, rfl⟩
  | .object fields, _, h | .union fields _, _, h => ⟨fields, instanceFields_self h, rfl⟩
  | .function vs ps a, P, h =>
      have ⟨hps, ha⟩ := forall_occurrences_function h
      ⟨vs, ps, a, rfl, instanceParameters_self fun o ho => Choice.below_below.mpr (hps o ho),
        instance_self fun o ho => Choice.below_below.mpr (ha o ho), rfl⟩
termination_by structural a => a

theorem instanceFields_self : ∀ {fields : List (String × Ty)} {P : Choice}
    (_ : ∀ o ∈ occurrencesFields fields, P.below o.bound o.bound o.v (var o.v)),
    InstanceFields nullable P fields fields
  | [], _, _ => rfl
  | (_, a) :: rest, _, h =>
      have ⟨ha, hrest⟩ := List.forall_mem_append.mp h
      ⟨a, rest, instance_self ha, instanceFields_self hrest, rfl⟩
termination_by structural fields => fields

theorem instanceParameters_self : ∀ {ps : ParameterList (String × Ty)} {P : Choice}
    (_ : ∀ o ∈ occurrencesParameters ps, P.below o.bound o.bound o.v (var o.v)),
    InstanceParameters nullable P ps ps
  | .fixed ps, _, h => ⟨ps, instanceFields_self h, rfl⟩
  | .variadic (_, a), _, h => ⟨a, instance_self (a := a) h, rfl⟩
termination_by structural ps => ps

end

theorem Renames.refl (a : Ty) : a.Renames a := instance_self fun _ _ => Choice.below_var rfl

variable {s : Substitution}

mutual

theorem instance_replace : ∀ {a : Ty} {P : Choice}
    (_ : ∀ o ∈ a.occurrences, P.below o.bound o.bound o.v (s.typeOf o.v)), Instance orNull P a (s.replace a)
  | .number, _, _ | .boolean, _, _ | .bigInteger, _, _ | .null, _, _ => rfl
  | .var v, P, h => by
      simpa [Choice.below_self, Instance, Substitution.replace, Substitution.typeOf] using
        h ⟨v, []⟩ (List.mem_singleton.mpr rfl)
  | .list a, _, h | .sequence a, _, h | .nullable a, _, h | .tagged a _, _, h =>
      ⟨s.replace a, instance_replace (a := a) h, rfl⟩
  | .object fields, _, h | .union fields _, _, h => ⟨s.replaceFields fields, instanceFields_replace h, rfl⟩
  | .function vs ps a, P, h =>
      have ⟨hps, ha⟩ := forall_occurrences_function h
      ⟨vs, s.replaceParameters ps, s.replace a, rfl,
        instanceParameters_replace fun o ho => Choice.below_below.mpr (hps o ho),
        instance_replace fun o ho => Choice.below_below.mpr (ha o ho), rfl⟩
termination_by structural a => a

theorem instanceFields_replace : ∀ {fields : List (String × Ty)} {P : Choice}
    (_ : ∀ o ∈ occurrencesFields fields, P.below o.bound o.bound o.v (s.typeOf o.v)),
    InstanceFields orNull P fields (s.replaceFields fields)
  | [], _, _ => rfl
  | (_, a) :: rest, _, h =>
      have ⟨ha, hrest⟩ := List.forall_mem_append.mp h
      ⟨s.replace a, s.replaceFields rest, instance_replace ha, instanceFields_replace hrest, rfl⟩
termination_by structural fields => fields

theorem instanceParameters_replace : ∀ {ps : ParameterList (String × Ty)} {P : Choice}
    (_ : ∀ o ∈ occurrencesParameters ps, P.below o.bound o.bound o.v (s.typeOf o.v)),
    InstanceParameters orNull P ps (s.replaceParameters ps)
  | .fixed ps, _, h => ⟨s.replaceFields ps, instanceFields_replace h, rfl⟩
  | .variadic (_, a), _, h => ⟨s.replace a, instance_replace (a := a) h, rfl⟩
termination_by structural ps => ps

end

end

end Ty

namespace Substitution

open Ty

variable {s : Substitution} {a : Ty}

theorem typeOf_of_isEmpty (h : s.isEmpty = true) (v : TypeVariable) : s.typeOf v = .var v :=
  replace_var_of_isEmpty h v

/-- Substitution avoids capture where it comes to no bound variable and puts in nothing that is bound there. -/
theorem captureAvoiding_apply (h : ∀ o ∈ a.occurrences, s.SparesAt o) : s.CaptureAvoiding a (s.apply a) := by
  by_cases hempty : s.isEmpty = true
  · rw [CaptureAvoiding, optional, apply, if_pos hempty, if_pos hempty]
    refine instance_self fun o _ => Choice.below_var ?_
    rw [typeOf_of_isEmpty hempty]
    exact .refl _
  · rw [CaptureAvoiding, optional, apply, if_neg hempty, if_neg hempty]
    refine instance_replace fun o ho => ?_
    have hspares := h o ho
    rw [SparesAt] at hspares
    rw [Choice.below_self]
    split
    · rename_i hbound
      rwa [if_pos hbound] at hspares
    · rename_i hbound
      rw [if_neg hbound] at hspares
      exact ⟨.refl _, hspares⟩

/-- With `List[C]` for `A` in `[B](x: B) -> A`. -/
theorem captureAvoiding_apply_constant :
    let a : TypeVariable := ⟨"A", 0⟩
    let b : TypeVariable := ⟨"B", 1⟩
    let s : Substitution := .single a (.list (.var ⟨"C", 2⟩))
    let constant : Ty := .function [b] (.fixed [("x", .var b)]) (.var a)
    (∀ o ∈ constant.occurrences, s.SparesAt o) ∧ s.CaptureAvoiding constant (s.apply constant) := by
  intro a b s constant
  have hspares : ∀ o ∈ constant.occurrences, s.SparesAt o := by
    have hoccurrences : constant.occurrences = [⟨b, [b]⟩, ⟨a, [b]⟩] := rfl
    rw [hoccurrences, List.forall_mem_cons, List.forall_mem_singleton]
    constructor
    · exact (if_pos (by decide)).mpr rfl
    · rw [SparesAt, if_neg (by decide)]
      decide
  exact ⟨hspares, captureAvoiding_apply hspares⟩

/-- `Number` for `B` comes to the bound variable of `[B](x: B) -> Number`, and `B` for `A` is captured in
`[B](x: B) -> A`. -/
theorem not_captureAvoiding_apply :
    let a : TypeVariable := ⟨"A", 0⟩
    let b : TypeVariable := ⟨"B", 1⟩
    let ignoring : Ty := .function [b] (.fixed [("x", .var b)]) .number
    let constant : Ty := .function [b] (.fixed [("x", .var b)]) (.var a)
    ¬(single b .number).CaptureAvoiding ignoring ((single b .number).apply ignoring) ∧
      ¬(single a (.var b)).CaptureAvoiding constant ((single a (.var b)).apply constant) := by
  intro a b ignoring constant
  constructor
  · rintro ⟨ws, qs, result, -, ⟨fields, ⟨x, rest, hx, -, rfl⟩, rfl⟩, -, heq⟩
    have hnumber : x = .number := by
      injection heq with _ hqs _
      injection hqs with hfields
      injection hfields with hfield _
      exact (Prod.mk.inj hfield).2.symm
    rcases hx with ⟨w, hw, -⟩ | ⟨hfree, -⟩
    · rw [hnumber] at hw
      cases hw
    · exact hfree (List.mem_singleton.mpr rfl)
  · rintro ⟨ws, qs, result, -, -, hresult, heq⟩
    have heq : Ty.function [b] (.fixed [("x", .var b)]) (.var b) = .function ws qs result := heq
    injection heq with hws _ hb
    subst hws hb
    have hb : b ∈ [b] := List.mem_singleton.mpr rfl
    rcases hresult with ⟨w, -, hw⟩ | ⟨-, -, hnone⟩
    · exact absurd (bind_false_iff.mp hw).1 (by decide)
    · exact hnone b hb (isFree_var.mpr rfl)

end Substitution

end Sable
