import Sable.Proofs.Fields
import Sable.Proofs.Ty.Every
import Sable.Ty.Substitution

/-! What replacing variables makes of a type.

It keeps what a property asks of every type within a type; it changes nothing where the variables stand for themselves;
and to replace variables twice is to replace them once. -/
namespace Sable

namespace Ty

@[simp] theorem orNull_orNull (a : Ty) : a.orNull.orNull = a.orNull := by cases a <;> rfl

/-- A property that a type still has when variables are replaced below its root. -/
structure Stable (p : Ty → Bool) : Prop where
  orNull : ∀ {a : Ty}, a.every p = true → a.orNull.every p = true
  replace : ∀ (s : Substitution) {a : Ty}, p a = true → (∀ v, a ≠ var v) → (∀ b, a ≠ nullable b) →
    p (s.replace a) = true

end Ty

namespace Substitution

variable {p : Ty → Bool} {s t u : Substitution}

/-! ## Fields and optional types -/

theorem replaceFields_eq_map (s : Substitution) (fields : List (String × Ty)) :
    s.replaceFields fields = fields.map fun field => (field.1, s.replace field.2) := by
  induction fields with
  | nil => rfl
  | cons field rest ih => rw [replaceFields, ih, List.map_cons]

theorem get?_replaceFields (s : Substitution) (name : String) (fields : Fields Ty) :
    Fields.get? name (s.replaceFields fields) = (Fields.get? name fields).map s.replace := by
  rw [replaceFields_eq_map, Fields.get?_map]

theorem contains_replaceFields (s : Substitution) (name : String) (fields : Fields Ty) :
    Fields.contains name (s.replaceFields fields) = Fields.contains name fields := by
  rw [Fields.contains, get?_replaceFields, Option.isSome_map, Fields.contains]

theorem insert_replaceFields (s : Substitution) (name : String) (a : Ty) (fields : Fields Ty) :
    Fields.insert name (s.replace a) (s.replaceFields fields) = s.replaceFields (Fields.insert name a fields) := by
  rw [replaceFields_eq_map, Fields.insert_map, ← replaceFields_eq_map]

theorem replace_orNull (s : Substitution) (a : Ty) : s.replace a.orNull = (s.replace a).orNull := by
  cases a with
  | nullable a => exact ((s.replace a).orNull_orNull).symm
  | _ => rfl

/-! ## Properties of every type within a type -/

section

variable (hp : Ty.Stable p) (himage : ∀ v b, s.get? v = some b → b.every p = true)
include hp himage

set_option linter.unusedSectionVars false in
mutual

theorem every_replace : ∀ {a : Ty}, a.every p = true → (s.replace a).every p = true
  | .number, h | .boolean, h | .bigInteger, h | .null, h => h
  | .var v, h => by
      rw [replace]
      cases hget : s.get? v with
      | none => exact h
      | some b => exact himage v b hget
  | .list a, h | .sequence a, h | .tagged a _, h => by
      obtain ⟨hroot, ha⟩ := Bool.and_eq_true_iff.mp h
      exact Bool.and_eq_true_iff.mpr ⟨hp.replace s hroot nofun nofun, every_replace ha⟩
  | .nullable a, h => hp.orNull (every_replace (a := a) (Bool.and_eq_true_iff.mp h).2)
  | .object fields, h | .union fields _, h => by
      obtain ⟨hroot, hfields⟩ := Bool.and_eq_true_iff.mp h
      exact Bool.and_eq_true_iff.mpr ⟨hp.replace s hroot nofun nofun, everyField_replace hfields⟩
  | .function vs ps a, h => by
      simp only [Ty.every, replace, Bool.and_eq_true] at h ⊢
      obtain ⟨⟨hroot, hps⟩, ha⟩ := h
      exact ⟨⟨hp.replace s hroot nofun nofun, everyParameter_replace hps⟩, every_replace ha⟩
termination_by structural a => a

theorem everyField_replace : ∀ {fields : List (String × Ty)}, Ty.everyField p fields = true →
    Ty.everyField p (s.replaceFields fields) = true
  | [], _ => rfl
  | (_, a) :: rest, h => by
      obtain ⟨ha, hrest⟩ := Bool.and_eq_true_iff.mp h
      exact Bool.and_eq_true_iff.mpr ⟨every_replace ha, everyField_replace hrest⟩
termination_by structural fields => fields

theorem everyParameter_replace : ∀ {ps : ParameterList (String × Ty)}, Ty.everyParameter p ps = true →
    Ty.everyParameter p (s.replaceParameters ps) = true
  | .fixed _, h => everyField_replace h
  | .variadic (_, a), h => every_replace (a := a) h
termination_by structural ps => ps

end

theorem every_apply {a : Ty} (h : a.every p = true) : (s.apply a).every p = true := by
  unfold apply
  split
  · exact h
  · exact every_replace hp himage h

end

/-! ## Types that stay as they are -/

section

variable (hvar : ∀ v, p (.var v) = true → s.replace (.var v) = .var v)
  (hnullable : ∀ a, p (.nullable (.nullable a)) = false)
include hvar hnullable

set_option linter.unusedSectionVars false in
mutual

/-- Nothing changes where every variable is replaced by itself and no optional type is one of an optional type. -/
theorem replace_eq_self : ∀ {a : Ty}, a.every p = true → s.replace a = a
  | .number, _ | .boolean, _ | .bigInteger, _ | .null, _ => rfl
  | .var v, h => hvar v h
  | .list a, h | .sequence a, h | .tagged a _, h => by
      rw [replace, replace_eq_self (Bool.and_eq_true_iff.mp h).2]
  | .nullable a, h => by
      obtain ⟨hroot, ha⟩ := Bool.and_eq_true_iff.mp h
      rw [replace, replace_eq_self ha]
      cases a with
      | nullable a => exact absurd ((hnullable a).symm.trans hroot) Bool.false_ne_true
      | _ => rfl
  | .object fields, h | .union fields _, h => by
      rw [replace, replaceFields_eq_self (Bool.and_eq_true_iff.mp h).2]
  | .function vs ps a, h => by
      simp only [Ty.every, Bool.and_eq_true] at h
      rw [replace, replaceParameters_eq_self h.1.2, replace_eq_self h.2]
termination_by structural a => a

theorem replaceFields_eq_self : ∀ {fields : List (String × Ty)}, Ty.everyField p fields = true →
    s.replaceFields fields = fields
  | [], _ => rfl
  | (_, a) :: rest, h => by
      obtain ⟨ha, hrest⟩ := Bool.and_eq_true_iff.mp h
      rw [replaceFields, replace_eq_self ha, replaceFields_eq_self hrest]
termination_by structural fields => fields

theorem replaceParameters_eq_self : ∀ {ps : ParameterList (String × Ty)}, Ty.everyParameter p ps = true →
    s.replaceParameters ps = ps
  | .fixed _, h => congrArg ParameterList.fixed (replaceFields_eq_self h)
  | .variadic (name, a), h => congrArg (fun b => ParameterList.variadic (name, b)) (replace_eq_self (a := a) h)
termination_by structural ps => ps

end

end

theorem replace_var_of_isEmpty (h : s.isEmpty = true) (v : TypeVariable) : s.replace (.var v) = .var v := by
  rw [replace, get?, List.isEmpty_iff.mp h, find?, Option.getD_none]

section

variable (hnullable : ∀ a, p (.nullable (.nullable a)) = false)
include hnullable

/-- The empty substitution differs from replacing nothing in optional types of optional types only. -/
theorem apply_eq_replace {a : Ty} (h : a.every p = true) : s.apply a = s.replace a := by
  unfold apply
  split
  · rename_i hempty
    exact (replace_eq_self (fun v _ => replace_var_of_isEmpty hempty v) hnullable h).symm
  · rfl

theorem applyParameters_eq_replace {ps : Parameters} (h : Ty.everyParameter p ps = true) :
    s.applyParameters ps = s.replaceParameters ps := by
  unfold applyParameters
  split
  · rename_i hempty
    exact (replaceParameters_eq_self (fun v _ => replace_var_of_isEmpty hempty v) hnullable h).symm
  · rfl

end

/-! ## Replacing twice -/

section

variable (hvar : ∀ v, p (.var v) = true → t.replace (s.replace (.var v)) = u.replace (.var v))
include hvar

set_option linter.unusedSectionVars false in
mutual

/-- Variables are replaced twice as they are by a substitution that has for each variable what becomes of it. -/
theorem replace_replace : ∀ {a : Ty}, a.every p = true → t.replace (s.replace a) = u.replace a
  | .number, _ | .boolean, _ | .bigInteger, _ | .null, _ => rfl
  | .var v, h => hvar v h
  | .list a, h | .sequence a, h | .tagged a _, h => by
      rw [replace, replace, replace_replace (Bool.and_eq_true_iff.mp h).2, replace]
  | .nullable a, h => by
      rw [replace, replace_orNull, replace_replace (Bool.and_eq_true_iff.mp h).2, replace]
  | .object fields, h | .union fields _, h => by
      rw [replace, replace, replaceFields_replaceFields (Bool.and_eq_true_iff.mp h).2, replace]
  | .function vs ps a, h => by
      simp only [Ty.every, Bool.and_eq_true] at h
      rw [replace, replace, replaceParameters_replaceParameters h.1.2, replace_replace h.2, replace]
termination_by structural a => a

theorem replaceFields_replaceFields : ∀ {fields : List (String × Ty)}, Ty.everyField p fields = true →
    t.replaceFields (s.replaceFields fields) = u.replaceFields fields
  | [], _ => rfl
  | (_, a) :: rest, h => by
      obtain ⟨ha, hrest⟩ := Bool.and_eq_true_iff.mp h
      rw [replaceFields, replaceFields, replace_replace ha, replaceFields_replaceFields hrest, replaceFields]
termination_by structural fields => fields

theorem replaceParameters_replaceParameters : ∀ {ps : ParameterList (String × Ty)}, Ty.everyParameter p ps = true →
    t.replaceParameters (s.replaceParameters ps) = u.replaceParameters ps
  | .fixed _, h => congrArg ParameterList.fixed (replaceFields_replaceFields h)
  | .variadic (name, a), h => congrArg (fun b => ParameterList.variadic (name, b)) (replace_replace (a := a) h)
termination_by structural ps => ps

end

end

end Substitution

end Sable
