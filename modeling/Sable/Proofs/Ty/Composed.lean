import Sable.Proofs.Ty.Merged
import Sable.Proofs.Ty.Replaced

/-! One substitution after another.

What two substitutions make of a type one after the other, a single one makes of it at once. Replacing variables collapses
optional types of optional types and the empty substitution leaves them, so the one that does both is empty only if both
are. -/
namespace Sable

namespace Ty

variable {p : Ty → Bool} (hp : ∀ a, p a = true)
include hp

set_option linter.unusedSectionVars false in
mutual

theorem every_of_forall : ∀ a : Ty, a.every p = true
  | number | boolean | bigInteger | null | var _ => hp _
  | list a | sequence a | nullable a | tagged a _ => Bool.and_eq_true_iff.mpr ⟨hp _, every_of_forall a⟩
  | object fields | union fields _ => Bool.and_eq_true_iff.mpr ⟨hp _, everyField_of_forall fields⟩
  | function _ ps a => by
      simp only [every, Bool.and_eq_true]
      exact ⟨⟨hp _, everyParameter_of_forall ps⟩, every_of_forall a⟩
termination_by structural a => a

theorem everyField_of_forall : ∀ fields : List (String × Ty), everyField p fields = true
  | [] => rfl
  | (_, a) :: rest => Bool.and_eq_true_iff.mpr ⟨every_of_forall a, everyField_of_forall rest⟩
termination_by structural fields => fields

theorem everyParameter_of_forall : ∀ ps : ParameterList (String × Ty), everyParameter p ps = true
  | .fixed ps => everyField_of_forall ps
  | .variadic (_, a) => every_of_forall a
termination_by structural ps => ps

end

end Ty

namespace Substitution

/-- First `s` and then `t`. A variable that `s` maps stands for what `t` makes of its type, any other one for what it
stands for in `t`. -/
def andThen (s t : Substitution) : Substitution :=
  ⟨s.entries.map (fun entry => (entry.1, t.apply entry.2)) ++ t.entries.filter fun entry => (s.get? entry.1).isNone⟩

variable {s t : Substitution} {v : TypeVariable}

/-! ## The types of variables -/

theorem find?_map_types (f : Ty → Ty) (v : TypeVariable) (entries : List (TypeVariable × Ty)) :
    find? v (entries.map fun entry => (entry.1, f entry.2)) = (find? v entries).map f := by
  induction entries with
  | nil => rfl
  | cons entry rest ih =>
      simp only [List.map_cons, find?, ih]
      split <;> rfl

theorem find?_filter_names (keep : TypeVariable → Bool) (hkeep : keep v = true) (entries : List (TypeVariable × Ty)) :
    find? v (entries.filter fun entry => keep entry.1) = find? v entries := by
  induction entries with
  | nil => rfl
  | cons entry rest ih =>
      by_cases hv : entry.1 = v
      · rw [List.filter_cons_of_pos (hv ▸ hkeep), find?, find?, if_pos hv, if_pos hv]
      · rw [find?, if_neg hv, ← ih, List.filter_cons]
        split
        · rw [find?, if_neg hv]
        · rfl

theorem get?_andThen (s t : Substitution) (v : TypeVariable) :
    (s.andThen t).get? v = ((s.get? v).map t.apply).or (t.get? v) := by
  rw [get?, andThen, find?_append, find?_map_types, ← get?]
  cases hget : s.get? v with
  | some a => rfl
  | none =>
      have hkeep : (s.get? v).isNone = true := by rw [hget, Option.isNone_none]
      exact find?_filter_names (fun w => (s.get? w).isNone) hkeep t.entries

/-- No variable has two entries if none has two in `s` or in `t`. -/
theorem Distinct.andThen (hs : s.Distinct) (ht : t.Distinct) : (s.andThen t).Distinct := by
  have hnames : (s.entries.map fun entry => (entry.1, t.apply entry.2)).map Prod.fst = s.entries.map Prod.fst := by
    rw [List.map_map]
    rfl
  rw [Distinct, Substitution.andThen, List.map_append, hnames, List.nodup_append]
  refine ⟨hs, ht.sublist (List.filter_sublist.map _), fun v hv w hw => ?_⟩
  rintro rfl
  obtain ⟨⟨v, a⟩, hmem, rfl⟩ := List.mem_map.mp hv
  obtain ⟨entry, hentry, hname⟩ := List.mem_map.mp hw
  have hnone := (List.mem_filter.mp hentry).2
  rw [hname, get?, find?_of_mem hs hmem] at hnone
  cases hnone

/-! ## The empty substitution -/

theorem andThen_of_isEmpty_left (hs : s.isEmpty = true) : s.andThen t = t := by
  obtain ⟨entries⟩ := s
  obtain rfl := List.isEmpty_iff.mp hs
  exact congrArg mk (List.filter_eq_self.mpr fun _ _ => rfl)

theorem andThen_of_isEmpty_right (ht : t.isEmpty = true) : s.andThen t = s := by
  have hentries : s.entries.map (fun entry => (entry.1, t.apply entry.2)) = s.entries := by
    simp [apply, ht]
  rw [andThen, hentries, List.isEmpty_iff.mp ht, List.filter_nil, List.append_nil]

theorem isEmpty_andThen_of_left (hs : s.isEmpty = false) : (s.andThen t).isEmpty = false := by
  obtain ⟨_ | ⟨entry, rest⟩⟩ := s
  · cases hs
  · rfl

/-! ## Types and parameters -/

section

variable {u : Substitution}

theorem replace_replace_types (hvar : ∀ v, t.replace (s.replace (.var v)) = u.replace (.var v)) (a : Ty) :
    t.replace (s.replace a) = u.replace a :=
  replace_replace (fun v _ => hvar v) (Ty.every_of_forall (fun _ => rfl) a)

theorem replaceParameters_replaceParameters_types (hvar : ∀ v, t.replace (s.replace (.var v)) = u.replace (.var v))
    (ps : ParameterList (String × Ty)) : t.replaceParameters (s.replaceParameters ps) = u.replaceParameters ps :=
  replaceParameters_replaceParameters (fun v _ => hvar v) (Ty.everyParameter_of_forall (fun _ => rfl) ps)

theorem isEmpty_iff_get? : s.isEmpty = true ↔ ∀ v, s.get? v = none := by
  obtain ⟨_ | ⟨⟨w, a⟩, rest⟩⟩ := s
  · exact ⟨fun _ _ => rfl, fun _ => rfl⟩
  · refine ⟨nofun, fun h => ?_⟩
    have hfound := h w
    rw [get?, find?, if_pos rfl] at hfound
    cases hfound

/-- Only the types of the variables count. -/
theorem apply_congr (h : ∀ v, s.get? v = t.get? v) :
    (∀ a, s.apply a = t.apply a) ∧ ∀ ps, s.applyParameters ps = t.applyParameters ps := by
  have hempty : s.isEmpty = t.isEmpty := by
    rw [Bool.eq_iff_iff, isEmpty_iff_get?, isEmpty_iff_get?]
    simp only [h]
  -- Replacing nothing first makes no difference to what either of them does.
  have hvar (v) : t.replace (empty.replace (.var v)) = s.replace (.var v) := by
    change (t.get? v).getD _ = (s.get? v).getD _
    rw [h]
  have hself (v) : t.replace (empty.replace (.var v)) = t.replace (.var v) := rfl
  simp only [apply, applyParameters, hempty, ← replace_replace_types hvar, ← replaceParameters_replaceParameters_types hvar,
    replace_replace_types hself, replaceParameters_replaceParameters_types hself, implies_true, and_self]

end

theorem replace_replace_var (hs : t.isEmpty = false) (v : TypeVariable) :
    t.replace (s.replace (.var v)) = (s.andThen t).replace (.var v) := by
  rw [replace, replace, get?_andThen]
  cases s.get? v with
  | none => rfl
  | some a => simp [apply, hs]

theorem apply_andThen (s t : Substitution) :
    (∀ a, t.apply (s.apply a) = (s.andThen t).apply a) ∧
      ∀ ps, t.applyParameters (s.applyParameters ps) = (s.andThen t).applyParameters ps := by
  by_cases hs : s.isEmpty = true
  · simp only [andThen_of_isEmpty_left hs, apply, applyParameters, hs, if_true, implies_true, and_self]
  by_cases ht : t.isEmpty = true
  · simp only [andThen_of_isEmpty_right ht, apply, applyParameters, ht, if_true, implies_true, and_self]
  rw [Bool.not_eq_true] at hs ht
  simp only [apply, applyParameters, hs, ht, isEmpty_andThen_of_left hs, Bool.false_eq_true, if_false]
  exact ⟨replace_replace_types (replace_replace_var ht), replaceParameters_replaceParameters_types (replace_replace_var ht)⟩

/-- Two substitutions one after the other are one, and they are any that makes the same of every variable. -/
theorem apply_apply (s t : Substitution) :
    (∀ v, (s.andThen t).get? v = ((s.get? v).map t.apply).or (t.get? v)) ∧
      ∀ u : Substitution, (∀ v, u.get? v = ((s.get? v).map t.apply).or (t.get? v)) →
        (∀ a, t.apply (s.apply a) = u.apply a) ∧ ∀ ps, t.applyParameters (s.applyParameters ps) = u.applyParameters ps := by
  refine ⟨get?_andThen s t, fun u hu => ?_⟩
  obtain ⟨htypes, hparameters⟩ := apply_andThen s t
  obtain ⟨hsame, hsameParameters⟩ := apply_congr fun v => (get?_andThen s t v).trans (hu v).symm
  exact ⟨fun a => (htypes a).trans (hsame a), fun ps => (hparameters ps).trans (hsameParameters ps)⟩

/-- The variable `A` stands for an optional `B`, and `B` for an optional number. -/
def optionalB : Substitution := single ⟨"A", 0⟩ (.nullable (.var ⟨"B", 1⟩))

def optionalNumber : Substitution := single ⟨"B", 1⟩ (.nullable .number)

def optionalNumbers : Substitution := ⟨[(⟨"B", 1⟩, .nullable .number), (⟨"A", 0⟩, .nullable .number)]⟩

/-- Of the question marks on the way one is left. -/
theorem apply_apply_optional :
    (∀ v, optionalNumbers.get? v = ((optionalB.get? v).map optionalNumber.apply).or (optionalNumber.get? v)) ∧
      optionalNumber.apply (optionalB.apply (.nullable (.var ⟨"A", 0⟩))) = .nullable .number := by
  have hvar (v) : optionalNumbers.get? v = ((optionalB.get? v).map optionalNumber.apply).or (optionalNumber.get? v) := by
    simp only [get?, optionalNumbers, optionalB, optionalNumber, single, find?]
    by_cases hA : (⟨"A", 0⟩ : TypeVariable) = v
    · subst hA
      rfl
    · simp only [if_neg hA, Option.map_none, Option.none_or]
  obtain ⟨-, hother⟩ := apply_apply optionalB optionalNumber
  obtain ⟨htypes, -⟩ := hother optionalNumbers hvar
  exact ⟨hvar, htypes (.nullable (.var ⟨"A", 0⟩))⟩

end Substitution

end Sable
