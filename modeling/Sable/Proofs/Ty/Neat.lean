import Sable.Proofs.Ty.Inferred
import Sable.Proofs.Ty.Replaced

/-! Neat types: there is no optional type of an optional type in them, and a union is known to hold an alternative that
it has.

What is taken out of a neat type is neat, and so is what variables are replaced in by neat types: an optional type that
comes to stand below an optional one is merged with it. -/
namespace Sable

namespace Ty

/-- Not an optional type of an optional type, nor a union that is known to hold an alternative which it does not
have. -/
def neat : Ty → Bool
  | nullable (nullable _) => false
  | union alternatives (some tag) => Fields.contains tag alternatives
  | _ => true

/-- Every type in the type is neat. -/
abbrev Neat (a : Ty) : Prop := a.every neat = true

variable {a b : Ty} {tag : String}

/-! ## Replacing variables -/

theorem Neat.orNull (h : a.Neat) : a.orNull.Neat := by
  cases a with
  | nullable a => exact h
  | _ => exact Bool.and_eq_true_iff.mpr ⟨rfl, h⟩

theorem stable_neat : Stable neat where
  orNull := Neat.orNull
  replace s a h hvar hnullable := by
    cases a with
    | var v => exact absurd rfl (hvar v)
    | nullable a => exact absurd rfl (hnullable a)
    | union alternatives narrowed =>
        cases narrowed with
        | none => rfl
        | some tag => exact (s.contains_replaceFields tag alternatives).trans h
    | _ => rfl

/-! ## Parts -/

theorem Neat.widened (h : a.Neat) : a.widened.Neat := by
  cases a with
  | union alternatives narrowed => exact Bool.and_eq_true_iff.mpr ⟨rfl, (Bool.and_eq_true_iff.mp h).2⟩
  | _ => exact h

theorem Neat.withoutNull (h : a.Neat) : a.withoutNull.Neat := by
  cases a with
  | nullable a => exact (Bool.and_eq_true_iff.mp h).2
  | _ => exact h

/-- A union is narrowed to an alternative that it has. -/
theorem Neat.narrow (h : a.Neat) (hnarrow : a.narrow? tag = some b) : b.Neat := by
  cases a with
  | union alternatives narrowed =>
      simp only [narrow?, Option.ite_none_right_eq_some, Option.some.injEq] at hnarrow
      obtain ⟨htag, rfl⟩ := hnarrow
      exact Bool.and_eq_true_iff.mpr ⟨htag, (Bool.and_eq_true_iff.mp h).2⟩
  | _ => cases hnarrow

theorem Neat.payload {view : TagView} (h : a.Neat) (hview : a.tagView? = some view)
    (hget : view.payload? tag = some b) : b.Neat := by
  cases a with
  | union alternatives narrowed =>
      cases hview
      exact every_of_field (Bool.and_eq_true_iff.mp h).2 hget
  | tagged payload own =>
      cases hview
      obtain hmem := Fields.mem_of_get? hget
      simp only [List.mem_singleton, Prod.mk.injEq] at hmem
      obtain ⟨-, rfl⟩ := hmem
      exact (Bool.and_eq_true_iff.mp h).2
  | _ => cases hview

theorem neat_function_iff {vs : List TypeVariable} {ps : Parameters} :
    (function vs ps a).Neat ↔ (∀ q ∈ ps.toList, q.2.Neat) ∧ a.Neat := by
  rw [Neat, every, Bool.and_eq_true, Bool.and_eq_true, everyParameter_iff]
  exact and_congr_left' (and_iff_right rfl)

theorem hereditary_neat : Hereditary Neat where
  widened h := h.widened
  list h := (Bool.and_eq_true_iff.mp h).2
  sequence h := (Bool.and_eq_true_iff.mp h).2
  nullable h := (Bool.and_eq_true_iff.mp h).2
  tagged h := (Bool.and_eq_true_iff.mp h).2
  object h := everyField_iff.mp (Bool.and_eq_true_iff.mp h).2
  union h := everyField_iff.mp (Bool.and_eq_true_iff.mp h).2
  parameter h := (neat_function_iff.mp h).1
  result h := (neat_function_iff.mp h).2

end Ty

end Sable
