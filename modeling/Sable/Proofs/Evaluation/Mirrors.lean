import Sable.Proofs.Evaluation.Runs

/-! Computations that run alike: they take the same time and fail with the same errors, and where the one
has a value the other has its image. -/
namespace Sable.Eval

variable {α β γ δ : Type}

/-- `c'` comes to the image under `g` of what `c` comes to, and values of `c` are all `good`. -/
structure Mirrors (good : α → Prop) (g : α → β) (c : Eval α) (c' : Eval β) : Prop where
  image : ∀ now, c'.outcome now = (c.outcome now).map fun found => (found.1.map g, found.2)
  good : ∀ now a later, c.outcome now = some (.ok a, later) → good a

namespace Mirrors

variable {good : α → Prop} {g : α → β}

theorem pure {a : α} {b : β} (ha : good a) (hb : b = g a) :
    Mirrors good g (Pure.pure a) (Pure.pure b) := by
  subst hb
  refine ⟨fun _ => rfl, fun now a' later h => ?_⟩
  rw [outcome_pure] at h
  cases h
  exact ha

theorem throw (e : RuntimeError) : Mirrors good g (throw e) (throw e) := by
  refine ⟨fun _ => rfl, fun now a later h => ?_⟩
  rw [outcome_throw] at h
  cases h

theorem outOfSteps : Mirrors good g .outOfSteps .outOfSteps :=
  ⟨fun _ => rfl, fun _ _ _ h => by cases h⟩

theorem tick : Mirrors (fun _ => True) id tick tick :=
  ⟨fun _ => rfl, fun _ _ _ _ => trivial⟩

theorem bind {good' : γ → Prop} {g' : γ → δ} {c : Eval α} {c' : Eval β} {f : α → Eval γ}
    {f' : β → Eval δ} (h : Mirrors good g c c')
    (hf : ∀ a, good a → Mirrors good' g' (f a) (f' (g a))) :
    Mirrors good' g' (c >>= f) (c' >>= f') := by
  constructor
  · intro now
    rw [outcome_bind, outcome_bind, h.image]
    cases hc : c.outcome now with
    | none => rfl
    | some found =>
        obtain ⟨result, later⟩ := found
        cases result with
        | error e => rfl
        | ok a => exact (hf a (h.good now a later hc)).image later
  · intro now a' later' hrun
    rw [outcome_bind] at hrun
    split at hrun
    · cases hrun
    · rename_i a later hc
      exact (hf a (h.good now a later hc)).good later a' later' hrun
    · cases hrun

theorem blame (span : Span) {r : Except RuntimeFault α} {r' : Except RuntimeFault β}
    (hr : r' = r.map g) (hgood : ∀ a, r = .ok a → good a) :
    Mirrors good g (.blame span r) (.blame span r') := by
  subst hr
  cases r with
  | ok a => exact .pure (hgood a rfl) rfl
  | error fault => exact .throw _

/-- A cast that does not show what the image is of. -/
theorem blame_same (span : Span) (r : Except RuntimeFault α) :
    Mirrors (fun a => r = .ok a) id (.blame span r) (.blame span r) :=
  .blame span (by cases r <;> rfl) fun _ h => h

theorem observe {c : Eval α} {c' : Eval β} (h : Mirrors good g c c') :
    Mirrors (fun r => ∀ a, r = .ok a → good a) (Except.map g) c.observe c'.observe := by
  constructor
  · intro now
    rw [outcome_observe, outcome_observe, h.image]
    cases c.outcome now <;> rfl
  · intro now r later hrun a hr
    subst hr
    rw [outcome_observe, Option.map_eq_some_iff] at hrun
    obtain ⟨⟨result, later'⟩, hc, hfound⟩ := hrun
    cases hfound
    exact h.good now a _ hc

end Mirrors

end Sable.Eval
