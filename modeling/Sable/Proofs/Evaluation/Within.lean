import Sable.Proofs.Evaluation.Runs

/-! Computations within a budget of time.

What a computation promises is counted in ticks of the clock: a promise for a budget says nothing of runs
that take longer, and what is promised of a result is promised for the budget that is left then. -/
namespace Sable.Eval

variable {α β : Type} {allowed : RuntimeFault → Prop} {j : Nat} {Q : Nat → α → Prop}
  {Q' : Nat → β → Prop}

/-- Every run of `c` that ends within `j` ticks ends in an allowed fault, or in a result of which `Q`
holds with the ticks that are left. -/
def Within (allowed : RuntimeFault → Prop) (j : Nat) (c : Eval α) (Q : Nat → α → Prop) : Prop :=
  ∀ (now later : Nat) (found : Except RuntimeError α), c.outcome now = some (found, later) →
    later ≤ now + j →
      match found with
      | .ok a => Q (now + j - later) a
      | .error e => allowed e.fault

namespace Within

theorem pure {a : α} (h : Q j a) : Within allowed j (Pure.pure a) Q := by
  intro now later found hrun hlater
  rw [outcome_pure] at hrun
  cases hrun
  simpa using h

theorem throw {e : RuntimeError} (h : allowed e.fault) : Within allowed j (throw e) Q := by
  intro now later found hrun hlater
  rw [outcome_throw] at hrun
  cases hrun
  exact h

theorem outOfSteps : Within allowed j .outOfSteps Q := by
  intro now later found hrun
  rw [outcome_outOfSteps] at hrun
  cases hrun

/-- The clock takes one tick of the budget. -/
theorem tick : Within allowed j tick fun i _ => i + 1 = j := by
  intro now later found hrun hlater
  rw [outcome_tick] at hrun
  cases hrun
  show now + j - (now + 1) + 1 = j
  omega

theorem mono {R : Nat → α → Prop} {c : Eval α} (h : Within allowed j c Q)
    (hQ : ∀ i a, i ≤ j → Q i a → R i a) : Within allowed j c R := by
  intro now later found hrun hlater
  have hfound := h now later found hrun hlater
  cases found with
  | error e => exact hfound
  | ok a =>
      have hforward := c.forward hrun
      exact hQ _ a (by omega) hfound

theorem bind {c : Eval α} {f : α → Eval β} (h : Within allowed j c Q)
    (hf : ∀ i a, i ≤ j → Q i a → Within allowed i (f a) Q') : Within allowed j (c >>= f) Q' := by
  intro now later found hrun hlater
  rw [outcome_bind] at hrun
  split at hrun
  · cases hrun
  · rename_i a mid hc
    have hmid := c.forward hc
    have hfrom := (f a).forward hrun
    have ha := h now mid _ hc (by omega)
    have hfound := hf (now + j - mid) a (by omega) ha mid later found hrun (by omega)
    rwa [show mid + (now + j - mid) - later = now + j - later by omega] at hfound
  · rename_i e mid hc
    cases hrun
    exact h now later _ hc hlater

theorem blame {span : Span} {r : Except RuntimeFault α} (hok : ∀ a, r = .ok a → Q j a)
    (herror : ∀ fault, r = .error fault → allowed fault) : Within allowed j (.blame span r) Q := by
  cases r with
  | ok a => exact pure (hok a rfl)
  | error fault => exact throw (herror fault rfl)

/-- A cast that succeeds. -/
theorem blame_ok {span : Span} {r : Except RuntimeFault α} {a : α} (hr : r = .ok a) (h : Q j a) :
    Within allowed j (.blame span r) Q := by
  subst hr
  exact pure h

theorem observe {c : Eval α} (h : Within allowed j c Q) :
    Within allowed j c.observe fun i found =>
      match found with
      | .ok a => Q i a
      | .error e => allowed e.fault := by
  intro now later found hrun hlater
  rw [outcome_observe, Option.map_eq_some_iff] at hrun
  obtain ⟨⟨result, mid⟩, hc, hfound⟩ := hrun
  cases hfound
  exact h now mid _ hc hlater

end Within

end Sable.Eval
