import Sable.Proofs.Evaluation.Runs

/-! What computations end in, whenever they start and however long they take. -/
namespace Sable

namespace Eval

variable {α β : Type} {E E' : RuntimeError → Prop} {Q : α → Prop} {Q' : β → Prop}

/-- Every run of `c` that ends comes to a result with `Q` or to an error with `E`. -/
def Ends (E : RuntimeError → Prop) (Q : α → Prop) (c : Eval α) : Prop :=
  ∀ (now later : Nat) (found : Except RuntimeError α), c.outcome now = some (found, later) →
    match found with
    | .ok a => Q a
    | .error e => E e

namespace Ends

theorem pure {a : α} (h : Q a) : Ends E Q (Pure.pure a) := by
  intro now later found hrun
  rw [outcome_pure] at hrun
  cases hrun
  exact h

theorem throw {e : RuntimeError} (h : E e) : Ends E Q (throw e) := by
  intro now later found hrun
  rw [outcome_throw] at hrun
  cases hrun
  exact h

theorem outOfSteps : Ends E Q .outOfSteps := by
  intro now later found hrun
  rw [outcome_outOfSteps] at hrun
  cases hrun

theorem tick : Ends E (fun _ => True) tick := by
  intro now later found hrun
  rw [outcome_tick] at hrun
  cases hrun
  trivial

theorem mono {R : α → Prop} {c : Eval α} (h : Ends E Q c) (hQ : ∀ a, Q a → R a) (hE : ∀ e, E e → E' e) :
    Ends E' R c := by
  intro now later found hrun
  have hfound := h now later found hrun
  cases found with
  | error e => exact hE e hfound
  | ok a => exact hQ a hfound

theorem bind {c : Eval α} {f : α → Eval β} (h : Ends E Q c) (hf : ∀ a, Q a → Ends E Q' (f a)) :
    Ends E Q' (c >>= f) := by
  intro now later found hrun
  rw [outcome_bind] at hrun
  split at hrun
  · cases hrun
  · rename_i a mid hc
    exact hf a (h now mid _ hc) mid later found hrun
  · rename_i e mid hc
    cases hrun
    exact h now later _ hc

theorem blame {span : Span} {r : Except RuntimeFault α} (hok : ∀ a, r = .ok a → Q a)
    (herror : ∀ fault, r = .error fault → E ⟨fault, span⟩) : Ends E Q (.blame span r) := by
  cases r with
  | ok a => exact pure (hok a rfl)
  | error fault => exact throw (herror fault rfl)

/-- A cast that succeeds. -/
theorem blame_ok {span : Span} {r : Except RuntimeFault α} {a : α} (hr : r = .ok a) (h : Q a) :
    Ends E Q (.blame span r) := by
  subst hr
  exact pure h

theorem observe {c : Eval α} (h : Ends E Q c) :
    Ends E' (fun found => match found with
      | .ok a => Q a
      | .error e => E e) c.observe := by
  intro now later found hrun
  rw [outcome_observe, Option.map_eq_some_iff] at hrun
  obtain ⟨⟨result, mid⟩, hc, hfound⟩ := hrun
  cases hfound
  exact h now mid _ hc

end Ends

end Eval

/-! ## Parts of calls of builtins -/

variable {κ : Type} {E : RuntimeError → Prop}

theorem Builtin.ends_newSequence {Q : Value κ → Prop} {s : Sequence (Value κ)}
    (h : ∀ identity, Q (.sequence identity s)) : (newSequence s).Ends E Q :=
  Eval.Ends.tick.bind fun identity _ => .pure (h identity)

/-- Each step of taking items may use what the steps before have left. -/
theorem Sequence.ends_takeFrom {callback : Value κ → List (Value κ) → Span → Eval (Value κ)} {span : Span}
    {steps : Nat} {I : Sequence (Value κ) → Prop} {Q : Value κ → Prop}
    (hnext : ∀ s, I s → (s.next callback span steps).Ends E fun found =>
      I found.2 ∧ (∀ item, found.1 = .ok (some item) → Q item) ∧ ∀ e, found.1 = .error e → E e)
    (count : Nat) {s : Sequence (Value κ)} (hs : I s) {taken : List (Value κ)} (htaken : ∀ item ∈ taken, Q item) :
    (takeFrom callback span steps count s taken).Ends E fun items => ∀ item ∈ items, Q item := by
  induction count generalizing s taken with
  | zero => exact .pure fun item hitem => htaken item (List.mem_reverse.mp hitem)
  | succ count ih =>
      refine (hnext s hs).bind fun found hfound => ?_
      obtain ⟨answer, rest⟩ := found
      obtain ⟨hrest, hitem, herror⟩ := hfound
      rcases answer with e | _ | out
      · exact .throw (herror e rfl)
      · exact .pure fun item hitem => htaken item (List.mem_reverse.mp hitem)
      · exact ih hrest (List.forall_mem_cons.mpr ⟨hitem out rfl, htaken⟩)

end Sable
