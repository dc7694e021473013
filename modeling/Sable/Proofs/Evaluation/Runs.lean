import Sable.Evaluation

/-! Runs of computations, step by step. -/
namespace Sable.Eval

variable {α β : Type}

/-- What a computation comes to when it starts at a time, and when. -/
abbrev outcome (c : Eval α) (now : Nat) : Option (Except RuntimeError α × Nat) := c.run now

theorem outcome_pure (a : α) (now : Nat) : (pure a : Eval α).outcome now = some (.ok a, now) := rfl

theorem outcome_throw (e : RuntimeError) (now : Nat) :
    (throw e : Eval α).outcome now = some (.error e, now) := rfl

theorem outcome_outOfSteps (now : Nat) : (outOfSteps : Eval α).outcome now = none := rfl

theorem outcome_tick (now : Nat) : tick.outcome now = some (.ok now, now + 1) := rfl

theorem outcome_bind (c : Eval α) (f : α → Eval β) (now : Nat) :
    (c >>= f).outcome now =
      match c.outcome now with
      | none => none
      | some (.ok a, later) => (f a).outcome later
      | some (.error e, later) => some (.error e, later) := by
  simp only [Bind.bind, andThen, outcome]
  cases c.run now with
  | none => rfl
  | some result =>
      obtain ⟨found, later⟩ := result
      cases found <;> rfl

theorem outcome_observe (c : Eval α) (now : Nat) :
    c.observe.outcome now = (c.outcome now).map fun found => (.ok found.1, found.2) := by
  simp only [observe, andThen, outcome]
  cases c.run now <;> rfl

theorem outcome_blame_ok (span : Span) (a : α) (now : Nat) :
    (blame span (.ok a)).outcome now = some (.ok a, now) := rfl

theorem outcome_blame_error (span : Span) (fault : RuntimeFault) (now : Nat) :
    (blame span (.error fault) : Eval α).outcome now = some (.error ⟨fault, span⟩, now) := rfl

end Sable.Eval

namespace Sable.Program

variable {κ : Type}

/-- The environment of a closure, and the closure itself in it if it has a name. -/
def selfEnvironment (identity : Nat) (c : Closure (Value κ) κ) : Environment κ :=
  match c.name with
  | some key => (key, .function (.closure identity c)) :: c.environment
  | none => c.environment

theorem enter_eq (identity : Nat) (c : Closure (Value κ) κ) (arguments : List (Value κ))
    (span : Span) :
    enter identity c arguments span =
      match c.parameters with
      | .fixed keys =>
        if arguments.length < keys.length then
          .error ⟨.argumentCount keys.length arguments.length, span⟩
        else
          .ok ((keys.zip arguments).foldl (fun env entry => entry :: env) (selfEnvironment identity c))
      | .variadic key => .ok ((key, .list arguments) :: selfEnvironment identity c) := by
  obtain ⟨name, parameters, body, environment⟩ := c
  cases name <;> rfl

end Sable.Program
