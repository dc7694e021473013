import Sable.Proofs.Soundness.Environment

/-! What the outcome of a condition tells of the environment: that a name has a value with a tag, or one
that is not `null`. -/
namespace Sable

namespace Eval.Within

variable {α : Type} {allowed : RuntimeFault → Prop} {j : Nat} {Q : Nat → α → Prop}

/-- What all runs have in common may be added to what is promised. -/
theorem and_run {c : Eval α} {P : α → Prop} (h : Within allowed j c Q)
    (hrun : ∀ now later a, c.outcome now = some (.ok a, later) → P a) :
    Within allowed j c fun i a => Q i a ∧ P a := by
  intro now later found hc hlater
  have hfound := h now later found hc hlater
  cases found with
  | error e => exact hfound
  | ok a => exact ⟨hfound, hrun now later a hc⟩

end Eval.Within

namespace Program

variable {p : Program} {steps now later : Nat} {env : Environment} {id : NodeId}

theorem eval_succ (steps : Nat) (env : Environment) (id : NodeId) :
    p.eval (steps + 1) env id = evalNode p p.byName (p.eval steps) (p.call steps) env id := rfl

/-- A name is evaluated by looking it up. -/
theorem get?_of_eval_reference {name : String} {target : Option Target} {v : Value}
    (hform : (p.node id).form = .reference name target)
    (hrun : (p.eval steps env id).outcome now = some (.ok v, later)) :
    Fields.get? name env = some v := by
  cases steps with
  | zero => cases hrun
  | succ steps =>
      simp only [eval_succ, evalNode, hform, byName] at hrun
      cases hget : Fields.get? name env with
      | none =>
          rw [hget] at hrun
          cases hrun
      | some a =>
          rw [hget] at hrun
          cases hrun
          rfl

theorem outcome_bind_eq_ok {α β : Type} {c : Eval α} {f : α → Eval β} {b : β}
    (h : (c >>= f).outcome now = some (.ok b, later)) :
    ∃ a mid, c.outcome now = some (.ok a, mid) ∧ (f a).outcome mid = some (.ok b, later) := by
  rw [Eval.outcome_bind] at h
  split at h
  · cases h
  · exact ⟨_, _, ‹_›, h⟩
  · cases h

/-- Where `x is T` holds, `x` has a value with the tag. -/
theorem tagged_of_eval_hasTag {subject : NodeId} {tag name : String} {target : Option Target}
    (hform : (p.node id).form = .hasTag subject tag)
    (hsubject : (p.node subject).form = .reference name target)
    (hrun : (p.eval steps env id).outcome now = some (.ok (.boolean true), later)) :
    ∃ payload, Fields.get? name env = some (.tagged payload tag) := by
  cases steps with
  | zero => cases hrun
  | succ steps =>
      simp only [eval_succ, evalNode, hform] at hrun
      obtain ⟨a, mid, ha, hrun⟩ := outcome_bind_eq_ok hrun
      have hget := get?_of_eval_reference hsubject ha
      cases a with
      | tagged payload own =>
          obtain ⟨pair, mid', hpair, hrun⟩ := outcome_bind_eq_ok hrun
          cases hpair
          simp only [Eval.outcome_pure, Option.some.injEq, Prod.mk.injEq, Except.ok.injEq,
            Value.boolean.injEq, beq_iff_eq] at hrun
          exact ⟨payload, hrun.1 ▸ hget⟩
      | _ =>
          obtain ⟨pair, mid', hpair, -⟩ := outcome_bind_eq_ok hrun
          cases hpair

/-- Where `x == null` does not hold, `x` has a value that is not `null`. -/
theorem ne_null_of_eval_equal {lhs rhs subject : NodeId} {name : String} {target : Option Target}
    (hform : (p.node id).form = .comparison .equal lhs rhs)
    (hnull : subject = lhs ∧ (p.node rhs).form = .null ∨ subject = rhs ∧ (p.node lhs).form = .null)
    (hsubject : (p.node subject).form = .reference name target)
    (hrun : (p.eval steps env id).outcome now = some (.ok (.boolean false), later)) :
    ∃ v, Fields.get? name env = some v ∧ v ≠ .null := by
  have heval_null : ∀ {id : NodeId} {v : Value} {steps now later : Nat}, (p.node id).form = .null →
      (p.eval steps env id).outcome now = some (.ok v, later) → v = .null := by
    intro id v steps now later hid hv
    cases steps with
    | zero => cases hv
    | succ steps =>
        simp only [eval_succ, evalNode, hid] at hv
        cases hv
        rfl
  cases steps with
  | zero => cases hrun
  | succ steps =>
      simp only [eval_succ, evalNode, hform] at hrun
      obtain ⟨a, mid, ha, hrun⟩ := outcome_bind_eq_ok hrun
      obtain ⟨b, mid', hb, hrun⟩ := outcome_bind_eq_ok hrun
      have hsame : some ((Except.ok (.boolean (a.same b)) : Except RuntimeError Value), mid') =
          some (.ok (.boolean false), later) := hrun
      simp only [Option.some.injEq, Prod.mk.injEq, Except.ok.injEq, Value.boolean.injEq] at hsame
      rcases hnull with ⟨rfl, hrhs⟩ | ⟨rfl, hlhs⟩
      · obtain rfl := heval_null hrhs hb
        refine ⟨a, get?_of_eval_reference hsubject ha, ?_⟩
        rintro rfl
        cases hsame.1
      · obtain rfl := heval_null hlhs ha
        refine ⟨b, get?_of_eval_reference hsubject hb, ?_⟩
        rintro rfl
        cases hsame.1

end Program

namespace Setting

variable {S : Setting} {τ : TypeTable} {names : Names} {ρ : Assignment} {k : Nat}
  {env : Environment} {steps now later : Nat}

/-- Where a condition holds, names have values as the branch for that case takes them to have. -/
theorem EnvironmentHolds.thenBranch (h : S.EnvironmentHolds τ names ρ k env) {condition : NodeId}
    (hrun : (S.program.eval steps env condition).outcome now = some (.ok (.boolean true), later)) :
    S.EnvironmentHolds τ (S.program.branchNames names condition).1 ρ k env := by
  unfold Program.branchNames
  split
  · exact h.narrowed fun name target hsubject =>
      Program.tagged_of_eval_hasTag ‹_› hsubject hrun
  · split <;> exact h
  · exact h

theorem EnvironmentHolds.elseBranch (h : S.EnvironmentHolds τ names ρ k env) {condition : NodeId}
    (hrun : (S.program.eval steps env condition).outcome now = some (.ok (.boolean false), later)) :
    S.EnvironmentHolds τ (S.program.branchNames names condition).2 ρ k env := by
  unfold Program.branchNames
  split
  · exact h
  · rename_i lhs rhs hform
    split
    · exact h.nonNull fun name target hsubject =>
        Program.ne_null_of_eval_equal hform (.inl ⟨rfl, ‹_›⟩) hsubject hrun
    · exact h.nonNull fun name target hsubject =>
        Program.ne_null_of_eval_equal hform (.inr ⟨rfl, ‹_›⟩) hsubject hrun
    · exact h
  · exact h

end Setting

end Sable
