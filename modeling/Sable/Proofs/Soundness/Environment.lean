import Sable.Proofs.Meaning.Substitution
import Sable.Proofs.Typing.Scopes

/-! Environments that have values of the types that names have in a scope. -/
namespace Sable.Setting

variable {S : Setting} {τ : TypeTable} {plain : Prop} {vs : List TypeVariable} {names : Names}
  {ρ σ : Assignment} {k : Nat} {env : Environment}

/-- The value has all types that the target may have. -/
def TargetHolds (S : Setting) (τ : TypeTable) (ρ : Assignment) (k : Nat) (target : Target)
    (v : Value) : Prop :=
  ∀ (name : String) (span : Span) (type : Ty),
    S.program.referenceType τ name (some target) span = .ok type → type.Holds S ρ k v

/-- Every name in scope that has a type has a value of it. -/
def EnvironmentHolds (S : Setting) (τ : TypeTable) (names : Names) (ρ : Assignment) (k : Nat)
    (env : Environment) : Prop :=
  ∀ (name : String) (target : Target), Fields.get? name names = some target →
    ∃ v, Fields.get? name env = some v ∧ S.TargetHolds τ ρ k target v

theorem environmentHolds_nil : S.EnvironmentHolds τ [] ρ k env := by
  intro name target h
  cases h

theorem EnvironmentHolds.mono {j : Nat} (h : S.EnvironmentHolds τ names ρ k env) (hj : j ≤ k) :
    S.EnvironmentHolds τ names ρ j env := by
  intro name target hget
  obtain ⟨v, hv, htarget⟩ := h name target hget
  exact ⟨v, hv, fun own span type htype => (htarget own span type htype).mono hj⟩

/-- The variables that are not in scope may mean anything. -/
theorem EnvironmentHolds.congr (h : S.EnvironmentHolds τ names ρ k env)
    (hnames : S.program.NamesScoped τ plain vs names) (hσ : ∀ x ∈ vs, ρ x = σ x) :
    S.EnvironmentHolds τ names σ k env := by
  intro name target hget
  obtain ⟨v, hv, htarget⟩ := h name target hget
  refine ⟨v, hv, fun own span type htype => ?_⟩
  rw [← Ty.holds_eq_of_closed (hnames name target hget own span type htype).1 hσ]
  exact htarget own span type htype

theorem EnvironmentHolds.cons (h : S.EnvironmentHolds τ names ρ k env) (name : String)
    {target : Target} {v : Value} (hv : S.TargetHolds τ ρ k target v) :
    S.EnvironmentHolds τ ((name, target) :: names) ρ k ((name, v) :: env) := by
  intro name' target' hget
  simp only [Fields.get?] at hget ⊢
  split
  · rw [if_pos ‹_›] at hget
    obtain rfl := Option.some.inj hget
    exact ⟨v, rfl, hv⟩
  · rw [if_neg ‹_›] at hget
    exact h name' target' hget

/-- More is known of a name, and nothing changes in the environment. -/
theorem EnvironmentHolds.refine (h : S.EnvironmentHolds τ names ρ k env) {name : String}
    {target : Target} {v : Value} (hget : Fields.get? name env = some v)
    (hv : S.TargetHolds τ ρ k target v) :
    S.EnvironmentHolds τ ((name, target) :: names) ρ k env := by
  intro name' target' hget'
  simp only [Fields.get?] at hget'
  split at hget'
  · rename_i hname
    obtain rfl := Option.some.inj hget'
    exact ⟨v, hname ▸ hget, hv⟩
  · exact h name' target' hget'

/-! ## Narrowed names -/

theorem holds_narrow {a : Ty} {tag : String} {payload : Value}
    (h : a.Holds S ρ k (.tagged payload tag)) :
    ((a.narrow? tag).getD a).Holds S ρ k (.tagged payload tag) := by
  cases a with
  | union alternatives narrowed =>
      have hunion := h
      obtain ⟨payload', tag', hv, -, hpayload⟩ := h
      obtain ⟨rfl, rfl⟩ := Value.tagged.inj hv
      simp only [Ty.narrow?]
      split
      · exact ⟨payload, tag, rfl, fun t ht => (Option.some.inj ht).symm, hpayload⟩
      · exact hunion
  | _ => exact h

/-- A value known to have one tag that is found to have another. -/
theorem holds_narrow_again {a : Ty} {tag tag' : String} {payload : Value}
    (h : ((a.narrow? tag').getD a).Holds S ρ k (.tagged payload tag)) :
    ((a.narrow? tag).getD a).Holds S ρ k (.tagged payload tag) := by
  cases a with
  | union alternatives narrowed =>
      have hpayload : Ty.HoldsAlternative S alternatives ρ k tag payload := by
        simp only [Ty.narrow?] at h
        split at h <;>
          obtain ⟨payload', tag'', hv, -, hpayload⟩ := h <;>
          obtain ⟨rfl, rfl⟩ := Value.tagged.inj hv <;>
          exact hpayload
      obtain ⟨b, hget, -⟩ := Ty.holdsAlternative_iff.mp hpayload
      have hcontains : Fields.contains tag alternatives = true := by
        simp [Fields.contains, hget]
      simp only [Ty.narrow?, hcontains, if_true, Option.getD_some]
      exact ⟨payload, tag, rfl, fun t ht => (Option.some.inj ht).symm, hpayload⟩
  | _ => exact h

theorem holds_withoutNull {a : Ty} {v : Value} (h : a.Holds S ρ k v) (hv : v ≠ .null) :
    a.withoutNull.Holds S ρ k v := by
  cases a with
  | nullable a => exact h.resolve_left hv
  | _ => exact h

/-- A name whose value has a tag is of the narrowed type. -/
theorem EnvironmentHolds.narrowed (h : S.EnvironmentHolds τ names ρ k env) {subject : NodeId}
    {tag : String} (hsubject : ∀ name target, (S.program.node subject).form = .reference name target →
      ∃ payload, Fields.get? name env = some (.tagged payload tag)) :
    S.EnvironmentHolds τ (S.program.narrowedNames names subject tag) ρ k env := by
  unfold Program.narrowedNames
  split
  · rename_i name target hform
    obtain ⟨payload, hpayload⟩ := hsubject name target hform
    split
    · rename_i id hget
      obtain ⟨v, hv, htarget⟩ := h name _ hget
      obtain rfl := Option.some.inj (hpayload.symm.trans hv)
      refine h.refine hv fun own span type htype => ?_
      simp only [Program.referenceType, bind_eq_ok, pure_eq_ok] at htype
      obtain ⟨a, ha, rfl⟩ := htype
      exact holds_narrow (htarget own span a ha)
    · rename_i id tag' hget
      obtain ⟨v, hv, htarget⟩ := h name _ hget
      obtain rfl := Option.some.inj (hpayload.symm.trans hv)
      refine h.refine hv fun own span type htype => ?_
      simp only [Program.referenceType, bind_eq_ok, pure_eq_ok] at htype
      obtain ⟨a, ha, rfl⟩ := htype
      have hknown : S.program.referenceType τ own (some (.narrowed id tag')) span =
          .ok ((a.narrow? tag').getD a) := by
        simp only [Program.referenceType, bind_eq_ok, pure_eq_ok]
        exact ⟨a, ha, rfl⟩
      exact holds_narrow_again (htarget own span _ hknown)
    · exact h
  · exact h

/-- A name whose value is not `null` is of the type without `null`. -/
theorem EnvironmentHolds.nonNull (h : S.EnvironmentHolds τ names ρ k env) {subject : NodeId}
    (hsubject : ∀ name target, (S.program.node subject).form = .reference name target →
      ∃ v, Fields.get? name env = some v ∧ v ≠ .null) :
    S.EnvironmentHolds τ (S.program.nonNullNames names subject) ρ k env := by
  unfold Program.nonNullNames
  split
  · rename_i name target hform
    obtain ⟨w, hw, hnull⟩ := hsubject name target hform
    split
    · rename_i id hget
      obtain ⟨v, hv, htarget⟩ := h name _ hget
      obtain rfl := Option.some.inj (hw.symm.trans hv)
      refine h.refine hv fun own span type htype => ?_
      simp only [Program.referenceType, bind_eq_ok, pure_eq_ok] at htype
      obtain ⟨a, ha, rfl⟩ := htype
      exact holds_withoutNull (htarget own span a ha) hnull
    · rename_i id hget
      obtain ⟨v, hv, htarget⟩ := h name _ hget
      exact h.refine hv htarget
    · exact h
  · exact h

end Sable.Setting
