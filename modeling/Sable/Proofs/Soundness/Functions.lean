import Sable.Proofs.Soundness.Conditions

/-! Functions keep the promise of their type, if evaluation keeps its own for smaller budgets.

A call takes a tick of the clock before the body runs. So a function that refers to itself may be taken
to have its type in the body, where less of the budget is left. -/
namespace Sable

namespace Program

/-- The pairs of types that the check of a program compares: those of arguments with those of parameters,
and those of values and results with the types that are declared for them. -/
inductive Asked (p : Program) (τ : TypeTable) : Ty → Ty → Prop
  | argument {vs : List TypeVariable} {parameters : Parameters} {result : Ty} {types : List Ty}
      {s : Substitution} {i : Nat} {type : Ty} {q : String × Ty}
      (hcall : p.CallOf τ vs parameters result types s) (htype : types[i]? = some type)
      (hq : (s.applyParameters parameters).get? i = some q) : Asked p τ type q.2
  | value {id : BindingId} {name : String} {span : Span} {node : NodeId} {type declared : Ty}
      (hbinding : p.binding id = .value name span (some declared) node)
      (htype : τ node = .ok type) : Asked p τ type declared
  | result {id : BindingId} {name : String} {span : Span} {s : Signature} {body : FunctionBody}
      {type declared : Ty} (hbinding : p.binding id = .function name span s (some body))
      (hdeclared : s.result = some declared) (htype : τ body.result = .ok type) :
      Asked p τ type declared
  | lambda {id : NodeId} {s : Signature} {body : FunctionBody} {type declared : Ty}
      (hform : (p.node id).form = .lambda s body) (hdeclared : s.result = some declared)
      (htype : τ body.result = .ok type) : Asked p τ type declared

/-- What the name of a function without a body stands for in a running program. -/
def externalValue (name : String) : Value :=
  match Builtin.ofName? name with
  | some b => .function (.builtin b)
  | none => .function (.unbound name)

end Program

namespace Setting

/-- What makes the types of a program tell the truth about its values. -/
structure Trusts (S : Setting) (τ : TypeTable) (plain : Prop) (native : String → Signature → Prop) :
    Prop where
  obeys : S.program.Obeys τ
  contained : ¬ plain → S.program.InfersContained τ
  fits : ∀ (a b : Ty), S.program.Asked τ a b → (plain → a.every Ty.monomorphic = true) →
    (plain → b.every Ty.monomorphic = true) → a.assignable b = .ok true →
      ∀ (ρ : Assignment) (k : Nat) (v : Value), a.Holds S ρ k v → b.Holds S ρ k v
  spared : ∀ {vs : List TypeVariable} {parameters : Parameters} {result : Ty} {types : List Ty}
    {s : Substitution}, S.program.CallOf τ vs parameters result types s → (plain → vs = []) →
      s.isEmpty = false → Ty.everyParameter s.sparesBound parameters = true ∧ result.every s.sparesBound = true
  suits : ∀ {vs : List TypeVariable} {s : Signature} {identity : Nat} {c : Closure Value},
    S.program.SignatureScoped plain vs s →
      c.parameters = Program.parameterKeys S.program.byName s →
        S.suits (.closure identity c) s.arguments
  divisionByZero : S.allowed .divisionByZero
  native : ∀ {name : String} {s : Signature} {result : Ty}, native name s →
    s.result = some result → ∀ (ρ : Assignment) (k : Nat),
      (Ty.function s.typeVariables s.arguments result).Holds S ρ k (Program.externalValue name)

variable {S : Setting} {τ : TypeTable} {plain : Prop} {native : String → Signature → Prop}
  {vs : List TypeVariable} {names names' : Names} {ρ : Assignment} {k steps : Nat}
  {env : Environment}

/-- Evaluation, with so many steps and within the budget, keeps the promise of all types. -/
def EvalSound (S : Setting) (τ : TypeTable) (plain : Prop) (native : String → Signature → Prop)
    (steps k : Nat) : Prop :=
  ∀ (vs : List TypeVariable) (names : Names) (env : Environment) (ρ : Assignment) (id : NodeId)
    (type : Ty), S.program.Scoped plain native vs names id → S.program.ValidNode τ id →
      S.program.NamesScoped τ plain vs names → S.EnvironmentHolds τ names ρ k env →
        τ id = .ok type → Eval.Within S.allowed k (S.program.eval steps env id) (type.Holds S ρ)

/-! ## Arguments -/

/-- The arguments of a call under the names of the parameters. -/
theorem EnvironmentHolds.parameters (h : S.EnvironmentHolds τ names ρ k env) {ids : List BindingId}
    {ps : List (String × Ty)} {arguments : List Value}
    (hids : List.Forall₂ (fun id (q : String × Ty) =>
      ∃ span, S.program.binding id = .parameter q.1 span q.2) ids ps)
    (harguments : Ty.HoldsEach S ps ρ k arguments) :
    S.EnvironmentHolds τ (S.program.boundNames names ids) ρ k
      (((ids.map S.program.byName.key).zip arguments).foldl (fun env entry => entry :: env) env) := by
  induction hids generalizing names env arguments with
  | nil => exact h
  | @cons id q ids ps hid _ ih =>
      obtain ⟨span, hbinding⟩ := hid
      obtain ⟨v, arguments', rfl, hv, hrest⟩ := harguments
      refine ih (h.cons _ fun own span' type htype => ?_) hrest
      simp only [Program.referenceType, Program.bindingType, hbinding, pure_eq_ok] at htype
      exact htype ▸ hv

/-- The environment in which the body of a closure runs. -/
theorem enter_holds {s : Signature} {identity : Nat} {c : Closure Value} {arguments : List Value}
    (span : Span) (hs : S.program.SignatureScoped plain vs s)
    (hparameters : c.parameters = Program.parameterKeys S.program.byName s)
    (hself : S.EnvironmentHolds τ names ρ k (Program.selfEnvironment identity c))
    (harguments : Ty.HoldsParameters S s.arguments ρ k arguments) :
    ∃ env, Program.enter identity c arguments span = .ok env ∧
      S.EnvironmentHolds τ (S.program.boundNames names s.parameters) ρ k env := by
  have hids := hs.parameters
  rw [Program.enter_eq, hparameters]
  unfold Program.parameterKeys
  cases hsignature : s.arguments with
  | variadic q =>
      rw [hsignature] at hids harguments
      obtain ⟨id, rest, hid, hrest, hsplit⟩ := List.forall₂_cons_right_iff.mp hids
      cases hrest
      obtain ⟨span, hbinding⟩ := hid
      rw [hsplit]
      refine ⟨_, rfl, hself.cons _ fun own span' type htype => ?_⟩
      simp only [Program.referenceType, Program.bindingType, hbinding, pure_eq_ok] at htype
      exact htype ▸ ⟨arguments, rfl, harguments⟩
  | fixed ps =>
      rw [hsignature] at hids harguments
      have hlength := (Ty.holdsEach_iff.mp harguments.1).1
      have hkeys : (s.parameters.map S.program.byName.key).length ≤ arguments.length := by
        rwa [List.length_map, hids.length_eq]
      simp only [Nat.not_lt.mpr hkeys, if_false]
      exact ⟨_, rfl, hself.parameters hids harguments.1⟩

/-! ## Closures -/

/-- The evaluation of bodies keeps the promise of their types. -/
def BodySound (S : Setting) (τ : TypeTable) (plain : Prop) (native : String → Signature → Prop)
    (steps k : Nat) : Prop :=
  ∀ (vs : List TypeVariable) (names : Names) (env : Environment) (ρ : Assignment)
    (body : FunctionBody) (type : Ty), S.program.ScopedBody plain native vs names body →
      S.program.ValidBody τ body → S.program.NamesScoped τ plain vs names →
        S.EnvironmentHolds τ names ρ k env → τ body.result = .ok type →
          Eval.Within S.allowed k
            (Program.evalBody S.program S.program.byName (S.program.eval steps) env body)
            (type.Holds S ρ)

section

variable (htrusts : S.Trusts τ plain native)
include htrusts

/-- A closure keeps the promise of its type where bodies do for smaller budgets. -/
theorem closure_holds (hbelow : ∀ i < k, ∀ steps, S.BodySound τ plain native steps i)
    {s : Signature} {identity : Nat} {c : Closure Value} {result : Ty}
    (hs : S.program.SignatureScoped plain vs s)
    (hparameters : c.parameters = Program.parameterKeys S.program.byName s)
    (hbody : S.program.ScopedBody plain native (s.typeVariables ++ vs)
      (S.program.boundNames names s.parameters) c.body)
    (hvalid : S.program.ValidBody τ c.body) (hnames : S.program.NamesScoped τ plain vs names)
    (hself : ∀ i < k, S.EnvironmentHolds τ names ρ i (Program.selfEnvironment identity c))
    (hresult : ∀ type, τ c.body.result = .ok type → ∀ (σ : Assignment) (i : Nat) (v : Value),
      type.Holds S σ i v → result.Holds S σ i v) :
    (Ty.function s.typeVariables s.arguments result).Holds S ρ k
      (.function (.closure identity c)) := by
  refine ⟨_, rfl, htrusts.suits hs hparameters, fun σ hσ j hj arguments harguments steps span => ?_⟩
  cases steps with
  | zero => exact Eval.Within.outOfSteps
  | succ steps =>
      have hcall : S.program.call (steps + 1) (.function (.closure identity c)) arguments span =
          Program.callValue S.program S.program.byName (S.program.eval steps) (S.program.call steps)
            steps (.function (.closure identity c)) arguments span := rfl
      rw [hcall]
      unfold Program.callValue
      refine Eval.Within.bind (Eval.Within.blame_ok
        (Q := fun i f => i = j ∧ f = Function.closure identity c) rfl ⟨rfl, rfl⟩) ?_
      rintro _ _ - ⟨rfl, rfl⟩
      refine Eval.Within.bind Eval.Within.tick fun i _ _ htick => ?_
      have hfresh : ∀ x ∈ vs, ρ x = σ x := fun x hx => (hσ x fun hx' => hs.fresh x hx' hx).symm
      obtain ⟨env, henter, henv⟩ := enter_holds span hs hparameters
        ((hself i (by omega)).congr hnames hfresh) (harguments.mono (by omega))
      rw [henter]
      obtain ⟨type, htype⟩ := hvalid.typed
      refine Eval.Within.mono (hbelow i (by omega) steps _ _ env σ c.body type hbody hvalid
        (hnames.inside hs) henv htype) fun i' v _ hv => hresult type htype σ i' v hv

/-- The result type of a function takes what its body gives. -/
theorem result_holds {s : Signature} {body : FunctionBody} {type own : Ty}
    (hdeclared : Program.Declared τ s.result body.result)
    (hasked : ∀ declared a, s.result = some declared → τ body.result = .ok a →
      S.program.Asked τ a declared)
    (hs : S.program.SignatureScoped plain vs s)
    (hscoped : ∀ a, τ body.result = .ok a → Program.TypeScoped plain (s.typeVariables ++ vs) a)
    (htype : Program.signatureType τ s (some body) = .ok type) (hown : τ body.result = .ok own) :
    ∃ result, type = .function s.typeVariables s.arguments result ∧
      ∀ (σ : Assignment) (i : Nat) (v : Value), own.Holds S σ i v → result.Holds S σ i v := by
  obtain ⟨result, hresult, rfl⟩ := Program.signatureType_eq_ok_iff.mp htype
  refine ⟨result, rfl, fun σ i v hv => ?_⟩
  rcases hresult with hresult | ⟨-, b, hb, hb'⟩
  · obtain ⟨a, ha, hfits⟩ := hdeclared result hresult
    obtain rfl := Except.ok.inj (hown.symm.trans ha)
    exact htrusts.fits own result (hasked result own hresult ha) (hscoped own ha).2
      (hs.result result hresult).2 hfits σ i v hv
  · obtain rfl := Option.some.inj hb
    obtain rfl := Except.ok.inj (hown.symm.trans hb')
    exact hv

omit htrusts in
/-- A function that says what its result is has the same type inside its own body as outside. -/
theorem self_type_eq {s : Signature} {body : Option FunctionBody} {inside outside : Ty}
    (hinside : Program.signatureType τ s none = .ok inside)
    (houtside : Program.signatureType τ s body = .ok outside) : inside = outside := by
  obtain ⟨result, hresult, rfl⟩ := Program.signatureType_eq_ok_iff.mp hinside
  obtain ⟨result', hresult', rfl⟩ := Program.signatureType_eq_ok_iff.mp houtside
  rcases hresult with hresult | ⟨-, b, hb, -⟩
  · rcases hresult' with hresult' | ⟨hnone, -⟩
    · rw [Option.some.inj (hresult.symm.trans hresult')]
    · rw [hnone] at hresult
      cases hresult
  · cases hb

/-- A function with a name has its type, also where it is seen from inside. -/
theorem namedFunction_holds {id : BindingId} {name : String} {span : Span} {s : Signature}
    {body : FunctionBody} (hbinding : S.program.binding id = .function name span s (some body))
    (hs : S.program.SignatureScoped plain vs s)
    (hbody : S.program.ScopedBody plain native (s.typeVariables ++ vs)
      (S.program.boundNames ((name, .enclosing id) :: names) s.parameters) body)
    (hvalid : S.program.ValidBody τ body)
    (hdeclared : Program.Declared τ s.result body.result)
    (hnames : S.program.NamesScoped τ plain vs names) (identity : Nat) :
    ∀ k, (∀ i < k, ∀ steps, S.BodySound τ plain native steps i) →
      S.EnvironmentHolds τ names ρ k env → S.TargetHolds τ ρ k (.bound id)
        (.function (.closure identity
          ⟨some name, Program.parameterKeys S.program.byName s, body, env⟩)) := by
  intro k
  induction k using Nat.strongRecOn with
  | ind k ih =>
      intro hbelow henv own span' type htype
      have hsignature := htype
      simp only [Program.referenceType, Program.bindingType, hbinding] at hsignature
      obtain ⟨actual, hactual⟩ := hvalid.typed
      obtain ⟨result, rfl, hresult⟩ := result_holds htrusts hdeclared
        (fun declared a hd ha => .result hbinding hd ha) hs
        (hbody.typed htrusts.obeys htrusts.contained ((hnames.enclosing hbinding hs).inside hs))
        hsignature hactual
      refine closure_holds htrusts hbelow hs rfl hbody hvalid (hnames.enclosing hbinding hs) ?_ ?_
      · intro i hi
        refine (henv.mono (Nat.le_of_lt hi)).cons name fun own' span'' type' htype' => ?_
        simp only [Program.referenceType, hbinding] at htype'
        split at htype'
        · rw [self_type_eq htype' hsignature]
          exact ih i hi (fun i' hi' => hbelow i' (Nat.lt_trans hi' hi))
            (henv.mono (Nat.le_of_lt hi)) own span' _ htype
        · cases htype'
      · intro type' htype'
        obtain rfl := Except.ok.inj (hactual.symm.trans htype')
        exact hresult

end

end Setting

end Sable
