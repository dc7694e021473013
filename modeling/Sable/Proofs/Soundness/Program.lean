import Sable.Proofs.Soundness.Expressions

/-! Programs keep the promise of their types. -/
namespace Sable

namespace Ty

variable {S : Setting} {ρ : Assignment} {k : Nat} {v : Value}

theorem Holds.widened {a : Ty} (h : a.Holds S ρ k v) : a.widened.Holds S ρ k v := by
  cases a with
  | union alternatives narrowed =>
      obtain ⟨payload, tag, hv, -, hpayload⟩ := h
      exact ⟨payload, tag, hv, nofun, hpayload⟩
  | _ => exact h

/-- What a type stands for in a choice has that type. -/
theorem Holds.covered {a type : Ty} (h : a.Holds S ρ k v) (hcovering : Program.Covering a type) :
    type.Holds S ρ k v := by
  rcases hcovering with halike | halike
  · rw [← halike.holds_eq (agree_eq ρ)]
    exact h
  · rw [← halike.holds_eq (agree_eq ρ)]
    exact h.widened

/-- The tag of a value is one that a match has to deal with. -/
theorem TagView.mem_required {view : TagView} {tag : String} {type : Ty}
    (hget : view.payload? tag = some type) (hpinned : ∀ entry ∈ view.pinned, entry = (tag, type)) :
    tag ∈ view.required := by
  unfold required
  split
  · rename_i own _ hentry
    obtain ⟨rfl, -⟩ := Prod.mk.inj (hpinned _ hentry)
    exact List.mem_singleton_self own
  · exact Fields.mem_names_of_get? hget

end Ty

namespace Setting

variable {S : Setting} {τ : TypeTable} {plain : Prop} {native : String → Signature → Prop}
  {vs : List TypeVariable} {names names' : Names} {ρ : Assignment} {k steps : Nat}
  {env : Environment}

/-! ## Expressions with scopes of their own -/

theorem within_reference {id : NodeId} {name : String} {type : Ty}
    (henv : S.EnvironmentHolds τ names ρ k env)
    (hform : (S.program.node id).form = .reference name (Fields.get? name names))
    (htype : S.program.HasType τ (.reference name (Fields.get? name names)) type) :
    Eval.Within S.allowed k (S.program.eval (steps + 1) env id) (type.Holds S ρ) := by
  simp only [Program.eval_succ, Program.evalNode, hform]
  generalize hget : Fields.get? name names = target at htype
  cases htype with
  | reference h =>
      obtain ⟨v, hv, htarget⟩ := henv name _ hget
      refine Eval.Within.blame_ok (a := v) ?_ (htarget _ _ type h)
      simp only [Program.byName, hv]

/-- The names in an arm of a match: the scrutinee has the tag, and the payload has a name. -/
theorem EnvironmentHolds.arm (henv : S.EnvironmentHolds τ names ρ k env) {scrutinee : NodeId} {arm : Arm} {own payloadType : Ty}
    {view : Ty.TagView} {payload : Value} (hown : τ scrutinee = .ok own)
    (hview : own.tagView? = some view) (hget : view.payload? arm.tag = some payloadType)
    (hpayload : payloadType.Holds S ρ k payload)
    (hbinding : ∃ name span, S.program.binding arm.binding = .payload name span scrutinee arm.tag)
    (hsubject : ∀ name target, (S.program.node scrutinee).form = .reference name target →
      ∃ payload, Fields.get? name env = some (.tagged payload arm.tag)) :
    S.EnvironmentHolds τ
      (S.program.boundNames (S.program.narrowedNames names scrutinee arm.tag) [arm.binding]) ρ k
      ((S.program.byName.key arm.binding, payload) :: env) := by
  obtain ⟨name, span, hbinding⟩ := hbinding
  refine (henv.narrowed hsubject).cons _ fun own' span' type htype => ?_
  simp only [Program.referenceType, Program.bindingType, hbinding, bind_eq_ok] at htype
  obtain ⟨own'', hown'', htype⟩ := htype
  obtain rfl := Except.ok.inj (hown.symm.trans hown'')
  simp only [hview, Option.bind_some, hget, pure_eq_ok] at htype
  exact htype ▸ hpayload

section

variable (heval : ∀ j ≤ k, S.EvalSound τ plain native steps j)
  (hnames : S.program.NamesScoped τ plain vs names) (henv : S.EnvironmentHolds τ names ρ k env)
include heval hnames henv

theorem within_conditional {id c t e : NodeId} {type : Ty}
    (hform : (S.program.node id).form = .conditional c t e)
    (htype : S.program.HasType τ (.conditional c t e) type)
    (hc : S.program.Scoped plain native vs names c)
    (ht : S.program.Scoped plain native vs (S.program.branchNames names c).1 t)
    (he : S.program.Scoped plain native vs (S.program.branchNames names c).2 e)
    (hvalid : ∀ part ∈ [c, t, e], S.program.ValidNode τ part) :
    Eval.Within S.allowed k (S.program.eval (steps + 1) env id) (type.Holds S ρ) := by
  simp only [List.forall_mem_cons] at hvalid
  obtain ⟨hvalidc, hvalidt, hvalide, -⟩ := hvalid
  simp only [Program.eval_succ, Program.evalNode, hform]
  cases htype with
  | conditional hcondition hthen helse hcovert hcovere =>
      have hrun := Eval.Within.and_run
        (EvalSound.keeps heval hc hvalidc hnames henv k (Nat.le_refl k) _ hcondition)
        fun now later v hv => (⟨now, later, hv⟩ : ∃ now later,
          (S.program.eval steps env c).outcome now = some (.ok v, later))
      refine Eval.Within.bind hrun ?_
      rintro i v hi ⟨hv, now, later, hv'⟩
      refine Eval.Within.bind (within_asBoolean hv) ?_
      rintro i b - ⟨rfl, rfl⟩
      cases b with
      | true =>
          have hbranch := heval i hi vs _ env ρ t _ ht hvalidt (hnames.branches c).1
            ((henv.mono hi).thenBranch hv') hthen
          exact hbranch.mono fun j w _ hw => hw.covered hcovert
      | false =>
          have hbranch := heval i hi vs _ env ρ e _ he hvalide (hnames.branches c).2
            ((henv.mono hi).elseBranch hv') helse
          exact hbranch.mono fun j w _ hw => hw.covered hcovere

theorem within_cases {id scrutinee : NodeId} {arms : List Arm} {type : Ty}
    (hform : (S.program.node id).form = .cases scrutinee arms)
    (htype : S.program.HasType τ (.cases scrutinee arms) type)
    (hscrutinee : S.program.Scoped plain native vs names scrutinee)
    (hpayload : ∀ arm ∈ arms, ∃ name span,
      S.program.binding arm.binding = .payload name span scrutinee arm.tag)
    (harms : ∀ arm ∈ arms, S.program.Scoped plain native vs
      (S.program.boundNames (S.program.narrowedNames names scrutinee arm.tag) [arm.binding]) arm.body)
    (hvalid : ∀ part ∈ scrutinee :: arms.map (·.body), S.program.ValidNode τ part)
    (hscoped : ∀ own, τ scrutinee = .ok own → Program.TypeScoped plain vs own) :
    Eval.Within S.allowed k (S.program.eval (steps + 1) env id) (type.Holds S ρ) := by
  obtain ⟨hvalid, hvalidArms⟩ := List.forall_mem_cons.mp hvalid
  simp only [Program.eval_succ, Program.evalNode, hform]
  cases htype with
  | cases hown hview hrequired hcovered =>
      have hrun := Eval.Within.and_run
        (EvalSound.keeps heval hscrutinee hvalid hnames henv k (Nat.le_refl k) _ hown)
        fun now later v hv => (⟨now, later, hv⟩ : ∃ now later,
          (S.program.eval steps env scrutinee).outcome now = some (.ok v, later))
      refine Eval.Within.bind hrun ?_
      rintro i v hi ⟨hv, now, later, hv'⟩
      refine Eval.Within.bind (within_asTagged hv hview) ?_
      rintro i ⟨tag, payload⟩ - ⟨rfl, rfl, own, hget, hholds, hpinned⟩
      obtain ⟨arm₀, hmem₀, htag₀⟩ := hrequired tag (Ty.TagView.mem_required hget hpinned)
      -- the arm that is taken is the first one for the tag
      cases hfind : arms.find? (·.tag == tag) with
      | none => exact absurd htag₀ (by simpa using List.find?_eq_none.mp hfind arm₀ hmem₀)
      | some arm =>
          have hmem := List.mem_of_find?_eq_some hfind
          obtain rfl : arm.tag = tag := by simpa using List.find?_some hfind
          obtain ⟨a, ha, hcovering⟩ := hcovered arm hmem
          have hnames' := (hnames.narrowed scrutinee arm.tag).bound fun type htype =>
            Program.payload_scoped (hpayload arm hmem).choose_spec.choose_spec hscoped htype
          have henv' := (henv.mono hi).arm hown hview hget hholds (hpayload arm hmem)
            fun name target hsubject => ⟨payload, Program.get?_of_eval_reference hsubject hv'⟩
          have hbody := heval i hi vs _ _ ρ arm.body a (harms arm hmem)
            (hvalidArms _ (List.mem_map_of_mem hmem)) hnames' henv' ha
          exact hbody.mono fun j w _ hw => hw.covered hcovering

end

section

variable (htrusts : S.Trusts τ plain native)
  (hbelow : ∀ i < k, ∀ steps, S.BodySound τ plain native steps i)
include htrusts hbelow

theorem within_lambda {id : NodeId} {s : Signature} {body : FunctionBody} {type : Ty}
    (hform : (S.program.node id).form = .lambda s body)
    (hs : S.program.SignatureScoped plain vs s)
    (hbody : S.program.ScopedBody plain native (s.typeVariables ++ vs)
      (S.program.boundNames names s.parameters) body)
    (hvalid : S.program.ValidBody τ body) (hdeclared : Program.Declared τ s.result body.result)
    (hnames : S.program.NamesScoped τ plain vs names) (henv : S.EnvironmentHolds τ names ρ k env)
    (htype : Program.signatureType τ s (some body) = .ok type) :
    Eval.Within S.allowed k (S.program.eval (steps + 1) env id) (type.Holds S ρ) := by
  simp only [Program.eval_succ, Program.evalNode, hform]
  obtain ⟨actual, hactual⟩ := hvalid.typed
  obtain ⟨result, rfl, hresult⟩ := result_holds htrusts hdeclared
    (fun declared a hd ha => .lambda hform hd ha) hs
    (hbody.typed htrusts.obeys htrusts.contained (hnames.inside hs)) htype hactual
  refine Eval.Within.bind Eval.Within.tick fun i identity hi htick => Eval.Within.pure ?_
  refine closure_holds htrusts (fun j hj => hbelow j (Nat.lt_of_lt_of_le hj hi)) hs rfl hbody hvalid
    hnames (fun j hj => henv.mono (Nat.le_trans (Nat.le_of_lt hj) hi)) fun own hown => ?_
  obtain rfl := Except.ok.inj (hactual.symm.trans hown)
  exact hresult

/-- Evaluation with one more step. -/
theorem evalSound_succ (heval : ∀ j ≤ k, S.EvalSound τ plain native steps j) :
    S.EvalSound τ plain native (steps + 1) k := by
  intro vs names env ρ id type hscoped hvalid hnames henv htype
  have hrule := Program.hasType_of_typeRule (htrusts.obeys id type htype)
  cases hscoped with
  | simple hform _ hchildren =>
      refine within_simple htrusts hrule hform
        (fun c hc => (hchildren c hc).typed htrusts.obeys htrusts.contained hnames) fun c hc => ?_
      exact EvalSound.keeps heval (hchildren c hc) (hvalid.child hc) hnames henv
  | reference hform =>
      rw [hform] at hrule
      exact within_reference henv hform hrule
  | conditional hform hc ht he =>
      rw [hform] at hrule
      exact within_conditional heval hnames henv hform hrule hc ht he fun part hpart =>
        hvalid.child (by rw [hform]; exact hpart)
  | lambda hform hs hbody =>
      rw [hform] at hrule
      obtain ⟨hvalidBody, hdeclared⟩ := hvalid.ofLambda hform
      cases hrule with
      | lambda h =>
          exact within_lambda htrusts hbelow hform hs hbody hvalidBody hdeclared hnames henv h
  | cases hform hscrutinee hpayload harms =>
      rw [hform] at hrule
      refine within_cases heval hnames henv hform hrule hscrutinee hpayload harms
        (fun part hpart => hvalid.child (by rw [hform]; exact hpart)) ?_
      exact hscrutinee.typed htrusts.obeys htrusts.contained hnames

/-! ## Bodies -/

omit hbelow in
/-- A value that is bound has the type that is declared for it. -/
theorem value_holds {id : BindingId} {name : String} {span : Span} {declared : Option Ty}
    {node : NodeId} {actual : Ty} {v : Value}
    (hbinding : S.program.binding id = .value name span declared node)
    (hdeclared : Program.Declared τ declared node) (hactual : τ node = .ok actual)
    (hscoped : Program.TypeScoped plain vs actual)
    (hscopedDeclared : ∀ type ∈ declared, Program.TypeScoped plain vs type)
    (hv : actual.Holds S ρ k v) : S.TargetHolds τ ρ k (.bound id) v := by
  intro own span' type htype
  cases declared with
  | none =>
      simp only [Program.referenceType, Program.bindingType, hbinding] at htype
      obtain rfl := Except.ok.inj (hactual.symm.trans htype)
      exact hv
  | some required =>
      simp only [Program.referenceType, Program.bindingType, hbinding, pure_eq_ok] at htype
      obtain ⟨a, ha, hfits⟩ := hdeclared required rfl
      obtain rfl := Except.ok.inj (hactual.symm.trans ha)
      exact htype ▸ htrusts.fits actual required (.value hbinding hactual) hscoped.2
        (hscopedDeclared required rfl).2 hfits ρ k v hv

omit htrusts hbelow in
/-- What the name of a function without a body stands for. -/
theorem bind_external {id : BindingId} {name : String} {span : Span} {s : Signature}
    (hbinding : S.program.binding id = .function name span s none) :
    Program.bind S.program S.program.byName (S.program.eval steps) env id =
      pure ((name, Program.externalValue name) :: env) := by
  simp only [Program.bind, hbinding, Program.externalValue, Program.byName, Binding.name]
  cases Builtin.ofName? name <;> rfl

/-- After a binding its name has a value of its type. -/
theorem within_bind (heval : ∀ j ≤ k, S.EvalSound τ plain native steps j) {id : BindingId}
    (hscoped : S.program.ScopedBindings plain native vs names [id] names')
    (hvalid : S.program.ValidBinding τ id) (hnames : S.program.NamesScoped τ plain vs names)
    (henv : S.EnvironmentHolds τ names ρ k env) :
    Eval.Within S.allowed k (Program.bind S.program S.program.byName (S.program.eval steps) env id)
      fun j env' => S.EnvironmentHolds τ names' ρ j env' := by
  cases hscoped with
  | value hbinding hscopedDeclared hnode hrest =>
      cases hrest
      obtain ⟨hvalid, hdeclared⟩ := hvalid.ofValue hbinding
      obtain ⟨actual, hactual⟩ := hvalid.typed
      simp only [Program.bind, hbinding]
      refine Eval.Within.bind
        (EvalSound.keeps heval hnode hvalid hnames henv k (Nat.le_refl k) _ hactual)
        fun i v hi hv => Eval.Within.pure ?_
      exact (henv.mono hi).cons _ (value_holds htrusts hbinding hdeclared hactual
        (hnode.typed htrusts.obeys htrusts.contained hnames actual hactual) hscopedDeclared hv)
  | @function _ _ _ _ _ name span s body hbinding hs hbody hrest =>
      cases hrest
      obtain ⟨hvalid, hdeclared⟩ := hvalid.ofFunction hbinding
      simp only [Program.bind, hbinding]
      refine Eval.Within.bind Eval.Within.tick fun i identity hi htick => Eval.Within.pure ?_
      have hholds := namedFunction_holds htrusts hbinding hs hbody hvalid hdeclared hnames identity i
        (fun j hj => hbelow j (by omega)) (henv.mono hi)
      have hkey : S.program.byName.key id = name := by simp only [Program.byName, hbinding, Binding.name]
      rw [← hkey] at hholds
      exact (henv.mono hi).cons _ hholds
  | external hbinding _ hnative hs hresult hrest =>
      cases hrest
      rw [bind_external hbinding]
      refine Eval.Within.pure ?_
      simp only [Program.boundNames, List.foldl_cons, List.foldl_nil, hbinding, Binding.name]
      refine henv.cons _ fun own span' type htype => ?_
      simp only [Program.referenceType, Program.bindingType, hbinding] at htype
      obtain ⟨result', hresult', rfl⟩ := Program.signatureType_eq_ok_iff.mp htype
      rcases hresult' with hresult' | ⟨-, b, hb, -⟩
      · exact htrusts.native hnative hresult' ρ k
      · cases hb

/-- After bindings the names in scope have values of their types. -/
theorem within_bindAll (heval : ∀ j ≤ k, S.EvalSound τ plain native steps j)
    {ids : List BindingId} (hscoped : S.program.ScopedBindings plain native vs names ids names')
    (hvalid : ∀ id ∈ ids, S.program.ValidBinding τ id)
    (hnames : S.program.NamesScoped τ plain vs names) (henv : S.EnvironmentHolds τ names ρ k env) :
    Eval.Within S.allowed k
      (Program.bindAll S.program S.program.byName (S.program.eval steps) env ids)
      fun j env' => S.EnvironmentHolds τ names' ρ j env' := by
  induction ids generalizing k names env with
  | nil =>
      cases hscoped
      exact Eval.Within.pure henv
  | cons id rest ih =>
      obtain ⟨hid, hrest⟩ := List.forall_mem_cons.mp hvalid
      obtain ⟨hfirst, hafter⟩ := hscoped.uncons
      refine Eval.Within.bind (within_bind htrusts hbelow heval hfirst hid hnames henv)
        fun i env' hi henv' => ?_
      exact ih (fun j hj => hbelow j (Nat.lt_of_lt_of_le hj hi))
        (fun j hj => heval j (Nat.le_trans hj hi)) hafter hrest
        (hfirst.typed htrusts.obeys htrusts.contained hnames) henv'

theorem bodySound_of_evalSound (heval : ∀ j ≤ k, S.EvalSound τ plain native steps j) :
    S.BodySound τ plain native steps k := by
  intro vs names env ρ body type hscoped hvalid hnames henv htype
  cases hscoped with
  | mk hbindings hresult =>
      cases hvalid with
      | mk hvalidBindings hvalidResult =>
          refine Eval.Within.bind
            (within_bindAll htrusts hbelow heval hbindings hvalidBindings hnames henv)
            fun i env' hi henv' => ?_
          exact heval i hi vs _ env' ρ body.result type hresult hvalidResult
            (hbindings.typed htrusts.obeys htrusts.contained hnames) henv' htype

end

/-! ## Evaluation -/

variable (htrusts : S.Trusts τ plain native)
include htrusts

/-- Where types can be trusted, evaluation keeps their promise: by induction on the budget, and for one
budget on the steps. -/
theorem sound (k : Nat) :
    ∀ steps, S.EvalSound τ plain native steps k ∧ S.BodySound τ plain native steps k := by
  induction k using Nat.strongRecOn with
  | ind k ih =>
      have hbelow : ∀ i < k, ∀ steps, S.BodySound τ plain native steps i :=
        fun i hi steps => (ih i hi steps).2
      have hupTo : ∀ steps, S.EvalSound τ plain native steps k →
          ∀ j ≤ k, S.EvalSound τ plain native steps j := by
        intro steps heval j hj
        rcases Nat.lt_or_eq_of_le hj with hj | rfl
        · exact (ih j hj steps).1
        · exact heval
      have heval : ∀ steps, S.EvalSound τ plain native steps k := by
        intro steps
        induction steps with
        | zero =>
            intro vs names env ρ id type _ _ _ _ _
            exact Eval.Within.outOfSteps
        | succ steps ihsteps => exact evalSound_succ htrusts hbelow (hupTo steps ihsteps)
      exact fun steps => ⟨heval steps, bodySound_of_evalSound htrusts hbelow (hupTo steps (heval steps))⟩

/-- A whole program ends in a value of its type or in an allowed fault, however long it runs. -/
theorem evaluate_sound (hscoped : S.program.ScopedBody plain native [] [] S.program.body)
    (hvalid : S.program.ValidBody τ S.program.body) {type : Ty}
    (htype : τ S.program.body.result = .ok type) (ρ : Assignment) {steps : Nat}
    {found : Except RuntimeError Value} (hrun : S.program.evaluate steps = some found) :
    (∃ v, found = .ok v ∧ ∀ k, type.Holds S ρ k v) ∨ ∃ e, found = .error e ∧ S.allowed e.fault := by
  obtain ⟨⟨found, later⟩, hrun', rfl⟩ := Option.map_eq_some_iff.mp hrun
  have hwithin := fun k => (sound htrusts k steps).2 [] [] [] ρ S.program.body type hscoped hvalid
    Program.namesScoped_nil environmentHolds_nil htype 0 later found hrun'
  cases found with
  | ok v =>
      refine .inl ⟨v, rfl, fun k => ?_⟩
      have hv := hwithin (later + k) (by omega)
      rwa [show 0 + (later + k) - later = k by omega] at hv
  | error e => exact .inr ⟨e, rfl, hwithin later (by omega)⟩

end Setting

end Sable
