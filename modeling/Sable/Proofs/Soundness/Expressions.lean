import Sable.Proofs.Soundness.Functions

/-! Expressions keep the promise of their types, if their parts do and if functions do for smaller
budgets: one lemma for each way in which an expression has a type. -/
namespace Sable.Setting

variable {S : Setting} {τ : TypeTable} {plain : Prop} {native : String → Signature → Prop}
  {vs : List TypeVariable} {names names' : Names} {ρ : Assignment} {k steps : Nat}
  {env : Environment}

/-- The evaluation of a node keeps the promise of the type of the node. -/
def Keeps (S : Setting) (τ : TypeTable) (ρ : Assignment) (steps k : Nat) (env : Environment)
    (id : NodeId) : Prop :=
  ∀ j ≤ k, ∀ type, τ id = .ok type →
    Eval.Within S.allowed j (S.program.eval steps env id) (type.Holds S ρ)

theorem Keeps.mono {j : Nat} {id : NodeId} (h : S.Keeps τ ρ steps k env id) (hj : j ≤ k) :
    S.Keeps τ ρ steps j env id :=
  fun i hi => h i (Nat.le_trans hi hj)

/-- Evaluation that is sound keeps the promise of a node in scope. -/
theorem EvalSound.keeps (heval : ∀ j ≤ k, S.EvalSound τ plain native steps j) {id : NodeId}
    (hscoped : S.program.Scoped plain native vs names id) (hvalid : S.program.ValidNode τ id)
    (hnames : S.program.NamesScoped τ plain vs names) (henv : S.EnvironmentHolds τ names ρ k env) :
    S.Keeps τ ρ steps k env id :=
  fun j hj type htype =>
    heval j hj vs names env ρ id type hscoped hvalid hnames (henv.mono hj) htype

/-! ## Casts that succeed -/

theorem within_asBoolean {j : Nat} {v : Value} {span : Span} (h : Ty.boolean.Holds S ρ j v) :
    Eval.Within S.allowed j (.blame span v.asBoolean) fun i b => i = j ∧ v = .boolean b := by
  obtain ⟨b, rfl⟩ := h
  exact Eval.Within.blame_ok rfl ⟨rfl, rfl⟩

/-- A value of a union or a tagged type has a tag of the type, and the payload that goes with it. -/
theorem holds_view {a : Ty} {view : Ty.TagView} {j : Nat} {v : Value} (h : a.Holds S ρ j v)
    (hview : a.tagView? = some view) : ∃ payload tag type, v = .tagged payload tag ∧
      view.payload? tag = some type ∧ type.Holds S ρ j payload ∧
        ∀ entry ∈ view.pinned, entry = (tag, type) := by
  cases a with
  | union alternatives narrowed =>
      cases hview
      obtain ⟨payload, tag, rfl, hnarrowed, hpayload⟩ := h
      obtain ⟨type, hget, htype⟩ := Ty.holdsAlternative_iff.mp hpayload
      refine ⟨payload, tag, type, rfl, hget, htype, fun entry hentry => ?_⟩
      obtain ⟨own, hown, hentry⟩ := Option.bind_eq_some_iff.mp hentry
      obtain rfl := hnarrowed own hown
      rw [hget] at hentry
      exact (Option.some.inj hentry).symm
  | tagged a own =>
      cases hview
      obtain ⟨payload, rfl, hpayload⟩ := h
      refine ⟨payload, own, a, rfl, by simp [Ty.TagView.payload?, Fields.get?], hpayload, ?_⟩
      exact fun entry hentry => (Option.some.inj hentry).symm
  | _ => cases hview

theorem within_asTagged {a : Ty} {view : Ty.TagView} {j : Nat} {v : Value} {span : Span}
    (h : a.Holds S ρ j v) (hview : a.tagView? = some view) :
    Eval.Within S.allowed j (.blame span v.asTagged) fun i found => i = j ∧
      v = .tagged found.2 found.1 ∧ ∃ type, view.payload? found.1 = some type ∧
        type.Holds S ρ j found.2 ∧ ∀ entry ∈ view.pinned, entry = (found.1, type) := by
  obtain ⟨payload, tag, type, rfl, hget, htype, hpinned⟩ := holds_view h hview
  exact Eval.Within.blame_ok rfl ⟨rfl, rfl, type, hget, htype, hpinned⟩

/-! ## Operators -/

theorem within_numberArithmetic (hzero : S.allowed .divisionByZero) {op : ArithmeticOp} {j : Nat}
    {v w : Value} {span : Span} (hv : Ty.number.Holds S ρ j v) (hw : Ty.number.Holds S ρ j w) :
    Eval.Within S.allowed j (.blame span (v.arithmetic op w)) (Ty.number.Holds S ρ) := by
  obtain ⟨x, rfl⟩ := hv
  obtain ⟨y, rfl⟩ := hw
  cases op with
  | add | subtract | multiply => exact Eval.Within.blame_ok rfl ⟨_, rfl⟩
  | divide | floorDivide | remainder =>
      simp only [Value.arithmetic, Value.numberArithmetic]
      split
      · exact Eval.Within.throw hzero
      · exact Eval.Within.blame_ok rfl ⟨_, rfl⟩

theorem within_bigIntegerArithmetic (hzero : S.allowed .divisionByZero) {op : ArithmeticOp}
    (hop : op.onBigIntegers = true) {j : Nat} {v w : Value} {span : Span}
    (hv : Ty.bigInteger.Holds S ρ j v) (hw : Ty.bigInteger.Holds S ρ j w) :
    Eval.Within S.allowed j (.blame span (v.arithmetic op w)) (Ty.bigInteger.Holds S ρ) := by
  obtain ⟨m, rfl⟩ := hv
  obtain ⟨n, rfl⟩ := hw
  cases op with
  | add | subtract | multiply => exact Eval.Within.blame_ok rfl ⟨_, rfl⟩
  | floorDivide =>
      simp only [Value.arithmetic, Value.bigIntegerArithmetic]
      split
      · exact Eval.Within.throw hzero
      · exact Eval.Within.blame_ok rfl ⟨_, rfl⟩
  | divide | remainder => cases hop

theorem within_order {op : ComparisonOp} {a : Ty} (ha : a = .number ∨ a = .bigInteger) {j : Nat}
    {v w : Value} {span : Span} (hv : a.Holds S ρ j v) (hw : a.Holds S ρ j w) :
    Eval.Within S.allowed j (.blame span (v.compare op w)) fun _ _ => True := by
  rcases ha with rfl | rfl <;>
    obtain ⟨x, rfl⟩ := hv <;> obtain ⟨y, rfl⟩ := hw <;>
    cases op <;> exact Eval.Within.blame_ok rfl trivial

/-! ## Lists of nodes -/

theorem within_evalAll {ids : List NodeId} {types : List Ty}
    (htypes : List.Forall₂ (fun id type => τ id = .ok type) ids types)
    (hkeeps : ∀ id ∈ ids, S.Keeps τ ρ steps k env id) :
    Eval.Within S.allowed k (Program.evalAll (S.program.eval steps) env ids) fun j values =>
      List.Forall₂ (fun (type : Ty) v => type.Holds S ρ j v) types values := by
  induction htypes generalizing k with
  | nil => exact Eval.Within.pure .nil
  | cons htype _ ih =>
      obtain ⟨hid, hrest⟩ := List.forall_mem_cons.mp hkeeps
      refine Eval.Within.bind (hid k (Nat.le_refl k) _ htype) fun i v hi hv => ?_
      refine Eval.Within.bind (ih fun id hmem => (hrest id hmem).mono hi) fun j values hj hvalues => ?_
      exact Eval.Within.pure (.cons (hv.mono hj) hvalues)

theorem within_evalFields {fields : List (String × NodeId)} {types : List (String × Ty)}
    (htypes : List.Forall₂ (fun field type => field.1 = type.1 ∧ τ field.2 = .ok type.2) fields types)
    (hkeeps : ∀ id ∈ fields.map Prod.snd, S.Keeps τ ρ steps k env id) :
    ∀ {done : Fields Ty} {entries : Fields Value}, Ty.HoldsFields S done ρ k entries →
      Eval.Within S.allowed k (Program.evalFields (S.program.eval steps) env entries fields)
        (Ty.HoldsFields S (types.foldl (fun fields (name, a) => Fields.insert name a fields) done) ρ) := by
  induction htypes generalizing k with
  | nil => exact fun hdone => Eval.Within.pure hdone
  | @cons field type fields types htype _ ih =>
      intro done entries hdone
      obtain ⟨hid, hrest⟩ := List.forall_mem_cons.mp hkeeps
      obtain ⟨name, id⟩ := field
      obtain ⟨rfl, htype⟩ := htype
      refine Eval.Within.bind (hid k (Nat.le_refl k) _ htype) fun i v hi hv => ?_
      refine ih (fun id hmem => (hrest id hmem).mono hi) ?_
      exact Ty.HoldsFields.insert (hdone.mono hi) hv

/-! ## Calls -/

/-- A variable that is not one of the function's own means the same after type arguments are chosen. -/
theorem assign_of_instantiates {us : List TypeVariable} {parameters : Parameters}
    {written types : List Ty} {s : Substitution}
    (h : Program.Instantiates us parameters written types s) :
    ∀ x, x ∉ us → s.assign S ρ x = ρ x := by
  intro x hx
  have hnone : s.get? x = none := by
    cases hget : s.get? x with
    | none => rfl
    | some a =>
        cases h with
        | plain => cases hget
        | inferred _ hinfer =>
            exact absurd ((Substitution.maps_of_infer Ty.hereditary_true (by simp) hinfer).get? hget).1 hx
        | written => exact absurd (List.of_mem_zip (Substitution.mem_of_get?_ofList hget)).1 hx
  simp only [Substitution.assign, hnone]

/-- Arguments that are of types that fit the parameters are what the function was promised. -/
theorem holdsParameters_of_fits {parameters : Parameters} {types : List Ty} {values : List Value}
    (hvalues : List.Forall₂ (fun (type : Ty) v => type.Holds S ρ k v) types values)
    (hlength : ∀ ps, parameters = .fixed ps → ps.length = types.length)
    (hfits : ∀ (i : Nat) (type : Ty) (q : String × Ty), types[i]? = some type →
      parameters.get? i = some q → ∀ v, type.Holds S ρ k v → q.2.Holds S ρ k v) :
    Ty.HoldsParameters S parameters ρ k values := by
  refine Ty.holdsParameters_iff.mpr ⟨?_, fun i q v hq hv => ?_⟩
  · cases parameters with
    | fixed ps =>
        have hsame := (hlength ps rfl).trans hvalues.length_eq
        exact ⟨Nat.le_of_eq hsame, fun _ => hsame.symm⟩
    | variadic _ => trivial
  · obtain ⟨hi, rfl⟩ := List.getElem?_eq_some_iff.mp hv
    have hi' : i < types.length := hvalues.length_eq ▸ hi
    exact hfits i types[i] q (List.getElem?_eq_getElem hi') hq _ (hvalues.get hi' hi)

theorem length_applyParameters {s : Substitution} {parameters : Parameters}
    {ps : List (String × Ty)} (h : s.applyParameters parameters = .fixed ps) :
    ∃ own, parameters = .fixed own ∧ own.length = ps.length := by
  unfold Substitution.applyParameters at h
  split at h
  · exact ⟨ps, h, rfl⟩
  · cases parameters with
    | fixed own =>
        obtain rfl := ParameterList.fixed.inj h
        exact ⟨own, rfl, (Substitution.length_replaceFields s own).symm⟩
    | variadic _ => cases h

section

variable (htrusts : S.Trusts τ plain native)
include htrusts

theorem within_call {id callee : NodeId} {written types : List Ty} {arguments : List NodeId}
    {us : List TypeVariable} {parameters : Parameters} {result : Ty} {s : Substitution}
    (hcall : S.program.CallOf τ us parameters result types s)
    (hcallee : τ callee = .ok (.function us parameters result))
    (htypes : List.Forall₂ (fun id type => τ id = .ok type) arguments types)
    (hlength : ∀ ps, parameters = .fixed ps → ps.length = arguments.length)
    (hinstance : Program.Instantiates us parameters written types s)
    (hfits : ∀ (i : Nat) (type : Ty) (q : String × Ty), types[i]? = some type →
      (s.applyParameters parameters).get? i = some q → type.assignable q.2 = .ok true)
    (hform : (S.program.node id).form = .call callee written arguments)
    (hscoped : ∀ c ∈ callee :: arguments, ∀ type, τ c = .ok type → Program.TypeScoped plain vs type)
    (hkeeps : ∀ c ∈ callee :: arguments, S.Keeps τ ρ steps k env c) :
    Eval.Within S.allowed k (S.program.eval (steps + 1) env id) ((s.apply result).Holds S ρ) := by
  obtain ⟨hfunction, harguments⟩ := List.forall_mem_cons.mp hkeeps
  obtain ⟨hcalleeScoped, hscopedArguments⟩ := List.forall_mem_cons.mp hscoped
  have hown := hcalleeScoped _ hcallee
  have hplain := Program.typeVariables_eq_nil hown
  have hspared := htrusts.spared hcall hplain
  simp only [Program.eval_succ, Program.evalNode, hform]
  refine Eval.Within.bind (hfunction k (Nat.le_refl k) _ hcallee) fun i f hi hf => ?_
  refine Eval.Within.bind (within_evalAll htypes fun c hc => (harguments c hc).mono hi)
    fun j values hj hvalues => ?_
  obtain ⟨-, -, -, hf⟩ := hf
  rw [Substitution.holds_apply fun hs => (hspared hs).2]
  refine hf _ (assign_of_instantiates hinstance) j hj values ?_ steps _
  rw [← Substitution.holdsParameters_apply fun hs => (hspared hs).1]
  refine holdsParameters_of_fits hvalues (fun ps hps => ?_) fun n type q htype hq v hv => ?_
  · obtain ⟨own, hown, hsame⟩ := length_applyParameters hps
    rw [← hsame, hlength own hown, htypes.length_eq]
  · have htypeScoped := Program.typed_arguments htypes hscopedArguments type (List.mem_of_getElem? htype)
    exact htrusts.fits type q.2 (.argument hcall htype hq) htypeScoped.2
      (fun h => Program.every_parameter hown hinstance h hq) (hfits n type q htype hq) ρ j v hv

/-- An expression whose parts all are in its scope. -/
theorem within_simple {id : NodeId} {type : Ty}
    (htype : S.program.HasType τ (S.program.node id).form type)
    (hsimple : (S.program.node id).form.Simple)
    (hscoped : ∀ c ∈ Program.children (S.program.node id).form, ∀ a, τ c = .ok a →
      Program.TypeScoped plain vs a)
    (hkeeps : ∀ c ∈ Program.children (S.program.node id).form, S.Keeps τ ρ steps k env c) :
    Eval.Within S.allowed k (S.program.eval (steps + 1) env id) (type.Holds S ρ) := by
  have hpart : ∀ c ∈ Program.children (S.program.node id).form, ∀ a, τ c = .ok a →
      Eval.Within S.allowed k (S.program.eval steps env c) (a.Holds S ρ) :=
    fun c hc => hkeeps c hc k (Nat.le_refl k)
  generalize hform : (S.program.node id).form = form at htype hsimple hscoped hkeeps hpart
  cases htype with
  | call hcallee htypes hlength hinstance hfits =>
      exact within_call htrusts (.mk hform hcallee htypes hinstance) hcallee htypes hlength hinstance
        hfits hform hscoped hkeeps
  | conditional | reference | lambda | cases => exact hsimple.elim
  | number | bigInteger | boolean =>
      simp only [Program.eval_succ, Program.evalNode, hform]
      exact Eval.Within.pure ⟨_, rfl⟩
  | null =>
      simp only [Program.eval_succ, Program.evalNode, hform]
      exact Eval.Within.pure rfl
  | object htypes =>
      simp only [Program.eval_succ, Program.evalNode, hform]
      have hnone : Ty.HoldsFields S [] ρ k [] := rfl
      refine Eval.Within.bind (within_evalFields htypes hkeeps hnone) ?_
      exact fun j entries hj hentries => Eval.Within.pure ⟨entries, rfl, hentries⟩
  | @numbers op lhs rhs hlhs hrhs =>
      simp only [Program.eval_succ, Program.evalNode, hform]
      refine Eval.Within.bind (hpart lhs (by simp [Program.children]) _ hlhs) fun i v hi hv => ?_
      refine Eval.Within.bind (hkeeps rhs (by simp [Program.children]) i hi _ hrhs) fun j w hj hw => ?_
      exact within_numberArithmetic htrusts.divisionByZero (hv.mono hj) hw
  | @bigIntegers op lhs rhs hop hlhs hrhs =>
      simp only [Program.eval_succ, Program.evalNode, hform]
      refine Eval.Within.bind (hpart lhs (by simp [Program.children]) _ hlhs) fun i v hi hv => ?_
      refine Eval.Within.bind (hkeeps rhs (by simp [Program.children]) i hi _ hrhs) fun j w hj hw => ?_
      exact within_bigIntegerArithmetic htrusts.divisionByZero hop (hv.mono hj) hw
  | @negative operand h | @negativeBigInteger operand h =>
      simp only [Program.eval_succ, Program.evalNode, hform]
      refine Eval.Within.bind (hpart operand (by simp [Program.children]) _ h) ?_
      rintro i _ hi ⟨x, rfl⟩
      exact Eval.Within.blame_ok rfl ⟨_, rfl⟩
  | @equal lhs rhs a b hlhs hrhs =>
      simp only [Program.eval_succ, Program.evalNode, hform]
      refine Eval.Within.bind (hpart lhs (by simp [Program.children]) _ hlhs) fun i v hi hv => ?_
      refine Eval.Within.bind (hkeeps rhs (by simp [Program.children]) i hi _ hrhs) fun j w hj hw => ?_
      refine Eval.Within.bind (Eval.Within.blame_ok (Q := fun _ _ => True) rfl trivial) ?_
      exact fun _ _ _ _ => Eval.Within.pure ⟨_, rfl⟩
  | @order op lhs rhs a ha hlhs hrhs =>
      simp only [Program.eval_succ, Program.evalNode, hform]
      refine Eval.Within.bind (hpart lhs (by simp [Program.children]) _ hlhs) fun i v hi hv => ?_
      refine Eval.Within.bind (hkeeps rhs (by simp [Program.children]) i hi _ hrhs) fun j w hj hw => ?_
      refine Eval.Within.bind (within_order ha (hv.mono hj) hw) ?_
      exact fun _ _ _ _ => Eval.Within.pure ⟨_, rfl⟩
  | @logical op lhs rhs hlhs hrhs =>
      simp only [Program.eval_succ, Program.evalNode, hform]
      refine Eval.Within.bind (hpart lhs (by simp [Program.children]) _ hlhs) fun i v hi hv => ?_
      refine Eval.Within.bind (within_asBoolean hv) ?_
      rintro i b - ⟨rfl, -⟩
      have hright : Eval.Within S.allowed i (do
          let b ← S.program.eval steps env rhs
          pure (.boolean (← .blame (S.program.node id).span b.asBoolean))) (Ty.boolean.Holds S ρ) := by
        refine Eval.Within.bind (hkeeps rhs (by simp [Program.children]) i hi _ hrhs) fun j w hj hw => ?_
        refine Eval.Within.bind (within_asBoolean hw) ?_
        exact fun _ _ _ _ => Eval.Within.pure ⟨_, rfl⟩
      split
      · exact Eval.Within.pure ⟨_, rfl⟩
      · exact Eval.Within.pure ⟨_, rfl⟩
      · exact hright
  | @not operand h =>
      simp only [Program.eval_succ, Program.evalNode, hform]
      refine Eval.Within.bind (hpart operand (by simp [Program.children]) _ h) fun i v hi hv => ?_
      refine Eval.Within.bind (within_asBoolean hv) ?_
      exact fun _ _ _ _ => Eval.Within.pure ⟨_, rfl⟩
  | @field owner name fields _ howner hget =>
      simp only [Program.eval_succ, Program.evalNode, hform]
      refine Eval.Within.bind (hpart owner (by simp [Program.children]) _ howner) ?_
      rintro i _ hi ⟨entries, rfl, hentries⟩
      obtain ⟨v, hv, hholds⟩ := hentries.get? hget
      simp only [hv]
      exact Eval.Within.pure hholds
  | @tagged value tag payload h =>
      simp only [Program.eval_succ, Program.evalNode, hform]
      refine Eval.Within.bind (hpart value (by simp [Program.children]) _ h) fun i v hi hv => ?_
      exact Eval.Within.pure ⟨v, rfl, hv⟩
  | @hasTag value tag own view hown hview =>
      simp only [Program.eval_succ, Program.evalNode, hform]
      refine Eval.Within.bind (hpart value (by simp [Program.children]) _ hown) fun i v hi hv => ?_
      refine Eval.Within.bind (within_asTagged hv hview) ?_
      exact fun _ _ _ _ => Eval.Within.pure ⟨_, rfl⟩
  | @untag value tag own payload view hown hview hpinned =>
      simp only [Program.eval_succ, Program.evalNode, hform]
      refine Eval.Within.bind (hpart value (by simp [Program.children]) _ hown) fun i v hi hv => ?_
      refine Eval.Within.bind (within_asTagged hv hview) ?_
      rintro _ found - ⟨rfl, -, type, -, htype, hentries⟩
      obtain ⟨-, rfl⟩ := Prod.mk.inj (hentries _ hpinned)
      exact Eval.Within.pure htype

end

end Sable.Setting
