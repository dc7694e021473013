import Sable.Proofs.Evaluation.Mirrors
import Sable.Proofs.Evaluation.Rekey
import Sable.Proofs.Evaluation.Resolved
import Sable.Proofs.Lowering.Program

/-! Names and what they were resolved to.

Evaluation looks a name up in an environment that is keyed by names, and passes over what the name was
resolved to. The outcome is the one that environments keyed by bindings give. -/
namespace Sable

namespace Program

variable {p : Program}

/-! ## Nodes and bodies -/

variable (p) in
/-- Evaluation by bindings goes like evaluation by names in every scope that is kept to. -/
def EvalMirrors (eval : Environment BindingId → NodeId → Eval (Value BindingId))
    (eval' : Environment → NodeId → Eval Value) : Prop :=
  ∀ {vs : List TypeVariable} {names : Names} {env : Environment BindingId} {id : NodeId},
    p.Scoped False anyFunction vs names id → p.Aligned names env → p.ResolvedEnvironment env →
      (eval env id).Mirrors p.Resolved (.rekey p.bindingName)
        (eval' (Value.rekeyEnvironment p.bindingName env) id)

variable (p) in
def CallMirrors (call : Value BindingId → List (Value BindingId) → Span → Eval (Value BindingId))
    (call' : Value → List Value → Span → Eval Value) : Prop :=
  ∀ {f : Value BindingId} {arguments : List (Value BindingId)} (span : Span), p.Resolved f →
    (∀ a ∈ arguments, p.Resolved a) →
      (call f arguments span).Mirrors p.Resolved (.rekey p.bindingName)
        (call' (f.rekey p.bindingName) (arguments.map (.rekey p.bindingName)) span)

section

variable {eval : Environment BindingId → NodeId → Eval (Value BindingId)}
  {eval' : Environment → NodeId → Eval Value}
  {call : Value BindingId → List (Value BindingId) → Span → Eval (Value BindingId)}
  {call' : Value → List Value → Span → Eval Value}
  {k : Keying BindingId} {vs : List TypeVariable} {names names' : Names}
  {env : Environment BindingId}

theorem evalAll_mirrors (heval : p.EvalMirrors eval eval') {ids : List NodeId}
    (hids : ∀ id ∈ ids, p.Scoped False anyFunction vs names id) (hnames : p.Aligned names env)
    (henv : p.ResolvedEnvironment env) :
    (evalAll eval env ids).Mirrors (fun values => ∀ a ∈ values, p.Resolved a)
      (List.map (.rekey p.bindingName))
      (evalAll eval' (Value.rekeyEnvironment p.bindingName env) ids) := by
  induction ids with
  | nil => exact .pure (by simp) rfl
  | cons id rest ih =>
      refine .bind (heval (hids id List.mem_cons_self) hnames henv) fun a ha => ?_
      refine .bind (ih fun id' hid' => hids id' (List.mem_cons_of_mem _ hid')) fun values hvalues => ?_
      exact .pure (List.forall_mem_cons.mpr ⟨ha, hvalues⟩) rfl

theorem evalFields_mirrors (heval : p.EvalMirrors eval eval') {fields : List (String × NodeId)}
    {done : Fields (Value BindingId)}
    (hfields : ∀ id ∈ fields.map Prod.snd, p.Scoped False anyFunction vs names id)
    (hnames : p.Aligned names env) (henv : p.ResolvedEnvironment env)
    (hdone : ∀ field ∈ done, p.Resolved field.2) :
    (evalFields eval env done fields).Mirrors (fun found => ∀ field ∈ found, p.Resolved field.2)
      (Value.rekeyFields p.bindingName)
      (evalFields eval' (Value.rekeyEnvironment p.bindingName env)
        (Value.rekeyFields p.bindingName done) fields) := by
  induction fields generalizing done with
  | nil => exact .pure hdone rfl
  | cons field rest ih =>
      obtain ⟨name, id⟩ := field
      obtain ⟨hid, hrest⟩ := List.forall_mem_cons.mp hfields
      refine .bind (heval hid hnames henv) fun a ha => ?_
      rw [Value.rekeyFields_eq_map, Fields.insert_map, ← Value.rekeyFields_eq_map]
      exact ih hrest (Fields.forall_mem_insert p.Resolved _ hdone ha)

/-- The parameters of a well-scoped signature, by binding. -/
theorem parameterKeys_toList (hk : p.FindsResolved k) {plain : Prop} {s : Signature}
    (hs : p.SignatureScoped plain vs s) : (parameterKeys k s).toList = s.parameters := by
  have hparameters := hs.parameters
  unfold parameterKeys
  split
  · rename_i q id rest harguments _
    rw [harguments, ‹s.parameters = id :: rest›] at hparameters
    cases hparameters with
    | cons _ htail =>
        cases htail
        simp [ParameterList.toList, hk.key, ‹s.parameters = [id]›]
  · simp [ParameterList.toList, hk.key]

theorem parameterKeys_rekey (hk : p.FindsResolved k) (s : Signature) :
    (parameterKeys k s).map p.bindingName = parameterKeys p.byName s := by
  unfold parameterKeys
  split <;> simp [ParameterList.map, hk.key, bindingName, byName]

theorem resolved_closure (hk : p.FindsResolved k) {plain : Prop} {s : Signature}
    {body : FunctionBody} (hs : p.SignatureScoped plain vs s) (name : Option BindingId)
    (hbody : p.ScopedBody False anyFunction (s.typeVariables ++ vs) (p.closureNames names name s.parameters) body)
    (hnames : p.Aligned names env) (henv : p.ResolvedEnvironment env) (identity : Nat) :
    p.Resolved (.function (.closure identity ⟨name, parameterKeys k s, body, env⟩)) := by
  refine ⟨henv, s.typeVariables ++ vs, names, hnames, ?_⟩
  rw [parameterKeys_toList hk hs]
  exact hbody

/-- The environment after bindings. -/
def BoundMirrors (p : Program) (names : Names) (c : Eval (Environment BindingId))
    (c' : Eval Environment) : Prop :=
  c.Mirrors (fun env => p.Aligned names env ∧ p.ResolvedEnvironment env)
    (Value.rekeyEnvironment p.bindingName) c'

theorem bindAll_mirrors (heval : p.EvalMirrors eval eval') (hk : p.FindsResolved k)
    {ids : List BindingId} (hids : p.ScopedBindings False anyFunction vs names ids names')
    (hnames : p.Aligned names env) (henv : p.ResolvedEnvironment env) :
    BoundMirrors p names' (bindAll p k eval env ids)
      (bindAll p p.byName eval' (Value.rekeyEnvironment p.bindingName env) ids) := by
  induction ids generalizing names env with
  | nil =>
      cases hids
      exact .pure ⟨hnames, henv⟩ rfl
  | cons id rest ih =>
      have hcons : ∀ {a : Value BindingId}, p.Resolved a →
          p.Aligned (p.boundNames names [id]) ((id, a) :: env) ∧
            p.ResolvedEnvironment ((id, a) :: env) := fun {a} ha =>
        ⟨hnames.cons (show (Target.bound id).id = id from rfl) a, ha, henv⟩
      have hone : p.ScopedBindings False anyFunction vs (p.boundNames names [id]) rest names' ∧
          BoundMirrors p (p.boundNames names [id]) (Program.bind p k eval env id)
            (Program.bind p p.byName eval' (Value.rekeyEnvironment p.bindingName env) id) := by
        cases hids with
        | value hbinding htype hnode hrest =>
            refine ⟨hrest, ?_⟩
            simp only [Program.bind, hbinding, hk.key, id_eq]
            refine .bind (heval hnode hnames henv) fun a ha => ?_
            exact .pure (hcons ha) rfl
        | @function _ _ _ _ _ name span s body hbinding hs hbody hrest =>
            refine ⟨hrest, ?_⟩
            have hname : p.bindingName id = name := by simp [bindingName, hbinding, Binding.name]
            have hbody' : p.ScopedBody False anyFunction (s.typeVariables ++ vs)
                (p.closureNames names (some id) s.parameters) body := by
              simpa only [closureNames, hname] using hbody
            simp only [Program.bind, hbinding, hk.key, id_eq]
            refine .bind .tick fun identity _ => ?_
            refine .pure (hcons (resolved_closure hk hs (some id) hbody' hnames henv identity)) ?_
            simp [Value.rekeyEnvironment, Value.rekey, Value.rekeyFunction, Value.rekeyClosure,
              parameterKeys_rekey hk, byName, bindingName]
        | @external _ _ _ _ _ name span s result hbinding _ _ hs hresult hrest =>
            refine ⟨hrest, ?_⟩
            simp only [Program.bind, hbinding, hk.key, id_eq]
            split
            · exact .pure (hcons trivial) rfl
            · exact .pure (hcons trivial) rfl
      obtain ⟨hrest, hone⟩ := hone
      exact .bind hone fun env' henv' => ih hrest henv'.1 henv'.2

theorem evalBody_mirrors (heval : p.EvalMirrors eval eval') (hk : p.FindsResolved k)
    {body : FunctionBody} (hbody : p.ScopedBody False anyFunction vs names body) (hnames : p.Aligned names env)
    (henv : p.ResolvedEnvironment env) :
    (evalBody p k eval env body).Mirrors p.Resolved (.rekey p.bindingName)
      (evalBody p p.byName eval' (Value.rekeyEnvironment p.bindingName env) body) := by
  cases hbody with
  | mk hbindings hresult =>
      refine .bind (bindAll_mirrors heval hk hbindings hnames henv) fun env' henv' => ?_
      exact heval hresult henv'.1 henv'.2

theorem find?_byName (env : Environment BindingId) (name : String) (target : Option Target) :
    p.byName.find name target (Value.rekeyEnvironment p.bindingName env) =
      match env.find? fun entry => p.bindingName entry.1 == name with
      | some entry => .ok (entry.2.rekey p.bindingName)
      | none => .error (.undefinedVariable name) := by
  simp only [byName]
  induction env with
  | nil => rfl
  | cons entry rest ih =>
      simp only [Value.rekeyEnvironment, Fields.get?, List.find?_cons]
      by_cases hname : p.bindingName entry.1 = name
      · simp [hname]
      · rw [if_neg hname, beq_false_of_ne hname]
        exact ih

/-- Looking a name up by name finds the image of what looking it up by binding finds. -/
theorem find_mirrors (hk : p.FindsResolved k) (hnames : p.Aligned names env)
    (henv : p.ResolvedEnvironment env) (name : String) (span : Span) :
    (Eval.blame span (k.find name (Fields.get? name names) env)).Mirrors p.Resolved
      (.rekey p.bindingName) (.blame span (p.byName.find name (Fields.get? name names)
        (Value.rekeyEnvironment p.bindingName env))) := by
  rw [hk.found name hnames, find?_byName]
  cases hfind : env.find? fun entry => p.bindingName entry.1 == name with
  | none => exact .throw _
  | some entry =>
      exact .pure (resolvedEnvironment_iff.mp henv entry (List.mem_of_find?_eq_some hfind)) rfl

/-- The payload of a resolved value that is tagged. -/
theorem resolved_of_asTagged {a payload : Value BindingId} {tag : String} (ha : p.Resolved a)
    (h : a.asTagged = .ok (tag, payload)) : p.Resolved payload := by
  cases a <;> cases h
  exact ha

theorem asTagged_mirrors {a : Value BindingId} (ha : p.Resolved a) (span : Span) :
    (Eval.blame span a.asTagged).Mirrors (fun found => p.Resolved found.2)
      (fun found => (found.1, found.2.rekey p.bindingName))
      (.blame span (a.rekey p.bindingName).asTagged) :=
  .blame span (Value.asTagged_rekey _ a) fun _ hfound => resolved_of_asTagged ha hfound

theorem exists_of_map_eq_ok {α β ε : Type} {f : α → β} {r : Except ε α} {b : β}
    (h : f <$> r = .ok b) : ∃ a, b = f a := by
  cases r with
  | error _ => cases h
  | ok a =>
      cases h
      exact ⟨a, rfl⟩

theorem resolved_arithmetic {op : ArithmeticOp} {a b c : Value BindingId}
    (h : a.arithmetic op b = .ok c) : p.Resolved c := by
  cases a <;> cases b <;> first
    | cases h
    | obtain ⟨x, rfl⟩ := exists_of_map_eq_ok h
      trivial

theorem resolved_negate {a b : Value BindingId} (h : a.negate = .ok b) : p.Resolved b := by
  cases a <;> cases h <;> trivial

/-- Nodes the parts of which are in the scope of the whole. -/
theorem evalSimple_mirrors (heval : p.EvalMirrors eval eval') (hcall : p.CallMirrors call call')
    {id : NodeId} (hsimple : (p.node id).form.Simple)
    (hchildren : ∀ c ∈ children (p.node id).form, p.Scoped False anyFunction vs names c)
    (hnames : p.Aligned names env) (henv : p.ResolvedEnvironment env) :
    (evalNode p k eval call env id).Mirrors p.Resolved (.rekey p.bindingName)
      (evalNode p p.byName eval' call' (Value.rekeyEnvironment p.bindingName env) id) := by
  have hpart : ∀ c ∈ children (p.node id).form, (eval env c).Mirrors p.Resolved
      (.rekey p.bindingName) (eval' (Value.rekeyEnvironment p.bindingName env) c) :=
    fun c hc => heval (hchildren c hc) hnames henv
  cases hform : (p.node id).form with
  | reference _ _ | lambda _ _ | conditional _ _ _ | cases _ _ => simp [hform, Form.Simple] at hsimple
  | number _ | bigInteger _ | boolean _ | null =>
      simp only [evalNode, hform]
      exact .pure trivial rfl
  | object fields =>
      rw [hform] at hchildren
      simp only [evalNode, hform]
      refine .bind (evalFields_mirrors heval hchildren hnames henv (by simp)) fun found hfound => ?_
      exact .pure (resolvedFields_iff.mpr hfound) rfl
  | arithmetic op lhs rhs =>
      simp only [hform, children, List.forall_mem_cons] at hpart
      simp only [evalNode, hform]
      refine .bind hpart.1 fun a ha => .bind hpart.2.1 fun b hb => ?_
      exact .blame _ (Value.arithmetic_rekey _ op a b) fun c hc => resolved_arithmetic hc
  | negate operand =>
      simp only [hform, children, List.forall_mem_cons] at hpart
      simp only [evalNode, hform]
      refine .bind hpart.1 fun a ha => ?_
      exact .blame _ (Value.negate_rekey _ a) fun c hc => resolved_negate hc
  | comparison op lhs rhs =>
      simp only [hform, children, List.forall_mem_cons] at hpart
      simp only [evalNode, hform]
      refine .bind hpart.1 fun a ha => .bind hpart.2.1 fun b hb => ?_
      rw [Value.compare_rekey]
      exact .bind (.blame_same _ _) fun _ _ => .pure trivial rfl
  | logical op lhs rhs =>
      simp only [hform, children, List.forall_mem_cons] at hpart
      simp only [evalNode, hform]
      refine .bind hpart.1 fun a ha => ?_
      rw [Value.asBoolean_rekey]
      refine .bind (.blame_same _ _) fun known _ => ?_
      have hrhs : Eval.Mirrors p.Resolved (.rekey p.bindingName)
          (eval env rhs >>= fun b => Eval.blame (p.node id).span b.asBoolean >>= fun x =>
            pure (Value.boolean x))
          (eval' (Value.rekeyEnvironment p.bindingName env) rhs >>= fun b =>
            Eval.blame (p.node id).span b.asBoolean >>= fun x => pure (Value.boolean x)) := by
        refine .bind hpart.2.1 fun b hb => ?_
        rw [Value.asBoolean_rekey]
        exact .bind (.blame_same _ _) fun _ _ => .pure trivial rfl
      cases op <;> cases known <;> first | exact hrhs | exact .pure trivial rfl
  | not operand =>
      simp only [hform, children, List.forall_mem_cons] at hpart
      simp only [evalNode, hform]
      refine .bind hpart.1 fun a ha => ?_
      rw [Value.asBoolean_rekey]
      exact .bind (.blame_same _ _) fun _ _ => .pure trivial rfl
  | call callee types arguments =>
      simp only [hform, children, List.forall_mem_cons] at hpart hchildren
      simp only [evalNode, hform]
      refine .bind hpart.1 fun f hf => ?_
      refine .bind (evalAll_mirrors heval hchildren.2 hnames henv) fun values hvalues => ?_
      exact hcall _ hf hvalues
  | field owner name =>
      simp only [hform, children, List.forall_mem_cons] at hpart
      simp only [evalNode, hform]
      refine .bind hpart.1 fun a ha => ?_
      cases a with
      | object fields =>
          simp only [Value.rekey, Value.rekeyFields_eq_map, Fields.get?_map]
          cases hget : Fields.get? name fields with
          | none => exact .throw _
          | some a => exact .pure (resolvedFields_iff.mp ha (_, a) (Fields.mem_of_get? hget)) rfl
      | _ => exact .throw _
  | tagged value tag =>
      simp only [hform, children, List.forall_mem_cons] at hpart
      simp only [evalNode, hform]
      exact .bind hpart.1 fun a ha => .pure ha rfl
  | hasTag value tag =>
      simp only [hform, children, List.forall_mem_cons] at hpart
      simp only [evalNode, hform]
      refine .bind hpart.1 fun a ha => ?_
      exact .bind (asTagged_mirrors ha _) fun _ _ => .pure trivial rfl
  | untag value =>
      simp only [hform, children, List.forall_mem_cons] at hpart
      simp only [evalNode, hform]
      refine .bind hpart.1 fun a ha => ?_
      exact .bind (asTagged_mirrors ha _) fun _ h => .pure h rfl

theorem evalNode_mirrors (heval : p.EvalMirrors eval eval') (hcall : p.CallMirrors call call')
    (hk : p.FindsResolved k) {id : NodeId} (hid : p.Scoped False anyFunction vs names id)
    (hnames : p.Aligned names env) (henv : p.ResolvedEnvironment env) :
    (evalNode p k eval call env id).Mirrors p.Resolved (.rekey p.bindingName)
      (evalNode p p.byName eval' call' (Value.rekeyEnvironment p.bindingName env) id) := by
  cases hid with
  | @reference _ _ _ name hform =>
      simp only [evalNode, hform]
      exact find_mirrors hk hnames henv name _
  | @conditional _ _ _ c t e hform hc ht he =>
      simp only [evalNode, hform]
      refine .bind (heval hc hnames henv) fun a ha => ?_
      rw [Value.asBoolean_rekey]
      refine .bind (.blame_same _ _) fun b _ => ?_
      cases b with
      | true => exact heval ht (hnames.branchNames c).1 henv
      | false => exact heval he (hnames.branchNames c).2 henv
  | @lambda _ _ _ s body hform hs hbody =>
      simp only [evalNode, hform]
      refine .bind .tick fun identity _ => ?_
      refine .pure (resolved_closure hk hs none hbody hnames henv identity) ?_
      simp [Value.rekey, Value.rekeyFunction, Value.rekeyClosure, parameterKeys_rekey hk]
  | @cases _ _ _ scrutinee arms hform hscrutinee hpayload harms =>
      simp only [evalNode, hform]
      refine .bind (heval hscrutinee hnames henv) fun a ha => ?_
      refine .bind (asTagged_mirrors ha _) fun found hpayload' => ?_
      obtain ⟨tag, payload⟩ := found
      simp only
      cases hfind : arms.find? (·.tag == tag) with
      | none => exact .throw _
      | some arm =>
          have harm := harms arm (List.mem_of_find?_eq_some hfind)
          simp only [hk.key, id_eq]
          refine heval harm ((hnames.narrowedNames scrutinee arm.tag).cons
            (show (Target.bound arm.binding).id = arm.binding from rfl) payload) ?_
          exact ⟨hpayload', henv⟩
  | simple hsimple htypes hchildren =>
      exact evalSimple_mirrors heval hcall hsimple hchildren hnames henv

/-! ## Sequences and builtins -/

theorem next?_rekey (f : BindingId → String) (source : Sequence.Source (Value BindingId)) :
    (Value.rekeySource f source).next? =
      source.next?.map fun found => (found.1.rekey f, Value.rekeySource f found.2) := by
  cases source with
  | range next stop =>
      simp only [Value.rekeySource, Sequence.Source.next?]
      split <;> rfl
  | items items => cases items <;> rfl

theorem resolved_of_next? {source source' : Sequence.Source (Value BindingId)}
    {item : Value BindingId} (hsource : p.ResolvedSource source)
    (h : source.next? = some (item, source')) : p.Resolved item ∧ p.ResolvedSource source' := by
  cases source with
  | range next stop =>
      simp only [Sequence.Source.next?] at h
      split at h
      · cases h
      · cases h
        exact ⟨trivial, trivial⟩
  | items items =>
      cases items with
      | nil => cases h
      | cons a rest =>
          cases h
          exact hsource

theorem through_mirrors (hcall : p.CallMirrors call call') (span : Span)
    {stages : List (Sequence.Stage (Value BindingId))} {item : Value BindingId}
    (hstages : ∀ stage ∈ stages, p.ResolvedStage stage) (hitem : p.Resolved item) :
    (Sequence.through call span stages item).Mirrors (fun found => ∀ a ∈ found, p.Resolved a)
      (Option.map (.rekey p.bindingName))
      (Sequence.through call' span (stages.map (Value.rekeyStage p.bindingName))
        (item.rekey p.bindingName)) := by
  induction stages generalizing item with
  | nil => exact .pure (by simpa using hitem) rfl
  | cons stage rest ih =>
      obtain ⟨hstage, hrest⟩ := List.forall_mem_cons.mp hstages
      cases stage with
      | map g => exact .bind (hcall span hstage (by simpa using hitem)) fun a ha => ih hrest ha
      | filter g =>
          refine .bind (hcall span hstage (by simpa using hitem)) fun a ha => ?_
          rw [Value.asBoolean_rekey]
          refine .bind (.blame_same _ _) fun b _ => ?_
          cases b with
          | true => exact ih hrest hitem
          | false => exact .pure (by simp) rfl

theorem next_mirrors (hcall : p.CallMirrors call call') (span : Span) (steps : Nat)
    {s : Sequence (Value BindingId)} (hs : p.ResolvedSequence s) :
    (Sequence.next call span steps s).Mirrors
      (fun found => (∀ item, found.1 = .ok item → ∀ a ∈ item, p.Resolved a) ∧
        p.ResolvedSequence found.2)
      (fun found => (found.1.map (Option.map (.rekey p.bindingName)),
        Value.rekeySequence p.bindingName found.2))
      (Sequence.next call' span steps (Value.rekeySequence p.bindingName s)) := by
  induction steps generalizing s with
  | zero => exact .outOfSteps
  | succ steps ih =>
      obtain ⟨source, stages⟩ := s
      obtain ⟨hsource, hstages⟩ := hs
      simp only [Sequence.next, Value.rekeySequence, next?_rekey]
      cases hnext : source.next? with
      | none => exact .pure ⟨by simp, hsource, hstages⟩ rfl
      | some found =>
          obtain ⟨item, source'⟩ := found
          obtain ⟨hitem, hsource'⟩ := resolved_of_next? hsource hnext
          have hthrough := through_mirrors hcall span (resolvedStages_iff.mp hstages) hitem
          rw [← Value.rekeyStages_eq_map] at hthrough
          refine .bind hthrough.observe fun r hr => ?_
          cases r with
          | error e => exact .pure ⟨by simp, hsource', hstages⟩ rfl
          | ok found =>
              cases found with
              | none => exact ih ⟨hsource', hstages⟩
              | some a =>
                  refine .pure ⟨fun item hitem => ?_, hsource', hstages⟩ rfl
                  cases hitem
                  exact hr _ rfl

theorem takeFrom_mirrors (hcall : p.CallMirrors call call') (span : Span) (steps count : Nat)
    {s : Sequence (Value BindingId)} {taken : List (Value BindingId)} (hs : p.ResolvedSequence s)
    (htaken : ∀ a ∈ taken, p.Resolved a) :
    (Sequence.takeFrom call span steps count s taken).Mirrors
      (fun items => ∀ a ∈ items, p.Resolved a) (List.map (.rekey p.bindingName))
      (Sequence.takeFrom call' span steps count (Value.rekeySequence p.bindingName s)
        (taken.map (.rekey p.bindingName))) := by
  induction count generalizing s taken with
  | zero => exact .pure (by simpa using htaken) (List.map_reverse ..).symm
  | succ count ih =>
      refine .bind (next_mirrors hcall span steps hs) fun found hfound => ?_
      obtain ⟨result, rest⟩ := found
      cases result with
      | error e => exact .throw e
      | ok item =>
          cases item with
          | none => exact .pure (by simpa using htaken) (List.map_reverse ..).symm
          | some a =>
              refine ih hfound.2 (List.forall_mem_cons.mpr ⟨?_, htaken⟩)
              exact hfound.1 _ rfl a rfl

theorem asSequence_mirrors {a : Value BindingId} (ha : p.Resolved a) (span : Span) :
    (Eval.blame span a.asSequence).Mirrors p.ResolvedSequence (Value.rekeySequence p.bindingName)
      (.blame span (a.rekey p.bindingName).asSequence) := by
  refine .blame span (Value.asSequence_rekey _ a) fun s hs => ?_
  cases a <;> cases hs
  exact ha

theorem asList_mirrors {a : Value BindingId} (ha : p.Resolved a) (span : Span) :
    (Eval.blame span a.asList).Mirrors (fun items => ∀ a ∈ items, p.Resolved a)
      (List.map (.rekey p.bindingName)) (.blame span (a.rekey p.bindingName).asList) := by
  refine .blame span (Value.asList_rekey _ a) fun items hitems => ?_
  cases a <;> cases hitems
  exact resolvedItems_iff.mp ha

theorem asFunction_mirrors {a : Value BindingId} (ha : p.Resolved a) (span : Span) :
    (Eval.blame span a.asFunction).Mirrors p.ResolvedFunction (Value.rekeyFunction p.bindingName)
      (.blame span (a.rekey p.bindingName).asFunction) := by
  refine .blame span (Value.asFunction_rekey _ a) fun f hf => ?_
  cases a <;> cases hf
  exact ha

theorem wholeArgument_rekey (f : BindingId → String) (b : Builtin) (a : Value BindingId) :
    b.wholeArgument (a.rekey f) = b.wholeArgument a := by
  simp only [Builtin.wholeArgument, Value.asNumber_rekey]

theorem sumFrom_rekey (f : BindingId → String) (total : Float) (items : List (Value BindingId)) :
    Builtin.sumFrom total (items.map (.rekey f)) = Builtin.sumFrom total items := by
  induction items generalizing total with
  | nil => rfl
  | cons a rest ih => simp only [List.map_cons, Builtin.sumFrom, Value.asNumber_rekey, ih]

theorem newSequence_mirrors {s : Sequence (Value BindingId)} (hs : p.ResolvedSequence s) :
    (Builtin.newSequence s).Mirrors p.Resolved (.rekey p.bindingName)
      (Builtin.newSequence (Value.rekeySequence p.bindingName s)) :=
  .bind .tick fun _ _ => .pure hs rfl

theorem push_mirrors {s : Sequence (Value BindingId)} {stage : Sequence.Stage (Value BindingId)}
    (hs : p.ResolvedSequence s) (hstage : p.ResolvedStage stage) :
    (Builtin.newSequence (s.push stage)).Mirrors p.Resolved (.rekey p.bindingName)
      (Builtin.newSequence ((Value.rekeySequence p.bindingName s).push
        (Value.rekeyStage p.bindingName stage))) := by
  obtain ⟨source, stages⟩ := s
  have hpush : (Value.rekeySequence p.bindingName ⟨source, stages⟩).push
      (Value.rekeyStage p.bindingName stage) =
        Value.rekeySequence p.bindingName (Sequence.push ⟨source, stages⟩ stage) := by
    simp [Value.rekeySequence, Sequence.push, Value.rekeyStages_eq_map]
  rw [hpush]
  refine newSequence_mirrors ⟨hs.1, resolvedStages_iff.mpr fun stage' hmem => ?_⟩
  rcases List.mem_append.mp hmem with hmem | hmem
  · exact resolvedStages_iff.mp hs.2 stage' hmem
  · obtain rfl := List.mem_singleton.mp hmem
    exact hstage

theorem builtin_mirrors (hcall : p.CallMirrors call call') (steps : Nat) (b : Builtin)
    {arguments : List (Value BindingId)} (hresolved : ∀ a ∈ arguments, p.Resolved a) (span : Span) :
    (b.call call steps arguments span).Mirrors p.Resolved (.rekey p.bindingName)
      (b.call call' steps (arguments.map (.rekey p.bindingName)) span) := by
  have hcount : ∀ (b : Builtin) (arguments : List (Value BindingId)),
      Eval.Mirrors p.Resolved (.rekey p.bindingName)
        (.throw ⟨.builtinArgumentCount b (b.arity?.getD 0) arguments.length, span⟩)
        (.throw ⟨.builtinArgumentCount b (b.arity?.getD 0)
          (arguments.map (Value.rekey p.bindingName)).length, span⟩ : Eval Value) := by
    intro b arguments
    rw [List.length_map]
    exact .throw _
  cases b with
  | list => exact .pure (resolvedItems_iff.mpr hresolved) (by simp [Value.rekey, Value.rekeyItems_eq_map])
  | sum =>
      simp only [Builtin.call, sumFrom_rekey]
      exact .bind (.blame_same _ _) fun _ _ => .pure trivial rfl
  | naturals =>
      rcases arguments with _ | ⟨_, _⟩
      · exact newSequence_mirrors ⟨trivial, trivial⟩
      · exact hcount _ _
  | sequence =>
      rcases arguments with _ | ⟨items, _ | ⟨_, _⟩⟩
      · exact hcount _ _
      · refine .bind (asList_mirrors (hresolved items (by simp)) span) fun found hfound => ?_
        rw [← Value.rekeyItems_eq_map]
        exact newSequence_mirrors ⟨resolvedItems_iff.mpr hfound, trivial⟩
      · exact hcount _ _
  | length =>
      rcases arguments with _ | ⟨items, _ | ⟨_, _⟩⟩
      · exact hcount _ _
      · refine .bind (asList_mirrors (hresolved items (by simp)) span) fun found _ => ?_
        exact .pure trivial (by simp [Value.rekey])
      · exact hcount _ _
  | bigint =>
      rcases arguments with _ | ⟨value, _ | ⟨_, _⟩⟩
      · exact hcount _ _
      · simp only [Builtin.call, List.map_cons, List.map_nil, wholeArgument_rekey]
        exact .bind (.blame_same _ _) fun _ _ => .pure trivial rfl
      · exact hcount _ _
  | range =>
      rcases arguments with _ | ⟨start, _ | ⟨stop, _ | ⟨_, _⟩⟩⟩
      · exact hcount _ _
      · exact hcount _ _
      · simp only [Builtin.call, List.map_cons, List.map_nil, Value.asNumber_rekey]
        refine .bind (.blame_same _ _) fun _ _ => .bind (.blame_same _ _) fun _ _ => ?_
        exact newSequence_mirrors ⟨trivial, trivial⟩
      · exact hcount _ _
  | filter =>
      rcases arguments with _ | ⟨items, _ | ⟨keep, _ | ⟨_, _⟩⟩⟩
      · exact hcount _ _
      · exact hcount _ _
      · refine .bind (asSequence_mirrors (hresolved items (by simp)) span) fun s hs => ?_
        refine .bind (asFunction_mirrors (hresolved keep (by simp)) span) fun _ _ => ?_
        exact push_mirrors hs (hresolved keep (by simp))
      · exact hcount _ _
  | map =>
      rcases arguments with _ | ⟨items, _ | ⟨g, _ | ⟨_, _⟩⟩⟩
      · exact hcount _ _
      · exact hcount _ _
      · refine .bind (asSequence_mirrors (hresolved items (by simp)) span) fun s hs => ?_
        refine .bind (asFunction_mirrors (hresolved g (by simp)) span) fun _ _ => ?_
        exact push_mirrors hs (hresolved g (by simp))
      · exact hcount _ _
  | take =>
      rcases arguments with _ | ⟨items, _ | ⟨count, _ | ⟨_, _⟩⟩⟩
      · exact hcount _ _
      · exact hcount _ _
      · refine .bind (asSequence_mirrors (hresolved items (by simp)) span) fun s hs => ?_
        rw [wholeArgument_rekey]
        refine .bind (.blame_same _ _) fun n _ => ?_
        simp only [id_eq]
        by_cases hn : n < 0
        · simp only [hn, if_true]
          have hthrow : Eval.Mirrors (fun _ => False) id (.throw ⟨.negativeCount, span⟩ : Eval PUnit)
              (.throw ⟨.negativeCount, span⟩) := .throw _
          exact .bind hthrow fun _ hfalse => hfalse.elim
        · simp only [hn, if_false]
          refine .bind (takeFrom_mirrors hcall span steps n.toNat hs (by simp)) fun found hfound => ?_
          exact .pure (resolvedItems_iff.mpr hfound) (by simp [Value.rekey, Value.rekeyItems_eq_map])
      · exact hcount _ _
  | get =>
      rcases arguments with _ | ⟨items, _ | ⟨index, _ | ⟨_, _⟩⟩⟩
      · exact hcount _ _
      · exact hcount _ _
      · refine .bind (asList_mirrors (hresolved items (by simp)) span) fun found hfound => ?_
        rw [wholeArgument_rekey]
        refine .bind (.blame_same _ _) fun n _ => .pure ?_ ?_
        · split
          · trivial
          · cases hget : found[n.toNat]? with
            | none => trivial
            | some a => exact hfound a (List.mem_of_getElem? hget)
        · rw [id_eq, List.getElem?_map, apply_ite (Value.rekey p.bindingName)]
          cases found[n.toNat]? <;> rfl
      · exact hcount _ _

/-! ## Calls and programs -/

theorem foldl_rekey (ids : List BindingId) (arguments : List (Value BindingId))
    (env : Environment BindingId) :
    ((ids.map p.bindingName).zip (arguments.map (.rekey p.bindingName))).foldl
        (fun env entry => entry :: env) (Value.rekeyEnvironment p.bindingName env) =
      Value.rekeyEnvironment p.bindingName
        ((ids.zip arguments).foldl (fun env entry => entry :: env) env) := by
  induction ids generalizing arguments env with
  | nil => rfl
  | cons id rest ih =>
      cases arguments with
      | nil => rfl
      | cons a arguments => exact ih arguments ((id, a) :: env)

theorem resolved_foldl {entries : List (BindingId × Value BindingId)}
    (hentries : ∀ entry ∈ entries, p.Resolved entry.2) (henv : p.ResolvedEnvironment env) :
    p.ResolvedEnvironment (entries.foldl (fun env entry => entry :: env) env) := by
  induction entries generalizing env with
  | nil => exact henv
  | cons entry rest ih =>
      obtain ⟨hentry, hrest⟩ := List.forall_mem_cons.mp hentries
      exact ih hrest ⟨hentry, henv⟩

theorem selfEnvironment_rekey (identity : Nat) (c : Closure (Value BindingId) BindingId) :
    selfEnvironment identity (Value.rekeyClosure p.bindingName c) =
      Value.rekeyEnvironment p.bindingName (selfEnvironment identity c) := by
  obtain ⟨name, parameters, body, env⟩ := c
  cases name <;> rfl

/-- The environment of a closure is in step with the names around its body. -/
theorem exists_aligned_selfEnvironment {c : Closure (Value BindingId) BindingId}
    (hc : p.ResolvedClosure c) (identity : Nat) :
    ∃ vs names, p.Aligned names (selfEnvironment identity c) ∧
      p.ResolvedEnvironment (selfEnvironment identity c) ∧
        p.ScopedBody False anyFunction vs (p.boundNames names c.parameters.toList) c.body := by
  have hself : p.Resolved (.function (.closure identity c)) := hc
  obtain ⟨name, parameters, body, env⟩ := c
  obtain ⟨henv, vs, names, hnames, hbody⟩ := hc
  cases name with
  | none => exact ⟨vs, names, hnames, henv, hbody⟩
  | some id =>
      exact ⟨vs, _, hnames.cons (show (Target.enclosing id).id = id from rfl) _, ⟨hself, henv⟩, hbody⟩

/-- Entering a closure by names makes the image of the environment that entering it by bindings makes,
and that one belongs to the scope of the body. -/
theorem enter_mirrors {c : Closure (Value BindingId) BindingId} (hc : p.ResolvedClosure c)
    (identity : Nat) {arguments : List (Value BindingId)} (harguments : ∀ a ∈ arguments, p.Resolved a)
    (span : Span) :
    enter identity (Value.rekeyClosure p.bindingName c) (arguments.map (.rekey p.bindingName)) span =
        (enter identity c arguments span).map (Value.rekeyEnvironment p.bindingName) ∧
      ∀ env', enter identity c arguments span = .ok env' → ∃ vs names, p.Aligned names env' ∧
        p.ResolvedEnvironment env' ∧ p.ScopedBody False anyFunction vs names c.body := by
  obtain ⟨vs, names, hnames, henv, hbody⟩ := exists_aligned_selfEnvironment hc identity
  have hparameters : (Value.rekeyClosure p.bindingName c).parameters =
      c.parameters.map p.bindingName := by cases c; rfl
  rw [enter_eq, enter_eq, selfEnvironment_rekey, hparameters]
  cases hc' : c.parameters with
  | variadic key =>
      rw [hc'] at hbody
      refine ⟨by simp [ParameterList.map, Except.map, Value.rekeyEnvironment, Value.rekey,
        Value.rekeyItems_eq_map], fun env' h => ?_⟩
      cases h
      exact ⟨vs, _, hnames.cons (show (Target.bound key).id = key from rfl) _,
        ⟨resolvedItems_iff.mpr harguments, henv⟩, hbody⟩
  | fixed keys =>
      rw [hc'] at hbody
      simp only [ParameterList.map, List.length_map, foldl_rekey]
      split
      · exact ⟨rfl, fun _ h => by cases h⟩
      · rename_i hlength
        refine ⟨rfl, fun env' h => ?_⟩
        cases h
        refine ⟨vs, _, hnames.boundNames (Nat.not_lt.mp hlength), resolved_foldl ?_ henv, hbody⟩
        exact fun entry hentry => harguments _ (List.of_mem_zip hentry).2

theorem callValue_mirrors (heval : p.EvalMirrors eval eval') (hcall : p.CallMirrors call call')
    (hk : p.FindsResolved k) (steps : Nat) :
    p.CallMirrors (callValue p k eval call steps) (callValue p p.byName eval' call' steps) := by
  intro f arguments span hf harguments
  refine .bind (asFunction_mirrors hf span) fun g hg => ?_
  cases g with
  | builtin b => exact builtin_mirrors hcall steps b harguments span
  | unbound name => exact .throw _
  | closure identity c =>
      refine .bind .tick fun _ _ => ?_
      obtain ⟨himage, hgood⟩ := enter_mirrors hg identity harguments span
      have hbody : (Value.rekeyClosure p.bindingName c).body = c.body := by cases c; rfl
      rw [himage, hbody]
      cases henter : enter identity c arguments span with
      | error e => exact .throw e
      | ok env' =>
          obtain ⟨vs, names, haligned, hresolved, hscoped⟩ := hgood env' henter
          exact evalBody_mirrors heval hk hscoped haligned hresolved

end

theorem evalBy_mirrors {k : Keying BindingId} (hk : p.FindsResolved k) (steps : Nat) :
    p.EvalMirrors (p.evalBy k steps) (p.evalBy p.byName steps) ∧
      p.CallMirrors (p.callBy k steps) (p.callBy p.byName steps) := by
  induction steps with
  | zero => exact ⟨fun _ _ _ => .outOfSteps, fun _ _ _ => .outOfSteps⟩
  | succ steps ih =>
      obtain ⟨heval, hcall⟩ := ih
      exact ⟨fun hid hnames henv => evalNode_mirrors heval hcall hk hid hnames henv,
        callValue_mirrors heval hcall hk steps⟩

/-- A keying by bindings that finds what names were resolved to gives the outcome that names give. -/
theorem evaluate_eq_of_findsResolved {k : Keying BindingId} (hk : p.FindsResolved k)
    (hbody : p.ScopedBody False anyFunction [] [] p.body) (steps : Nat) :
    p.evaluate steps = (p.evaluateBy k steps).map (Except.map (.rekey p.bindingName)) := by
  have himage := (evalBody_mirrors (evalBy_mirrors hk steps).1 hk hbody aligned_nil trivial).image 0
  have hname : (p.runBy p.byName steps).run 0 =
      ((p.runBy k steps).run 0).map fun found =>
        (found.1.map (.rekey p.bindingName), found.2) := himage
  simp only [evaluate, evaluateBy, hname, Option.map_map]
  rfl

/-- Every program that is made from a tree has the outcome it would have if environments were keyed by
bindings, and does so when every name is looked up in both ways: whatever error a disagreement would be,
it does not show. -/
theorem evaluate_eq_evaluateBy_binding {tree : Tree} {p : Program} (h : ofTree tree = .ok p)
    (steps : Nat) (mismatch : RuntimeFault) :
    p.evaluate steps = (p.evaluateBy byBinding steps).map (Except.map (.rekey p.bindingName)) ∧
      p.evaluate steps =
        (p.evaluateBy (p.crossChecked mismatch) steps).map (Except.map (.rekey p.bindingName)) :=
  have hbody : p.ScopedBody False anyFunction [] [] p.body := scopedBody_of_ofTree False.elim (fun _ _ _ => trivial) h
  ⟨evaluate_eq_of_findsResolved findsResolved_byBinding hbody steps,
    evaluate_eq_of_findsResolved (findsResolved_crossChecked mismatch) hbody steps⟩

/-- A value, and a function with a parameter of the same name: `val x = 1`, `def f(x: Number) = x`, and in
the end `f(x)`. -/
def shadowingTree : Tree :=
  let site : Site := ⟨0, .none⟩
  let name (text : String) : Spanned String := ⟨text, .none⟩
  let x : Expr := .reference site "x"
  let f : Expr := .reference site "f"
  let one : Expr := .number site 1
  let call : Expr := .call site f [] [x]
  let number : TypeExpr := .named site "Number" []
  ⟨.mk [.value .none (name "x") none one,
      .function .none (name "f") [] (.fixed [⟨name "x", number, .none⟩]) none (.mk [] x .none)]
    call .none, ⟨#[one, x, f, call], #[number]⟩⟩

theorem evaluate_eq_evaluateBy_binding_shadowing :
    ∃ p, ofTree shadowingTree = .ok p ∧
      p.evaluate 4 = (p.evaluateBy byBinding 4).map (Except.map (.rekey p.bindingName)) :=
  ⟨_, rfl, (evaluate_eq_evaluateBy_binding (show ofTree shadowingTree = .ok _ from rfl) 4 .divisionByZero).1⟩

end Program

end Sable
