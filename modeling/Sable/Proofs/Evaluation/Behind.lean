import Sable.Proofs.Evaluation.Runs
import Sable.Proofs.Evaluation.ValuesBehind

/-! Evaluation of programs behind declarations.

Environments are keyed by bindings here, so what the declarations in front stand for is never found by accident. A
program behind them takes the same steps as it does by itself; its errors are the same, further on in the text. -/
namespace Sable

/-- The error, with its place moved. -/
def RuntimeError.moved (e : RuntimeError) (n : Nat) : RuntimeError := ⟨e.fault, e.span.moved n⟩

namespace Eval

variable {α β γ δ : Type} {n : Nat} {g : α → β}

/-- What a run found, further on in the text. -/
def found (n : Nat) (g : α → β) (r : Except RuntimeError α) : Except RuntimeError β :=
  (r.mapError (·.moved n)).map g

/-- `c'` takes the time of `c`, and comes to the image under `g` of what `c` comes to. Its errors are those of `c`,
`n` bytes further on. -/
def Trails (n : Nat) (g : α → β) (c : Eval α) (c' : Eval β) : Prop :=
  ∀ now, c'.outcome now = (c.outcome now).map fun r => (found n g r.1, r.2)

namespace Trails

theorem pure {a : α} {b : β} (h : b = g a) : Trails n g (Pure.pure a) (Pure.pure b) := by
  subst h
  exact fun _ => rfl

theorem throw {fault : RuntimeFault} {span : Span} :
    Trails n g (Eval.throw ⟨fault, span⟩) (Eval.throw ⟨fault, span.moved n⟩) := fun _ => rfl

theorem outOfSteps : Trails n g .outOfSteps .outOfSteps := fun _ => rfl

theorem tick : Trails n id tick tick := fun _ => rfl

theorem bind {g' : γ → δ} {c : Eval α} {c' : Eval β} {f : α → Eval γ} {f' : β → Eval δ} (h : Trails n g c c')
    (hf : ∀ a, Trails n g' (f a) (f' (g a))) : Trails n g' (c >>= f) (c' >>= f') := by
  intro now
  rw [outcome_bind, outcome_bind, h]
  cases c.outcome now with
  | none => rfl
  | some r =>
      obtain ⟨result, later⟩ := r
      cases result with
      | error e => rfl
      | ok a => exact hf a later

theorem blame (span : Span) {r : Except RuntimeFault α} {r' : Except RuntimeFault β} (h : r' = r.map g) :
    Trails n g (.blame span r) (.blame (span.moved n) r') := by
  subst h
  cases r with
  | ok a => exact .pure rfl
  | error fault => exact .throw

theorem blame_same (span : Span) (r : Except RuntimeFault α) :
    Trails n id (.blame span r) (.blame (span.moved n) r) := .blame span (by cases r <;> rfl)

theorem observe {c : Eval α} {c' : Eval β} (h : Trails n g c c') : Trails n (found n g) c.observe c'.observe := by
  intro now
  rw [outcome_observe, outcome_observe, h]
  cases c.outcome now <;> rfl

end Trails

end Eval

/-! ## Sequences and builtins -/

section

open Value

variable {f : Front} {call call' : Value BindingId → List (Value BindingId) → Span → Eval (Value BindingId)}

/-- Calls behind the declarations trail those without them. -/
def Front.CallTrails (f : Front)
    (call call' : Value BindingId → List (Value BindingId) → Span → Eval (Value BindingId)) : Prop :=
  ∀ (a : Value BindingId) (arguments : List (Value BindingId)) (span : Span),
    (call a arguments span).Trails f.shift.offset (behind f)
      (call' (a.behind f) (arguments.map (behind f)) (span.moved f.shift.offset))

/-- Nodes are evaluated behind the declarations as they are without them. -/
def Front.EvalTrails (f : Front) (eval eval' : Environment BindingId → NodeId → Eval (Value BindingId)) : Prop :=
  ∀ (env : Environment BindingId) (id : NodeId),
    (eval env id).Trails f.shift.offset (behind f) (eval' (behindEnvironment f env) id)

theorem next?_behind (f : Front) (source : Sequence.Source (Value BindingId)) : (behindSource f source).next? =
    source.next?.map fun found => (found.1.behind f, behindSource f found.2) := by
  cases source with
  | range next stop =>
      simp only [behindSource, Sequence.Source.next?]
      split <;> rfl
  | items items => cases items <;> rfl

theorem through_trails (hcall : f.CallTrails call call') (span : Span)
    (stages : List (Sequence.Stage (Value BindingId))) (item : Value BindingId) :
    (Sequence.through call span stages item).Trails f.shift.offset (Option.map (behind f))
      (Sequence.through call' (span.moved f.shift.offset) (behindStages f stages) (item.behind f)) := by
  induction stages generalizing item with
  | nil => exact .pure rfl
  | cons stage rest ih =>
      cases stage with
      | map g => exact (hcall g [item] span).bind fun a => ih a
      | filter g =>
          refine (hcall g [item] span).bind fun a => ?_
          rw [asBoolean_behind]
          refine (Eval.Trails.blame_same span a.asBoolean).bind fun b => ?_
          cases b with
          | true => exact ih item
          | false => exact .pure rfl

theorem next_trails (hcall : f.CallTrails call call') (span : Span) (steps : Nat)
    (s : Sequence (Value BindingId)) :
    (Sequence.next call span steps s).Trails f.shift.offset
      (fun r => (Eval.found f.shift.offset (Option.map (behind f)) r.1, behindSequence f r.2))
      (Sequence.next call' (span.moved f.shift.offset) steps (behindSequence f s)) := by
  induction steps generalizing s with
  | zero => exact .outOfSteps
  | succ steps ih =>
      obtain ⟨source, stages⟩ := s
      simp only [Sequence.next, behindSequence, next?_behind]
      cases source.next? with
      | none => exact .pure rfl
      | some r =>
          obtain ⟨item, source'⟩ := r
          refine (through_trails hcall span stages item).observe.bind fun r => ?_
          cases r with
          | error e => exact .pure rfl
          | ok found =>
              cases found with
              | none => exact ih ⟨source', stages⟩
              | some a => exact .pure rfl

theorem takeFrom_trails (hcall : f.CallTrails call call') (span : Span) (steps count : Nat)
    (s : Sequence (Value BindingId)) (taken : List (Value BindingId)) :
    (Sequence.takeFrom call span steps count s taken).Trails f.shift.offset (List.map (behind f))
      (Sequence.takeFrom call' (span.moved f.shift.offset) steps count (behindSequence f s)
        (taken.map (behind f))) := by
  induction count generalizing s taken with
  | zero => exact .pure (List.map_reverse ..).symm
  | succ count ih =>
      refine (next_trails hcall span steps s).bind fun r => ?_
      obtain ⟨result, rest⟩ := r
      cases result with
      | error e => exact .throw
      | ok item =>
          cases item with
          | none => exact .pure (List.map_reverse ..).symm
          | some a => exact ih rest (a :: taken)

theorem wholeArgument_behind (f : Front) (b : Builtin) (a : Value BindingId) :
    b.wholeArgument (a.behind f) = b.wholeArgument a := by
  simp only [Builtin.wholeArgument, asNumber_behind]

theorem sumFrom_behind (f : Front) (total : Float) (items : List (Value BindingId)) :
    Builtin.sumFrom total (items.map (behind f)) = Builtin.sumFrom total items := by
  induction items generalizing total with
  | nil => rfl
  | cons a rest ih => simp only [List.map_cons, Builtin.sumFrom, asNumber_behind, ih]

theorem newSequence_trails (s : Sequence (Value BindingId)) :
    (Builtin.newSequence s).Trails f.shift.offset (behind f) (Builtin.newSequence (behindSequence f s)) :=
  Eval.Trails.tick.bind fun _ => .pure rfl

theorem push_behind (f : Front) (s : Sequence (Value BindingId)) (stage : Sequence.Stage (Value BindingId)) :
    (behindSequence f s).push (behindStage f stage) = behindSequence f (s.push stage) := by
  obtain ⟨source, stages⟩ := s
  simp [behindSequence, Sequence.push, behindStages_eq_map]

theorem builtin_trails (hcall : f.CallTrails call call') (steps : Nat) (b : Builtin)
    (arguments : List (Value BindingId)) (span : Span) :
    (b.call call steps arguments span).Trails f.shift.offset (behind f)
      (b.call call' steps (arguments.map (behind f)) (span.moved f.shift.offset)) := by
  have hcount : ∀ (b : Builtin) (arguments : List (Value BindingId)),
      Eval.Trails f.shift.offset (behind f)
        (.throw ⟨.builtinArgumentCount b (b.arity?.getD 0) arguments.length, span⟩)
        (.throw ⟨.builtinArgumentCount b (b.arity?.getD 0) (arguments.map (behind f)).length,
          span.moved f.shift.offset⟩ : Eval (Value BindingId)) := by
    intro b arguments
    rw [List.length_map]
    exact .throw
  have hsequence : ∀ a : Value BindingId, Eval.Trails f.shift.offset (behindSequence f)
      (.blame span a.asSequence) (.blame (span.moved f.shift.offset) (a.behind f).asSequence) :=
    fun a => .blame span (asSequence_behind f a)
  have hlist : ∀ a : Value BindingId, Eval.Trails f.shift.offset (List.map (behind f))
      (.blame span a.asList) (.blame (span.moved f.shift.offset) (a.behind f).asList) :=
    fun a => .blame span (asList_behind f a)
  have hfunction : ∀ a : Value BindingId, Eval.Trails f.shift.offset (behindFunction f)
      (.blame span a.asFunction) (.blame (span.moved f.shift.offset) (a.behind f).asFunction) :=
    fun a => .blame span (asFunction_behind f a)
  cases b with
  | list => exact .pure (by simp [behind, behindItems_eq_map])
  | sum =>
      simp only [Builtin.call, sumFrom_behind]
      exact (Eval.Trails.blame_same span _).bind fun _ => .pure rfl
  | naturals =>
      rcases arguments with _ | ⟨_, _⟩
      · exact newSequence_trails _
      · exact hcount _ _
  | sequence =>
      rcases arguments with _ | ⟨items, _ | ⟨_, _⟩⟩
      · exact hcount _ _
      · refine (hlist items).bind fun found => ?_
        rw [← behindItems_eq_map]
        exact newSequence_trails ⟨.items found, []⟩
      · exact hcount _ _
  | length =>
      rcases arguments with _ | ⟨items, _ | ⟨_, _⟩⟩
      · exact hcount _ _
      · exact (hlist items).bind fun found => .pure (by simp [behind])
      · exact hcount _ _
  | bigint =>
      rcases arguments with _ | ⟨value, _ | ⟨_, _⟩⟩
      · exact hcount _ _
      · simp only [Builtin.call, List.map_cons, List.map_nil, wholeArgument_behind]
        exact (Eval.Trails.blame_same span _).bind fun _ => .pure rfl
      · exact hcount _ _
  | range =>
      rcases arguments with _ | ⟨start, _ | ⟨stop, _ | ⟨_, _⟩⟩⟩
      · exact hcount _ _
      · exact hcount _ _
      · simp only [Builtin.call, List.map_cons, List.map_nil, asNumber_behind]
        refine (Eval.Trails.blame_same span _).bind fun a => (Eval.Trails.blame_same span _).bind fun b => ?_
        exact newSequence_trails ⟨.range a (some b), []⟩
      · exact hcount _ _
  | filter =>
      rcases arguments with _ | ⟨items, _ | ⟨keep, _ | ⟨_, _⟩⟩⟩
      · exact hcount _ _
      · exact hcount _ _
      · refine (hsequence items).bind fun s => (hfunction keep).bind fun _ => ?_
        have hpush := newSequence_trails (f := f) (s.push (.filter keep))
        rwa [← push_behind] at hpush
      · exact hcount _ _
  | map =>
      rcases arguments with _ | ⟨items, _ | ⟨g, _ | ⟨_, _⟩⟩⟩
      · exact hcount _ _
      · exact hcount _ _
      · refine (hsequence items).bind fun s => (hfunction g).bind fun _ => ?_
        have hpush := newSequence_trails (f := f) (s.push (.map g))
        rwa [← push_behind] at hpush
      · exact hcount _ _
  | take =>
      rcases arguments with _ | ⟨items, _ | ⟨count, _ | ⟨_, _⟩⟩⟩
      · exact hcount _ _
      · exact hcount _ _
      · refine (hsequence items).bind fun s => ?_
        rw [wholeArgument_behind]
        refine (Eval.Trails.blame_same span _).bind fun n => ?_
        simp only [id_eq]
        by_cases hn : n < 0
        · simp only [hn, if_true]
          have hthrow : Eval.Trails f.shift.offset id (.throw ⟨.negativeCount, span⟩ : Eval PUnit)
              (.throw ⟨.negativeCount, span.moved f.shift.offset⟩) := .throw
          exact hthrow.bind fun _ => .bind (takeFrom_trails hcall span steps n.toNat s []) fun found =>
            .pure (by simp [behind, behindItems_eq_map])
        · simp only [hn, if_false]
          exact (takeFrom_trails hcall span steps n.toNat s []).bind fun found =>
            .pure (by simp [behind, behindItems_eq_map])
      · exact hcount _ _
  | get =>
      rcases arguments with _ | ⟨items, _ | ⟨index, _ | ⟨_, _⟩⟩⟩
      · exact hcount _ _
      · exact hcount _ _
      · refine (hlist items).bind fun found => ?_
        rw [wholeArgument_behind]
        refine (Eval.Trails.blame_same span _).bind fun n => .pure ?_
        rw [id_eq, List.getElem?_map, apply_ite (behind f)]
        cases found[n.toNat]? <;> rfl
      · exact hcount _ _

end

/-! ## Environments -/

/-- What is declared in front are functions without bodies. -/
def Front.DeclaresExternals (f : Front) : Prop :=
  ∀ id ∈ f.declared, ∃ name span s, f.bindings[id]? = some (.function name span s none)

namespace Program

open Value

variable {f : Front} {p : Program}

/-- The functions declared in front have smaller numbers than what comes behind them. -/
theorem find?_behindEnvironment (hf : f.DeclaresExternals) (id : BindingId) (env : Environment BindingId) :
    (behindEnvironment f env).find? (fun entry => entry.1 == id + f.bindings.size) =
      (env.find? fun entry => entry.1 == id).map fun entry => (entry.1 + f.bindings.size, entry.2.behind f) := by
  induction env with
  | nil =>
      refine List.find?_eq_none.mpr fun entry hentry => ?_
      obtain ⟨own, hown, rfl⟩ := List.mem_map.mp (List.mem_reverse.mp hentry)
      obtain ⟨_, _, _, hbinding⟩ := hf own hown
      have hlt := (Array.getElem?_eq_some_iff.mp hbinding).1
      have hne : own ≠ id + f.bindings.size := Nat.ne_of_lt (Nat.lt_add_left id hlt)
      simpa [Front.entry] using hne
  | cons entry rest ih =>
      simp only [behindEnvironment, List.find?_cons]
      by_cases h : entry.1 = id
      · simp [h]
      · rw [beq_false_of_ne h, beq_false_of_ne (mt Nat.add_right_cancel h), ih]

theorem find_behind (hf : f.DeclaresExternals) (name : String) (target : Option Target)
    (env : Environment BindingId) : byBinding.find name (target.map (.behind f)) (behindEnvironment f env) =
      (byBinding.find name target env).map (Value.behind f) := by
  cases target with
  | none => rfl
  | some target =>
      simp only [byBinding, Option.map_some, Option.bind_some, Target.id_behind, find?_behindEnvironment hf]
      cases env.find? fun entry => entry.1 == target.id <;> rfl

theorem parameterKeys_behind (f : Front) (s : Signature) :
    parameterKeys byBinding (s.behind f) = (parameterKeys byBinding s).map (· + f.bindings.size) := by
  obtain ⟨typeVariables, arguments, parameters, result⟩ := s
  cases arguments with
  | fixed _ => simp [parameterKeys, Signature.behind, Ty.raisedParameters, ParameterList.map, byBinding]
  | variadic _ =>
      cases parameters <;> simp [parameterKeys, Signature.behind, Ty.raisedParameters, ParameterList.map, byBinding]

theorem foldl_behind (f : Front) (ids : List BindingId) (arguments : List (Value BindingId))
    (env : Environment BindingId) :
    ((ids.map (· + f.bindings.size)).zip (arguments.map (Value.behind f))).foldl (fun env entry => entry :: env)
        (behindEnvironment f env) =
      behindEnvironment f ((ids.zip arguments).foldl (fun env entry => entry :: env) env) := by
  induction ids generalizing arguments env with
  | nil => rfl
  | cons id rest ih =>
      cases arguments with
      | nil => rfl
      | cons a arguments => exact ih arguments ((id, a) :: env)

/-- Behind the declarations a closure is entered with the same arguments, further on. -/
theorem enter_behind (f : Front) (identity : Nat) (c : Closure (Value BindingId) BindingId)
    (arguments : List (Value BindingId)) (span : Span) :
    enter identity (behindClosure f c) (arguments.map (Value.behind f)) (span.moved f.shift.offset) =
      Eval.found f.shift.offset (behindEnvironment f) (enter identity c arguments span) := by
  have hself : selfEnvironment identity (behindClosure f c) = behindEnvironment f (selfEnvironment identity c) := by
    obtain ⟨name, parameters, body, env⟩ := c
    cases name <;> rfl
  have hparameters : (behindClosure f c).parameters = c.parameters.map (· + f.bindings.size) := by cases c; rfl
  rw [enter_eq, enter_eq, hself, hparameters]
  cases c.parameters with
  | variadic key => simp [ParameterList.map, Eval.found, Except.map, Except.mapError, behindEnvironment, Value.behind,
      behindItems_eq_map]
  | fixed keys =>
      simp only [ParameterList.map, List.length_map, foldl_behind]
      split <;> rfl

/-! ## Nodes and bodies -/

section

variable {eval eval' : Environment BindingId → NodeId → Eval (Value BindingId)}
  {call call' : Value BindingId → List (Value BindingId) → Span → Eval (Value BindingId)}

theorem evalAll_trails (heval : f.EvalTrails eval eval') (env : Environment BindingId) (ids : List NodeId) :
    (evalAll eval env ids).Trails f.shift.offset (List.map (Value.behind f))
      (evalAll eval' (behindEnvironment f env) ids) := by
  induction ids with
  | nil => exact .pure rfl
  | cons id rest ih => exact (heval env id).bind fun a => ih.bind fun values => .pure rfl

theorem evalFields_trails (heval : f.EvalTrails eval eval') (env : Environment BindingId)
    (fields : List (String × NodeId)) (done : Fields (Value BindingId)) :
    (evalFields eval env done fields).Trails f.shift.offset (behindFields f)
      (evalFields eval' (behindEnvironment f env) (behindFields f done) fields) := by
  induction fields generalizing done with
  | nil => exact .pure rfl
  | cons field rest ih =>
      obtain ⟨name, id⟩ := field
      refine (heval env id).bind fun a => ?_
      rw [behindFields_eq_map, Fields.insert_map, ← behindFields_eq_map]
      exact ih _

theorem bind_trails (heval : f.EvalTrails eval eval') (env : Environment BindingId) (id : BindingId) :
    (Program.bind p byBinding eval env id).Trails f.shift.offset (behindEnvironment f)
      (Program.bind (p.behind f) byBinding eval' (behindEnvironment f env) (id + f.bindings.size)) := by
  unfold Program.bind
  rcases Nat.lt_or_ge id p.bindings.size with hid | hid
  · rw [binding_behind f p hid]
    cases p.binding id with
    | value name span type node => exact (heval env node).bind fun a => .pure rfl
    | parameter _ _ _ | payload _ _ _ _ => exact .pure rfl
    | function name span s body =>
        cases body with
        | some body =>
            refine Eval.Trails.tick.bind fun identity => .pure ?_
            rw [parameterKeys_behind]
            rfl
        | none =>
            simp only [Binding.behind, Option.map_none]
            cases Builtin.ofName? name <;> exact .pure rfl
  · rw [(binding_of_size_le f p hid).1, (binding_of_size_le f p hid).2]
    exact .pure rfl

theorem bindAll_trails (heval : f.EvalTrails eval eval') (env : Environment BindingId) (ids : List BindingId) :
    (bindAll p byBinding eval env ids).Trails f.shift.offset (behindEnvironment f)
      (bindAll (p.behind f) byBinding eval' (behindEnvironment f env) (ids.map (· + f.bindings.size))) := by
  induction ids generalizing env with
  | nil => exact .pure rfl
  | cons id rest ih => exact (bind_trails heval env id).bind fun env' => ih env'

theorem evalBody_trails (heval : f.EvalTrails eval eval') (env : Environment BindingId) (body : FunctionBody) :
    (evalBody p byBinding eval env body).Trails f.shift.offset (Value.behind f)
      (evalBody (p.behind f) byBinding eval' (behindEnvironment f env) (body.behind f)) :=
  (bindAll_trails heval env body.bindings).bind fun env' => heval env' body.result

theorem evalNode_trails (hf : f.DeclaresExternals) (heval : f.EvalTrails eval eval')
    (hcall : f.CallTrails call call') : f.EvalTrails (evalNode p byBinding eval call)
      (evalNode (p.behind f) byBinding eval' call') := by
  intro env id
  rcases Nat.lt_or_ge id p.nodes.size with hid | hid
  · unfold evalNode
    rw [node_behind f p hid]
    simp only [Node.behind]
    generalize (p.node id).span = span
    cases (p.node id).form with
    | number _ | bigInteger _ | boolean _ | null => exact .pure rfl
    | object fields => exact (evalFields_trails heval env fields []).bind fun found => .pure rfl
    | arithmetic op lhs rhs =>
        exact (heval env lhs).bind fun a => (heval env rhs).bind fun b => .blame span (arithmetic_behind f op a b)
    | negate operand => exact (heval env operand).bind fun a => .blame span (negate_behind f a)
    | comparison op lhs rhs =>
        refine (heval env lhs).bind fun a => (heval env rhs).bind fun b => ?_
        rw [compare_behind]
        exact (Eval.Trails.blame_same span _).bind fun _ => .pure rfl
    | logical op lhs rhs =>
        refine (heval env lhs).bind fun a => ?_
        rw [asBoolean_behind]
        refine (Eval.Trails.blame_same span _).bind fun known => ?_
        have hrhs : Eval.Trails f.shift.offset (Value.behind f)
            (eval env rhs >>= fun b => Eval.blame span b.asBoolean >>= fun x => pure (Value.boolean x))
            (eval' (behindEnvironment f env) rhs >>= fun b =>
              Eval.blame (span.moved f.shift.offset) b.asBoolean >>= fun x => pure (Value.boolean x)) := by
          refine (heval env rhs).bind fun b => ?_
          rw [asBoolean_behind]
          exact (Eval.Trails.blame_same span _).bind fun _ => .pure rfl
        cases op <;> cases known <;> first | exact hrhs | exact .pure rfl
    | not operand =>
        refine (heval env operand).bind fun a => ?_
        rw [asBoolean_behind]
        exact (Eval.Trails.blame_same span _).bind fun _ => .pure rfl
    | conditional condition thenBranch elseBranch =>
        refine (heval env condition).bind fun a => ?_
        rw [asBoolean_behind]
        refine (Eval.Trails.blame_same span _).bind fun b => ?_
        cases b with
        | true => exact heval env thenBranch
        | false => exact heval env elseBranch
    | reference name target => exact .blame span (find_behind hf name target env)
    | call callee types arguments =>
        exact (heval env callee).bind fun g => (evalAll_trails heval env arguments).bind fun values =>
          hcall g values span
    | lambda s body =>
        refine Eval.Trails.tick.bind fun identity => .pure ?_
        simp [Value.behind, behindFunction, behindClosure, parameterKeys_behind]
    | field owner name =>
        refine (heval env owner).bind fun a => ?_
        cases a with
        | object fields =>
            simp only [Value.behind, behindFields_eq_map, Fields.get?_map]
            cases Fields.get? name fields with
            | none => exact .throw
            | some a => exact .pure rfl
        | _ => exact .throw
    | tagged value tag => exact (heval env value).bind fun a => .pure rfl
    | hasTag value tag =>
        refine (heval env value).bind fun a => ?_
        exact (Eval.Trails.blame span (asTagged_behind f a)).bind fun _ => .pure rfl
    | untag value =>
        refine (heval env value).bind fun a => ?_
        exact (Eval.Trails.blame span (asTagged_behind f a)).bind fun _ => .pure rfl
    | cases scrutinee arms =>
        refine (heval env scrutinee).bind fun a => ?_
        refine (Eval.Trails.blame span (asTagged_behind f a)).bind fun found => ?_
        obtain ⟨tag, payload⟩ := found
        simp only [List.find?_map]
        have hcomp : ((fun arm : Arm => arm.tag == tag) ∘ Arm.behind f) = fun arm => arm.tag == tag := rfl
        rw [hcomp]
        cases arms.find? fun arm => arm.tag == tag with
        | none => exact .throw
        | some arm => exact heval ((arm.binding, payload) :: env) arm.body
  · have hown : (p.node id).form = .null := by simp [node, hid]
    simp only [evalNode, form_behind, hown, Form.behind]
    exact .pure rfl

theorem callValue_trails (heval : f.EvalTrails eval eval') (hcall : f.CallTrails call call') (steps : Nat) :
    f.CallTrails (callValue p byBinding eval call steps) (callValue (p.behind f) byBinding eval' call' steps) := by
  intro a arguments span
  refine (Eval.Trails.blame span (asFunction_behind f a)).bind fun g => ?_
  cases g with
  | builtin b => exact builtin_trails hcall steps b arguments span
  | unbound name => exact .throw
  | closure identity c =>
      refine Eval.Trails.tick.bind fun _ => ?_
      have hbody : (behindClosure f c).body = c.body.behind f := by cases c; rfl
      rw [enter_behind, hbody]
      cases enter identity c arguments span with
      | error e => exact .throw
      | ok env' => exact evalBody_trails heval env' c.body

end

/-! ## Programs -/

theorem evalBy_trails (hf : f.DeclaresExternals) (steps : Nat) :
    f.EvalTrails (p.evalBy byBinding steps) ((p.behind f).evalBy byBinding steps) ∧
      f.CallTrails (p.callBy byBinding steps) ((p.behind f).callBy byBinding steps) := by
  induction steps with
  | zero => exact ⟨fun _ _ => .outOfSteps, fun _ _ _ => .outOfSteps⟩
  | succ steps ih =>
      obtain ⟨heval, hcall⟩ := ih
      exact ⟨evalNode_trails hf heval hcall, callValue_trails heval hcall steps⟩

/-- The declarations in front take no time. -/
theorem bindAll_declared (hf : f.DeclaresExternals)
    (eval : Environment BindingId → NodeId → Eval (Value BindingId)) (rest : List BindingId) :
    bindAll (p.behind f) byBinding eval [] (f.declared ++ rest) =
      bindAll (p.behind f) byBinding eval f.environment rest := by
  have hall : ∀ (ids : List BindingId) (env : Environment BindingId),
      (∀ id ∈ ids, ∃ name span s, f.bindings[id]? = some (.function name span s none)) →
        bindAll (p.behind f) byBinding eval env (ids ++ rest) =
          bindAll (p.behind f) byBinding eval ((ids.map f.entry).reverse ++ env) rest := by
    intro ids
    induction ids with
    | nil => exact fun env _ => rfl
    | cons id ids ih =>
        intro env hids
        obtain ⟨⟨name, span, s, hbinding⟩, hids⟩ := List.forall_mem_cons.mp hids
        have hlt := (Array.getElem?_eq_some_iff.mp hbinding)
        obtain ⟨hlt, hget⟩ := hlt
        have hown : (p.behind f).binding id = .function name span s none := by
          rw [binding_behind_of_lt f p hlt, hget]
        have hbind : Program.bind (p.behind f) byBinding eval env id = pure (f.entry id :: env) := by
          simp only [Program.bind, hown, Front.entry, hbinding, Option.elim_some, Binding.name, Function.external]
          cases Builtin.ofName? name <;> rfl
        rw [List.cons_append, bindAll, hbind]
        exact (ih (f.entry id :: env) hids).trans (by simp)
  have := hall f.declared [] hf
  rwa [List.append_nil] at this

/-- A program behind declarations without bodies runs as it does by itself. -/
theorem runBy_trails (hf : f.DeclaresExternals) (steps : Nat) :
    (p.runBy byBinding steps).Trails f.shift.offset (Value.behind f) ((p.behind f).runBy byBinding steps) := by
  have heval : f.EvalTrails (p.evalBy byBinding steps) ((p.behind f).evalBy byBinding steps) :=
    (evalBy_trails hf steps).1
  have hbody := evalBody_trails (p := p) heval [] p.body
  have hself : (p.behind f).runBy byBinding steps =
      evalBody (p.behind f) byBinding ((p.behind f).evalBy byBinding steps) f.environment (p.body.behind f) := by
    simp only [runBy, evalBody, behind, FunctionBody.behind]
    exact congrArg (· >>= _) (bindAll_declared (p := p) hf _ _)
  rw [hself]
  exact hbody

end Program

end Sable
