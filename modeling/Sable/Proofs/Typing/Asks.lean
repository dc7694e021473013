import Sable.Program.Typing
import Sable.Proofs.Program.Parts

/-! The typing rules in two monads at once.

A rule only combines the answers that it gets: it runs in any monad in which type errors can be raised.
So any relation between two monads that respects the ways in which a rule can put a computation together
holds of the rule in the one and in the other, if it holds of the answers to what the rule asks for.

The order in which entries of substitutions are gone through need not be the same in both, if the relation holds of
calls all the same. -/
namespace Sable.Program

/-- A relation between computations in two monads that answers, sequencing and failures respect. No rule
says of its own accord that types depend on themselves. -/
structure Correspondence (m m' : Type → Type) [Monad m] [MonadExceptOf TypeError m] [Monad m']
    [MonadExceptOf TypeError m'] where
  Rel : {α : Type} → m α → m' α → Prop
  pure : ∀ {α : Type} (a : α), Rel (Pure.pure a) (Pure.pure a)
  fail : ∀ {α : Type} (fault : TypeFault) (span : Span), fault ≠ .loop →
    Rel (Program.fail fault span : m α) (Program.fail fault span)
  bind : ∀ {α β : Type} {c : m α} {c' : m' α} {f : α → m β} {f' : α → m' β},
    Rel c c' → (∀ a, Rel (f a) (f' a)) → Rel (c >>= f) (c' >>= f')

namespace Correspondence

variable {m m' : Type → Type} [Monad m] [MonadExceptOf TypeError m] [Monad m']
  [MonadExceptOf TypeError m'] (R : Correspondence m m')

theorem ite {α : Type} {c : Prop} [Decidable c] {a b : m α} {a' b' : m' α} (ha : R.Rel a a')
    (hb : R.Rel b b') : R.Rel (if c then a else b) (if c then a' else b') := by
  split
  · exact ha
  · exact hb

/-- A check in front of a computation. -/
theorem check {α : Type} {c : Prop} [Decidable c] {fault : TypeFault} {span : Span} {rest : m α}
    {rest' : m' α} (hfault : fault ≠ .loop) (h : R.Rel rest rest') :
    R.Rel (if c then (Program.fail fault span : m PUnit) >>= fun _ => rest else rest)
      (if c then (Program.fail fault span : m' PUnit) >>= fun _ => rest' else rest') :=
  R.ite (R.bind (R.fail _ _ hfault) fun _ => h) h

/-! ## Rules that ask for nothing -/

theorem requireAssignable (actual expected : Ty) (span : Span) :
    R.Rel (Program.requireAssignable actual expected span)
      (Program.requireAssignable actual expected span) := by
  unfold Program.requireAssignable
  cases actual.assignable expected with
  | error e => exact R.fail _ _ (by simp)
  | ok fits =>
      cases fits with
      | true => exact R.pure _
      | false => exact R.fail _ _ (by simp)

theorem requireTagView (construct : String) (type : Ty) (span : Span) :
    R.Rel (Program.requireTagView construct type span)
      (Program.requireTagView construct type span) := by
  unfold Program.requireTagView
  cases type.tagView? with
  | some view => exact R.pure _
  | none => exact R.fail _ _ (by simp)

theorem arithmeticType (op : ArithmeticOp) (a b : Ty) (span : Span) :
    R.Rel (Program.arithmeticType op a b span) (Program.arithmeticType op a b span) := by
  unfold Program.arithmeticType
  split
  · exact R.pure _
  · exact R.ite (R.pure _) (R.fail _ _ (by simp))
  · exact R.fail _ _ (by simp)

theorem comparisonType (op : ComparisonOp) (a b : Ty) (span : Span) :
    R.Rel (Program.comparisonType op a b span) (Program.comparisonType op a b span) :=
  R.ite (R.pure _) (R.fail _ _ (by simp))

theorem callSubstitution [EntryOrder] (callee : Option String) (vs : List TypeVariable) (parameters : Parameters)
    (written types : List Ty) (span : Span) :
    R.Rel (Program.callSubstitution callee vs parameters written types span)
      (Program.callSubstitution callee vs parameters written types span) := by
  unfold Program.callSubstitution
  refine R.ite (R.ite (R.pure _) ?_) (R.ite (R.pure _) (R.fail _ _ (by simp)))
  cases Substitution.infer vs parameters types with
  | ok s => exact R.pure _
  | error e => exact R.fail _ _ (by simp)

theorem requireArguments {p : Program} (arguments : List (NodeId × Ty)) : ∀ parameters : Parameters,
    R.Rel (p.requireArguments parameters arguments) (p.requireArguments parameters arguments) := by
  induction arguments with
  | nil => exact fun parameters => by cases parameters <;> exact R.pure _
  | cons argument rest ih =>
      intro parameters
      cases parameters with
      | variadic _ => exact R.bind (R.requireAssignable _ _ _) fun _ => ih _
      | fixed ps =>
          cases ps with
          | nil => exact R.pure _
          | cons _ _ => exact R.bind (R.requireAssignable _ _ _) fun _ => ih _

/-- The relation holds of what a call comes to once the types of the function and of the arguments are known, where entries
are gone through in the one order and in the other. -/
def Calls (order order' : EntryOrder) : Prop :=
  ∀ (p : Program) (callee : Option String) (vs : List TypeVariable) (parameters : Parameters) (result : Ty)
    (written types : List Ty) (arguments : List (NodeId × Ty)) (span : Span),
    R.Rel (do
      let s ← @Program.callSubstitution m _ _ order callee vs parameters written types span
      Program.requireArguments p (s.applyParameters parameters) arguments
      Pure.pure (s.apply result)) (do
      let s ← @Program.callSubstitution m' _ _ order' callee vs parameters written types span
      Program.requireArguments p (s.applyParameters parameters) arguments
      Pure.pure (s.apply result))

theorem calls [order : EntryOrder] : R.Calls order order := fun _ _ _ _ _ _ _ _ _ =>
  R.bind (R.callSubstitution _ _ _ _ _ _) fun _ => R.bind (R.requireArguments _ _) fun _ => R.pure _

/-! ## Rules that ask -/

section

variable {p : Program} {ask : NodeId → m Ty} {ask' : NodeId → m' Ty}

theorem signatureType {s : Signature} {body : Option FunctionBody}
    (hask : ∀ id ∈ signatureAsks s body, R.Rel (ask id) (ask' id)) :
    R.Rel (Program.signatureType ask s body) (Program.signatureType ask' s body) := by
  unfold Program.signatureType
  unfold signatureAsks at hask
  cases hresult : s.result with
  | some type => exact R.bind (R.pure type) fun _ => R.pure _
  | none =>
      cases body with
      | some body =>
          have hbody : R.Rel (ask body.result) (ask' body.result) := hask _ (by simp [hresult])
          exact R.bind hbody fun _ => R.pure _
      | none => exact R.bind (R.fail _ _ (by simp)) fun _ => R.pure _

theorem bindingType {id : BindingId} (hask : ∀ c ∈ p.bindingAsks id, R.Rel (ask c) (ask' c)) :
    R.Rel (Program.bindingType p ask id) (Program.bindingType p ask' id) := by
  unfold Program.bindingType
  unfold bindingAsks at hask
  cases hbinding : p.binding id with
  | value name span type node =>
      rw [hbinding] at hask
      cases type with
      | some type => exact R.pure _
      | none => exact hask node (by simp)
  | function name span s body =>
      rw [hbinding] at hask
      exact R.signatureType hask
  | parameter name span type => exact R.pure _
  | payload name span scrutinee tag =>
      rw [hbinding] at hask
      refine R.bind (hask scrutinee (by simp)) fun type => ?_
      cases type.tagView?.bind (·.payload? tag) with
      | some payload => exact R.pure _
      | none => exact R.fail _ _ (by simp)

theorem referenceType {name : String} {target : Option Target} {span : Span}
    (hask : ∀ c ∈ target.toList.flatMap p.targetAsks, R.Rel (ask c) (ask' c)) :
    R.Rel (Program.referenceType p ask name target span)
      (Program.referenceType p ask' name target span) := by
  unfold Program.referenceType
  rcases target with _ | target
  · exact R.fail _ _ (by simp)
  cases target with
  | bound id => exact R.bindingType fun c hc => hask c (by simpa [targetAsks, Target.id] using hc)
  | narrowed id tag =>
      exact R.bind (R.bindingType fun c hc => hask c (by simpa [targetAsks, Target.id] using hc)) fun _ => R.pure _
  | nonNull id =>
      exact R.bind (R.bindingType fun c hc => hask c (by simpa [targetAsks, Target.id] using hc)) fun _ => R.pure _
  | enclosing id =>
      simp only
      have hbound : (∀ name span s body, p.binding id ≠ .function name span s body) →
          R.Rel (Program.bindingType p ask id) (Program.bindingType p ask' id) := by
        intro hother
        refine R.bindingType fun c hc => hask c ?_
        simp only [Option.toList_some, List.flatMap_cons, List.flatMap_nil, List.append_nil, targetAsks]
        exact hc
      cases hbinding : p.binding id with
      | function own place s body =>
          simp only
          by_cases hresult : s.result.isSome = true
          · simp only [hresult, if_true]
            exact R.signatureType fun c hc => by simp [signatureAsks, hresult] at hc
          · simp only [hresult, if_false, Bool.false_eq_true]
            exact R.fail _ _ (by simp)
      | _ => exact hbound (by simp [hbinding])

theorem askAll {ids : List NodeId} (hask : ∀ id ∈ ids, R.Rel (ask id) (ask' id)) :
    R.Rel (Program.askAll ask ids) (Program.askAll ask' ids) := by
  induction ids with
  | nil => exact R.pure _
  | cons id rest ih =>
      obtain ⟨hid, hrest⟩ := List.forall_mem_cons.mp hask
      exact R.bind hid fun _ => R.bind (ih hrest) fun _ => R.pure _

theorem objectFields {span : Span} {fields : List (String × NodeId)}
    (hask : ∀ id ∈ fields.map Prod.snd, R.Rel (ask id) (ask' id)) : ∀ done : Fields Ty,
    R.Rel (Program.objectFields ask span done fields) (Program.objectFields ask' span done fields) := by
  induction fields with
  | nil => exact fun done => R.pure _
  | cons field rest ih =>
      obtain ⟨hid, hrest⟩ := List.forall_mem_cons.mp hask
      exact fun done => R.bind hid fun type => R.check (by simp) (ih hrest _)

theorem callType {order order' : EntryOrder} (hcalls : R.Calls order order') {callee : NodeId} {written : List Ty}
    {arguments : List NodeId} {span : Span} (hask : ∀ id ∈ callee :: arguments, R.Rel (ask id) (ask' id)) :
    R.Rel (@Program.callType m _ _ order p ask callee written arguments span)
      (@Program.callType m' _ _ order' p ask' callee written arguments span) := by
  obtain ⟨hcallee, harguments⟩ := List.forall_mem_cons.mp hask
  refine R.bind hcallee fun type => ?_
  cases type with
  | function vs parameters result =>
      refine R.bind (R.askAll harguments) fun types => ?_
      have hrest := fun _ : PUnit.{1} =>
        hcalls p (p.calleeName? callee) vs parameters result written types (arguments.zip types) span
      cases parameters with
      | fixed ps => exact R.ite (R.bind (R.fail _ _ (by simp)) hrest) (hrest ⟨⟩)
      | variadic parameter => exact hrest ⟨⟩
  | _ => exact R.fail _ _ (by simp)

theorem armTypes {view : Ty.TagView} {type : Ty} {arms : List Arm}
    (hask : ∀ id ∈ arms.map (·.body), R.Rel (ask id) (ask' id)) :
    ∀ (seen : List String) (agreed : Option Ty),
      R.Rel (Program.armTypes ask view type seen agreed arms)
        (Program.armTypes ask' view type seen agreed arms) := by
  induction arms with
  | nil => exact fun _ _ => R.pure _
  | cons arm rest ih =>
      obtain ⟨hbody, hrest⟩ := List.forall_mem_cons.mp hask
      intro seen agreed
      refine R.check (by simp) (R.check (by simp) (R.bind hbody fun body => ?_))
      cases agreed with
      | none => exact R.bind (R.pure _) fun next => ih hrest _ _
      | some first =>
          simp only
          cases agreeing? first body with
          | some both => exact R.bind (R.pure _) fun next => ih hrest _ _
          | none => exact R.bind (R.fail _ _ (by simp)) fun next => ih hrest _ _

theorem casesType {scrutinee : NodeId} {arms : List Arm} {span : Span}
    (hask : ∀ id ∈ scrutinee :: arms.map (·.body), R.Rel (ask id) (ask' id)) :
    R.Rel (Program.casesType ask scrutinee arms span)
      (Program.casesType ask' scrutinee arms span) := by
  obtain ⟨hscrutinee, harms⟩ := List.forall_mem_cons.mp hask
  refine R.bind hscrutinee fun type => R.bind (R.requireTagView _ _ _) fun view => ?_
  refine R.bind (R.armTypes harms [] none) fun found => ?_
  obtain ⟨seen, agreed⟩ := found
  refine R.check (by simp) ?_
  cases agreed with
  | some result => exact R.pure _
  | none => exact R.fail _ _ (by simp)

/-- The rule of a node in both monads, if calls and the answers to what it asks for correspond. -/
theorem typeRule_of_calls {order order' : EntryOrder} (hcalls : R.Calls order order') {id : NodeId}
    (hask : ∀ c ∈ p.asks id, R.Rel (ask c) (ask' c)) :
    R.Rel (@Program.typeRule m _ _ order p ask id) (@Program.typeRule m' _ _ order' p ask' id) := by
  unfold Program.typeRule
  unfold asks at hask
  cases hform : (p.node id).form <;> simp only [hform] at hask
  case number | bigInteger | boolean | null => exact R.pure _
  case object fields => exact R.bind (R.objectFields hask []) fun _ => R.pure _
  case arithmetic op lhs rhs =>
    exact R.bind (hask lhs (by simp [children])) fun a =>
      R.bind (hask rhs (by simp [children])) fun b => R.arithmeticType op a b _
  case negate operand =>
    refine R.bind (hask operand (by simp [children])) fun type => ?_
    cases type <;> first | exact R.pure _ | exact R.fail _ _ (by simp)
  case comparison op lhs rhs =>
    exact R.bind (hask lhs (by simp [children])) fun a =>
      R.bind (hask rhs (by simp [children])) fun b => R.comparisonType op a b _
  case logical op lhs rhs =>
    exact R.bind (hask lhs (by simp [children])) fun a =>
      R.bind (hask rhs (by simp [children])) fun b => R.ite (R.pure _) (R.fail _ _ (by simp))
  case not operand =>
    refine R.bind (hask operand (by simp [children])) fun type => ?_
    cases type <;> first | exact R.pure _ | exact R.fail _ _ (by simp)
  case conditional condition thenBranch elseBranch =>
    refine R.bind (hask condition (by simp [children])) fun c => R.check (by simp) ?_
    refine R.bind (hask thenBranch (by simp [children])) fun a =>
      R.bind (hask elseBranch (by simp [children])) fun b => ?_
    cases agreeing? a b with
    | some both => exact R.pure _
    | none => exact R.fail _ _ (by simp)
  case reference name target => exact R.referenceType hask
  case call callee written arguments => exact R.callType hcalls hask
  case lambda s body => exact R.signatureType hask
  case field owner name =>
    refine R.bind (hask owner (by simp [children])) fun type => ?_
    cases type with
    | object fields =>
        simp only
        cases Fields.get? name fields with
        | some type => exact R.pure _
        | none => exact R.fail _ _ (by simp)
    | _ => exact R.fail _ _ (by simp)
  case tagged value tag => exact R.bind (hask value (by simp [children])) fun _ => R.pure _
  case hasTag value tag =>
    exact R.bind (hask value (by simp [children])) fun type =>
      R.bind (R.requireTagView _ _ _) fun view => R.ite (R.pure _) (R.fail _ _ (by simp))
  case untag value =>
    refine R.bind (hask value (by simp [children])) fun type =>
      R.bind (R.requireTagView _ _ _) fun view => ?_
    cases view.pinned with
    | some pinned => exact R.pure _
    | none => exact R.fail _ _ (by simp)
  case cases scrutinee arms => exact R.casesType hask

/-- The rule of a node in both monads, if the answers to what it asks for correspond. -/
theorem typeRule [EntryOrder] {id : NodeId} (hask : ∀ c ∈ p.asks id, R.Rel (ask c) (ask' c)) :
    R.Rel (Program.typeRule p ask id) (Program.typeRule p ask' id) := R.typeRule_of_calls R.calls hask

end

end Correspondence

end Sable.Program
