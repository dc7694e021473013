import Mathlib.Data.List.Forall2
import Sable.Proofs.Lowering.Program
import Sable.Proofs.Program.Behind

/-! Lowering behind declarations.

A moved tree is lowered behind declarations to what it is lowered to by itself, with higher numbers. Only a name that
stands for nothing by itself may stand for one of the declarations. -/
namespace Sable

/-- The node is that of the other program, or a name that is not in scope there. -/
def Node.MayBe (f : Front) (n n' : Node) : Prop := n' = n.behind f ∨ ∃ name, n.form = .reference name none

/-- A draft with what declarations in front of it make. -/
structure Draft.Behind (f : Front) (d d' : Draft) : Prop where
  nodes : List.Forall₂ (Node.MayBe f) d.nodes.toList d'.nodes.toList
  bindings : d'.bindings = f.bindings ++ d.bindings.map (.behind f)
  nextVariable : d'.nextVariable = d.nextVariable + f.typeVariables

/-- What stands for something in a scope does so behind declarations, and types stand for no more. -/
structure Scope.Behind (f : Front) (scope scope' : Scope) : Prop where
  types : ∀ name, scope'.type? name = (scope.type? name).map (.behind f)
  values : ∀ name target, scope.value? name = some target → scope'.value? name = some (target.behind f)

namespace Scope.Behind

variable {f : Front} {scope scope' : Scope}

theorem withValue (h : scope.Behind f scope') (name : String) (target : Target) :
    (scope.withValue name target).Behind f (scope'.withValue name (target.behind f)) := by
  refine ⟨h.types, fun own found hfound => ?_⟩
  simp only [Scope.withValue, value?, valueIn] at hfound ⊢
  split at hfound
  · obtain rfl := Option.some.inj hfound
    simp_all
  · rw [if_neg ‹_›]
    exact h.values own found hfound

theorem withType (h : scope.Behind f scope') (name : String) (meaning : TypeMeaning) :
    (scope.withType name meaning).Behind f (scope'.withType name (meaning.behind f)) := by
  refine ⟨fun own => ?_, h.values⟩
  simp only [Scope.withType, type?, typeIn]
  split
  · rfl
  · exact h.types own

/-- A name that stands for nothing may come to stand for something. -/
theorem withValueOf (h : scope.Behind f scope') {name : String} (hname : scope.value? name = none) (target : Target) :
    scope.Behind f (scope'.withValue name target) := by
  refine ⟨h.types, fun own found hfound => ?_⟩
  have hne : name ≠ own := by
    rintro rfl
    rw [hname] at hfound
    cases hfound
  simp only [Scope.withValue, value?, valueIn, if_neg hne]
  exact h.values own found hfound

end Scope.Behind

namespace Lowering

variable {f : Front} {α β γ δ : Type} {R : α → β → Prop} {S : γ → δ → Prop}

/-- From drafts behind each other, where the one step succeeds the other one does, with a related result, and the
drafts after them are behind each other again. -/
def Leads (f : Front) (R : α → β → Prop) (x : Lowering α) (x' : Lowering β) : Prop :=
  ∀ ⦃d d' : Draft⦄, d.Behind f d' → ∀ ⦃a : α⦄ ⦃e : Draft⦄, x.run d = .ok (a, e) →
    ∃ b e', x'.run d' = .ok (b, e') ∧ e.Behind f e' ∧ R a b

/-- The second result is the image of the first one. -/
def Image (g : α → β) (a : α) (b : β) : Prop := b = g a

namespace Leads

theorem pure {a : α} {b : β} (h : R a b) : Leads f R (Pure.pure a) (Pure.pure b) := by
  intro d d' hd a' e hrun
  cases run_pure_eq_ok.mp hrun
  exact ⟨b, d', rfl, hd, h⟩

theorem fail {fault : TypeFault} {span : Span} {x' : Lowering β} : Leads f R (Lowering.fail fault span) x' :=
  fun _ _ _ _ _ hrun => (run_fail_eq_ok.mp hrun).elim

theorem bind {x : Lowering α} {x' : Lowering β} {rest : α → Lowering γ} {rest' : β → Lowering δ}
    (h : Leads f R x x') (hrest : ∀ a b, R a b → Leads f S (rest a) (rest' b)) :
    Leads f S (x >>= rest) (x' >>= rest') := by
  intro d d' hd c e hrun
  obtain ⟨a, d₁, hx, hrun⟩ := run_bind_eq_ok.mp hrun
  obtain ⟨b, d₁', hx', hd₁, hab⟩ := h hd hx
  obtain ⟨c', e', hrest', he, hc⟩ := hrest a b hab hd₁ hrun
  exact ⟨c', e', run_bind_eq_ok.mpr ⟨b, d₁', hx', hrest'⟩, he, hc⟩

/-- Steps behind the same check. -/
theorem check {c c' : Prop} [Decidable c] [Decidable c'] {fault fault' : TypeFault} {span span' : Span}
    {x : Lowering α} {x' : Lowering β} (hc : c' → c) (h : Leads f R x x') :
    Leads f R (if c then (Lowering.fail fault span : Lowering PUnit) >>= fun _ => x else x)
      (if c' then (Lowering.fail fault' span' : Lowering PUnit) >>= fun _ => x' else x') := by
  intro d d' hd a e hrun
  obtain ⟨hnot, hrun⟩ := run_check_eq_ok.mp hrun
  obtain ⟨b, e', hrun', he, hab⟩ := h hd hrun
  exact ⟨b, e', run_check_eq_ok.mpr ⟨fun h => hnot (hc h), hrun'⟩, he, hab⟩

end Leads

/-! ## Adding to the draft -/

theorem leads_addNode {form form' : Form} {span : Span}
    (h : form' = form.behind f ∨ ∃ name, form = .reference name none) :
    Leads f (Image id) (addNode form span) (addNode form' (span.moved f.shift.offset)) := by
  intro d d' hd a e hrun
  cases run_addNode_eq_ok.mp hrun
  refine ⟨_, _, run_addNode_eq_ok.mpr rfl, ⟨?_, hd.bindings, hd.nextVariable⟩, ?_⟩
  · simp only [Array.toList_push]
    refine List.rel_append hd.nodes (.cons ?_ .nil)
    exact h.imp (fun hform => by rw [hform, Node.behind]) fun hname => hname
  · exact hd.nodes.length_eq.symm

theorem leads_addBinding (b : Binding) :
    Leads f (Image (· + f.bindings.size)) (addBinding b) (addBinding (b.behind f)) := by
  intro d d' hd a e hrun
  cases run_addBinding_eq_ok.mp hrun
  refine ⟨_, _, run_addBinding_eq_ok.mpr rfl, ⟨hd.nodes, ?_, hd.nextVariable⟩, ?_⟩
  · simp [hd.bindings]
  · simp [Image, hd.bindings, Nat.add_comm]

theorem leads_setBinding (id : BindingId) (b : Binding) :
    Leads f (Image fun u => u) (setBinding id b) (setBinding (id + f.bindings.size) (b.behind f)) := by
  intro d d' hd a e hrun
  cases run_setBinding_eq_ok.mp hrun
  refine ⟨_, _, run_setBinding_eq_ok.mpr rfl, ⟨hd.nodes, ?_, hd.nextVariable⟩, rfl⟩
  rw [hd.bindings, Nat.add_comm]
  simp [Array.setIfInBounds_append_right, Array.map_setIfInBounds]

theorem leads_freshVariable (name : String) :
    Leads f (Image (.raised f.typeVariables)) (freshVariable name) (freshVariable name) := by
  intro d d' hd a e hrun
  cases run_freshVariable_eq_ok.mp hrun
  refine ⟨_, _, run_freshVariable_eq_ok.mpr rfl, ⟨hd.nodes, hd.bindings, ?_⟩, ?_⟩
  · simp only [hd.nextVariable, Nat.add_right_comm]
  · simp only [Image, TypeVariable.raised, hd.nextVariable]

/-! ## Types -/

variable {scope scope' : Scope}

theorem leads_lowerGenericsFrom (names : Generics) : ∀ {earlier : List TypeVariable} {scope scope' : Scope},
    scope.Behind f scope' →
      Leads f (fun r r' => r'.1 = r.1.map (.raised f.typeVariables) ∧ r.2.Behind f r'.2)
        (lowerGenericsFrom earlier scope names)
        (lowerGenericsFrom (earlier.map (.raised f.typeVariables)) scope' (names.moved f.shift)) := by
  induction names with
  | nil => exact fun hscope => .pure ⟨rfl, hscope⟩
  | cons g rest ih =>
      intro earlier scope scope' hscope
      simp only [Generics.moved, List.map_cons, lowerGenericsFrom]
      refine .check (fun hany => ?_) ?_
      · rwa [List.any_map] at hany
      · refine (leads_freshVariable g.value).bind ?_
        rintro v _ rfl
        have hrest := @ih (earlier ++ [v]) _ _ (hscope.withType g.value (.variable v))
        rwa [List.map_append] at hrest

theorem leads_lowerGenerics (hscope : scope.Behind f scope') (names : Generics) :
    Leads f (fun r r' => r'.1 = r.1.map (.raised f.typeVariables) ∧ r.2.Behind f r'.2)
      (lowerGenerics scope names) (lowerGenerics scope' (names.moved f.shift)) :=
  leads_lowerGenericsFrom names hscope

theorem leads_resolveType (hscope : scope.Behind f scope') (name : String) (types : List Ty) (span span' : Span) :
    Leads f (Image (.raised f.typeVariables)) (resolveType scope name types span)
      (resolveType scope' name (types.map (.raised f.typeVariables)) span') := by
  unfold resolveType
  rw [hscope.types]
  match scope.type? name with
  | none => exact .fail
  | some (.variable v) =>
      simp only [Option.map_some, TypeMeaning.behind, List.isEmpty_map]
      split
      · exact .pure rfl
      · exact .fail
  | some (.constructor c) =>
      match types with
      | [] => exact .fail
      | [element] => cases c <;> exact .pure rfl
      | _ :: _ :: _ => exact .fail
  | some (.alias parameters target) =>
      simp only [Option.map_some, TypeMeaning.behind, List.length_map]
      split
      · exact .pure (by rw [Image, Substitution.ofList_zip_raised, Substitution.apply_raised])
      · exact .fail

mutual

theorem leads_lowerType : ∀ (t : TypeExpr) {scope scope' : Scope}, scope.Behind f scope' →
    Leads f (Image (.raised f.typeVariables)) (lowerType scope t) (lowerType scope' (t.moved f.shift))
  | .named site name arguments, _, _, hscope => by
      refine (leads_lowerTypes arguments hscope).bind ?_
      rintro types _ rfl
      exact leads_resolveType hscope name types _ _
  | .object site fields, _, _, hscope => by
      refine (leads_lowerTypeFields fields hscope).bind ?_
      rintro found _ rfl
      exact .pure rfl
  | .function site names ps result, _, _, hscope => by
      refine (leads_lowerGenerics hscope names).bind ?_
      rintro ⟨vs, inner⟩ ⟨_, inner'⟩ ⟨rfl, hinner⟩
      refine (leads_lowerParameters ps hinner).bind ?_
      rintro parameters _ rfl
      refine (leads_lowerType result hinner).bind ?_
      rintro type _ rfl
      exact .pure rfl
  | .nullable site inner, _, _, hscope => by
      refine (leads_lowerType inner hscope).bind ?_
      rintro type _ rfl
      exact .pure (Ty.orNull_raised _ type)

theorem leads_lowerTypes : ∀ (ts : List TypeExpr) {scope scope' : Scope}, scope.Behind f scope' →
    Leads f (Image (List.map (.raised f.typeVariables))) (lowerTypes scope ts)
      (lowerTypes scope' (TypeExpr.movedEach f.shift ts))
  | [], _, _, _ => .pure rfl
  | t :: rest, _, _, hscope => by
      refine (leads_lowerType t hscope).bind ?_
      rintro type _ rfl
      refine (leads_lowerTypes rest hscope).bind ?_
      rintro types _ rfl
      exact .pure rfl

theorem leads_lowerTypeFields : ∀ (fields : List (String × TypeExpr)) {scope scope' : Scope} {span span' : Span}
    {done : Fields Ty}, scope.Behind f scope' →
      Leads f (Image (Ty.raisedFields f.typeVariables)) (lowerTypeFields scope span done fields)
        (lowerTypeFields scope' span' (Ty.raisedFields f.typeVariables done) (TypeExpr.movedFields f.shift fields))
  | [], _, _, _, _, _, _ => .pure rfl
  | (name, t) :: rest, _, _, _, _, _, hscope => by
      simp only [TypeExpr.movedFields, lowerTypeFields]
      refine (leads_lowerType t hscope).bind ?_
      rintro type _ rfl
      refine .check (fun hdone => ?_) ?_
      · rwa [Ty.contains_raisedFields] at hdone
      · rw [Ty.insert_raisedFields]
        exact leads_lowerTypeFields rest hscope

theorem leads_lowerParameters : ∀ (ps : ParameterList (Parameter TypeExpr)) {scope scope' : Scope},
    scope.Behind f scope' → Leads f (Image (Ty.raisedParameters f.typeVariables)) (lowerParameters scope ps)
      (lowerParameters scope' (TypeExpr.movedParameters f.shift ps))
  | .fixed ps, _, _, hscope => by
      refine (leads_lowerEachParameter ps hscope).bind ?_
      rintro found _ rfl
      exact .pure rfl
  | .variadic ⟨name, t, span⟩, _, _, hscope => by
      refine (leads_lowerType t hscope).bind ?_
      rintro type _ rfl
      exact .pure rfl

theorem leads_lowerEachParameter : ∀ (ps : List (Parameter TypeExpr)) {scope scope' : Scope},
    scope.Behind f scope' → Leads f (Image (Ty.raisedFields f.typeVariables)) (lowerEachParameter scope ps)
      (lowerEachParameter scope' (TypeExpr.movedEachParameter f.shift ps))
  | [], _, _, _ => .pure rfl
  | ⟨name, t, span⟩ :: rest, _, _, hscope => by
      refine (leads_lowerType t hscope).bind ?_
      rintro type _ rfl
      refine (leads_lowerEachParameter rest hscope).bind ?_
      rintro found _ rfl
      exact .pure rfl

end

theorem leads_lowerType? (hscope : scope.Behind f scope') (t : Option TypeExpr) :
    Leads f (Image (Option.map (.raised f.typeVariables))) (lowerType? scope t)
      (lowerType? scope' (t.map (TypeExpr.moved f.shift))) := by
  cases t with
  | none => exact .pure rfl
  | some t =>
      refine (leads_lowerType t hscope).bind ?_
      rintro type _ rfl
      exact .pure rfl

theorem leads_lowerAlternatives (hscope : scope.Behind f scope') {union : String} (alternatives : List Alternative) :
    ∀ {done : Fields Ty}, Leads f (Image (Ty.raisedFields f.typeVariables))
      (lowerAlternatives scope union done alternatives)
      (lowerAlternatives scope' union (Ty.raisedFields f.typeVariables done) (alternatives.map (.moved f.shift))) := by
  induction alternatives with
  | nil =>
      intro done
      exact .pure rfl
  | cons a rest ih =>
      obtain ⟨tag, payload, span⟩ := a
      intro done
      simp only [List.map_cons, Alternative.moved, lowerAlternatives]
      refine (leads_lowerType payload hscope).bind ?_
      rintro type _ rfl
      refine .check (fun hdone => ?_) ?_
      · rwa [Ty.contains_raisedFields] at hdone
      · rw [Ty.insert_raisedFields]
        exact ih

/-! ## Parameters -/

theorem leads_addParameters (ps : List (String × Ty)) : ∀ spans : List Span,
    Leads f (Image (List.map (· + f.bindings.size))) (addParameters ps spans)
      (addParameters (Ty.raisedFields f.typeVariables ps) (spans.map (.moved f.shift.offset))) := by
  induction ps with
  | nil => exact fun spans => .pure rfl
  | cons q rest ih =>
      intro spans
      cases spans with
      | nil => exact .pure rfl
      | cons span spans =>
          refine (leads_addBinding (.parameter q.1 span q.2)).bind ?_
          rintro id _ rfl
          refine (ih spans).bind ?_
          rintro ids _ rfl
          exact .pure rfl

theorem leads_lowerSignatureParameters (hscope : scope.Behind f scope') (ps : ParameterList (Parameter TypeExpr)) :
    Leads f (Image fun r => (Ty.raisedParameters f.typeVariables r.1, r.2.map (· + f.bindings.size)))
      (lowerSignatureParameters scope ps)
      (lowerSignatureParameters scope' (ps.map (Parameter.moved f.shift (TypeExpr.moved f.shift)))) := by
  have hspans : (ps.map (Parameter.moved f.shift (TypeExpr.moved f.shift))).toList.map (·.span) =
      (ps.toList.map (·.span)).map (.moved f.shift.offset) := by
    cases ps with
    | fixed ps =>
        simp only [ParameterList.map, ParameterList.toList, List.map_map]
        rfl
    | variadic p => rfl
  unfold lowerSignatureParameters
  rw [← TypeExpr.movedParameters_eq_map]
  refine (leads_lowerParameters ps hscope).bind ?_
  rintro arguments _ rfl
  rw [TypeExpr.movedParameters_eq_map, hspans]
  cases arguments with
  | fixed list =>
      refine (leads_addParameters list _).bind ?_
      rintro ids _ rfl
      exact .pure rfl
  | variadic q =>
      refine (leads_addParameters [(q.1, .list q.2)] _).bind ?_
      rintro ids _ rfl
      exact .pure rfl

theorem Scope.Behind.bindAll {bindings : Array Binding} (hscope : scope.Behind f scope') (ids : List BindingId) :
    (Lowering.bindAll bindings scope ids).Behind f
      (Lowering.bindAll (f.bindings ++ bindings.map (.behind f)) scope' (ids.map (· + f.bindings.size))) := by
  induction ids generalizing scope scope' with
  | nil => exact hscope
  | cons id rest ih =>
      have hget : (f.bindings ++ bindings.map (.behind f))[id + f.bindings.size]? =
          (bindings[id]?).map (.behind f) := by
        rw [Array.getElem?_append_right (Nat.le_add_left _ _), Nat.add_sub_cancel, Array.getElem?_map]
      simp only [Lowering.bindAll, List.map_cons, List.foldl_cons, hget]
      cases bindings[id]? with
      | none => exact ih hscope
      | some b =>
          refine ih ?_
          simp only [Option.map_some, Binding.name_behind]
          exact hscope.withValue b.name (.bound id)

theorem leads_bindParameters (hscope : scope.Behind f scope') (ids : List BindingId) :
    Leads f (Scope.Behind f) (bindParameters scope ids) (bindParameters scope' (ids.map (· + f.bindings.size))) := by
  intro d d' hd inside e hrun
  cases Except.ok.inj hrun
  refine ⟨_, d', rfl, hd, ?_⟩
  rw [hd.bindings]
  exact Scope.Behind.bindAll hscope ids

/-! ## What conditions tell -/

theorem behind_narrowedScope (hscope : scope.Behind f scope') (subject : Expr) (tag : String) :
    (narrowedScope scope subject tag).Behind f (narrowedScope scope' (subject.moved f.shift) tag) := by
  cases subject with
  | reference site name =>
      simp only [Expr.moved, narrowedScope]
      cases hname : scope.value? name with
      | none =>
          simp only
          split
          · exact hscope.withValueOf hname _
          · exact hscope.withValueOf hname _
          · exact hscope
      | some target =>
          rw [hscope.values name target hname]
          cases target with
          | bound id | narrowed id _ => exact hscope.withValue name (.narrowed id tag)
          | enclosing id | nonNull id => exact hscope
  | _ => exact hscope

theorem behind_nonNullScope (hscope : scope.Behind f scope') (subject : Expr) :
    (nonNullScope scope subject).Behind f (nonNullScope scope' (subject.moved f.shift)) := by
  cases subject with
  | reference site name =>
      simp only [Expr.moved, nonNullScope]
      cases hname : scope.value? name with
      | none =>
          simp only
          split
          · exact hscope.withValueOf hname _
          · exact hscope.withValueOf hname _
          · exact hscope
      | some target =>
          rw [hscope.values name target hname]
          cases target with
          | bound id | nonNull id => exact hscope.withValue name (.nonNull id)
          | enclosing id | narrowed id _ => exact hscope
  | _ => exact hscope

theorem behind_branchScopes (hscope : scope.Behind f scope') (condition : Expr) :
    (branchScopes scope condition).1.Behind f (branchScopes scope' (condition.moved f.shift)).1 ∧
      (branchScopes scope condition).2.Behind f (branchScopes scope' (condition.moved f.shift)).2 := by
  cases condition with
  | hasTag site value tag => exact ⟨behind_narrowedScope hscope value tag, hscope⟩
  | binary site op lhs rhs =>
      cases op with
      | comparison op =>
          cases op with
          | equal =>
              have hlhs := behind_nonNullScope hscope lhs
              have hrhs := behind_nonNullScope hscope rhs
              cases rhs with
              | null _ => exact ⟨hscope, hlhs⟩
              | _ =>
                  cases lhs with
                  | null _ => exact ⟨hscope, hrhs⟩
                  | _ => exact ⟨hscope, hscope⟩
          | _ => exact ⟨hscope, hscope⟩
      | _ => exact ⟨hscope, hscope⟩
  | _ => exact ⟨hscope, hscope⟩

/-! ## Expressions -/

theorem leads_addNode_behind {form : Form} {span : Span} :
    Leads f (Image id) (addNode form span) (addNode (form.behind f) (span.moved f.shift.offset)) :=
  leads_addNode (.inl rfl)

theorem behind_binaryForm (op : BinaryOp) (l r : NodeId) : (binaryForm op l r).behind f = binaryForm op l r := by
  cases op <;> rfl

theorem behind_unaryForm (op : UnaryOp) (e : NodeId) : (unaryForm op e).behind f = unaryForm op e := by
  cases op <;> rfl

mutual

theorem leads_lowerExpr : ∀ (e : Expr) {scope scope' : Scope}, scope.Behind f scope' →
    Leads f (Image id) (lowerExpr scope e) (lowerExpr scope' (e.moved f.shift))
  | .number _ _, _, _, _ | .bigInteger _ _, _, _, _ | .boolean _ _, _, _, _ | .null _, _, _, _ =>
      leads_addNode_behind
  | .object _ fields, _, _, hscope => by
      refine (leads_lowerFields fields hscope).bind ?_
      rintro found _ rfl
      exact leads_addNode_behind
  | .reference site name, scope, _, hscope => by
      refine leads_addNode ?_
      cases hname : scope.value? name with
      | none => exact .inr ⟨name, rfl⟩
      | some target => exact .inl (by rw [hscope.values name target hname]; rfl)
  | .binary _ op lhs rhs, _, _, hscope => by
      refine (leads_lowerExpr lhs hscope).bind ?_
      rintro _ l rfl
      refine (leads_lowerExpr rhs hscope).bind ?_
      rintro _ r rfl
      exact leads_addNode (.inl (behind_binaryForm op l r).symm)
  | .unary _ op operand, _, _, hscope => by
      refine (leads_lowerExpr operand hscope).bind ?_
      rintro _ e rfl
      exact leads_addNode (.inl (behind_unaryForm op e).symm)
  | .conditional _ condition thenBranch elseBranch, _, _, hscope => by
      obtain ⟨hthen, helse⟩ := behind_branchScopes hscope condition
      refine (leads_lowerExpr condition hscope).bind ?_
      rintro c _ rfl
      refine (leads_lowerExpr thenBranch hthen).bind ?_
      rintro t _ rfl
      refine (leads_lowerExpr elseBranch helse).bind ?_
      rintro e _ rfl
      exact leads_addNode_behind
  | .call _ callee types arguments, _, _, hscope => by
      refine (leads_lowerExpr callee hscope).bind ?_
      rintro g _ rfl
      rw [← TypeExpr.movedEach_eq_map]
      refine (leads_lowerTypes types hscope).bind ?_
      rintro types _ rfl
      refine (leads_lowerExprs arguments hscope).bind ?_
      rintro arguments _ rfl
      exact leads_addNode_behind
  | .lambda _ names ps result body, _, _, hscope => by
      refine (leads_lowerGenerics hscope names).bind ?_
      rintro ⟨vs, inner⟩ ⟨_, inner'⟩ ⟨rfl, hinner⟩
      refine (leads_lowerSignatureParameters hinner ps).bind ?_
      rintro ⟨arguments, parameters⟩ _ rfl
      refine (leads_lowerType? hinner result).bind ?_
      rintro result _ rfl
      refine (leads_bindParameters hinner parameters).bind fun inside inside' hinside => ?_
      refine (leads_lowerExpr body hinside).bind ?_
      rintro value _ rfl
      exact leads_addNode_behind
  | .field _ owner name, _, _, hscope => by
      refine (leads_lowerExpr owner hscope).bind ?_
      rintro e _ rfl
      exact leads_addNode_behind
  | .tagged _ value tag, _, _, hscope | .hasTag _ value tag, _, _, hscope => by
      refine (leads_lowerExpr value hscope).bind ?_
      rintro e _ rfl
      exact leads_addNode_behind
  | .untag _ value, _, _, hscope => by
      refine (leads_lowerExpr value hscope).bind ?_
      rintro e _ rfl
      exact leads_addNode_behind
  | .cases _ scrutinee arms, _, _, hscope => by
      refine (leads_lowerExpr scrutinee hscope).bind ?_
      rintro e _ rfl
      refine (leads_lowerArms arms hscope).bind ?_
      rintro arms _ rfl
      exact leads_addNode_behind

theorem leads_lowerExprs : ∀ (es : List Expr) {scope scope' : Scope}, scope.Behind f scope' →
    Leads f (Image id) (lowerExprs scope es) (lowerExprs scope' (Expr.movedEach f.shift es))
  | [], _, _, _ => .pure rfl
  | e :: rest, _, _, hscope => by
      refine (leads_lowerExpr e hscope).bind ?_
      rintro id _ rfl
      refine (leads_lowerExprs rest hscope).bind ?_
      rintro ids _ rfl
      exact .pure rfl

theorem leads_lowerFields : ∀ (fields : List (FieldInit Expr)) {scope scope' : Scope}, scope.Behind f scope' →
    Leads f (Image id) (lowerFields scope fields) (lowerFields scope' (Expr.movedFields f.shift fields))
  | [], _, _, _ => .pure rfl
  | ⟨name, value, span⟩ :: rest, _, _, hscope => by
      refine (leads_lowerExpr value hscope).bind ?_
      rintro id _ rfl
      refine (leads_lowerFields rest hscope).bind ?_
      rintro found _ rfl
      exact .pure rfl

theorem leads_lowerArms : ∀ (arms : List (MatchArm Expr)) {scope scope' : Scope} {subject : Expr}
    {scrutinee : NodeId}, scope.Behind f scope' → Leads f (Image (List.map (.behind f)))
      (lowerArms scope subject scrutinee arms)
      (lowerArms scope' (subject.moved f.shift) scrutinee (Expr.movedArms f.shift arms))
  | [], _, _, _, _, _ => .pure rfl
  | ⟨tag, name, body, span⟩ :: rest, _, _, subject, scrutinee, hscope => by
      refine (leads_addBinding (.payload name.value name.span scrutinee tag.value)).bind ?_
      rintro id _ rfl
      have hinside := (behind_narrowedScope hscope subject tag.value).withValue name.value (.bound id)
      refine (leads_lowerExpr body hinside).bind ?_
      rintro value _ rfl
      refine (leads_lowerArms rest hscope).bind ?_
      rintro found _ rfl
      exact .pure rfl

end

/-! ## Declarations and bodies -/

mutual

theorem leads_lowerDeclaration : ∀ (d : Declaration) {scope scope' : Scope}, scope.Behind f scope' →
    Leads f (fun r r' => r'.1 = r.1.map (· + f.bindings.size) ∧ r.2.Behind f r'.2) (lowerDeclaration scope d)
      (lowerDeclaration scope' (d.moved f.shift))
  | .value span name type value, _, _, hscope => by
      refine (leads_lowerType? hscope type).bind ?_
      rintro type _ rfl
      refine (leads_lowerExpr value hscope).bind ?_
      rintro _ node rfl
      refine (leads_addBinding (.value name.value span type node)).bind ?_
      rintro id _ rfl
      exact .pure ⟨rfl, hscope.withValue name.value (.bound id)⟩
  | .function span name names ps result body, _, _, hscope => by
      refine (leads_lowerGenerics hscope names).bind ?_
      rintro ⟨vs, inner⟩ ⟨_, inner'⟩ ⟨rfl, hinner⟩
      refine (leads_lowerSignatureParameters hinner ps).bind ?_
      rintro ⟨arguments, parameters⟩ _ rfl
      refine (leads_lowerType? hinner result).bind ?_
      rintro result _ rfl
      refine (leads_addBinding (.function name.value span ⟨vs, arguments, parameters, result⟩ none)).bind ?_
      rintro id _ rfl
      refine (leads_bindParameters (hinner.withValue name.value (.enclosing id)) parameters).bind
        fun inside inside' hinside => ?_
      refine (leads_lowerBody body hinside).bind ?_
      rintro body _ rfl
      refine (leads_setBinding id (.function name.value span ⟨vs, arguments, parameters, result⟩ (some body))).bind ?_
      rintro _ _ rfl
      exact .pure ⟨rfl, hscope.withValue name.value (.bound id)⟩
  | .external span name names ps result, _, _, hscope => by
      refine (leads_lowerGenerics hscope names).bind ?_
      rintro ⟨vs, inner⟩ ⟨_, inner'⟩ ⟨rfl, hinner⟩
      refine (leads_lowerSignatureParameters hinner ps).bind ?_
      rintro ⟨arguments, parameters⟩ _ rfl
      refine (leads_lowerType result hinner).bind ?_
      rintro result _ rfl
      refine (leads_addBinding (.function name.value span ⟨vs, arguments, parameters, some result⟩ none)).bind ?_
      rintro id _ rfl
      exact .pure ⟨rfl, hscope.withValue name.value (.bound id)⟩
  | .alias _ name names target, _, _, hscope => by
      refine (leads_lowerGenerics hscope names).bind ?_
      rintro ⟨vs, inner⟩ ⟨_, inner'⟩ ⟨rfl, hinner⟩
      refine (leads_lowerType target hinner).bind ?_
      rintro target _ rfl
      exact .pure ⟨rfl, hscope.withType name.value (.alias vs target)⟩
  | .union _ name names alternatives, _, _, hscope => by
      refine (leads_lowerGenerics hscope names).bind ?_
      rintro ⟨vs, inner⟩ ⟨_, inner'⟩ ⟨rfl, hinner⟩
      refine (leads_lowerAlternatives hinner alternatives).bind ?_
      rintro fields _ rfl
      exact .pure ⟨rfl, hscope.withType name.value (.alias vs (.union fields none))⟩

theorem leads_lowerDeclarations : ∀ (ds : List Declaration) {scope scope' : Scope}, scope.Behind f scope' →
    Leads f (fun r r' => r'.1 = r.1.map (· + f.bindings.size) ∧ r.2.Behind f r'.2) (lowerDeclarations scope ds)
      (lowerDeclarations scope' (Declaration.movedEach f.shift ds))
  | [], _, _, hscope => .pure ⟨rfl, hscope⟩
  | d :: rest, _, _, hscope => by
      refine (leads_lowerDeclaration d hscope).bind ?_
      rintro ⟨id, next⟩ ⟨_, next'⟩ ⟨rfl, hnext⟩
      refine (leads_lowerDeclarations rest hnext).bind ?_
      rintro ⟨ids, last⟩ ⟨_, last'⟩ ⟨rfl, hlast⟩
      refine .pure ⟨?_, hlast⟩
      cases id <;> simp

theorem leads_lowerBody : ∀ (body : Body) {scope scope' : Scope}, scope.Behind f scope' →
    Leads f (Image (.behind f)) (lowerBody scope body) (lowerBody scope' (body.moved f.shift))
  | .mk declarations result span, _, _, hscope => by
      refine (leads_lowerDeclarations declarations hscope).bind ?_
      rintro ⟨ids, inside⟩ ⟨_, inside'⟩ ⟨rfl, hinside⟩
      refine (leads_lowerExpr result hinside).bind ?_
      rintro node _ rfl
      exact .pure rfl

end

/-- Declarations behind others are lowered in the scope after those. -/
theorem run_lowerDeclarations_append {ds rest : List Declaration} {scope last : Scope} {d e : Draft}
    {ids : List BindingId} : (lowerDeclarations scope (ds ++ rest)).run d = .ok ((ids, last), e) ↔
      ∃ ids₁ mid d₁ ids₂, (lowerDeclarations scope ds).run d = .ok ((ids₁, mid), d₁) ∧
        (lowerDeclarations mid rest).run d₁ = .ok ((ids₂, last), e) ∧ ids = ids₁ ++ ids₂ := by
  induction ds generalizing scope d ids with
  | nil =>
      constructor
      · exact fun h => ⟨[], scope, d, ids, rfl, h, rfl⟩
      · rintro ⟨ids₁, mid, d₁, ids₂, h, hrest, rfl⟩
        cases run_pure_eq_ok.mp h
        exact hrest
  | cons declaration ds ih =>
      simp only [List.cons_append, lowerDeclarations, run_bind_eq_ok, Prod.exists, run_pure_eq_ok, Prod.mk.injEq]
      constructor
      · rintro ⟨id, next, d₁, hfirst, _, _, _, h, ⟨rfl, rfl⟩, rfl⟩
        obtain ⟨ids₁, mid, d₂, ids₂, hds, hrest, rfl⟩ := ih.mp h
        exact ⟨_, mid, d₂, ids₂, ⟨id, next, d₁, hfirst, ids₁, mid, d₂, hds, ⟨rfl, rfl⟩, rfl⟩, hrest,
          (List.append_assoc ..).symm⟩
      · rintro ⟨_, _, _, ids₂, ⟨id, next, d₁, hfirst, ids₁, _, _, hds, ⟨rfl, rfl⟩, rfl⟩, hrest, rfl⟩
        exact ⟨id, next, d₁, hfirst, ids₁ ++ ids₂, last, e, ih.mpr ⟨ids₁, _, _, ids₂, hds, hrest, rfl⟩,
          ⟨List.append_assoc .., rfl⟩, rfl⟩

end Lowering

namespace Program

open Lowering

variable {f : Front} {p : Program}

/-- A program without names that are not in scope is the only one that its nodes may be. -/
theorem map_behind_of_mayBe {nodes nodes' : List Node} (h : List.Forall₂ (Node.MayBe f) nodes nodes')
    (hnames : ∀ n ∈ nodes, ∀ name, n.form ≠ .reference name none) : nodes' = nodes.map (.behind f) := by
  induction h with
  | nil => rfl
  | cons hnode _ ih =>
      obtain ⟨hown, hrest⟩ := List.forall_mem_cons.mp hnames
      rw [List.map_cons, ← ih hrest]
      rcases hnode with rfl | ⟨name, hname⟩
      · rfl
      · exact absurd hname (hown name)

/-- A tree behind declarations becomes the program behind them, if all names are in scope in the program. -/
theorem ofTree_append {ds declarations : List Declaration} {result : Expr} {span span' : Span}
    {nodes nodes' : Nodes} {scope : Scope} (hfront : (lowerDeclarations .root ds).run ⟨#[], #[], 0⟩ =
      .ok ((f.declared, scope), ⟨#[], f.bindings, f.typeVariables⟩)) (hscope : Scope.root.Behind f scope)
    (h : ofTree ⟨.mk declarations result span, nodes⟩ = .ok p)
    (hnames : ∀ id < p.nodes.size, ∀ name, (p.node id).form ≠ .reference name none) :
    ofTree ⟨.mk (ds ++ declarations.map (.moved f.shift)) (result.moved f.shift) span', nodes'⟩ =
      .ok (p.behind f) := by
  obtain ⟨d, hrun, hnodes, hbindings⟩ := lowerBody_of_ofTree h
  obtain ⟨⟨ids, inside⟩, d₁, hdeclarations, hrun⟩ := run_bind_eq_ok.mp hrun
  obtain ⟨node, d₂, hnode, hrun⟩ := run_bind_eq_ok.mp hrun
  obtain ⟨hbody, rfl⟩ := Prod.mk.inj (run_pure_eq_ok.mp hrun)
  have hstart : Draft.Behind f ⟨#[], #[], 0⟩ ⟨#[], f.bindings, f.typeVariables⟩ := ⟨.nil, by simp, by simp⟩
  obtain ⟨⟨_, inside'⟩, e₁, hdeclarations', he₁, rfl, hinside⟩ :=
    leads_lowerDeclarations declarations hscope hstart hdeclarations
  obtain ⟨_, e, hnode', he, rfl⟩ := leads_lowerExpr result hinside he₁ hnode
  have happend := run_lowerDeclarations_append.mpr ⟨_, _, _, _, hfront, hdeclarations', rfl⟩
  have hnodes' : e.nodes = p.nodes.map (.behind f) := by
    have hnames' : ∀ n ∈ p.nodes.toList, ∀ name, n.form ≠ .reference name none := by
      intro n hn
      obtain ⟨id, hid, rfl⟩ := List.getElem_of_mem hn
      have hnode : p.node id = p.nodes.toList[id] := by
        simp [Program.node, show id < p.nodes.size from hid]
      exact hnode ▸ hnames id hid
    exact Array.toList_inj.mp ((map_behind_of_mayBe (hnodes ▸ he.nodes) hnames').trans Array.toList_map.symm)
  have hall : (lowerBody .root (.mk (ds ++ declarations.map (.moved f.shift)) (result.moved f.shift) span')).run
      ⟨#[], #[], 0⟩ = .ok ((p.behind f).body, e) := by
    rw [← Declaration.movedEach_eq_map]
    refine run_bind_eq_ok.mpr ⟨_, e₁, happend, run_bind_eq_ok.mpr ⟨_, e, hnode', ?_⟩⟩
    rw [behind, hbody]
    rfl
  rw [ofTree, hall]
  refine congrArg Except.ok (show Program.mk e.nodes e.bindings _ = p.behind f from ?_)
  rw [hnodes', he.bindings, ← hbindings]
  rfl

end Program

end Sable
