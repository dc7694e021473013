import Sable.Proofs.Lowering.Scopes

/-! Every program that is lowered from a tree is well-scoped. -/
namespace Sable

namespace Lowering

open Program (TypeScoped)

variable {p : Program} {plain : Prop} {native : String → Signature → Prop} {vs : List TypeVariable}
  {scope : Scope}

/-! ## Names from conditions -/

/-- Forms that tell nothing of a name. -/
def Mute : Form → Prop
  | .reference .. | .null | .hasTag .. | .comparison .. => False
  | _ => True

/-- What a node shows of the expression that it was made from, as far as conditions look into it. -/
def Shows (p : Program) (names : Names) : Expr → NodeId → Prop
  | .reference _ name, id => (p.node id).form = .reference name (Fields.get? name names)
  | .null _, id => (p.node id).form = .null
  | .hasTag _ value tag, id => ∃ v, (p.node id).form = .hasTag v tag ∧ Shows p names value v
  | .binary _ op lhs rhs, id => ∃ l r, (p.node id).form = binaryForm op l r ∧
    Shows p names lhs l ∧ Shows p names rhs r
  | _, id => Mute (p.node id).form

theorem Shows.form_ne_reference {names : Names} {e : Expr} {id : NodeId} (h : Shows p names e id)
    (he : ∀ site name, e ≠ .reference site name) (name : String) (target : Option Target) :
    (p.node id).form ≠ .reference name target := by
  intro hform
  cases e with
  | reference site own => exact he site own rfl
  | null _ => simp [Shows, hform] at h
  | hasTag _ _ _ => simp [Shows, hform] at h
  | binary _ op _ _ =>
      obtain ⟨l, r, hbinary, -⟩ := h
      rw [hform] at hbinary
      cases op <;> cases hbinary
  | _ => simp [Shows, hform, Mute] at h

theorem Shows.form_eq_null_iff {names : Names} {e : Expr} {id : NodeId} (h : Shows p names e id) :
    (p.node id).form = .null ↔ ∃ site, e = .null site := by
  constructor
  · intro hform
    cases e with
    | null site => exact ⟨site, rfl⟩
    | reference _ _ => simp [Shows, hform] at h
    | hasTag _ _ _ => simp [Shows, hform] at h
    | binary _ op _ _ =>
        obtain ⟨l, r, hbinary, -⟩ := h
        rw [hform] at hbinary
        cases op <;> cases hbinary
    | _ => simp [Shows, hform, Mute] at h
  · rintro ⟨site, rfl⟩
    exact h

theorem narrowedNames_eq {subject : Expr} {id : NodeId} (h : Shows p scope.names subject id)
    (tag : String) : p.narrowedNames scope.names id tag = (narrowedScope scope subject tag).names := by
  by_cases hsubject : ∃ site name, subject = .reference site name
  · obtain ⟨site, name, rfl⟩ := hsubject
    simp only [Shows] at h
    simp only [Program.narrowedNames, h, narrowedScope, scope.value?_eq]
    split <;> simp_all
  · have hne := h.form_ne_reference fun site name heq => hsubject ⟨site, name, heq⟩
    have hscope : narrowedScope scope subject tag = scope := by
      cases subject <;> first | rfl | exact absurd ⟨_, _, rfl⟩ hsubject
    rw [hscope, Program.narrowedNames]
    split
    · exact absurd ‹_› (hne _ _)
    · rfl

theorem nonNullNames_eq {subject : Expr} {id : NodeId} (h : Shows p scope.names subject id) :
    p.nonNullNames scope.names id = (nonNullScope scope subject).names := by
  by_cases hsubject : ∃ site name, subject = .reference site name
  · obtain ⟨site, name, rfl⟩ := hsubject
    simp only [Shows] at h
    simp only [Program.nonNullNames, h, nonNullScope, scope.value?_eq]
    split <;> simp_all
  · have hne := h.form_ne_reference fun site name heq => hsubject ⟨site, name, heq⟩
    have hscope : nonNullScope scope subject = scope := by
      cases subject <;> first | rfl | exact absurd ⟨_, _, rfl⟩ hsubject
    rw [hscope, Program.nonNullNames]
    split
    · exact absurd ‹_› (hne _ _)
    · rfl

/-- The names in the branches under a condition are those of the scopes of the branches. -/
theorem branchNames_eq {condition : Expr} {id : NodeId} (h : Shows p scope.names condition id) :
    p.branchNames scope.names id =
      ((branchScopes scope condition).1.names, (branchScopes scope condition).2.names) := by
  cases condition with
  | hasTag site value tag =>
      obtain ⟨v, hform, hv⟩ := h
      simp only [Program.branchNames, hform, branchScopes, narrowedNames_eq hv]
  | binary site op lhs rhs =>
      obtain ⟨l, r, hform, hl, hr⟩ := h
      cases op with
      | arithmetic _ | logical _ =>
          simp only [Program.branchNames, hform, binaryForm, branchScopes]
      | comparison op =>
          cases op with
          | less | greater => simp only [Program.branchNames, hform, binaryForm, branchScopes]
          | equal =>
              have hlnull := hl.form_eq_null_iff
              have hrnull := hr.form_eq_null_iff
              simp only [Program.branchNames, hform, binaryForm, branchScopes]
              by_cases hrhs : ∃ site, rhs = .null site
              · simp only [hrnull.mpr hrhs, nonNullNames_eq hl]
                obtain ⟨site, rfl⟩ := hrhs
                rfl
              · have hrform := fun h => hrhs (hrnull.mp h)
                by_cases hlhs : ∃ site, lhs = .null site
                · simp only [hlnull.mpr hlhs, nonNullNames_eq hr]
                  obtain ⟨site, rfl⟩ := hlhs
                  split <;> simp_all
                · have hlform := fun h => hlhs (hlnull.mp h)
                  split <;> split <;> simp_all
  | reference _ _ | null _ =>
      simp only [Shows] at h
      simp only [Program.branchNames, h, branchScopes]
  | _ =>
      simp only [Shows, Mute] at h
      simp only [Program.branchNames, branchScopes]
      split <;> simp_all

theorem ScopeSound.narrowed {next : Nat} (h : ScopeSound plain vs next scope) (subject : Expr)
    (tag : String) : ScopeSound plain vs next (narrowedScope scope subject tag) := by
  unfold narrowedScope
  split
  · split
    · exact h.withValue _ _
    · exact h.withValue _ _
    · exact h
  · exact h

theorem ScopeSound.nonNull {next : Nat} (h : ScopeSound plain vs next scope) (subject : Expr) :
    ScopeSound plain vs next (nonNullScope scope subject) := by
  unfold nonNullScope
  split
  · split
    · exact h.withValue _ _
    · exact h.withValue _ _
    · exact h
  · exact h

theorem ScopeSound.branches {next : Nat} (h : ScopeSound plain vs next scope) (condition : Expr) :
    ScopeSound plain vs next (branchScopes scope condition).1 ∧
      ScopeSound plain vs next (branchScopes scope condition).2 := by
  unfold branchScopes
  split
  · exact ⟨h.narrowed _ _, h⟩
  · split
    · exact ⟨h, h.nonNull _⟩
    · exact ⟨h, h.nonNull _⟩
    · exact ⟨h, h⟩
  · exact ⟨h, h⟩

theorem ScopeSound.bindAll {next : Nat} (h : ScopeSound plain vs next scope)
    (bindings : Array Binding) (ids : List BindingId) :
    ScopeSound plain vs next (bindAll bindings scope ids) := by
  induction ids generalizing scope with
  | nil => exact h
  | cons id rest ih =>
      simp only [Lowering.bindAll, List.foldl_cons] at ih ⊢
      split
      · exact ih (h.withValue _ _)
      · exact ih h

theorem names_bindAll {bindings : Array Binding} {ids : List BindingId}
    (h : ∀ id ∈ ids, ∃ b, bindings[id]? = some b ∧ p.binding id = b) :
    (bindAll bindings scope ids).names = p.boundNames scope.names ids := by
  induction ids generalizing scope with
  | nil => rfl
  | cons id rest ih =>
      obtain ⟨b, hb, hp⟩ := h id List.mem_cons_self
      simp only [bindAll, Program.boundNames, List.foldl_cons, hb, hp] at ih ⊢
      exact ih fun id' hid' => h id' (List.mem_cons_of_mem _ hid')

/-! ## Expressions -/

theorem run_bindParameters_eq_ok {ids : List BindingId} {d : Draft} {r : Scope × Draft} :
    (bindParameters scope ids).run d = .ok r ↔ r = (bindAll d.bindings scope ids, d) := by
  rw [bindParameters, run_bind_eq_ok]
  constructor
  · rintro ⟨d', d'', hget, h⟩
    obtain ⟨rfl, rfl⟩ : d' = d ∧ d'' = d := by
      have hget' : (Except.ok (d, d) : Except TypeError (Draft × Draft)) = .ok (d', d'') := hget
      cases hget'
      exact ⟨rfl, rfl⟩
    exact run_pure_eq_ok.mp h
  · intro h
    exact ⟨d, d, rfl, run_pure_eq_ok.mpr h⟩

theorem scoped_simple {names : Names} {id : NodeId} {form : Form} (hform : (p.node id).form = form)
    (hsimple : form.Simple) (htypes : ∀ type ∈ form.types, TypeScoped plain vs type)
    (hchildren : ∀ c ∈ Program.children form, p.Scoped plain native vs names c) :
    p.Scoped plain native vs names id := by
  subst hform
  exact .simple hsimple htypes hchildren

/-- What is known of a program that has a node just added to a draft. -/
theorem Agrees.addNode {d : Draft} {n : Node} {start : Nat}
    (h : Agrees p { d with nodes := d.nodes.push n } start) :
    p.node d.nodes.size = n ∧ Agrees p d start :=
  ⟨h.node (by simp), h.earlier (grows_addNode d n) (Nat.le_refl _)⟩

/-- What the parameters of a function are in a program that agrees with the draft. -/
theorem ParametersSound.bindings {d d' d'' : Draft} {arguments : Parameters} {ids : List BindingId}
    {start : Nat} (h : ParametersSound plain vs d d' arguments ids) (hp : Agrees p d'' start)
    (hgrows : Grows d' d'') (hstart : start ≤ d.bindings.size) :
    List.Forall₂ (fun id (q : String × Ty) => ∃ span, p.binding id = .parameter q.1 span q.2)
      ids (Program.insideParameters arguments) := by
  refine h.added.imp fun id q hq => ?_
  obtain ⟨hid, span, hb⟩ := hq
  exact ⟨span, hp.binding (Nat.le_trans hstart hid) (hgrows.bindings _ _ hb)⟩

theorem ParametersSound.names {d d' d₁ d'' : Draft} {arguments : Parameters} {ids : List BindingId}
    {start : Nat} (h : ParametersSound plain vs d d' arguments ids) (hp : Agrees p d'' start)
    (hd₁ : Grows d' d₁) (hgrows : Grows d' d'') (hstart : start ≤ d.bindings.size) :
    (bindAll d₁.bindings scope ids).names = p.boundNames scope.names ids := by
  have hids : ∀ id ∈ ids, ∃ b, d₁.bindings[id]? = some b ∧ p.binding id = b := by
    refine ((List.forall₂_and_left _ _).mp (h.added.imp fun id q hq => ⟨?_, hq⟩)).1
    obtain ⟨hid, span, hb⟩ := hq
    exact ⟨_, hd₁.bindings _ _ hb, hp.binding (Nat.le_trans hstart hid)
      (hgrows.bindings _ _ hb)⟩
  exact names_bindAll hids

/-- The node of an expression, in any program that agrees with the draft. -/
def ExprSound (plain : Prop) (native : String → Signature → Prop) (vs : List TypeVariable) (scope : Scope) (e : Expr) (d d' : Draft)
    (id : NodeId) : Prop :=
  Grows d d' ∧ ∀ p, Agrees p d' d.bindings.size →
    Shows p scope.names e id ∧ p.Scoped plain native vs scope.names id

/-- Nodes made one after the other. -/
def NodesSound (plain : Prop) (native : String → Signature → Prop) (vs : List TypeVariable) (scope : Scope) (d d' : Draft)
    (ids : List NodeId) : Prop :=
  Grows d d' ∧ ∀ p, Agrees p d' d.bindings.size → ∀ id ∈ ids, p.Scoped plain native vs scope.names id

def ArmsSound (plain : Prop) (native : String → Signature → Prop) (vs : List TypeVariable) (scope : Scope) (subject : Expr)
    (scrutinee : NodeId) (d d' : Draft) (arms : List Arm) : Prop :=
  Grows d d' ∧ ∀ p, Agrees p d' d.bindings.size → Shows p scope.names subject scrutinee →
    ∀ arm ∈ arms, (∃ name span, p.binding arm.binding = .payload name span scrutinee arm.tag) ∧
      p.Scoped plain native vs
        (p.boundNames (p.narrowedNames scope.names scrutinee arm.tag) [arm.binding]) arm.body

mutual

theorem lowerExpr_sound : ∀ (e : Expr) {plain : Prop} {vs : List TypeVariable} {scope : Scope}
    {d d' : Draft} {id : NodeId} (_ : plain → e.isCore = true)
    (_ : ScopeSound plain vs d.nextVariable scope),
    (lowerExpr scope e).run d = .ok (id, d') → ExprSound plain native vs scope e d d' id
  | .number _ _, _, _, _, d, d', id, _, _, h | .bigInteger _ _, _, _, _, d, d', id, _, _, h
  | .boolean _ _, _, _, _, d, d', id, _, _, h => by
      simp only [lowerExpr, run_addNode_eq_ok, Prod.mk.injEq] at h
      obtain ⟨rfl, rfl⟩ := h
      refine ⟨grows_addNode _ _, fun p hp => ?_⟩
      obtain ⟨hnode, -⟩ := hp.addNode
      refine ⟨by simp [Shows, hnode, Mute], ?_⟩
      exact scoped_simple (congrArg Node.form hnode) trivial (by simp [Form.types])
        (by simp [Program.children])
  | .null site, _, _, _, d, d', id, _, _, h => by
      simp only [lowerExpr, run_addNode_eq_ok, Prod.mk.injEq] at h
      obtain ⟨rfl, rfl⟩ := h
      refine ⟨grows_addNode _ _, fun p hp => ?_⟩
      obtain ⟨hnode, -⟩ := hp.addNode
      refine ⟨congrArg Node.form hnode, ?_⟩
      exact scoped_simple (congrArg Node.form hnode) trivial (by simp [Form.types])
        (by simp [Program.children])
  | .reference site name, _, _, scope, d, d', id, _, _, h => by
      simp only [lowerExpr, run_addNode_eq_ok, Prod.mk.injEq] at h
      obtain ⟨rfl, rfl⟩ := h
      refine ⟨grows_addNode _ _, fun p hp => ?_⟩
      obtain ⟨hnode, -⟩ := hp.addNode
      have hform : (p.node d.nodes.size).form = .reference name (Fields.get? name scope.names) := by
        rw [hnode, scope.value?_eq]
      exact ⟨hform, .reference hform⟩
  | .object site fields, _, _, _, d, d', id, hcore, hscope, h => by
      simp only [lowerExpr, run_bind_eq_ok, run_addNode_eq_ok, Prod.mk.injEq] at h
      obtain ⟨ids, d₁, hfields, rfl, rfl⟩ := h
      obtain ⟨hd₁, hfields⟩ := lowerFields_sound fields hcore hscope hfields
      refine ⟨hd₁.trans (grows_addNode _ _), fun p hp => ?_⟩
      obtain ⟨hnode, hp₁⟩ := hp.addNode
      refine ⟨by simp [Shows, hnode, Mute], ?_⟩
      exact scoped_simple (congrArg Node.form hnode) trivial (by simp [Form.types])
        (hfields p hp₁)
  | .binary site op lhs rhs, _, _, _, d, d', id, hcore, hscope, h => by
      simp only [lowerExpr, run_bind_eq_ok, run_addNode_eq_ok, Prod.mk.injEq] at h
      obtain ⟨l, d₁, hl, r, d₂, hr, rfl, rfl⟩ := h
      simp only [Expr.isCore, Bool.and_eq_true] at hcore
      obtain ⟨hd₁, hl⟩ := lowerExpr_sound lhs (fun hplain => (hcore hplain).1) hscope hl
      obtain ⟨hd₂, hr⟩ := lowerExpr_sound rhs (fun hplain => (hcore hplain).2)
        (hscope.later hd₁.next) hr
      refine ⟨(hd₁.trans hd₂).trans (grows_addNode _ _), fun p hp => ?_⟩
      obtain ⟨hnode, hp₂⟩ := hp.addNode
      obtain ⟨hlshows, hl⟩ := hl p (hp₂.earlier hd₂ (Nat.le_refl _))
      obtain ⟨hrshows, hr⟩ := hr p (hp₂.earlier (.refl _) hd₁.size)
      refine ⟨⟨l, r, congrArg Node.form hnode, hlshows, hrshows⟩, ?_⟩
      refine scoped_simple (congrArg Node.form hnode) ?_ ?_ ?_
      · cases op <;> trivial
      · cases op <;> simp [binaryForm, Form.types]
      · cases op <;> simp [binaryForm, Program.children, hl, hr]
  | .unary site op operand, _, _, _, d, d', id, hcore, hscope, h => by
      simp only [lowerExpr, run_bind_eq_ok, run_addNode_eq_ok, Prod.mk.injEq] at h
      obtain ⟨v, d₁, hv, rfl, rfl⟩ := h
      obtain ⟨hd₁, hv⟩ := lowerExpr_sound operand hcore hscope hv
      refine ⟨hd₁.trans (grows_addNode _ _), fun p hp => ?_⟩
      obtain ⟨hnode, hp₁⟩ := hp.addNode
      have hv := (hv p hp₁).2
      refine ⟨by cases op <;> simp [Shows, hnode, unaryForm, Mute], ?_⟩
      refine scoped_simple (congrArg Node.form hnode) ?_ ?_ ?_
      · cases op <;> trivial
      · cases op <;> simp [unaryForm, Form.types]
      · cases op <;> simp [unaryForm, Program.children, hv]
  | .conditional site condition thenBranch elseBranch, _, _, scope, d, d', id, hcore, hscope, h => by
      simp only [lowerExpr, run_bind_eq_ok, run_addNode_eq_ok, Prod.mk.injEq] at h
      obtain ⟨c, d₁, hc, t, d₂, ht, e, d₃, he, rfl, rfl⟩ := h
      simp only [Expr.isCore, Bool.and_eq_true] at hcore
      have hbranches := hscope.branches condition
      obtain ⟨hd₁, hc⟩ := lowerExpr_sound condition (fun hplain => (hcore hplain).1.1) hscope hc
      obtain ⟨hd₂, ht⟩ := lowerExpr_sound thenBranch (fun hplain => (hcore hplain).1.2)
        (hbranches.1.later hd₁.next) ht
      obtain ⟨hd₃, he⟩ := lowerExpr_sound elseBranch (fun hplain => (hcore hplain).2)
        (hbranches.2.later (hd₁.trans hd₂).next) he
      refine ⟨((hd₁.trans hd₂).trans hd₃).trans (grows_addNode _ _), fun p hp => ?_⟩
      obtain ⟨hnode, hp₃⟩ := hp.addNode
      obtain ⟨hcshows, hc⟩ := hc p (hp₃.earlier (hd₂.trans hd₃) (Nat.le_refl _))
      have ht := (ht p (hp₃.earlier hd₃ hd₁.size)).2
      have he := (he p (hp₃.earlier (.refl _) (hd₁.trans hd₂).size)).2
      have hnames := branchNames_eq hcshows
      refine ⟨by simp [Shows, hnode, Mute], .conditional (congrArg Node.form hnode) hc ?_ ?_⟩
      · rw [hnames]
        exact ht
      · rw [hnames]
        exact he
  | .call site callee types arguments, _, _, _, d, d', id, hcore, hscope, h => by
      simp only [lowerExpr, run_bind_eq_ok, run_addNode_eq_ok, Prod.mk.injEq] at h
      obtain ⟨f, d₁, hf, written, d₂, htypes, ids, d₃, hids, rfl, rfl⟩ := h
      simp only [Expr.isCore, Bool.and_eq_true] at hcore
      obtain ⟨hd₁, hf⟩ := lowerExpr_sound callee (fun hplain => (hcore hplain).1.1) hscope hf
      obtain ⟨hd₂, htypes⟩ := lowerTypes_scoped types (fun hplain => (hcore hplain).1.2)
        (hscope.later hd₁.next) htypes
      obtain ⟨hd₃, hids⟩ := lowerExprs_sound arguments (fun hplain => (hcore hplain).2)
        (hscope.later (hd₁.trans hd₂.grows).next) hids
      have hgrows := hd₂.grows.trans hd₃
      refine ⟨(hd₁.trans hgrows).trans (grows_addNode _ _), fun p hp => ?_⟩
      obtain ⟨hnode, hp₃⟩ := hp.addNode
      have hf := (hf p (hp₃.earlier hgrows (Nat.le_refl _))).2
      have hids := hids p (hp₃.earlier (.refl _) (hd₁.trans hd₂.grows).size)
      refine ⟨by simp [Shows, hnode, Mute], ?_⟩
      exact scoped_simple (congrArg Node.form hnode) trivial htypes
        (List.forall_mem_cons.mpr ⟨hf, hids⟩)
  | .lambda site names ps result body, _, vs, scope, d, d', id, hcore, hscope, h => by
      simp only [lowerExpr, run_bind_eq_ok, run_addNode_eq_ok, run_bindParameters_eq_ok,
        Prod.mk.injEq, Prod.exists] at h
      obtain ⟨us, inner, d₁, hgenerics, arguments, ids, d₂, hps, result', d₃, hresult, _, _,
        ⟨rfl, rfl⟩, value, d₄, hvalue, rfl, rfl⟩ := h
      simp only [Expr.isCore, Bool.and_eq_true, List.isEmpty_iff] at hcore
      obtain ⟨hg, hnil⟩ := lowerGenerics_sound hgenerics hscope
      have hps := lowerSignatureParameters_sound (fun hplain => (hcore hplain).1.1.2) hg.sound hps
      obtain ⟨hd₃, hresult⟩ := lowerType?_scoped (fun hplain => (hcore hplain).1.2)
        (hg.sound.later hps.grows.next) hresult
      obtain ⟨hd₄, hvalue⟩ := lowerExpr_sound body (fun hplain => (hcore hplain).2)
        ((hg.sound.later (hps.grows.trans hd₃.grows).next).bindAll _ _) hvalue
      have hgrows := (hg.typesOnly.grows.trans hps.grows).trans hd₃.grows
      refine ⟨(hgrows.trans hd₄).trans (grows_addNode _ _), fun p hp => ?_⟩
      obtain ⟨hnode, hp₄⟩ := hp.addNode
      have hvalue := (hvalue p (hp₄.earlier (.refl _) hgrows.size)).2
      rw [hps.names hp₄ hd₃.grows (hd₃.grows.trans hd₄) hg.typesOnly.grows.size, hg.names] at hvalue
      refine ⟨by simp [Shows, hnode, Mute], .lambda (congrArg Node.form hnode) ?_ (.mk .nil hvalue)⟩
      exact ⟨hg.fresh, hg.nodup, hps.closed, hresult,
        hps.bindings hp₄ (hd₃.grows.trans hd₄) hg.typesOnly.grows.size,
        fun hplain => ⟨hnil (hcore hplain).1.1.1, hps.fixed hplain⟩⟩
  | .field site owner name, _, _, _, d, d', id, hcore, hscope, h => by
      simp only [lowerExpr, run_bind_eq_ok, run_addNode_eq_ok, Prod.mk.injEq] at h
      obtain ⟨v, d₁, hv, rfl, rfl⟩ := h
      obtain ⟨hd₁, hv⟩ := lowerExpr_sound owner hcore hscope hv
      refine ⟨hd₁.trans (grows_addNode _ _), fun p hp => ?_⟩
      obtain ⟨hnode, hp₁⟩ := hp.addNode
      refine ⟨by simp [Shows, hnode, Mute], ?_⟩
      exact scoped_simple (congrArg Node.form hnode) trivial (by simp [Form.types])
        (List.forall_mem_singleton.mpr (hv p hp₁).2)
  | .tagged site value tag, _, _, _, d, d', id, hcore, hscope, h => by
      simp only [lowerExpr, run_bind_eq_ok, run_addNode_eq_ok, Prod.mk.injEq] at h
      obtain ⟨v, d₁, hv, rfl, rfl⟩ := h
      obtain ⟨hd₁, hv⟩ := lowerExpr_sound value hcore hscope hv
      refine ⟨hd₁.trans (grows_addNode _ _), fun p hp => ?_⟩
      obtain ⟨hnode, hp₁⟩ := hp.addNode
      refine ⟨by simp [Shows, hnode, Mute], ?_⟩
      exact scoped_simple (congrArg Node.form hnode) trivial (by simp [Form.types])
        (List.forall_mem_singleton.mpr (hv p hp₁).2)
  | .hasTag site value tag, _, _, _, d, d', id, hcore, hscope, h => by
      simp only [lowerExpr, run_bind_eq_ok, run_addNode_eq_ok, Prod.mk.injEq] at h
      obtain ⟨v, d₁, hv, rfl, rfl⟩ := h
      obtain ⟨hd₁, hv⟩ := lowerExpr_sound value hcore hscope hv
      refine ⟨hd₁.trans (grows_addNode _ _), fun p hp => ?_⟩
      obtain ⟨hnode, hp₁⟩ := hp.addNode
      obtain ⟨hshows, hv⟩ := hv p hp₁
      refine ⟨⟨v, congrArg Node.form hnode, hshows⟩, ?_⟩
      exact scoped_simple (congrArg Node.form hnode) trivial (by simp [Form.types])
        (List.forall_mem_singleton.mpr hv)
  | .untag site value, _, _, _, d, d', id, hcore, hscope, h => by
      simp only [lowerExpr, run_bind_eq_ok, run_addNode_eq_ok, Prod.mk.injEq] at h
      obtain ⟨v, d₁, hv, rfl, rfl⟩ := h
      obtain ⟨hd₁, hv⟩ := lowerExpr_sound value hcore hscope hv
      refine ⟨hd₁.trans (grows_addNode _ _), fun p hp => ?_⟩
      obtain ⟨hnode, hp₁⟩ := hp.addNode
      refine ⟨by simp [Shows, hnode, Mute], ?_⟩
      exact scoped_simple (congrArg Node.form hnode) trivial (by simp [Form.types])
        (List.forall_mem_singleton.mpr (hv p hp₁).2)
  | .cases site scrutinee arms, _, _, _, d, d', id, hcore, hscope, h => by
      simp only [lowerExpr, run_bind_eq_ok, run_addNode_eq_ok, Prod.mk.injEq] at h
      obtain ⟨s, d₁, hs, arms', d₂, harms, rfl, rfl⟩ := h
      simp only [Expr.isCore, Bool.and_eq_true] at hcore
      obtain ⟨hd₁, hs⟩ := lowerExpr_sound scrutinee (fun hplain => (hcore hplain).1) hscope hs
      obtain ⟨hd₂, harms⟩ := lowerArms_sound arms (fun hplain => (hcore hplain).2)
        (hscope.later hd₁.next) harms
      refine ⟨(hd₁.trans hd₂).trans (grows_addNode _ _), fun p hp => ?_⟩
      obtain ⟨hnode, hp₂⟩ := hp.addNode
      obtain ⟨hshows, hs⟩ := hs p (hp₂.earlier hd₂ (Nat.le_refl _))
      have harms := harms p (hp₂.earlier (.refl _) hd₁.size) hshows
      refine ⟨by simp [Shows, hnode, Mute], .cases (congrArg Node.form hnode) hs ?_ ?_⟩
      · exact fun arm harm => (harms arm harm).1
      · exact fun arm harm => (harms arm harm).2

theorem lowerExprs_sound : ∀ (es : List Expr) {plain : Prop} {vs : List TypeVariable}
    {scope : Scope} {d d' : Draft} {ids : List NodeId} (_ : plain → Expr.areCore es = true)
    (_ : ScopeSound plain vs d.nextVariable scope),
    (lowerExprs scope es).run d = .ok (ids, d') → NodesSound plain native vs scope d d' ids
  | [], _, _, _, d, d', ids, _, _, h => by
      simp only [lowerExprs, run_pure_eq_ok, Prod.mk.injEq] at h
      obtain ⟨rfl, rfl⟩ := h
      exact ⟨.refl _, by simp⟩
  | e :: rest, _, _, _, d, d', ids, hcore, hscope, h => by
      simp only [lowerExprs, run_bind_eq_ok, run_pure_eq_ok, Prod.mk.injEq] at h
      obtain ⟨id, d₁, he, ids', d₂, hrest, rfl, rfl⟩ := h
      simp only [Expr.areCore, Bool.and_eq_true] at hcore
      obtain ⟨hd₁, he⟩ := lowerExpr_sound e (fun hplain => (hcore hplain).1) hscope he
      obtain ⟨hd₂, hrest⟩ := lowerExprs_sound rest (fun hplain => (hcore hplain).2)
        (hscope.later hd₁.next) hrest
      refine ⟨hd₁.trans hd₂, fun p hp => List.forall_mem_cons.mpr ⟨?_, ?_⟩⟩
      · exact (he p (hp.earlier hd₂ (Nat.le_refl _))).2
      · exact hrest p (hp.earlier (.refl _) hd₁.size)

theorem lowerFields_sound : ∀ (fields : List (FieldInit Expr)) {plain : Prop}
    {vs : List TypeVariable} {scope : Scope} {d d' : Draft} {ids : List (String × NodeId)}
    (_ : plain → Expr.fieldsAreCore fields = true) (_ : ScopeSound plain vs d.nextVariable scope),
    (lowerFields scope fields).run d = .ok (ids, d') →
      NodesSound plain native vs scope d d' (ids.map Prod.snd)
  | [], _, _, _, d, d', ids, _, _, h => by
      simp only [lowerFields, run_pure_eq_ok, Prod.mk.injEq] at h
      obtain ⟨rfl, rfl⟩ := h
      exact ⟨.refl _, by simp⟩
  | ⟨name, value, _⟩ :: rest, _, _, _, d, d', ids, hcore, hscope, h => by
      simp only [lowerFields, run_bind_eq_ok, run_pure_eq_ok, Prod.mk.injEq] at h
      obtain ⟨id, d₁, he, ids', d₂, hrest, rfl, rfl⟩ := h
      simp only [Expr.fieldsAreCore, Bool.and_eq_true] at hcore
      obtain ⟨hd₁, he⟩ := lowerExpr_sound value (fun hplain => (hcore hplain).1) hscope he
      obtain ⟨hd₂, hrest⟩ := lowerFields_sound rest (fun hplain => (hcore hplain).2)
        (hscope.later hd₁.next) hrest
      refine ⟨hd₁.trans hd₂, fun p hp => List.forall_mem_cons.mpr ⟨?_, ?_⟩⟩
      · exact (he p (hp.earlier hd₂ (Nat.le_refl _))).2
      · exact hrest p (hp.earlier (.refl _) hd₁.size)

theorem lowerArms_sound : ∀ (arms : List (MatchArm Expr)) {plain : Prop} {vs : List TypeVariable}
    {scope : Scope} {subject : Expr} {scrutinee : NodeId} {d d' : Draft} {arms' : List Arm}
    (_ : plain → Expr.armsAreCore arms = true) (_ : ScopeSound plain vs d.nextVariable scope),
    (lowerArms scope subject scrutinee arms).run d = .ok (arms', d') →
      ArmsSound plain native vs scope subject scrutinee d d' arms'
  | [], _, _, _, _, _, d, d', arms', _, _, h => by
      simp only [lowerArms, run_pure_eq_ok, Prod.mk.injEq] at h
      obtain ⟨rfl, rfl⟩ := h
      exact ⟨.refl _, by simp⟩
  | ⟨tag, name, body, span⟩ :: rest, _, _, scope, subject, scrutinee, d, d', arms', hcore, hscope,
      h => by
      simp only [lowerArms, run_bind_eq_ok, run_addBinding_eq_ok, run_pure_eq_ok,
        Prod.mk.injEq] at h
      obtain ⟨_, _, ⟨rfl, rfl⟩, value, d₁, hvalue, arms'', d₂, hrest, rfl, rfl⟩ := h
      simp only [Expr.armsAreCore, Bool.and_eq_true] at hcore
      have hadd := grows_addBinding d (.payload name.value name.span scrutinee tag.value)
      obtain ⟨hd₁, hvalue⟩ := lowerExpr_sound body (fun hplain => (hcore hplain).1)
        (((hscope.narrowed subject tag.value).withValue _ _).later hadd.next) hvalue
      obtain ⟨hd₂, hrest⟩ := lowerArms_sound rest (fun hplain => (hcore hplain).2)
        (hscope.later (hadd.trans hd₁).next) hrest
      refine ⟨(hadd.trans hd₁).trans hd₂, fun p hp hshows => List.forall_mem_cons.mpr ⟨?_, ?_⟩⟩
      · have hbinding : p.binding d.bindings.size =
            .payload name.value name.span scrutinee tag.value :=
          hp.binding (Nat.le_refl _) ((hd₁.trans hd₂).bindings _ _ (by simp))
        have hvalue := (hvalue p (hp.earlier hd₂ hadd.size)).2
        refine ⟨⟨_, _, hbinding⟩, ?_⟩
        simpa [Program.boundNames, hbinding, Binding.name, narrowedNames_eq hshows] using hvalue
      · exact hrest p (hp.earlier (.refl _) (hadd.trans hd₁).size) hshows

end

/-! ## Declarations and bodies -/

theorem grows_setBinding {d d' : Draft} (h : Grows d d') {id : BindingId} {b : Binding}
    (hid : d.bindings.size ≤ id) :
    Grows d { d' with bindings := d'.bindings.setIfInBounds id b } := by
  refine ⟨h.nodes, fun i c hc => ?_, by simpa using h.size, h.next⟩
  obtain ⟨hi, -⟩ := Array.getElem?_eq_some_iff.mp hc
  rw [Array.getElem?_setIfInBounds_ne (by omega)]
  exact h.bindings i c hc

theorem Agrees.setBinding {d : Draft} {id : BindingId} {b : Binding} {start : Nat}
    (h : Agrees p { d with bindings := d.bindings.setIfInBounds id b } start) (hstart : start ≤ id)
    (hid : id < d.bindings.size) : p.binding id = b ∧ Agrees p d (id + 1) := by
  refine ⟨h.binding hstart (by simp [hid]), h.nodes, ?_⟩
  intro i c hi hc
  refine h.bindings i c (by omega) ?_
  rw [Array.getElem?_setIfInBounds_ne (by omega)]
  exact hc

/-- The scope after a declaration, and the binding that it makes in front of others. -/
def DeclarationSound (plain : Prop) (native : String → Signature → Prop) (vs : List TypeVariable) (scope scope' : Scope) (d d' : Draft)
    (id : Option BindingId) : Prop :=
  Grows d d' ∧ ScopeSound plain vs d'.nextVariable scope' ∧
    ∀ p, Agrees p d' d.bindings.size → ∀ rest names',
      p.ScopedBindings plain native vs scope'.names rest names' →
        p.ScopedBindings plain native vs scope.names (id.toList ++ rest) names'

def DeclarationsSound (plain : Prop) (native : String → Signature → Prop) (vs : List TypeVariable) (scope scope' : Scope)
    (d d' : Draft) (ids : List BindingId) : Prop :=
  Grows d d' ∧ ScopeSound plain vs d'.nextVariable scope' ∧
    ∀ p, Agrees p d' d.bindings.size → p.ScopedBindings plain native vs scope.names ids scope'.names

def BodySound (plain : Prop) (native : String → Signature → Prop) (vs : List TypeVariable) (scope : Scope) (d d' : Draft)
    (body : FunctionBody) : Prop :=
  Grows d d' ∧ ∀ p, Agrees p d' d.bindings.size → p.ScopedBody plain native vs scope.names body

mutual

theorem lowerDeclaration_sound : ∀ (declaration : Declaration) {plain : Prop}
    {vs : List TypeVariable} {scope scope' : Scope} {d d' : Draft} {id : Option BindingId}
    (_ : plain → declaration.isCore = true)
    (_ : declaration.hasExternal = true → ∀ name s, native name s)
    (_ : ScopeSound plain vs d.nextVariable scope),
    (lowerDeclaration scope declaration).run d = .ok ((id, scope'), d') →
      DeclarationSound plain native vs scope scope' d d' id
  | .value span name type value, _, _, scope, scope', d, d', id, hcore, hext, hscope, h => by
      simp only [lowerDeclaration, run_bind_eq_ok, run_addBinding_eq_ok, run_pure_eq_ok,
        Prod.mk.injEq] at h
      obtain ⟨type', d₁, htype, node, d₂, hnode, _, _, ⟨rfl, rfl⟩, ⟨rfl, rfl⟩, rfl⟩ := h
      simp only [Declaration.isCore, Bool.and_eq_true] at hcore
      obtain ⟨hd₁, htype⟩ := lowerType?_scoped (fun hplain => (hcore hplain).1) hscope htype
      obtain ⟨hd₂, hnode⟩ := lowerExpr_sound value (fun hplain => (hcore hplain).2)
        (hscope.later hd₁.next) hnode
      have hgrows := hd₁.grows.trans hd₂
      have hadd := grows_addBinding d₂ (.value name.value span type' node)
      refine ⟨hgrows.trans hadd, (hscope.later hgrows.next).withValue _ _,
        fun p hp rest names' hrest => ?_⟩
      have hbinding : p.binding d₂.bindings.size = .value name.value span type' node :=
        hp.binding hgrows.size (by simp)
      refine .value hbinding htype (hnode p (hp.earlier hadd hd₁.grows.size)).2 ?_
      simpa [Program.boundNames, hbinding, Binding.name] using hrest
  | .function span name names ps result body, _, vs, scope, scope', d, d', id, hcore, hext, hscope, h => by
      simp only [lowerDeclaration, run_bind_eq_ok, run_addBinding_eq_ok, run_setBinding_eq_ok,
        run_bindParameters_eq_ok, run_pure_eq_ok, Prod.mk.injEq, Prod.exists] at h
      obtain ⟨us, inner, d₁, hgenerics, arguments, ids, d₂, hps, result', d₃, hresult, _, _,
        ⟨rfl, rfl⟩, _, _, ⟨rfl, rfl⟩, body', d₅, hbody, _, _, ⟨-, rfl⟩, ⟨rfl, rfl⟩, rfl⟩ := h
      simp only [Declaration.isCore, Bool.and_eq_true, List.isEmpty_iff] at hcore
      obtain ⟨hg, hnil⟩ := lowerGenerics_sound hgenerics hscope
      have hps := lowerSignatureParameters_sound (fun hplain => (hcore hplain).1.1.2) hg.sound hps
      obtain ⟨hd₃, hresult⟩ := lowerType?_scoped (fun hplain => (hcore hplain).1.2)
        (hg.sound.later hps.grows.next) hresult
      have hadd := grows_addBinding d₃ (.function name.value span ⟨us, arguments, ids, result'⟩ none)
      have hinside := (((hg.sound.later (hps.grows.trans hd₃.grows).next).withValue name.value
        (.enclosing d₃.bindings.size)).bindAll
          (d₃.bindings.push (.function name.value span ⟨us, arguments, ids, result'⟩ none)) ids).later
            hadd.next
      obtain ⟨hd₅, hbody⟩ := lowerBody_sound body (fun hplain => (hcore hplain).2) hext hinside hbody
      have hsize := (hg.typesOnly.grows.trans hps.grows).trans hd₃.grows
      have hid : d₃.bindings.size < d₅.bindings.size :=
        Nat.lt_of_lt_of_le (by simp) hd₅.size
      have hgrows₂ := grows_setBinding ((hd₃.grows.trans hadd).trans hd₅)
        (b := .function name.value span ⟨us, arguments, ids, result'⟩ (some body')) hd₃.grows.size
      refine ⟨(hg.typesOnly.grows.trans hps.grows).trans hgrows₂, ?_, fun p hp rest names' hrest => ?_⟩
      · exact (hscope.later ((hsize.trans hadd).trans hd₅).next).withValue _ _
      · obtain ⟨hbinding, hp₅⟩ := hp.setBinding hsize.size hid
        have hbody := hbody p ⟨hp₅.nodes, fun i c hi => hp₅.bindings i c (by simpa using hi)⟩
        rw [hps.names hp (hd₃.grows.trans hadd) hgrows₂ hg.typesOnly.grows.size] at hbody
        have hsignature : p.SignatureScoped _ vs ⟨us, arguments, ids, result'⟩ :=
          ⟨hg.fresh, hg.nodup, hps.closed, hresult,
            hps.bindings hp hgrows₂ hg.typesOnly.grows.size,
            fun hplain => ⟨hnil (hcore hplain).1.1.1, hps.fixed hplain⟩⟩
        refine .function hbinding hsignature ?_ ?_
        · simpa [hg.names] using hbody
        · simpa [Program.boundNames, hbinding, Binding.name] using hrest
  | .external span name names ps result, _, vs, scope, scope', d, d', id, hcore, hext, hscope, h => by
      simp only [lowerDeclaration, run_bind_eq_ok, run_addBinding_eq_ok, run_pure_eq_ok,
        Prod.mk.injEq, Prod.exists] at h
      obtain ⟨us, inner, d₁, hgenerics, arguments, ids, d₂, hps, result', d₃, hresult, _, _,
        ⟨rfl, rfl⟩, ⟨rfl, rfl⟩, rfl⟩ := h
      have hplain : ¬ _ := fun hplain => Bool.false_ne_true (hcore hplain)
      obtain ⟨hg, -⟩ := lowerGenerics_sound hgenerics hscope
      have hps := lowerSignatureParameters_sound (fun h => absurd h hplain) hg.sound hps
      obtain ⟨hd₃, hresult⟩ := lowerType_scoped result (fun h => absurd h hplain)
        (hg.sound.later hps.grows.next) hresult
      have hsize := (hg.typesOnly.grows.trans hps.grows).trans hd₃.grows
      have hadd := grows_addBinding d₃
        (.function name.value span ⟨us, arguments, ids, some result'⟩ none)
      refine ⟨hsize.trans hadd, (hscope.later hsize.next).withValue _ _,
        fun p hp rest names' hrest => ?_⟩
      have hbinding : p.binding d₃.bindings.size =
          .function name.value span ⟨us, arguments, ids, some result'⟩ none :=
        hp.binding hsize.size (by simp)
      refine .external hbinding hplain (hext rfl _ _) ⟨hg.fresh, hg.nodup, hps.closed, by simpa using hresult,
        hps.bindings hp (hd₃.grows.trans hadd) hg.typesOnly.grows.size,
        fun h => absurd h hplain⟩ rfl ?_
      simpa [Program.boundNames, hbinding, Binding.name] using hrest
  | .alias _ name names target, _, vs, scope, scope', d, d', id, hcore, hext, hscope, h => by
      simp only [lowerDeclaration, run_bind_eq_ok, run_pure_eq_ok, Prod.mk.injEq, Prod.exists] at h
      obtain ⟨us, inner, d₁, hgenerics, type, d₂, htype, ⟨rfl, rfl⟩, rfl⟩ := h
      obtain ⟨hg, -⟩ := lowerGenerics_sound hgenerics hscope
      obtain ⟨hd₂, htype⟩ := lowerType_scoped target hcore hg.sound htype
      have hgrows := hg.typesOnly.trans hd₂
      exact ⟨hgrows.grows, (hscope.later hgrows.next).withType _ htype, fun _ _ _ _ hrest => hrest⟩
  | .union _ name names alternatives, _, vs, scope, scope', d, d', id, hcore, hext, hscope, h => by
      simp only [lowerDeclaration, run_bind_eq_ok, run_pure_eq_ok, Prod.mk.injEq, Prod.exists] at h
      obtain ⟨us, inner, d₁, hgenerics, fields, d₂, hfields, ⟨rfl, rfl⟩, rfl⟩ := h
      obtain ⟨hg, -⟩ := lowerGenerics_sound hgenerics hscope
      obtain ⟨hd₂, hclosed, hevery⟩ := lowerAlternatives_scoped hcore hg.sound (by exact trivial)
        (by simp [Ty.everyField]) hfields
      have hgrows := hg.typesOnly.trans hd₂
      refine ⟨hgrows.grows, (hscope.later hgrows.next).withType _ ⟨hclosed, fun hplain => ?_⟩,
        fun _ _ _ _ hrest => hrest⟩
      simp [Ty.every, Ty.monomorphic, hevery hplain]

theorem lowerDeclarations_sound : ∀ (declarations : List Declaration) {plain : Prop}
    {vs : List TypeVariable} {scope scope' : Scope} {d d' : Draft} {ids : List BindingId}
    (_ : plain → Declaration.areCore declarations = true)
    (_ : Declaration.haveExternal declarations = true → ∀ name s, native name s)
    (_ : ScopeSound plain vs d.nextVariable scope),
    (lowerDeclarations scope declarations).run d = .ok ((ids, scope'), d') →
      DeclarationsSound plain native vs scope scope' d d' ids
  | [], _, _, _, _, d, d', _, _, _, hscope, h => by
      simp only [lowerDeclarations, run_pure_eq_ok, Prod.mk.injEq] at h
      obtain ⟨⟨rfl, rfl⟩, rfl⟩ := h
      exact ⟨.refl _, hscope, fun _ _ => .nil⟩
  | declaration :: rest, _, _, _, _, d, d', _, hcore, hext, hscope, h => by
      simp only [lowerDeclarations, run_bind_eq_ok, run_pure_eq_ok, Prod.mk.injEq, Prod.exists] at h
      obtain ⟨id, scope₁, d₁, hone, ids, scope₂, d₂, hrest, ⟨rfl, rfl⟩, rfl⟩ := h
      simp only [Declaration.areCore, Bool.and_eq_true] at hcore
      simp only [Declaration.haveExternal, Bool.or_eq_true] at hext
      obtain ⟨hd₁, hscope₁, hone⟩ := lowerDeclaration_sound declaration
        (fun hplain => (hcore hplain).1) (fun h => hext (.inl h)) hscope hone
      obtain ⟨hd₂, hscope₂, hrest⟩ := lowerDeclarations_sound rest
        (fun hplain => (hcore hplain).2) (fun h => hext (.inr h)) hscope₁ hrest
      refine ⟨hd₁.trans hd₂, hscope₂, fun p hp => ?_⟩
      exact hone p (hp.earlier hd₂ (Nat.le_refl _)) _ _ (hrest p (hp.earlier (.refl _) hd₁.size))

theorem lowerBody_sound : ∀ (body : Body) {plain : Prop} {vs : List TypeVariable} {scope : Scope}
    {d d' : Draft} {body' : FunctionBody} (_ : plain → body.isCore = true)
    (_ : body.hasExternal = true → ∀ name s, native name s)
    (_ : ScopeSound plain vs d.nextVariable scope),
    (lowerBody scope body).run d = .ok (body', d') → BodySound plain native vs scope d d' body'
  | .mk declarations result _, _, _, _, d, d', _, hcore, hext, hscope, h => by
      simp only [lowerBody, run_bind_eq_ok, run_pure_eq_ok, Prod.mk.injEq, Prod.exists] at h
      obtain ⟨ids, scope₁, d₁, hids, node, d₂, hnode, rfl, rfl⟩ := h
      simp only [Body.isCore, Bool.and_eq_true] at hcore
      obtain ⟨hd₁, hscope₁, hids⟩ := lowerDeclarations_sound declarations
        (fun hplain => (hcore hplain).1) hext hscope hids
      obtain ⟨hd₂, hnode⟩ := lowerExpr_sound result (fun hplain => (hcore hplain).2) hscope₁ hnode
      refine ⟨hd₁.trans hd₂, fun p hp => ?_⟩
      exact .mk (hids p (hp.earlier hd₂ (Nat.le_refl _)))
        (hnode p (hp.earlier (.refl _) hd₁.size)).2

end

/-! ## Numbers of nodes -/

theorem lt_of_addNode {form : Form} {span : Span} {d d' : Draft} {id : NodeId}
    (h : (addNode form span).run d = .ok (id, d')) : id < d'.nodes.size := by
  obtain ⟨rfl, rfl⟩ := Prod.mk.inj (run_addNode_eq_ok.mp h)
  simp

/-- The node of an expression is made last. -/
theorem lowerExpr_lt {e : Expr} {scope : Scope} {d d' : Draft} {id : NodeId}
    (h : (lowerExpr scope e).run d = .ok (id, d')) : id < d'.nodes.size := by
  cases e <;> simp only [lowerExpr, run_bind_eq_ok, Prod.exists] at h
  case number | bigInteger | boolean | null | reference => exact lt_of_addNode h
  case object | unary | field | tagged | hasTag | untag =>
    obtain ⟨_, _, -, h⟩ := h
    exact lt_of_addNode h
  case binary | cases =>
    obtain ⟨_, _, -, _, _, -, h⟩ := h
    exact lt_of_addNode h
  case conditional | call =>
    obtain ⟨_, _, -, _, _, -, _, _, -, h⟩ := h
    exact lt_of_addNode h
  case lambda =>
    obtain ⟨_, _, _, -, _, _, _, -, _, _, -, _, _, -, _, _, -, h⟩ := h
    exact lt_of_addNode h

theorem lowerBody_lt {body : Body} {scope : Scope} {d d' : Draft} {body' : FunctionBody}
    (h : (lowerBody scope body).run d = .ok (body', d')) : body'.result < d'.nodes.size := by
  cases body with
  | mk declarations result _ =>
      simp only [lowerBody, run_bind_eq_ok, run_pure_eq_ok, Prod.mk.injEq, Prod.exists] at h
      obtain ⟨_, _, _, -, node, _, hnode, rfl, rfl⟩ := h
      exact lowerExpr_lt hnode

end Lowering

namespace Program

theorem lowerBody_of_ofTree {tree : Tree} {p : Program} (h : ofTree tree = .ok p) :
    ∃ d, (Lowering.lowerBody .root tree.body).run ⟨#[], #[], 0⟩ = .ok (p.body, d) ∧
      p.nodes = d.nodes ∧ p.bindings = d.bindings := by
  simp only [ofTree] at h
  cases hrun : (Lowering.lowerBody .root tree.body).run ⟨#[], #[], 0⟩ with
  | error e => simp [hrun, Bind.bind, Except.bind] at h
  | ok found =>
      obtain ⟨body, d⟩ := found
      simp only [hrun, Bind.bind, Except.bind, pure, Except.pure, Except.ok.injEq] at h
      subst h
      exact ⟨d, rfl, rfl, rfl⟩

theorem result_lt_of_ofTree {tree : Tree} {p : Program} (h : ofTree tree = .ok p) :
    p.body.result < p.nodes.size := by
  obtain ⟨d, hrun, hnodes, -⟩ := lowerBody_of_ofTree h
  rw [hnodes]
  exact Lowering.lowerBody_lt hrun

/-- A program made from a tree is well-scoped, and monomorphic where the tree is in the core. -/
theorem scopedBody_of_ofTree {tree : Tree} {p : Program} {plain : Prop}
    {native : String → Signature → Prop} (hcore : plain → tree.body.isCore = true)
    (hext : tree.body.hasExternal = true → ∀ name s, native name s) (h : ofTree tree = .ok p) :
    p.ScopedBody plain native [] [] p.body := by
  obtain ⟨d, hrun, hnodes, hbindings⟩ := lowerBody_of_ofTree h
  obtain ⟨-, hbody⟩ := Lowering.lowerBody_sound tree.body hcore hext Lowering.scopeSound_root hrun
  refine hbody _ ⟨fun id n hn => ?_, fun id b _ hb => ?_⟩
  · rw [hnodes]
    exact hn
  · rw [hbindings]
    exact hb

end Program

end Sable
