import Sable.Proofs.Lowering.Layout
import Sable.Proofs.Lowering.Reached
import Sable.Proofs.Reader.Nested
import Sable.Proofs.Typing.Rules

/-! Lowering keeps expressions in place.

Reading and lowering go through the expressions in the same order, each after those that it is made of. So lowering
makes one node for each expression, under the number that the expression has in the tree. -/
namespace Sable

/-! ## Expressions in order -/

/-- The expressions that the expression is made of. -/
def Expr.operands : Expr → List Expr
  | number .. | bigInteger .. | boolean .. | null _ | reference .. => []
  | object _ fields => fields.map (·.value)
  | binary _ _ lhs rhs => [lhs, rhs]
  | unary _ _ operand => [operand]
  | conditional _ condition thenBranch elseBranch => [condition, thenBranch, elseBranch]
  | call _ callee _ arguments => callee :: arguments
  | lambda _ _ _ _ body => [body]
  | field _ owner _ => [owner]
  | tagged _ value _ | hasTag _ value _ | untag _ value => [value]
  | cases _ scrutinee arms => scrutinee :: arms.map (·.body)

/-- The expressions in an expression, each after those in it. -/
def Expr.postorder (e : Expr) : List Expr := (Item.expr e).expressions

namespace Item

variable {i c : Item}

/-- Types and what is made of types only. -/
def isOfTypes : Item → Bool
  | token _ | type _ | parameter _ | alternative _ => true
  | _ => false

theorem isOfTypes_of_mem_children (h : i.isOfTypes = true) (hc : c ∈ i.children) : c.isOfTypes = true := by
  cases i with
  | token span => cases hc
  | parameter p =>
      simp only [children, List.mem_cons, List.not_mem_nil, or_false] at hc
      rcases hc with rfl | rfl <;> rfl
  | alternative a =>
      obtain rfl := List.mem_singleton.mp hc
      rfl
  | type t =>
      cases t <;> simp only [children, TypeExpr.items, ofGenerics, ofParameters, List.mem_append, List.mem_map,
        List.mem_singleton] at hc
      · obtain ⟨_, -, rfl⟩ := hc
        rfl
      · obtain ⟨_, -, rfl⟩ := hc
        rfl
      · rcases hc with (⟨_, -, rfl⟩ | ⟨_, -, rfl⟩) | rfl <;> rfl
      · rw [hc]
        rfl
  | _ => cases h

theorem expressions_of_isOfTypes (h : i.isOfTypes = true) : i.expressions = [] := by
  induction i using parts_induction with
  | step i ih =>
      rw [expressions_eq, List.flatMap_eq_nil_iff.mpr fun c hc => ih c hc (isOfTypes_of_mem_children h hc)]
      cases i <;> first | rfl | cases h

@[simp]
theorem expressions_type (t : TypeExpr) : (type t).expressions = [] := expressions_of_isOfTypes rfl

@[simp]
theorem expressions_parameter (p : Parameter TypeExpr) : (parameter p).expressions = [] := expressions_of_isOfTypes rfl

@[simp]
theorem expressions_alternative (a : Alternative) : (alternative a).expressions = [] := expressions_of_isOfTypes rfl

@[simp]
theorem flatMap_expressions_ofGenerics (names : Generics) : (ofGenerics names).flatMap expressions = [] := by
  simp [ofGenerics]

@[simp]
theorem flatMap_expressions_ofParameters (ps : ParameterList (Parameter TypeExpr)) :
    (ofParameters ps).flatMap expressions = [] := by simp [ofParameters]

@[simp]
theorem flatMap_expressions_ofType? (t : Option TypeExpr) : (ofType? t).flatMap expressions = [] := by simp [ofType?]

@[simp]
theorem expressions_expr (e : Expr) : (expr e).expressions = e.postorder := rfl

@[simp]
theorem expressions_field (f : FieldInit Expr) : (field f).expressions = f.value.postorder := by
  rw [expressions_eq]
  simp [children, expr?]

@[simp]
theorem expressions_arm (a : MatchArm Expr) : (arm a).expressions = a.body.postorder := by
  rw [expressions_eq]
  simp [children, expr?]

end Item

theorem Expr.postorder_eq (e : Expr) : e.postorder = e.operands.flatMap postorder ++ [e] := by
  rw [postorder, Item.expressions_eq]
  refine congrArg (· ++ [e]) ?_
  cases e <;> simp [Item.children, items, operands, List.flatMap_map]

theorem Expr.length_postorder_lt {e operand : Expr} (h : operand ∈ e.operands) :
    operand.postorder.length < e.postorder.length := by
  have hsublist := List.sublist_flatten_of_mem (List.mem_map_of_mem (f := postorder) h)
  rw [postorder_eq e, List.flatMap_def, List.length_append, List.length_singleton]
  exact Nat.lt_succ_of_le hsublist.length_le

namespace Item

theorem expressions_body (b : Body) :
    (body b).expressions = (b.declarations.map declaration).flatMap expressions ++ b.result.postorder := by
  rw [expressions_eq]
  simp [children, Body.items, expr?]

theorem expressions_declaration (d : Declaration) : (declaration d).expressions = match d with
    | .value _ _ _ value => value.postorder
    | .function _ _ _ _ _ b => (body b).expressions
    | _ => [] := by
  rw [expressions_eq]
  cases d <;> simp [children, Declaration.items, expr?]

end Item

/-! ## Lowered expressions -/

namespace Lowering

/-- The node of an expression. -/
def Stands (p : Program) (site : Site) (form : Form) : Prop := p.nodes[site.id]? = some ⟨form, site.span⟩

/-- The arm of a match on the node `scrutinee`, with the binding of its payload. -/
structure ArmStands (p : Program) (scrutinee : NodeId) (a : MatchArm Expr) (arm : Arm) : Prop where
  tag : arm.tag = a.tag.value
  body : arm.body = a.body.site.id
  span : arm.span = a.span
  binding : p.bindings[arm.binding]? = some (.payload a.binding.value a.binding.span scrutinee a.tag.value)

/-- The scope in the arm of a match. -/
def armScope (scope : Scope) (subject : Expr) (a : MatchArm Expr) (arm : Arm) : Scope :=
  (narrowedScope scope subject a.tag.value).withValue a.binding.value (.bound arm.binding)

/-- The program has the expression, with all that is in it. An expression stands at its own number; it is referred to
by this number, and every expression in it is lowered in the scope that it has there. -/
inductive Lowered (p : Program) : Scope → Expr → Prop
  | number {scope : Scope} {site : Site} {x : Float} (h : Stands p site (.number x)) : Lowered p scope (.number site x)
  | bigInteger {scope : Scope} {site : Site} {digits : String}
      (h : Stands p site (.bigInteger (Token.digitsValue digits.toList))) : Lowered p scope (.bigInteger site digits)
  | boolean {scope : Scope} {site : Site} {b : Bool} (h : Stands p site (.boolean b)) :
      Lowered p scope (.boolean site b)
  | null {scope : Scope} {site : Site} (h : Stands p site .null) : Lowered p scope (.null site)
  | object {scope : Scope} {site : Site} {fields : List (FieldInit Expr)}
      (h : Stands p site (.object (fields.map fun f => (f.name, f.value.site.id))))
      (hfields : ∀ f ∈ fields, Lowered p scope f.value) : Lowered p scope (.object site fields)
  | reference {scope : Scope} {site : Site} {name : String} (h : Stands p site (.reference name (scope.value? name))) :
      Lowered p scope (.reference site name)
  | binary {scope : Scope} {site : Site} {op : BinaryOp} {lhs rhs : Expr}
      (h : Stands p site (binaryForm op lhs.site.id rhs.site.id)) (hlhs : Lowered p scope lhs)
      (hrhs : Lowered p scope rhs) : Lowered p scope (.binary site op lhs rhs)
  | unary {scope : Scope} {site : Site} {op : UnaryOp} {operand : Expr}
      (h : Stands p site (unaryForm op operand.site.id)) (hoperand : Lowered p scope operand) :
      Lowered p scope (.unary site op operand)
  | conditional {scope : Scope} {site : Site} {condition yes no : Expr}
      (h : Stands p site (.conditional condition.site.id yes.site.id no.site.id))
      (hcondition : Lowered p scope condition) (hyes : Lowered p (branchScopes scope condition).1 yes)
      (hno : Lowered p (branchScopes scope condition).2 no) : Lowered p scope (.conditional site condition yes no)
  | call {scope : Scope} {site : Site} {callee : Expr} {typeArguments : List TypeExpr} {arguments : List Expr}
      {types : List Ty} {d d' : Draft} (h : Stands p site (.call callee.site.id types (arguments.map (·.site.id))))
      (hcallee : Lowered p scope callee) (htypes : (lowerTypes scope typeArguments).run d = .ok (types, d'))
      (harguments : ∀ a ∈ arguments, Lowered p scope a) : Lowered p scope (.call site callee typeArguments arguments)
  | lambda {scope inner : Scope} {site : Site} {names : Generics} {ps : ParameterList (Parameter TypeExpr)}
      {written : Option TypeExpr} {body : Expr} {vs : List TypeVariable} {arguments : Parameters}
      {ids : List BindingId} {result : Option Ty} {d d₁ d₂ d₃ : Draft}
      (h : Stands p site (.lambda ⟨vs, arguments, ids, result⟩ ⟨[], body.site.id⟩))
      (hnames : (lowerGenerics scope names).run d = .ok ((vs, inner), d₁))
      (hps : (lowerSignatureParameters inner ps).run d₁ = .ok ((arguments, ids), d₂))
      (hresult : (lowerType? inner written).run d₂ = .ok (result, d₃))
      (hbody : Lowered p (bindAll d₃.bindings inner ids) body) : Lowered p scope (.lambda site names ps written body)
  | field {scope : Scope} {site : Site} {owner : Expr} {name : String} (h : Stands p site (.field owner.site.id name))
      (howner : Lowered p scope owner) : Lowered p scope (.field site owner name)
  | tagged {scope : Scope} {site : Site} {value : Expr} {tag : String} (h : Stands p site (.tagged value.site.id tag))
      (hvalue : Lowered p scope value) : Lowered p scope (.tagged site value tag)
  | hasTag {scope : Scope} {site : Site} {value : Expr} {tag : String} (h : Stands p site (.hasTag value.site.id tag))
      (hvalue : Lowered p scope value) : Lowered p scope (.hasTag site value tag)
  | untag {scope : Scope} {site : Site} {value : Expr} (h : Stands p site (.untag value.site.id))
      (hvalue : Lowered p scope value) : Lowered p scope (.untag site value)
  | cases {scope : Scope} {site : Site} {scrutinee : Expr} {arms : List (MatchArm Expr)} {lowered : List Arm}
      (h : Stands p site (.cases scrutinee.site.id lowered))
      (harms : List.Forall₂ (ArmStands p scrutinee.site.id) arms lowered) (hscrutinee : Lowered p scope scrutinee)
      (hbodies : ∀ a arm, (a, arm) ∈ arms.zip lowered → Lowered p (armScope scope scrutinee a arm) a.body) :
      Lowered p scope (.cases site scrutinee arms)

variable {p : Program} {scope : Scope} {e inner : Expr}

/-- The node of a lowered expression has its span. -/
theorem Lowered.exists_node (h : Lowered p scope e) : ∃ form, p.nodes[e.site.id]? = some ⟨form, e.span⟩ := by
  cases h <;> exact ⟨_, ‹Stands p _ _›⟩

/-- What a lowered expression is made of is lowered. -/
theorem Lowered.operand (h : Lowered p scope e) (hinner : inner ∈ e.operands) : ∃ scope', Lowered p scope' inner := by
  cases h <;> simp only [Expr.operands, List.mem_cons, List.mem_map, List.not_mem_nil, or_false] at hinner
  case object h hfields =>
    obtain ⟨f, hf, rfl⟩ := hinner
    exact ⟨_, hfields f hf⟩
  case binary => rcases hinner with rfl | rfl <;> exact ⟨_, ‹_›⟩
  case conditional => rcases hinner with rfl | rfl | rfl <;> exact ⟨_, ‹_›⟩
  case call h hcallee htypes harguments =>
    rcases hinner with rfl | hinner
    · exact ⟨_, hcallee⟩
    · exact ⟨_, harguments _ hinner⟩
  case cases h harms hscrutinee hbodies =>
    rcases hinner with rfl | ⟨a, ha, rfl⟩
    · exact ⟨_, hscrutinee⟩
    · rw [← List.map_fst_zip (Nat.le_of_eq harms.length_eq), List.mem_map] at ha
      obtain ⟨⟨a, arm⟩, hmem, rfl⟩ := ha
      exact ⟨_, hbodies a arm hmem⟩
  all_goals
    subst hinner
    exact ⟨_, ‹_›⟩

/-- So is everything in it. -/
theorem Lowered.inside {e inner : Expr} {scope : Scope} (h : Lowered p scope e) (hinner : inner ∈ e.postorder) :
    ∃ scope', Lowered p scope' inner := by
  rw [e.postorder_eq, List.mem_append, List.mem_flatMap, List.mem_singleton] at hinner
  rcases hinner with ⟨operand, hoperand, hinner⟩ | rfl
  · obtain ⟨scope', hlowered⟩ := h.operand hoperand
    have := Expr.length_postorder_lt hoperand
    exact hlowered.inside hinner
  · exact ⟨scope, h⟩
termination_by e.postorder.length

/-! ## Numbers in order -/

/-- The expressions have the numbers from `n` on. -/
def Numbered : Nat → List Expr → Prop
  | _, [] => True
  | n, e :: rest => e.site.id = n ∧ Numbered (n + 1) rest

theorem numbered_append {n : Nat} {xs ys : List Expr} :
    Numbered n (xs ++ ys) ↔ Numbered n xs ∧ Numbered (n + xs.length) ys := by
  induction xs generalizing n with
  | nil => simp [Numbered]
  | cons e rest ih =>
      rw [List.cons_append, Numbered, Numbered, ih, List.length_cons, and_assoc, Nat.add_assoc, Nat.add_comm 1]

theorem numbered_of_getElem? {n : Nat} {es : List Expr} (h : ∀ i e, es[i]? = some e → e.site.id = n + i) :
    Numbered n es := by
  induction es generalizing n with
  | nil => trivial
  | cons e rest ih =>
      refine ⟨h 0 e rfl, ih fun i e he => ?_⟩
      rw [h (i + 1) e he]
      omega

theorem Numbered.operands {n : Nat} {e : Expr} (h : Numbered n e.postorder) :
    Numbered n (e.operands.flatMap Expr.postorder) := by
  rw [e.postorder_eq] at h
  exact (numbered_append.mp h).1

/-- Between two drafts there is one node more for each of the expressions. What holds of them holds in every program
that agrees with the later draft. -/
structure Adds (d d' : Draft) (es : List Expr) (holds : Program → Prop) : Prop where
  grows : Grows d d'
  size : d'.nodes.size = d.nodes.size + es.length
  holds : ∀ p, Agrees p d' d.bindings.size → holds p

namespace Adds

variable {d d₁ d' : Draft} {xs ys es : List Expr} {holds holds' : Program → Prop}

theorem append (h : Adds d d₁ xs holds) (h' : Adds d₁ d' ys holds') :
    Adds d d' (xs ++ ys) fun p => holds p ∧ holds' p where
  grows := h.grows.trans h'.grows
  size := by rw [h'.size, h.size, List.length_append, Nat.add_assoc]
  holds p hp :=
    ⟨h.holds p (hp.earlier h'.grows (Nat.le_refl _)), h'.holds p (hp.earlier (.refl _) h.grows.size)⟩

theorem imp (h : Adds d d' es holds) (himp : ∀ p, holds p → holds' p) : Adds d d' es holds' :=
  ⟨h.grows, h.size, fun p hp => himp p (h.holds p hp)⟩

/-- The numbers of what comes next. -/
theorem numbered (h : Adds d d' xs holds) (hnumbered : Numbered d.nodes.size (xs ++ ys)) :
    Numbered d'.nodes.size ys := by
  rw [h.size]
  exact (numbered_append.mp hnumbered).2

/-- The node of an expression after those of its operands. -/
theorem addNode {e : Expr} {form : Form} {scope : Scope} (h : Adds d d' es holds)
    (hes : es = e.operands.flatMap Expr.postorder) (hnumbered : Numbered d.nodes.size e.postorder)
    (hlowered : ∀ p, Stands p e.site form → holds p → Lowered p scope e) :
    d'.nodes.size = e.site.id ∧ Adds d { d' with nodes := d'.nodes.push ⟨form, e.span⟩ } e.postorder
      (Lowered · scope e) := by
  rw [e.postorder_eq, ← hes] at hnumbered ⊢
  obtain ⟨hid, -⟩ := h.numbered hnumbered
  refine ⟨hid.symm, h.grows.trans (grows_addNode _ _), ?_, fun p hp => ?_⟩
  · rw [Array.size_push, h.size, List.length_append, List.length_singleton, Nat.add_assoc]
  · obtain ⟨-, hp'⟩ := hp.addNode
    refine hlowered p ?_ (h.holds p hp')
    rw [Stands, hid]
    exact hp.nodes _ _ Array.getElem?_push_size

end Adds

theorem TypesOnly.adds {d d' : Draft} (h : TypesOnly d d') : Adds d d' [] fun _ => True :=
  ⟨h.grows, congrArg Array.size h.nodes, fun _ _ => trivial⟩

theorem adds_addBinding (d : Draft) (b : Binding) :
    Adds d { d with bindings := d.bindings.push b } [] fun p => p.bindings[d.bindings.size]? = some b :=
  ⟨grows_addBinding d b, rfl, fun _ hp => hp.bindings _ _ (Nat.le_refl _) Array.getElem?_push_size⟩

theorem nodes_addParameters {ps : List (String × Ty)} {spans : List Span} {d d' : Draft} {ids : List BindingId}
    (h : (addParameters ps spans).run d = .ok (ids, d')) : d'.nodes = d.nodes := by
  induction ps generalizing spans d ids with
  | nil =>
      simp only [addParameters, run_pure_eq_ok, Prod.mk.injEq] at h
      rw [h.2]
  | cons q rest ih =>
      cases spans with
      | nil =>
          simp only [addParameters, run_pure_eq_ok, Prod.mk.injEq] at h
          rw [h.2]
      | cons span spans =>
          simp only [addParameters, run_bind_eq_ok, run_addBinding_eq_ok, run_pure_eq_ok, Prod.mk.injEq] at h
          obtain ⟨_, _, ⟨rfl, rfl⟩, ids', d₂, hrest, rfl, rfl⟩ := h
          have hnodes := ih hrest
          exact hnodes

theorem nodes_lowerSignatureParameters {ps : ParameterList (Parameter TypeExpr)} {vs : List TypeVariable}
    {scope : Scope} {d d' : Draft} {arguments : Parameters} {ids : List BindingId}
    (hscope : ScopeSound False vs d.nextVariable scope)
    (h : (lowerSignatureParameters scope ps).run d = .ok ((arguments, ids), d')) : d'.nodes = d.nodes := by
  simp only [lowerSignatureParameters, run_bind_eq_ok, run_pure_eq_ok, Prod.mk.injEq] at h
  obtain ⟨arguments', d₁, hps, ids', d₂, hadd, ⟨rfl, rfl⟩, rfl⟩ := h
  rw [nodes_addParameters hadd, (lowerParameters_scoped ps False.elim hscope hps).1.nodes]

section

variable {names : Generics} {ps : ParameterList (Parameter TypeExpr)} {vs us : List TypeVariable} {scope inner : Scope}
  {d d₁ d₂ d₃ : Draft} {arguments : Parameters} {ids : List BindingId}

/-- What comes before the body of a function makes no nodes. -/
theorem adds_parameters (hscope : ScopeSound False vs d.nextVariable scope)
    (hnames : (lowerGenerics scope names).run d = .ok ((us, inner), d₁))
    (hps : (lowerSignatureParameters inner ps).run d₁ = .ok ((arguments, ids), d₂)) :
    Adds d d₂ [] (fun _ => True) ∧ ScopeSound False (us ++ vs) d₂.nextVariable inner := by
  obtain ⟨hg, -⟩ := lowerGenerics_sound hnames hscope
  have hparameters := lowerSignatureParameters_sound False.elim hg.sound hps
  refine ⟨⟨hg.typesOnly.grows.trans hparameters.grows, ?_, fun _ _ => trivial⟩, hg.sound.later hparameters.grows.next⟩
  rw [nodes_lowerSignatureParameters hg.sound hps, hg.typesOnly.nodes]
  rfl

theorem adds_signature {written : Option TypeExpr} {result : Option Ty}
    (hscope : ScopeSound False vs d.nextVariable scope)
    (hnames : (lowerGenerics scope names).run d = .ok ((us, inner), d₁))
    (hps : (lowerSignatureParameters inner ps).run d₁ = .ok ((arguments, ids), d₂))
    (hresult : (lowerType? inner written).run d₂ = .ok (result, d₃)) :
    Adds d d₃ [] (fun _ => True) ∧ ScopeSound False (us ++ vs) d₃.nextVariable inner := by
  obtain ⟨hbefore, hinner⟩ := adds_parameters hscope hnames hps
  have hd₃ := (lowerType?_scoped False.elim hinner hresult).1
  exact ⟨(hbefore.append hd₃.adds).imp fun _ _ => trivial, hinner.later hd₃.next⟩

end

/-! ## Expressions -/

mutual

/-- Where the expressions in an expression have the next numbers, lowering it gives them their nodes. -/
theorem lowerExpr_inPlace : ∀ (e : Expr) {vs : List TypeVariable} {scope : Scope} {d d' : Draft} {id : NodeId}
    (_ : ScopeSound False vs d.nextVariable scope) (_ : Numbered d.nodes.size e.postorder),
    (lowerExpr scope e).run d = .ok (id, d') → id = e.site.id ∧ Adds d d' e.postorder (Lowered · scope e)
  | .number _ _, _, _, d, _, _, _, hn, h | .bigInteger _ _, _, _, d, _, _, _, hn, h
  | .boolean _ _, _, _, d, _, _, _, hn, h | .null _, _, _, d, _, _, _, hn, h
  | .reference _ _, _, _, d, _, _, _, hn, h => by
      simp only [lowerExpr, run_addNode_eq_ok, Prod.mk.injEq] at h
      obtain ⟨rfl, rfl⟩ := h
      refine (TypesOnly.refl d).adds.addNode rfl hn fun p h _ => ?_
      first
        | exact .number h
        | exact .bigInteger h
        | exact .boolean h
        | exact .null h
        | exact .reference h
  | .object site fields, _, _, d, d', id, hscope, hn, h => by
      simp only [lowerExpr, run_bind_eq_ok, run_addNode_eq_ok, Prod.mk.injEq] at h
      obtain ⟨ids, d₁, hfields, rfl, rfl⟩ := h
      have hn' := hn.operands
      rw [Expr.operands, List.flatMap_map] at hn'
      obtain ⟨rfl, hvalues⟩ := lowerFields_inPlace fields hscope hn' hfields
      exact hvalues.addNode (List.flatMap_map ..).symm hn fun p h hp => .object h hp
  | .binary site op lhs rhs, _, scope, d, d', id, hscope, hn, h => by
      simp only [lowerExpr, run_bind_eq_ok, run_addNode_eq_ok, Prod.mk.injEq] at h
      obtain ⟨l, d₁, hl, r, d₂, hr, rfl, rfl⟩ := h
      have hn' := hn.operands
      simp only [Expr.operands, List.flatMap_cons, List.flatMap_nil, List.append_nil] at hn'
      obtain ⟨rfl, hlhs⟩ := lowerExpr_inPlace lhs hscope (numbered_append.mp hn').1 hl
      obtain ⟨rfl, hrhs⟩ := lowerExpr_inPlace rhs (hscope.later hlhs.grows.next) (hlhs.numbered hn') hr
      exact (hlhs.append hrhs).addNode (by simp [Expr.operands]) hn fun p h hp => .binary h hp.1 hp.2
  | .conditional site condition thenBranch elseBranch, _, _, d, d', id, hscope, hn, h => by
      simp only [lowerExpr, run_bind_eq_ok, run_addNode_eq_ok, Prod.mk.injEq] at h
      obtain ⟨c, d₁, hc, t, d₂, ht, e, d₃, he, rfl, rfl⟩ := h
      have hn' := hn.operands
      simp only [Expr.operands, List.flatMap_cons, List.flatMap_nil, List.append_nil] at hn'
      have hbranches := hscope.branches condition
      obtain ⟨rfl, hcondition⟩ := lowerExpr_inPlace condition hscope (numbered_append.mp hn').1 hc
      have hn' := hcondition.numbered hn'
      obtain ⟨rfl, hthen⟩ :=
        lowerExpr_inPlace thenBranch (hbranches.1.later hcondition.grows.next) (numbered_append.mp hn').1 ht
      have hgrows := hcondition.grows.trans hthen.grows
      obtain ⟨rfl, helse⟩ :=
        lowerExpr_inPlace elseBranch (hbranches.2.later hgrows.next) (hthen.numbered hn') he
      exact ((hcondition.append hthen).append helse).addNode (by simp [Expr.operands]) hn fun p h hp =>
        .conditional h hp.1.1 hp.1.2 hp.2
  | .call site callee types arguments, _, _, d, d', id, hscope, hn, h => by
      simp only [lowerExpr, run_bind_eq_ok, run_addNode_eq_ok, Prod.mk.injEq] at h
      obtain ⟨f, d₁, hf, written, d₂, htypes, ids, d₃, hids, rfl, rfl⟩ := h
      have hn' := hn.operands
      rw [Expr.operands, List.flatMap_cons] at hn'
      obtain ⟨rfl, hcallee⟩ := lowerExpr_inPlace callee hscope (numbered_append.mp hn').1 hf
      have hd₂ := (lowerTypes_scoped types False.elim (hscope.later hcallee.grows.next) htypes).1
      have hboth := hcallee.append hd₂.adds
      rw [List.append_nil] at hboth
      obtain ⟨rfl, harguments⟩ :=
        lowerExprs_inPlace arguments (hscope.later hboth.grows.next) (hboth.numbered hn') hids
      exact (hboth.append harguments).addNode (by simp [Expr.operands]) hn fun p h hp => .call h hp.1.1 htypes hp.2
  | .lambda site names ps result body, vs, scope, d, d', id, hscope, hn, h => by
      simp only [lowerExpr, run_bind_eq_ok, run_addNode_eq_ok, run_bindParameters_eq_ok, Prod.mk.injEq,
        Prod.exists] at h
      obtain ⟨us, inner, d₁, hgenerics, arguments, ids, d₂, hps, result', d₃, hresult, _, _, ⟨rfl, rfl⟩, value, d₄,
        hvalue, rfl, rfl⟩ := h
      have hn' := hn.operands
      rw [Expr.operands, List.flatMap_singleton] at hn'
      obtain ⟨hbefore, hinner⟩ := adds_signature hscope hgenerics hps hresult
      obtain ⟨rfl, hbody⟩ := lowerExpr_inPlace body (hinner.bindAll _ _) (hbefore.numbered hn') hvalue
      exact (hbefore.append hbody).addNode (by simp [Expr.operands]) hn fun p h hp =>
        .lambda h hgenerics hps hresult hp.2
  | .unary site _ value, _, _, d, d', id, hscope, hn, h | .field site value _, _, _, d, d', id, hscope, hn, h
  | .tagged site value _, _, _, d, d', id, hscope, hn, h | .hasTag site value _, _, _, d, d', id, hscope, hn, h
  | .untag site value, _, _, d, d', id, hscope, hn, h => by
      simp only [lowerExpr, run_bind_eq_ok, run_addNode_eq_ok, Prod.mk.injEq] at h
      obtain ⟨v, d₁, hv, rfl, rfl⟩ := h
      have hn' := hn.operands
      rw [Expr.operands, List.flatMap_singleton] at hn'
      obtain ⟨rfl, hvalue⟩ := lowerExpr_inPlace value hscope hn' hv
      refine hvalue.addNode (List.flatMap_singleton ..).symm hn fun p h hp => ?_
      first
        | exact .unary h hp
        | exact .field h hp
        | exact .tagged h hp
        | exact .hasTag h hp
        | exact .untag h hp
  | .cases site scrutinee arms, _, _, d, d', id, hscope, hn, h => by
      simp only [lowerExpr, run_bind_eq_ok, run_addNode_eq_ok, Prod.mk.injEq] at h
      obtain ⟨s, d₁, hs, arms', d₂, harms, rfl, rfl⟩ := h
      have hn' := hn.operands
      rw [Expr.operands, List.flatMap_cons, List.flatMap_map] at hn'
      obtain ⟨rfl, hscrutinee⟩ := lowerExpr_inPlace scrutinee hscope (numbered_append.mp hn').1 hs
      have hall := lowerArms_inPlace arms (hscope.later hscrutinee.grows.next) (hscrutinee.numbered hn') harms
      exact (hscrutinee.append hall).addNode (by simp [Expr.operands, List.flatMap_map]) hn fun p h hp =>
        .cases h hp.2.1 hp.1 hp.2.2

theorem lowerExprs_inPlace : ∀ (es : List Expr) {vs : List TypeVariable} {scope : Scope} {d d' : Draft}
    {ids : List NodeId} (_ : ScopeSound False vs d.nextVariable scope)
    (_ : Numbered d.nodes.size (es.flatMap Expr.postorder)), (lowerExprs scope es).run d = .ok (ids, d') →
      ids = es.map (·.site.id) ∧ Adds d d' (es.flatMap Expr.postorder) fun p => ∀ e ∈ es, Lowered p scope e
  | [], _, _, d, d', ids, _, _, h => by
      simp only [lowerExprs, run_pure_eq_ok, Prod.mk.injEq] at h
      obtain ⟨rfl, rfl⟩ := h
      exact ⟨rfl, (TypesOnly.refl _).adds.imp fun _ _ => nofun⟩
  | e :: rest, _, _, d, d', ids, hscope, hn, h => by
      simp only [lowerExprs, run_bind_eq_ok, run_pure_eq_ok, Prod.mk.injEq] at h
      obtain ⟨id, d₁, he, ids', d₂, hrest, rfl, rfl⟩ := h
      rw [List.flatMap_cons] at hn
      obtain ⟨rfl, hfirst⟩ := lowerExpr_inPlace e hscope (numbered_append.mp hn).1 he
      obtain ⟨rfl, hothers⟩ := lowerExprs_inPlace rest (hscope.later hfirst.grows.next) (hfirst.numbered hn) hrest
      exact ⟨rfl, (hfirst.append hothers).imp fun p hp => List.forall_mem_cons.mpr hp⟩

theorem lowerFields_inPlace : ∀ (fields : List (FieldInit Expr)) {vs : List TypeVariable} {scope : Scope}
    {d d' : Draft} {ids : List (String × NodeId)} (_ : ScopeSound False vs d.nextVariable scope)
    (_ : Numbered d.nodes.size (fields.flatMap (·.value.postorder))), (lowerFields scope fields).run d = .ok (ids, d') →
      ids = fields.map (fun f => (f.name, f.value.site.id)) ∧
        Adds d d' (fields.flatMap (·.value.postorder)) fun p => ∀ f ∈ fields, Lowered p scope f.value
  | [], _, _, d, d', ids, _, _, h => by
      simp only [lowerFields, run_pure_eq_ok, Prod.mk.injEq] at h
      obtain ⟨rfl, rfl⟩ := h
      exact ⟨rfl, (TypesOnly.refl _).adds.imp fun _ _ => nofun⟩
  | ⟨name, value, _⟩ :: rest, _, _, d, d', ids, hscope, hn, h => by
      simp only [lowerFields, run_bind_eq_ok, run_pure_eq_ok, Prod.mk.injEq] at h
      obtain ⟨id, d₁, he, ids', d₂, hrest, rfl, rfl⟩ := h
      rw [List.flatMap_cons] at hn
      obtain ⟨rfl, hfirst⟩ := lowerExpr_inPlace value hscope (numbered_append.mp hn).1 he
      obtain ⟨rfl, hothers⟩ := lowerFields_inPlace rest (hscope.later hfirst.grows.next) (hfirst.numbered hn) hrest
      exact ⟨rfl, (hfirst.append hothers).imp fun p hp => List.forall_mem_cons.mpr hp⟩

theorem lowerArms_inPlace : ∀ (arms : List (MatchArm Expr)) {vs : List TypeVariable} {scope : Scope}
    {subject : Expr} {scrutinee : NodeId} {d d' : Draft} {lowered : List Arm}
    (_ : ScopeSound False vs d.nextVariable scope) (_ : Numbered d.nodes.size (arms.flatMap (·.body.postorder))),
    (lowerArms scope subject scrutinee arms).run d = .ok (lowered, d') →
      Adds d d' (arms.flatMap (·.body.postorder)) fun p => List.Forall₂ (ArmStands p scrutinee) arms lowered ∧
        ∀ a arm, (a, arm) ∈ arms.zip lowered → Lowered p (armScope scope subject a arm) a.body
  | [], _, _, _, _, d, d', lowered, _, _, h => by
      simp only [lowerArms, run_pure_eq_ok, Prod.mk.injEq] at h
      obtain ⟨rfl, rfl⟩ := h
      exact (TypesOnly.refl _).adds.imp fun _ _ => ⟨.nil, nofun⟩
  | ⟨tag, name, body, span⟩ :: rest, _, scope, subject, scrutinee, d, d', lowered, hscope, hn, h => by
      simp only [lowerArms, run_bind_eq_ok, run_addBinding_eq_ok, run_pure_eq_ok, Prod.mk.injEq] at h
      obtain ⟨_, _, ⟨rfl, rfl⟩, value, d₁, hvalue, arms', d₂, hrest, rfl, rfl⟩ := h
      have hadd := adds_addBinding d (.payload name.value name.span scrutinee tag.value)
      rw [List.flatMap_cons] at hn
      obtain ⟨rfl, hbody⟩ := lowerExpr_inPlace body
        (((hscope.narrowed subject tag.value).withValue _ _).later hadd.grows.next) (numbered_append.mp hn).1 hvalue
      have hfirst := hadd.append hbody
      rw [List.nil_append] at hfirst
      have hothers := lowerArms_inPlace rest (hscope.later hfirst.grows.next) (hfirst.numbered hn) hrest
      refine (hfirst.append hothers).imp fun p ⟨⟨hbinding, hbody⟩, harms, hbodies⟩ => ?_
      refine ⟨.cons ⟨rfl, rfl, rfl, hbinding⟩ harms, fun a arm ha => ?_⟩
      rcases List.mem_cons.mp ha with heq | ha
      · cases heq
        exact hbody
      · exact hbodies a arm ha

end

/-! ## Declarations and bodies -/

/-- The expressions are lowered, each in its scope. -/
def AllLowered (p : Program) (es : List Expr) : Prop := ∀ e ∈ es, ∃ scope, Lowered p scope e

theorem AllLowered.append {p : Program} {xs ys : List Expr} (h : AllLowered p xs ∧ AllLowered p ys) :
    AllLowered p (xs ++ ys) := List.forall_mem_append.mpr h

theorem Adds.all {d d' : Draft} {scope : Scope} {e : Expr} (h : Adds d d' e.postorder (Lowered · scope e)) :
    Adds d d' e.postorder (AllLowered · e.postorder) := h.imp fun _ hp _ hinner => hp.inside hinner

mutual

theorem lowerDeclaration_inPlace : ∀ (declaration : Declaration) {vs : List TypeVariable} {scope scope' : Scope}
    {d d' : Draft} {id : Option BindingId} (_ : ScopeSound False vs d.nextVariable scope)
    (_ : Numbered d.nodes.size (Item.declaration declaration).expressions),
    (lowerDeclaration scope declaration).run d = .ok ((id, scope'), d') →
      Adds d d' (Item.declaration declaration).expressions (AllLowered · (Item.declaration declaration).expressions)
  | .value span name type value, _, scope, scope', d, d', id, hscope, hn, h => by
      simp only [lowerDeclaration, run_bind_eq_ok, run_addBinding_eq_ok, run_pure_eq_ok, Prod.mk.injEq] at h
      obtain ⟨type', d₁, htype, node, d₂, hnode, _, _, ⟨rfl, rfl⟩, ⟨rfl, rfl⟩, rfl⟩ := h
      simp only [Item.expressions_declaration] at hn ⊢
      have hd₁ := (lowerType?_scoped False.elim hscope htype).1
      obtain ⟨rfl, hvalue⟩ := lowerExpr_inPlace value (hscope.later hd₁.next) (hd₁.adds.numbered hn) hnode
      have hadd := adds_addBinding d₂ (.value name.value span type' value.site.id)
      have hall := (hd₁.adds.append hvalue.all).append hadd
      rw [List.nil_append, List.append_nil] at hall
      exact hall.imp fun _ hp => hp.1.2
  | .function span name names ps result body, vs, scope, scope', d, d', id, hscope, hn, h => by
      simp only [lowerDeclaration, run_bind_eq_ok, run_addBinding_eq_ok, run_setBinding_eq_ok,
        run_bindParameters_eq_ok, run_pure_eq_ok, Prod.mk.injEq, Prod.exists] at h
      obtain ⟨us, inner, d₁, hgenerics, arguments, ids, d₂, hps, result', d₃, hresult, _, _,
        ⟨rfl, rfl⟩, _, _, ⟨rfl, rfl⟩, body', d₅, hbody, _, _, ⟨-, rfl⟩, ⟨rfl, rfl⟩, rfl⟩ := h
      simp only [Item.expressions_declaration] at hn ⊢
      obtain ⟨hbefore, hinner⟩ := adds_signature hscope hgenerics hps hresult
      have hadd := adds_addBinding d₃ (.function name.value span ⟨us, arguments, ids, result'⟩ none)
      have hinside := (hinner.withValue name.value (.enclosing d₃.bindings.size)).bindAll
        (d₃.bindings.push (.function name.value span ⟨us, arguments, ids, result'⟩ none)) ids
      have hentered := hbefore.append hadd
      obtain ⟨-, hlowered⟩ := lowerBody_inPlace body (hinside.later hadd.grows.next) (hentered.numbered hn) hbody
      have hid : d₃.bindings.size < d₅.bindings.size := Nat.lt_of_lt_of_le (by simp) hlowered.grows.size
      have hgrows := grows_setBinding (b := .function name.value span ⟨us, arguments, ids, result'⟩ (some body'))
        (hadd.grows.trans hlowered.grows) (Nat.le_refl _)
      refine ⟨hbefore.grows.trans hgrows, ?_, fun p hp => ?_⟩
      · have hsize := (hentered.append hlowered).size
        exact hsize
      · -- The binding of the function is completed after its body, which does not look at it.
        obtain ⟨-, hp₅⟩ := hp.setBinding hbefore.grows.size hid
        exact hlowered.holds p ⟨hp₅.nodes, fun i c hi => hp₅.bindings i c (by simpa using hi)⟩
  | .external span name names ps result, _, scope, scope', d, d', id, hscope, hn, h => by
      simp only [lowerDeclaration, run_bind_eq_ok, run_addBinding_eq_ok, run_pure_eq_ok, Prod.mk.injEq,
        Prod.exists] at h
      obtain ⟨us, inner, d₁, hgenerics, arguments, ids, d₂, hps, result', d₃, hresult, _, _,
        ⟨rfl, rfl⟩, ⟨rfl, rfl⟩, rfl⟩ := h
      obtain ⟨hbefore, hinner⟩ := adds_parameters hscope hgenerics hps
      have hd₃ := (lowerType_scoped result False.elim hinner hresult).1
      have hadd := adds_addBinding d₃ (.function name.value span ⟨us, arguments, ids, some result'⟩ none)
      rw [Item.expressions_declaration]
      exact ((hbefore.append hd₃.adds).append hadd).imp fun _ _ => nofun
  | .alias _ name names target, _, scope, scope', d, d', id, hscope, hn, h => by
      simp only [lowerDeclaration, run_bind_eq_ok, run_pure_eq_ok, Prod.mk.injEq, Prod.exists] at h
      obtain ⟨us, inner, d₁, hgenerics, type, d₂, htype, ⟨rfl, rfl⟩, rfl⟩ := h
      obtain ⟨hg, -⟩ := lowerGenerics_sound hgenerics hscope
      have hd := hg.typesOnly.trans (lowerType_scoped target False.elim hg.sound htype).1
      rw [Item.expressions_declaration]
      exact hd.adds.imp fun _ _ => nofun
  | .union _ name names alternatives, _, scope, scope', d, d', id, hscope, hn, h => by
      simp only [lowerDeclaration, run_bind_eq_ok, run_pure_eq_ok, Prod.mk.injEq, Prod.exists] at h
      obtain ⟨us, inner, d₁, hgenerics, fields, d₂, hfields, ⟨rfl, rfl⟩, rfl⟩ := h
      obtain ⟨hg, -⟩ := lowerGenerics_sound hgenerics hscope
      have hd := hg.typesOnly.trans (lowerAlternatives_scoped False.elim hg.sound (by exact trivial)
        False.elim hfields).1
      rw [Item.expressions_declaration]
      exact hd.adds.imp fun _ _ => nofun

theorem lowerDeclarations_inPlace : ∀ (declarations : List Declaration) {vs : List TypeVariable}
    {scope scope' : Scope} {d d' : Draft} {ids : List BindingId} (_ : ScopeSound False vs d.nextVariable scope)
    (_ : Numbered d.nodes.size ((declarations.map Item.declaration).flatMap Item.expressions)),
    (lowerDeclarations scope declarations).run d = .ok ((ids, scope'), d') →
      ScopeSound False vs d'.nextVariable scope' ∧
        Adds d d' ((declarations.map Item.declaration).flatMap Item.expressions)
          (AllLowered · ((declarations.map Item.declaration).flatMap Item.expressions))
  | [], _, _, _, d, d', _, hscope, _, h => by
      simp only [lowerDeclarations, run_pure_eq_ok, Prod.mk.injEq] at h
      obtain ⟨⟨rfl, rfl⟩, rfl⟩ := h
      exact ⟨hscope, (TypesOnly.refl _).adds.imp fun _ _ => nofun⟩
  | declaration :: rest, _, scope, scope', d, d', _, hscope, hn, h => by
      simp only [lowerDeclarations, run_bind_eq_ok, run_pure_eq_ok, Prod.mk.injEq, Prod.exists] at h
      obtain ⟨id, scope₁, d₁, hone, ids, scope₂, d₂, hrest, ⟨rfl, rfl⟩, rfl⟩ := h
      rw [List.map_cons, List.flatMap_cons] at hn ⊢
      obtain ⟨-, hscope₁⟩ := lowerDeclaration_scopes hscope hone
      have hfirst := lowerDeclaration_inPlace declaration hscope (numbered_append.mp hn).1 hone
      obtain ⟨hscope₂, hothers⟩ := lowerDeclarations_inPlace rest hscope₁ (hfirst.numbered hn) hrest
      exact ⟨hscope₂, (hfirst.append hothers).imp fun _ => .append⟩

theorem lowerBody_inPlace : ∀ (body : Body) {vs : List TypeVariable} {scope : Scope} {d d' : Draft}
    {body' : FunctionBody} (_ : ScopeSound False vs d.nextVariable scope)
    (_ : Numbered d.nodes.size (Item.body body).expressions), (lowerBody scope body).run d = .ok (body', d') →
      body'.result = body.result.site.id ∧
        Adds d d' (Item.body body).expressions (AllLowered · (Item.body body).expressions)
  | .mk declarations result _, _, _, d, d', _, hscope, hn, h => by
      simp only [lowerBody, run_bind_eq_ok, run_pure_eq_ok, Prod.mk.injEq, Prod.exists] at h
      obtain ⟨ids, scope₁, d₁, hids, node, d₂, hnode, rfl, rfl⟩ := h
      rw [Item.expressions_body] at hn ⊢
      obtain ⟨hscope₁, hdeclared⟩ := lowerDeclarations_inPlace declarations hscope (numbered_append.mp hn).1 hids
      obtain ⟨rfl, hresult⟩ := lowerExpr_inPlace result hscope₁ (hdeclared.numbered hn) hnode
      exact ⟨rfl, (hdeclared.append hresult.all).imp fun _ => .append⟩

end

end Lowering

/-! ## The whole program -/

/-- What an expression is made of is in it. -/
theorem Expr.postorder_of_operand {e operand inner : Expr} (hoperand : operand ∈ e.operands)
    (h : inner ∈ operand.postorder) : inner ∈ e.postorder := by
  rw [e.postorder_eq]
  exact List.mem_append_left _ (List.mem_flatMap.mpr ⟨operand, hoperand, h⟩)

theorem Expr.mem_postorder_self (e : Expr) : e ∈ e.postorder := by
  rw [e.postorder_eq]
  exact List.mem_append_right _ (List.mem_singleton.mpr rfl)

/-- The operands of the expressions in an item are in it, too. -/
theorem Item.mem_expressions_of_operand {i : Item} {e operand : Expr} (he : e ∈ i.expressions)
    (hoperand : operand ∈ e.operands) : operand ∈ i.expressions := by
  induction i using parts_induction with
  | step i ih =>
      rw [expressions_eq, List.mem_append] at he
      rcases he with he | he
      · obtain ⟨c, hc, he⟩ := List.mem_flatMap.mp he
        rw [expressions_eq]
        exact List.mem_append_left _ (List.mem_flatMap.mpr ⟨c, hc, ih c hc he⟩)
      · cases i <;> cases Option.mem_toList.mp he
        exact Expr.postorder_of_operand hoperand operand.mem_postorder_self

/-- The numbers of the expressions are their places. -/
theorem numbered_parse (source : String) {i : Nat} {e : Expr}
    (h : (parse source).tree.nodes.expressions[i]? = some e) : e.site.id = i := by
  obtain ⟨t, hrun, hnodes, -⟩ := Reader.exists_run_parse source
  have hturns := (Reader.hands_program (.start (scan source).tokens)).turns
  rw [hrun] at hturns
  have harranged := hturns.arranged rfl
  rw [hnodes] at h
  have hid := harranged.numbered (.expr i) (.expr e) (congrArg (Option.map TreeNode.expr) h)
  exact TreeNode.Id.expr.inj hid

namespace Tree

/-- The program has the expressions of the tree, one for one and under the same numbers. -/
structure InPlace (tree : Tree) (p : Program) : Prop where
  size : p.nodes.size = tree.expressions
  node : ∀ {i : Nat} {e : Expr}, tree.nodes.expressions[i]? = some e →
    ∃ form scope, p.nodes[i]? = some ⟨form, e.span⟩ ∧ Lowering.Lowered p scope e
  /-- An expression has the number under which it stands, and so do those that it is made of. -/
  number : ∀ {i : Nat} {e : Expr}, tree.nodes.expressions[i]? = some e → e.site.id = i ∧
    ∀ operand ∈ e.operands, tree.nodes.expressions[operand.site.id]? = some operand
  result : p.body.result = tree.body.result.site.id

end Tree

open Lowering in
/-- Lowering makes one node for each expression that was read, in the same place. -/
theorem inPlace_of_ofTree {source : String} {p : Program} (hparse : (parse source).errors = [])
    (h : Program.ofTree (parse source).tree = .ok p) : (parse source).tree.InPlace p := by
  have hlist : (parse source).tree.nodes.expressions.toList = (Item.body (parse source).tree.body).expressions :=
    Reader.expressions_parse hparse
  have hnumbered : Numbered 0 (Item.body (parse source).tree.body).expressions := by
    refine numbered_of_getElem? fun i e he => ?_
    rw [← hlist, Array.getElem?_toList] at he
    rw [numbered_parse source he, Nat.zero_add]
  have hmem {i : Nat} {e : Expr} (he : (parse source).tree.nodes.expressions[i]? = some e) :
      e ∈ (Item.body (parse source).tree.body).expressions := by
    rw [← hlist]
    exact Array.mem_toList_iff.mpr (Array.mem_of_getElem? he)
  obtain ⟨d, hrun, hnodes, hbindings⟩ := Program.lowerBody_of_ofTree h
  obtain ⟨hresult, hadds⟩ := lowerBody_inPlace (d := ⟨#[], #[], 0⟩) _ scopeSound_root hnumbered hrun
  have hall := hadds.holds p ⟨fun _ _ hn => hnodes ▸ hn, fun _ _ _ hb => hbindings ▸ hb⟩
  refine ⟨?_, fun he => ?_, fun he => ⟨numbered_parse source he, fun operand hoperand => ?_⟩, hresult⟩
  · rw [hnodes, hadds.size, ← hlist, Array.length_toList]
    exact Nat.zero_add _
  · obtain ⟨scope, hlowered⟩ := hall _ (hmem he)
    obtain ⟨form, hform⟩ := hlowered.exists_node
    rw [numbered_parse source he] at hform
    exact ⟨form, scope, hform, hlowered⟩
  · have hoperand := Item.mem_expressions_of_operand (hmem he) hoperand
    rw [← hlist, List.mem_iff_getElem?] at hoperand
    obtain ⟨j, hj⟩ := hoperand
    rw [Array.getElem?_toList] at hj
    rwa [numbered_parse source hj]

/-- A function in a body of its own, a call with a type argument, and the branches of an `if`. -/
def nestedSource : String :=
  "def f[A](x: A): A { val g = fn() => x return g() }\n" ++
  "return if s is a then f[Null](s) else match s { b c => c # d }"

theorem inPlace_of_ofTree_nested : ∃ p, (parse nestedSource).errors = [] ∧
    Program.ofTree (parse nestedSource).tree = .ok p ∧ (parse nestedSource).tree.InPlace p := by
  have hboth : ((parse nestedSource).errors.isEmpty && (Program.ofTree (parse nestedSource).tree).isOk) = true := by
    decide +kernel
  rw [Bool.and_eq_true, List.isEmpty_iff] at hboth
  obtain ⟨p, hp⟩ := exists_of_isOk hboth.2
  exact ⟨p, hboth.1, hp, inPlace_of_ofTree hboth.1 hp⟩

end Sable
