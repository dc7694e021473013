import Sable.Proofs.Lowering.Program
import Sable.Proofs.Program.Parts

/-! Lowering lays programs out in order: a node comes after all that its type depends on, a function before
the bindings inside it, and nothing is made that does not lie inside the body of the program. -/
namespace Sable.Lowering

open Program (Part Inside bodyParts functionParts armParts children)

variable {p : Program}

/-! ## Names -/

/-- The types of names depend on nodes before the number `n` only. -/
def NamesLaid (p : Program) (n : Nat) (names : Names) : Prop :=
  ∀ name target, Fields.get? name names = some target → ∀ c ∈ p.targetAsks target, c < n

theorem NamesLaid.later {n n' : Nat} {names : Names} (h : NamesLaid p n names) (hle : n ≤ n') :
    NamesLaid p n' names := fun name target hget c hc => Nat.lt_of_lt_of_le (h name target hget c hc) hle

theorem NamesLaid.cons {n : Nat} {names : Names} (h : NamesLaid p n names) (name : String)
    {target : Target} (htarget : ∀ c ∈ p.targetAsks target, c < n) :
    NamesLaid p n ((name, target) :: names) := by
  intro name' target' hget
  simp only [Fields.get?] at hget
  split at hget
  · obtain rfl := Option.some.inj hget
    exact htarget
  · exact h name' target' hget

theorem NamesLaid.narrowed {n : Nat} {scope : Scope} (h : NamesLaid p n scope.names) (subject : Expr)
    (tag : String) : NamesLaid p n (narrowedScope scope subject tag).names := by
  unfold narrowedScope
  split
  · split
    · rename_i id hget
      exact h.cons _ fun c hc => h _ (.bound id) ((scope.value?_eq _).symm.trans hget) c hc
    · rename_i id own hget
      exact h.cons _ fun c hc => h _ (.narrowed id own) ((scope.value?_eq _).symm.trans hget) c hc
    · exact h
  · exact h

theorem NamesLaid.nonNull {n : Nat} {scope : Scope} (h : NamesLaid p n scope.names) (subject : Expr) :
    NamesLaid p n (nonNullScope scope subject).names := by
  unfold nonNullScope
  split
  · split
    · rename_i id hget
      exact h.cons _ fun c hc => h _ (.bound id) ((scope.value?_eq _).symm.trans hget) c hc
    · rename_i id hget
      exact h.cons _ fun c hc => h _ (.nonNull id) ((scope.value?_eq _).symm.trans hget) c hc
    · exact h
  · exact h

theorem NamesLaid.branches {n : Nat} {scope : Scope} (h : NamesLaid p n scope.names)
    (condition : Expr) : NamesLaid p n (branchScopes scope condition).1.names ∧
      NamesLaid p n (branchScopes scope condition).2.names := by
  unfold branchScopes
  split
  · exact ⟨h.narrowed _ _, h⟩
  · split
    · exact ⟨h, h.nonNull _⟩
    · exact ⟨h, h.nonNull _⟩
    · exact ⟨h, h⟩
  · exact ⟨h, h⟩

/-- The types of parameters depend on nothing. -/
theorem NamesLaid.parameters {n : Nat} {names : Names} (h : NamesLaid p n names) {ids : List BindingId}
    {ps : List (String × Ty)} (hids : List.Forall₂ (fun id (q : String × Ty) =>
      ∃ span, p.binding id = .parameter q.1 span q.2) ids ps) :
    NamesLaid p n (p.boundNames names ids) := by
  induction hids generalizing names with
  | nil => exact h
  | cons hid _ ih =>
      obtain ⟨span, hbinding⟩ := hid
      refine ih (h.cons _ fun c hc => ?_)
      simp [Program.targetAsks, Target.id, Program.bindingAsks, hbinding] at hc

/-! ## Parts -/

/-- The part of a program made between two drafts is laid out, and lies inside the `roots`. -/
structure Laid (p : Program) (d d' : Draft) (roots : List Part) : Prop where
  node : ∀ id, d.nodes.size ≤ id → id < d'.nodes.size →
    p.NodeLaid id ∧ ∃ part ∈ roots, p.Inside part (.node id)
  binding : ∀ id, d.bindings.size ≤ id → id < d'.bindings.size →
    p.BindingLaid id ∧ ∃ part ∈ roots, p.Inside part (.binding id)

theorem Laid.refl (p : Program) (d : Draft) : Laid p d d [] :=
  ⟨fun _ h h' => absurd h (Nat.not_le.mpr h'), fun _ h h' => absurd h (Nat.not_le.mpr h')⟩

theorem Laid.append {d d₁ d₂ : Draft} {roots roots' : List Part} (h : Laid p d d₁ roots)
    (h' : Laid p d₁ d₂ roots') : Laid p d d₂ (roots ++ roots') := by
  constructor
  · intro id hlo hhi
    rcases Nat.lt_or_ge id d₁.nodes.size with hlt | hge
    · obtain ⟨hid, part, hpart, hinside⟩ := h.node id hlo hlt
      exact ⟨hid, part, List.mem_append_left _ hpart, hinside⟩
    · obtain ⟨hid, part, hpart, hinside⟩ := h'.node id hge hhi
      exact ⟨hid, part, List.mem_append_right _ hpart, hinside⟩
  · intro id hlo hhi
    rcases Nat.lt_or_ge id d₁.bindings.size with hlt | hge
    · obtain ⟨hid, part, hpart, hinside⟩ := h.binding id hlo hlt
      exact ⟨hid, part, List.mem_append_left _ hpart, hinside⟩
    · obtain ⟨hid, part, hpart, hinside⟩ := h'.binding id hge hhi
      exact ⟨hid, part, List.mem_append_right _ hpart, hinside⟩

/-- Parts made inside a larger part. -/
theorem Laid.within {d d' : Draft} {roots roots' : List Part} (h : Laid p d d' roots)
    (hroots : ∀ part ∈ roots, ∃ part' ∈ roots', p.Inside part' part) : Laid p d d' roots' := by
  constructor
  · intro id hlo hhi
    obtain ⟨hid, part, hpart, hinside⟩ := h.node id hlo hhi
    obtain ⟨part', hpart', houter⟩ := hroots part hpart
    exact ⟨hid, part', hpart', houter.trans hinside⟩
  · intro id hlo hhi
    obtain ⟨hid, part, hpart, hinside⟩ := h.binding id hlo hhi
    obtain ⟨part', hpart', houter⟩ := hroots part hpart
    exact ⟨hid, part', hpart', houter.trans hinside⟩

theorem TypesOnly.laid {d d' : Draft} (h : TypesOnly d d') (p : Program) : Laid p d d' [] := by
  obtain ⟨hnodes, hbindings, -⟩ := h
  constructor
  · exact fun id hlo hhi => absurd hlo (by rw [← hnodes]; exact Nat.not_le.mpr hhi)
  · exact fun id hlo hhi => absurd hlo (by rw [← hbindings]; exact Nat.not_le.mpr hhi)

theorem Laid.addNode {d d' : Draft} {roots : List Part} {n : Node} (h : Laid p d d' roots)
    (hlaid : p.NodeLaid d'.nodes.size)
    (hroots : ∀ part ∈ roots, part ∈ p.parts (.node d'.nodes.size)) :
    Laid p d { d' with nodes := d'.nodes.push n } [.node d'.nodes.size] := by
  have hinside : Laid p d d' [.node d'.nodes.size] := h.within fun part hpart =>
    ⟨_, List.mem_singleton_self _, .single (hroots part hpart)⟩
  constructor
  · intro id hlo hhi
    rw [Array.size_push] at hhi
    rcases Nat.lt_or_ge id d'.nodes.size with hlt | hge
    · exact hinside.node id hlo hlt
    · obtain rfl : id = d'.nodes.size := by omega
      exact ⟨hlaid, _, List.mem_singleton_self _, .refl⟩
  · exact hinside.binding

/-- A binding made after parts that lie directly inside it. -/
theorem Laid.addBinding {d d' : Draft} {roots : List Part} (h : Laid p d d' roots) (b : Binding)
    (hlaid : p.BindingLaid d'.bindings.size)
    (hroots : ∀ part ∈ roots, part ∈ p.parts (.binding d'.bindings.size)) :
    Laid p d { d' with bindings := d'.bindings.push b } [.binding d'.bindings.size] := by
  have hinside : Laid p d d' [.binding d'.bindings.size] := h.within fun part hpart =>
    ⟨_, List.mem_singleton_self _, .single (hroots part hpart)⟩
  constructor
  · exact hinside.node
  · intro id hlo hhi
    rw [Array.size_push] at hhi
    rcases Nat.lt_or_ge id d'.bindings.size with hlt | hge
    · exact hinside.binding id hlo hlt
    · obtain rfl : id = d'.bindings.size := by omega
      exact ⟨hlaid, _, List.mem_singleton_self _, .refl⟩

/-- Nodes made one after the other, with all that is inside them. -/
structure NodesLaid (p : Program) (d d' : Draft) (ids : List NodeId) : Prop where
  laid : Laid p d d' (ids.map .node)
  lt : ∀ id ∈ ids, id < d'.nodes.size

theorem NodesLaid.nil (p : Program) (d : Draft) : NodesLaid p d d [] := ⟨.refl p d, by simp⟩

theorem Grows.nodes_size {d d' : Draft} (h : Grows d d') : d.nodes.size ≤ d'.nodes.size := by
  refine Nat.le_of_not_lt fun hlt => ?_
  obtain ⟨hlt', -⟩ := Array.getElem?_eq_some_iff.mp (h.nodes _ _ (Array.getElem?_eq_getElem hlt))
  exact Nat.lt_irrefl _ hlt'

theorem Agrees.lt_nodes {d : Draft} {start : Nat} (h : Agrees p d start) {id : NodeId}
    (hid : id < d.nodes.size) : id < p.nodes.size :=
  (Array.getElem?_eq_some_iff.mp (h.nodes _ _ (Array.getElem?_eq_getElem hid))).1

theorem Agrees.lt_bindings {d : Draft} {start : Nat} (h : Agrees p d start) {id : BindingId}
    (hstart : start ≤ id) (hid : id < d.bindings.size) : id < p.bindings.size :=
  (Array.getElem?_eq_some_iff.mp (h.bindings _ _ hstart (Array.getElem?_eq_getElem hid))).1

theorem NodesLaid.append {d d₁ d₂ : Draft} {ids ids' : List NodeId} (h : NodesLaid p d d₁ ids)
    (h' : NodesLaid p d₁ d₂ ids') (hgrows : Grows d₁ d₂) : NodesLaid p d d₂ (ids ++ ids') := by
  refine ⟨?_, fun id hid => ?_⟩
  · rw [List.map_append]
    exact h.laid.append h'.laid
  · rcases List.mem_append.mp hid with hid | hid
    · exact Nat.lt_of_lt_of_le (h.lt id hid) hgrows.nodes_size
    · exact h'.lt id hid

/-- Forms whose parts are the nodes that their types depend on. -/
def Direct : Form → Prop
  | .reference .. | .lambda .. | .cases .. => False
  | _ => True

theorem Direct.parts {form : Form} (h : Direct form) {id : NodeId} (hform : (p.node id).form = form) :
    p.parts (.node id) = (children form).map .node ∧ p.asks id = children form := by
  simp only [Program.parts, Program.asks, hform]
  cases form <;> first | exact h.elim | exact ⟨rfl, rfl⟩

/-- A node of a direct form, made after its parts. -/
theorem NodesLaid.addNode {d d' : Draft} {form : Form} {span : Span}
    (h : NodesLaid p d d' (children form)) (hform : Direct form)
    (hnode : p.node d'.nodes.size = ⟨form, span⟩) :
    NodesLaid p d { d' with nodes := d'.nodes.push ⟨form, span⟩ } [d'.nodes.size] := by
  have hown : (p.node d'.nodes.size).form = form := congrArg Node.form hnode
  obtain ⟨hparts, hasks⟩ := hform.parts hown
  have hlaid : p.NodeLaid d'.nodes.size := by
    refine ⟨?_, fun c hc => ?_, fun s body hlambda => ?_, fun scrutinee arms hcases => ?_⟩
    · rw [hasks]
      exact h.lt
    · rw [hparts] at hc
      obtain ⟨c', hc', heq⟩ := List.mem_map.mp hc
      obtain rfl := Part.node.inj heq
      exact h.lt _ hc'
    · rw [← hown, hlambda] at hform
      exact hform.elim
    · rw [← hown, hcases] at hform
      exact hform.elim
  refine ⟨h.laid.addNode hlaid fun part hpart => hparts ▸ hpart, fun id hid => ?_⟩
  rw [List.mem_singleton.mp hid, Array.size_push]
  exact Nat.lt_succ_self _

/-! ## Parameters -/

theorem bindingLaid_parameter {id : BindingId} {name : String} {span : Span} {type : Ty}
    (h : p.binding id = .parameter name span type) : p.BindingLaid id := by
  refine ⟨fun c hc => ?_, fun c hc => ?_, fun _ _ _ _ h' => ?_, fun _ _ _ _ h' => ?_, fun _ _ _ h' => ?_⟩
  · simp [Program.bindingAsks, h] at hc
  · simp [Program.parts, h] at hc
  all_goals cases h.symm.trans h'

theorem addParameters_laid {ps : List (String × Ty)} {spans : List Span} {d d' : Draft}
    {ids : List BindingId} {start : Nat} (h : (addParameters ps spans).run d = .ok (ids, d'))
    (hlength : ps.length = spans.length) (hp : Agrees p d' start) (hstart : start ≤ d.bindings.size) :
    Laid p d d' (ids.map .binding) := by
  induction ps generalizing spans d ids with
  | nil =>
      simp only [addParameters, run_pure_eq_ok, Prod.mk.injEq] at h
      obtain ⟨rfl, rfl⟩ := h
      exact .refl p _
  | cons q rest ih =>
      obtain ⟨name, type⟩ := q
      cases spans with
      | nil => simp at hlength
      | cons span spans =>
          simp only [addParameters, run_bind_eq_ok, run_addBinding_eq_ok, run_pure_eq_ok,
            Prod.mk.injEq] at h
          obtain ⟨_, _, ⟨rfl, rfl⟩, ids', d₂, hrest, rfl, rfl⟩ := h
          have hadd := grows_addBinding d (.parameter name span type)
          have hgrows := (addParameters_added (Nat.succ.inj hlength) hrest).1
          have hbinding : p.binding d.bindings.size = .parameter name span type :=
            hp.binding hstart (hgrows.bindings _ _ (by simp))
          have hfirst := (Laid.refl p d).addBinding (.parameter name span type)
            (bindingLaid_parameter hbinding) (by simp)
          exact hfirst.append (ih hrest (Nat.succ.inj hlength) (Nat.le_trans hstart hadd.size))

theorem lowerSignatureParameters_laid {scope : Scope} {ps : ParameterList (Parameter TypeExpr)}
    {vs : List TypeVariable} {d d' : Draft} {arguments : Parameters} {ids : List BindingId} {start : Nat}
    (h : (lowerSignatureParameters scope ps).run d = .ok ((arguments, ids), d'))
    (hscope : ScopeSound False vs d.nextVariable scope) (hp : Agrees p d' start)
    (hstart : start ≤ d.bindings.size) : Laid p d d' (ids.map .binding) := by
  simp only [lowerSignatureParameters, run_bind_eq_ok, run_pure_eq_ok, Prod.mk.injEq] at h
  obtain ⟨arguments', d₁, hps, ids', d₂, hadd, ⟨rfl, rfl⟩, rfl⟩ := h
  obtain ⟨htypes, -⟩ := lowerParameters_scoped ps False.elim hscope hps
  have hlength : (Program.insideParameters arguments).length = (ps.toList.map (·.span)).length := by
    rw [List.length_map]
    exact lowerParameters_length hps
  exact (htypes.laid p).append
    (addParameters_laid hadd hlength hp (Nat.le_trans hstart htypes.grows.size))

/-! ## Expressions -/

/-- The node of an expression, in any program that agrees with the draft. -/
def ExprLaid (scope : Scope) (d d' : Draft) (ids : List NodeId) : Prop :=
  Grows d d' ∧ ∀ p, Agrees p d' d.bindings.size → NamesLaid p d.nodes.size scope.names →
    NodesLaid p d d' ids

/-- A node that has no parts. -/
theorem exprLaid_leaf {scope : Scope} {d : Draft} {form : Form} {span : Span} (hform : Direct form)
    (hchildren : children form = []) :
    ExprLaid scope d { d with nodes := d.nodes.push ⟨form, span⟩ } [d.nodes.size] := by
  refine ⟨grows_addNode _ _, fun p hp _ => ?_⟩
  have hnil : NodesLaid p d d (children form) := by
    rw [hchildren]
    exact .nil p d
  exact hnil.addNode hform hp.addNode.1

/-- A node of a direct form after its parts. -/
theorem ExprLaid.addNode {scope : Scope} {d d' : Draft} {form : Form} {span : Span}
    (h : ExprLaid scope d d' (children form)) (hform : Direct form) :
    ExprLaid scope d { d' with nodes := d'.nodes.push ⟨form, span⟩ } [d'.nodes.size] := by
  obtain ⟨hgrows, h⟩ := h
  refine ⟨hgrows.trans (grows_addNode _ _), fun p hp hnames => ?_⟩
  obtain ⟨hnode, hp'⟩ := hp.addNode
  exact (h p hp' hnames).addNode hform hnode

/-- Nodes after others, in a scope that knows no more of the nodes before. -/
theorem ExprLaid.append {scope scope' : Scope} {d d₁ d₂ : Draft} {ids ids' : List NodeId}
    (h : ExprLaid scope d d₁ ids) (h' : ExprLaid scope' d₁ d₂ ids')
    (hscope : ∀ p n, NamesLaid p n scope.names → NamesLaid p n scope'.names) :
    ExprLaid scope d d₂ (ids ++ ids') := by
  obtain ⟨hd₁, h⟩ := h
  obtain ⟨hd₂, h'⟩ := h'
  refine ⟨hd₁.trans hd₂, fun p hp hnames => ?_⟩
  have hfirst := h p (hp.earlier hd₂ (Nat.le_refl _)) hnames
  have hnext := h' p (hp.earlier (.refl _) hd₁.size)
    (hscope p _ (hnames.later hd₁.nodes_size))
  exact hfirst.append hnext hd₂

theorem TypesOnly.exprLaid {d d' : Draft} (h : TypesOnly d d') (scope : Scope) :
    ExprLaid scope d d' [] :=
  ⟨h.grows, fun p _ _ => ⟨h.laid p, by simp⟩⟩

/-- The arms of a match: bindings of payloads and nodes. -/
def ArmsLaid (scope : Scope) (scrutinee : NodeId) (d d' : Draft) (arms : List Arm) : Prop :=
  Grows d d' ∧ ∀ p, Agrees p d' d.bindings.size → NamesLaid p d.nodes.size scope.names →
    scrutinee < d.nodes.size → Laid p d d' (arms.flatMap armParts) ∧ ∀ arm ∈ arms,
      arm.body < d'.nodes.size ∧
        ∃ name span, p.binding arm.binding = .payload name span scrutinee arm.tag

theorem bindingLaid_payload {id : BindingId} {name : String} {span : Span} {scrutinee : NodeId}
    {tag : String} (h : p.binding id = .payload name span scrutinee tag)
    (hscrutinee : scrutinee < p.nodes.size) : p.BindingLaid id := by
  refine ⟨fun c hc => ?_, fun c hc => ?_, fun _ _ _ _ h' => ?_, fun _ _ _ _ h' => ?_, fun _ _ _ h' => ?_⟩
  · simp only [Program.bindingAsks, h, List.mem_singleton] at hc
    rwa [hc]
  · simp [Program.parts, h] at hc
  all_goals cases h.symm.trans h'

mutual

theorem lowerExpr_laid : ∀ (e : Expr) {vs : List TypeVariable} {scope : Scope} {d d' : Draft}
    {id : NodeId} (_ : ScopeSound False vs d.nextVariable scope),
    (lowerExpr scope e).run d = .ok (id, d') → ExprLaid scope d d' [id]
  | .number _ _, _, _, _, _, _, _, h | .bigInteger _ _, _, _, _, _, _, _, h
  | .boolean _ _, _, _, _, _, _, _, h | .null _, _, _, _, _, _, _, h => by
      simp only [lowerExpr, run_addNode_eq_ok, Prod.mk.injEq] at h
      obtain ⟨rfl, rfl⟩ := h
      exact exprLaid_leaf trivial rfl
  | .reference site name, _, scope, d, d', id, _, h => by
      simp only [lowerExpr, run_addNode_eq_ok, Prod.mk.injEq] at h
      obtain ⟨rfl, rfl⟩ := h
      refine ⟨grows_addNode _ _, fun p hp hnames => ?_⟩
      have hform := congrArg Node.form hp.addNode.1
      have hlaid : p.NodeLaid d.nodes.size := by
        refine ⟨fun c hc => ?_, fun c hc => ?_, fun _ _ h' => ?_, fun _ _ h' => ?_⟩
        · simp only [Program.asks, hform] at hc
          obtain ⟨target, htarget, hc⟩ := List.mem_flatMap.mp hc
          rw [Option.mem_toList, scope.value?_eq] at htarget
          exact hnames name target htarget c hc
        · simp [Program.parts, hform, children] at hc
        · cases hform.symm.trans h'
        · cases hform.symm.trans h'
      exact ⟨(Laid.refl p d).addNode hlaid (by simp), by simp⟩
  | .object site fields, _, _, _, d', id, hscope, h => by
      simp only [lowerExpr, run_bind_eq_ok, run_addNode_eq_ok, Prod.mk.injEq] at h
      obtain ⟨ids, d₁, hfields, rfl, rfl⟩ := h
      exact (lowerFields_laid fields hscope hfields).addNode trivial
  | .binary site op lhs rhs, _, scope, d, d', id, hscope, h => by
      simp only [lowerExpr, run_bind_eq_ok, run_addNode_eq_ok, Prod.mk.injEq] at h
      obtain ⟨l, d₁, hl, r, d₂, hr, rfl, rfl⟩ := h
      have hl := lowerExpr_laid lhs hscope hl
      have hr := lowerExpr_laid rhs (hscope.later hl.1.next) hr
      have hboth : ExprLaid scope d d₂ (children (binaryForm op l r)) := by
        cases op <;> exact hl.append hr fun _ _ h => h
      exact hboth.addNode (by cases op <;> trivial)
  | .unary site op operand, _, scope, d, d', id, hscope, h => by
      simp only [lowerExpr, run_bind_eq_ok, run_addNode_eq_ok, Prod.mk.injEq] at h
      obtain ⟨v, d₁, hv, rfl, rfl⟩ := h
      have hv := lowerExpr_laid operand hscope hv
      have hpart : ExprLaid scope d d₁ (children (unaryForm op v)) := by cases op <;> exact hv
      exact hpart.addNode (by cases op <;> trivial)
  | .conditional site condition thenBranch elseBranch, _, _, _, d', id, hscope, h => by
      simp only [lowerExpr, run_bind_eq_ok, run_addNode_eq_ok, Prod.mk.injEq] at h
      obtain ⟨c, d₁, hc, t, d₂, ht, e, d₃, he, rfl, rfl⟩ := h
      have hbranches := hscope.branches condition
      have hc := lowerExpr_laid condition hscope hc
      have ht := lowerExpr_laid thenBranch (hbranches.1.later hc.1.next) ht
      have he := lowerExpr_laid elseBranch (hbranches.2.later (hc.1.trans ht.1).next) he
      have hparts := (hc.append ht fun _ _ h => (h.branches condition).1).append he
        fun _ _ h => (h.branches condition).2
      exact hparts.addNode trivial
  | .call site callee types arguments, _, _, _, d', id, hscope, h => by
      simp only [lowerExpr, run_bind_eq_ok, run_addNode_eq_ok, Prod.mk.injEq] at h
      obtain ⟨f, d₁, hf, written, d₂, htypes, ids, d₃, hids, rfl, rfl⟩ := h
      have hf := lowerExpr_laid callee hscope hf
      obtain ⟨htypes, -⟩ := lowerTypes_scoped types False.elim (hscope.later hf.1.next) htypes
      have hids := lowerExprs_laid arguments (hscope.later (hf.1.trans htypes.grows).next) hids
      have hparts := (hf.append (htypes.exprLaid _) fun _ _ h => h).append hids fun _ _ h => h
      exact hparts.addNode trivial
  | .lambda site names ps result body, vs, scope, d, d', id, hscope, h => by
      simp only [lowerExpr, run_bind_eq_ok, run_addNode_eq_ok, run_bindParameters_eq_ok,
        Prod.mk.injEq, Prod.exists] at h
      obtain ⟨us, inner, d₁, hgenerics, arguments, ids, d₂, hps, result', d₃, hresult, _, _,
        ⟨rfl, rfl⟩, value, d₄, hvalue, rfl, rfl⟩ := h
      obtain ⟨hg, -⟩ := lowerGenerics_sound hgenerics hscope
      have hparameters := lowerSignatureParameters_sound False.elim hg.sound hps
      obtain ⟨hd₃, -⟩ := lowerType?_scoped False.elim (hg.sound.later hparameters.grows.next) hresult
      have hvalue := lowerExpr_laid body
        ((hg.sound.later (hparameters.grows.trans hd₃.grows).next).bindAll _ _) hvalue
      have hgrows := (hg.typesOnly.grows.trans hparameters.grows).trans hd₃.grows
      refine ⟨(hgrows.trans hvalue.1).trans (grows_addNode _ _), fun p hp hnames => ?_⟩
      obtain ⟨hnode, hp₄⟩ := hp.addNode
      have hform := congrArg Node.form hnode
      have hbindings := hparameters.bindings hp₄ (hd₃.grows.trans hvalue.1) hg.typesOnly.grows.size
      have hinside := hvalue.2 p (hp₄.earlier (.refl _) hgrows.size) (by
        rw [hparameters.names hp₄ hd₃.grows (hd₃.grows.trans hvalue.1) hg.typesOnly.grows.size, hg.names]
        exact (hnames.later hgrows.nodes_size).parameters hbindings)
      have hlaid : p.NodeLaid d₄.nodes.size := by
        refine ⟨fun c hc => ?_, fun c hc => ?_, fun s b h' => ?_, fun _ _ h' => ?_⟩
        · simp only [Program.asks, hform, Program.signatureAsks] at hc
          split at hc
          · cases hc
          · exact hinside.lt c (by simpa using hc)
        · simp only [Program.parts, hform, functionParts] at hc
          exact hinside.lt c (by simpa [bodyParts] using hc)
        · obtain ⟨rfl, rfl⟩ := Form.lambda.inj (hform.symm.trans h')
          exact ⟨hbindings, rfl⟩
        · cases hform.symm.trans h'
      have hps := lowerSignatureParameters_laid hps hg.sound
        (hp₄.earlier (hd₃.grows.trans hvalue.1) (Nat.le_refl _)) hg.typesOnly.grows.size
      have hparts := (((hg.typesOnly.laid p).append hps).append (hd₃.laid p)).append hinside.laid
      refine ⟨hparts.addNode hlaid fun part hpart => ?_, by simp⟩
      simpa [Program.parts, hform, functionParts, bodyParts] using hpart
  | .field site value _, _, _, _, d', id, hscope, h | .tagged site value _, _, _, _, d', id, hscope, h
  | .hasTag site value _, _, _, _, d', id, hscope, h | .untag site value, _, _, _, d', id, hscope, h => by
      simp only [lowerExpr, run_bind_eq_ok, run_addNode_eq_ok, Prod.mk.injEq] at h
      obtain ⟨v, d₁, hv, rfl, rfl⟩ := h
      exact (lowerExpr_laid value hscope hv).addNode trivial
  | .cases site scrutinee arms, _, _, d, d', id, hscope, h => by
      simp only [lowerExpr, run_bind_eq_ok, run_addNode_eq_ok, Prod.mk.injEq] at h
      obtain ⟨s, d₁, hs, arms', d₂, harms, rfl, rfl⟩ := h
      have hs := lowerExpr_laid scrutinee hscope hs
      have harms := lowerArms_laid arms (hscope.later hs.1.next) harms
      refine ⟨(hs.1.trans harms.1).trans (grows_addNode _ _), fun p hp hnames => ?_⟩
      obtain ⟨hnode, hp₂⟩ := hp.addNode
      have hform := congrArg Node.form hnode
      have hscrutinee := hs.2 p (hp₂.earlier harms.1 (Nat.le_refl _)) hnames
      have hlt := hscrutinee.lt s (List.mem_singleton_self s)
      obtain ⟨hinside, harm⟩ := harms.2 p (hp₂.earlier (.refl _) hs.1.size)
        (hnames.later hs.1.nodes_size) hlt
      have hbodies : ∀ c ∈ s :: arms'.map (·.body), c < d₂.nodes.size := by
        refine List.forall_mem_cons.mpr ⟨Nat.lt_of_lt_of_le hlt harms.1.nodes_size, ?_⟩
        simpa using fun arm harm' => (harm arm harm').1
      have hlaid : p.NodeLaid d₂.nodes.size := by
        refine ⟨fun c hc => ?_, fun c hc => ?_, fun _ _ h' => ?_, fun scrutinee' arms'' h' => ?_⟩
        · simp only [Program.asks, hform] at hc
          exact hbodies c hc
        · simp only [Program.parts, hform] at hc
          refine hbodies c ?_
          simpa [armParts, eq_comm] using hc
        · cases hform.symm.trans h'
        · obtain ⟨rfl, rfl⟩ := Form.cases.inj (hform.symm.trans h')
          exact fun arm harm' => (harm arm harm').2
      refine ⟨(hscrutinee.laid.append hinside).addNode hlaid fun part hpart => ?_, by simp⟩
      simpa [Program.parts, hform] using hpart

theorem lowerExprs_laid : ∀ (es : List Expr) {vs : List TypeVariable} {scope : Scope} {d d' : Draft}
    {ids : List NodeId} (_ : ScopeSound False vs d.nextVariable scope),
    (lowerExprs scope es).run d = .ok (ids, d') → ExprLaid scope d d' ids
  | [], _, _, d, d', ids, _, h => by
      simp only [lowerExprs, run_pure_eq_ok, Prod.mk.injEq] at h
      obtain ⟨rfl, rfl⟩ := h
      exact ⟨.refl _, fun p _ _ => .nil p _⟩
  | e :: rest, _, _, d, d', ids, hscope, h => by
      simp only [lowerExprs, run_bind_eq_ok, run_pure_eq_ok, Prod.mk.injEq] at h
      obtain ⟨id, d₁, he, ids', d₂, hrest, rfl, rfl⟩ := h
      have he := lowerExpr_laid e hscope he
      have hrest := lowerExprs_laid rest (hscope.later he.1.next) hrest
      exact he.append hrest fun _ _ h => h

theorem lowerFields_laid : ∀ (fields : List (FieldInit Expr)) {vs : List TypeVariable} {scope : Scope}
    {d d' : Draft} {ids : List (String × NodeId)} (_ : ScopeSound False vs d.nextVariable scope),
    (lowerFields scope fields).run d = .ok (ids, d') → ExprLaid scope d d' (ids.map Prod.snd)
  | [], _, _, d, d', ids, _, h => by
      simp only [lowerFields, run_pure_eq_ok, Prod.mk.injEq] at h
      obtain ⟨rfl, rfl⟩ := h
      exact ⟨.refl _, fun p _ _ => .nil p _⟩
  | ⟨name, value, _⟩ :: rest, _, _, d, d', ids, hscope, h => by
      simp only [lowerFields, run_bind_eq_ok, run_pure_eq_ok, Prod.mk.injEq] at h
      obtain ⟨id, d₁, he, ids', d₂, hrest, rfl, rfl⟩ := h
      have he := lowerExpr_laid value hscope he
      have hrest := lowerFields_laid rest (hscope.later he.1.next) hrest
      exact he.append hrest fun _ _ h => h

theorem lowerArms_laid : ∀ (arms : List (MatchArm Expr)) {vs : List TypeVariable} {scope : Scope}
    {subject : Expr} {scrutinee : NodeId} {d d' : Draft} {arms' : List Arm}
    (_ : ScopeSound False vs d.nextVariable scope),
    (lowerArms scope subject scrutinee arms).run d = .ok (arms', d') →
      ArmsLaid scope scrutinee d d' arms'
  | [], _, _, _, _, d, d', arms', _, h => by
      simp only [lowerArms, run_pure_eq_ok, Prod.mk.injEq] at h
      obtain ⟨rfl, rfl⟩ := h
      exact ⟨.refl _, fun p _ _ _ => ⟨.refl p _, by simp⟩⟩
  | ⟨tag, name, body, span⟩ :: rest, _, scope, subject, scrutinee, d, d', arms', hscope, h => by
      simp only [lowerArms, run_bind_eq_ok, run_addBinding_eq_ok, run_pure_eq_ok,
        Prod.mk.injEq] at h
      obtain ⟨_, _, ⟨rfl, rfl⟩, value, d₁, hvalue, arms'', d₂, hrest, rfl, rfl⟩ := h
      have hadd := grows_addBinding d (.payload name.value name.span scrutinee tag.value)
      have hvalue := lowerExpr_laid body
        (((hscope.narrowed subject tag.value).withValue _ _).later hadd.next) hvalue
      have hrest := lowerArms_laid rest (hscope.later (hadd.trans hvalue.1).next) hrest
      refine ⟨(hadd.trans hvalue.1).trans hrest.1, fun p hp hnames hscrutinee => ?_⟩
      have hbinding : p.binding d.bindings.size =
          .payload name.value name.span scrutinee tag.value :=
        hp.binding (Nat.le_refl _) ((hvalue.1.trans hrest.1).bindings _ _ (by simp))
      have hd₂ := (hadd.trans hvalue.1).trans hrest.1
      have hpayload := bindingLaid_payload hbinding
        (hp.lt_nodes (Nat.lt_of_lt_of_le hscrutinee hd₂.nodes_size))
      have hbound : ∀ c ∈ p.targetAsks (.bound d.bindings.size), c < d.nodes.size := by
        intro c hc
        simp only [Program.targetAsks, Target.id, Program.bindingAsks, hbinding,
          List.mem_singleton] at hc
        rwa [hc]
      have hinside := hvalue.2 p (hp.earlier hrest.1 hadd.size)
        ((hnames.narrowed subject tag.value).cons _ hbound)
      obtain ⟨hothers, hbodies⟩ := hrest.2 p (hp.earlier (.refl _) (hadd.trans hvalue.1).size)
        (hnames.later (hadd.trans hvalue.1).nodes_size)
        (Nat.lt_of_lt_of_le hscrutinee (hadd.trans hvalue.1).nodes_size)
      have hfirst := (Laid.refl p d).addBinding (.payload name.value name.span scrutinee tag.value)
        hpayload (by simp)
      refine ⟨(hfirst.append hinside.laid).append hothers, List.forall_mem_cons.mpr ⟨?_, hbodies⟩⟩
      exact ⟨Nat.lt_of_lt_of_le (hinside.lt value (List.mem_singleton_self _)) hrest.1.nodes_size,
        _, _, hbinding⟩

end

/-! ## Declarations and bodies -/

/-- Bindings of declarations, made between two drafts. -/
def DeclaredBetween (p : Program) (d d' : Draft) (ids : List BindingId) : Prop :=
  ∀ id ∈ ids, d.bindings.size ≤ id ∧ id < d'.bindings.size ∧ p.IsDeclared id

/-- The scope after a declaration, and the bindings that it makes. -/
def DeclarationsLaid (scope scope' : Scope) (d d' : Draft) (ids : List BindingId) : Prop :=
  ∀ p, Agrees p d' d.bindings.size → NamesLaid p d.nodes.size scope.names →
    Laid p d d' (ids.map .binding) ∧ NamesLaid p d'.nodes.size scope'.names ∧ DeclaredBetween p d d' ids

def BodyLaid (scope : Scope) (d d' : Draft) (body : FunctionBody) : Prop :=
  ∀ p, Agrees p d' d.bindings.size → NamesLaid p d.nodes.size scope.names →
    Laid p d d' (bodyParts body) ∧ body.result < d'.nodes.size ∧ DeclaredBetween p d d' body.bindings

theorem bindingLaid_value {id : BindingId} {name : String} {span : Span} {type : Option Ty}
    {node : NodeId} (h : p.binding id = .value name span type node) (hnode : node < p.nodes.size) :
    p.BindingLaid id := by
  refine ⟨fun c hc => ?_, fun c hc => ?_, fun _ _ _ _ h' => ?_, fun _ _ _ _ h' => ?_, fun _ _ _ h' => ?_⟩
  · simp only [Program.bindingAsks, h] at hc
    split at hc
    · cases hc
    · rwa [List.mem_singleton.mp hc]
  · simp only [Program.parts, h, List.mem_singleton, Part.node.injEq] at hc
    rwa [hc]
  all_goals cases h.symm.trans h'

theorem bindingLaid_function {id : BindingId} {name : String} {span : Span} {s : Signature}
    {body : Option FunctionBody} (h : p.binding id = .function name span s body)
    (hs : p.ParametersLaid s) (hbody : ∀ b ∈ body, b.result < p.nodes.size ∧
      ∀ i ∈ b.bindings, id < i ∧ i < p.bindings.size ∧ p.IsDeclared i)
    (hexternal : body = none → s.result.isSome = true) : p.BindingLaid id := by
  refine ⟨fun c hc => ?_, fun c hc => ?_, fun _ _ _ _ h' => ?_, fun _ _ _ b h' => ?_, fun _ _ _ h' => ?_⟩
  · simp only [Program.bindingAsks, h, Program.signatureAsks] at hc
    split at hc
    · cases hc
    · obtain ⟨b, hb, rfl⟩ := List.mem_map.mp hc
      exact (hbody b (Option.mem_toList.mp hb)).1
  · simp only [Program.parts, h, functionParts, bodyParts, List.mem_append, List.mem_map,
      reduceCtorEq, and_false, exists_false, List.mem_flatMap, Option.mem_toList, List.mem_singleton,
      Part.node.injEq, false_or] at hc
    obtain ⟨b, hb, rfl⟩ := hc
    exact (hbody b hb).1
  · obtain ⟨-, -, rfl, -⟩ := Binding.function.inj (h.symm.trans h')
    exact hs
  · obtain ⟨-, -, -, rfl⟩ := Binding.function.inj (h.symm.trans h')
    exact (hbody b rfl).2
  · obtain ⟨-, -, rfl, rfl⟩ := Binding.function.inj (h.symm.trans h')
    exact hexternal rfl

theorem targetAsks_function_lt {id : BindingId} {name : String} {span : Span} {s : Signature}
    {body : Option FunctionBody} (h : p.binding id = .function name span s body) {n : Nat}
    (hbody : ∀ b ∈ body, b.result < n) : ∀ c ∈ p.targetAsks (.bound id), c < n := by
  intro c hc
  simp only [Program.targetAsks, Target.id, Program.bindingAsks, h, Program.signatureAsks] at hc
  split at hc
  · cases hc
  · obtain ⟨b, hb, rfl⟩ := List.mem_map.mp hc
    exact hbody b (Option.mem_toList.mp hb)

theorem targetAsks_value_lt {id : BindingId} {name : String} {span : Span} {type : Option Ty}
    {node : NodeId} (h : p.binding id = .value name span type node) {n : Nat} (hnode : node < n) :
    ∀ c ∈ p.targetAsks (.bound id), c < n := by
  intro c hc
  simp only [Program.targetAsks, Target.id, Program.bindingAsks, h] at hc
  split at hc
  · cases hc
  · rwa [List.mem_singleton.mp hc]

mutual

theorem lowerDeclaration_laid : ∀ (declaration : Declaration) {vs : List TypeVariable}
    {scope scope' : Scope} {d d' : Draft} {id : Option BindingId}
    (_ : ScopeSound False vs d.nextVariable scope),
    (lowerDeclaration scope declaration).run d = .ok ((id, scope'), d') →
      DeclarationsLaid scope scope' d d' id.toList
  | .value span name type value, _, scope, scope', d, d', id, hscope, h => by
      simp only [lowerDeclaration, run_bind_eq_ok, run_addBinding_eq_ok, run_pure_eq_ok,
        Prod.mk.injEq] at h
      obtain ⟨type', d₁, htype, node, d₂, hnode, _, _, ⟨rfl, rfl⟩, ⟨rfl, rfl⟩, rfl⟩ := h
      obtain ⟨hd₁, -⟩ := lowerType?_scoped False.elim hscope htype
      obtain ⟨hd₂, hnode⟩ := lowerExpr_laid value (hscope.later hd₁.next) hnode
      have hadd := grows_addBinding d₂ (.value name.value span type' node)
      have hgrows := hd₁.grows.trans hd₂
      intro p hp hnames
      have hbinding : p.binding d₂.bindings.size = .value name.value span type' node :=
        hp.binding hgrows.size (by simp)
      have hinside := hnode p (hp.earlier hadd hd₁.grows.size) (hnames.later hd₁.grows.nodes_size)
      have hlt := hinside.lt node (List.mem_singleton_self node)
      have hlaid := ((hd₁.laid p).append hinside.laid).addBinding (.value name.value span type' node)
        (bindingLaid_value hbinding (hp.lt_nodes hlt)) (by simp [Program.parts, hbinding])
      refine ⟨hlaid, (hnames.later hgrows.nodes_size).cons _ (targetAsks_value_lt hbinding hlt), ?_⟩
      simpa [DeclaredBetween] using ⟨hgrows.size, .inl ⟨_, _, _, _, hbinding⟩⟩
  | .function span name names ps result body, vs, scope, scope', d, d', id, hscope, h => by
      simp only [lowerDeclaration, run_bind_eq_ok, run_addBinding_eq_ok, run_setBinding_eq_ok,
        run_bindParameters_eq_ok, run_pure_eq_ok, Prod.mk.injEq, Prod.exists] at h
      obtain ⟨us, inner, d₁, hgenerics, arguments, ids, d₂, hps, result', d₃, hresult, _, _,
        ⟨rfl, rfl⟩, _, _, ⟨rfl, rfl⟩, body', d₅, hbody, _, _, ⟨-, rfl⟩, ⟨rfl, rfl⟩, rfl⟩ := h
      obtain ⟨hg, -⟩ := lowerGenerics_sound hgenerics hscope
      have hparameters := lowerSignatureParameters_sound False.elim hg.sound hps
      obtain ⟨hd₃, -⟩ := lowerType?_scoped False.elim (hg.sound.later hparameters.grows.next) hresult
      generalize hs : (⟨us, arguments, ids, result'⟩ : Signature) = s at hbody
      have hadd := grows_addBinding d₃ (.function name.value span s none)
      have hinside := (((hg.sound.later (hparameters.grows.trans hd₃.grows).next).withValue name.value
        (.enclosing d₃.bindings.size)).bindAll
          (d₃.bindings.push (.function name.value span s none)) ids).later hadd.next
      obtain ⟨hd₅, -⟩ := lowerBody_sound body False.elim
        (fun _ name s => (trivial : Program.anyFunction name s)) hinside hbody
      have hbody := lowerBody_laid body hinside hbody
      have hsize := (hg.typesOnly.grows.trans hparameters.grows).trans hd₃.grows
      have hid : d₃.bindings.size < d₅.bindings.size := Nat.lt_of_lt_of_le (by simp) hd₅.size
      have hgrows₂ := grows_setBinding ((hd₃.grows.trans hadd).trans hd₅)
        (b := .function name.value span s (some body')) hd₃.grows.size
      intro p hp hnames
      obtain ⟨hbinding, hp₅⟩ := hp.setBinding hsize.size hid
      have hbindings := hparameters.bindings hp hgrows₂ hg.typesOnly.grows.size
      have hscopeInside : NamesLaid p d₃.nodes.size (bindAll
          (d₃.bindings.push (.function name.value span s none))
          (inner.withValue name.value (.enclosing d₃.bindings.size)) ids).names := by
        rw [hparameters.names hp (hd₃.grows.trans hadd) hgrows₂ hg.typesOnly.grows.size,
          Scope.names_withValue, hg.names]
        refine NamesLaid.parameters ((hnames.later hsize.nodes_size).cons _ fun c hc => ?_) hbindings
        simp [Program.targetAsks, hbinding] at hc
      obtain ⟨hlaid, hlt, hdeclared⟩ := hbody p
        ⟨hp₅.nodes, fun i c hi => hp₅.bindings i c (by simpa using hi)⟩ hscopeInside
      have hown : p.BindingLaid d₃.bindings.size := by
        refine bindingLaid_function hbinding (hs ▸ hbindings) (fun b hb => ?_) nofun
        obtain rfl := Option.some.inj hb
        refine ⟨hp.lt_nodes hlt, fun i hi => ?_⟩
        obtain ⟨hlo, hhi, hi⟩ := hdeclared i hi
        rw [Array.size_push] at hlo
        exact ⟨hlo, hp.lt_bindings (by have := hsize.size; omega) (by simpa using hhi), hi⟩
      have hparts : p.parts (.binding d₃.bindings.size) = ids.map .binding ++ bodyParts body' := by
        simp [Program.parts, hbinding, functionParts, ← hs]
      have hps := lowerSignatureParameters_laid hps hg.sound (hp.earlier hgrows₂ (Nat.le_refl _))
        hg.typesOnly.grows.size
      have hbefore := (((hg.typesOnly.laid p).append hps).append (hd₃.laid p)).addBinding
        (.function name.value span s none) hown fun part hpart =>
          hparts ▸ List.mem_append_left _ (by simpa using hpart)
      have hafter : Laid _ _ _ [.binding d₃.bindings.size] := hlaid.within fun part hpart =>
        ⟨_, List.mem_singleton_self _, .single (hparts ▸ List.mem_append_right _ hpart)⟩
      have hall : Laid _ _ _ [.binding d₃.bindings.size] := (hbefore.append hafter).within
        fun part hpart => ⟨part, by simpa using hpart, .refl⟩
      refine ⟨⟨hall.node, fun i hlo hhi => hall.binding i hlo (by simpa using hhi)⟩,
        (hnames.later (Nat.le_trans hsize.nodes_size hd₅.nodes_size)).cons _
          (targetAsks_function_lt hbinding fun b hb => ?_), ?_⟩
      · obtain rfl := Option.some.inj hb
        exact hlt
      · simpa [DeclaredBetween] using ⟨hsize.size, hid, .inr ⟨_, _, _, _, hbinding⟩⟩
  | .external span name names ps result, _, scope, scope', d, d', id, hscope, h => by
      simp only [lowerDeclaration, run_bind_eq_ok, run_addBinding_eq_ok, run_pure_eq_ok,
        Prod.mk.injEq, Prod.exists] at h
      obtain ⟨us, inner, d₁, hgenerics, arguments, ids, d₂, hps, result', d₃, hresult, _, _,
        ⟨rfl, rfl⟩, ⟨rfl, rfl⟩, rfl⟩ := h
      obtain ⟨hg, -⟩ := lowerGenerics_sound hgenerics hscope
      have hparameters := lowerSignatureParameters_sound False.elim hg.sound hps
      obtain ⟨hd₃, -⟩ := lowerType_scoped result False.elim (hg.sound.later hparameters.grows.next) hresult
      have hsize := (hg.typesOnly.grows.trans hparameters.grows).trans hd₃.grows
      have hadd := grows_addBinding d₃
        (.function name.value span ⟨us, arguments, ids, some result'⟩ none)
      intro p hp hnames
      have hbinding : p.binding d₃.bindings.size =
          .function name.value span ⟨us, arguments, ids, some result'⟩ none :=
        hp.binding hsize.size (by simp)
      have hbindings := hparameters.bindings hp (hd₃.grows.trans hadd) hg.typesOnly.grows.size
      have hps := lowerSignatureParameters_laid hps hg.sound
        (hp.earlier (hd₃.grows.trans hadd) (Nat.le_refl _)) hg.typesOnly.grows.size
      have hlaid := (((hg.typesOnly.laid p).append hps).append (hd₃.laid p)).addBinding
        (.function name.value span ⟨us, arguments, ids, some result'⟩ none)
        (bindingLaid_function hbinding hbindings nofun fun _ => rfl)
        (by simp [Program.parts, hbinding, functionParts])
      refine ⟨hlaid, (hnames.later hsize.nodes_size).cons _ (targetAsks_function_lt hbinding nofun), ?_⟩
      simpa [DeclaredBetween] using ⟨hsize.size, .inr ⟨_, _, _, _, hbinding⟩⟩
  | .alias _ name names target, _, scope, scope', d, d', id, hscope, h => by
      simp only [lowerDeclaration, run_bind_eq_ok, run_pure_eq_ok, Prod.mk.injEq, Prod.exists] at h
      obtain ⟨us, inner, d₁, hgenerics, type, d₂, htype, ⟨rfl, rfl⟩, rfl⟩ := h
      obtain ⟨hg, -⟩ := lowerGenerics_sound hgenerics hscope
      have hd := hg.typesOnly.trans (lowerType_scoped target False.elim hg.sound htype).1
      exact fun p _ hnames => ⟨hd.laid p, hnames.later hd.grows.nodes_size, by simp [DeclaredBetween]⟩
  | .union _ name names alternatives, _, scope, scope', d, d', id, hscope, h => by
      simp only [lowerDeclaration, run_bind_eq_ok, run_pure_eq_ok, Prod.mk.injEq, Prod.exists] at h
      obtain ⟨us, inner, d₁, hgenerics, fields, d₂, hfields, ⟨rfl, rfl⟩, rfl⟩ := h
      obtain ⟨hg, -⟩ := lowerGenerics_sound hgenerics hscope
      have hd := hg.typesOnly.trans (lowerAlternatives_scoped False.elim hg.sound (by exact trivial)
        False.elim hfields).1
      exact fun p _ hnames => ⟨hd.laid p, hnames.later hd.grows.nodes_size, by simp [DeclaredBetween]⟩

theorem lowerDeclarations_laid : ∀ (declarations : List Declaration) {vs : List TypeVariable}
    {scope scope' : Scope} {d d' : Draft} {ids : List BindingId}
    (_ : ScopeSound False vs d.nextVariable scope),
    (lowerDeclarations scope declarations).run d = .ok ((ids, scope'), d') →
      DeclarationsLaid scope scope' d d' ids
  | [], _, _, _, d, d', _, _, h => by
      simp only [lowerDeclarations, run_pure_eq_ok, Prod.mk.injEq] at h
      obtain ⟨⟨rfl, rfl⟩, rfl⟩ := h
      exact fun p _ hnames => ⟨.refl p _, hnames, by simp [DeclaredBetween]⟩
  | declaration :: rest, _, scope, scope', d, d', _, hscope, h => by
      simp only [lowerDeclarations, run_bind_eq_ok, run_pure_eq_ok, Prod.mk.injEq, Prod.exists] at h
      obtain ⟨id, scope₁, d₁, hone, ids, scope₂, d₂, hrest, ⟨rfl, rfl⟩, rfl⟩ := h
      obtain ⟨hd₁, hscope₁, -⟩ := lowerDeclaration_sound declaration
        False.elim (fun _ name s => (trivial : Program.anyFunction name s)) hscope hone
      obtain ⟨hd₂, -⟩ := lowerDeclarations_sound rest
        False.elim (fun _ name s => (trivial : Program.anyFunction name s)) hscope₁ hrest
      have hone := lowerDeclaration_laid declaration hscope hone
      have hrest := lowerDeclarations_laid rest hscope₁ hrest
      intro p hp hnames
      obtain ⟨hlaid, hnames₁, hdeclared⟩ := hone p (hp.earlier hd₂ (Nat.le_refl _)) hnames
      obtain ⟨hlaid', hnames₂, hdeclared'⟩ := hrest p (hp.earlier (.refl _) hd₁.size) hnames₁
      refine ⟨?_, hnames₂, fun id hid => ?_⟩
      · rw [List.map_append]
        exact hlaid.append hlaid'
      · rcases List.mem_append.mp hid with hid | hid
        · obtain ⟨hlo, hhi, hid⟩ := hdeclared id hid
          exact ⟨hlo, Nat.lt_of_lt_of_le hhi hd₂.size, hid⟩
        · obtain ⟨hlo, hhi, hid⟩ := hdeclared' id hid
          exact ⟨Nat.le_trans hd₁.size hlo, hhi, hid⟩

theorem lowerBody_laid : ∀ (body : Body) {vs : List TypeVariable} {scope : Scope} {d d' : Draft}
    {body' : FunctionBody} (_ : ScopeSound False vs d.nextVariable scope),
    (lowerBody scope body).run d = .ok (body', d') → BodyLaid scope d d' body'
  | .mk declarations result _, _, _, d, d', _, hscope, h => by
      simp only [lowerBody, run_bind_eq_ok, run_pure_eq_ok, Prod.mk.injEq, Prod.exists] at h
      obtain ⟨ids, scope₁, d₁, hids, node, d₂, hnode, rfl, rfl⟩ := h
      obtain ⟨hd₁, hscope₁, -⟩ := lowerDeclarations_sound declarations
        False.elim (fun _ name s => (trivial : Program.anyFunction name s)) hscope hids
      have hids := lowerDeclarations_laid declarations hscope hids
      obtain ⟨hd₂, hnode⟩ := lowerExpr_laid result hscope₁ hnode
      intro p hp hnames
      obtain ⟨hlaid, hnames₁, hdeclared⟩ := hids p (hp.earlier hd₂ (Nat.le_refl _)) hnames
      have hinside := hnode p (hp.earlier (.refl _) hd₁.size) hnames₁
      refine ⟨hlaid.append hinside.laid, hinside.lt node (List.mem_singleton_self node), fun id hid => ?_⟩
      obtain ⟨hlo, hhi, hid⟩ := hdeclared id hid
      exact ⟨hlo, Nat.lt_of_lt_of_le hhi hd₂.size, hid⟩

end

end Sable.Lowering

namespace Sable.Program

/-- Every program made from a tree is laid out in order. -/
theorem laidOut_of_ofTree {tree : Tree} {p : Program} (h : ofTree tree = .ok p) : p.LaidOut := by
  obtain ⟨d, hrun, hnodes, hbindings⟩ := lowerBody_of_ofTree h
  have hagrees : Lowering.Agrees p d 0 := ⟨fun id n hn => hnodes ▸ hn, fun id b _ hb => hbindings ▸ hb⟩
  obtain ⟨hlaid, hresult, hdeclared⟩ :=
    Lowering.lowerBody_laid tree.body Lowering.scopeSound_root hrun p hagrees nofun
  have hnodes' : p.nodes.size = d.nodes.size := congrArg Array.size hnodes
  have hbindings' : p.bindings.size = d.bindings.size := congrArg Array.size hbindings
  refine ⟨fun id hid => ?_, fun id hid => ?_, ?_, fun b hb => ?_, fun id hid => ?_, fun id hid => ?_⟩
  · exact (hlaid.node id (Nat.zero_le _) (hnodes' ▸ hid)).1
  · exact (hlaid.binding id (Nat.zero_le _) (hbindings' ▸ hid)).1
  · rwa [hnodes']
  · rw [hbindings']
    exact (hdeclared b hb).2
  · exact (hlaid.node id (Nat.zero_le _) (hnodes' ▸ hid)).2
  · exact (hlaid.binding id (Nat.zero_le _) (hbindings' ▸ hid)).2

theorem ofTree_of_ofSource {source : String} {p : Program} (h : ofSource source = .ok p) :
    ofTree (parse source).tree = .ok p := by
  simp only [ofSource] at h
  split at h
  · cases htree : ofTree (parse source).tree with
    | ok own =>
        rw [htree] at h
        rw [Except.ok.inj h]
    | error e =>
        rw [htree] at h
        cases h
  · cases h

theorem laidOut_of_ofSource {source : String} {p : Program} (h : ofSource source = .ok p) : p.LaidOut :=
  laidOut_of_ofTree (ofTree_of_ofSource h)

end Sable.Program
