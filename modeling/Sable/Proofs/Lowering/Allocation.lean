import Sable.Proofs.Lowering.Layout
import Sable.Proofs.Typing.Rules

/-! Lowering allocates the nodes and bindings of a program one by one, each after all that it refers to.

A function is allocated before the bindings and nodes of its body, and completed when these are there. What is
allocated stays consistent: all that comes later only adds to it. -/
namespace Sable

/-! ## References between nodes and bindings -/

/-- The nodes that a form holds. -/
def Form.nodeIds : Form → List NodeId
  | lambda _ body => [body.result]
  | form => Program.children form

namespace Binding

/-- The nodes that a binding holds, but for those in the body of a function. -/
def nodeIds : Binding → List NodeId
  | value _ _ _ node => [node]
  | payload _ _ scrutinee _ => [scrutinee]
  | function .. | parameter .. => []

/-- Whether the binding is one of a declaration, `val` or `def`. -/
def IsDeclared : Binding → Prop
  | value .. | function .. => True
  | parameter .. | payload .. => False

end Binding

section

-- How many nodes there are, and the bindings.
variable (n : Nat) (bindings : Array Binding)

/-- The bindings of the parameters are there, one for each argument and in order. -/
def Signature.Founded (s : Signature) : Prop :=
  List.Forall₂ (fun id (q : String × Ty) => ∃ span, bindings[id]? = some (.parameter q.1 span q.2))
    s.parameters (Program.insideParameters s.arguments)

/-- The declarations of a body and its result are there. -/
structure FunctionBody.Founded (body : FunctionBody) : Prop where
  result : body.result < n
  declared : ∀ id ∈ body.bindings, ∃ b, bindings[id]? = some b ∧ b.IsDeclared

/-- All that a node refers to is there. -/
structure Form.Founded (form : Form) : Prop where
  nodes : ∀ c ∈ form.nodeIds, c < n
  reference : ∀ name target, form = .reference name (some target) →
    ∃ b, bindings[target.id]? = some b ∧ b.name = name
  lambda : ∀ s body, form = .lambda s body → s.Founded bindings ∧ body.bindings = []
  arms : ∀ scrutinee arms, form = .cases scrutinee arms → ∀ arm ∈ arms,
    ∃ name span, bindings[arm.binding]? = some (.payload name span scrutinee arm.tag)

/-- All that a binding refers to is there. -/
structure Binding.Founded (b : Binding) : Prop where
  nodes : ∀ c ∈ b.nodeIds, c < n
  function : ∀ name span s body, b = .function name span s body →
    s.Founded bindings ∧ ∀ own ∈ body, own.Founded n bindings

end

/-! ## Allocation -/

namespace Draft

/-- One more node, binding, body of a function, or number of a type variable. What it refers to is there before. -/
inductive Allocates : Draft → Draft → Prop
  | node {d : Draft} {form : Form} (span : Span) (h : form.Founded d.nodes.size d.bindings) :
      Allocates d { d with nodes := d.nodes.push ⟨form, span⟩ }
  | binding {d : Draft} {b : Binding} (h : b.Founded d.nodes.size d.bindings)
      (hbody : ∀ name span s body, b ≠ .function name span s (some body)) :
      Allocates d { d with bindings := d.bindings.push b }
  | body {d : Draft} {id : BindingId} {name : String} {span : Span} {s : Signature} {body : FunctionBody}
      (hid : d.bindings[id]? = some (.function name span s none)) (h : body.Founded d.nodes.size d.bindings) :
      Allocates d { d with bindings := d.bindings.setIfInBounds id (.function name span s (some body)) }
  | fresh {d : Draft} (next : Nat) : Allocates d { d with nextVariable := next }

/-- Allocations lead from the one draft to the other. -/
abbrev Reaches : Draft → Draft → Prop := Relation.ReflTransGen Allocates

end Draft

/-! ## What is there stays there -/

/-- The binding, later. It may have got its body. -/
def Binding.Becomes (b b' : Binding) : Prop :=
  b' = b ∨ ∃ name span s body, b = .function name span s none ∧ b' = .function name span s (some body)

theorem Binding.Becomes.name_eq {b b' : Binding} (h : b.Becomes b') : b'.name = b.name := by
  obtain rfl | ⟨name, span, s, body, rfl, rfl⟩ := h <;> rfl

theorem Binding.Becomes.isDeclared {b b' : Binding} (h : b.Becomes b') (hb : b.IsDeclared) : b'.IsDeclared := by
  obtain rfl | ⟨name, span, s, body, rfl, rfl⟩ := h
  · exact hb
  · exact trivial

/-- The bindings, later. There may be more of them. -/
def Later (bindings bindings' : Array Binding) : Prop :=
  ∀ (id : BindingId) (b : Binding), bindings[id]? = some b → ∃ b', bindings'[id]? = some b' ∧ b.Becomes b'

section

variable {n n' : Nat} {bindings bindings' : Array Binding}

theorem Later.refl : Later bindings bindings := fun _ b h => ⟨b, h, .inl rfl⟩

theorem Later.parameter (h : Later bindings bindings') {id : BindingId} {name : String} {span : Span} {type : Ty}
    (hid : bindings[id]? = some (.parameter name span type)) : bindings'[id]? = some (.parameter name span type) := by
  obtain ⟨b', hb', rfl | ⟨_, _, _, _, hfunction, -⟩⟩ := h id _ hid
  · exact hb'
  · cases hfunction

theorem Later.payload (h : Later bindings bindings') {id : BindingId} {name tag : String} {span : Span}
    {scrutinee : NodeId} (hid : bindings[id]? = some (.payload name span scrutinee tag)) :
    bindings'[id]? = some (.payload name span scrutinee tag) := by
  obtain ⟨b', hb', rfl | ⟨_, _, _, _, hfunction, -⟩⟩ := h id _ hid
  · exact hb'
  · cases hfunction

theorem Signature.Founded.later {s : Signature} (hs : s.Founded bindings) (h : Later bindings bindings') :
    s.Founded bindings' := hs.imp fun _ _ ⟨span, hid⟩ => ⟨span, h.parameter hid⟩

theorem FunctionBody.Founded.later {body : FunctionBody} (hbody : body.Founded n bindings) (hn : n ≤ n')
    (h : Later bindings bindings') : body.Founded n' bindings' := by
  refine ⟨Nat.lt_of_lt_of_le hbody.result hn, fun id hid => ?_⟩
  obtain ⟨b, hb, hdeclared⟩ := hbody.declared id hid
  obtain ⟨b', hb', hbecomes⟩ := h id b hb
  exact ⟨b', hb', hbecomes.isDeclared hdeclared⟩

theorem Form.Founded.later {form : Form} (hform : form.Founded n bindings) (h : Later bindings bindings') :
    form.Founded n bindings' := by
  refine ⟨hform.nodes, fun name target heq => ?_, fun s body heq => ?_, fun scrutinee arms heq arm harm => ?_⟩
  · obtain ⟨b, hb, hname⟩ := hform.reference name target heq
    obtain ⟨b', hb', hbecomes⟩ := h _ b hb
    exact ⟨b', hb', hbecomes.name_eq.trans hname⟩
  · obtain ⟨hs, hbody⟩ := hform.lambda s body heq
    exact ⟨hs.later h, hbody⟩
  · obtain ⟨name, span, hid⟩ := hform.arms scrutinee arms heq arm harm
    exact ⟨name, span, h.payload hid⟩

theorem Binding.Founded.later {b : Binding} (hb : b.Founded n bindings) (hn : n ≤ n') (h : Later bindings bindings') :
    b.Founded n' bindings' := by
  refine ⟨fun c hc => Nat.lt_of_lt_of_le (hb.nodes c hc) hn, fun name span s body heq => ?_⟩
  obtain ⟨hs, hbody⟩ := hb.function name span s body heq
  exact ⟨hs.later h, fun own hown => (hbody own hown).later hn h⟩

end

namespace Draft

variable {d d' : Draft}

theorem Allocates.later (h : d.Allocates d') : Later d.bindings d'.bindings := by
  cases h with
  | node _ _ | fresh _ => exact .refl
  | @binding b _ _ =>
      intro id own hid
      obtain ⟨hlt, -⟩ := Array.getElem?_eq_some_iff.mp hid
      exact ⟨own, by rw [Array.getElem?_push_lt hlt, ← hid, Array.getElem?_eq_getElem hlt], .inl rfl⟩
  | @body id name span s body hfunction _ =>
      intro other own hown
      by_cases heq : id = other
      · subst heq
        obtain rfl := Option.some.inj (hfunction.symm.trans hown)
        obtain ⟨hlt, -⟩ := Array.getElem?_eq_some_iff.mp hown
        exact ⟨_, Array.getElem?_setIfInBounds_self_of_lt hlt, .inr ⟨name, span, s, body, rfl, rfl⟩⟩
      · exact ⟨own, by rw [Array.getElem?_setIfInBounds_ne heq, hown], .inl rfl⟩

theorem Allocates.size_nodes_le (h : d.Allocates d') : d.nodes.size ≤ d'.nodes.size := by
  cases h <;> simp

/-- All nodes refer to nodes before them, and all bindings to what is there. -/
structure Consistent (d : Draft) : Prop where
  node : ∀ (id : NodeId) (n : Node), d.nodes[id]? = some n → n.form.Founded id d.bindings
  binding : ∀ (id : BindingId) (b : Binding), d.bindings[id]? = some b → b.Founded d.nodes.size d.bindings

/-- An allocation keeps a draft consistent. -/
theorem Consistent.allocates (hd : d.Consistent) (h : d.Allocates d') : d'.Consistent := by
  have hlater := h.later
  have hsize := h.size_nodes_le
  have hold (id : BindingId) (b : Binding) (hb : d.bindings[id]? = some b) : b.Founded d'.nodes.size d'.bindings :=
    (hd.binding id b hb).later hsize hlater
  cases h with
  | @node form span hform =>
      refine ⟨fun id n hn => ?_, hold⟩
      rw [Array.getElem?_push] at hn
      split at hn
      · obtain rfl := Option.some.inj hn
        subst id
        exact hform
      · exact hd.node id n hn
  | @binding b hb _ =>
      refine ⟨fun id n hn => (hd.node id n hn).later hlater, fun id own hown => ?_⟩
      rw [Array.getElem?_push] at hown
      split at hown
      · obtain rfl := Option.some.inj hown
        exact hb.later (Nat.le_refl _) hlater
      · exact hold id own hown
  | @body id name span s body hid hbody =>
      refine ⟨fun id n hn => (hd.node id n hn).later hlater, fun other own hown => ?_⟩
      rw [Array.getElem?_setIfInBounds] at hown
      split at hown
      · obtain ⟨hs, -⟩ := ((hd.binding id _ hid).later hsize hlater).function name span s none rfl
        split at hown
        · obtain rfl := Option.some.inj hown
          refine ⟨nofun, fun _ _ _ _ heq => ?_⟩
          cases heq
          exact ⟨hs, fun own hown => Option.some.inj hown ▸ hbody.later (Nat.le_refl _) hlater⟩
        · cases hown
      · exact hold other own hown
  | fresh _ => exact ⟨hd.node, hold⟩

theorem Reaches.consistent (h : d.Reaches d') (hd : d.Consistent) : d'.Consistent := by
  induction h with
  | refl => exact hd
  | tail _ hstep ih => exact ih.allocates hstep

/-- Each node was allocated when exactly those before it were there, and what it refers to was. -/
theorem Reaches.exists_before (h : d.Reaches d') {id : NodeId} (hlo : d.nodes.size ≤ id) {n : Node}
    (hn : d'.nodes[id]? = some n) :
    ∃ mid, d.Reaches mid ∧ mid.nodes.size = id ∧ n.form.Founded id mid.bindings ∧
      Reaches { mid with nodes := mid.nodes.push n } d' := by
  induction h with
  | refl =>
      obtain ⟨hlt, -⟩ := Array.getElem?_eq_some_iff.mp hn
      exact absurd hlt (Nat.not_lt.mpr hlo)
  | @tail mid last hmid hstep ih =>
      have hearlier (hn : mid.nodes[id]? = some n) : ∃ mid, d.Reaches mid ∧ mid.nodes.size = id ∧
          n.form.Founded id mid.bindings ∧ Reaches { mid with nodes := mid.nodes.push n } last := by
        obtain ⟨own, hd, hsize, hform, hrest⟩ := ih hn
        exact ⟨own, hd, hsize, hform, hrest.tail hstep⟩
      cases hstep with
      | @node form span hform =>
          rw [Array.getElem?_push] at hn
          split at hn
          · obtain rfl := Option.some.inj hn
            subst id
            exact ⟨mid, hmid, rfl, hform, .refl⟩
          · exact hearlier hn
      | binding _ _ | body _ _ | fresh _ => exact hearlier hn

end Draft

/-! ## Lowering -/

namespace Lowering

open Draft

variable {α β : Type} {d : Draft} {scope : Scope}

/-- The step allocates, changes nothing that was there, and has a result that satisfies `Q`, with the draft after it. -/
def Makes (d : Draft) (x : Lowering α) (Q : α → Draft → Prop) : Prop :=
  ∀ ⦃a : α⦄ ⦃d' : Draft⦄, x.run d = .ok (a, d') → d.Reaches d' ∧ Grows d d' ∧ Q a d'

namespace Makes

variable {Q Q' : α → Draft → Prop} {R : β → Draft → Prop}

theorem pure {a : α} (h : Q a d) : Makes d (Pure.pure a) Q := by
  intro a' d' hrun
  cases run_pure_eq_ok.mp hrun
  exact ⟨.refl, .refl d, h⟩

theorem fail {fault : TypeFault} {span : Span} : Makes d (Lowering.fail fault span) Q :=
  fun _ _ hrun => (run_fail_eq_ok.mp hrun).elim

theorem bind {x : Lowering α} {f : α → Lowering β} (h : Makes d x Q)
    (hf : ∀ a d', Grows d d' → Q a d' → Makes d' (f a) R) : Makes d (x >>= f) R := by
  intro b d'' hrun
  obtain ⟨a, d', hx, hrun⟩ := run_bind_eq_ok.mp hrun
  obtain ⟨hreaches, hgrows, ha⟩ := h hx
  obtain ⟨hreaches', hgrows', hb⟩ := hf a d' hgrows ha hrun
  exact ⟨hreaches.trans hreaches', hgrows.trans hgrows', hb⟩

theorem mono {x : Lowering α} (h : Makes d x Q) (hQ : ∀ a d', Grows d d' → Q a d' → Q' a d') : Makes d x Q' := by
  intro a d' hrun
  obtain ⟨hreaches, hgrows, ha⟩ := h hrun
  exact ⟨hreaches, hgrows, hQ a d' hgrows ha⟩

/-- The result and the draft after it are those of the run. -/
theorem run {x : Lowering α} (h : Makes d x Q) : Makes d x fun a d' => x.run d = .ok (a, d') := by
  intro a d' hrun
  obtain ⟨hreaches, hgrows, -⟩ := h hrun
  exact ⟨hreaches, hgrows, hrun⟩

theorem check {c : Prop} [Decidable c] {fault : TypeFault} {span : Span} {x : Lowering α} (h : Makes d x Q) :
    Makes d (if c then (Lowering.fail fault span : Lowering PUnit) >>= fun _ => x else x) Q :=
  fun _ _ hrun => h (run_check_eq_ok.mp hrun).2

end Makes

theorem makes_addNode {form : Form} {span : Span} (h : form.Founded d.nodes.size d.bindings) :
    Makes d (addNode form span) fun id d' => id < d'.nodes.size := by
  intro id d' hrun
  cases run_addNode_eq_ok.mp hrun
  exact ⟨.single (.node span h), grows_addNode d _, by simp⟩

theorem makes_addBinding {b : Binding} (h : b.Founded d.nodes.size d.bindings)
    (hbody : ∀ name span s body, b ≠ .function name span s (some body)) :
    Makes d (addBinding b) fun id d' => d'.bindings[id]? = some b := by
  intro id d' hrun
  cases run_addBinding_eq_ok.mp hrun
  exact ⟨.single (.binding h hbody), grows_addBinding d _, by simp⟩

theorem makes_freshVariable {name : String} : Makes d (freshVariable name) fun _ _ => True := by
  intro v d' hrun
  cases run_freshVariable_eq_ok.mp hrun
  exact ⟨.single (.fresh _), ⟨fun _ _ h => h, fun _ _ h => h, Nat.le_refl _, Nat.le_succ _⟩, trivial⟩

/-! ## Types -/

/-- The names of values stand for the same in both scopes. -/
def SameValues (scope inner : Scope) : Prop := ∀ name, inner.value? name = scope.value? name

theorem makes_lowerGenericsFrom {names : Generics} : ∀ {earlier : List TypeVariable} {scope : Scope} {d : Draft},
    Makes d (lowerGenericsFrom earlier scope names) fun r _ => SameValues scope r.2 := by
  induction names with
  | nil => exact fun {_ _ _} => .pure fun _ => rfl
  | cons g rest ih => exact fun {_ _ _} => .check (makes_freshVariable.bind fun _ _ _ _ => ih)

theorem makes_lowerGenerics {names : Generics} :
    Makes d (lowerGenerics scope names) fun r _ => SameValues scope r.2 := makes_lowerGenericsFrom

theorem makes_resolveType {name : String} {types : List Ty} {span : Span} :
    Makes d (resolveType scope name types span) fun _ _ => True := by
  unfold resolveType
  split
  · exact .fail
  · split
    · exact .pure trivial
    · exact .fail
  · split
    · exact .pure trivial
    · exact .fail
  · split
    · exact .pure trivial
    · exact .fail

mutual

theorem makes_lowerType : ∀ (t : TypeExpr) {scope : Scope} {d : Draft}, Makes d (lowerType scope t) fun _ _ => True
  | .named _ _ arguments, _, _ => (makes_lowerTypes arguments).bind fun _ _ _ _ => makes_resolveType
  | .object _ fields, _, _ => (makes_lowerTypeFields fields).bind fun _ _ _ _ => .pure trivial
  | .function _ _ ps result, _, _ =>
      makes_lowerGenerics.bind fun _ _ _ _ => (makes_lowerParameters ps).bind fun _ _ _ _ =>
        (makes_lowerType result).bind fun _ _ _ _ => .pure trivial
  | .nullable _ inner, _, _ => (makes_lowerType inner).bind fun _ _ _ _ => .pure trivial

theorem makes_lowerTypes : ∀ (ts : List TypeExpr) {scope : Scope} {d : Draft},
    Makes d (lowerTypes scope ts) fun _ _ => True
  | [], _, _ => .pure trivial
  | t :: rest, _, _ => (makes_lowerType t).bind fun _ _ _ _ => (makes_lowerTypes rest).bind fun _ _ _ _ => .pure trivial

theorem makes_lowerTypeFields : ∀ (fields : List (String × TypeExpr)) {scope : Scope} {span : Span}
    {done : Fields Ty} {d : Draft}, Makes d (lowerTypeFields scope span done fields) fun _ _ => True
  | [], _, _, _, _ => .pure trivial
  | (_, t) :: rest, _, _, _, _ => (makes_lowerType t).bind fun _ _ _ _ => .check (makes_lowerTypeFields rest)

theorem makes_lowerParameters : ∀ (ps : ParameterList (Parameter TypeExpr)) {scope : Scope} {d : Draft},
    Makes d (lowerParameters scope ps) fun _ _ => True
  | .fixed ps, _, _ => (makes_lowerEachParameter ps).bind fun _ _ _ _ => .pure trivial
  | .variadic ⟨_, t, _⟩, _, _ => (makes_lowerType t).bind fun _ _ _ _ => .pure trivial

theorem makes_lowerEachParameter : ∀ (ps : List (Parameter TypeExpr)) {scope : Scope} {d : Draft},
    Makes d (lowerEachParameter scope ps) fun _ _ => True
  | [], _, _ => .pure trivial
  | ⟨_, t, _⟩ :: rest, _, _ =>
      (makes_lowerType t).bind fun _ _ _ _ => (makes_lowerEachParameter rest).bind fun _ _ _ _ => .pure trivial

end

theorem makes_lowerType? {t : Option TypeExpr} : Makes d (lowerType? scope t) fun _ _ => True := by
  cases t with
  | none => exact .pure trivial
  | some t => exact (makes_lowerType t).bind fun _ _ _ _ => .pure trivial

theorem makes_lowerAlternatives {union : String} {alternatives : List Alternative} :
    ∀ {done : Fields Ty} {d : Draft}, Makes d (lowerAlternatives scope union done alternatives) fun _ _ => True := by
  induction alternatives with
  | nil => exact fun {_ _} => .pure trivial
  | cons a rest ih => exact fun {_ _} => (makes_lowerType a.payload).bind fun _ _ _ _ => .check ih

/-! ## Parameters and scopes -/

theorem Grows.later {d d' : Draft} (h : Grows d d') : Later d.bindings d'.bindings :=
  fun id b hid => ⟨b, h.bindings id b hid, .inl rfl⟩

/-- What was there before a binding does not change with it. -/
theorem Grows.setBinding {d d' : Draft} (h : Grows d d') {id : BindingId} (hid : d.bindings.size ≤ id) (b : Binding) :
    Grows d { d' with bindings := d'.bindings.setIfInBounds id b } := by
  refine ⟨h.nodes, fun own old hold => ?_, by simpa using h.size, h.next⟩
  obtain ⟨hlt, -⟩ := Array.getElem?_eq_some_iff.mp hold
  have hne : id ≠ own := Nat.ne_of_gt (Nat.lt_of_lt_of_le hlt hid)
  rw [Array.getElem?_setIfInBounds_ne hne]
  exact h.bindings own old hold

theorem makes_addParameters {ps : List (String × Ty)} : ∀ {spans : List Span} {d : Draft},
    ps.length = spans.length → Makes d (addParameters ps spans) fun ids d' =>
      List.Forall₂ (fun id (q : String × Ty) => ∃ span, d'.bindings[id]? = some (.parameter q.1 span q.2)) ids ps := by
  induction ps with
  | nil => exact fun {_ _} _ => .pure .nil
  | cons q rest ih =>
      intro spans d hlength
      cases spans with
      | nil => cases hlength
      | cons span spans =>
          have hfounded : (Binding.parameter q.1 span q.2).Founded d.nodes.size d.bindings := ⟨nofun, nofun⟩
          refine (makes_addBinding hfounded nofun).bind fun id d₁ _ hid => ?_
          refine (ih (Nat.succ.inj hlength)).bind fun ids d₂ hgrows hids => ?_
          exact .pure (.cons ⟨span, hgrows.bindings _ _ hid⟩ hids)

theorem makes_lowerSignatureParameters {ps : ParameterList (Parameter TypeExpr)} :
    Makes d (lowerSignatureParameters scope ps) fun r d' =>
      ∀ vs result, Signature.Founded d'.bindings ⟨vs, r.1, r.2, result⟩ := by
  refine (makes_lowerParameters ps).run.bind fun arguments d₁ _ harguments => ?_
  have hlength : (Program.insideParameters arguments).length = (ps.toList.map (·.span)).length := by
    rw [List.length_map]
    exact lowerParameters_length harguments
  exact (makes_addParameters hlength).bind fun ids d₂ _ hids => .pure fun _ _ => hids

/-- The names of values in a scope stand for bindings of these names. -/
def ScopeFounded (bindings : Array Binding) (scope : Scope) : Prop :=
  ∀ name target, scope.value? name = some target → ∃ b, bindings[target.id]? = some b ∧ b.name = name

namespace ScopeFounded

variable {bindings : Array Binding}

theorem root : ScopeFounded bindings .root := nofun

theorem grows {d d' : Draft} (h : ScopeFounded d.bindings scope) (hgrows : Grows d d') :
    ScopeFounded d'.bindings scope := by
  intro name target hname
  obtain ⟨b, hb, hown⟩ := h name target hname
  exact ⟨b, hgrows.bindings _ _ hb, hown⟩

theorem inner {inner : Scope} (h : ScopeFounded bindings scope) (hinner : SameValues scope inner) :
    ScopeFounded bindings inner := fun name target hname => h name target (hinner name ▸ hname)

theorem withType (h : ScopeFounded bindings scope) (name : String) (meaning : TypeMeaning) :
    ScopeFounded bindings (scope.withType name meaning) := h

theorem withValue (h : ScopeFounded bindings scope) {name : String} {target : Target}
    (htarget : ∃ b, bindings[target.id]? = some b ∧ b.name = name) :
    ScopeFounded bindings (scope.withValue name target) := by
  intro own found hfound
  simp only [Scope.value?, Scope.withValue, Scope.valueIn] at hfound
  split at hfound
  · obtain rfl := Option.some.inj hfound
    subst own
    exact htarget
  · exact h own found hfound

theorem narrowed (h : ScopeFounded bindings scope) (subject : Expr) (tag : String) :
    ScopeFounded bindings (narrowedScope scope subject tag) := by
  unfold narrowedScope
  split
  · split
    · rename_i id hname
      exact h.withValue (h _ (.bound id) hname)
    · rename_i id own hname
      exact h.withValue (h _ (.narrowed id own) hname)
    · exact h
  · exact h

theorem nonNull (h : ScopeFounded bindings scope) (subject : Expr) :
    ScopeFounded bindings (nonNullScope scope subject) := by
  unfold nonNullScope
  split
  · split
    · rename_i id hname
      exact h.withValue (h _ (.bound id) hname)
    · rename_i id hname
      exact h.withValue (h _ (.nonNull id) hname)
    · exact h
  · exact h

theorem branches (h : ScopeFounded bindings scope) (condition : Expr) :
    ScopeFounded bindings (branchScopes scope condition).1 ∧
      ScopeFounded bindings (branchScopes scope condition).2 := by
  unfold branchScopes
  split
  · exact ⟨h.narrowed _ _, h⟩
  · split
    · exact ⟨h, h.nonNull _⟩
    · exact ⟨h, h.nonNull _⟩
    · exact ⟨h, h⟩
  · exact ⟨h, h⟩

theorem bindAll (h : ScopeFounded bindings scope) (ids : List BindingId) :
    ScopeFounded bindings (Lowering.bindAll bindings scope ids) := by
  induction ids generalizing scope with
  | nil => exact h
  | cons id rest ih =>
      simp only [Lowering.bindAll, List.foldl_cons] at ih ⊢
      split
      · rename_i b hb
        exact ih (h.withValue ⟨b, hb, rfl⟩)
      · exact ih h

end ScopeFounded

theorem makes_bindParameters (h : ScopeFounded d.bindings scope) {ids : List BindingId} :
    Makes d (bindParameters scope ids) fun inside d' => ScopeFounded d'.bindings inside := by
  intro inside d' hrun
  cases run_bindParameters_eq_ok.mp hrun
  exact ⟨.refl, .refl d, h.bindAll ids⟩

/-! ## Expressions -/

theorem founded_of_direct {form : Form} (h : Direct form) {n : Nat} (hchildren : ∀ c ∈ Program.children form, c < n)
    (bindings : Array Binding) : form.Founded n bindings := by
  cases form <;> first | exact h.elim | exact ⟨hchildren, nofun, nofun, nofun⟩

/-- A node of a direct form, after those inside it. -/
theorem makes_addNode_direct {form : Form} {span : Span} (h : Direct form)
    (hchildren : ∀ c ∈ Program.children form, c < d.nodes.size) :
    Makes d (addNode form span) fun id d' => id < d'.nodes.size :=
  makes_addNode (founded_of_direct h hchildren _)

/-- The arms of a match are there: their bindings are payloads of the node `scrutinee`, and there are their bodies. -/
def ArmsFounded (d : Draft) (scrutinee : NodeId) (arms : List Arm) : Prop :=
  ∀ arm ∈ arms, arm.body < d.nodes.size ∧
    ∃ name span, d.bindings[arm.binding]? = some (.payload name span scrutinee arm.tag)

/-- The node of an expression with one expression inside. -/
theorem makes_one {form : NodeId → Form} {span : Span} (hform : ∀ id, Direct (form id))
    (hchildren : ∀ id, Program.children (form id) = [id]) {x : Lowering NodeId}
    (h : Makes d x fun id d' => id < d'.nodes.size) :
    Makes d (x >>= fun id => addNode (form id) span) fun id d' => id < d'.nodes.size :=
  h.bind fun id _ _ hid => makes_addNode_direct (hform id) (by simpa [hchildren] using hid)

mutual

/-- The node of an expression is made after all that it refers to. -/
theorem makes_lowerExpr : ∀ (e : Expr) {scope : Scope} {d : Draft}, ScopeFounded d.bindings scope →
    Makes d (lowerExpr scope e) fun id d' => id < d'.nodes.size
  | .number _ _, _, _, _ | .bigInteger _ _, _, _, _ | .boolean _ _, _, _, _ | .null _, _, _, _ =>
      makes_addNode_direct trivial nofun
  | .object _ fields, _, _, hscope => by
      refine (makes_lowerFields fields hscope).bind fun found _ _ hfound => makes_addNode_direct trivial fun c hc => ?_
      obtain ⟨field, hfield, rfl⟩ := List.mem_map.mp hc
      exact hfound field hfield
  | .reference _ name, scope, d, hscope => by
      refine makes_addNode ⟨nofun, fun own target heq => ?_, nofun, nofun⟩
      obtain ⟨rfl, htarget⟩ := Form.reference.inj heq
      exact hscope _ _ htarget
  | .binary _ op lhs rhs, _, _, hscope => by
      refine (makes_lowerExpr lhs hscope).bind fun l _ hgrows hl => ?_
      refine (makes_lowerExpr rhs (hscope.grows hgrows)).bind fun r _ hgrows' hr => ?_
      have hl' := Nat.lt_of_lt_of_le hl hgrows'.nodes_size
      exact makes_addNode_direct (by cases op <;> trivial) (by cases op <;> simp [binaryForm, Program.children, hl', hr])
  | .unary _ op operand, _, _, hscope =>
      makes_one (fun _ => by cases op <;> trivial) (fun _ => by cases op <;> rfl) (makes_lowerExpr operand hscope)
  | .conditional _ condition thenBranch elseBranch, _, _, hscope => by
      obtain ⟨hthen, helse⟩ := hscope.branches condition
      refine (makes_lowerExpr condition hscope).bind fun c _ hgrows hc => ?_
      refine (makes_lowerExpr thenBranch (hthen.grows hgrows)).bind fun t _ hgrows' ht => ?_
      refine (makes_lowerExpr elseBranch (helse.grows (hgrows.trans hgrows'))).bind fun e _ hgrows'' he => ?_
      have hc' := Nat.lt_of_lt_of_le hc (hgrows'.trans hgrows'').nodes_size
      have ht' := Nat.lt_of_lt_of_le ht hgrows''.nodes_size
      exact makes_addNode_direct trivial (by simp [Program.children, hc', ht', he])
  | .call _ callee types arguments, _, _, hscope => by
      refine (makes_lowerExpr callee hscope).bind fun f _ hgrows hf => ?_
      refine (makes_lowerTypes types).bind fun written _ hgrows' _ => ?_
      refine (makes_lowerExprs arguments (hscope.grows (hgrows.trans hgrows'))).bind fun ids _ hgrows'' hids => ?_
      have hf' := Nat.lt_of_lt_of_le hf (hgrows'.trans hgrows'').nodes_size
      exact makes_addNode_direct trivial (List.forall_mem_cons.mpr ⟨hf', hids⟩)
  | .lambda _ names ps result body, _, _, hscope => by
      refine makes_lowerGenerics.bind fun ⟨vs, inner⟩ _ hgrows hinner => ?_
      refine makes_lowerSignatureParameters.bind fun ⟨arguments, ids⟩ d₂ hgrows₂ hs => ?_
      refine makes_lowerType?.bind fun written d₃ hgrows₃ _ => ?_
      have hscope' := ((hscope.grows hgrows).inner hinner).grows (hgrows₂.trans hgrows₃)
      refine (makes_bindParameters hscope').bind fun inside d₄ hgrows₄ hinside => ?_
      refine (makes_lowerExpr body hinside).bind fun value d₅ hgrows₅ hvalue => ?_
      refine makes_addNode ⟨?_, nofun, fun s own heq => ?_, nofun⟩
      · simpa [Form.nodeIds] using hvalue
      · obtain ⟨rfl, rfl⟩ := Form.lambda.inj heq
        exact ⟨(hs vs written).later (hgrows₃.trans (hgrows₄.trans hgrows₅)).later, rfl⟩
  | .field _ owner _, _, _, hscope => makes_one (fun _ => by trivial) (fun _ => rfl) (makes_lowerExpr owner hscope)
  | .tagged _ value _, _, _, hscope | .hasTag _ value _, _, _, hscope | .untag _ value, _, _, hscope =>
      makes_one (fun _ => by trivial) (fun _ => rfl) (makes_lowerExpr value hscope)
  | .cases _ scrutinee arms, _, _, hscope => by
      refine (makes_lowerExpr scrutinee hscope).bind fun e _ hgrows he => ?_
      refine (makes_lowerArms arms (hscope.grows hgrows) he).bind fun found d' hgrows' hfound => ?_
      have he' := Nat.lt_of_lt_of_le he hgrows'.nodes_size
      refine makes_addNode ⟨fun c hc => ?_, nofun, nofun, fun own others heq arm harm => ?_⟩
      · rcases List.mem_cons.mp hc with rfl | hc
        · exact he'
        · obtain ⟨arm, harm, rfl⟩ := List.mem_map.mp hc
          exact (hfound arm harm).1
      · obtain ⟨rfl, rfl⟩ := Form.cases.inj heq
        exact (hfound arm harm).2

theorem makes_lowerExprs : ∀ (es : List Expr) {scope : Scope} {d : Draft}, ScopeFounded d.bindings scope →
    Makes d (lowerExprs scope es) fun ids d' => ∀ id ∈ ids, id < d'.nodes.size
  | [], _, _, _ => .pure nofun
  | e :: rest, _, _, hscope => by
      refine (makes_lowerExpr e hscope).bind fun id _ hgrows hid => ?_
      refine (makes_lowerExprs rest (hscope.grows hgrows)).bind fun ids _ hgrows hids => ?_
      exact .pure (List.forall_mem_cons.mpr ⟨Nat.lt_of_lt_of_le hid hgrows.nodes_size, hids⟩)

theorem makes_lowerFields : ∀ (fields : List (FieldInit Expr)) {scope : Scope} {d : Draft},
    ScopeFounded d.bindings scope →
      Makes d (lowerFields scope fields) fun found d' => ∀ field ∈ found, field.2 < d'.nodes.size
  | [], _, _, _ => .pure nofun
  | ⟨_, value, _⟩ :: rest, _, _, hscope => by
      refine (makes_lowerExpr value hscope).bind fun id _ hgrows hid => ?_
      refine (makes_lowerFields rest (hscope.grows hgrows)).bind fun ids _ hgrows hids => ?_
      exact .pure (List.forall_mem_cons.mpr ⟨Nat.lt_of_lt_of_le hid hgrows.nodes_size, hids⟩)

theorem makes_lowerArms : ∀ (arms : List (MatchArm Expr)) {scope : Scope} {subject : Expr} {scrutinee : NodeId}
    {d : Draft}, ScopeFounded d.bindings scope → scrutinee < d.nodes.size →
      Makes d (lowerArms scope subject scrutinee arms) fun arms d' => ArmsFounded d' scrutinee arms
  | [], _, _, _, _, _, _ => .pure nofun
  | ⟨tag, name, body, span⟩ :: rest, scope, subject, scrutinee, d, hscope, hscrutinee => by
      have hpayload : (Binding.payload name.value name.span scrutinee tag.value).Founded d.nodes.size d.bindings :=
        ⟨by simpa [Binding.nodeIds] using hscrutinee, nofun⟩
      refine (makes_addBinding hpayload nofun).bind fun id d₁ hgrows₁ hid => ?_
      have hinside : ScopeFounded d₁.bindings ((narrowedScope scope subject tag.value).withValue name.value (.bound id)) :=
        ((hscope.grows hgrows₁).narrowed subject tag.value).withValue ⟨_, hid, rfl⟩
      refine (makes_lowerExpr body hinside).bind fun value d₂ hgrows₂ hvalue => ?_
      have hbefore := hgrows₁.trans hgrows₂
      have hscrutinee' := Nat.lt_of_lt_of_le hscrutinee hbefore.nodes_size
      refine (makes_lowerArms rest (hscope.grows hbefore) hscrutinee').bind fun others d₃ hgrows₃ hothers => ?_
      refine .pure (List.forall_mem_cons.mpr ⟨⟨Nat.lt_of_lt_of_le hvalue hgrows₃.nodes_size, ?_⟩, hothers⟩)
      exact ⟨_, _, (hgrows₂.trans hgrows₃).bindings _ _ hid⟩

end

/-! ## Declarations and bodies -/

/-- The names in scope after declarations, and the bindings of those that have one. -/
def DeclaredFounded (ids : List BindingId) (scope : Scope) (d : Draft) : Prop :=
  ScopeFounded d.bindings scope ∧ ∀ id ∈ ids, ∃ b, d.bindings[id]? = some b ∧ b.IsDeclared

theorem founded_function {name : String} {span : Span} {s : Signature} {n : Nat} {bindings : Array Binding}
    (hs : s.Founded bindings) : (Binding.function name span s none).Founded n bindings := by
  refine ⟨fun _ hmem => (by cases hmem), fun _ _ _ _ heq => ?_⟩
  cases heq
  exact ⟨hs, fun _ hbody => (by cases hbody)⟩

/-- A function is made before the scope of its body and the body, which completes it. -/
theorem makes_function {name : String} {span : Span} {s : Signature} (hs : s.Founded d.bindings)
    {inside : BindingId → Lowering Scope} {body : Scope → Lowering FunctionBody} {after : BindingId → Scope}
    (hinside : ∀ id d', Grows d d' → d'.bindings[id]? = some (.function name span s none) →
      Makes d' (inside id) fun scope d'' => ScopeFounded d''.bindings scope)
    (hbody : ∀ scope d', ScopeFounded d'.bindings scope →
      Makes d' (body scope) fun b d'' => b.Founded d''.nodes.size d''.bindings)
    (hafter : ∀ id d' b, Grows d d' → d'.bindings[id]? = some (.function name span s (some b)) →
      ScopeFounded d'.bindings (after id)) :
    Makes d (do
      let id ← addBinding (.function name span s none)
      let scope ← inside id
      let b ← body scope
      setBinding id (.function name span s (some b))
      pure (some id, after id)) fun r d' => DeclaredFounded r.1.toList r.2 d' := by
  intro r e hrun
  obtain ⟨id, d₁, hadd, hrun⟩ := run_bind_eq_ok.mp hrun
  obtain ⟨scope, d₂, hscope, hrun⟩ := run_bind_eq_ok.mp hrun
  obtain ⟨b, d₃, hb, hrun⟩ := run_bind_eq_ok.mp hrun
  obtain ⟨_, _, hset, hrun⟩ := run_bind_eq_ok.mp hrun
  cases run_pure_eq_ok.mp hrun
  obtain ⟨hreaches₁, h₁, hid⟩ := makes_addBinding (founded_function hs) (by simp) hadd
  obtain ⟨hreaches₂, h₂, hinside⟩ := hinside id d₁ h₁ hid hscope
  obtain ⟨hreaches₃, h₃, hfounded⟩ := hbody scope d₂ hinside hb
  have hid₃ := (h₂.trans h₃).bindings _ _ hid
  have hnew : d.bindings.size ≤ id := by
    cases run_addBinding_eq_ok.mp hadd
    exact Nat.le_refl _
  cases run_setBinding_eq_ok.mp hset
  have hgrows := (h₁.trans (h₂.trans h₃)).setBinding hnew (.function name span s (some b))
  have hdone := Array.getElem?_setIfInBounds_self_of_lt (a := .function name span s (some b))
    (Array.getElem?_eq_some_iff.mp hid₃).1
  refine ⟨((hreaches₁.trans hreaches₂).trans hreaches₃).tail (.body hid₃ hfounded), hgrows, ?_, ?_⟩
  · exact hafter id _ b hgrows hdone
  · exact List.forall_mem_singleton.mpr ⟨_, hdone, trivial⟩

mutual

theorem makes_lowerDeclaration : ∀ (declaration : Declaration) {scope : Scope} {d : Draft},
    ScopeFounded d.bindings scope →
      Makes d (lowerDeclaration scope declaration) fun r d' => DeclaredFounded r.1.toList r.2 d'
  | .value span name type value, _, _, hscope => by
      refine makes_lowerType?.bind fun written _ h₁ _ => ?_
      refine (makes_lowerExpr value (hscope.grows h₁)).bind fun node d₂ h₂ hnode => ?_
      have hvalue : (Binding.value name.value span written node).Founded d₂.nodes.size d₂.bindings :=
        ⟨by simpa [Binding.nodeIds] using hnode, nofun⟩
      refine (makes_addBinding hvalue nofun).bind fun id _ h₃ hid => .pure ⟨?_, ?_⟩
      · exact (hscope.grows (h₁.trans (h₂.trans h₃))).withValue ⟨_, hid, rfl⟩
      · exact List.forall_mem_singleton.mpr ⟨_, hid, trivial⟩
  | .function span name names ps result body, _, _, hscope => by
      refine makes_lowerGenerics.bind fun ⟨vs, inner⟩ _ h₁ hinner => ?_
      refine makes_lowerSignatureParameters.bind fun ⟨arguments, ids⟩ _ h₂ hs => ?_
      refine makes_lowerType?.bind fun written _ h₃ _ => ?_
      have hinner := ((hscope.grows h₁).inner hinner).grows (h₂.trans h₃)
      refine makes_function ((hs vs written).later h₃.later) (fun id d₄ h₄ hid => ?_)
        (fun inside _ hinside => makes_lowerBody body hinside) fun id _ b h₄ hid => ?_
      · have hown : ∃ b, d₄.bindings[(Target.enclosing id).id]? = some b ∧ b.name = name.value := ⟨_, hid, rfl⟩
        exact makes_bindParameters ((hinner.grows h₄).withValue hown)
      · exact (hscope.grows (h₁.trans (h₂.trans (h₃.trans h₄)))).withValue ⟨_, hid, rfl⟩
  | .external span name names ps result, _, _, hscope => by
      refine makes_lowerGenerics.bind fun ⟨vs, inner⟩ _ h₁ hinner => ?_
      refine makes_lowerSignatureParameters.bind fun ⟨arguments, ids⟩ _ h₂ hs => ?_
      refine (makes_lowerType result).bind fun type _ h₃ _ => ?_
      have hs := (hs vs (some type)).later h₃.later
      refine (makes_addBinding (founded_function hs) (by simp)).bind fun id _ h₄ hid => .pure ⟨?_, ?_⟩
      · exact (hscope.grows (h₁.trans (h₂.trans (h₃.trans h₄)))).withValue ⟨_, hid, rfl⟩
      · exact List.forall_mem_singleton.mpr ⟨_, hid, trivial⟩
  | .alias _ name names target, _, _, hscope => by
      refine makes_lowerGenerics.bind fun ⟨vs, inner⟩ _ h₁ _ => ?_
      refine (makes_lowerType target).bind fun target _ h₂ _ => .pure ⟨?_, nofun⟩
      exact (hscope.grows (h₁.trans h₂)).withType _ _
  | .union _ name names alternatives, _, _, hscope => by
      refine makes_lowerGenerics.bind fun ⟨vs, inner⟩ _ h₁ _ => ?_
      refine makes_lowerAlternatives.bind fun fields _ h₂ _ => .pure ⟨?_, nofun⟩
      exact (hscope.grows (h₁.trans h₂)).withType _ _

theorem makes_lowerDeclarations : ∀ (ds : List Declaration) {scope : Scope} {d : Draft},
    ScopeFounded d.bindings scope →
      Makes d (lowerDeclarations scope ds) fun r d' => DeclaredFounded r.1 r.2 d'
  | [], _, _, hscope => .pure ⟨hscope, nofun⟩
  | declaration :: rest, _, _, hscope => by
      refine (makes_lowerDeclaration declaration hscope).bind fun ⟨id, next⟩ _ _ ⟨hnext, hid⟩ => ?_
      refine (makes_lowerDeclarations rest hnext).bind fun ⟨ids, last⟩ _ hgrows ⟨hlast, hids⟩ => ?_
      refine .pure ⟨hlast, fun own hown => ?_⟩
      rcases List.mem_append.mp hown with hown | hown
      · obtain ⟨b, hb, hdeclared⟩ := hid own hown
        exact ⟨b, hgrows.bindings _ _ hb, hdeclared⟩
      · exact hids own hown

theorem makes_lowerBody : ∀ (body : Body) {scope : Scope} {d : Draft}, ScopeFounded d.bindings scope →
    Makes d (lowerBody scope body) fun found d' => found.Founded d'.nodes.size d'.bindings
  | .mk declarations result span, _, _, hscope => by
      refine (makes_lowerDeclarations declarations hscope).bind fun ⟨ids, inside⟩ _ _ ⟨hinside, hids⟩ => ?_
      refine (makes_lowerExpr result hinside).bind fun node _ hgrows hnode => .pure ⟨hnode, fun id hid => ?_⟩
      obtain ⟨b, hb, hdeclared⟩ := hids id hid
      exact ⟨b, hgrows.bindings _ _ hb, hdeclared⟩

end

end Lowering

/-! ## Programs -/

open Draft

namespace Program

/-- A program whose parts refer to each other as they should: nodes to nodes before them, and nodes and bindings to
bindings that are there and of the right kind. Allocations lead to it, each after those of all that it refers to. -/
structure Consistent (p : Program) : Prop where
  node : ∀ (id : NodeId) (n : Node), p.nodes[id]? = some n → n.form.Founded id p.bindings
  binding : ∀ (id : BindingId) (b : Binding), p.bindings[id]? = some b → b.Founded p.nodes.size p.bindings
  body : p.body.Founded p.nodes.size p.bindings
  /-- When a reference was made, just after the nodes before it, there was a binding of its name. -/
  reference : ∀ (id : NodeId) (name : String) (target : Target) (span : Span),
    p.nodes[id]? = some ⟨.reference name (some target), span⟩ →
      ∃ before after, Reaches ⟨#[], #[], 0⟩ before ∧ before.nodes.size = id ∧
        (∃ b, before.bindings[target.id]? = some b ∧ b.name = name) ∧
        Reaches { before with nodes := before.nodes.push ⟨.reference name (some target), span⟩ } after ∧
        after.nodes = p.nodes ∧ after.bindings = p.bindings

theorem consistent_of_ofTree {tree : Tree} {p : Program} (h : ofTree tree = .ok p) : p.Consistent := by
  obtain ⟨d, hrun, hnodes, hbindings⟩ := lowerBody_of_ofTree h
  obtain ⟨hreaches, -, hbody⟩ := Lowering.makes_lowerBody tree.body Lowering.ScopeFounded.root hrun
  have hd : d.Consistent := hreaches.consistent ⟨nofun, nofun⟩
  refine ⟨?_, ?_, ?_, fun id name target span hid => ?_⟩
  · rw [hnodes, hbindings]
    exact hd.node
  · rw [hnodes, hbindings]
    exact hd.binding
  · rw [hnodes, hbindings]
    exact hbody
  · rw [hnodes] at hid
    obtain ⟨before, hbefore, hsize, hfounded, hafter⟩ := hreaches.exists_before (Nat.zero_le id) hid
    exact ⟨before, d, hbefore, hsize, hfounded.reference name target rfl, hafter, hnodes.symm, hbindings.symm⟩

/-- The program of a source text is consistent, also if it is not valid. -/
theorem consistent_of_ofSource {source : String} {p : Program} (h : ofSource source = .ok p) : p.Consistent :=
  consistent_of_ofTree (ofTree_of_ofSource h)

/-- A program that is not valid, with a recursive function, a match and names that are not in scope. -/
def knottySource : String :=
  "union Shape = circle: Number | point: Null\n" ++
  "external def most(...sizes: Number): Number\n" ++
  "def size(s: Shape): Number = match s { circle c => most(c, size(s)), point p => q }\n" ++
  "return fn(s: Shape) => if s is circle then size(s) else missing"

theorem consistent_of_ofSource_knotty : ∃ p, ofSource knottySource = .ok p ∧ p.Consistent := by
  obtain ⟨p, hp⟩ := exists_of_isOk (show (ofSource knottySource).isOk = true by decide +kernel)
  exact ⟨p, hp, consistent_of_ofSource hp⟩

end Program

end Sable
