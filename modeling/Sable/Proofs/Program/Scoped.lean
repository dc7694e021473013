import Sable.Program.Validation
import Sable.Proofs.Ty.Closed

/-! Well-scoped programs.

A program keeps of its scopes only what each name was resolved to. Here the scopes are put back: the names
in scope at a node, with what is known of them there, and the type variables in scope. -/
namespace Sable

/-- The names of values in scope, the newest first. -/
abbrev Names := List (String × Target)

/-! ## Names of a scope -/

namespace Scope

def namesIn : List Entry → Names
  | [] => []
  | .value name target :: rest => (name, target) :: namesIn rest
  | .type .. :: rest => namesIn rest

/-- The names of values in a scope. -/
def names (scope : Scope) : Names := namesIn scope.entries

theorem value?_eq (scope : Scope) (name : String) :
    scope.value? name = Fields.get? name scope.names := by
  obtain ⟨entries⟩ := scope
  simp only [value?, names]
  induction entries with
  | nil => rfl
  | cons entry rest ih =>
      cases entry with
      | value own target => simp only [valueIn, namesIn, Fields.get?, ih]
      | type _ _ => exact ih

@[simp] theorem names_withValue (scope : Scope) (name : String) (target : Target) :
    (scope.withValue name target).names = (name, target) :: scope.names := rfl

@[simp] theorem names_withType (scope : Scope) (name : String) (meaning : TypeMeaning) :
    (scope.withType name meaning).names = scope.names := rfl

end Scope

namespace Form

/-- Forms whose parts are in the scope of the whole. -/
def Simple : Form → Prop
  | reference .. | lambda .. | conditional .. | cases .. => False
  | _ => True

/-- The types written down in an expression, those of a function apart. -/
def types : Form → List Ty
  | call _ types _ => types
  | _ => []

end Form

namespace Program

variable (p : Program)

/-! ## What conditions tell -/

/-- The names where the value of the node `subject` is known to have a tag. -/
def narrowedNames (names : Names) (subject : NodeId) (tag : String) : Names :=
  match (p.node subject).form with
  | .reference name _ =>
    match Fields.get? name names with
    | some (.bound id) | some (.narrowed id _) => (name, .narrowed id tag) :: names
    | _ => names
  | _ => names

/-- The names where the value of the node `subject` is known not to be `null`. -/
def nonNullNames (names : Names) (subject : NodeId) : Names :=
  match (p.node subject).form with
  | .reference name _ =>
    match Fields.get? name names with
    | some (.bound id) | some (.nonNull id) => (name, .nonNull id) :: names
    | _ => names
  | _ => names

/-- The names in the two branches under a condition. -/
def branchNames (names : Names) (condition : NodeId) : Names × Names :=
  match (p.node condition).form with
  | .hasTag subject tag => (p.narrowedNames names subject tag, names)
  | .comparison .equal lhs rhs =>
    match (p.node lhs).form, (p.node rhs).form with
    | _, .null => (names, p.nonNullNames names lhs)
    | .null, _ => (names, p.nonNullNames names rhs)
    | _, _ => (names, names)
  | _ => (names, names)

/-- The names after bindings that are complete. -/
def boundNames (names : Names) (ids : List BindingId) : Names :=
  ids.foldl (fun names id => ((p.binding id).name, .bound id) :: names) names

/-! ## Types and signatures -/

/-- A type that only mentions variables in scope, and that is monomorphic in a plain program. -/
def TypeScoped (plain : Prop) (vs : List TypeVariable) (type : Ty) : Prop :=
  type.Closed vs ∧ (plain → type.every Ty.monomorphic = true)

theorem TypeScoped.mono {plain : Prop} {vs ws : List TypeVariable} {a : Ty}
    (h : TypeScoped plain vs a) (hsubset : vs ⊆ ws) : TypeScoped plain ws a :=
  ⟨h.1.mono hsubset, h.2⟩

/-- Parameters with the types that they have inside the function. -/
def insideParameters : Parameters → List (String × Ty)
  | .fixed ps => ps
  | .variadic (name, type) => [(name, .list type)]

/-- A signature whose type variables are new among `vs` and whose parameters have bindings. -/
structure SignatureScoped (plain : Prop) (vs : List TypeVariable) (s : Signature) : Prop where
  fresh : ∀ v ∈ s.typeVariables, v ∉ vs
  nodup : s.typeVariables.Nodup
  arguments : ∀ q ∈ s.arguments.toList, TypeScoped plain (s.typeVariables ++ vs) q.2
  result : ∀ type ∈ s.result, TypeScoped plain (s.typeVariables ++ vs) type
  parameters : List.Forall₂ (fun id (q : String × Ty) => ∃ span, p.binding id = .parameter q.1 span q.2)
    s.parameters (insideParameters s.arguments)
  monomorphic : plain → s.typeVariables = [] ∧ s.arguments.isVariadic = false

/-! ## Nodes, bodies and bindings -/

/-- Any function may do without a body. -/
def anyFunction : String → Signature → Prop := fun _ _ => True

mutual

/-- A node in a scope of type variables and names. Functions without a body are among the `native`. -/
inductive Scoped (plain : Prop) (native : String → Signature → Prop) : List TypeVariable → Names → NodeId → Prop
  | simple {vs : List TypeVariable} {names : Names} {id : NodeId} (hform : (p.node id).form.Simple)
      (htypes : ∀ type ∈ (p.node id).form.types, TypeScoped plain vs type)
      (hchildren : ∀ c ∈ children (p.node id).form, Scoped plain native vs names c) :
      Scoped plain native vs names id
  | reference {vs : List TypeVariable} {names : Names} {id : NodeId} {name : String}
      (hform : (p.node id).form = .reference name (Fields.get? name names)) :
      Scoped plain native vs names id
  | conditional {vs : List TypeVariable} {names : Names} {id c t e : NodeId}
      (hform : (p.node id).form = .conditional c t e) (hc : Scoped plain native vs names c)
      (ht : Scoped plain native vs (p.branchNames names c).1 t)
      (he : Scoped plain native vs (p.branchNames names c).2 e) : Scoped plain native vs names id
  | lambda {vs : List TypeVariable} {names : Names} {id : NodeId} {s : Signature}
      {body : FunctionBody} (hform : (p.node id).form = .lambda s body)
      (hsignature : p.SignatureScoped plain vs s)
      (hbody : ScopedBody plain native (s.typeVariables ++ vs) (p.boundNames names s.parameters) body) :
      Scoped plain native vs names id
  | cases {vs : List TypeVariable} {names : Names} {id scrutinee : NodeId} {arms : List Arm}
      (hform : (p.node id).form = .cases scrutinee arms)
      (hscrutinee : Scoped plain native vs names scrutinee)
      (hpayload : ∀ arm ∈ arms, ∃ name span,
        p.binding arm.binding = .payload name span scrutinee arm.tag)
      (harms : ∀ arm ∈ arms, Scoped plain native vs
        (p.boundNames (p.narrowedNames names scrutinee arm.tag) [arm.binding]) arm.body) :
      Scoped plain native vs names id

inductive ScopedBody (plain : Prop) (native : String → Signature → Prop) : List TypeVariable → Names → FunctionBody → Prop
  | mk {vs : List TypeVariable} {names names' : Names} {body : FunctionBody}
      (hbindings : ScopedBindings plain native vs names body.bindings names')
      (hresult : Scoped plain native vs names' body.result) : ScopedBody plain native vs names body

/-- Bindings in order, and the names after them. -/
inductive ScopedBindings (plain : Prop) (native : String → Signature → Prop) :
    List TypeVariable → Names → List BindingId → Names → Prop
  | nil {vs : List TypeVariable} {names : Names} : ScopedBindings plain native vs names [] names
  | value {vs : List TypeVariable} {names names' : Names} {id : BindingId} {rest : List BindingId}
      {name : String} {span : Span} {type : Option Ty} {node : NodeId}
      (hbinding : p.binding id = .value name span type node)
      (htype : ∀ t ∈ type, TypeScoped plain vs t) (hnode : Scoped plain native vs names node)
      (hrest : ScopedBindings plain native vs (p.boundNames names [id]) rest names') :
      ScopedBindings plain native vs names (id :: rest) names'
  | function {vs : List TypeVariable} {names names' : Names} {id : BindingId}
      {rest : List BindingId} {name : String} {span : Span} {s : Signature} {body : FunctionBody}
      (hbinding : p.binding id = .function name span s (some body))
      (hsignature : p.SignatureScoped plain vs s)
      (hbody : ScopedBody plain native (s.typeVariables ++ vs)
        (p.boundNames ((name, .enclosing id) :: names) s.parameters) body)
      (hrest : ScopedBindings plain native vs (p.boundNames names [id]) rest names') :
      ScopedBindings plain native vs names (id :: rest) names'
  | external {vs : List TypeVariable} {names names' : Names} {id : BindingId}
      {rest : List BindingId} {name : String} {span : Span} {s : Signature} {result : Ty}
      (hbinding : p.binding id = .function name span s none) (hplain : ¬ plain)
      (hnative : native name s) (hsignature : p.SignatureScoped plain vs s) (hresult : s.result = some result)
      (hrest : ScopedBindings plain native vs (p.boundNames names [id]) rest names') :
      ScopedBindings plain native vs names (id :: rest) names'

end

/-- The first binding by itself, and those after it. -/
theorem ScopedBindings.uncons {p : Program} {plain : Prop} {native : String → Signature → Prop}
    {vs : List TypeVariable} {names names' : Names} {id : BindingId} {rest : List BindingId}
    (h : p.ScopedBindings plain native vs names (id :: rest) names') :
    p.ScopedBindings plain native vs names [id] (p.boundNames names [id]) ∧
      p.ScopedBindings plain native vs (p.boundNames names [id]) rest names' := by
  cases h with
  | value hbinding htype hnode hrest => exact ⟨.value hbinding htype hnode .nil, hrest⟩
  | function hbinding hs hbody hrest => exact ⟨.function hbinding hs hbody .nil, hrest⟩
  | external hbinding hplain hnative hs hresult hrest =>
      exact ⟨.external hbinding hplain hnative hs hresult .nil, hrest⟩

section

variable {p : Program} {plain : Prop} {native native' : String → Signature → Prop}

theorem ScopedBindings.append {ids ids' : List BindingId} : ∀ {vs : List TypeVariable} {names mid names' : Names},
    p.ScopedBindings plain native vs names ids mid → p.ScopedBindings plain native vs mid ids' names' →
      p.ScopedBindings plain native vs names (ids ++ ids') names'
  | _, _, _, _, .nil, h => h
  | _, _, _, _, .value hbinding htype hnode hrest, h => .value hbinding htype hnode (ScopedBindings.append hrest h)
  | _, _, _, _, .function hbinding hs hbody hrest, h => .function hbinding hs hbody (ScopedBindings.append hrest h)
  | _, _, _, _, .external hbinding hplain hnative hs hresult hrest, h =>
      .external hbinding hplain hnative hs hresult (ScopedBindings.append hrest h)

/-- Functions without a body may be taken to be those that they are. -/
theorem ScopedBindings.of_natives : ∀ {vs : List TypeVariable} {names names' : Names} {ids : List BindingId},
    p.ScopedBindings plain native vs names ids names' →
      (∀ id ∈ ids, ∃ name span s, p.binding id = .function name span s none ∧ native' name s) →
        p.ScopedBindings plain native' vs names ids names'
  | _, _, _, _, .nil, _ => .nil
  | _, _, _, _, .value hbinding _ _ _, h => by
      obtain ⟨⟨_, _, _, hfunction, -⟩, -⟩ := List.forall_mem_cons.mp h
      cases hbinding.symm.trans hfunction
  | _, _, _, _, .function hbinding _ _ _, h => by
      obtain ⟨⟨_, _, _, hfunction, -⟩, -⟩ := List.forall_mem_cons.mp h
      cases hbinding.symm.trans hfunction
  | _, _, _, _, .external hbinding hplain _ hs hresult hrest, h => by
      obtain ⟨⟨_, _, _, hfunction, hnative⟩, hothers⟩ := List.forall_mem_cons.mp h
      cases hbinding.symm.trans hfunction
      exact .external hbinding hplain hnative hs hresult (ScopedBindings.of_natives hrest hothers)

end

end Program

end Sable
