import Sable.Proofs.Lowering.Reached

/-! The types that are written into a program.

They stand in its nodes and in its bindings, and a property of types that lowering keeps holds of all of them. -/
namespace Sable

/-! ## Types in a program -/

namespace Signature

def types (s : Signature) : List Ty := s.arguments.toList.map Prod.snd ++ s.result.toList

theorem forall_mem_types {s : Signature} {P : Ty → Prop} :
    (∀ a ∈ s.types, P a) ↔ (∀ q ∈ s.arguments.toList, P q.2) ∧ ∀ a ∈ s.result, P a := by
  simp only [types, List.forall_mem_append, List.forall_mem_map, Option.mem_toList]
  rfl

end Signature

namespace Form

/-- The types that stand in an expression, be it in the signature of a function. -/
def stored : Form → List Ty
  | lambda signature _ => signature.types
  | form => form.types

end Form

namespace Binding

/-- The types that stand in a binding. -/
def stored : Binding → List Ty
  | value _ _ type _ => type.toList
  | function _ _ signature _ => signature.types
  | parameter _ _ type => [type]
  | payload .. => []

end Binding

/-- A type stands in a node or in a binding. -/
inductive IsStored (nodes : Array Node) (bindings : Array Binding) (a : Ty) : Prop
  | node {n : Node} (hn : n ∈ nodes) (ha : a ∈ n.form.stored)
  | binding {b : Binding} (hb : b ∈ bindings) (ha : a ∈ b.stored)

/-- A type stands in the program. -/
def Program.Stores (p : Program) (a : Ty) : Prop := IsStored p.nodes p.bindings a

namespace Lowering

variable {P : Nat → Ty → Prop} {vs us : List TypeVariable} {scope inner : Scope} {d d₁ d₂ d₃ d' : Draft}

/-- Every type in the draft has the property. -/
def StoresOnly (P : Nat → Ty → Prop) (d : Draft) : Prop :=
  ∀ a, IsStored d.nodes d.bindings a → P d.nextVariable a

/-- A scope of types with the property. -/
structure Fits (P : Nat → Ty → Prop) (vs : List TypeVariable) (n : Nat) (scope : Scope) : Prop where
  sound : ScopeSound False vs n scope
  has : ScopeHas P n scope

/-- A step that makes types with the property only. -/
structure Keeps (P : Nat → Ty → Prop) (d d' : Draft) : Prop where
  next : d.nextVariable ≤ d'.nextVariable
  stores : StoresOnly P d → StoresOnly P d'

theorem Keeps.trans (h : Keeps P d d₁) (h' : Keeps P d₁ d₂) : Keeps P d d₂ :=
  ⟨Nat.le_trans h.next h'.next, fun hd => h'.stores (h.stores hd)⟩

/-! ## Steps -/

theorem Keeps.refl (P : Nat → Ty → Prop) (d : Draft) : Keeps P d d := ⟨Nat.le_refl _, id⟩

theorem keeps_addNode {n : Node} (h : ∀ a ∈ n.form.stored, P d.nextVariable a) :
    Keeps P d { d with nodes := d.nodes.push n } := by
  refine ⟨Nat.le_refl _, fun hd a ha => ?_⟩
  cases ha with
  | node hn ha =>
      rcases Array.mem_push.mp hn with hn | rfl
      · exact hd a (.node hn ha)
      · exact h a ha
  | binding hb ha => exact hd a (.binding hb ha)

theorem keeps_addBinding {b : Binding} (h : ∀ a ∈ b.stored, P d.nextVariable a) :
    Keeps P d { d with bindings := d.bindings.push b } := by
  refine ⟨Nat.le_refl _, fun hd a ha => ?_⟩
  cases ha with
  | node hn ha => exact hd a (.node hn ha)
  | binding hb ha =>
      rcases Array.mem_push.mp hb with hb | rfl
      · exact hd a (.binding hb ha)
      · exact h a ha

theorem keeps_setBinding {id : BindingId} {b : Binding} (h : ∀ a ∈ b.stored, P d.nextVariable a) :
    Keeps P d { d with bindings := d.bindings.setIfInBounds id b } := by
  refine ⟨Nat.le_refl _, fun hd a ha => ?_⟩
  cases ha with
  | node hn ha => exact hd a (.node hn ha)
  | binding hb ha =>
      rcases Array.mem_or_eq_of_mem_setIfInBounds hb with hb | rfl
      · exact hd a (.binding hb ha)
      · exact h a ha

section

variable (hP : Kept P)
include hP

theorem Kept.typesOnly (h : TypesOnly d d') : Keeps P d d' := by
  refine ⟨h.next, fun hd a ha => hP.later h.next (hd a ?_)⟩
  rwa [h.nodes, h.bindings] at ha

theorem Kept.fits_later {n m : Nat} (h : Fits P vs n scope) (hle : n ≤ m) : Fits P vs m scope :=
  ⟨h.sound.later hle, hP.scope_later hle h.has⟩

end

/-! ## Scopes that differ in values -/

theorem ScopeHas.of_type? {n : Nat} {other : Scope} (h : ScopeHas P n scope)
    (htypes : ∀ name, other.type? name = scope.type? name) : ScopeHas P n other :=
  fun name meaning hget => h name meaning ((htypes name).symm.trans hget)

theorem type?_narrowedScope (scope : Scope) (subject : Expr) (tag name : String) :
    (narrowedScope scope subject tag).type? name = scope.type? name := by
  unfold narrowedScope
  repeat' split
  all_goals rfl

theorem type?_nonNullScope (scope : Scope) (subject : Expr) (name : String) :
    (nonNullScope scope subject).type? name = scope.type? name := by
  unfold nonNullScope
  repeat' split
  all_goals rfl

namespace Fits

variable {n : Nat} (h : Fits P vs n scope)
include h

theorem withValue (name : String) (target : Target) : Fits P vs n (scope.withValue name target) :=
  ⟨h.sound.withValue name target, h.has.of_type? fun _ => rfl⟩

theorem withType (name : String) {meaning : TypeMeaning} (hsound : ScopeSound False vs n (scope.withType name meaning))
    (hmeaning : MeaningHas P n meaning) : Fits P vs n (scope.withType name meaning) :=
  ⟨hsound, h.has.withType name hmeaning⟩

theorem narrowed (subject : Expr) (tag : String) : Fits P vs n (narrowedScope scope subject tag) :=
  ⟨h.sound.narrowed subject tag, h.has.of_type? (type?_narrowedScope scope subject tag)⟩

theorem nonNull (subject : Expr) : Fits P vs n (nonNullScope scope subject) :=
  ⟨h.sound.nonNull subject, h.has.of_type? (type?_nonNullScope scope subject)⟩

theorem branches (condition : Expr) :
    Fits P vs n (branchScopes scope condition).1 ∧ Fits P vs n (branchScopes scope condition).2 := by
  unfold branchScopes
  split
  · exact ⟨h.narrowed _ _, h⟩
  · split
    · exact ⟨h, h.nonNull _⟩
    · exact ⟨h, h.nonNull _⟩
    · exact ⟨h, h⟩
  · exact ⟨h, h⟩

theorem bindAll (bindings : Array Binding) (ids : List BindingId) : Fits P vs n (bindAll bindings scope ids) :=
  ⟨h.sound.bindAll bindings ids, h.has.of_type? (type?_bindAll bindings scope ids)⟩

end Fits

/-! ## Signatures -/

section

variable (hP : Kept P)
include hP

theorem Kept.fits_generics {names : Generics} (h : Fits P vs d.nextVariable scope)
    (hrun : (Lowering.lowerGenerics scope names).run d = .ok ((us, inner), d')) :
    Keeps P d d' ∧ Fits P (us ++ vs) d'.nextVariable inner := by
  obtain ⟨hg, -⟩ := lowerGenerics_sound hrun h.sound
  exact ⟨hP.typesOnly hg.typesOnly, hg.sound, (hP.lowerGenerics h.has hrun).2⟩

theorem Kept.keeps_type {t : TypeExpr} {type : Ty} (h : Fits P vs d.nextVariable scope)
    (hrun : (Lowering.lowerType scope t).run d = .ok (type, d')) : Keeps P d d' ∧ P d'.nextVariable type :=
  ⟨hP.typesOnly (lowerType_scoped t False.elim h.sound hrun).1, (hP.lowerType h.has hrun).2⟩

theorem Kept.keeps_types {ts : List TypeExpr} {types : List Ty} (h : Fits P vs d.nextVariable scope)
    (hrun : (Lowering.lowerTypes scope ts).run d = .ok (types, d')) :
    Keeps P d d' ∧ ∀ type ∈ types, P d'.nextVariable type :=
  ⟨hP.typesOnly (lowerTypes_scoped ts False.elim h.sound hrun).1, (hP.lowerTypes h.has hrun).2⟩

theorem Kept.keeps_type? {t : Option TypeExpr} {type : Option Ty} (h : Fits P vs d.nextVariable scope)
    (hrun : (lowerType? scope t).run d = .ok (type, d')) : Keeps P d d' ∧ ∀ a ∈ type, P d'.nextVariable a := by
  cases t with
  | none =>
      cases run_pure_eq_ok.mp hrun
      exact ⟨Keeps.refl P _, nofun⟩
  | some t =>
      simp only [lowerType?, run_bind_eq_ok, run_pure_eq_ok, Prod.mk.injEq] at hrun
      obtain ⟨a, d₁, ht, rfl, rfl⟩ := hrun
      obtain ⟨hd, ha⟩ := hP.keeps_type h ht
      refine ⟨hd, fun b hb => ?_⟩
      obtain rfl := Option.some.inj hb
      exact ha

omit hP in
theorem keeps_addParameters {d d' : Draft} {ps : List (String × Ty)} {spans : List Span} {ids : List BindingId}
    (h : ∀ q ∈ ps, P d.nextVariable q.2) (hrun : (addParameters ps spans).run d = .ok (ids, d')) : Keeps P d d' := by
  induction ps generalizing spans d ids with
  | nil =>
      cases run_pure_eq_ok.mp hrun
      exact Keeps.refl P _
  | cons q rest ih =>
      cases spans with
      | nil =>
          cases run_pure_eq_ok.mp hrun
          exact Keeps.refl P _
      | cons span spans =>
          simp only [addParameters, run_bind_eq_ok, run_addBinding_eq_ok, run_pure_eq_ok, Prod.mk.injEq] at hrun
          obtain ⟨_, _, ⟨rfl, rfl⟩, ids', d₂, hrest, rfl, rfl⟩ := hrun
          obtain ⟨hq, hothers⟩ := List.forall_mem_cons.mp h
          have hadd : Keeps P d { d with bindings := d.bindings.push (.parameter q.1 span q.2) } :=
            keeps_addBinding (List.forall_mem_singleton.mpr hq)
          exact hadd.trans (ih hothers hrest)

theorem Kept.keeps_parameters {ps : ParameterList (Parameter TypeExpr)} {arguments : Parameters} {ids : List BindingId}
    (h : Fits P vs d.nextVariable scope)
    (hrun : (lowerSignatureParameters scope ps).run d = .ok ((arguments, ids), d')) :
    Keeps P d d' ∧ ∀ q ∈ arguments.toList, P d'.nextVariable q.2 := by
  simp only [lowerSignatureParameters, run_bind_eq_ok, run_pure_eq_ok, Prod.mk.injEq] at hrun
  obtain ⟨arguments', d₁, hps, ids', d₂, hadd, ⟨rfl, rfl⟩, rfl⟩ := hrun
  have hd₁ := hP.typesOnly (lowerParameters_scoped ps False.elim h.sound hps).1
  have harguments := (hP.lowerParameters h.has hps).2
  have hd₂ : Keeps P d₁ d' := by
    refine keeps_addParameters ?_ hadd
    cases arguments with
    | fixed qs => exact harguments
    | variadic q => exact List.forall_mem_singleton.mpr (hP.list (harguments q List.mem_cons_self))
  exact ⟨hd₁.trans hd₂, fun q hq => hP.later hd₂.next (harguments q hq)⟩

/-- What comes before the body of a function. -/
theorem Kept.keeps_signature {names : Generics} {ps : ParameterList (Parameter TypeExpr)} {arguments : Parameters}
    {ids : List BindingId} {written : Option TypeExpr} {result : Option Ty} (h : Fits P vs d.nextVariable scope)
    (hnames : (Lowering.lowerGenerics scope names).run d = .ok ((us, inner), d₁))
    (hps : (lowerSignatureParameters inner ps).run d₁ = .ok ((arguments, ids), d₂))
    (hresult : (lowerType? inner written).run d₂ = .ok (result, d₃)) :
    Keeps P d d₃ ∧ Fits P (us ++ vs) d₃.nextVariable inner ∧
      ∀ a ∈ (Signature.mk us arguments ids result).types, P d₃.nextVariable a := by
  obtain ⟨hd₁, hinner⟩ := hP.fits_generics h hnames
  obtain ⟨hd₂, harguments⟩ := hP.keeps_parameters hinner hps
  have hinner := hP.fits_later hinner hd₂.next
  obtain ⟨hd₃, hresult⟩ := hP.keeps_type? hinner hresult
  refine ⟨(hd₁.trans hd₂).trans hd₃, hP.fits_later hinner hd₃.next, Signature.forall_mem_types.mpr ⟨?_, hresult⟩⟩
  exact fun q hq => hP.later hd₃.next (harguments q hq)

/-! ## Expressions -/

set_option linter.unusedSectionVars false in
mutual

theorem Kept.lowerExpr : ∀ (e : Expr) {vs : List TypeVariable} {scope : Scope} {d d' : Draft} {id : NodeId}
    (_ : Fits P vs d.nextVariable scope), (Lowering.lowerExpr scope e).run d = .ok (id, d') → Keeps P d d'
  | .number .., _, _, _, _, _, _, h | .bigInteger .., _, _, _, _, _, _, h | .boolean .., _, _, _, _, _, _, h
  | .null _, _, _, _, _, _, _, h | .reference .., _, _, _, _, _, _, h => by
      simp only [Lowering.lowerExpr, run_addNode_eq_ok, Prod.mk.injEq] at h
      obtain ⟨rfl, rfl⟩ := h
      exact keeps_addNode nofun
  | .object _ fields, _, _, _, _, _, hscope, h => by
      simp only [Lowering.lowerExpr, run_bind_eq_ok, run_addNode_eq_ok, Prod.mk.injEq] at h
      obtain ⟨ids, d₁, hfields, rfl, rfl⟩ := h
      exact (Kept.lowerFields fields hscope hfields).trans (keeps_addNode nofun)
  | .binary _ op lhs rhs, _, _, _, _, _, hscope, h => by
      simp only [Lowering.lowerExpr, run_bind_eq_ok, run_addNode_eq_ok, Prod.mk.injEq] at h
      obtain ⟨l, d₁, hl, r, d₂, hr, rfl, rfl⟩ := h
      have hlhs := Kept.lowerExpr lhs hscope hl
      have hrhs := Kept.lowerExpr rhs (hP.fits_later hscope hlhs.next) hr
      refine (hlhs.trans hrhs).trans (keeps_addNode ?_)
      cases op <;> exact nofun
  | .unary _ op operand, _, _, _, _, _, hscope, h => by
      simp only [Lowering.lowerExpr, run_bind_eq_ok, run_addNode_eq_ok, Prod.mk.injEq] at h
      obtain ⟨v, d₁, hv, rfl, rfl⟩ := h
      refine (Kept.lowerExpr operand hscope hv).trans (keeps_addNode ?_)
      cases op <;> exact nofun
  | .conditional _ condition thenBranch elseBranch, _, _, _, _, _, hscope, h => by
      simp only [Lowering.lowerExpr, run_bind_eq_ok, run_addNode_eq_ok, Prod.mk.injEq] at h
      obtain ⟨c, d₁, hc, t, d₂, ht, e, d₃, he, rfl, rfl⟩ := h
      have hbranches := hscope.branches condition
      have hd₁ := Kept.lowerExpr condition hscope hc
      have hd₂ := hd₁.trans (Kept.lowerExpr thenBranch (hP.fits_later hbranches.1 hd₁.next) ht)
      have hd₃ := hd₂.trans (Kept.lowerExpr elseBranch (hP.fits_later hbranches.2 hd₂.next) he)
      exact hd₃.trans (keeps_addNode nofun)
  | .call _ callee types arguments, _, _, _, _, _, hscope, h => by
      simp only [Lowering.lowerExpr, run_bind_eq_ok, run_addNode_eq_ok, Prod.mk.injEq] at h
      obtain ⟨f, d₁, hf, written, d₂, htypes, ids, d₃, hids, rfl, rfl⟩ := h
      have hcallee := Kept.lowerExpr callee hscope hf
      obtain ⟨htypes, hwritten⟩ := hP.keeps_types (hP.fits_later hscope hcallee.next) htypes
      have hd₂ := hcallee.trans htypes
      have harguments := Kept.lowerExprs arguments (hP.fits_later hscope hd₂.next) hids
      exact (hd₂.trans harguments).trans (keeps_addNode fun a ha => hP.later harguments.next (hwritten a ha))
  | .lambda _ names ps result body, _, _, _, _, _, hscope, h => by
      simp only [Lowering.lowerExpr, run_bind_eq_ok, run_addNode_eq_ok, run_bindParameters_eq_ok, Prod.mk.injEq,
        Prod.exists] at h
      obtain ⟨us, inner, d₁, hgenerics, arguments, ids, d₂, hps, result', d₃, hresult, _, _, ⟨rfl, rfl⟩, value, d₄,
        hvalue, rfl, rfl⟩ := h
      obtain ⟨hbefore, hinner, hsignature⟩ := hP.keeps_signature hscope hgenerics hps hresult
      have hbody := Kept.lowerExpr body (hinner.bindAll _ ids) hvalue
      exact (hbefore.trans hbody).trans (keeps_addNode fun a ha => hP.later hbody.next (hsignature a ha))
  | .field _ value _, _, _, _, _, _, hscope, h | .tagged _ value _, _, _, _, _, _, hscope, h
  | .hasTag _ value _, _, _, _, _, _, hscope, h | .untag _ value, _, _, _, _, _, hscope, h => by
      simp only [Lowering.lowerExpr, run_bind_eq_ok, run_addNode_eq_ok, Prod.mk.injEq] at h
      obtain ⟨v, d₁, hv, rfl, rfl⟩ := h
      exact (Kept.lowerExpr value hscope hv).trans (keeps_addNode nofun)
  | .cases _ scrutinee arms, _, _, _, _, _, hscope, h => by
      simp only [Lowering.lowerExpr, run_bind_eq_ok, run_addNode_eq_ok, Prod.mk.injEq] at h
      obtain ⟨s, d₁, hs, arms', d₂, harms, rfl, rfl⟩ := h
      have hscrutinee := Kept.lowerExpr scrutinee hscope hs
      have harms := Kept.lowerArms arms (hP.fits_later hscope hscrutinee.next) harms
      exact (hscrutinee.trans harms).trans (keeps_addNode nofun)

theorem Kept.lowerExprs : ∀ (es : List Expr) {vs : List TypeVariable} {scope : Scope} {d d' : Draft}
    {ids : List NodeId} (_ : Fits P vs d.nextVariable scope),
    (Lowering.lowerExprs scope es).run d = .ok (ids, d') → Keeps P d d'
  | [], _, _, _, _, _, _, h => by
      cases run_pure_eq_ok.mp h
      exact Keeps.refl P _
  | e :: rest, _, _, _, _, _, hscope, h => by
      simp only [Lowering.lowerExprs, run_bind_eq_ok, run_pure_eq_ok, Prod.mk.injEq] at h
      obtain ⟨id, d₁, he, ids', d₂, hrest, rfl, rfl⟩ := h
      have hfirst := Kept.lowerExpr e hscope he
      exact hfirst.trans (Kept.lowerExprs rest (hP.fits_later hscope hfirst.next) hrest)

theorem Kept.lowerFields : ∀ (fields : List (FieldInit Expr)) {vs : List TypeVariable} {scope : Scope} {d d' : Draft}
    {ids : List (String × NodeId)} (_ : Fits P vs d.nextVariable scope),
    (Lowering.lowerFields scope fields).run d = .ok (ids, d') → Keeps P d d'
  | [], _, _, _, _, _, _, h => by
      cases run_pure_eq_ok.mp h
      exact Keeps.refl P _
  | ⟨_, value, _⟩ :: rest, _, _, _, _, _, hscope, h => by
      simp only [Lowering.lowerFields, run_bind_eq_ok, run_pure_eq_ok, Prod.mk.injEq] at h
      obtain ⟨id, d₁, he, ids', d₂, hrest, rfl, rfl⟩ := h
      have hfirst := Kept.lowerExpr value hscope he
      exact hfirst.trans (Kept.lowerFields rest (hP.fits_later hscope hfirst.next) hrest)

theorem Kept.lowerArms : ∀ (arms : List (MatchArm Expr)) {vs : List TypeVariable} {scope : Scope} {subject : Expr}
    {scrutinee : NodeId} {d d' : Draft} {lowered : List Arm} (_ : Fits P vs d.nextVariable scope),
    (Lowering.lowerArms scope subject scrutinee arms).run d = .ok (lowered, d') → Keeps P d d'
  | [], _, _, _, _, _, _, _, _, h => by
      cases run_pure_eq_ok.mp h
      exact Keeps.refl P _
  | ⟨tag, name, body, _⟩ :: rest, _, _, subject, scrutinee, d, _, _, hscope, h => by
      simp only [Lowering.lowerArms, run_bind_eq_ok, run_addBinding_eq_ok, run_pure_eq_ok, Prod.mk.injEq] at h
      obtain ⟨_, _, ⟨rfl, rfl⟩, value, d₁, hvalue, arms', d₂, hrest, rfl, rfl⟩ := h
      have hadd :
          Keeps P d { d with bindings := d.bindings.push (.payload name.value name.span scrutinee tag.value) } :=
        keeps_addBinding nofun
      have hinside := (hscope.narrowed subject tag.value).withValue name.value (.bound d.bindings.size)
      have hfirst := hadd.trans (Kept.lowerExpr body (hP.fits_later hinside hadd.next) hvalue)
      exact hfirst.trans (Kept.lowerArms rest (hP.fits_later hscope hfirst.next) hrest)

end

/-! ## Declarations and bodies -/

set_option linter.unusedSectionVars false in
mutual

theorem Kept.keeps_declaration : ∀ (declaration : Declaration) {vs : List TypeVariable} {scope scope' : Scope}
    {d d' : Draft} {id : Option BindingId} (_ : Fits P vs d.nextVariable scope),
    (Lowering.lowerDeclaration scope declaration).run d = .ok ((id, scope'), d') → Keeps P d d'
  | .value _ _ _ value, _, _, _, _, _, _, hscope, h => by
      simp only [Lowering.lowerDeclaration, run_bind_eq_ok, run_addBinding_eq_ok, run_pure_eq_ok, Prod.mk.injEq] at h
      obtain ⟨type', d₁, htype, node, d₂, hnode, _, _, ⟨rfl, rfl⟩, ⟨rfl, rfl⟩, rfl⟩ := h
      obtain ⟨hd₁, htype⟩ := hP.keeps_type? hscope htype
      have hd₂ := Kept.lowerExpr hP value (hP.fits_later hscope hd₁.next) hnode
      refine (hd₁.trans hd₂).trans (keeps_addBinding fun a ha => hP.later hd₂.next (htype a ?_))
      exact Option.mem_toList.mp ha
  | .function span name _ _ _ body, _, _, _, _, _, _, hscope, h => by
      simp only [Lowering.lowerDeclaration, run_bind_eq_ok, run_addBinding_eq_ok, run_setBinding_eq_ok,
        run_bindParameters_eq_ok, run_pure_eq_ok, Prod.mk.injEq, Prod.exists] at h
      obtain ⟨us, inner, d₁, hgenerics, arguments, ids, d₂, hps, result', d₃, hresult, _, _, ⟨rfl, rfl⟩, _, _,
        ⟨rfl, rfl⟩, body', d₅, hbody, _, _, ⟨-, rfl⟩, ⟨rfl, rfl⟩, rfl⟩ := h
      obtain ⟨hbefore, hinner, hsignature⟩ := hP.keeps_signature hscope hgenerics hps hresult
      have hadd : Keeps P d₃
          { d₃ with bindings := d₃.bindings.push (.function name.value span ⟨us, arguments, ids, result'⟩ none) } :=
        keeps_addBinding hsignature
      have hinside := (hinner.withValue name.value (.enclosing d₃.bindings.size)).bindAll
        (d₃.bindings.push (.function name.value span ⟨us, arguments, ids, result'⟩ none)) ids
      have hbody := Kept.keeps_body body (hP.fits_later hinside hadd.next) hbody
      have hentered := hadd.trans hbody
      exact (hbefore.trans hentered).trans
        (keeps_setBinding fun a ha => hP.later hentered.next (hsignature a ha))
  | .external _ _ _ _ result, _, _, _, _, _, _, hscope, h => by
      simp only [Lowering.lowerDeclaration, run_bind_eq_ok, run_addBinding_eq_ok, run_pure_eq_ok, Prod.mk.injEq,
        Prod.exists] at h
      obtain ⟨us, inner, d₁, hgenerics, arguments, ids, d₂, hps, result', d₃, hresult, _, _, ⟨rfl, rfl⟩, ⟨rfl, rfl⟩,
        rfl⟩ := h
      have hresult' : (lowerType? inner (some result)).run d₂ = .ok (some result', d₃) :=
        run_bind_eq_ok.mpr ⟨result', d₃, hresult, rfl⟩
      obtain ⟨hbefore, -, hsignature⟩ := hP.keeps_signature hscope hgenerics hps hresult'
      exact hbefore.trans (keeps_addBinding hsignature)
  | .alias _ _ _ target, _, _, _, _, _, _, hscope, h => by
      simp only [Lowering.lowerDeclaration, run_bind_eq_ok, run_pure_eq_ok, Prod.mk.injEq, Prod.exists] at h
      obtain ⟨us, inner, d₁, hgenerics, type, d₂, htype, ⟨rfl, rfl⟩, rfl⟩ := h
      obtain ⟨hd₁, hinner⟩ := hP.fits_generics hscope hgenerics
      exact hd₁.trans (hP.keeps_type hinner htype).1
  | .union _ _ _ _, _, _, _, _, _, _, hscope, h => by
      simp only [Lowering.lowerDeclaration, run_bind_eq_ok, run_pure_eq_ok, Prod.mk.injEq, Prod.exists] at h
      obtain ⟨us, inner, d₁, hgenerics, fields, d₂, hfields, ⟨rfl, rfl⟩, rfl⟩ := h
      obtain ⟨hd₁, hinner⟩ := hP.fits_generics hscope hgenerics
      have hd₂ := (lowerAlternatives_scoped False.elim hinner.sound (by exact trivial) False.elim hfields).1
      exact hd₁.trans (hP.typesOnly hd₂)

theorem Kept.keeps_declarations : ∀ (declarations : List Declaration) {vs : List TypeVariable} {scope scope' : Scope}
    {d d' : Draft} {ids : List BindingId} (_ : Fits P vs d.nextVariable scope),
    (Lowering.lowerDeclarations scope declarations).run d = .ok ((ids, scope'), d') →
      Keeps P d d' ∧ Fits P vs d'.nextVariable scope'
  | [], _, _, _, _, _, _, hscope, h => by
      cases run_pure_eq_ok.mp h
      exact ⟨Keeps.refl P _, hscope⟩
  | declaration :: rest, _, _, _, _, _, _, hscope, h => by
      simp only [Lowering.lowerDeclarations, run_bind_eq_ok, run_pure_eq_ok, Prod.mk.injEq, Prod.exists] at h
      obtain ⟨id, scope₁, d₁, hone, ids, scope₂, d₂, hrest, ⟨rfl, rfl⟩, rfl⟩ := h
      have hfirst := Kept.keeps_declaration declaration hscope hone
      have hscope₁ : Fits P _ d₁.nextVariable scope₁ :=
        ⟨(lowerDeclaration_scopes hscope.sound hone).2, hP.lowerDeclaration hscope.sound hscope.has hone⟩
      obtain ⟨hothers, hscope₂⟩ := Kept.keeps_declarations rest hscope₁ hrest
      exact ⟨hfirst.trans hothers, hscope₂⟩

theorem Kept.keeps_body : ∀ (body : Body) {vs : List TypeVariable} {scope : Scope} {d d' : Draft}
    {body' : FunctionBody} (_ : Fits P vs d.nextVariable scope),
    (Lowering.lowerBody scope body).run d = .ok (body', d') → Keeps P d d'
  | .mk declarations result _, _, _, _, _, _, hscope, h => by
      simp only [Lowering.lowerBody, run_bind_eq_ok, run_pure_eq_ok, Prod.mk.injEq, Prod.exists] at h
      obtain ⟨ids, scope₁, d₁, hids, node, d₂, hnode, rfl, rfl⟩ := h
      obtain ⟨hdeclared, hscope₁⟩ := Kept.keeps_declarations declarations hscope hids
      exact hdeclared.trans (Kept.lowerExpr hP result hscope₁ hnode)

end

end

end Lowering

/-- Every type in a program that is built has the properties that lowering keeps. -/
theorem Program.stores_of_ofTree {P : Nat → Ty → Prop} (hP : Lowering.Kept P) {tree : Tree} {p : Program}
    (h : ofTree tree = .ok p) : ∃ n, ∀ a, p.Stores a → P n a := by
  simp only [ofTree] at h
  cases hrun : (Lowering.lowerBody .root tree.body).run ⟨#[], #[], 0⟩ with
  | error e =>
      rw [hrun] at h
      cases h
  | ok r =>
      obtain ⟨body, d⟩ := r
      rw [hrun] at h
      cases h
      have hkeeps := hP.keeps_body tree.body ⟨Lowering.scopeSound_root, hP.root⟩ hrun
      refine ⟨d.nextVariable, hkeeps.stores fun a ha => ?_⟩
      cases ha with
      | node hn _ => exact absurd hn (Array.not_mem_empty _)
      | binding hb _ => exact absurd hb (Array.not_mem_empty _)

end Sable
