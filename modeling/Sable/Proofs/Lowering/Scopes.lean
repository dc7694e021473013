import Mathlib.Data.List.Forall2
import Sable.Proofs.Lowering.Types

/-! Lowering keeps scopes: the program that comes out of it is well-scoped, in the names and in the types
that the scopes of the builder had. -/
namespace Sable

namespace Lowering

open Program (TypeScoped)

/-! ## Drafts -/

/-- Everything in a draft is still there in a later one. -/
structure Grows (d d' : Draft) : Prop where
  nodes : ∀ (i : Nat) (n : Node), d.nodes[i]? = some n → d'.nodes[i]? = some n
  bindings : ∀ (i : Nat) (b : Binding), d.bindings[i]? = some b → d'.bindings[i]? = some b
  size : d.bindings.size ≤ d'.bindings.size
  next : d.nextVariable ≤ d'.nextVariable

/-- The program has all nodes of a draft and its bindings from the number `start` on. -/
structure Agrees (p : Program) (d : Draft) (start : Nat) : Prop where
  nodes : ∀ (i : Nat) (n : Node), d.nodes[i]? = some n → p.nodes[i]? = some n
  bindings : ∀ (i : Nat) (b : Binding), start ≤ i → d.bindings[i]? = some b → p.bindings[i]? = some b

theorem Grows.refl (d : Draft) : Grows d d :=
  ⟨fun _ _ h => h, fun _ _ h => h, Nat.le_refl _, Nat.le_refl _⟩

theorem Grows.trans {d₁ d₂ d₃ : Draft} (h : Grows d₁ d₂) (h' : Grows d₂ d₃) : Grows d₁ d₃ :=
  ⟨fun i n hn => h'.nodes i n (h.nodes i n hn), fun i b hb => h'.bindings i b (h.bindings i b hb),
    Nat.le_trans h.size h'.size, Nat.le_trans h.next h'.next⟩

theorem TypesOnly.grows {d d' : Draft} (h : TypesOnly d d') : Grows d d' := by
  refine ⟨fun i n hn => ?_, fun i b hb => ?_, ?_, h.next⟩
  · rwa [h.nodes]
  · rwa [h.bindings]
  · exact Nat.le_of_eq (congrArg Array.size h.bindings.symm)

theorem Agrees.earlier {p : Program} {d d' : Draft} {start start' : Nat} (h : Agrees p d' start)
    (hgrows : Grows d d') (hstart : start ≤ start') : Agrees p d start' :=
  ⟨fun i n hn => h.nodes i n (hgrows.nodes i n hn), fun i b hi hb =>
    h.bindings i b (Nat.le_trans hstart hi) (hgrows.bindings i b hb)⟩

theorem Agrees.node {p : Program} {d : Draft} {start : Nat} (h : Agrees p d start) {id : NodeId}
    {n : Node} (hn : d.nodes[id]? = some n) : p.node id = n := by
  simp [Program.node, Array.getD_eq_getD_getElem?, h.nodes id n hn]

theorem Agrees.binding {p : Program} {d : Draft} {start : Nat} (h : Agrees p d start)
    {id : BindingId} {b : Binding} (hid : start ≤ id) (hb : d.bindings[id]? = some b) :
    p.binding id = b := by
  simp [Program.binding, Array.getD_eq_getD_getElem?, h.bindings id b hid hb]

/-! ## Steps that add to a draft -/

theorem run_addNode_eq_ok {form : Form} {span : Span} {d : Draft} {r : NodeId × Draft} :
    (addNode form span).run d = .ok r ↔
      r = (d.nodes.size, { d with nodes := d.nodes.push ⟨form, span⟩ }) := by
  simp only [addNode, modifyGet, MonadStateOf.modifyGet, StateT.run, StateT.modifyGet, pure,
    Except.pure, Except.ok.injEq]
  exact eq_comm

theorem run_addBinding_eq_ok {b : Binding} {d : Draft} {r : BindingId × Draft} :
    (addBinding b).run d = .ok r ↔
      r = (d.bindings.size, { d with bindings := d.bindings.push b }) := by
  simp only [addBinding, modifyGet, MonadStateOf.modifyGet, StateT.run, StateT.modifyGet, pure,
    Except.pure, Except.ok.injEq]
  exact eq_comm

theorem run_setBinding_eq_ok {id : BindingId} {b : Binding} {d : Draft} {r : PUnit × Draft} :
    (setBinding id b).run d = .ok r ↔
      r = (⟨⟩, { d with bindings := d.bindings.setIfInBounds id b }) := by
  simp only [setBinding, modify, modifyGet, MonadStateOf.modifyGet, StateT.run, StateT.modifyGet,
    pure, Except.pure, Except.ok.injEq]
  exact eq_comm

theorem grows_addNode (d : Draft) (n : Node) : Grows d { d with nodes := d.nodes.push n } := by
  refine ⟨fun i m hm => ?_, fun _ _ h => h, Nat.le_refl _, Nat.le_refl _⟩
  obtain ⟨hi, rfl⟩ := Array.getElem?_eq_some_iff.mp hm
  simp [Array.getElem?_push, Nat.ne_of_lt hi]

theorem grows_addBinding (d : Draft) (b : Binding) :
    Grows d { d with bindings := d.bindings.push b } := by
  refine ⟨fun _ _ h => h, fun i m hm => ?_, by simp, Nat.le_refl _⟩
  obtain ⟨hi, rfl⟩ := Array.getElem?_eq_some_iff.mp hm
  simp [Array.getElem?_push, Nat.ne_of_lt hi]

/-! ## Types and parameters of functions -/

section

variable {plain : Prop} {vs : List TypeVariable} {scope : Scope}

theorem lowerType?_scoped {t : Option TypeExpr} {d d' : Draft} {type : Option Ty}
    (hcore : plain → TypeExpr.isCore? t = true) (hscope : ScopeSound plain vs d.nextVariable scope)
    (h : (lowerType? scope t).run d = .ok (type, d')) :
    TypesOnly d d' ∧ ∀ a ∈ type, TypeScoped plain vs a := by
  cases t with
  | none =>
      simp only [lowerType?, run_pure_eq_ok, Prod.mk.injEq] at h
      obtain ⟨rfl, rfl⟩ := h
      exact ⟨.refl _, by simp⟩
  | some t =>
      simp only [lowerType?, run_bind_eq_ok, run_pure_eq_ok, Prod.mk.injEq] at h
      obtain ⟨a, d₁, ht, rfl, rfl⟩ := h
      obtain ⟨hd, ha⟩ := lowerType_scoped t hcore hscope ht
      exact ⟨hd, by simpa using ha⟩

theorem lowerAlternatives_scoped {alternatives : List Alternative} {union : String}
    {done fields : Fields Ty} {d d' : Draft} (hcore : plain → alternatives.all Alternative.isCore = true)
    (hscope : ScopeSound plain vs d.nextVariable scope) (hclosed : Ty.ClosedFields vs done)
    (hevery : plain → Ty.everyField Ty.monomorphic done = true)
    (h : (lowerAlternatives scope union done alternatives).run d = .ok (fields, d')) :
    TypesOnly d d' ∧ Ty.ClosedFields vs fields ∧
      (plain → Ty.everyField Ty.monomorphic fields = true) := by
  induction alternatives generalizing done d with
  | nil =>
      simp only [lowerAlternatives, run_pure_eq_ok, Prod.mk.injEq] at h
      obtain ⟨rfl, rfl⟩ := h
      exact ⟨.refl _, hclosed, hevery⟩
  | cons a rest ih =>
      obtain ⟨tag, payload, span⟩ := a
      simp only [lowerAlternatives, run_bind_eq_ok, run_check_eq_ok] at h
      obtain ⟨type, d₁, ht, -, h⟩ := h
      have hparts : plain → payload.isCore = true ∧ rest.all Alternative.isCore = true :=
        fun hplain => by simpa [Alternative.isCore] using hcore hplain
      obtain ⟨hd₁, ht⟩ := lowerType_scoped payload (fun hplain => (hparts hplain).1) hscope ht
      obtain ⟨hd₂, hrest⟩ := ih (fun hplain => (hparts hplain).2) (hscope.later hd₁.next)
        (Ty.closedFields_insert hclosed ht.1)
        (fun hplain => Ty.everyField_insert (hevery hplain) (ht.2 hplain)) h
      exact ⟨hd₁.trans hd₂, hrest⟩

/-- The bindings of parameters that were added to the draft `d`. -/
def ParametersAdded (d d' : Draft) (ids : List BindingId) (ps : List (String × Ty)) : Prop :=
  List.Forall₂ (fun id q => d.bindings.size ≤ id ∧
    ∃ span, d'.bindings[id]? = some (.parameter q.1 span q.2)) ids ps

theorem addParameters_added {ps : List (String × Ty)} {spans : List Span}
    (hlength : ps.length = spans.length) {d d' : Draft} {ids : List BindingId}
    (h : (addParameters ps spans).run d = .ok (ids, d')) :
    Grows d d' ∧ ParametersAdded d d' ids ps := by
  induction ps generalizing spans d ids with
  | nil =>
      cases spans with
      | cons _ _ => simp at hlength
      | nil =>
          simp only [addParameters, run_pure_eq_ok, Prod.mk.injEq] at h
          obtain ⟨rfl, rfl⟩ := h
          exact ⟨.refl _, .nil⟩
  | cons q rest ih =>
      cases spans with
      | nil => simp at hlength
      | cons span spans =>
          simp only [addParameters, run_bind_eq_ok, run_addBinding_eq_ok, run_pure_eq_ok,
            Prod.mk.injEq] at h
          obtain ⟨id, d₁, ⟨rfl, rfl⟩, ids', d₂, hrest, rfl, rfl⟩ := h
          obtain ⟨hgrows, hadded⟩ := ih (Nat.succ.inj hlength) hrest
          refine ⟨(grows_addBinding d _).trans hgrows, .cons ⟨Nat.le_refl _, span, ?_⟩
            (hadded.imp fun id q hq => ⟨Nat.le_trans (grows_addBinding d _).size hq.1, hq.2⟩)⟩
          exact hgrows.bindings _ _ (by simp)

/-- The signature of a function, its parameters added to the draft. -/
structure ParametersSound (plain : Prop) (vs : List TypeVariable) (d d' : Draft)
    (arguments : Parameters) (ids : List BindingId) : Prop where
  grows : Grows d d'
  closed : ∀ q ∈ arguments.toList, TypeScoped plain vs q.2
  added : ParametersAdded d d' ids (Program.insideParameters arguments)
  fixed : plain → arguments.isVariadic = false

theorem lowerParameters_length {ps : ParameterList (Parameter TypeExpr)} {d d' : Draft}
    {arguments : Parameters} (h : (lowerParameters scope ps).run d = .ok (arguments, d')) :
    (Program.insideParameters arguments).length = ps.toList.length := by
  cases ps with
  | variadic q =>
      simp only [lowerParameters, run_bind_eq_ok, run_pure_eq_ok, Prod.mk.injEq] at h
      obtain ⟨_, _, _, rfl, rfl⟩ := h
      rfl
  | fixed ps =>
      simp only [lowerParameters, run_bind_eq_ok, run_pure_eq_ok, Prod.mk.injEq] at h
      obtain ⟨types, _, h, rfl, rfl⟩ := h
      simp only [Program.insideParameters, ParameterList.toList]
      induction ps generalizing types d with
      | nil =>
          simp only [lowerEachParameter, run_pure_eq_ok, Prod.mk.injEq] at h
          rw [h.1]
          rfl
      | cons q rest ih =>
          simp only [lowerEachParameter, run_bind_eq_ok, run_pure_eq_ok, Prod.mk.injEq] at h
          obtain ⟨_, _, _, types', _, hrest, rfl, rfl⟩ := h
          exact congrArg (· + 1) (ih _ hrest)

theorem lowerSignatureParameters_sound {ps : ParameterList (Parameter TypeExpr)} {d d' : Draft}
    {arguments : Parameters} {ids : List BindingId}
    (hcore : plain → TypeExpr.parametersAreCore ps = true)
    (hscope : ScopeSound plain vs d.nextVariable scope)
    (h : (lowerSignatureParameters scope ps).run d = .ok ((arguments, ids), d')) :
    ParametersSound plain vs d d' arguments ids := by
  simp only [lowerSignatureParameters, run_bind_eq_ok, run_pure_eq_ok, Prod.mk.injEq] at h
  obtain ⟨arguments', d₁, hps, ids', d₂, hadd, ⟨rfl, rfl⟩, rfl⟩ := h
  obtain ⟨hd, hclosed, hplain⟩ := lowerParameters_scoped ps hcore hscope hps
  have hlength : (Program.insideParameters arguments).length = (ps.toList.map (·.span)).length := by
    rw [List.length_map]
    exact lowerParameters_length hps
  obtain ⟨hgrows, hadded⟩ := addParameters_added hlength hadd
  refine ⟨hd.grows.trans hgrows, fun q hq => ⟨Ty.closedParameters_iff.mp hclosed q hq,
    fun h => ?_⟩, hadded.imp fun id q hq => ⟨?_, hq.2⟩, fun h => (hplain h).2⟩
  · have hevery := (hplain h).1
    cases arguments with
    | fixed qs => exact Ty.everyField_iff.mp hevery q hq
    | variadic q' =>
        obtain rfl := List.mem_singleton.mp hq
        exact hevery
  · rw [← hd.bindings]
    exact hq.1

end

end Lowering

end Sable
