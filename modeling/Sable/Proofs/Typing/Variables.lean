import Sable.Proofs.Ty.Capture
import Sable.Proofs.Typing.WellFormed
import Sable.Proofs.Typing.Scopes

/-! Type variables and their binders.

A type variable that occurs free in the type of a part is a type parameter of a function around the part.
Annotations, aliases and result types that are left out keep to this in every program; a call does where
the types that it infers from do not have binders for inference to descend under. -/
namespace Sable

namespace Ty

theorem closed_widened {vs : List TypeVariable} {a : Ty} (h : a.Closed vs) : a.widened.Closed vs := by
  cases a <;> exact h

theorem bindsNothing_widened {a : Ty} (h : a.every bindsNothing = true) : a.widened.every bindsNothing = true := by
  cases a <;> exact h

/-- Where there are no binders, the parts of a type have no free variables but those of the type. -/
theorem hereditary_closed (ws : List TypeVariable) :
    Hereditary fun a => a.Closed ws ∧ a.every bindsNothing = true := by
  constructor
  · rintro a ⟨hclosed, hevery⟩
    exact ⟨closed_widened hclosed, bindsNothing_widened hevery⟩
  · rintro a ⟨hclosed, hevery⟩
    exact ⟨hclosed, by simpa [every, bindsNothing] using hevery⟩
  · rintro a ⟨hclosed, hevery⟩
    exact ⟨hclosed, by simpa [every, bindsNothing] using hevery⟩
  · rintro a ⟨hclosed, hevery⟩
    exact ⟨hclosed, by simpa [every, bindsNothing] using hevery⟩
  · rintro a tag ⟨hclosed, hevery⟩
    exact ⟨hclosed, by simpa [every, bindsNothing] using hevery⟩
  · rintro fields ⟨hclosed, hevery⟩ field hfield
    simp only [every, bindsNothing, Bool.true_and] at hevery
    exact ⟨closedFields_iff.mp hclosed field hfield, everyField_iff.mp hevery field hfield⟩
  · rintro fields tag ⟨hclosed, hevery⟩ field hfield
    simp only [every, bindsNothing, Bool.true_and] at hevery
    exact ⟨closedFields_iff.mp hclosed field hfield, everyField_iff.mp hevery field hfield⟩
  · rintro vs ps a ⟨⟨hclosed, -⟩, hevery⟩ q hq
    simp only [every, bindsNothing, Bool.and_eq_true, List.isEmpty_iff] at hevery
    obtain ⟨⟨rfl, hps⟩, -⟩ := hevery
    refine ⟨closedParameters_iff.mp hclosed q hq, ?_⟩
    cases ps with
    | fixed ps => exact everyField_iff.mp hps q hq
    | variadic own =>
        obtain rfl := List.mem_singleton.mp hq
        exact hps
  · rintro vs ps a ⟨⟨-, hclosed⟩, hevery⟩
    simp only [every, bindsNothing, Bool.and_eq_true, List.isEmpty_iff] at hevery
    obtain ⟨⟨rfl, -⟩, ha⟩ := hevery
    exact ⟨hclosed, ha⟩

end Ty

namespace Program

variable {p : Program} {τ : TypeTable} {plain : Prop} {native : String → Signature → Prop}
  {vs : List TypeVariable} {names names' : Names}

/-- No call infers anything from a type with a binder in it. -/
def InfersFromBinderless (p : Program) (τ : TypeTable) : Prop :=
  ∀ {vs : List TypeVariable} {parameters : Parameters} {types : List Ty},
    p.InfersFrom τ vs parameters types → ∀ type ∈ types, type.every Ty.bindsNothing = true

theorem InfersFromBinderless.contained (h : p.InfersFromBinderless τ) : p.InfersContained τ := by
  intro vs parameters types s hcall hinfer ws hclosed v a hget
  have hmaps := Substitution.maps_of_infer (Ty.hereditary_closed ws)
    (fun type htype => ⟨hclosed type htype, h hcall type htype⟩) hinfer
  exact (hmaps.get? hget).2.1

/-! ## Binders around a part -/

/-- The variable is a type parameter of a part around this one. -/
def BoundAround (p : Program) (v : TypeVariable) (part : Part) : Prop :=
  ∃ outer, Relation.TransGen (fun outer inner => inner ∈ p.parts outer) outer part ∧
    v ∈ p.typeParameters outer

theorem BoundAround.inner {v : TypeVariable} {part inner : Part} (h : p.BoundAround v part)
    (hinner : inner ∈ p.parts part) : p.BoundAround v inner := by
  obtain ⟨outer, hpath, hv⟩ := h
  exact ⟨outer, hpath.tail hinner, hv⟩

theorem boundAround_append {us : List TypeVariable} {part inner : Part} (hown : p.typeParameters part = us)
    (h : ∀ v ∈ vs, p.BoundAround v part) (hinner : inner ∈ p.parts part) :
    ∀ v ∈ us ++ vs, p.BoundAround v inner := by
  intro v hv
  rcases List.mem_append.mp hv with hv | hv
  · exact ⟨part, .single hinner, hown ▸ hv⟩
  · exact (h v hv).inner hinner

theorem forall_functionParts {V : Part → Prop} {s : Signature} {body : FunctionBody} :
    (∀ part ∈ functionParts s (some body), V part) ↔
      (∀ id ∈ s.parameters, V (.binding id)) ∧ ∀ part ∈ bodyParts body, V part := by
  simp only [functionParts, Option.toList_some, List.flatMap_cons, List.flatMap_nil, List.append_nil,
    List.forall_mem_append, List.forall_mem_map]

/-- The type of a node or of a binding. -/
def partType (p : Program) (τ : TypeTable) : Part → Except TypeError Ty
  | .node id => τ id
  | .binding id => bindingType p τ id

/-- Only type parameters of parts around this one are free in its type. -/
def Confined (p : Program) (τ : TypeTable) (part : Part) : Prop :=
  ∀ type, p.partType τ part = .ok type → ∃ vs, (∀ v ∈ vs, p.BoundAround v part) ∧ type.Closed vs

/-- A part that is confined with all that is inside it. -/
abbrev ConfinedThroughout (p : Program) (τ : TypeTable) (part : Part) : Prop :=
  ∀ inner, p.Inside part inner → p.Confined τ inner

theorem confinedThroughout_of {part : Part} (hbound : ∀ v ∈ vs, p.BoundAround v part)
    (htype : ∀ type, p.partType τ part = .ok type → TypeScoped plain vs type)
    (hparts : ∀ inner ∈ p.parts part, p.ConfinedThroughout τ inner) : p.ConfinedThroughout τ part :=
  p.forall_inside_iff.mpr ⟨fun type h => ⟨vs, hbound, (htype type h).1⟩, hparts⟩

theorem confined_parameter {id : BindingId} {name : String} {span : Span} {own : Ty}
    (hbinding : p.binding id = .parameter name span own) (hbound : ∀ v ∈ vs, p.BoundAround v (.binding id))
    (hown : TypeScoped plain vs own) : p.ConfinedThroughout τ (.binding id) := by
  have htype : ∀ type, p.partType τ (.binding id) = .ok type → TypeScoped plain vs type := by
    intro type htype
    simp only [partType, bindingType, hbinding, pure_eq_ok] at htype
    exact htype ▸ hown
  exact confinedThroughout_of hbound htype (by simp [parts, hbinding])

theorem confined_parameters {s : Signature} (hs : p.SignatureScoped plain vs s)
    (hbound : ∀ id ∈ s.parameters, ∀ v ∈ s.typeVariables ++ vs, p.BoundAround v (.binding id)) :
    ∀ id ∈ s.parameters, p.ConfinedThroughout τ (.binding id) := by
  have hinside := insideParameters_scoped hs.arguments
  intro id hid
  obtain ⟨i, hi, rfl⟩ := List.getElem_of_mem hid
  obtain ⟨span, hbinding⟩ := (List.forall₂_iff_get.mp hs.parameters).2 i hi (hs.parameters.length_eq ▸ hi)
  exact confined_parameter hbinding (hbound _ hid) (hinside _ (List.get_mem _ _))

section

variable (hobeys : p.Obeys τ) (hcontained : ¬ plain → p.InfersContained τ)
include hobeys hcontained

set_option linter.unusedSectionVars false in
mutual

theorem Scoped.confined : ∀ {vs : List TypeVariable} {names : Names} {id : NodeId},
    p.Scoped plain native vs names id → p.NamesScoped τ plain vs names →
      (∀ v ∈ vs, p.BoundAround v (.node id)) → p.ConfinedThroughout τ (.node id)
  | vs, names, id, .simple hform hwritten hchildren, hnames, hbound => by
      have htype := Scoped.typed hobeys hcontained (.simple hform hwritten hchildren) hnames
      have hparts : p.parts (.node id) = (children (p.node id).form).map .node := by
        cases hown : (p.node id).form <;> rw [hown] at hform <;> simp only [parts, hown] <;> exact hform.elim
      refine confinedThroughout_of hbound htype fun inner hinner => ?_
      have hinner' := hinner
      rw [hparts] at hinner'
      obtain ⟨c, hc, rfl⟩ := List.mem_map.mp hinner'
      exact Scoped.confined (hchildren c hc) hnames fun v hv => (hbound v hv).inner hinner
  | vs, names, id, .reference hform, hnames, hbound => by
      have hscoped : p.Scoped plain native vs names id := .reference hform
      have htype := Scoped.typed hobeys hcontained hscoped hnames
      exact confinedThroughout_of hbound htype (by simp [parts, hform, children])
  | vs, names, id, .conditional (c := c) (t := t) (e := e) hform hc ht he, hnames, hbound => by
      have htype := Scoped.typed hobeys hcontained (.conditional hform hc ht he) hnames
      have hparts : p.parts (.node id) = [.node c, .node t, .node e] := by simp [parts, hform, children]
      have hinner : ∀ inner ∈ p.parts (.node id), ∀ v ∈ vs, p.BoundAround v inner :=
        fun inner hinner v hv => (hbound v hv).inner hinner
      rw [hparts] at hinner
      refine confinedThroughout_of hbound htype ?_
      rw [hparts]
      simp only [List.forall_mem_cons] at hinner ⊢
      exact ⟨Scoped.confined hc hnames hinner.1, Scoped.confined ht (hnames.branches _).1 hinner.2.1,
        Scoped.confined he (hnames.branches _).2 hinner.2.2.1, by simp⟩
  | vs, names, id, @Scoped.lambda _ _ _ _ _ _ s body hform hs hbody, hnames, hbound => by
      have htype := Scoped.typed hobeys hcontained (.lambda hform hs hbody) hnames
      have hparts : p.parts (.node id) = functionParts s (some body) := by simp [parts, hform]
      have hown : p.typeParameters (.node id) = s.typeVariables := by simp [typeParameters, hform]
      have hinner := forall_functionParts.mp fun inner hinner =>
        boundAround_append hown hbound (hparts ▸ hinner)
      refine confinedThroughout_of hbound htype ?_
      rw [hparts]
      exact forall_functionParts.mpr
        ⟨confined_parameters hs hinner.1, fun part hpart =>
          (ScopedBody.confined hbody (hnames.inside hs) hinner.2 part hpart).2⟩
  | vs, names, id, @Scoped.cases _ _ _ _ _ _ scrutinee arms hform hscrutinee hpayload harms, hnames,
      hbound => by
      have htype := Scoped.typed hobeys hcontained (.cases hform hscrutinee hpayload harms) hnames
      have hparts : p.parts (.node id) = .node scrutinee :: arms.flatMap armParts := by simp [parts, hform]
      have hinner : ∀ inner ∈ p.parts (.node id), ∀ v ∈ vs, p.BoundAround v inner :=
        fun inner hinner v hv => (hbound v hv).inner hinner
      rw [hparts] at hinner
      obtain ⟨hbound', harms'⟩ := List.forall_mem_cons.mp hinner
      refine confinedThroughout_of hbound htype ?_
      rw [hparts]
      refine List.forall_mem_cons.mpr ⟨Scoped.confined hscrutinee hnames hbound', fun inner hmem => ?_⟩
      obtain ⟨arm, harm, hmem⟩ := List.mem_flatMap.mp hmem
      have hboundArm : ∀ inner ∈ armParts arm, ∀ v ∈ vs, p.BoundAround v inner := fun inner hinner =>
        harms' inner (List.mem_flatMap.mpr ⟨arm, harm, hinner⟩)
      simp only [armParts, List.forall_mem_cons] at hboundArm
      obtain ⟨name, span, hbinding⟩ := hpayload arm harm
      have hpayloadType := fun payload (htype : bindingType p τ arm.binding = .ok payload) =>
        payload_scoped hbinding (Scoped.typed hobeys hcontained hscrutinee hnames) htype
      simp only [armParts, List.mem_cons, List.not_mem_nil, or_false] at hmem
      rcases hmem with rfl | rfl
      · exact confinedThroughout_of hboundArm.1 hpayloadType (by simp [parts, hbinding])
      · exact Scoped.confined (harms arm harm) ((hnames.narrowed _ _).bound hpayloadType) hboundArm.2.1

theorem ScopedBody.confined : ∀ {vs : List TypeVariable} {names : Names} {body : FunctionBody},
    p.ScopedBody plain native vs names body → p.NamesScoped τ plain vs names →
      (∀ part ∈ bodyParts body, ∀ v ∈ vs, p.BoundAround v part) →
        ∀ part ∈ bodyParts body, (∀ type, p.partType τ part = .ok type → TypeScoped plain vs type) ∧
          p.ConfinedThroughout τ part
  | vs, names, body, .mk hbindings hresult, hnames, hbound => by
      simp only [bodyParts, List.forall_mem_append, List.forall_mem_map, List.forall_mem_singleton]
        at hbound ⊢
      have hnames' := ScopedBindings.typed hobeys hcontained hbindings hnames
      exact ⟨ScopedBindings.confined hbindings hnames hbound.1,
        Scoped.typed hobeys hcontained hresult hnames', Scoped.confined hresult hnames' hbound.2⟩

theorem ScopedBindings.confined : ∀ {vs : List TypeVariable} {names names' : Names}
    {ids : List BindingId}, p.ScopedBindings plain native vs names ids names' →
      p.NamesScoped τ plain vs names → (∀ id ∈ ids, ∀ v ∈ vs, p.BoundAround v (.binding id)) →
        ∀ id ∈ ids, (∀ type, bindingType p τ id = .ok type → TypeScoped plain vs type) ∧
          p.ConfinedThroughout τ (.binding id)
  | _, _, _, _, .nil, _, _ => by simp
  | vs, names, _, _, @ScopedBindings.value _ _ _ _ _ _ id _ _ _ _ node hbinding htype hnode hrest, hnames,
      hbound => by
      obtain ⟨hfirst, hothers⟩ := List.forall_mem_cons.mp hbound
      have hparts : p.parts (.binding id) = [.node node] := by simp [parts, hbinding]
      have hown := fun type (h : bindingType p τ id = .ok type) =>
        value_scoped hbinding htype (Scoped.typed hobeys hcontained hnode hnames) h
      refine List.forall_mem_cons.mpr ⟨⟨hown, confinedThroughout_of hfirst hown ?_⟩,
        ScopedBindings.confined hrest (hnames.bound hown) hothers⟩
      rw [hparts, List.forall_mem_singleton]
      exact Scoped.confined hnode hnames fun v hv => (hfirst v hv).inner (hparts ▸ List.mem_singleton_self _)
  | vs, names, _, _, @ScopedBindings.function _ _ _ _ _ _ id _ _ _ s body hbinding hs hbody hrest, hnames,
      hbound => by
      obtain ⟨hfirst, hothers⟩ := List.forall_mem_cons.mp hbound
      have hinside := (hnames.enclosing hbinding hs).inside hs
      have hparts : p.parts (.binding id) = functionParts s (some body) := by simp [parts, hbinding]
      have htypeParameters : p.typeParameters (.binding id) = s.typeVariables := by
        simp [typeParameters, hbinding]
      have hinner := forall_functionParts.mp fun inner hinner =>
        boundAround_append htypeParameters hfirst (hparts ▸ hinner)
      have hown : ∀ type, bindingType p τ id = .ok type → TypeScoped plain vs type := by
        intro type h
        simp only [bindingType, hbinding] at h
        refine signatureType_scoped hs h fun b hb result hresult => ?_
        obtain rfl := Option.some.inj hb
        exact ScopedBody.typed hobeys hcontained hbody hinside result hresult
      refine List.forall_mem_cons.mpr ⟨⟨hown, confinedThroughout_of hfirst hown ?_⟩,
        ScopedBindings.confined hrest (hnames.bound hown) hothers⟩
      rw [hparts]
      exact forall_functionParts.mpr
        ⟨confined_parameters hs hinner.1, fun part hpart =>
          (ScopedBody.confined hbody hinside hinner.2 part hpart).2⟩
  | vs, names, _, _, @ScopedBindings.external _ _ _ _ _ _ id _ _ _ s _ hbinding _ _ hs _ hrest, hnames,
      hbound => by
      obtain ⟨hfirst, hothers⟩ := List.forall_mem_cons.mp hbound
      have hparts : p.parts (.binding id) = s.parameters.map .binding := by
        simp [parts, hbinding, functionParts]
      have htypeParameters : p.typeParameters (.binding id) = s.typeVariables := by
        simp [typeParameters, hbinding]
      have hinner : ∀ inner ∈ s.parameters.map Part.binding, ∀ v ∈ s.typeVariables ++ vs,
          p.BoundAround v inner :=
        fun inner hinner => boundAround_append htypeParameters hfirst (hparts ▸ hinner)
      have hown : ∀ type, bindingType p τ id = .ok type → TypeScoped plain vs type := by
        intro type h
        simp only [bindingType, hbinding] at h
        exact signatureType_scoped hs h nofun
      refine List.forall_mem_cons.mpr ⟨⟨hown, confinedThroughout_of hfirst hown ?_⟩,
        ScopedBindings.confined hrest (hnames.bound hown) hothers⟩
      rw [hparts]
      rw [List.forall_mem_map] at hinner ⊢
      exact confined_parameters hs hinner

end

end

/-! ## Programs that pass their checks -/

/-- The type of a part, as it is determined when it is asked for. -/
def typeOfPart (p : Program) : Part → Typing Ty
  | .node id => p.typeOf id
  | .binding id => p.typeOfBinding id

theorem run_typeOfPart (h : p.LaidOut) {memo : Memo} (hmemo : p.Reached memo) (part : Part) :
    ((p.typeOfPart part).run memo).1 = p.partType p.plainType part := by
  obtain ⟨hidle, hknows⟩ := hmemo.knows h
  cases part with
  | node id => exact (recalls_typeOf h id memo hidle hknows).1
  | binding id => exact (recalls_typeOfBinding h id memo hidle hknows).1

/-- A part of the program as it is laid out. -/
def IsPart (p : Program) : Part → Prop
  | .node id => id < p.nodes.size
  | .binding id => id < p.bindings.size

theorem LaidOut.inside (h : p.LaidOut) {part : Part} (hpart : p.IsPart part) :
    ∃ outer ∈ bodyParts p.body, p.Inside outer part := by
  cases part with
  | node id => exact h.node_inside id hpart
  | binding id => exact h.binding_inside id hpart

theorem LaidOut.isPart_of_mem_body (h : p.LaidOut) {part : Part} (hpart : part ∈ bodyParts p.body) :
    p.IsPart part := by
  simp only [bodyParts, List.mem_append, List.mem_map, List.mem_singleton] at hpart
  rcases hpart with ⟨id, hid, rfl⟩ | rfl
  · exact (h.bindings id hid).1
  · exact h.result

theorem LaidOut.exists_partType (h : p.LaidOut)
    (htyped : ∀ id < p.nodes.size, ∃ type, p.plainType id = .ok type) {part : Part}
    (hpart : p.IsPart part) : ∃ type, p.partType p.plainType part = .ok type := by
  cases part with
  | node id => exact htyped id hpart
  | binding id => exact h.exists_typeOfBinding htyped hpart

/-- In a program that passes its checks, a type variable that occurs free in the type of an expression or of
a declaration is a type parameter of a function around it, and the types of the result and of the
declarations at the top have none. So it is where no call infers type arguments from a type with a binder in
it: inference descends under binders, and may come back with a variable of theirs. -/
theorem confined_of_check {source : String} {p : Program} (h : check source = .ok p)
    (hinfer : p.InfersFromBinderless p.plainType) {memo : Memo} (hmemo : p.Reached memo) :
    (∀ part, p.IsPart part → ∃ type, ((p.typeOfPart part).run memo).1 = .ok type ∧
      ∃ vs, (∀ v ∈ vs, p.BoundAround v part) ∧ type.Closed vs) ∧
    ∀ part ∈ bodyParts p.body, ∃ type, ((p.typeOfPart part).run memo).1 = .ok type ∧ type.Closed [] := by
  obtain ⟨hsource, hvalidate⟩ := check_eq_ok_iff.mp h
  have hlaid := laidOut_of_ofSource hsource
  obtain ⟨result, hrecalls, hiff, -⟩ := decides_validate hlaid
  have hresult := (hrecalls p.blank rfl (knows_blank p)).1
  obtain ⟨hparts, -⟩ := hlaid.validThroughout_iff.mp (hiff.mp (hresult.symm.trans hvalidate))
  have hobeys : p.Obeys p.plainType := fun id type htype => plainType_eq hlaid id ▸ htype
  have hscoped : p.ScopedBody False anyFunction [] [] p.body :=
    scopedBody_of_ofTree False.elim (fun _ _ _ => trivial) (ofTree_of_ofSource hsource)
  have hconfined := ScopedBody.confined hobeys (fun _ => hinfer.contained) hscoped namesScoped_nil (by simp)
  have htyped : ∀ part, p.IsPart part → ∃ type, ((p.typeOfPart part).run memo).1 = .ok type ∧
      p.partType p.plainType part = .ok type := by
    intro part hpart
    obtain ⟨type, htype⟩ := hlaid.exists_partType (fun id hid => (hparts id hid).1) hpart
    exact ⟨type, (run_typeOfPart hlaid hmemo part).trans htype, htype⟩
  constructor
  · intro part hpart
    obtain ⟨type, hrun, htype⟩ := htyped part hpart
    obtain ⟨outer, houter, hinside⟩ := hlaid.inside hpart
    exact ⟨type, hrun, (hconfined outer houter).2 part hinside type htype⟩
  · intro part hpart
    obtain ⟨type, hrun, htype⟩ := htyped part (hlaid.isPart_of_mem_body hpart)
    exact ⟨type, hrun, ((hconfined part hpart).1 type htype).1⟩

/-- No call gets an argument whose type has a binder in it, unless its type arguments are written down or
its callee has no type parameters. -/
def infersFromBinderless (p : Program) (τ : TypeTable) : Bool :=
  (List.range p.nodes.size).all fun id =>
    match (p.node id).form with
    | .call callee [] arguments =>
      match τ callee with
      | .ok (.function (_ :: _) _ _) => arguments.all fun argument =>
        match τ argument with
        | .ok type => type.every Ty.bindsNothing
        | .error _ => true
      | _ => true
    | _ => true

theorem infersFromBinderless_sound (h : p.infersFromBinderless τ = true) : p.InfersFromBinderless τ := by
  intro vs parameters types hcall type htype
  obtain ⟨hform, hcallee, hvs, htypes⟩ := hcall
  rename_i id callee arguments result
  have hid : id < p.nodes.size := by
    refine Nat.lt_of_not_le fun hid => ?_
    simp [node_of_size_le hid] at hform
  obtain ⟨v, vs, rfl⟩ := List.exists_cons_of_ne_nil hvs
  have hcall := List.all_eq_true.mp h id (List.mem_range.mpr hid)
  simp only [hform, hcallee] at hcall
  obtain ⟨i, hi, rfl⟩ := List.getElem_of_mem htype
  have hi' : i < arguments.length := htypes.length_eq ▸ hi
  have hargument := List.all_eq_true.mp hcall arguments[i] (List.getElem_mem hi')
  have hi'' : τ arguments[i] = .ok types[i] := (List.forall₂_iff_get.mp htypes).2 i hi' hi
  rwa [hi''] at hargument

/-- A generic function that is called for a type parameter, and another that is called for a number. -/
def pairSource : String :=
  "def identity[T](x: T): T = x\n" ++
  "def pair[A](x: A) = fn(y: A) => identity(x)\n" ++
  "return pair(1)"

theorem confined_of_check_pair : ∃ p, check pairSource = .ok p ∧ p.InfersFromBinderless p.plainType ∧
    p.Reached p.blank ∧
    (∀ part, p.IsPart part → ∃ type, ((p.typeOfPart part).run p.blank).1 = .ok type ∧
      ∃ vs, (∀ v ∈ vs, p.BoundAround v part) ∧ type.Closed vs) ∧
    ∀ part ∈ bodyParts p.body, ∃ type, ((p.typeOfPart part).run p.blank).1 = .ok type ∧ type.Closed [] := by
  have hrun : ((check pairSource).toOption.any fun p => p.infersFromBinderless p.plainType) = true := by decide +kernel
  cases hcheck : check pairSource with
  | error e =>
      rw [hcheck] at hrun
      cases hrun
  | ok p =>
      rw [hcheck] at hrun
      have hinfer : p.InfersFromBinderless p.plainType := infersFromBinderless_sound hrun
      exact ⟨p, rfl, hinfer, .blank, confined_of_check hcheck hinfer .blank⟩

/-- A generic function is handed to one that has another generic function as its parameter. -/
def leakSource : String :=
  "def apply[R](f: [A](x: A) -> R): R = f(1)\n" ++
  "def same[B](x: B): B = x\n" ++
  "return apply(same)"

/-- The type parameter of the function that is handed over is all there is to the type of the result. -/
theorem check_leaks : ∃ p type, check leakSource = .ok p ∧ (p.resultType.run p.blank).1 = .ok type ∧
    ¬ type.Closed [] := by
  have hrun : ((check leakSource).toOption.any fun p =>
      (p.resultType.run p.blank).1.toOption.any (·.same (.var ⟨"B", 2⟩))) = true := by decide +kernel
  cases hcheck : check leakSource with
  | error e =>
      rw [hcheck] at hrun
      cases hrun
  | ok p =>
      rw [hcheck] at hrun
      cases htype : (p.resultType.run p.blank).1 with
      | error e => simp [Except.toOption, htype] at hrun
      | ok type =>
          have hsame : type.same (.var ⟨"B", 2⟩) = true := by simpa [Except.toOption, htype] using hrun
          refine ⟨p, type, rfl, htype, ?_⟩
          cases type with
          | var v => exact List.not_mem_nil
          | _ => cases hsame

end Program

end Sable
