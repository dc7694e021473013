import Sable.Proofs.Program.Scoped
import Sable.Proofs.Ty.Capture
import Sable.Proofs.Ty.Inferred
import Sable.Proofs.Typing.Rules

/-! Types that are determined keep to the scopes that they are determined in: they only mention type
variables in scope there, and are monomorphic in a plain program. -/
namespace Sable.Program

variable {p : Program} {τ : TypeTable} {plain : Prop} {native : String → Signature → Prop}
  {vs ws : List TypeVariable} {names names' : Names}

/-! ## Calls of a program -/

/-- A call in a program: the type of what is called, the types of the arguments, and what is put in the
place of the type variables. -/
inductive CallOf [EntryOrder] (p : Program) (τ : TypeTable) (vs : List TypeVariable) (parameters : Parameters)
    (result : Ty) (types : List Ty) (s : Substitution) : Prop
  | mk {id callee : NodeId} {written : List Ty} {arguments : List NodeId}
      (hform : (p.node id).form = .call callee written arguments)
      (hcallee : τ callee = .ok (.function vs parameters result))
      (htypes : List.Forall₂ (fun id type => τ id = .ok type) arguments types)
      (hinstance : Instantiates vs parameters written types s)

/-- A call in a program for which types are inferred from the types of its arguments. -/
inductive InfersFrom (p : Program) (τ : TypeTable) (vs : List TypeVariable) (parameters : Parameters)
    (types : List Ty) : Prop
  | mk {id callee : NodeId} {arguments : List NodeId} {result : Ty}
      (hform : (p.node id).form = .call callee [] arguments)
      (hcallee : τ callee = .ok (.function vs parameters result)) (hvs : vs ≠ [])
      (htypes : List.Forall₂ (fun id type => τ id = .ok type) arguments types)

/-- What is inferred in calls only mentions variables that are free in the types of the arguments. -/
def InfersContained (p : Program) (τ : TypeTable) : Prop :=
  ∀ {vs : List TypeVariable} {parameters : Parameters} {types : List Ty} {s : Substitution},
    p.InfersFrom τ vs parameters types → Substitution.infer vs parameters types = .ok s →
      ∀ {ws : List TypeVariable}, (∀ type ∈ types, type.Closed ws) →
        ∀ v a, s.get? v = some a → a.Closed ws

/-! ## Types in a scope -/

theorem typeScoped_leaf (plain : Prop) (vs : List TypeVariable) {a : Ty} (hclosed : a.Closed [])
    (hevery : a.every Ty.monomorphic = true) : TypeScoped plain vs a :=
  ⟨hclosed.mono (List.nil_subset vs), fun _ => hevery⟩

theorem TypeScoped.widened {a : Ty} (h : TypeScoped plain vs a) : TypeScoped plain vs a.widened := by
  cases a <;> exact h

theorem typeScoped_nullable_iff {a : Ty} :
    TypeScoped plain vs (.nullable a) ↔ TypeScoped plain vs a := by
  simp [TypeScoped, Ty.Closed, Ty.every, Ty.monomorphic]

theorem typeScoped_withoutNull_iff {a : Ty} :
    TypeScoped plain vs a.withoutNull ↔ TypeScoped plain vs a := by
  cases a with
  | nullable a => exact typeScoped_nullable_iff.symm
  | _ => exact Iff.rfl

theorem typeScoped_narrow_iff {a : Ty} {tag : String} :
    TypeScoped plain vs ((a.narrow? tag).getD a) ↔ TypeScoped plain vs a := by
  cases a with
  | union alternatives narrowed =>
      simp only [Ty.narrow?]
      split <;> exact Iff.rfl
  | _ => exact Iff.rfl

/-- Types by name, each in scope. -/
def FieldsScoped (plain : Prop) (vs : List TypeVariable) (fields : Fields Ty) : Prop :=
  Ty.ClosedFields vs fields ∧ (plain → Ty.everyField Ty.monomorphic fields = true)

theorem FieldsScoped.get? {fields : Fields Ty} (h : FieldsScoped plain vs fields) {name : String}
    {a : Ty} (hget : Fields.get? name fields = some a) : TypeScoped plain vs a :=
  ⟨Ty.closed_of_field h.1 hget, fun hplain => Ty.every_of_field (h.2 hplain) hget⟩

theorem FieldsScoped.insert {fields : Fields Ty} (h : FieldsScoped plain vs fields) {name : String}
    {a : Ty} (ha : TypeScoped plain vs a) : FieldsScoped plain vs (Fields.insert name a fields) :=
  ⟨Ty.closedFields_insert h.1 ha.1, fun hplain => Ty.everyField_insert (h.2 hplain) (ha.2 hplain)⟩

theorem TypeScoped.fields {a : Ty} {fields : Fields Ty} (h : TypeScoped plain vs a)
    (ha : a = .object fields ∨ ∃ narrowed, a = .union fields narrowed) :
    FieldsScoped plain vs fields := by
  rcases ha with rfl | ⟨narrowed, rfl⟩
  · exact ⟨h.1, fun hplain => by simpa [Ty.every, Ty.monomorphic] using h.2 hplain⟩
  · exact ⟨h.1, fun hplain => by simpa [Ty.every, Ty.monomorphic] using h.2 hplain⟩

/-- The types that a union or a tagged type shows. -/
theorem TypeScoped.view {a payload : Ty} {view : Ty.TagView} {tag : String}
    (h : TypeScoped plain vs a) (hview : a.tagView? = some view)
    (hget : view.payload? tag = some payload) : TypeScoped plain vs payload := by
  cases a with
  | union alternatives narrowed =>
      cases hview
      exact (h.fields (.inr ⟨narrowed, rfl⟩)).get? hget
  | tagged a own =>
      cases hview
      simp only [Ty.TagView.payload?, Fields.get?] at hget
      split at hget
      · obtain rfl := Option.some.inj hget
        exact ⟨h.1, fun hplain => by simpa [Ty.every, Ty.monomorphic] using h.2 hplain⟩
      · cases hget
  | _ => cases hview

theorem payload?_of_pinned {a payload : Ty} {view : Ty.TagView} {tag : String}
    (hview : a.tagView? = some view) (hpinned : view.pinned = some (tag, payload)) :
    view.payload? tag = some payload := by
  cases a with
  | union alternatives narrowed =>
      cases hview
      simp only [Option.bind_eq_some_iff, Option.map_eq_some_iff, Prod.mk.injEq] at hpinned
      obtain ⟨own, -, a, hget, rfl, rfl⟩ := hpinned
      exact hget
  | tagged a own =>
      cases hview
      obtain ⟨rfl, rfl⟩ := Prod.mk.inj (Option.some.inj hpinned)
      simp [Ty.TagView.payload?, Fields.get?]
  | _ => cases hview

theorem typeScoped_function {us : List TypeVariable} {parameters : Parameters} {result : Ty}
    (hparameters : ∀ q ∈ parameters.toList, TypeScoped plain (us ++ vs) q.2)
    (hresult : TypeScoped plain (us ++ vs) result)
    (hmono : plain → us = [] ∧ parameters.isVariadic = false) :
    TypeScoped plain vs (.function us parameters result) := by
  refine ⟨⟨Ty.closedParameters_iff.mpr fun q hq => (hparameters q hq).1, hresult.1⟩, fun hplain => ?_⟩
  obtain ⟨rfl, hfixed⟩ := hmono hplain
  have hevery : Ty.everyParameter Ty.monomorphic parameters = true := by
    cases parameters with
    | variadic _ => cases hfixed
    | fixed ps => exact Ty.everyField_iff.mpr fun q hq => (hparameters q hq).2 hplain
  simp [Ty.every, Ty.monomorphic, hfixed, hevery, hresult.2 hplain]

/-! ## Names in a scope -/

/-- All types that the target may have are in scope. -/
def TargetScoped (p : Program) (τ : TypeTable) (plain : Prop) (vs : List TypeVariable)
    (target : Target) : Prop :=
  ∀ (name : String) (span : Span) (type : Ty),
    referenceType p τ name (some target) span = .ok type → TypeScoped plain vs type

/-- What the names stand for has types in scope. -/
def NamesScoped (p : Program) (τ : TypeTable) (plain : Prop) (vs : List TypeVariable)
    (names : Names) : Prop :=
  ∀ (name : String) (target : Target), Fields.get? name names = some target →
    p.TargetScoped τ plain vs target

theorem namesScoped_nil : p.NamesScoped τ plain vs [] := by
  intro name target h
  cases h

theorem NamesScoped.mono (h : p.NamesScoped τ plain vs names) (hsubset : vs ⊆ ws) :
    p.NamesScoped τ plain ws names :=
  fun name target hget own span type htype => (h name target hget own span type htype).mono hsubset

theorem NamesScoped.cons (h : p.NamesScoped τ plain vs names) (name : String) {target : Target}
    (htarget : p.TargetScoped τ plain vs target) :
    p.NamesScoped τ plain vs ((name, target) :: names) := by
  intro name' target' hget
  simp only [Fields.get?] at hget
  split at hget
  · obtain rfl := Option.some.inj hget
    exact htarget
  · exact h name' target' hget

/-- What is known of a name besides its binding says nothing of the scope of its type. -/
theorem targetScoped_narrowed_iff {id : BindingId} {tag : String} :
    p.TargetScoped τ plain vs (.narrowed id tag) ↔ p.TargetScoped τ plain vs (.bound id) := by
  simp only [TargetScoped, referenceType, bind_eq_ok, pure_eq_ok]
  constructor
  · intro h name span type htype
    exact typeScoped_narrow_iff.mp (h name span _ ⟨type, htype, rfl⟩)
  · rintro h name span _ ⟨type, htype, rfl⟩
    exact typeScoped_narrow_iff.mpr (h name span type htype)

theorem targetScoped_nonNull_iff {id : BindingId} :
    p.TargetScoped τ plain vs (.nonNull id) ↔ p.TargetScoped τ plain vs (.bound id) := by
  simp only [TargetScoped, referenceType, bind_eq_ok, pure_eq_ok]
  constructor
  · intro h name span type htype
    exact typeScoped_withoutNull_iff.mp (h name span _ ⟨type, htype, rfl⟩)
  · rintro h name span _ ⟨type, htype, rfl⟩
    exact typeScoped_withoutNull_iff.mpr (h name span type htype)

theorem NamesScoped.narrowed (h : p.NamesScoped τ plain vs names) (subject : NodeId)
    (tag : String) : p.NamesScoped τ plain vs (p.narrowedNames names subject tag) := by
  unfold narrowedNames
  split
  · split
    · rename_i id hget
      exact h.cons _ (targetScoped_narrowed_iff.mpr (h _ _ hget))
    · rename_i id tag' hget
      exact h.cons _ (targetScoped_narrowed_iff.mpr (targetScoped_narrowed_iff.mp (h _ _ hget)))
    · exact h
  · exact h

theorem NamesScoped.nonNull (h : p.NamesScoped τ plain vs names) (subject : NodeId) :
    p.NamesScoped τ plain vs (p.nonNullNames names subject) := by
  unfold nonNullNames
  split
  · split
    · rename_i id hget
      exact h.cons _ (targetScoped_nonNull_iff.mpr (h _ _ hget))
    · rename_i id hget
      exact h.cons _ (h _ _ hget)
    · exact h
  · exact h

theorem NamesScoped.branches (h : p.NamesScoped τ plain vs names) (condition : NodeId) :
    p.NamesScoped τ plain vs (p.branchNames names condition).1 ∧
      p.NamesScoped τ plain vs (p.branchNames names condition).2 := by
  unfold branchNames
  split
  · exact ⟨h.narrowed _ _, h⟩
  · split
    · exact ⟨h, h.nonNull _⟩
    · exact ⟨h, h.nonNull _⟩
    · exact ⟨h, h⟩
  · exact ⟨h, h⟩

theorem NamesScoped.bound (h : p.NamesScoped τ plain vs names) {id : BindingId}
    (hid : ∀ type, bindingType p τ id = .ok type → TypeScoped plain vs type) :
    p.NamesScoped τ plain vs (p.boundNames names [id]) :=
  h.cons _ fun _ _ type htype => hid type htype

theorem NamesScoped.parameters (h : p.NamesScoped τ plain vs names) {ids : List BindingId}
    {ps : List (String × Ty)} (hids : List.Forall₂ (fun id (q : String × Ty) =>
      ∃ span, p.binding id = .parameter q.1 span q.2) ids ps)
    (hps : ∀ q ∈ ps, TypeScoped plain vs q.2) :
    p.NamesScoped τ plain vs (p.boundNames names ids) := by
  induction hids generalizing names with
  | nil => exact h
  | cons hid _ ih =>
      obtain ⟨hq, hrest⟩ := List.forall_mem_cons.mp hps
      obtain ⟨span, hbinding⟩ := hid
      refine ih (h.bound fun type htype => ?_) hrest
      simp only [bindingType, hbinding, pure_eq_ok] at htype
      exact htype ▸ hq

theorem insideParameters_scoped {parameters : Parameters}
    (h : ∀ q ∈ parameters.toList, TypeScoped plain vs q.2) :
    ∀ q ∈ insideParameters parameters, TypeScoped plain vs q.2 := by
  cases parameters with
  | fixed ps => exact h
  | variadic q =>
      obtain ⟨hclosed, hevery⟩ := h q List.mem_cons_self
      intro q' hq'
      obtain rfl := List.mem_singleton.mp hq'
      exact ⟨hclosed, fun hplain => by simp [Ty.every, Ty.monomorphic, hevery hplain]⟩

/-- The names inside a function are those outside and its parameters. -/
theorem NamesScoped.inside (h : p.NamesScoped τ plain vs names) {s : Signature}
    (hs : p.SignatureScoped plain vs s) :
    p.NamesScoped τ plain (s.typeVariables ++ vs) (p.boundNames names s.parameters) :=
  NamesScoped.parameters (h.mono (List.subset_append_right _ _)) hs.parameters
    (insideParameters_scoped hs.arguments)

/-- The type of a function is in scope where its result is in the scope inside. -/
theorem signatureType_scoped {s : Signature} (hs : p.SignatureScoped plain vs s)
    {body : Option FunctionBody} {type : Ty} (h : signatureType τ s body = .ok type)
    (hbody : ∀ b ∈ body, ∀ result, τ b.result = .ok result →
      TypeScoped plain (s.typeVariables ++ vs) result) : TypeScoped plain vs type := by
  obtain ⟨result, hresult, rfl⟩ := signatureType_eq_ok_iff.mp h
  refine typeScoped_function hs.arguments ?_ hs.monomorphic
  rcases hresult with hresult | ⟨-, b, hb, hresult⟩
  · exact hs.result result hresult
  · exact hbody b hb result hresult

/-! ## Types of expressions -/

/-- In a plain program there are no type arguments. -/
theorem Instantiates.eq_empty {parameters : Parameters} {written types : List Ty} {s : Substitution}
    (h : Instantiates vs parameters written types s) (hvs : vs = []) : s = .empty := by
  cases h with
  | plain => rfl
  | inferred hne => exact absurd hvs hne
  | written hne hlength =>
      subst hvs
      exact absurd (List.length_eq_zero_iff.mp hlength) hne

theorem Instantiates.get?_ne_none {parameters : Parameters} {written types : List Ty}
    {s : Substitution} (h : Instantiates vs parameters written types s) {v : TypeVariable}
    (hv : v ∈ vs) : s.get? v ≠ none := by
  cases h with
  | plain hvs =>
      rw [hvs] at hv
      cases hv
  | inferred _ hinfer => exact Substitution.get?_ne_none_of_infer hinfer v hv
  | written _ hlength =>
      refine Substitution.get?_ofList_ne_none ?_
      rwa [List.map_fst_zip (Nat.le_of_eq hlength.symm)]

/-- Types that are put in the place of type variables only mention variables in scope. -/
theorem Instantiates.closed {parameters : Parameters} {written types : List Ty} {s : Substitution}
    (h : Instantiates vs parameters written types s) (hplain : plain → vs = [])
    (hwritten : ∀ type ∈ written, TypeScoped plain ws type)
    (hinferred : ¬ plain → written = [] → vs ≠ [] → Substitution.infer vs parameters types = .ok s →
      ∀ v a, s.get? v = some a → a.Closed ws) :
    ∀ v a, s.get? v = some a → a.Closed ws := by
  cases h with
  | plain => exact nofun
  | inferred hne hinfer => exact hinferred (fun h => hne (hplain h)) rfl hne hinfer
  | written _ _ =>
      intro v a hget
      exact (hwritten a (List.of_mem_zip (Substitution.mem_of_get?_ofList hget)).2).1

theorem typeVariables_eq_nil {parameters : Parameters} {result : Ty}
    (h : TypeScoped plain ws (.function vs parameters result)) (hplain : plain) : vs = [] := by
  have hroot := Ty.every_root (h.2 hplain)
  simp only [Ty.monomorphic, Bool.and_eq_true, List.isEmpty_iff] at hroot
  exact hroot.1

/-- The result of a call is in the scope of what is called and of the types put in. -/
theorem apply_scoped {parameters : Parameters} {result : Ty} {written types : List Ty}
    {s : Substitution} (hinstance : Instantiates vs parameters written types s)
    (hfunction : TypeScoped plain ws (.function vs parameters result))
    (himages : ∀ v a, s.get? v = some a → a.Closed ws) : TypeScoped plain ws (s.apply result) := by
  refine ⟨Substitution.closed_apply himages (fun v hv hget => ?_) hfunction.1.2, fun hplain => ?_⟩
  · exact (List.mem_append.mp hv).resolve_left fun hv => hinstance.get?_ne_none hv hget
  · rw [hinstance.eq_empty (typeVariables_eq_nil hfunction hplain)]
    have hevery := hfunction.2 hplain
    simp only [Ty.every, Bool.and_eq_true] at hevery
    exact hevery.2

/-- In a plain program a call leaves the types of the parameters as they are, without variables. -/
theorem every_parameter {parameters : Parameters} {result : Ty} {written types : List Ty}
    {s : Substitution} (hfunction : TypeScoped plain ws (.function vs parameters result))
    (hinstance : Instantiates vs parameters written types s) (hplain : plain) {i : Nat}
    {q : String × Ty} (hq : (s.applyParameters parameters).get? i = some q) :
    q.2.every Ty.monomorphic = true := by
  rw [hinstance.eq_empty (typeVariables_eq_nil hfunction hplain)] at hq
  have hevery := hfunction.2 hplain
  simp only [Ty.every, Bool.and_eq_true] at hevery
  exact Ty.every_of_parameter hevery.1.2 hq

/-- What holds of the types of all arguments. -/
theorem typed_arguments {P : Ty → Prop} {arguments : List NodeId} {types : List Ty}
    (h : List.Forall₂ (fun id type => τ id = .ok type) arguments types)
    (hP : ∀ id ∈ arguments, ∀ type, τ id = .ok type → P type) : ∀ type ∈ types, P type := by
  induction h with
  | nil => simp
  | cons htype _ ih =>
      obtain ⟨hid, hrest⟩ := List.forall_mem_cons.mp hP
      exact List.forall_mem_cons.mpr ⟨hid _ htype, ih hrest⟩

theorem typed_object {fields : List (String × NodeId)} {types : List (String × Ty)}
    (htypes : List.Forall₂ (fun field type => field.1 = type.1 ∧ τ field.2 = .ok type.2) fields types)
    (hchildren : ∀ id ∈ fields.map Prod.snd, ∀ type, τ id = .ok type → TypeScoped plain vs type) :
    TypeScoped plain vs (.object (Fields.ofList types)) := by
  have hfields : ∀ done, FieldsScoped plain vs done → FieldsScoped plain vs
      (types.foldl (fun fields field => Fields.insert field.1 field.2 fields) done) := by
    induction htypes with
    | nil => exact fun done hdone => hdone
    | cons htype _ ih =>
        obtain ⟨hchild, hrest⟩ := List.forall_mem_cons.mp hchildren
        exact fun done hdone => ih hrest _ (hdone.insert (hchild _ htype.2))
  obtain ⟨hclosed, hevery⟩ := hfields [] ⟨trivial, fun _ => rfl⟩
  exact ⟨hclosed, fun hplain => by simpa [Ty.every, Ty.monomorphic, Fields.ofList] using hevery hplain⟩

/-- An expression whose parts all are in its scope has a type in scope. -/
theorem HasType.scoped_simple {id : NodeId} {type : Ty} (h : p.HasType τ (p.node id).form type)
    (hsimple : (p.node id).form.Simple)
    (hwritten : ∀ type ∈ (p.node id).form.types, TypeScoped plain vs type)
    (hchildren : ∀ c ∈ children (p.node id).form, ∀ type, τ c = .ok type → TypeScoped plain vs type)
    (hcontained : ¬ plain → p.InfersContained τ) : TypeScoped plain vs type := by
  generalize hform : (p.node id).form = form at h hsimple hwritten hchildren
  cases h with
  | number | bigInteger | boolean | null => exact typeScoped_leaf plain vs trivial rfl
  | numbers | bigIntegers | negative | negativeBigInteger => exact typeScoped_leaf plain vs trivial rfl
  | equal | order | logical | not | hasTag => exact typeScoped_leaf plain vs trivial rfl
  | object htypes => exact typed_object htypes hchildren
  | conditional | reference | lambda | cases => exact hsimple.elim
  | @call callee written types arguments us parameters result s hcallee htypes hlength hinstance =>
      have hfunction := hchildren callee List.mem_cons_self _ hcallee
      have harguments : ∀ type ∈ types, type.Closed vs := typed_arguments htypes fun id hid type htype =>
        (hchildren id (List.mem_cons_of_mem _ hid) type htype).1
      refine apply_scoped hinstance hfunction (hinstance.closed (typeVariables_eq_nil hfunction)
        hwritten fun hplain hnone hvs hinfer => ?_)
      exact hcontained hplain (.mk (hnone ▸ hform) hcallee hvs htypes) hinfer harguments
  | field howner hget => exact ((hchildren _ List.mem_cons_self _ howner).fields (.inl rfl)).get? hget
  | tagged h =>
      obtain ⟨hclosed, hevery⟩ := hchildren _ List.mem_cons_self _ h
      exact ⟨hclosed, fun hplain => by simp [Ty.every, Ty.monomorphic, hevery hplain]⟩
  | untag htype hview hpinned =>
      exact (hchildren _ List.mem_cons_self _ htype).view hview (payload?_of_pinned hview hpinned)

theorem Covering.scoped {a type : Ty} (hfrom : type = a ∨ type = a.widened)
    (h : TypeScoped plain vs a) : TypeScoped plain vs type := by
  rcases hfrom with rfl | rfl
  · exact h
  · exact h.widened

theorem value_scoped {id : BindingId} {name : String} {span : Span} {declared : Option Ty}
    {node : NodeId} (hbinding : p.binding id = .value name span declared node)
    (hdeclared : ∀ type ∈ declared, TypeScoped plain vs type)
    (hnode : ∀ type, τ node = .ok type → TypeScoped plain vs type) {type : Ty}
    (h : bindingType p τ id = .ok type) : TypeScoped plain vs type := by
  cases declared with
  | some own =>
      simp only [bindingType, hbinding, pure_eq_ok] at h
      exact h ▸ hdeclared own rfl
  | none =>
      simp only [bindingType, hbinding] at h
      exact hnode type h

theorem payload_scoped {id : BindingId} {name : String} {span : Span} {scrutinee : NodeId}
    {tag : String} (hbinding : p.binding id = .payload name span scrutinee tag)
    (hscrutinee : ∀ type, τ scrutinee = .ok type → TypeScoped plain vs type) {type : Ty}
    (h : bindingType p τ id = .ok type) : TypeScoped plain vs type := by
  simp only [bindingType, hbinding, bind_eq_ok] at h
  obtain ⟨own, hown, h⟩ := h
  split at h
  · rename_i payload hpayload
    obtain rfl := pure_eq_ok.mp h
    obtain ⟨view, hview, hpayload⟩ := Option.bind_eq_some_iff.mp hpayload
    exact (hscrutinee own hown).view hview hpayload
  · cases h

/-- A function seen from inside its own body has its type in scope. -/
theorem NamesScoped.enclosing (h : p.NamesScoped τ plain vs names) {id : BindingId} {name : String}
    {span : Span} {s : Signature} {body : Option FunctionBody}
    (hbinding : p.binding id = .function name span s body) (hs : p.SignatureScoped plain vs s) :
    p.NamesScoped τ plain vs ((name, .enclosing id) :: names) := by
  refine h.cons name fun own span type htype => ?_
  simp only [referenceType, hbinding] at htype
  split at htype
  · exact signatureType_scoped hs htype nofun
  · cases htype

section

variable (hobeys : p.Obeys τ) (hcontained : ¬ plain → p.InfersContained τ)
include hobeys hcontained

set_option linter.unusedSectionVars false in
mutual

/-- The type of an expression keeps to the scope of the expression. -/
theorem Scoped.typed : ∀ {vs : List TypeVariable} {names : Names} {id : NodeId},
    p.Scoped plain native vs names id → p.NamesScoped τ plain vs names → ∀ type, τ id = .ok type →
      TypeScoped plain vs type
  | vs, names, id, .simple hform hwritten hchildren, hnames, type, htype => by
      exact (hasType_of_typeRule (hobeys id type htype)).scoped_simple hform hwritten
        (fun c hc => Scoped.typed (hchildren c hc) hnames) hcontained
  | vs, names, id, .reference hform, hnames, type, htype => by
      have hrule := hasType_of_typeRule (hobeys id type htype)
      rw [hform] at hrule
      generalize hget : Fields.get? _ names = target at hrule
      cases hrule with
      | reference h => exact hnames _ _ hget _ _ type h
  | vs, names, id, .conditional hform hc ht he, hnames, type, htype => by
      have hrule := hasType_of_typeRule (hobeys id type htype)
      rw [hform] at hrule
      cases hrule with
      | conditional _ ht' _ _ _ hfrom =>
          exact Covering.scoped hfrom (Scoped.typed ht (hnames.branches _).1 _ ht')
  | vs, names, id, .lambda hform hs hbody, hnames, type, htype => by
      have hrule := hasType_of_typeRule (hobeys id type htype)
      rw [hform] at hrule
      cases hrule with
      | lambda h =>
          refine signatureType_scoped hs h fun b hb result hresult => ?_
          obtain rfl := Option.some.inj hb
          exact ScopedBody.typed hbody (hnames.inside hs) result hresult
  | vs, names, id, .cases hform hscrutinee hpayload harms, hnames, type, htype => by
      have hrule := hasType_of_typeRule (hobeys id type htype)
      rw [hform] at hrule
      cases hrule with
      | cases hown hview hrequired _ hfrom =>
          obtain ⟨arm, harm, a, ha, hfrom⟩ := hfrom
          refine Covering.scoped hfrom (Scoped.typed (harms arm harm) ?_ a ha)
          obtain ⟨name, span, hbinding⟩ := hpayload arm harm
          exact (hnames.narrowed _ _).bound fun payload htype =>
            payload_scoped hbinding (fun type htype => Scoped.typed hscrutinee hnames type htype) htype

theorem ScopedBody.typed : ∀ {vs : List TypeVariable} {names : Names} {body : FunctionBody},
    p.ScopedBody plain native vs names body → p.NamesScoped τ plain vs names →
      ∀ type, τ body.result = .ok type → TypeScoped plain vs type
  | _, _, _, .mk hbindings hresult, hnames, type, htype =>
      Scoped.typed hresult (ScopedBindings.typed hbindings hnames) type htype

theorem ScopedBindings.typed : ∀ {vs : List TypeVariable} {names names' : Names}
    {ids : List BindingId}, p.ScopedBindings plain native vs names ids names' →
      p.NamesScoped τ plain vs names → p.NamesScoped τ plain vs names'
  | _, _, _, _, .nil, hnames => hnames
  | _, _, _, _, .value hbinding htype hnode hrest, hnames => by
      refine ScopedBindings.typed hrest (hnames.bound fun type h => ?_)
      exact value_scoped hbinding htype (Scoped.typed hnode hnames) h
  | _, _, _, _, .function hbinding hs hbody hrest, hnames => by
      refine ScopedBindings.typed hrest (hnames.bound fun type h => ?_)
      simp only [bindingType, hbinding] at h
      refine signatureType_scoped hs h fun b hb result hresult => ?_
      obtain rfl := Option.some.inj hb
      exact ScopedBody.typed hbody ((hnames.enclosing hbinding hs).inside hs) result hresult
  | _, _, _, _, .external hbinding _ _ hs hresult hrest, hnames => by
      refine ScopedBindings.typed hrest (hnames.bound fun type h => ?_)
      simp only [bindingType, hbinding] at h
      exact signatureType_scoped hs h nofun

end

end

end Sable.Program
