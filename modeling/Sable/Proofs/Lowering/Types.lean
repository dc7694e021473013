import Sable.Program.Lowering
import Sable.Proofs.Program.Scoped
import Sable.Proofs.Tree.Core

/-! Lowering of type expressions: the types only mention variables in scope. -/
namespace Sable.Lowering

open Program (TypeScoped)

variable {α β : Type}

/-! ## Runs -/

theorem run_bind_eq_ok {x : Lowering α} {f : α → Lowering β} {d : Draft} {r : β × Draft} :
    (x >>= f).run d = .ok r ↔ ∃ a d', x.run d = .ok (a, d') ∧ (f a).run d' = .ok r := by
  rw [StateT.run_bind]
  cases x.run d with
  | error e => simp [Bind.bind, Except.bind]
  | ok found => obtain ⟨a, d'⟩ := found; simp [Bind.bind, Except.bind]

theorem run_pure_eq_ok {a : α} {d : Draft} {r : α × Draft} :
    (pure a : Lowering α).run d = .ok r ↔ r = (a, d) := by
  rw [StateT.run_pure]
  simp only [pure, Except.pure, Except.ok.injEq]
  exact eq_comm

theorem run_fail_eq_ok {fault : TypeFault} {span : Span} {d : Draft} {r : α × Draft} :
    (fail fault span : Lowering α).run d = .ok r ↔ False := by
  simp [fail, throw, throwThe, MonadExceptOf.throw, StateT.lift, StateT.run, Bind.bind, Except.bind]

/-- A step behind a check that raises an error. -/
theorem run_check_eq_ok {c : Prop} [Decidable c] {fault : TypeFault} {span : Span}
    {rest : Lowering α} {d : Draft} {r : α × Draft} :
    (if c then (fail fault span : Lowering PUnit) >>= fun _ => rest else rest).run d = .ok r ↔
      ¬ c ∧ rest.run d = .ok r := by
  split
  · simp only [run_bind_eq_ok, run_fail_eq_ok, false_and, exists_false, not_true, *]
  · simp only [not_false_eq_true, true_and, *]

theorem run_freshVariable_eq_ok {name : String} {d : Draft} {r : TypeVariable × Draft} :
    (freshVariable name).run d = .ok r ↔
      r = (⟨name, d.nextVariable⟩, { d with nextVariable := d.nextVariable + 1 }) := by
  simp only [freshVariable, modifyGet, MonadStateOf.modifyGet, StateT.run, StateT.modifyGet, pure,
    Except.pure, Except.ok.injEq]
  exact eq_comm

/-- A step that makes no nodes and no bindings. -/
structure TypesOnly (d d' : Draft) : Prop where
  nodes : d'.nodes = d.nodes
  bindings : d'.bindings = d.bindings
  next : d.nextVariable ≤ d'.nextVariable

theorem TypesOnly.refl (d : Draft) : TypesOnly d d := ⟨rfl, rfl, Nat.le_refl _⟩

theorem TypesOnly.trans {d₁ d₂ d₃ : Draft} (h : TypesOnly d₁ d₂) (h' : TypesOnly d₂ d₃) :
    TypesOnly d₁ d₃ :=
  ⟨h'.nodes.trans h.nodes, h'.bindings.trans h.bindings, Nat.le_trans h.next h'.next⟩

/-! ## Scopes of types -/

section

variable {plain : Prop}

def MeaningSound (plain : Prop) (vs : List TypeVariable) : TypeMeaning → Prop
  | .alias ps target => TypeScoped plain (ps ++ vs) target
  | .variable v => v ∈ vs
  | .constructor _ => True

/-- The names of types in a scope mean types over the variables `vs`, which were made before the
variable of number `next`. -/
structure ScopeSound (plain : Prop) (vs : List TypeVariable) (next : Nat) (scope : Scope) : Prop where
  earlier : ∀ v ∈ vs, v.id < next
  meanings : ∀ name meaning, .type name meaning ∈ scope.entries → MeaningSound plain vs meaning

theorem mem_of_typeIn {name : String} {meaning : TypeMeaning} {entries : List Scope.Entry}
    (h : Scope.typeIn name entries = some meaning) : .type name meaning ∈ entries := by
  induction entries with
  | nil => simp [Scope.typeIn] at h
  | cons entry rest ih =>
      cases entry with
      | value _ _ => exact List.mem_cons_of_mem _ (ih h)
      | type own _ =>
          simp only [Scope.typeIn] at h
          split at h
          · rename_i hname
            obtain rfl := Option.some.inj h
            rw [hname]
            exact List.mem_cons_self
          · exact List.mem_cons_of_mem _ (ih h)

variable {vs : List TypeVariable} {next : Nat} {scope : Scope}

theorem ScopeSound.lookup (h : ScopeSound plain vs next scope) {name : String}
    {meaning : TypeMeaning} (hget : scope.type? name = some meaning) :
    MeaningSound plain vs meaning :=
  h.meanings name meaning (mem_of_typeIn hget)

theorem ScopeSound.later (h : ScopeSound plain vs next scope) {next' : Nat} (hle : next ≤ next') :
    ScopeSound plain vs next' scope :=
  ⟨fun v hv => Nat.lt_of_lt_of_le (h.earlier v hv) hle, h.meanings⟩

theorem ScopeSound.withValue (h : ScopeSound plain vs next scope) (name : String)
    (target : Target) : ScopeSound plain vs next (scope.withValue name target) := by
  refine ⟨h.earlier, fun name' meaning hmem => ?_⟩
  rcases List.mem_cons.mp hmem with heq | hmem
  · cases heq
  · exact h.meanings name' meaning hmem

theorem ScopeSound.withType (h : ScopeSound plain vs next scope) (name : String)
    {meaning : TypeMeaning} (hmeaning : MeaningSound plain vs meaning) :
    ScopeSound plain vs next (scope.withType name meaning) := by
  refine ⟨h.earlier, fun name' meaning' hmem => ?_⟩
  rcases List.mem_cons.mp hmem with heq | hmem
  · cases heq
    exact hmeaning
  · exact h.meanings name' meaning' hmem

theorem MeaningSound.mono {vs ws : List TypeVariable} {meaning : TypeMeaning}
    (h : MeaningSound plain vs meaning) (hsubset : vs ⊆ ws) : MeaningSound plain ws meaning := by
  match meaning with
  | .alias ps target =>
      exact TypeScoped.mono h (List.append_subset.mpr ⟨List.subset_append_left ps ws,
        List.subset_append_of_subset_right ps hsubset⟩)
  | .variable v => exact hsubset h
  | .constructor _ => trivial

theorem scopeSound_root : ScopeSound plain [] 0 .root := by
  refine ⟨by simp, fun name meaning hmem => ?_⟩
  simp only [Scope.root, Scope.empty, Scope.withType, List.mem_cons, Scope.Entry.type.injEq,
    List.not_mem_nil, or_false] at hmem
  rcases hmem with ⟨-, rfl⟩ | ⟨-, rfl⟩ | ⟨-, rfl⟩ | ⟨-, rfl⟩ | ⟨-, rfl⟩ | ⟨-, rfl⟩ <;>
    simp [MeaningSound, TypeScoped, Ty.Closed, Ty.every, Ty.monomorphic]

/-! ## Type parameters -/

/-- What making type parameters leaves behind: new variables, in scope by their names. -/
structure GenericsSound (plain : Prop) (us vs : List TypeVariable) (scope inner : Scope)
    (d d' : Draft) : Prop where
  typesOnly : TypesOnly d d'
  sound : ScopeSound plain (vs ++ us) d'.nextVariable inner
  fresh : ∀ v ∈ vs, v ∉ us
  nodup : vs.Nodup
  names : inner.names = scope.names

theorem lowerGenericsFrom_sound {names : Generics} {us earlier vs : List TypeVariable}
    {scope inner : Scope} {d d' : Draft}
    (h : (lowerGenericsFrom earlier scope names).run d = .ok ((vs, inner), d'))
    (hscope : ScopeSound plain (earlier ++ us) d.nextVariable scope)
    (hfresh : ∀ v ∈ earlier, v ∉ us) (hnodup : earlier.Nodup) :
    GenericsSound plain us vs scope inner d d' ∧ (names = [] → vs = earlier) := by
  induction names generalizing earlier scope d with
  | nil =>
      simp only [lowerGenericsFrom, run_pure_eq_ok, Prod.mk.injEq] at h
      obtain ⟨⟨rfl, rfl⟩, rfl⟩ := h
      exact ⟨⟨.refl _, hscope, hfresh, hnodup, rfl⟩, fun _ => rfl⟩
  | cons g rest ih =>
      refine ⟨?_, fun hnil => by cases hnil⟩
      simp only [lowerGenericsFrom, run_check_eq_ok, run_bind_eq_ok, run_freshVariable_eq_ok,
        Prod.mk.injEq] at h
      obtain ⟨-, v, d₁, ⟨rfl, rfl⟩, h⟩ := h
      generalize hv : (⟨g.value, d.nextVariable⟩ : TypeVariable) = v at h
      have hnew : ∀ w ∈ earlier ++ us, w ≠ v := by
        rintro w hw rfl
        have hlt := hscope.earlier w hw
        simp [← hv] at hlt
      have hsplit : ∀ w, w ∈ (earlier ++ [v]) ++ us ↔ w ∈ earlier ++ us ∨ w = v := by
        intro w
        simp only [List.mem_append, List.mem_singleton]
        tauto
      have hscope' : ScopeSound plain ((earlier ++ [v]) ++ us) (d.nextVariable + 1)
          (scope.withType g.value (.variable v)) := by
        refine ScopeSound.withType ⟨fun w hw => ?_, fun name meaning hmem =>
          (hscope.meanings name meaning hmem).mono fun w hw => (hsplit w).mpr (.inl hw)⟩ _
          ((hsplit v).mpr (.inr rfl))
        rcases (hsplit w).mp hw with hw | rfl
        · exact Nat.lt_succ_of_lt (hscope.earlier w hw)
        · simp [← hv]
      have hfresh' : ∀ w ∈ earlier ++ [v], w ∉ us := by
        intro w hw
        rcases List.mem_append.mp hw with hw | hw
        · exact hfresh w hw
        · rw [List.mem_singleton.mp hw]
          exact fun hmem => hnew v (List.mem_append_right _ hmem) rfl
      have hnodup' : (earlier ++ [v]).Nodup := by
        refine List.nodup_append.mpr ⟨hnodup, by simp, ?_⟩
        intro w hw w' hw'
        rw [List.mem_singleton.mp hw']
        exact hnew w (List.mem_append_left _ hw)
      have hstep : TypesOnly d { d with nextVariable := d.nextVariable + 1 } :=
        ⟨rfl, rfl, Nat.le_succ _⟩
      have hsound := (ih h hscope' hfresh' hnodup').1
      exact ⟨hstep.trans hsound.typesOnly, hsound.sound, hsound.fresh, hsound.nodup, hsound.names⟩

theorem lowerGenerics_sound {names : Generics} {us vs : List TypeVariable} {scope inner : Scope}
    {d d' : Draft} (h : (lowerGenerics scope names).run d = .ok ((vs, inner), d'))
    (hscope : ScopeSound plain us d.nextVariable scope) :
    GenericsSound plain us vs scope inner d d' ∧ (names = [] → vs = []) :=
  lowerGenericsFrom_sound h hscope (by simp) List.nodup_nil

/-! ## Types -/

theorem typeScoped_alias {ps : List TypeVariable} {target : Ty} {arguments : List Ty}
    (htarget : TypeScoped plain (ps ++ vs) target) (hlength : ps.length = arguments.length)
    (harguments : ∀ a ∈ arguments, TypeScoped plain vs a) :
    TypeScoped plain vs ((Substitution.ofList (ps.zip arguments)).apply target) := by
  have himage : ∀ v b, (Substitution.ofList (ps.zip arguments)).get? v = some b →
      TypeScoped plain vs b := fun v b hget =>
    harguments b (List.of_mem_zip (Substitution.mem_of_get?_ofList hget)).2
  refine ⟨Substitution.closed_apply (fun v b hget => (himage v b hget).1) ?_ htarget.1,
    fun hplain => Substitution.monomorphic_apply (fun v b hget => (himage v b hget).2 hplain)
      (htarget.2 hplain)⟩
  intro v hv hget
  refine (List.mem_append.mp hv).resolve_left fun hps => ?_
  refine Substitution.get?_ofList_ne_none ?_ hget
  rwa [List.map_fst_zip (Nat.le_of_eq hlength)]

/-- The name of a generic type stands for its definition with the arguments in the place of the parameters. -/
theorem run_resolveType_generic {name : String} {ps : List TypeVariable} {target : Ty} {arguments : List Ty}
    {span : Span} {d : Draft} (h : scope.type? name = some (.alias ps target)) (hlength : ps.length = arguments.length) :
    (resolveType scope name arguments span).run d = .ok ((Substitution.ofList (ps.zip arguments)).apply target, d) := by
  simp only [resolveType, h, if_pos hlength]
  rfl

theorem resolveType_scoped (hscope : ScopeSound plain vs next scope) {name : String}
    {arguments : List Ty} {span : Span} {d d' : Draft} {type : Ty}
    (harguments : ∀ a ∈ arguments, TypeScoped plain vs a)
    (h : (resolveType scope name arguments span).run d = .ok (type, d')) :
    d' = d ∧ TypeScoped plain vs type := by
  unfold resolveType at h
  split at h
  · rw [run_fail_eq_ok] at h
    exact h.elim
  · rename_i v hget
    split at h
    · simp only [run_pure_eq_ok, Prod.mk.injEq] at h
      obtain ⟨rfl, rfl⟩ := h
      exact ⟨rfl, hscope.lookup hget, fun _ => rfl⟩
    · rw [run_fail_eq_ok] at h
      exact h.elim
  · rename_i c hget
    split at h
    · rename_i element
      simp only [run_pure_eq_ok, Prod.mk.injEq] at h
      obtain ⟨rfl, rfl⟩ := h
      have helement := harguments element (by simp)
      refine ⟨rfl, ?_, fun hplain => ?_⟩
      · cases c <;> exact helement.1
      · cases c <;> simp [TypeConstructor.apply, Ty.every, Ty.monomorphic, helement.2 hplain]
    · rw [run_fail_eq_ok] at h
      exact h.elim
  · rename_i ps target hget
    split at h
    · rename_i hlength
      simp only [run_pure_eq_ok, Prod.mk.injEq] at h
      obtain ⟨rfl, rfl⟩ := h
      exact ⟨rfl, typeScoped_alias (hscope.lookup hget) hlength harguments⟩
    · rw [run_fail_eq_ok] at h
      exact h.elim

mutual

theorem lowerType_scoped : ∀ (t : TypeExpr) {vs : List TypeVariable} {scope : Scope} {d d' : Draft}
    {type : Ty} (_ : plain → t.isCore = true) (_ : ScopeSound plain vs d.nextVariable scope),
    (lowerType scope t).run d = .ok (type, d') → TypesOnly d d' ∧ TypeScoped plain vs type
  | .named site name arguments, _, _, d, d', type, hcore, hscope, h => by
      simp only [lowerType, run_bind_eq_ok] at h
      obtain ⟨types, d₁, htypes, h⟩ := h
      obtain ⟨hd, htypes⟩ := lowerTypes_scoped arguments hcore hscope htypes
      obtain ⟨rfl, htype⟩ := resolveType_scoped (hscope.later hd.next) htypes h
      exact ⟨hd, htype⟩
  | .object site fields, _, _, d, d', type, hcore, hscope, h => by
      simp only [lowerType, run_bind_eq_ok, run_pure_eq_ok, Prod.mk.injEq] at h
      obtain ⟨done, d₁, hfields, rfl, rfl⟩ := h
      obtain ⟨hd, hclosed, hevery⟩ := lowerTypeFields_scoped fields hcore hscope
        (by exact trivial) (by simp [Ty.everyField]) hfields
      exact ⟨hd, hclosed, fun hplain => by simp [Ty.every, Ty.monomorphic, hevery hplain]⟩
  | .function site names ps result, vs, _, d, d', type, hcore, hscope, h => by
      simp only [lowerType, run_bind_eq_ok, run_pure_eq_ok, Prod.mk.injEq, Prod.exists] at h
      obtain ⟨us, inner, d₁, hgenerics, parameters, d₂, hps, r, d₃, hresult, rfl, rfl⟩ := h
      obtain ⟨hg, hnil⟩ := lowerGenerics_sound hgenerics hscope
      have hparts : plain → names = [] ∧ TypeExpr.parametersAreCore ps = true ∧
          result.isCore = true := fun hplain => by
        simpa [TypeExpr.isCore, and_assoc] using hcore hplain
      obtain ⟨hd₂, hps⟩ := lowerParameters_scoped ps (fun hplain => (hparts hplain).2.1) hg.sound hps
      obtain ⟨hd₃, hr⟩ := lowerType_scoped result (fun hplain => (hparts hplain).2.2)
        (hg.sound.later hd₂.next) hresult
      refine ⟨(hg.typesOnly.trans hd₂).trans hd₃, ⟨hps.1, hr.1⟩, fun hplain => ?_⟩
      simp [Ty.every, Ty.monomorphic, hnil (hparts hplain).1, hps.2 hplain, hr.2 hplain]
  | .nullable site inner, _, _, d, d', type, hcore, hscope, h => by
      simp only [lowerType, run_bind_eq_ok, run_pure_eq_ok, Prod.mk.injEq] at h
      obtain ⟨t, d₁, ht, rfl, rfl⟩ := h
      obtain ⟨hd, ht⟩ := lowerType_scoped inner hcore hscope ht
      exact ⟨hd, Ty.closed_orNull ht.1, fun hplain => Ty.monomorphic_orNull (ht.2 hplain)⟩

theorem lowerTypes_scoped : ∀ (ts : List TypeExpr) {vs : List TypeVariable} {scope : Scope}
    {d d' : Draft} {types : List Ty} (_ : plain → TypeExpr.areCore ts = true)
    (_ : ScopeSound plain vs d.nextVariable scope),
    (lowerTypes scope ts).run d = .ok (types, d') →
      TypesOnly d d' ∧ ∀ type ∈ types, TypeScoped plain vs type
  | [], _, _, d, d', types, _, _, h => by
      simp only [lowerTypes, run_pure_eq_ok, Prod.mk.injEq] at h
      obtain ⟨rfl, rfl⟩ := h
      exact ⟨.refl _, by simp⟩
  | t :: rest, _, _, d, d', types, hcore, hscope, h => by
      simp only [lowerTypes, run_bind_eq_ok, run_pure_eq_ok, Prod.mk.injEq] at h
      obtain ⟨type, d₁, ht, types', d₂, hrest, rfl, rfl⟩ := h
      have hparts : plain → t.isCore = true ∧ TypeExpr.areCore rest = true := fun hplain => by
        simpa [TypeExpr.areCore] using hcore hplain
      obtain ⟨hd₁, ht⟩ := lowerType_scoped t (fun hplain => (hparts hplain).1) hscope ht
      obtain ⟨hd₂, hrest⟩ := lowerTypes_scoped rest (fun hplain => (hparts hplain).2)
        (hscope.later hd₁.next) hrest
      exact ⟨hd₁.trans hd₂, List.forall_mem_cons.mpr ⟨ht, hrest⟩⟩

theorem lowerTypeFields_scoped : ∀ (fields : List (String × TypeExpr)) {vs : List TypeVariable}
    {scope : Scope} {span : Span} {done types : Fields Ty} {d d' : Draft}
    (_ : plain → TypeExpr.fieldsAreCore fields = true)
    (_ : ScopeSound plain vs d.nextVariable scope) (_ : Ty.ClosedFields vs done)
    (_ : plain → Ty.everyField Ty.monomorphic done = true),
    (lowerTypeFields scope span done fields).run d = .ok (types, d') →
      TypesOnly d d' ∧ Ty.ClosedFields vs types ∧
        (plain → Ty.everyField Ty.monomorphic types = true)
  | [], _, _, _, _, _, d, d', _, _, hclosed, hevery, h => by
      simp only [lowerTypeFields, run_pure_eq_ok, Prod.mk.injEq] at h
      obtain ⟨rfl, rfl⟩ := h
      exact ⟨.refl _, hclosed, hevery⟩
  | (name, t) :: rest, _, _, _, _, _, d, d', hcore, hscope, hclosed, hevery, h => by
      simp only [lowerTypeFields, run_bind_eq_ok, run_check_eq_ok] at h
      obtain ⟨type, d₁, ht, -, h⟩ := h
      have hparts : plain → t.isCore = true ∧ TypeExpr.fieldsAreCore rest = true := fun hplain => by
        simpa [TypeExpr.fieldsAreCore] using hcore hplain
      obtain ⟨hd₁, ht⟩ := lowerType_scoped t (fun hplain => (hparts hplain).1) hscope ht
      obtain ⟨hd₂, hrest⟩ := lowerTypeFields_scoped rest (fun hplain => (hparts hplain).2)
        (hscope.later hd₁.next) (Ty.closedFields_insert hclosed ht.1)
        (fun hplain => Ty.everyField_insert (hevery hplain) (ht.2 hplain)) h
      exact ⟨hd₁.trans hd₂, hrest⟩

theorem lowerParameters_scoped : ∀ (ps : ParameterList (Parameter TypeExpr))
    {vs : List TypeVariable} {scope : Scope} {d d' : Draft} {parameters : Parameters}
    (_ : plain → TypeExpr.parametersAreCore ps = true)
    (_ : ScopeSound plain vs d.nextVariable scope),
    (lowerParameters scope ps).run d = .ok (parameters, d') →
      TypesOnly d d' ∧ Ty.ClosedParameters vs parameters ∧
        (plain → Ty.everyParameter Ty.monomorphic parameters = true ∧
          parameters.isVariadic = false)
  | .fixed ps, _, _, d, d', _, hcore, hscope, h => by
      simp only [lowerParameters, run_bind_eq_ok, run_pure_eq_ok, Prod.mk.injEq] at h
      obtain ⟨types, d₁, hps, rfl, rfl⟩ := h
      obtain ⟨hd, hclosed, hevery⟩ := lowerEachParameter_scoped ps hcore hscope hps
      exact ⟨hd, hclosed, fun hplain => ⟨hevery hplain, rfl⟩⟩
  | .variadic ⟨name, t, _⟩, _, _, d, d', _, hcore, hscope, h => by
      simp only [lowerParameters, run_bind_eq_ok, run_pure_eq_ok, Prod.mk.injEq] at h
      obtain ⟨type, d₁, ht, rfl, rfl⟩ := h
      have hnot : ¬ plain := fun hplain => by
        simpa [TypeExpr.parametersAreCore] using hcore hplain
      obtain ⟨hd, ht⟩ := lowerType_scoped t (fun hplain => absurd hplain hnot) hscope ht
      exact ⟨hd, ht.1, fun hplain => absurd hplain hnot⟩

theorem lowerEachParameter_scoped : ∀ (ps : List (Parameter TypeExpr)) {vs : List TypeVariable}
    {scope : Scope} {d d' : Draft} {types : List (String × Ty)}
    (_ : plain → TypeExpr.eachIsCore ps = true) (_ : ScopeSound plain vs d.nextVariable scope),
    (lowerEachParameter scope ps).run d = .ok (types, d') →
      TypesOnly d d' ∧ Ty.ClosedFields vs types ∧
        (plain → Ty.everyField Ty.monomorphic types = true)
  | [], _, _, d, d', _, _, _, h => by
      simp only [lowerEachParameter, run_pure_eq_ok, Prod.mk.injEq] at h
      obtain ⟨rfl, rfl⟩ := h
      exact ⟨.refl _, trivial, fun _ => rfl⟩
  | ⟨name, t, _⟩ :: rest, _, _, d, d', _, hcore, hscope, h => by
      simp only [lowerEachParameter, run_bind_eq_ok, run_pure_eq_ok, Prod.mk.injEq] at h
      obtain ⟨type, d₁, ht, types, d₂, hrest, rfl, rfl⟩ := h
      have hparts : plain → t.isCore = true ∧ TypeExpr.eachIsCore rest = true := fun hplain => by
        simpa [TypeExpr.eachIsCore] using hcore hplain
      obtain ⟨hd₁, ht⟩ := lowerType_scoped t (fun hplain => (hparts hplain).1) hscope ht
      obtain ⟨hd₂, hclosed, hevery⟩ := lowerEachParameter_scoped rest
        (fun hplain => (hparts hplain).2) (hscope.later hd₁.next) hrest
      exact ⟨hd₁.trans hd₂, ⟨ht.1, hclosed⟩, fun hplain => by
        simp [Ty.everyField, ht.2 hplain, hevery hplain]⟩

end

end

end Sable.Lowering
