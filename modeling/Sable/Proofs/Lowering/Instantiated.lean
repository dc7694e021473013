import Sable.Proofs.Lowering.Reached
import Sable.Proofs.Ty.Replaced

/-! A generic type with arguments is its definition with the arguments in the place of the parameters.

The definition is lowered once, with new variables for its type parameters, and the variables are replaced wherever the
name is used. The same type comes out where the definition is lowered for the one use, in a scope that has the arguments
under the names of the parameters. -/
namespace Sable

namespace Ty

/-- Not an optional type of an optional type, nor a variable of number `n` or above. -/
def settled (n : Nat) : Ty → Bool
  | nullable (nullable _) => false
  | var v => decide (v.id < n)
  | _ => true

/-- There is no optional type of an optional type in the type, and its variables are made before that of number `n`. -/
abbrev Settled (n : Nat) (a : Ty) : Prop := a.every (settled n) = true

theorem stable_settled (n : Nat) : Stable (settled n) where
  orNull {a} h := by
    cases a with
    | nullable a => exact h
    | _ => exact Bool.and_eq_true_iff.mpr ⟨rfl, h⟩
  replace s a _ hvar hnullable := by
    cases a with
    | var v => exact absurd rfl (hvar v)
    | nullable a => exact absurd rfl (hnullable a)
    | _ => rfl

theorem settled_later {n m : Nat} (hle : n ≤ m) (a : Ty) (h : a.settled n = true) : a.settled m = true := by
  unfold settled at h ⊢
  split at h
  · exact h
  · exact decide_eq_true (Nat.lt_of_lt_of_le (of_decide_eq_true h) hle)
  · rfl

end Ty

namespace Substitution

variable {s : Substitution} {n : Nat}

/-- Replacing variables in a type with arguments is replacing them in the arguments: the type itself has none of them. -/
theorem replace_apply_ofList (hs : ∀ v, v.id < n → s.get? v = none) {target : Ty}
    (htarget : target.Settled n) (ps : List TypeVariable) (arguments : List Ty) :
    s.replace ((ofList (ps.zip arguments)).apply target) =
      (ofList (ps.zip (arguments.map s.replace))).apply target := by
  rw [apply_eq_replace (fun _ => rfl) htarget, apply_eq_replace (fun _ => rfl) htarget]
  refine replace_replace (fun v hv => ?_) htarget
  have hmap : (ofList (ps.zip (arguments.map s.replace))).get? v = ((ofList (ps.zip arguments)).get? v).map s.replace := by
    rw [List.zip_map_right]
    exact get?_ofList_map s.replace (ps.zip arguments) v
  rw [replace, replace, hmap]
  cases (ofList (ps.zip arguments)).get? v with
  | some a => rfl
  | none =>
      rw [Option.getD_none, Option.map_none, Option.getD_none, replace, hs v (of_decide_eq_true hv), Option.getD_none]

end Substitution

/-! ## Definitions of types -/

mutual

/-- No function type in the type expression has type parameters. -/
def TypeExpr.isMonomorphic : TypeExpr → Bool
  | .named _ _ arguments => TypeExpr.areMonomorphic arguments
  | .object _ fields => TypeExpr.fieldsAreMonomorphic fields
  | .function _ names ps result => names.isEmpty && TypeExpr.parametersAreMonomorphic ps && result.isMonomorphic
  | .nullable _ inner => inner.isMonomorphic

def TypeExpr.areMonomorphic : List TypeExpr → Bool
  | [] => true
  | t :: rest => t.isMonomorphic && TypeExpr.areMonomorphic rest

def TypeExpr.fieldsAreMonomorphic : List (String × TypeExpr) → Bool
  | [] => true
  | (_, t) :: rest => t.isMonomorphic && TypeExpr.fieldsAreMonomorphic rest

def TypeExpr.parametersAreMonomorphic : ParameterList (Parameter TypeExpr) → Bool
  | .fixed ps => TypeExpr.eachIsMonomorphic ps
  | .variadic ⟨_, t, _⟩ => t.isMonomorphic

def TypeExpr.eachIsMonomorphic : List (Parameter TypeExpr) → Bool
  | [] => true
  | ⟨_, t, _⟩ :: rest => t.isMonomorphic && TypeExpr.eachIsMonomorphic rest

end

/-- What a declaration defines the name of a type as. -/
inductive TypeDefinition where
  | alias (target : TypeExpr)
  | union (alternatives : List Alternative)

namespace TypeDefinition

def declaration (span : Span) (name : Spanned String) (generics : Generics) : TypeDefinition → Declaration
  | .alias target => .alias span name generics target
  | .union alternatives => .union span name generics alternatives

def isMonomorphic : TypeDefinition → Bool
  | .alias target => target.isMonomorphic
  | .union alternatives => alternatives.all (·.payload.isMonomorphic)

/-- The type that is defined, for the names in a scope. -/
def lower (scope : Scope) (name : String) : TypeDefinition → Lowering Ty
  | .alias target => Lowering.lowerType scope target
  | .union alternatives => do pure (.union (← Lowering.lowerAlternatives scope name [] alternatives) none)

end TypeDefinition

namespace Scope

/-- Variables under their own names. -/
def withVariables (scope : Scope) : List TypeVariable → Scope
  | [] => scope
  | v :: vs => (scope.withType v.name (.variable v)).withVariables vs

/-- Types under the given names. -/
def withAliases (scope : Scope) : List String → List Ty → Scope
  | name :: names, type :: types => (scope.withType name (.alias [] type)).withAliases names types
  | _, _ => scope

end Scope

namespace Lowering

variable {α β γ δ : Type} {n : Nat} {s : Substitution} {inner outer : Scope} {d d' : Draft}

theorem kept_settled : Kept Ty.Settled := by
  refine kept_every Ty.stable_settled Ty.settled_later decide_eq_true fun n a hordinary => ?_
  cases a with
  | var _ | nullable _ => cases hordinary
  | _ => rfl

/-! ## Runs side by side -/

/-- Neither step touches the draft. Both fail, or what the second one gives is what `f` makes of the outcome of the first. -/
def Tracks (f : α → β) (x : Lowering α) (y : Lowering β) : Prop :=
  ∀ d d' : Draft, (∃ a, x.run d = .ok (a, d) ∧ y.run d' = .ok (f a, d')) ∨
    ((∃ e, x.run d = .error e) ∧ ∃ e, y.run d' = .error e)

theorem Tracks.pure {f : α → β} (a : α) : Tracks f (pure a) (pure (f a)) := fun _ _ => .inl ⟨a, rfl, rfl⟩

theorem Tracks.fail {f : α → β} (fault fault' : TypeFault) (span span' : Span) :
    Tracks f (fail fault span) (fail fault' span') := fun _ _ => .inr ⟨⟨_, rfl⟩, ⟨_, rfl⟩⟩

theorem Tracks.bind {f : α → β} {g : γ → δ} {x : Lowering α} {y : Lowering β} {k : α → Lowering γ}
    {l : β → Lowering δ} (h : Tracks f x y) (hk : ∀ a, Tracks g (k a) (l (f a))) : Tracks g (x >>= k) (y >>= l) := by
  intro d d'
  simp only [StateT.run_bind]
  rcases h d d' with ⟨a, hx, hy⟩ | ⟨⟨e, hx⟩, e', hy⟩
  · rw [hx, hy]
    exact hk a d d'
  · rw [hx, hy]
    exact .inr ⟨⟨e, rfl⟩, e', rfl⟩

theorem Tracks.check {f : α → β} {b c : Bool} (hbc : c = b) {x : Lowering α} {y : Lowering β}
    (h : Tracks f x y) (fault : TypeFault) (span : Span) :
    Tracks f (if b then (Lowering.fail fault span : Lowering PUnit) >>= fun _ => x else x)
      (if c then (Lowering.fail fault span : Lowering PUnit) >>= fun _ => y else y) := by
  subst hbc
  cases c with
  | true => exact fun d d' => .inr ⟨⟨_, rfl⟩, ⟨_, rfl⟩⟩
  | false => exact h

/-! ## Type expressions -/

/-- What a name means: a parameter as a variable, and as the type that is put in its place; anything else the same, over
variables that are not replaced. -/
inductive Instantiates (s : Substitution) (n : Nat) : Option TypeMeaning → Option TypeMeaning → Prop
  | unknown : Instantiates s n none none
  | parameter {v : TypeVariable} {a : Ty} (h : s.get? v = some a) :
      Instantiates s n (some (.variable v)) (some (.alias [] a))
  | other {meaning : TypeMeaning} (h : MeaningHas Ty.Settled n meaning) :
      Instantiates s n (some meaning) (some meaning)

section

variable (hs : ∀ v, v.id < n → s.get? v = none)
  (hscopes : ∀ name, Instantiates s n (inner.type? name) (outer.type? name))
include hs hscopes

theorem tracks_resolveType (name : String) (arguments : List Ty) (span : Span) :
    Tracks s.replace (resolveType inner name arguments span) (resolveType outer name (arguments.map s.replace) span) := by
  have hname := hscopes name
  unfold resolveType
  generalize inner.type? name = meaning, outer.type? name = meaning' at hname ⊢
  cases hname with
  | unknown => exact .fail _ _ _ _
  | @parameter v a hget =>
      cases arguments with
      | nil =>
          have ha : s.replace (.var v) = a := by rw [Substitution.replace, hget, Option.getD_some]
          subst ha
          exact .pure (Ty.var v)
      | cons b rest => exact .fail _ _ _ _
  | @other meaning hmeaning =>
      match meaning, hmeaning with
      | .variable v, hmeaning =>
          cases arguments with
          | nil =>
              have hv : s.replace (.var v) = .var v := by
                rw [Substitution.replace, hs v hmeaning, Option.getD_none]
              have hpure : Tracks s.replace (pure (Ty.var v)) (pure (s.replace (.var v))) := .pure _
              rwa [hv] at hpure
          | cons b rest => exact .fail _ _ _ _
      | .constructor c, _ =>
          match arguments with
          | [] => exact .fail _ _ _ _
          | [element] =>
              cases c with
              | list => exact .pure (Ty.list element)
              | sequence => exact .pure (Ty.sequence element)
          | _ :: _ :: _ => exact .fail _ _ _ _
      | .alias ps target, hmeaning =>
          simp only [List.length_map]
          split
          · rw [← Substitution.replace_apply_ofList hs hmeaning]
            exact .pure _
          · exact .fail _ _ _ _

set_option linter.unusedSectionVars false in
mutual

/-- A definition without function types with type parameters, lowered for the variables and for the types in their
place. -/
theorem tracks_lowerType : ∀ {t : TypeExpr}, t.isMonomorphic = true →
    Tracks s.replace (lowerType inner t) (lowerType outer t)
  | .named site name arguments, h =>
      (tracks_lowerTypes h).bind fun types => tracks_resolveType hs hscopes name types site.span
  | .object site _, h => (tracks_lowerTypeFields h site.span []).bind fun fields => .pure (Ty.object fields)
  | .function site names ps result, h => by
      simp only [TypeExpr.isMonomorphic, Bool.and_eq_true, List.isEmpty_iff] at h
      obtain ⟨⟨rfl, hps⟩, hresult⟩ := h
      have hrun : ∀ scope, lowerType scope (.function site [] ps result) = (do
          let parameters ← lowerParameters scope ps
          pure (.function [] parameters (← lowerType scope result))) := fun _ => rfl
      rw [hrun, hrun]
      exact (tracks_lowerParameters hps).bind fun parameters =>
        (tracks_lowerType hresult).bind fun a => .pure (Ty.function [] parameters a)
  | .nullable _ t, h => by
      refine (tracks_lowerType (t := t) h).bind fun a => ?_
      rw [← s.replace_orNull]
      exact .pure a.orNull
termination_by structural t => t

theorem tracks_lowerTypes : ∀ {ts : List TypeExpr}, TypeExpr.areMonomorphic ts = true →
    Tracks (List.map s.replace) (lowerTypes inner ts) (lowerTypes outer ts)
  | [], _ => .pure []
  | t :: rest, h => by
      obtain ⟨ht, hrest⟩ := Bool.and_eq_true_iff.mp h
      exact (tracks_lowerType ht).bind fun type =>
        (tracks_lowerTypes hrest).bind fun types => .pure (type :: types)
termination_by structural ts => ts

theorem tracks_lowerTypeFields : ∀ {fields : List (String × TypeExpr)}, TypeExpr.fieldsAreMonomorphic fields = true →
    ∀ (span : Span) (done : Fields Ty), Tracks s.replaceFields (lowerTypeFields inner span done fields)
      (lowerTypeFields outer span (s.replaceFields done) fields)
  | [], _, _, done => .pure done
  | (name, t) :: rest, h, span, done => by
      obtain ⟨ht, hrest⟩ := Bool.and_eq_true_iff.mp h
      refine (tracks_lowerType ht).bind fun type => .check (s.contains_replaceFields name done) ?_ _ _
      rw [s.insert_replaceFields]
      exact tracks_lowerTypeFields hrest span _
termination_by structural fields => fields

theorem tracks_lowerParameters : ∀ {ps : ParameterList (Parameter TypeExpr)},
    TypeExpr.parametersAreMonomorphic ps = true →
    Tracks s.replaceParameters (lowerParameters inner ps) (lowerParameters outer ps)
  | .fixed _, h => (tracks_lowerEachParameter h).bind fun ps => .pure (ParameterList.fixed ps)
  | .variadic ⟨name, t, _⟩, h =>
      (tracks_lowerType (t := t) h).bind fun a => .pure (ParameterList.variadic (name.value, a))
termination_by structural ps => ps

theorem tracks_lowerEachParameter : ∀ {ps : List (Parameter TypeExpr)}, TypeExpr.eachIsMonomorphic ps = true →
    Tracks s.replaceFields (lowerEachParameter inner ps) (lowerEachParameter outer ps)
  | [], _ => .pure []
  | ⟨name, t, _⟩ :: rest, h => by
      obtain ⟨ht, hrest⟩ := Bool.and_eq_true_iff.mp h
      exact (tracks_lowerType ht).bind fun type =>
        (tracks_lowerEachParameter hrest).bind fun ps => .pure ((name.value, type) :: ps)
termination_by structural ps => ps

end

theorem tracks_lowerAlternatives {alternatives : List Alternative}
    (h : alternatives.all (·.payload.isMonomorphic) = true) (union : String) (done : Fields Ty) :
    Tracks s.replaceFields (lowerAlternatives inner union done alternatives)
      (lowerAlternatives outer union (s.replaceFields done) alternatives) := by
  induction alternatives generalizing done with
  | nil => exact .pure done
  | cons alternative rest ih =>
      obtain ⟨tag, payload, span⟩ := alternative
      rw [List.all_cons, Bool.and_eq_true] at h
      refine (tracks_lowerType hs hscopes h.1).bind fun type => .check (s.contains_replaceFields tag done) ?_ _ _
      rw [s.insert_replaceFields]
      exact ih h.2 _

theorem tracks_lower {definition : TypeDefinition} (h : definition.isMonomorphic = true) (name : String) :
    Tracks s.replace (definition.lower inner name) (definition.lower outer name) := by
  match definition, h with
  | .alias target, h => exact tracks_lowerType hs hscopes h
  | .union alternatives, h => 
      exact (tracks_lowerAlternatives hs hscopes h name []).bind fun fields => .pure (Ty.union fields none)

end

/-! ## Type parameters -/

/-- The variables that are made for type parameters, from the number `next` on. -/
def parameterVariables (next : Nat) : Generics → List TypeVariable
  | [] => []
  | g :: rest => ⟨g.value, next⟩ :: parameterVariables (next + 1) rest

theorem length_parameterVariables (next : Nat) (names : Generics) :
    (parameterVariables next names).length = names.length := by
  induction names generalizing next with
  | nil => rfl
  | cons g rest ih => exact congrArg (· + 1) (ih (next + 1))

theorem le_of_mem_parameterVariables {next : Nat} {names : Generics} {v : TypeVariable}
    (h : v ∈ parameterVariables next names) : next ≤ v.id := by
  induction names generalizing next with
  | nil => cases h
  | cons g rest ih =>
      rcases List.mem_cons.mp h with rfl | h
      · exact Nat.le_refl _
      · exact Nat.le_of_succ_le (ih h)

theorem nodup_parameterVariables (next : Nat) (names : Generics) : (parameterVariables next names).Nodup := by
  induction names generalizing next with
  | nil => exact List.nodup_nil
  | cons g rest ih =>
      refine List.nodup_cons.mpr ⟨fun hmem => ?_, ih (next + 1)⟩
      exact Nat.not_succ_le_self next (le_of_mem_parameterVariables hmem)

theorem run_lowerGenericsFrom {names : Generics} (hnames : (names.map (·.value)).Nodup) {earlier : List TypeVariable}
    (hearlier : ∀ w ∈ earlier, ∀ g ∈ names, w.name ≠ g.value) (scope : Scope) (d : Draft) :
    (lowerGenericsFrom earlier scope names).run d =
      .ok ((earlier ++ parameterVariables d.nextVariable names,
        scope.withVariables (parameterVariables d.nextVariable names)),
        { d with nextVariable := d.nextVariable + names.length }) := by
  induction names generalizing earlier scope d with
  | nil =>
      rw [parameterVariables, List.append_nil]
      rfl
  | cons g rest ih =>
      obtain ⟨hnot, hrest⟩ := List.nodup_cons.mp hnames
      have hfresh : ¬earlier.any (·.name == g.value) = true := by
        simpa using fun w hw => hearlier w hw g List.mem_cons_self
      have hearlier' : ∀ w ∈ earlier ++ [⟨g.value, d.nextVariable⟩], ∀ g' ∈ rest, w.name ≠ g'.value := by
        intro w hw g' hg'
        rcases List.mem_append.mp hw with hw | hw
        · exact hearlier w hw g' (List.mem_cons_of_mem g hg')
        · obtain rfl := List.mem_singleton.mp hw
          exact fun heq => hnot (List.mem_map.mpr ⟨g', hg', heq.symm⟩)
      rw [lowerGenericsFrom, run_check_eq_ok, run_bind_eq_ok]
      refine ⟨hfresh, _, _, run_freshVariable_eq_ok.mpr rfl, ?_⟩
      rw [ih hrest hearlier', parameterVariables, List.append_assoc, List.length_cons, Nat.add_right_comm]
      rfl

theorem run_lowerGenerics {names : Generics} (hnames : (names.map (·.value)).Nodup) (scope : Scope) (d : Draft) :
    (lowerGenerics scope names).run d = .ok ((parameterVariables d.nextVariable names,
      scope.withVariables (parameterVariables d.nextVariable names)),
      { d with nextVariable := d.nextVariable + names.length }) :=
  run_lowerGenericsFrom hnames (List.forall_mem_nil _) scope d

/-- Parameters as variables on the one side, as the types in their place on the other. -/
theorem instantiates_parameters {names : Generics} {arguments : List Ty} (hlength : arguments.length = names.length)
    {next : Nat} (hget : ∀ pair ∈ (parameterVariables next names).zip arguments, s.get? pair.1 = some pair.2)
    (h : ∀ name, Instantiates s n (inner.type? name) (outer.type? name)) (name : String) :
    Instantiates s n ((inner.withVariables (parameterVariables next names)).type? name)
      ((outer.withAliases (names.map (·.value)) arguments).type? name) := by
  induction names generalizing arguments next inner outer with
  | nil => exact h name
  | cons g rest ih =>
      cases arguments with
      | nil => cases hlength
      | cons a arguments =>
          obtain ⟨hfirst, hrest⟩ := List.forall_mem_cons.mp hget
          refine ih (Nat.succ.inj hlength) hrest fun other => ?_
          rw [type?_withType, type?_withType]
          split
          · exact .parameter hfirst
          · exact h other

/-- The variables that are made for parameters are the only ones that are replaced. -/
theorem get?_parameters_eq_none {next : Nat} (names : Generics) (arguments : List Ty) (v : TypeVariable) (hv : v.id < next) :
    (Substitution.ofList ((parameterVariables next names).zip arguments)).get? v = none := by
  rw [Option.eq_none_iff_forall_ne_some]
  intro a hget
  have hmem := (List.of_mem_zip (Substitution.mem_of_get?_ofList hget)).1
  exact Nat.not_lt.mpr (le_of_mem_parameterVariables hmem) hv

/-- The scope of a definition, with variables for its parameters and with types in their place. -/
theorem instantiates_generics {scope : Scope} {names : Generics} {arguments : List Ty}
    (hscope : ScopeHas Ty.Settled n scope) (hlength : arguments.length = names.length) (name : String) :
    Instantiates (.ofList ((parameterVariables n names).zip arguments)) n
      ((scope.withVariables (parameterVariables n names)).type? name)
      ((scope.withAliases (names.map (·.value)) arguments).type? name) := by
  have hzip : ((parameterVariables n names).zip arguments).map Prod.fst = parameterVariables n names :=
    List.map_fst_zip (Nat.le_of_eq ((length_parameterVariables n names).trans hlength.symm))
  refine instantiates_parameters hlength (fun pair => Substitution.get?_ofList_of_mem ?_) (fun other => ?_) name
  · rw [hzip]
    exact nodup_parameterVariables n names
  · cases hother : scope.type? other with
    | none => exact .unknown
    | some meaning => exact .other (hscope other meaning hother)

/-! ## Generic types -/

theorem lowerDeclaration_definition (scope : Scope) (span : Span) (name : Spanned String) (generics : Generics)
    (definition : TypeDefinition) :
    lowerDeclaration scope (definition.declaration span name generics) = (do
      let (vs, inner) ← lowerGenerics scope generics
      let target ← definition.lower inner name.value
      pure (none, scope.withType name.value (.alias vs target))) := by
  match definition with
  | .alias target => simp only [TypeDefinition.declaration, TypeDefinition.lower, lowerDeclaration]
  | .union alternatives =>
      simp only [TypeDefinition.declaration, TypeDefinition.lower, lowerDeclaration, bind_assoc, pure_bind]

/-- A declaration of a type succeeds as lowering its definition does. -/
theorem run_lowerDeclaration_definition_eq_ok {scope : Scope} {generics : Generics}
    (hnames : (generics.map (·.value)).Nodup) {span : Span} {name : Spanned String} {definition : TypeDefinition}
    {r : (Option BindingId × Scope) × Draft} :
    (lowerDeclaration scope (definition.declaration span name generics)).run d = .ok r ↔
      ∃ target d', (definition.lower (scope.withVariables (parameterVariables d.nextVariable generics)) name.value).run
          { d with nextVariable := d.nextVariable + generics.length } = .ok (target, d') ∧
        r = ((none, scope.withType name.value (.alias (parameterVariables d.nextVariable generics) target)), d') := by
  rw [lowerDeclaration_definition, run_bind_eq_ok]
  simp only [run_lowerGenerics hnames, Except.ok.injEq]
  constructor
  · rintro ⟨_, _, heq, h⟩
    cases heq
    obtain ⟨target, d', htarget, h⟩ := run_bind_eq_ok.mp h
    exact ⟨target, d', htarget, run_pure_eq_ok.mp h⟩
  · rintro ⟨target, d', htarget, rfl⟩
    exact ⟨_, _, rfl, run_bind_eq_ok.mpr ⟨target, d', htarget, run_pure_eq_ok.mpr rfl⟩⟩

theorem settled_lower {definition : TypeDefinition} {scope : Scope} {name : String} {type : Ty}
    (hscope : ScopeHas Ty.Settled d.nextVariable scope)
    (h : (definition.lower scope name).run d = .ok (type, d')) : type.Settled d'.nextVariable := by
  match definition, h with
  | .alias target, h => exact (kept_settled.lowerType hscope h).2
  | .union alternatives, h =>
      simp only [TypeDefinition.lower, run_bind_eq_ok, run_pure_eq_ok, Prod.mk.injEq] at h
      obtain ⟨fields, _, hfields, rfl, rfl⟩ := h
      exact kept_settled.union (kept_settled.lowerAlternatives hscope (List.forall_mem_nil _) hfields).2

/-- In every scope that lowering comes to: the type that the name of a generic type stands for with arguments, wherever
the name has the meaning that its declaration gives to it, is the one that the definition is lowered to where the names
of the parameters stand for the arguments. The declaration is refused just where that fails. -/
theorem instantiate_iff {body : Body} {scope : Scope} {span : Span} {name : Spanned String} {generics : Generics}
    {definition : TypeDefinition} {rest : List Declaration}
    (hreached : ComesTo body scope d (definition.declaration span name generics :: rest))
    (hnames : (generics.map (·.value)).Nodup) (hdefinition : definition.isMonomorphic = true) {arguments : List Ty}
    (hlength : arguments.length = generics.length) (type : Ty) (e : Draft) :
    (∃ scope' d', (lowerDeclaration scope (definition.declaration span name generics)).run d = .ok ((none, scope'), d') ∧
      ∀ (use : Scope) (site : Span) (later : Draft), use.type? name.value = scope'.type? name.value →
        (resolveType use name.value arguments site).run later = .ok (type, later)) ↔
    ∃ e', (definition.lower (scope.withAliases (generics.map (·.value)) arguments) name.value).run e = .ok (type, e') := by
  have hscope := hreached.has.2 _ kept_settled
  have hinner := (kept_settled.lowerGenerics hscope (run_lowerGenerics hnames scope d)).2
  have hvs : (parameterVariables d.nextVariable generics).length = arguments.length :=
    (length_parameterVariables _ _).trans hlength.symm
  have htracks := tracks_lower (get?_parameters_eq_none generics arguments) (instantiates_generics hscope hlength)
    hdefinition name.value { d with nextVariable := d.nextVariable + generics.length } e
  simp only [run_lowerDeclaration_definition_eq_ok hnames]
  rcases htracks with ⟨target, htarget, hlowered⟩ | ⟨⟨_, hfault⟩, _, hfault'⟩
  · rw [← Substitution.apply_eq_replace (fun _ => rfl) (settled_lower hinner htarget)] at hlowered
    constructor
    · rintro ⟨scope', d', ⟨target', _, htarget', heq⟩, huse⟩
      cases htarget.symm.trans htarget'
      cases heq
      have hresolve := huse _ span e rfl
      rw [run_resolveType_generic (type?_withType_self _ _ _) hvs] at hresolve
      cases hresolve
      exact ⟨e, hlowered⟩
    · rintro ⟨e', hrun⟩
      cases hlowered.symm.trans hrun
      exact ⟨_, _, ⟨target, _, htarget, rfl⟩, fun use site later huse =>
        run_resolveType_generic (huse.trans (type?_withType_self _ _ _)) hvs⟩
  · constructor
    · rintro ⟨scope', d', ⟨target, _, htarget, -⟩, -⟩
      cases hfault.symm.trans htarget
    · rintro ⟨e', hrun⟩
      cases hfault'.symm.trans hrun

/-- With `type Option[A] = A?` and `type Both[A, B] = {first: Option[A], second: List[B]}`, what becomes of
`type Swapped[A, B] = Both[B, A]` for `Boolean` and `Number?`. -/
theorem instantiate_swapped :
    let named : String → List TypeExpr → TypeExpr := .named default
    let spanned : String → Spanned String := fun name => ⟨name, default⟩
    let generics : Generics := [spanned "A", spanned "B"]
    let optional : Declaration := .alias default (spanned "Option") [spanned "A"] (.nullable default (named "A" []))
    let both : Declaration := .alias default (spanned "Both") generics
      (.object default [("first", named "Option" [named "A" []]), ("second", named "List" [named "B" []])])
    let swapped : TypeDefinition := .alias (named "Both" [named "B" [], named "A" []])
    let declaration := swapped.declaration default (spanned "Swapped") generics
    let arguments : List Ty := [.boolean, .nullable .number]
    ∃ scope d, ComesTo (.mk [optional, both, declaration] (.null default) default) scope d [declaration] ∧
      (generics.map (·.value)).Nodup ∧ swapped.isMonomorphic = true ∧ arguments.length = generics.length ∧
      ∃ scope' d', (lowerDeclaration scope declaration).run d = .ok ((none, scope'), d') ∧
        ∀ (use : Scope) (site : Span) (later : Draft), use.type? "Swapped" = scope'.type? "Swapped" →
          (resolveType use "Swapped" arguments site).run later =
            .ok (.object [("first", .nullable .number), ("second", .list .boolean)], later) := by
  intro named spanned generics optional both swapped declaration arguments
  have hstart := @ComesTo.start (.mk [optional, both, declaration] (.null default) default)
  have hreached := ComesTo.next (ComesTo.next hstart rfl) rfl
  have hnames : (generics.map (·.value)).Nodup := by decide
  refine ⟨_, _, hreached, hnames, rfl, rfl, ?_⟩
  exact (instantiate_iff hreached hnames rfl rfl _ ⟨#[], #[], 0⟩).mpr ⟨_, rfl⟩

end Lowering

end Sable
