import Sable.Proofs.Lowering.Program
import Sable.Proofs.Ty.Replaced

/-! What lowering keeps of types.

A property of types that constructors, optional types and substitutions pass on holds of every type that a type expression
is lowered to, if it holds of the types that names stand for. All scopes that lowering comes to have such names only. -/
namespace Sable

namespace Lowering

/-- A property of types over the variables below a number, those that are made. What is put together from types with the
property has it too. -/
structure Kept (P : Nat → Ty → Prop) : Prop where
  later : ∀ {n m : Nat} {a : Ty}, n ≤ m → P n a → P m a
  ground : ∀ a ∈ [Ty.number, Ty.boolean, Ty.bigInteger, Ty.null], P 0 a
  var : ∀ {n : Nat} {v : TypeVariable}, v.id < n → P n (.var v)
  list : ∀ {n : Nat} {a : Ty}, P n a → P n (.list a)
  sequence : ∀ {n : Nat} {a : Ty}, P n a → P n (.sequence a)
  orNull : ∀ {n : Nat} {a : Ty}, P n a → P n a.orNull
  object : ∀ {n : Nat} {fields : Fields Ty}, (∀ field ∈ fields, P n field.2) → P n (.object fields)
  union : ∀ {n : Nat} {fields : Fields Ty}, (∀ field ∈ fields, P n field.2) → P n (.union fields none)
  function : ∀ {n : Nat} {vs : List TypeVariable} {ps : Parameters} {a : Ty}, (∀ q ∈ ps.toList, P n q.2) → P n a →
    P n (.function vs ps a)
  apply : ∀ {n : Nat} {s : Substitution} {a : Ty}, (∀ v b, s.get? v = some b → P n b) → P n a → P n (s.apply a)

variable {P : Nat → Ty → Prop} {n m : Nat} {scope : Scope}

/-! ## Scopes -/

/-- The variables that a name may stand for are made, and the types have the property. -/
def MeaningHas (P : Nat → Ty → Prop) (n : Nat) : TypeMeaning → Prop
  | .alias _ target => P n target
  | .variable v => v.id < n
  | .constructor _ => True

/-- Everything that a name of a type may stand for has the property. -/
def ScopeHas (P : Nat → Ty → Prop) (n : Nat) (scope : Scope) : Prop :=
  ∀ name meaning, scope.type? name = some meaning → MeaningHas P n meaning

theorem type?_withType (scope : Scope) (name : String) (meaning : TypeMeaning) (other : String) :
    (scope.withType name meaning).type? other = if name = other then some meaning else scope.type? other := rfl

theorem type?_withType_self (scope : Scope) (name : String) (meaning : TypeMeaning) :
    (scope.withType name meaning).type? name = some meaning := if_pos rfl

theorem type?_bindAll (bindings : Array Binding) (scope : Scope) (ids : List BindingId) (name : String) :
    (bindAll bindings scope ids).type? name = scope.type? name := by
  induction ids generalizing scope with
  | nil => rfl
  | cons id rest ih =>
      rw [bindAll, List.foldl_cons, ← bindAll, ih]
      split <;> rfl

theorem ScopeHas.withType (h : ScopeHas P n scope) (name : String) {meaning : TypeMeaning}
    (hmeaning : MeaningHas P n meaning) : ScopeHas P n (scope.withType name meaning) := by
  intro other found hget
  rw [type?_withType] at hget
  split at hget
  · obtain rfl := Option.some.inj hget
    exact hmeaning
  · exact h other found hget

section

variable (hP : Kept P)
include hP

theorem Kept.meaning_later (hle : n ≤ m) {meaning : TypeMeaning} (h : MeaningHas P n meaning) : MeaningHas P m meaning := by
  match meaning with
  | .alias _ target => exact hP.later hle h
  | .variable v => exact Nat.lt_of_lt_of_le h hle
  | .constructor _ => trivial

theorem Kept.scope_later (hle : n ≤ m) (h : ScopeHas P n scope) : ScopeHas P m scope :=
  fun name meaning hget => hP.meaning_later hle (h name meaning hget)

theorem Kept.root : ScopeHas P 0 .root := by
  intro name meaning hget
  have hmem := mem_of_typeIn hget
  simp only [Scope.root, Scope.empty, Scope.withType, List.mem_cons, Scope.Entry.type.injEq, List.not_mem_nil,
    or_false] at hmem
  rcases hmem with ⟨-, rfl⟩ | ⟨-, rfl⟩ | ⟨-, rfl⟩ | ⟨-, rfl⟩ | ⟨-, rfl⟩ | ⟨-, rfl⟩
  · trivial
  · trivial
  all_goals exact hP.ground _ (by simp)

/-! ## Type expressions -/

theorem Kept.lowerGenericsFrom {names : Generics} {earlier vs : List TypeVariable} {scope inner : Scope} {d d' : Draft}
    (hscope : ScopeHas P d.nextVariable scope)
    (h : (lowerGenericsFrom earlier scope names).run d = .ok ((vs, inner), d')) :
    d.nextVariable ≤ d'.nextVariable ∧ ScopeHas P d'.nextVariable inner := by
  induction names generalizing earlier scope d with
  | nil =>
      simp only [Lowering.lowerGenericsFrom, run_pure_eq_ok, Prod.mk.injEq] at h
      obtain ⟨⟨rfl, rfl⟩, rfl⟩ := h
      exact ⟨Nat.le_refl _, hscope⟩
  | cons g rest ih =>
      simp only [Lowering.lowerGenericsFrom, run_check_eq_ok, run_bind_eq_ok, run_freshVariable_eq_ok,
        Prod.mk.injEq] at h
      obtain ⟨-, v, d₁, ⟨rfl, rfl⟩, h⟩ := h
      have hnew : ScopeHas P (d.nextVariable + 1) (scope.withType g.value (.variable ⟨g.value, d.nextVariable⟩)) :=
        (hP.scope_later (Nat.le_succ _) hscope).withType _ (Nat.lt_succ_self _)
      obtain ⟨hle, hinner⟩ := ih hnew h
      exact ⟨Nat.le_trans (Nat.le_succ _) hle, hinner⟩

theorem Kept.lowerGenerics {names : Generics} {vs : List TypeVariable} {inner : Scope} {d d' : Draft}
    (hscope : ScopeHas P d.nextVariable scope) (h : (lowerGenerics scope names).run d = .ok ((vs, inner), d')) :
    d.nextVariable ≤ d'.nextVariable ∧ ScopeHas P d'.nextVariable inner :=
  hP.lowerGenericsFrom hscope h

theorem Kept.resolveType {name : String} {arguments : List Ty} {span : Span} {d d' : Draft} {type : Ty}
    (hscope : ScopeHas P n scope) (harguments : ∀ a ∈ arguments, P n a)
    (h : (resolveType scope name arguments span).run d = .ok (type, d')) : d' = d ∧ P n type := by
  unfold Lowering.resolveType at h
  split at h
  · exact (run_fail_eq_ok.mp h).elim
  · rename_i v hget
    split at h
    · cases run_pure_eq_ok.mp h
      exact ⟨rfl, hP.var (hscope _ _ hget)⟩
    · exact (run_fail_eq_ok.mp h).elim
  · rename_i c hget
    split at h
    · rename_i element
      cases run_pure_eq_ok.mp h
      have helement : P n element := harguments element List.mem_cons_self
      cases c with
      | list => exact ⟨rfl, hP.list helement⟩
      | sequence => exact ⟨rfl, hP.sequence helement⟩
    · exact (run_fail_eq_ok.mp h).elim
  · rename_i ps target hget
    split at h
    · cases run_pure_eq_ok.mp h
      refine ⟨rfl, hP.apply (fun v b hb => ?_) (hscope _ _ hget)⟩
      exact harguments b (List.of_mem_zip (Substitution.mem_of_get?_ofList hb)).2
    · exact (run_fail_eq_ok.mp h).elim

set_option linter.unusedSectionVars false in
mutual

theorem Kept.lowerType : ∀ {t : TypeExpr} {scope : Scope} {d d' : Draft} {type : Ty},
    ScopeHas P d.nextVariable scope → (lowerType scope t).run d = .ok (type, d') →
    d.nextVariable ≤ d'.nextVariable ∧ P d'.nextVariable type
  | .named _ _ arguments, _, _, _, _, hscope, h => by
      simp only [Lowering.lowerType, run_bind_eq_ok] at h
      obtain ⟨types, d₁, htypes, h⟩ := h
      obtain ⟨hle, htypes⟩ := Kept.lowerTypes hscope htypes
      obtain ⟨rfl, htype⟩ := hP.resolveType (hP.scope_later hle hscope) htypes h
      exact ⟨hle, htype⟩
  | .object _ fields, _, _, _, _, hscope, h => by
      simp only [Lowering.lowerType, run_bind_eq_ok, run_pure_eq_ok, Prod.mk.injEq] at h
      obtain ⟨done, d₁, hfields, rfl, rfl⟩ := h
      obtain ⟨hle, hfields⟩ := Kept.lowerTypeFields hscope (List.forall_mem_nil _) hfields
      exact ⟨hle, hP.object hfields⟩
  | .function _ names ps result, _, _, _, _, hscope, h => by
      simp only [Lowering.lowerType, run_bind_eq_ok, run_pure_eq_ok, Prod.mk.injEq, Prod.exists] at h
      obtain ⟨vs, inner, d₁, hgenerics, parameters, d₂, hps, a, d₃, ha, rfl, rfl⟩ := h
      obtain ⟨hle₁, hinner⟩ := hP.lowerGenerics hscope hgenerics
      obtain ⟨hle₂, hps⟩ := Kept.lowerParameters hinner hps
      obtain ⟨hle₃, ha⟩ := Kept.lowerType (hP.scope_later hle₂ hinner) ha
      exact ⟨Nat.le_trans (Nat.le_trans hle₁ hle₂) hle₃, hP.function (fun q hq => hP.later hle₃ (hps q hq)) ha⟩
  | .nullable _ inner, _, _, _, _, hscope, h => by
      simp only [Lowering.lowerType, run_bind_eq_ok, run_pure_eq_ok, Prod.mk.injEq] at h
      obtain ⟨a, d₁, ha, rfl, rfl⟩ := h
      obtain ⟨hle, ha⟩ := Kept.lowerType hscope ha
      exact ⟨hle, hP.orNull ha⟩
termination_by structural t => t

theorem Kept.lowerTypes : ∀ {ts : List TypeExpr} {scope : Scope} {d d' : Draft} {types : List Ty},
    ScopeHas P d.nextVariable scope → (lowerTypes scope ts).run d = .ok (types, d') →
    d.nextVariable ≤ d'.nextVariable ∧ ∀ type ∈ types, P d'.nextVariable type
  | [], _, _, _, _, _, h => by
      cases run_pure_eq_ok.mp h
      exact ⟨Nat.le_refl _, nofun⟩
  | t :: rest, _, _, _, _, hscope, h => by
      simp only [Lowering.lowerTypes, run_bind_eq_ok, run_pure_eq_ok, Prod.mk.injEq] at h
      obtain ⟨type, d₁, ht, types, d₂, hrest, rfl, rfl⟩ := h
      obtain ⟨hle₁, ht⟩ := Kept.lowerType hscope ht
      obtain ⟨hle₂, hrest⟩ := Kept.lowerTypes (hP.scope_later hle₁ hscope) hrest
      exact ⟨Nat.le_trans hle₁ hle₂, List.forall_mem_cons.mpr ⟨hP.later hle₂ ht, hrest⟩⟩
termination_by structural ts => ts

theorem Kept.lowerTypeFields : ∀ {fields : List (String × TypeExpr)} {scope : Scope} {span : Span}
    {done types : Fields Ty} {d d' : Draft}, ScopeHas P d.nextVariable scope →
    (∀ field ∈ done, P d.nextVariable field.2) →
    (lowerTypeFields scope span done fields).run d = .ok (types, d') →
    d.nextVariable ≤ d'.nextVariable ∧ ∀ field ∈ types, P d'.nextVariable field.2
  | [], _, _, _, _, _, _, _, hdone, h => by
      cases run_pure_eq_ok.mp h
      exact ⟨Nat.le_refl _, hdone⟩
  | (name, t) :: rest, _, _, _, _, _, _, hscope, hdone, h => by
      simp only [Lowering.lowerTypeFields, run_bind_eq_ok, run_check_eq_ok] at h
      obtain ⟨type, d₁, ht, -, h⟩ := h
      obtain ⟨hle₁, ht⟩ := Kept.lowerType hscope ht
      have hinserted := Fields.forall_mem_insert (P _) name (fun field hfield => hP.later hle₁ (hdone field hfield)) ht
      obtain ⟨hle₂, hrest⟩ := Kept.lowerTypeFields (hP.scope_later hle₁ hscope) hinserted h
      exact ⟨Nat.le_trans hle₁ hle₂, hrest⟩
termination_by structural fields => fields

theorem Kept.lowerParameters : ∀ {ps : ParameterList (Parameter TypeExpr)} {scope : Scope} {d d' : Draft}
    {parameters : Parameters}, ScopeHas P d.nextVariable scope →
    (lowerParameters scope ps).run d = .ok (parameters, d') →
    d.nextVariable ≤ d'.nextVariable ∧ ∀ q ∈ parameters.toList, P d'.nextVariable q.2
  | .fixed ps, _, _, _, _, hscope, h => by
      simp only [Lowering.lowerParameters, run_bind_eq_ok, run_pure_eq_ok, Prod.mk.injEq] at h
      obtain ⟨types, d₁, hps, rfl, rfl⟩ := h
      exact Kept.lowerEachParameter hscope hps
  | .variadic ⟨name, t, _⟩, _, _, _, _, hscope, h => by
      simp only [Lowering.lowerParameters, run_bind_eq_ok, run_pure_eq_ok, Prod.mk.injEq] at h
      obtain ⟨type, d₁, ht, rfl, rfl⟩ := h
      obtain ⟨hle, ht⟩ := Kept.lowerType hscope ht
      exact ⟨hle, List.forall_mem_singleton.mpr ht⟩
termination_by structural ps => ps

theorem Kept.lowerEachParameter : ∀ {ps : List (Parameter TypeExpr)} {scope : Scope} {d d' : Draft}
    {types : List (String × Ty)}, ScopeHas P d.nextVariable scope →
    (lowerEachParameter scope ps).run d = .ok (types, d') →
    d.nextVariable ≤ d'.nextVariable ∧ ∀ q ∈ types, P d'.nextVariable q.2
  | [], _, _, _, _, _, h => by
      cases run_pure_eq_ok.mp h
      exact ⟨Nat.le_refl _, nofun⟩
  | ⟨name, t, _⟩ :: rest, _, _, _, _, hscope, h => by
      simp only [Lowering.lowerEachParameter, run_bind_eq_ok, run_pure_eq_ok, Prod.mk.injEq] at h
      obtain ⟨type, d₁, ht, types, d₂, hrest, rfl, rfl⟩ := h
      obtain ⟨hle₁, ht⟩ := Kept.lowerType hscope ht
      obtain ⟨hle₂, hrest⟩ := Kept.lowerEachParameter (hP.scope_later hle₁ hscope) hrest
      exact ⟨Nat.le_trans hle₁ hle₂, List.forall_mem_cons.mpr ⟨hP.later hle₂ ht, hrest⟩⟩
termination_by structural ps => ps

end

theorem Kept.lowerAlternatives {alternatives : List Alternative} {union : String} {done fields : Fields Ty}
    {d d' : Draft} (hscope : ScopeHas P d.nextVariable scope) (hdone : ∀ field ∈ done, P d.nextVariable field.2)
    (h : (lowerAlternatives scope union done alternatives).run d = .ok (fields, d')) :
    d.nextVariable ≤ d'.nextVariable ∧ ∀ field ∈ fields, P d'.nextVariable field.2 := by
  induction alternatives generalizing done d with
  | nil =>
      cases run_pure_eq_ok.mp h
      exact ⟨Nat.le_refl _, hdone⟩
  | cons alternative rest ih =>
      obtain ⟨tag, payload, span⟩ := alternative
      simp only [Lowering.lowerAlternatives, run_bind_eq_ok, run_check_eq_ok] at h
      obtain ⟨type, d₁, ht, -, h⟩ := h
      obtain ⟨hle₁, ht⟩ := hP.lowerType hscope ht
      have hinserted := Fields.forall_mem_insert (P _) tag (fun field hfield => hP.later hle₁ (hdone field hfield)) ht
      obtain ⟨hle₂, hrest⟩ := ih (hP.scope_later hle₁ hscope) hinserted h
      exact ⟨Nat.le_trans hle₁ hle₂, hrest⟩

end

/-! ## Properties of every type within a type -/

/-- Neither a variable nor an optional type, nor a union that is known to hold an alternative. -/
def isOrdinary : Ty → Bool
  | .var _ | .nullable _ | .union _ (some _) => false
  | _ => true

/-- What holds of every type within a type, and asks nothing of ordinary types. -/
theorem kept_every {p : Nat → Ty → Bool} (hstable : ∀ n, Ty.Stable (p n))
    (hlater : ∀ {n m : Nat}, n ≤ m → ∀ a, p n a = true → p m a = true)
    (hvar : ∀ {n : Nat} {v : TypeVariable}, v.id < n → p n (.var v) = true)
    (hroot : ∀ n a, isOrdinary a = true → p n a = true) : Kept fun n a => a.every (p n) = true where
  later hle h := Ty.every_mono (hlater hle) h
  ground a ha := by
    simp only [List.mem_cons, List.not_mem_nil, or_false] at ha
    rcases ha with rfl | rfl | rfl | rfl <;> exact hroot 0 _ rfl
  var h := hvar h
  list h := Bool.and_eq_true_iff.mpr ⟨hroot _ _ rfl, h⟩
  sequence h := Bool.and_eq_true_iff.mpr ⟨hroot _ _ rfl, h⟩
  orNull h := (hstable _).orNull h
  object h := Bool.and_eq_true_iff.mpr ⟨hroot _ _ rfl, Ty.everyField_iff.mpr h⟩
  union h := Bool.and_eq_true_iff.mpr ⟨hroot _ _ rfl, Ty.everyField_iff.mpr h⟩
  function hps h :=
    Bool.and_eq_true_iff.mpr ⟨Bool.and_eq_true_iff.mpr ⟨hroot _ _ rfl, Ty.everyParameter_iff.mpr hps⟩, h⟩
  apply himage h := Substitution.every_apply (hstable _) himage h

end Lowering

end Sable
