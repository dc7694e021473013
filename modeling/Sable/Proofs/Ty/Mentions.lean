import Sable.Proofs.Ty.Inferred

/-! The variables that a type mentions, and what is left of them where types are put in their place.

A call of a generic function is instantiated in full. What is inferred for its variables is made of parts of the types of
the arguments; where these do not mention the variables, neither do the types that are put in for them, and so none of the
variables is left in the parameters or in the result. -/
namespace Sable

namespace Ty

/-! ## Variables -/

mutual

theorem mentions_iff : ∀ {a : Ty} {vs : List TypeVariable}, a.mentions vs = true ↔ ∃ v ∈ vs, a.mentions [v] = true
  | .number, _ | .boolean, _ | .bigInteger, _ | .null, _ => by simp [mentions]
  | .var v, vs => by simp [mentions]
  | .list a, _ | .sequence a, _ | .nullable a, _ | .tagged a _, _ => mentions_iff (a := a)
  | .object _, _ | .union _ _, _ => mentionsFields_iff
  | .function _ ps a, vs => by
      simp only [mentions, Bool.or_eq_true, @mentionsParameters_iff ps vs, @mentions_iff a vs,
        and_or_left, exists_or]

theorem mentionsFields_iff : ∀ {fields : List (String × Ty)} {vs : List TypeVariable},
    mentionsFields vs fields = true ↔ ∃ v ∈ vs, mentionsFields [v] fields = true
  | [], _ => by simp [mentionsFields]
  | (_, a) :: rest, vs => by
      simp only [mentionsFields, Bool.or_eq_true, @mentions_iff a vs, @mentionsFields_iff rest vs,
        and_or_left, exists_or]

theorem mentionsParameters_iff : ∀ {ps : ParameterList (String × Ty)} {vs : List TypeVariable},
    mentionsParameters vs ps = true ↔ ∃ v ∈ vs, mentionsParameters [v] ps = true
  | .fixed _, _ => mentionsFields_iff
  | .variadic (_, a), _ => mentions_iff (a := a)

end

variable {vs : List TypeVariable}

theorem mentionsFields_eq_false_iff {fields : List (String × Ty)} :
    mentionsFields vs fields = false ↔ ∀ field ∈ fields, field.2.mentions vs = false := by
  induction fields with
  | nil => simp [mentionsFields]
  | cons field rest ih => simp [mentionsFields, ih]

theorem mentionsParameters_eq_false_iff {ps : Parameters} :
    mentionsParameters vs ps = false ↔ ∀ q ∈ ps.toList, q.2.mentions vs = false := by
  cases ps with
  | fixed ps => exact mentionsFields_eq_false_iff
  | variadic q => simp [mentionsParameters, ParameterList.toList]

@[simp] theorem mentions_orNull (a : Ty) : a.orNull.mentions vs = a.mentions vs := by cases a <;> rfl

@[simp] theorem mentions_widened (a : Ty) : a.widened.mentions vs = a.mentions vs := by cases a <;> rfl

/-- The parts of a type mention no variables that the type does not mention. -/
theorem hereditary_mentions (vs : List TypeVariable) : Hereditary fun a => a.mentions vs = false where
  widened h := by rwa [mentions_widened]
  list h := h
  sequence h := h
  nullable h := h
  tagged h := h
  object h := mentionsFields_eq_false_iff.mp h
  union h := mentionsFields_eq_false_iff.mp h
  parameter h := mentionsParameters_eq_false_iff.mp (Bool.or_eq_false_iff.mp h).1
  result h := (Bool.or_eq_false_iff.mp h).2

/-! ## Parts -/

/-- The first type is the second one, or a part of one of those that it is built from. -/
inductive IsPart : Ty → Ty → Prop
  | refl (a : Ty) : IsPart a a
  | list {a b : Ty} (h : IsPart a b) : IsPart a (list b)
  | sequence {a b : Ty} (h : IsPart a b) : IsPart a (sequence b)
  | nullable {a b : Ty} (h : IsPart a b) : IsPart a (nullable b)
  | tagged {a b : Ty} {tag : String} (h : IsPart a b) : IsPart a (tagged b tag)
  | object {a : Ty} {fields : Fields Ty} {field : String × Ty} (hfield : field ∈ fields) (h : IsPart a field.2) :
      IsPart a (object fields)
  | union {a : Ty} {alternatives : Fields Ty} {narrowed : Option String} {field : String × Ty}
      (hfield : field ∈ alternatives) (h : IsPart a field.2) : IsPart a (union alternatives narrowed)
  | parameter {a b : Ty} {vs : List TypeVariable} {ps : Parameters} {q : String × Ty} (hq : q ∈ ps.toList)
      (h : IsPart a q.2) : IsPart a (function vs ps b)
  | result {a b : Ty} {vs : List TypeVariable} {ps : Parameters} (h : IsPart a b) : IsPart a (function vs ps b)

theorem IsPart.trans {a b c : Ty} (h : a.IsPart b) (h' : b.IsPart c) : a.IsPart c := by
  induction h' with
  | refl => exact h
  | list _ ih => exact .list ih
  | sequence _ ih => exact .sequence ih
  | nullable _ ih => exact .nullable ih
  | tagged _ ih => exact .tagged ih
  | object hfield _ ih => exact .object hfield ih
  | union hfield _ ih => exact .union hfield ih
  | parameter hq _ ih => exact .parameter hq ih
  | result _ ih => exact .result ih

/-- A part of one of the types, up to what is known of the alternative that it holds. -/
def IsPartOfAny (types : List Ty) (a : Ty) : Prop := ∃ type ∈ types, ∃ b : Ty, b.IsPart type ∧ a.widened = b.widened

theorem IsPartOfAny.part {types : List Ty} {a b : Ty} (h : IsPartOfAny types a)
    (hpart : ∀ c : Ty, a.widened = c.widened → b.IsPart c) : IsPartOfAny types b := by
  obtain ⟨type, htype, c, hc, heq⟩ := h
  exact ⟨type, htype, b, (hpart c heq).trans hc, rfl⟩

/-- Only a union is another type when it is widened. -/
theorem hereditary_isPartOfAny (types : List Ty) : Hereditary (IsPartOfAny types) where
  widened := by
    rintro a ⟨type, htype, b, hb, heq⟩
    refine ⟨type, htype, b, hb, ?_⟩
    rw [← heq]
    cases a <;> rfl
  list h := h.part fun c heq => by
    cases c <;> cases heq
    exact .list (.refl _)
  sequence h := h.part fun c heq => by
    cases c <;> cases heq
    exact .sequence (.refl _)
  nullable h := h.part fun c heq => by
    cases c <;> cases heq
    exact .nullable (.refl _)
  tagged h := h.part fun c heq => by
    cases c <;> cases heq
    exact .tagged (.refl _)
  object h _ hfield := h.part fun c heq => by
    cases c <;> cases heq
    exact .object hfield (.refl _)
  union h _ hfield := h.part fun c heq => by
    cases c <;> cases heq
    exact .union hfield (.refl _)
  parameter h _ hq := h.part fun c heq => by
    cases c <;> cases heq
    exact .parameter hq (.refl _)
  result h := h.part fun c heq => by
    cases c <;> cases heq
    exact .result (.refl _)

end Ty

namespace Substitution

variable {vs : List TypeVariable} {s : Substitution}

/-! ## Substitution -/

/-- The empty substitution has a type for every variable only where there is none. -/
theorem eq_nil_of_isEmpty (hvs : ∀ v ∈ vs, s.get? v ≠ none) (hempty : s.isEmpty = true) : vs = [] := by
  rw [List.eq_nil_iff_forall_not_mem]
  intro v hv
  refine hvs v hv ?_
  rw [get?, List.isEmpty_iff.mp hempty, find?]

section

variable (himage : ∀ v a, s.get? v = some a → a.mentions vs = false) (hvs : ∀ v ∈ vs, s.get? v ≠ none)
include himage hvs

set_option linter.unusedSectionVars false in
mutual

/-- Variables that are all replaced, by types that do not mention them, are no longer mentioned. -/
theorem mentions_replace : ∀ a : Ty, (s.replace a).mentions vs = false
  | .number | .boolean | .bigInteger | .null => rfl
  | .var v => by
      rw [replace]
      cases hget : s.get? v with
      | none => simpa [Ty.mentions] using fun hv => hvs v hv hget
      | some a => exact himage v a hget
  | .list a | .sequence a | .tagged a _ => mentions_replace a
  | .nullable a => by rw [replace, Ty.mentions_orNull, mentions_replace a]
  | .object fields | .union fields _ => mentionsFields_replace fields
  | .function _ ps a => by
      simp only [replace, Ty.mentions, mentionsParameters_replace ps, mentions_replace a, Bool.or_false]

theorem mentionsFields_replace : ∀ fields : List (String × Ty), Ty.mentionsFields vs (s.replaceFields fields) = false
  | [] => rfl
  | (_, a) :: rest => by
      simp only [replaceFields, Ty.mentionsFields, mentions_replace a, mentionsFields_replace rest, Bool.or_false]

theorem mentionsParameters_replace : ∀ ps : ParameterList (String × Ty),
    Ty.mentionsParameters vs (s.replaceParameters ps) = false
  | .fixed ps => mentionsFields_replace ps
  | .variadic (_, a) => mentions_replace a

end

theorem mentions_apply (a : Ty) : (s.apply a).mentions vs = false := by
  unfold apply
  split
  · rename_i hempty
    rw [eq_nil_of_isEmpty hvs hempty, Bool.eq_false_iff]
    exact fun h => by simpa using Ty.mentions_iff.mp h
  · exact mentions_replace himage hvs a

theorem mentionsParameters_apply (ps : Parameters) : Ty.mentionsParameters vs (s.applyParameters ps) = false := by
  unfold applyParameters
  split
  · rename_i hempty
    rw [eq_nil_of_isEmpty hvs hempty, Bool.eq_false_iff]
    exact fun h => by simpa using Ty.mentionsParameters_iff.mp h
  · exact mentionsParameters_replace himage hvs ps

end

/-! ## Inference -/

/-- What is inferred is defined on exactly the variables, and made of parts of the types of the arguments. Where those do
not mention the variables, none of them is left in the parameters or in the result. -/
theorem infer_instantiates [EntryOrder] {declared : Parameters} {actual : List Ty} (result : Ty)
    (hactual : ∀ type ∈ actual, type.mentions vs = false) (h : infer vs declared actual = .ok s) :
    (∀ v, s.get? v ≠ none ↔ v ∈ vs) ∧
      (∀ v a, s.get? v = some a → ∃ type ∈ actual, ∃ b : Ty, b.IsPart type ∧ a = b.widened) ∧
      Ty.mentionsParameters vs (s.applyParameters declared) = false ∧ (s.apply result).mentions vs = false := by
  have hfound : ∀ v ∈ vs, s.get? v ≠ none := get?_ne_none_of_infer h
  have hmaps := (gathers_maps vs (Ty.IsPartOfAny actual)).infer (Ty.hereditary_isPartOfAny actual)
    (fun type htype => ⟨type, htype, type, .refl type, rfl⟩) h
  have himage : ∀ v a, s.get? v = some a → a.mentions vs = false := fun v a hget =>
    ((maps_of_infer (Ty.hereditary_mentions vs) hactual h).get? hget).2
  refine ⟨fun v => ⟨fun hget => ?_, hfound v⟩, fun v a hget => ?_, mentionsParameters_apply himage hfound declared,
    mentions_apply himage hfound result⟩
  · obtain ⟨a, ha⟩ := Option.ne_none_iff_exists'.mp hget
    exact (hmaps.get? ha).1
  · obtain ⟨-, c, ⟨type, htype, b, hb, heq⟩, rfl⟩ := hmaps.get? hget
    exact ⟨type, htype, b, hb, heq⟩

/-- A function on a narrowed union that gives an optional list, where any number of functions `(x: A) -> B?` is taken. -/
theorem infer_instantiates_narrowed :
    let a : TypeVariable := ⟨"A", 0⟩
    let b : TypeVariable := ⟨"B", 1⟩
    let shape : Option String → Ty := .union [("Dot", .null), ("Square", .number)]
    let declared : Parameters := .variadic ("f", .function [] (.fixed [("x", .var a)]) (.nullable (.var b)))
    let actual : List Ty := [.function [] (.fixed [("y", shape (some "Dot"))]) (.nullable (.list .boolean))]
    let s : Substitution := ⟨[(a, shape none), (b, .list .boolean)]⟩
    (∀ type ∈ actual, type.mentions [a, b] = false) ∧ infer [a, b] declared actual = .ok s ∧
      Ty.mentionsParameters [a, b] (s.applyParameters declared) = false := by
  intro a b shape declared actual s
  have hactual : ∀ type ∈ actual, type.mentions [a, b] = false := List.forall_mem_singleton.mpr rfl
  have hinfer : infer [a, b] declared actual = .ok s := rfl
  exact ⟨hactual, hinfer, (infer_instantiates (.list (.var b)) hactual hinfer).2.2.1⟩

end Substitution

end Sable
