import Mathlib.Data.List.Basic
import Sable.Proofs.Evaluation.Rekey
import Sable.Ty.Assignable
import Sable.Ty.Inference

/-! Types with other numbers for their variables.

Variables made after others have higher numbers. That tells no types apart: what is asked of types has the same answer
for raised types, and what is made of them is raised. -/
namespace Sable

variable (k : Nat)

def TypeVariable.raised (v : TypeVariable) : TypeVariable := ⟨v.name, v.id + k⟩

theorem TypeVariable.raised_injective : Function.Injective (raised k) := by
  intro v w h
  obtain ⟨hname, hid⟩ := TypeVariable.mk.inj h
  cases v
  cases w
  simp_all

namespace Ty

mutual

/-- The type with variables whose numbers are higher by `k`. -/
def raised : Ty → Ty
  | number => number
  | boolean => boolean
  | bigInteger => bigInteger
  | null => null
  | list a => list a.raised
  | sequence a => sequence a.raised
  | object fields => object (raisedFields fields)
  | function vs ps result => function (vs.map (.raised k)) (raisedParameters ps) result.raised
  | union alternatives narrowed => union (raisedFields alternatives) narrowed
  | tagged payload tag => tagged payload.raised tag
  | nullable inner => nullable inner.raised
  | var v => var (v.raised k)

def raisedFields : List (String × Ty) → List (String × Ty)
  | [] => []
  | (name, a) :: rest => (name, a.raised) :: raisedFields rest

def raisedParameters : ParameterList (String × Ty) → ParameterList (String × Ty)
  | .fixed ps => .fixed (raisedFields ps)
  | .variadic (name, a) => .variadic (name, a.raised)

end

theorem raisedFields_eq_map (fields : List (String × Ty)) :
    raisedFields k fields = fields.map fun field => (field.1, field.2.raised k) := by
  induction fields with
  | nil => rfl
  | cons field rest ih => rw [raisedFields, ih, List.map_cons]

/-! ## Equality -/

theorem raised_beq_raised (v w : TypeVariable) : (v.raised k == w.raised k) = (v == w) := by
  rw [Bool.eq_iff_iff, beq_iff_eq, beq_iff_eq, (TypeVariable.raised_injective k).eq_iff]

theorem map_raised_beq (vs ws : List TypeVariable) :
    (vs.map (TypeVariable.raised k) == ws.map (TypeVariable.raised k)) = (vs == ws) := by
  rw [Bool.eq_iff_iff, beq_iff_eq, beq_iff_eq]
  exact (List.map_injective_iff.mpr (TypeVariable.raised_injective k)).eq_iff

mutual

theorem same_raised : ∀ a b : Ty, (a.raised k).same (b.raised k) = a.same b
  | .number, b | .boolean, b | .bigInteger, b | .null, b => by cases b <;> rfl
  | .list a, b => by
      cases b with
      | list b => exact same_raised a b
      | _ => rfl
  | .sequence a, b => by
      cases b with
      | sequence b => exact same_raised a b
      | _ => rfl
  | .nullable a, b => by
      cases b with
      | nullable b => exact same_raised a b
      | _ => rfl
  | .object fields, b => by
      cases b with
      | object others => exact sameFields_raised fields others
      | _ => rfl
  | .function vs ps a, b => by
      cases b with
      | function ws qs b =>
          simp only [raised, same, map_raised_beq, sameParameters_raised ps qs, same_raised a b]
      | _ => rfl
  | .union fields narrowed, b => by
      cases b with
      | union others narrowed' => simp only [raised, same, sameFields_raised fields others]
      | _ => rfl
  | .tagged a tag, b => by
      cases b with
      | tagged b tag' => simp only [raised, same, same_raised a b]
      | _ => rfl
  | .var v, b => by
      cases b with
      | var w => exact raised_beq_raised k v w
      | _ => rfl
termination_by structural a => a

theorem sameFields_raised : ∀ fields others : List (String × Ty),
    sameFields (raisedFields k fields) (raisedFields k others) = sameFields fields others
  | [], others => by cases others <;> rfl
  | (name, a) :: rest, others => by
      cases others with
      | nil => rfl
      | cons other rest' =>
          simp only [raisedFields, sameFields, same_raised a other.2, sameFields_raised rest rest']
termination_by structural fields => fields

theorem sameParameters_raised : ∀ ps qs : ParameterList (String × Ty),
    sameParameters (raisedParameters k ps) (raisedParameters k qs) = sameParameters ps qs
  | .fixed ps, qs => by
      cases qs with
      | fixed qs => exact sameTypes_raised ps qs
      | variadic q => rfl
  | .variadic (name, a), qs => by
      cases qs with
      | fixed qs => rfl
      | variadic q => exact same_raised a q.2
termination_by structural ps => ps

theorem sameTypes_raised : ∀ ps qs : List (String × Ty),
    sameTypes (raisedFields k ps) (raisedFields k qs) = sameTypes ps qs
  | [], qs => by cases qs <;> rfl
  | (name, a) :: rest, qs => by
      cases qs with
      | nil => rfl
      | cons q rest' =>
          simp only [raisedFields, sameTypes, same_raised a q.2, sameTypes_raised rest rest']
termination_by structural ps => ps

end

@[simp] theorem raised_beq (a b : Ty) : (a.raised k == b.raised k) = (a == b) := same_raised k a b

/-! ## Size and variables -/

mutual

@[simp] theorem size_raised : ∀ a : Ty, (a.raised k).size = a.size
  | .number | .boolean | .bigInteger | .null | .var _ => rfl
  | .list a | .sequence a | .nullable a | .tagged a _ => congrArg (· + 1) (size_raised a)
  | .object fields | .union fields _ => congrArg (· + 1) (sizeFields_raised fields)
  | .function vs ps result => by
      simp only [raised, size, sizeParameters_raised ps, size_raised result]

theorem sizeFields_raised : ∀ fields : List (String × Ty), sizeFields (raisedFields k fields) = sizeFields fields
  | [] => rfl
  | (name, a) :: rest => by simp only [raisedFields, sizeFields, size_raised a, sizeFields_raised rest]

theorem sizeParameters_raised : ∀ ps : ParameterList (String × Ty),
    sizeParameters (raisedParameters k ps) = sizeParameters ps
  | .fixed ps => sizeFields_raised ps
  | .variadic (_, a) => size_raised a

end

theorem contains_map_raised (vs : List TypeVariable) (v : TypeVariable) :
    (vs.map (.raised k)).contains (v.raised k) = vs.contains v := by
  rw [Bool.eq_iff_iff, List.contains_iff_mem, List.contains_iff_mem, List.mem_map]
  refine ⟨fun ⟨w, hw, heq⟩ => ?_, fun hv => ⟨v, hv, rfl⟩⟩
  exact TypeVariable.raised_injective k heq ▸ hw

mutual

@[simp] theorem mentions_raised (vs : List TypeVariable) : ∀ a : Ty,
    (a.raised k).mentions (vs.map (.raised k)) = a.mentions vs
  | .number | .boolean | .bigInteger | .null => rfl
  | .var v => contains_map_raised k vs v
  | .list a | .sequence a | .nullable a | .tagged a _ => mentions_raised vs a
  | .object fields | .union fields _ => mentionsFields_raised vs fields
  | .function _ ps result => by
      simp only [raised, mentions, mentionsParameters_raised vs ps, mentions_raised vs result]

theorem mentionsFields_raised (vs : List TypeVariable) : ∀ fields : List (String × Ty),
    mentionsFields (vs.map (.raised k)) (raisedFields k fields) = mentionsFields vs fields
  | [] => rfl
  | (name, a) :: rest => by
      simp only [raisedFields, mentionsFields, mentions_raised vs a, mentionsFields_raised vs rest]

theorem mentionsParameters_raised (vs : List TypeVariable) : ∀ ps : ParameterList (String × Ty),
    mentionsParameters (vs.map (.raised k)) (raisedParameters k ps) = mentionsParameters vs ps
  | .fixed ps => mentionsFields_raised vs ps
  | .variadic (_, a) => mentions_raised vs a

end

/-! ## Text -/

mutual

/-- Numbers of variables are not shown. -/
theorem text_raised : ∀ a : Ty, (a.raised k).text = a.text
  | .number | .boolean | .bigInteger | .null | .var _ => rfl
  | .list a | .sequence a | .tagged a _ => by simp only [raised, text, text_raised a]
  | .object fields | .union fields _ => by simp only [raised, text, fieldTexts_raised fields]
  | .function vs ps result => by
      simp only [raised, text, parametersText_raised ps, text_raised result, List.isEmpty_map, List.map_map]
      rfl
  | .nullable a => by
      have h := text_raised a
      cases a <;> simp only [raised, text] at h ⊢ <;> rw [h]

theorem fieldTexts_raised : ∀ fields : List (String × Ty), fieldTexts (raisedFields k fields) = fieldTexts fields
  | [] => rfl
  | (name, a) :: rest => by simp only [raisedFields, fieldTexts, text_raised a, fieldTexts_raised rest]

theorem parametersText_raised : ∀ ps : ParameterList (String × Ty),
    parametersText (raisedParameters k ps) = parametersText ps
  | .fixed ps => by simp only [raisedParameters, parametersText, fieldTexts_raised ps]
  | .variadic (name, a) => by simp only [raisedParameters, parametersText, text_raised a]

end

/-! ## Optional types and unions -/

theorem orNull_raised (a : Ty) : (a.raised k).orNull = a.orNull.raised k := by cases a <;> rfl

theorem withoutNull_raised (a : Ty) : (a.raised k).withoutNull = a.withoutNull.raised k := by cases a <;> rfl

theorem widened_raised (a : Ty) : (a.raised k).widened = a.widened.raised k := by cases a <;> rfl

theorem get?_raisedFields (name : String) (fields : Fields Ty) :
    Fields.get? name (raisedFields k fields) = (Fields.get? name fields).map (raised k) := by
  rw [raisedFields_eq_map, Fields.get?_map]

theorem contains_raisedFields (name : String) (fields : Fields Ty) :
    Fields.contains name (raisedFields k fields) = Fields.contains name fields := by
  rw [Fields.contains, get?_raisedFields, Option.isSome_map, Fields.contains]

theorem insert_raisedFields (name : String) (a : Ty) (fields : Fields Ty) :
    Fields.insert name (a.raised k) (raisedFields k fields) = raisedFields k (Fields.insert name a fields) := by
  rw [raisedFields_eq_map, raisedFields_eq_map, Fields.insert_map]

theorem names_raisedFields (fields : Fields Ty) : Fields.names (raisedFields k fields) = Fields.names fields := by
  rw [raisedFields_eq_map, Fields.names, List.map_map]
  rfl

theorem narrow?_raised (tag : String) (a : Ty) : (a.raised k).narrow? tag = (a.narrow? tag).map (raised k) := by
  cases a with
  | union alternatives narrowed =>
      simp only [raised, narrow?, contains_raisedFields]
      split <;> rfl
  | _ => rfl

namespace TagView

def raised (view : TagView) : TagView :=
  ⟨raisedFields k view.alternatives, view.pinned.map fun pinned => (pinned.1, pinned.2.raised k)⟩

theorem payload?_raised (view : TagView) (tag : String) :
    (view.raised k).payload? tag = (view.payload? tag).map (Ty.raised k) := get?_raisedFields k tag _

theorem hasTag_raised (view : TagView) (tag : String) : (view.raised k).hasTag tag = view.hasTag tag := by
  rw [hasTag, payload?_raised, Option.isSome_map, hasTag]

theorem required_raised (view : TagView) : (view.raised k).required = view.required := by
  obtain ⟨alternatives, pinned⟩ := view
  cases pinned with
  | none => exact names_raisedFields k alternatives
  | some pinned => rfl

end TagView

theorem tagView?_raised (a : Ty) : (a.raised k).tagView? = a.tagView?.map (.raised k) := by
  cases a with
  | union alternatives narrowed =>
      cases narrowed with
      | none => rfl
      | some tag =>
          simp only [raised, tagView?, Option.bind_some, get?_raisedFields, Option.map_some, TagView.raised,
            Option.map_map]
          rfl
  | _ => rfl

end Ty

end Sable
