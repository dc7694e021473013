import Sable.Proofs.Fields
import Sable.Ty

/-! Properties that hold of every type within a type. -/
namespace Sable.Ty

mutual

/-- Whether `p` holds of the type and of all types that it is built from. -/
def every (p : Ty → Bool) : Ty → Bool
  | list a => p (list a) && a.every p
  | sequence a => p (sequence a) && a.every p
  | nullable a => p (nullable a) && a.every p
  | tagged a tag => p (tagged a tag) && a.every p
  | object fields => p (object fields) && everyField p fields
  | union fields narrowed => p (union fields narrowed) && everyField p fields
  | function vs ps result => p (function vs ps result) && everyParameter p ps && result.every p
  | a => p a
termination_by structural a => a

def everyField (p : Ty → Bool) : List (String × Ty) → Bool
  | [] => true
  | (_, a) :: rest => a.every p && everyField p rest
termination_by structural fields => fields

def everyParameter (p : Ty → Bool) : ParameterList (String × Ty) → Bool
  | .fixed ps => everyField p ps
  | .variadic (_, a) => a.every p
termination_by structural ps => ps

end

variable {p : Ty → Bool}

theorem every_root {a : Ty} (h : a.every p = true) : p a = true := by
  cases a <;> simp [every] at h <;> first | exact h.1.1 | exact h.1 | exact h

theorem everyField_iff {fields : List (String × Ty)} :
    everyField p fields = true ↔ ∀ field ∈ fields, field.2.every p = true := by
  induction fields with
  | nil => simp [everyField]
  | cons field rest ih => simp [everyField, ih]

theorem everyParameter_iff {ps : Parameters} : everyParameter p ps = true ↔ ∀ q ∈ ps.toList, q.2.every p = true := by
  cases ps with
  | fixed ps => exact everyField_iff
  | variadic q => exact ⟨fun h => List.forall_mem_singleton.mpr h, fun h => h q List.mem_cons_self⟩

theorem every_of_field {fields : Fields Ty} {name : String} {a : Ty}
    (h : everyField p fields = true) (hget : Fields.get? name fields = some a) : a.every p = true :=
  everyField_iff.mp h (name, a) (Fields.mem_of_get? hget)

theorem every_of_parameter {ps : Parameters} {i : Nat} {q : String × Ty}
    (h : everyParameter p ps = true) (hget : ps.get? i = some q) : q.2.every p = true := by
  match ps with
  | .fixed ps => exact everyField_iff.mp h q (List.mem_of_getElem? hget)
  | .variadic q' =>
      obtain rfl := Option.some.inj hget
      exact h

mutual

theorem every_mono {q : Ty → Bool} (h : ∀ a, p a = true → q a = true) : ∀ {a : Ty}, a.every p = true → a.every q = true
  | number, ha | boolean, ha | bigInteger, ha | null, ha | var _, ha => h _ ha
  | list a, ha | sequence a, ha | nullable a, ha | tagged a _, ha => by
      obtain ⟨hroot, ha⟩ := Bool.and_eq_true_iff.mp ha
      exact Bool.and_eq_true_iff.mpr ⟨h _ hroot, every_mono h ha⟩
  | object fields, ha | union fields _, ha => by
      obtain ⟨hroot, hfields⟩ := Bool.and_eq_true_iff.mp ha
      exact Bool.and_eq_true_iff.mpr ⟨h _ hroot, everyField_mono h hfields⟩
  | function vs ps a, ha => by
      simp only [every, Bool.and_eq_true] at ha ⊢
      exact ⟨⟨h _ ha.1.1, everyParameter_mono h ha.1.2⟩, every_mono h ha.2⟩
termination_by structural a => a

theorem everyField_mono {q : Ty → Bool} (h : ∀ a, p a = true → q a = true) :
    ∀ {fields : List (String × Ty)}, everyField p fields = true → everyField q fields = true
  | [], _ => rfl
  | (_, a) :: rest, hfields => by
      obtain ⟨ha, hrest⟩ := Bool.and_eq_true_iff.mp hfields
      exact Bool.and_eq_true_iff.mpr ⟨every_mono h ha, everyField_mono h hrest⟩
termination_by structural fields => fields

theorem everyParameter_mono {q : Ty → Bool} (h : ∀ a, p a = true → q a = true) :
    ∀ {ps : ParameterList (String × Ty)}, everyParameter p ps = true → everyParameter q ps = true
  | .fixed _, hps => everyField_mono h hps
  | .variadic (_, a), hps => every_mono (a := a) h hps
termination_by structural ps => ps

end

end Sable.Ty
