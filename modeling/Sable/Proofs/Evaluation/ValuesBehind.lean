import Sable.Proofs.Evaluation.Resolved
import Sable.Proofs.Evaluation.Rekey
import Sable.Proofs.Program.Behind

/-! Values of programs behind declarations: functions have other numbers in their bodies and environments, and at the
end of every environment there are the functions declared in front. No operator can tell. -/
namespace Sable

/-- The function that a declaration without a body stands for. -/
def Function.external {κ : Type} (name : String) : Function (Value κ) κ :=
  match Builtin.ofName? name with
  | some b => .builtin b
  | none => .unbound name

namespace Front

variable (f : Front)

/-- What is found in an environment under a declared name. -/
def entry (id : BindingId) : BindingId × Value BindingId :=
  (id, .function (.external ((f.bindings[id]?).elim "" Binding.name)))

/-- The environment that the declarations lead to. -/
def environment : Environment BindingId := (f.declared.map f.entry).reverse

end Front

namespace Value

section

variable (f : Front)

mutual

/-- The value behind declarations. -/
def behind : Value BindingId → Value BindingId
  | number x => number x
  | boolean b => boolean b
  | bigInteger n => bigInteger n
  | null => null
  | list items => list (behindItems items)
  | sequence identity s => sequence identity (behindSequence s)
  | object fields => object (behindFields fields)
  | tagged payload tag => tagged payload.behind tag
  | function g => function (behindFunction g)
termination_by structural a => a

def behindItems : List (Value BindingId) → List (Value BindingId)
  | [] => []
  | a :: rest => a.behind :: behindItems rest
termination_by structural items => items

def behindFields : List (String × Value BindingId) → List (String × Value BindingId)
  | [] => []
  | (name, a) :: rest => (name, a.behind) :: behindFields rest
termination_by structural fields => fields

def behindSequence : Sequence (Value BindingId) → Sequence (Value BindingId)
  | ⟨source, stages⟩ => ⟨behindSource source, behindStages stages⟩
termination_by structural s => s

def behindSource : Sequence.Source (Value BindingId) → Sequence.Source (Value BindingId)
  | .range next stop => .range next stop
  | .items items => .items (behindItems items)
termination_by structural source => source

def behindStages : List (Sequence.Stage (Value BindingId)) → List (Sequence.Stage (Value BindingId))
  | [] => []
  | stage :: rest => behindStage stage :: behindStages rest
termination_by structural stages => stages

def behindStage : Sequence.Stage (Value BindingId) → Sequence.Stage (Value BindingId)
  | .filter predicate => .filter predicate.behind
  | .map g => .map g.behind
termination_by structural stage => stage

def behindFunction : Function (Value BindingId) BindingId → Function (Value BindingId) BindingId
  | .closure identity c => .closure identity (behindClosure c)
  | .builtin b => .builtin b
  | .unbound name => .unbound name
termination_by structural g => g

def behindClosure : Closure (Value BindingId) BindingId → Closure (Value BindingId) BindingId
  | ⟨name, parameters, body, environment⟩ =>
    ⟨name.map (· + f.bindings.size), parameters.map (· + f.bindings.size), body.behind f,
      behindEnvironment environment⟩
termination_by structural c => c

def behindEnvironment : List (BindingId × Value BindingId) → List (BindingId × Value BindingId)
  | [] => f.environment
  | (id, a) :: rest => (id + f.bindings.size, a.behind) :: behindEnvironment rest
termination_by structural environment => environment

end

theorem behindItems_eq_map (items : List (Value BindingId)) : behindItems f items = items.map (behind f) := by
  induction items with
  | nil => rfl
  | cons a rest ih => simp only [behindItems, ih, List.map_cons]

theorem behindFields_eq_map (fields : List (String × Value BindingId)) :
    behindFields f fields = fields.map fun field => (field.1, field.2.behind f) := by
  induction fields with
  | nil => rfl
  | cons field rest ih => simp only [behindFields, ih, List.map_cons]

theorem behindStages_eq_map (stages : List (Sequence.Stage (Value BindingId))) :
    behindStages f stages = stages.map (behindStage f) := by
  induction stages with
  | nil => rfl
  | cons stage rest ih => simp only [behindStages, ih, List.map_cons]

end

/-! ## Casts and operators -/

variable (f : Front)

theorem kind_behind (a : Value BindingId) : (a.behind f).kind = a.kind := by cases a <;> rfl

theorem asNumber_behind (a : Value BindingId) : (a.behind f).asNumber = a.asNumber := by cases a <;> rfl

theorem asBoolean_behind (a : Value BindingId) : (a.behind f).asBoolean = a.asBoolean := by cases a <;> rfl

theorem asList_behind (a : Value BindingId) : (a.behind f).asList = a.asList.map (List.map (behind f)) := by
  cases a <;> first | rfl | simp [behind, asList, Except.map, behindItems_eq_map]

theorem asSequence_behind (a : Value BindingId) : (a.behind f).asSequence = a.asSequence.map (behindSequence f) := by
  cases a <;> rfl

theorem asFunction_behind (a : Value BindingId) : (a.behind f).asFunction = a.asFunction.map (behindFunction f) := by
  cases a <;> rfl

theorem asTagged_behind (a : Value BindingId) :
    (a.behind f).asTagged = a.asTagged.map fun found => (found.1, found.2.behind f) := by cases a <;> rfl

theorem negate_behind (a : Value BindingId) : (a.behind f).negate = a.negate.map (behind f) := by cases a <;> rfl

theorem arithmetic_behind (op : ArithmeticOp) (a b : Value BindingId) :
    (a.behind f).arithmetic op (b.behind f) = (a.arithmetic op b).map (behind f) := by
  cases a <;> cases b <;> first
    | rfl
    | simp only [behind, arithmetic]; cases numberArithmetic op _ _ <;> rfl
    | simp only [behind, arithmetic]; cases bigIntegerArithmetic op _ _ <;> rfl

theorem sameFunction_behind (g h : Function (Value BindingId) BindingId) :
    sameFunction (behindFunction f g) (behindFunction f h) = sameFunction g h := by
  cases g <;> cases h <;> rfl

mutual

theorem same_behind : ∀ a b : Value BindingId, (a.behind f).same (b.behind f) = a.same b
  | .number _, b | .boolean _, b | .bigInteger _, b | .null, b | .sequence _ _, b => by cases b <;> rfl
  | .list items, b => by
      cases b with
      | list others => exact sameItems_behind items others
      | _ => rfl
  | .object fields, b => by
      cases b with
      | object others => exact sameFields_behind fields others
      | _ => rfl
  | .tagged a tag, b => by
      cases b with
      | tagged b tag' => exact congrArg (tag == tag' && ·) (same_behind a b)
      | _ => rfl
  | .function g, b => by
      cases b with
      | function h => exact sameFunction_behind f g h
      | _ => rfl
termination_by structural a => a

theorem sameItems_behind : ∀ items others : List (Value BindingId),
    sameItems (behindItems f items) (behindItems f others) = sameItems items others
  | [], others => by cases others <;> rfl
  | a :: rest, others => by
      cases others with
      | nil => rfl
      | cons b rest' => simp only [behindItems, sameItems, same_behind a b, sameItems_behind rest rest']
termination_by structural items => items

theorem sameFields_behind : ∀ fields others : List (String × Value BindingId),
    sameFields (behindFields f fields) (behindFields f others) = sameFields fields others
  | [], others => by cases others <;> rfl
  | (name, a) :: rest, others => by
      cases others with
      | nil => rfl
      | cons other rest' =>
          simp only [behindFields, sameFields, same_behind a other.2, sameFields_behind rest rest']
termination_by structural fields => fields

end

theorem compare_behind (op : ComparisonOp) (a b : Value BindingId) :
    (a.behind f).compare op (b.behind f) = a.compare op b := by
  cases op with
  | equal => exact congrArg Except.ok (same_behind f a b)
  | less | greater => cases a <;> cases b <;> rfl

/-! ## Text -/

section

variable {f} {name name' : BindingId → String} (hname : ∀ id, name' (id + f.bindings.size) = name id)
include hname

set_option linter.unusedSectionVars false in
mutual

/-- A value behind declarations looks the same, if bindings keep their names. -/
theorem text_behind : ∀ a : Value BindingId, ((a.behind f).rekey name').text = (a.rekey name).text
  | .number _ | .boolean _ | .bigInteger _ | .null | .sequence _ _ => rfl
  | .list items => by simp only [behind, rekey, text, itemTexts_behind items]
  | .object fields => by simp only [behind, rekey, text, fieldTexts_behind fields]
  | .tagged payload tag => by
      have h := text_behind payload
      cases payload <;> simp only [behind, rekey, text] at h ⊢ <;> rw [h]
  | .function g => by
      cases g with
      | closure identity c =>
          obtain ⟨own, parameters, body, environment⟩ := c
          cases own with
          | none => rfl
          | some id =>
              simp only [behind, behindFunction, behindClosure, rekey, rekeyFunction, rekeyClosure, text, functionText,
                Option.map_some, hname]
      | builtin b => rfl
      | unbound own => rfl
termination_by structural a => a

theorem itemTexts_behind : ∀ items : List (Value BindingId),
    itemTexts (rekeyItems name' (behindItems f items)) = itemTexts (rekeyItems name items)
  | [] => rfl
  | a :: rest => by simp only [behindItems, rekeyItems, itemTexts, text_behind a, itemTexts_behind rest]
termination_by structural items => items

theorem fieldTexts_behind : ∀ fields : List (String × Value BindingId),
    fieldTexts (rekeyFields name' (behindFields f fields)) = fieldTexts (rekeyFields name fields)
  | [] => rfl
  | (own, a) :: rest => by simp only [behindFields, rekeyFields, fieldTexts, text_behind a, fieldTexts_behind rest]
termination_by structural fields => fields

end

end

end Value

end Sable
