import Sable.Evaluation
import Sable.Proofs.Fields

/-! Other keys for the environments that values hold. What the operators and casts of the language make of
a value does not depend on the keys. -/
namespace Sable

variable {κ κ' : Type}

namespace Value

section

variable (f : κ → κ')

mutual

/-- The value with `f` put on every key of the environments in it. -/
def rekey : Value κ → Value κ'
  | number x => number x
  | boolean b => boolean b
  | bigInteger n => bigInteger n
  | null => null
  | list items => list (rekeyItems items)
  | sequence identity s => sequence identity (rekeySequence s)
  | object fields => object (rekeyFields fields)
  | tagged payload tag => tagged payload.rekey tag
  | function g => function (rekeyFunction g)
termination_by structural a => a

def rekeyItems : List (Value κ) → List (Value κ')
  | [] => []
  | a :: rest => a.rekey :: rekeyItems rest
termination_by structural items => items

def rekeyFields : List (String × Value κ) → List (String × Value κ')
  | [] => []
  | (name, a) :: rest => (name, a.rekey) :: rekeyFields rest
termination_by structural fields => fields

def rekeySequence : Sequence (Value κ) → Sequence (Value κ')
  | ⟨source, stages⟩ => ⟨rekeySource source, rekeyStages stages⟩
termination_by structural s => s

def rekeySource : Sequence.Source (Value κ) → Sequence.Source (Value κ')
  | .range next stop => .range next stop
  | .items items => .items (rekeyItems items)
termination_by structural source => source

def rekeyStages : List (Sequence.Stage (Value κ)) → List (Sequence.Stage (Value κ'))
  | [] => []
  | stage :: rest => rekeyStage stage :: rekeyStages rest
termination_by structural stages => stages

def rekeyStage : Sequence.Stage (Value κ) → Sequence.Stage (Value κ')
  | .filter predicate => .filter predicate.rekey
  | .map g => .map g.rekey
termination_by structural stage => stage

def rekeyFunction : Function (Value κ) κ → Function (Value κ') κ'
  | .closure identity c => .closure identity (rekeyClosure c)
  | .builtin b => .builtin b
  | .unbound name => .unbound name
termination_by structural g => g

def rekeyClosure : Closure (Value κ) κ → Closure (Value κ') κ'
  | ⟨name, parameters, body, environment⟩ =>
    ⟨name.map f, parameters.map f, body, rekeyEnvironment environment⟩
termination_by structural c => c

def rekeyEnvironment : List (κ × Value κ) → List (κ' × Value κ')
  | [] => []
  | (key, a) :: rest => (f key, a.rekey) :: rekeyEnvironment rest
termination_by structural environment => environment

end

theorem rekeyItems_eq_map (items : List (Value κ)) :
    rekeyItems f items = items.map (rekey f) := by
  induction items with
  | nil => rfl
  | cons a rest ih => simp only [rekeyItems, ih, List.map_cons]

theorem rekeyFields_eq_map (fields : List (String × Value κ)) :
    rekeyFields f fields = fields.map fun field => (field.1, field.2.rekey f) := by
  induction fields with
  | nil => rfl
  | cons field rest ih => simp only [rekeyFields, ih, List.map_cons]

theorem rekeyStages_eq_map (stages : List (Sequence.Stage (Value κ))) :
    rekeyStages f stages = stages.map (rekeyStage f) := by
  induction stages with
  | nil => rfl
  | cons stage rest ih => simp only [rekeyStages, ih, List.map_cons]

end

/-! ## Casts and operators -/

variable (f : κ → κ')

theorem kind_rekey (a : Value κ) : (a.rekey f).kind = a.kind := by
  cases a <;> rfl

theorem asNumber_rekey (a : Value κ) : (a.rekey f).asNumber = a.asNumber := by
  cases a <;> rfl

theorem asBoolean_rekey (a : Value κ) : (a.rekey f).asBoolean = a.asBoolean := by
  cases a <;> rfl

theorem asList_rekey (a : Value κ) : (a.rekey f).asList = a.asList.map (List.map (rekey f)) := by
  cases a <;> first | rfl | simp [rekey, asList, Except.map, rekeyItems_eq_map]

theorem asSequence_rekey (a : Value κ) :
    (a.rekey f).asSequence = a.asSequence.map (rekeySequence f) := by
  cases a <;> rfl

theorem asFunction_rekey (a : Value κ) :
    (a.rekey f).asFunction = a.asFunction.map (rekeyFunction f) := by
  cases a <;> rfl

theorem asTagged_rekey (a : Value κ) :
    (a.rekey f).asTagged = a.asTagged.map fun found => (found.1, found.2.rekey f) := by
  cases a <;> rfl

theorem negate_rekey (a : Value κ) : (a.rekey f).negate = a.negate.map (rekey f) := by
  cases a <;> rfl

theorem arithmetic_rekey (op : ArithmeticOp) (a b : Value κ) :
    (a.rekey f).arithmetic op (b.rekey f) = (a.arithmetic op b).map (rekey f) := by
  cases a <;> cases b <;> first
    | rfl
    | simp only [rekey, arithmetic]; cases numberArithmetic op _ _ <;> rfl
    | simp only [rekey, arithmetic]; cases bigIntegerArithmetic op _ _ <;> rfl

theorem sameFunction_rekey (g h : Function (Value κ) κ) :
    sameFunction (rekeyFunction f g) (rekeyFunction f h) = sameFunction g h := by
  cases g <;> cases h <;> rfl

mutual

theorem same_rekey : ∀ a b : Value κ, (a.rekey f).same (b.rekey f) = a.same b
  | .number _, b | .boolean _, b | .bigInteger _, b | .null, b | .sequence _ _, b => by
      cases b <;> rfl
  | .list items, b => by
      cases b with
      | list others => exact sameItems_rekey items others
      | _ => rfl
  | .object fields, b => by
      cases b with
      | object others => exact sameFields_rekey fields others
      | _ => rfl
  | .tagged a tag, b => by
      cases b with
      | tagged b tag' => exact congrArg (tag == tag' && ·) (same_rekey a b)
      | _ => rfl
  | .function g, b => by
      cases b with
      | function h => exact sameFunction_rekey f g h
      | _ => rfl
termination_by structural a => a

theorem sameItems_rekey : ∀ items others : List (Value κ),
    sameItems (rekeyItems f items) (rekeyItems f others) = sameItems items others
  | [], others => by
      cases others <;> rfl
  | a :: rest, others => by
      cases others with
      | nil => rfl
      | cons b rest' => simp only [rekeyItems, sameItems, same_rekey a b, sameItems_rekey rest rest']
termination_by structural items => items

theorem sameFields_rekey : ∀ fields others : List (String × Value κ),
    sameFields (rekeyFields f fields) (rekeyFields f others) = sameFields fields others
  | [], others => by
      cases others <;> rfl
  | (name, a) :: rest, others => by
      cases others with
      | nil => rfl
      | cons other rest' =>
          simp only [rekeyFields, sameFields, same_rekey a other.2, sameFields_rekey rest rest']
termination_by structural fields => fields

end

theorem compare_rekey (op : ComparisonOp) (a b : Value κ) :
    (a.rekey f).compare op (b.rekey f) = a.compare op b := by
  cases op with
  | equal => exact congrArg Except.ok (same_rekey f a b)
  | less | greater => cases a <;> cases b <;> rfl

end Value

end Sable
