import Sable.Evaluation
import Sable.Proofs.Program.Scoped

/-! Environments keyed by bindings.

In these environments every value is found under the binding that it was given to. What keeps them in step
with names is that, for each name in scope, the value of the binding that the name stands for comes in
front of those of all other bindings of that name. -/
namespace Sable

namespace Program

variable (p : Program)

/-- The name of a binding. -/
def bindingName (id : BindingId) : String := (p.binding id).name

/-- Environments by binding: the value of a name is that of the binding that the name was resolved to. -/
def byBinding : Keying BindingId where
  key id := id
  find name target env :=
    match target.bind fun t => env.find? fun entry => entry.1 == t.id with
    | some entry => .ok entry.2
    | none => .error (.undefinedVariable name)

/-- Environments by binding, in which both ways to find a value are gone at every name. It is an error,
`mismatch`, if a name that was resolved to a binding finds no binding or another one, and if a name that
was resolved to none finds one. -/
def crossChecked (mismatch : RuntimeFault) : Keying BindingId where
  key id := id
  find name target env :=
    match target, env.find? fun entry => p.bindingName entry.1 == name with
    | none, none => .error (.undefinedVariable name)
    | some t, some entry => if entry.1 = t.id then .ok entry.2 else .error mismatch
    | _, _ => .error mismatch

/-! ## Environments and scopes -/

/-- The first binding of each name in the environment is the one that the name stands for. -/
def Aligned (names : Names) (env : Environment BindingId) : Prop :=
  ∀ name, (Fields.get? name names).map Target.id =
    (env.find? fun entry => p.bindingName entry.1 == name).map Prod.fst

variable {p}

theorem aligned_nil : p.Aligned [] [] := fun _ => rfl

theorem Aligned.cons {names : Names} {env : Environment BindingId} (h : p.Aligned names env)
    {id : BindingId} {target : Target} (ht : target.id = id) (a : Value BindingId) :
    p.Aligned ((p.bindingName id, target) :: names) ((id, a) :: env) := by
  intro name
  simp only [Fields.get?, List.find?_cons]
  by_cases hname : p.bindingName id = name
  · simp [hname, ht]
  · rw [if_neg hname, beq_false_of_ne hname]
    exact h name

/-- What is known of a name does not change the binding that it stands for. -/
theorem Aligned.overlay {names : Names} {env : Environment BindingId} (h : p.Aligned names env)
    {name : String} {target target' : Target} (hget : Fields.get? name names = some target)
    (ht : target'.id = target.id) : p.Aligned ((name, target') :: names) env := by
  intro name'
  rw [← h name']
  simp only [Fields.get?]
  by_cases hname : name = name'
  · subst hname
    simp [hget, ht]
  · simp [hname]

theorem Aligned.narrowedNames {names : Names} {env : Environment BindingId}
    (h : p.Aligned names env) (subject : NodeId) (tag : String) :
    p.Aligned (p.narrowedNames names subject tag) env := by
  unfold Program.narrowedNames
  split
  · split
    · rename_i hget
      exact h.overlay hget rfl
    · rename_i hget
      exact h.overlay hget rfl
    · exact h
  · exact h

theorem Aligned.nonNullNames {names : Names} {env : Environment BindingId}
    (h : p.Aligned names env) (subject : NodeId) : p.Aligned (p.nonNullNames names subject) env := by
  unfold Program.nonNullNames
  split
  · split
    · rename_i hget
      exact h.overlay hget rfl
    · rename_i hget
      exact h.overlay hget rfl
    · exact h
  · exact h

theorem Aligned.branchNames {names : Names} {env : Environment BindingId} (h : p.Aligned names env)
    (condition : NodeId) : p.Aligned (p.branchNames names condition).1 env ∧
      p.Aligned (p.branchNames names condition).2 env := by
  unfold Program.branchNames
  split
  · exact ⟨h.narrowedNames _ _, h⟩
  · split
    · exact ⟨h, h.nonNullNames _⟩
    · exact ⟨h, h.nonNullNames _⟩
    · exact ⟨h, h⟩
  · exact ⟨h, h⟩

/-- Arguments come after the names of their parameters. -/
theorem Aligned.boundNames {names : Names} {env : Environment BindingId} (h : p.Aligned names env)
    {ids : List BindingId} {arguments : List (Value BindingId)}
    (hlength : ids.length ≤ arguments.length) :
    p.Aligned (p.boundNames names ids)
      ((ids.zip arguments).foldl (fun env entry => entry :: env) env) := by
  induction ids generalizing names env arguments with
  | nil => exact h
  | cons id rest ih =>
      cases arguments with
      | nil => simp at hlength
      | cons a arguments =>
          simp only [List.length_cons, Nat.add_le_add_iff_right] at hlength
          exact ih (h.cons (show (Target.bound id).id = id from rfl) a) hlength

/-- The first entry of a name is the first one of the binding that the name stands for: an entry of that
binding has that name. -/
theorem Aligned.find?_eq {names : Names} {env : Environment BindingId} (h : p.Aligned names env)
    {name : String} {target : Target} (hget : Fields.get? name names = some target) :
    ∃ a, env.find? (fun entry => p.bindingName entry.1 == name) = some (target.id, a) ∧
      env.find? (fun entry => entry.1 == target.id) = some (target.id, a) := by
  have hname := h name
  rw [hget] at hname
  cases hfind : env.find? fun entry => p.bindingName entry.1 == name with
  | none => simp [hfind] at hname
  | some entry =>
      obtain ⟨id, a⟩ := entry
      simp only [hfind, Option.map_some, Option.some.injEq] at hname
      subst hname
      refine ⟨a, rfl, ?_⟩
      have hid : p.bindingName target.id = name := by
        simpa using List.find?_some hfind
      clear hget h
      induction env with
      | nil => simp at hfind
      | cons entry rest ih =>
          simp only [List.find?_cons] at hfind ⊢
          by_cases hentry : p.bindingName entry.1 = name
          · simp only [hentry, beq_self_eq_true, Option.some.injEq] at hfind
            subst hfind
            simp
          · have hne : entry.1 ≠ target.id := fun heq => hentry (heq ▸ hid)
            rw [beq_false_of_ne hentry] at hfind
            rw [beq_false_of_ne hne]
            exact ih hfind

/-! ## Resolved values -/

section

variable (p)

/-- The names in scope in the body of a closure, after those around it. -/
def closureNames (names : Names) (name : Option BindingId) (parameters : List BindingId) : Names :=
  match name with
  | some id => p.boundNames ((p.bindingName id, .enclosing id) :: names) parameters
  | none => p.boundNames names parameters

mutual

/-- A value all closures of which have the environments of scopes that their bodies are resolved in. -/
def Resolved : Value BindingId → Prop
  | .list items => ResolvedItems items
  | .sequence _ s => ResolvedSequence s
  | .object fields => ResolvedFields fields
  | .tagged payload _ => Resolved payload
  | .function f => ResolvedFunction f
  | _ => True
termination_by structural a => a

def ResolvedItems : List (Value BindingId) → Prop
  | [] => True
  | a :: rest => Resolved a ∧ ResolvedItems rest
termination_by structural items => items

def ResolvedFields : List (String × Value BindingId) → Prop
  | [] => True
  | (_, a) :: rest => Resolved a ∧ ResolvedFields rest
termination_by structural fields => fields

def ResolvedSequence : Sequence (Value BindingId) → Prop
  | ⟨source, stages⟩ => ResolvedSource source ∧ ResolvedStages stages
termination_by structural s => s

def ResolvedSource : Sequence.Source (Value BindingId) → Prop
  | .range .. => True
  | .items items => ResolvedItems items
termination_by structural source => source

def ResolvedStages : List (Sequence.Stage (Value BindingId)) → Prop
  | [] => True
  | stage :: rest => ResolvedStage stage ∧ ResolvedStages rest
termination_by structural stages => stages

def ResolvedStage : Sequence.Stage (Value BindingId) → Prop
  | .filter a => Resolved a
  | .map a => Resolved a
termination_by structural stage => stage

def ResolvedFunction : Function (Value BindingId) BindingId → Prop
  | .closure _ c => ResolvedClosure c
  | .builtin _ | .unbound _ => True
termination_by structural f => f

def ResolvedClosure : Closure (Value BindingId) BindingId → Prop
  | ⟨name, parameters, body, environment⟩ =>
    ResolvedEnvironment environment ∧ ∃ vs names, p.Aligned names environment ∧
      p.ScopedBody False anyFunction vs (p.closureNames names name parameters.toList) body
termination_by structural c => c

def ResolvedEnvironment : List (BindingId × Value BindingId) → Prop
  | [] => True
  | (_, a) :: rest => Resolved a ∧ ResolvedEnvironment rest
termination_by structural environment => environment

end

end

theorem resolvedItems_iff {items : List (Value BindingId)} :
    p.ResolvedItems items ↔ ∀ a ∈ items, p.Resolved a := by
  induction items with
  | nil => simp [ResolvedItems]
  | cons a rest ih => simp [ResolvedItems, ih]

theorem resolvedFields_iff {fields : List (String × Value BindingId)} :
    p.ResolvedFields fields ↔ ∀ field ∈ fields, p.Resolved field.2 := by
  induction fields with
  | nil => simp [ResolvedFields]
  | cons field rest ih => simp [ResolvedFields, ih]

theorem resolvedStages_iff {stages : List (Sequence.Stage (Value BindingId))} :
    p.ResolvedStages stages ↔ ∀ stage ∈ stages, p.ResolvedStage stage := by
  induction stages with
  | nil => simp [ResolvedStages]
  | cons stage rest ih => simp [ResolvedStages, ih]

theorem resolvedEnvironment_iff {env : Environment BindingId} :
    p.ResolvedEnvironment env ↔ ∀ entry ∈ env, p.Resolved entry.2 := by
  induction env with
  | nil => simp [ResolvedEnvironment]
  | cons entry rest ih => simp [ResolvedEnvironment, ih]

/-! ## Keyings that find what was resolved -/

/-- A keying by bindings that finds, for a name resolved in a scope, the value of its binding. -/
structure FindsResolved (p : Program) (k : Keying BindingId) : Prop where
  key : k.key = id
  found : ∀ {names : Names} {env : Environment BindingId} (name : String),
    p.Aligned names env → k.find name (Fields.get? name names) env =
      match env.find? fun entry => p.bindingName entry.1 == name with
      | some entry => .ok entry.2
      | none => .error (.undefinedVariable name)

theorem Aligned.find?_eq_none {names : Names} {env : Environment BindingId} (h : p.Aligned names env)
    {name : String} (hget : Fields.get? name names = none) :
    env.find? (fun entry => p.bindingName entry.1 == name) = none := by
  have hname := h name
  rw [hget] at hname
  simpa using hname.symm

theorem findsResolved_byBinding : p.FindsResolved byBinding := by
  refine ⟨rfl, fun {names env} name h => ?_⟩
  cases hget : Fields.get? name names with
  | none => simp [byBinding, h.find?_eq_none hget]
  | some target =>
      obtain ⟨a, hname, hid⟩ := h.find?_eq hget
      simp [byBinding, hname, hid]

theorem findsResolved_crossChecked (mismatch : RuntimeFault) :
    p.FindsResolved (p.crossChecked mismatch) := by
  refine ⟨rfl, fun {names env} name h => ?_⟩
  cases hget : Fields.get? name names with
  | none => simp [crossChecked, h.find?_eq_none hget]
  | some target =>
      obtain ⟨a, hname, -⟩ := h.find?_eq hget
      simp [crossChecked, hname]

end Program

end Sable
