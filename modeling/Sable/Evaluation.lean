import Sable.RuntimeError

/-! Evaluation of programs.

Evaluation goes by a number of steps that it may nest; when they are used up there is no result, neither
a value nor an error. More steps never change a result. The state is a clock: a new function or sequence
takes the time as its identity, and the call of a function takes time as well. -/
namespace Sable

/-- A computation in a running program: its outcome and the time at which it ends, by the time at which
it starts. -/
structure Eval (α : Type) where
  run : Nat → Option (Except RuntimeError α × Nat)
  /-- The clock does not go back. -/
  forward : ∀ {now later : Nat} {found : Except RuntimeError α},
    run now = some (found, later) → now ≤ later

namespace Eval

variable {α β : Type}

/-- More steps than a computation can nest on any machine. -/
def plenty : Nat := Nat.pow 2 62

/-- There is no result. -/
def outOfSteps : Eval α := ⟨fun _ => none, nofun⟩

/-- Ends at once. -/
@[inline] def settled (found : Except RuntimeError α) : Eval α :=
  ⟨fun now => some (found, now), fun h => by cases h; exact Nat.le_refl _⟩

def throw (e : RuntimeError) : Eval α := settled (.error e)

/-- The time, which then moves on. -/
def tick : Eval Nat := ⟨fun now => some (.ok now, now + 1), fun h => by cases h; omega⟩

/-- Goes on with what comes of a computation, be it a value or an error. -/
@[inline] def andThen (c : Eval α) (f : Except RuntimeError α → Eval β) : Eval β where
  run now :=
    match c.run now with
    | none => none
    | some (found, later) => (f found).run later
  forward h := by
    split at h
    · cases h
    · exact Nat.le_trans (c.forward ‹_›) ((f _).forward h)

instance : Monad Eval where
  pure a := settled (.ok a)
  bind c f := c.andThen fun
    | .ok a => f a
    | .error e => throw e

/-- Blames what went wrong on a place in the source text. -/
def blame (span : Span) : Except RuntimeFault α → Eval α
  | .ok a => pure a
  | .error fault => throw ⟨fault, span⟩

/-- Goes on after an error, with the error as the result. -/
def observe (c : Eval α) : Eval (Except RuntimeError α) := c.andThen fun found => pure found

end Eval

/-! ## Sequences -/

namespace Sequence

variable {κ : Type}

/-- The first item of a source, and the source after it. -/
def Source.next? : Source (Value κ) → Option (Value κ × Source (Value κ))
  | .range next stop =>
    if stop.any (· ≤ next) then none else some (.number next, .range (next + 1) stop)
  | .items [] => none
  | .items (item :: rest) => some (item, .items rest)

/-- A sequence with one more stage at its end. -/
def push (s : Sequence (Value κ)) (stage : Stage (Value κ)) : Sequence (Value κ) :=
  { s with stages := s.stages ++ [stage] }

section

-- How a function is called with arguments, and the place that asks for items.
variable (call : Value κ → List (Value κ) → Span → Eval (Value κ)) (span : Span)

/-- What becomes of an item in the stages, nothing if one of them drops it. -/
def through : List (Stage (Value κ)) → Value κ → Eval (Option (Value κ))
  | [], item => pure (some item)
  | .map function :: stages, item => do
    let result ← call function [item] span
    through stages result
  | .filter predicate :: stages, item => do
    let answer ← call predicate [item] span
    if ← .blame span answer.asBoolean then through stages item else pure none

/-- The first item that comes out of a sequence, if one does or an error does not come first, and what
is left of the sequence after it. No more than `steps` items of the source are looked at. -/
def next : (steps : Nat) → Sequence (Value κ) →
    Eval (Except RuntimeError (Option (Value κ)) × Sequence (Value κ))
  | 0, _ => .outOfSteps
  | steps + 1, s =>
    match s.source.next? with
    | none => pure (.ok none, s)
    | some (item, source) => do
      match ← Eval.observe (through call span s.stages item) with
      | .ok none => next steps { s with source }
      | found => pure (found, { s with source })

/-- The first `count` items of a sequence after those `taken`, which are in reverse. -/
def takeFrom (steps : Nat) : (count : Nat) → Sequence (Value κ) → List (Value κ) →
    Eval (List (Value κ))
  | 0, _, taken => pure taken.reverse
  | count + 1, s, taken => do
    match ← next call span steps s with
    | (.ok (some item), rest) => takeFrom steps count rest (item :: taken)
    | (.ok none, _) => pure taken.reverse
    | (.error e, _) => .throw e

/-- The first `count` items of a sequence, all of them if there are fewer. -/
def take (steps count : Nat) (s : Sequence (Value κ)) : Eval (List (Value κ)) :=
  takeFrom call span steps count s []

end

end Sequence

/-! ## Builtins -/

namespace Builtin

variable {κ : Type}

/-- A sequence as a new value. -/
def newSequence (s : Sequence (Value κ)) : Eval (Value κ) := do pure (.sequence (← .tick) s)

/-- A number that has to be whole. -/
def wholeArgument (b : Builtin) (argument : Value κ) : Except RuntimeFault Int := do
  let x ← argument.asNumber
  match Binary64.toInt? x with
  | some n => pure n
  | none => throw (.notWhole b x)

def sumFrom (total : Float) : List (Value κ) → Except RuntimeFault Float
  | [] => pure total
  | a :: rest => do sumFrom (total + (← a.asNumber)) rest

/-- Calls a builtin at `span`. -/
def call (callback : Value κ → List (Value κ) → Span → Eval (Value κ)) (steps : Nat) (b : Builtin)
    (arguments : List (Value κ)) (span : Span) : Eval (Value κ) :=
  match b, arguments with
  | range, [start, stop] => do
    let start ← .blame span start.asNumber
    let stop ← .blame span stop.asNumber
    newSequence ⟨.range start (some stop), []⟩
  | naturals, [] => newSequence ⟨.range 0 none, []⟩
  | filter, [items, keep] => do
    let s ← .blame span items.asSequence
    let _ ← .blame span keep.asFunction
    newSequence (s.push (.filter keep))
  | map, [items, function] => do
    let s ← .blame span items.asSequence
    let _ ← .blame span function.asFunction
    newSequence (s.push (.map function))
  | take, [items, count] => do
    let s ← .blame span items.asSequence
    let n ← .blame span (wholeArgument take count)
    if n < 0 then .throw ⟨.negativeCount, span⟩
    pure (.list (← s.take callback span steps n.toNat))
  | list, items => pure (.list items)
  | sequence, [items] => do
    let items ← .blame span items.asList
    newSequence ⟨.items items, []⟩
  | length, [items] => do
    let items ← .blame span items.asList
    pure (.number (.ofNat items.length))
  | get, [items, index] => do
    let items ← .blame span items.asList
    let n ← .blame span (wholeArgument get index)
    pure (if n < 0 then .null else (items[n.toNat]?).getD .null)
  | sum, items => do pure (.number (← .blame span (sumFrom 0 items)))
  | bigint, [value] => do pure (.bigInteger (← .blame span (wholeArgument bigint value)))
  | b, arguments => .throw ⟨.builtinArgumentCount b (b.arity?.getD 0) arguments.length, span⟩

end Builtin

/-! ## Environments -/

/-- How the environments of a running program are keyed. -/
structure Keying (κ : Type) where
  /-- The key of a binding. -/
  key : BindingId → κ
  /-- What a name, and what it was resolved to, find in an environment. -/
  find : String → Option Target → Environment κ → Except RuntimeFault (Value κ)

/-- Environments by name: what a name was resolved to does not count. -/
def Program.byName (p : Program) : Keying String where
  key id := (p.binding id).name
  find name _ env :=
    match Fields.get? name env with
    | some a => .ok a
    | none => .error (.undefinedVariable name)

/-! ## Programs -/

namespace Program

variable {κ : Type}

/-- The keys of the parameters of a function. -/
def parameterKeys (k : Keying κ) (s : Signature) : ParameterList κ :=
  match s.arguments, s.parameters with
  | .variadic _, id :: _ => .variadic (k.key id)
  | _, ids => .fixed (ids.map k.key)

section

variable (p : Program) (k : Keying κ) (eval : Environment κ → NodeId → Eval (Value κ))
  (call : Value κ → List (Value κ) → Span → Eval (Value κ))

/-- The values of nodes, in order. -/
@[specialize] def evalAll (env : Environment κ) : List NodeId → Eval (List (Value κ))
  | [] => pure []
  | id :: rest => do
    let a ← eval env id
    pure (a :: (← evalAll env rest))

/-- Adds the values of the fields of an object to those `done`. -/
@[specialize] def evalFields (env : Environment κ) (done : Fields (Value κ)) :
    List (String × NodeId) → Eval (Fields (Value κ))
  | [] => pure done
  | (name, id) :: rest => do
    let a ← eval env id
    evalFields env (Fields.insert name a done) rest

/-- The environment after a binding. -/
@[specialize] def bind (env : Environment κ) (id : BindingId) : Eval (Environment κ) :=
  match p.binding id with
  | .value _ _ _ node => do
    let a ← eval env node
    pure ((k.key id, a) :: env)
  | .function _ _ signature (some body) => do
    let identity ← .tick
    let closure := ⟨some (k.key id), parameterKeys k signature, body, env⟩
    pure ((k.key id, .function (.closure identity closure)) :: env)
  | .function name _ _ none =>
    match Builtin.ofName? name with
    | some b => pure ((k.key id, .function (.builtin b)) :: env)
    | none => pure ((k.key id, .function (.unbound name)) :: env)
  | .parameter .. | .payload .. => pure env

@[specialize] def bindAll (env : Environment κ) : List BindingId → Eval (Environment κ)
  | [] => pure env
  | id :: rest => do
    let env ← bind p k eval env id
    bindAll env rest

@[specialize] def evalBody (env : Environment κ) (body : FunctionBody) : Eval (Value κ) := do
  let env ← bindAll p k eval env body.bindings
  eval env body.result

/-- The value of a node. -/
@[specialize] def evalNode (env : Environment κ) (id : NodeId) : Eval (Value κ) :=
  let node := p.node id
  let span := node.span
  match node.form with
  | .number x => pure (.number x)
  | .bigInteger n => pure (.bigInteger n)
  | .boolean b => pure (.boolean b)
  | .null => pure .null
  | .object fields => do pure (.object (← evalFields eval env [] fields))
  | .arithmetic op lhs rhs => do
    let a ← eval env lhs
    let b ← eval env rhs
    .blame span (a.arithmetic op b)
  | .negate operand => do
    let a ← eval env operand
    .blame span a.negate
  | .comparison op lhs rhs => do
    let a ← eval env lhs
    let b ← eval env rhs
    pure (.boolean (← .blame span (a.compare op b)))
  | .logical op lhs rhs => do
    let a ← eval env lhs
    let known ← .blame span a.asBoolean
    match op, known with
    | .and, false => pure (.boolean false)
    | .or, true => pure (.boolean true)
    | _, _ => do
      let b ← eval env rhs
      pure (.boolean (← .blame span b.asBoolean))
  | .not operand => do
    let a ← eval env operand
    pure (.boolean (!(← .blame span a.asBoolean)))
  | .conditional condition thenBranch elseBranch => do
    let c ← eval env condition
    if ← .blame span c.asBoolean then eval env thenBranch else eval env elseBranch
  | .reference name target => .blame span (k.find name target env)
  | .call callee _ arguments => do
    let f ← eval env callee
    let values ← evalAll eval env arguments
    call f values span
  | .lambda signature body => do
    let closure := ⟨none, parameterKeys k signature, body, env⟩
    pure (.function (.closure (← .tick) closure))
  | .field owner name => do
    match ← eval env owner with
    | .object fields =>
      match Fields.get? name fields with
      | some a => pure a
      | none => .throw ⟨.missingField name, span⟩
    | other => .throw ⟨.notAnObject name other.kind, span⟩
  | .tagged value tag => do pure (.tagged (← eval env value) tag)
  | .hasTag value tag => do
    let a ← eval env value
    let (own, _) ← .blame span a.asTagged
    pure (.boolean (own == tag))
  | .untag value => do
    let a ← eval env value
    let (_, payload) ← .blame span a.asTagged
    pure payload
  | .cases scrutinee arms => do
    let a ← eval env scrutinee
    let (tag, payload) ← .blame span a.asTagged
    match arms.find? (·.tag == tag) with
    | some arm => eval ((k.key arm.binding, payload) :: env) arm.body
    | none => .throw ⟨.noArm tag, span⟩

/-- The environment in which the body of a closure runs: its own, then itself, then the arguments. Those
that no parameter takes are passed over. -/
def enter (identity : Nat) (closure : Closure (Value κ) κ) (arguments : List (Value κ)) (span : Span) :
    Except RuntimeError (Environment κ) :=
  let env : Environment κ := match closure.name with
    | some name => (name, .function (.closure identity closure)) :: closure.environment
    | none => closure.environment
  match closure.parameters with
  | .fixed names =>
    if arguments.length < names.length then
      .error ⟨.argumentCount names.length arguments.length, span⟩
    else .ok ((names.zip arguments).foldl (fun env entry => entry :: env) env)
  | .variadic name => .ok ((name, .list arguments) :: env)

/-- Calls a value; `steps` bounds the work of builtins. -/
@[specialize] def callValue (steps : Nat) (f : Value κ) (arguments : List (Value κ)) (span : Span) :
    Eval (Value κ) := do
  match ← .blame span f.asFunction with
  | .closure identity closure => do
    let _ ← .tick
    match enter identity closure arguments span with
    | .ok env => evalBody p k eval env closure.body
    | .error e => .throw e
  | .builtin b => b.call call steps arguments span
  | .unbound name => .throw ⟨.notImplemented name, span⟩

end

mutual

/-- The value of a node, with at most `steps` nodes and calls inside each other. -/
def evalBy (p : Program) (k : Keying κ) : (steps : Nat) → Environment κ → NodeId → Eval (Value κ)
  | 0, _, _ => .outOfSteps
  | steps + 1, env, id => evalNode p k (p.evalBy k steps) (p.callBy k steps) env id

/-- The result of a call, with at most `steps` nodes and calls inside each other. -/
def callBy (p : Program) (k : Keying κ) :
    (steps : Nat) → Value κ → List (Value κ) → Span → Eval (Value κ)
  | 0, _, _, _ => .outOfSteps
  | steps + 1, f, arguments, span =>
    callValue p k (p.evalBy k steps) (p.callBy k steps) steps f arguments span

end

/-- Runs a program: the value of its final expression. -/
def runBy (p : Program) (k : Keying κ) (steps : Nat) : Eval (Value κ) :=
  evalBody p k (p.evalBy k steps) [] p.body

/-- The outcome of running a program from the start, if `steps` are enough for it. -/
def evaluateBy (p : Program) (k : Keying κ) (steps : Nat) :
    Option (Except RuntimeError (Value κ)) :=
  ((p.runBy k steps).run 0).map Prod.fst

def eval (p : Program) (steps : Nat) : Environment → NodeId → Eval Value := p.evalBy p.byName steps

def call (p : Program) (steps : Nat) : Value → List Value → Span → Eval Value :=
  p.callBy p.byName steps

def run (p : Program) (steps : Nat) : Eval Value := p.runBy p.byName steps

def evaluate (p : Program) (steps : Nat) : Option (Except RuntimeError Value) :=
  p.evaluateBy p.byName steps

end Program

end Sable
