import Sable.Program.TypeRule

/-! Type determination that remembers: every node's type is worked out at most once, however often it is
asked for, and a node whose type would depend on itself is found out. -/
namespace Sable

/-- What is known while types are determined. -/
structure Memo where
  /-- The types found, by node. -/
  known : Array (Option Ty)
  /-- The nodes whose types are being worked out, the innermost first. -/
  visiting : List NodeId

/-- A step of type determination. What was found is kept also when a step fails. -/
abbrev Typing := ExceptT TypeError (StateM Memo)

namespace Program

/-- Nothing is known yet. -/
def blank (p : Program) : Memo := ⟨Array.replicate p.nodes.size none, []⟩

/-- Works out a type while its node counts as visited, and notes it down. -/
def visit (id : NodeId) (work : Typing Ty) : Typing Ty := do
  modify fun memo => { memo with visiting := id :: memo.visiting }
  let found ← (ExceptT.lift work.run : Typing (Except TypeError Ty))
  modify fun memo => { memo with visiting := memo.visiting.erase id }
  match found with
  | .ok type =>
    modify fun memo => { memo with known := memo.known.setIfInBounds id (some type) }
    pure type
  | .error e => throw e

variable [EntryOrder]

/-- The type of a node, with at most `depth` nodes visited on the way. -/
def typeUpTo (p : Program) : (depth : Nat) → NodeId → Typing Ty
  | 0, id => fail .loop (p.node id).span
  | depth + 1, id => do
    let memo ← get
    match memo.known.getD id none with
    | some type => pure type
    | none =>
      if memo.visiting.contains id then fail .loop (p.node id).span
      else visit id (typeRule p (p.typeUpTo depth) id)

/-- The type of a node. No more nodes can be visited at a time than there are. -/
def typeOf (p : Program) (id : NodeId) : Typing Ty := p.typeUpTo p.nodes.size id

/-- The type of a binding. -/
def typeOfBinding (p : Program) (id : BindingId) : Typing Ty := bindingType p p.typeOf id

/-- The type of the value of the program. -/
def resultType (p : Program) : Typing Ty := p.typeOf p.body.result

end Program

end Sable
