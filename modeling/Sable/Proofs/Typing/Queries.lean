import Sable.Proofs.Typing.Orders

/-! Sequences of queries about the types of a program.

A program is asked for types one query after the other, and what one query finds out the next ones use. None
of them ever finds that a type depends on itself: the rule of a node asks for nodes before it only. -/
namespace Sable.Program

/-- What a program can be asked about its types. -/
inductive Query where
  | node (id : NodeId)
  | binding (id : BindingId)
  | result
  | validate
deriving DecidableEq, Repr

/-- Asks a query, for what it finds out on the way. -/
def Query.ask [EntryOrder] (p : Program) : Query → Typing Unit
  | node id => do let _ ← p.typeOf id
  | binding id => do let _ ← p.typeOfBinding id
  | result => do let _ ← p.resultType
  | validate => p.validate

/-- The memos after any number of queries, be they answered or not, each in an order of its own. -/
inductive Reached (p : Program) : Memo → Prop
  | blank : Reached p p.blank
  | ask {memo : Memo} (h : Reached p memo) [EntryOrder] (q : Query) : Reached p ((q.ask p).run memo).2

section

variable {p : Program} [EntryOrder]

/-- The answer to a query is the same from every memo of plain types, and never that a type depends on
itself. -/
theorem Query.recalls (h : p.LaidOut) (q : Query) : ∃ answer : Except TypeError Unit,
    p.Recalls Idle (q.ask p) answer ∧ ∀ e, answer = .error e → e.fault ≠ .loop := by
  have hquiet : ∀ {α : Type} {c : Typing α} {c' : Except TypeError α}, p.Recalls Idle c c' →
      (∀ e, c' = .error e → e.fault ≠ .loop) → ∃ answer : Except TypeError Unit,
        p.Recalls Idle (c >>= fun _ => pure ()) answer ∧ ∀ e, answer = .error e → e.fault ≠ .loop := by
    intro α c c' hc hfault
    obtain ⟨answer, hrecalls, -, hloop⟩ := Decides.pure.after hc hfault
    exact ⟨answer, hrecalls, hloop⟩
  cases q with
  | node id => exact hquiet (recalls_typeOf h id) (plainType_loopFree h id)
  | binding id => exact hquiet (recalls_typeOfBinding h id) (plainTypeOfBinding_loopFree h id)
  | result => exact hquiet (recalls_typeOf h p.body.result) (plainType_loopFree h p.body.result)
  | validate =>
      obtain ⟨answer, hrecalls, -, hloop⟩ := decides_validate h
      exact ⟨answer, hrecalls, hloop⟩

/-- Between queries nothing is being visited, and the memo has plain types. -/
theorem Reached.knows (h : p.LaidOut) {memo : Memo} (hmemo : p.Reached memo) :
    memo.visiting = [] ∧ p.Knows memo := by
  induction hmemo with
  | blank => exact ⟨rfl, knows_blank p⟩
  | @ask _ _ order q ih =>
      obtain ⟨hidle, hknows⟩ := ih
      obtain ⟨answer, hrecalls, -⟩ := @Query.recalls p order h q
      obtain ⟨-, hvisiting, hknows'⟩ := hrecalls _ hidle (hknows.of_order h)
      exact ⟨hvisiting.trans hidle, Knows.of_order h hknows'⟩

/-- In a program that can be built, the rule of a node asks for the types of nodes with smaller numbers only,
whatever it is asked from. So no query, after any others, ends with the finding that a type depends on
itself. -/
theorem typing_wellFounded {source : String} {p : Program} (h : ofSource source = .ok p) :
    (∀ id < p.nodes.size, ∀ (m : Type → Type) [Monad m] [MonadExceptOf TypeError m]
      (ask ask' : NodeId → m Ty), (∀ c < id, ask c = ask' c) → typeRule p ask id = typeRule p ask' id) ∧
    ∀ memo, p.Reached memo → memo.visiting = [] ∧ ∀ (q : Query) (e : TypeError),
      ((q.ask p).run memo).1 = .error e → e.fault ≠ .loop := by
  have hlaid := laidOut_of_ofSource h
  refine ⟨fun id _ m _ _ ask ask' hask => hlaid.typeRule_congr hask, fun memo hmemo => ?_⟩
  obtain ⟨hidle, hknows⟩ := hmemo.knows hlaid
  refine ⟨hidle, fun q e he => ?_⟩
  obtain ⟨answer, hrecalls, hfault⟩ := q.recalls hlaid
  obtain ⟨hanswer, -⟩ := hrecalls memo hidle hknows
  exact hfault e (hanswer.symm.trans he)

end

/-- A recursive function without a result type, over a payload: a program that can be built and is not
valid. -/
def tangledSource : String :=
  "union Shape = circle: Number\n" ++
  "def size(s: Shape) = match s { circle c => if c < 1 then c else size(s) }\n" ++
  "return size"

theorem typing_wellFounded_tangled : ∃ p, ofSource tangledSource = .ok p ∧
    (∀ id < p.nodes.size, ∀ (m : Type → Type) [Monad m] [MonadExceptOf TypeError m]
      (ask ask' : NodeId → m Ty), (∀ c < id, ask c = ask' c) → typeRule p ask id = typeRule p ask' id) ∧
    ∀ memo, p.Reached memo → memo.visiting = [] ∧ ∀ (q : Query) (e : TypeError),
      ((q.ask p).run memo).1 = .error e → e.fault ≠ .loop := by
  obtain ⟨p, hp⟩ := exists_of_isOk (show (ofSource tangledSource).isOk = true by decide +kernel)
  exact ⟨p, hp, typing_wellFounded hp⟩

end Sable.Program
