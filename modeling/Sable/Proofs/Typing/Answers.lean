import Sable.Proofs.Typing.Orders
import Sable.Proofs.Typing.Queries

/-! Answers do not depend on what was asked before.

Without a memo there is one table of types that obeys the rule of every node: the rule asks for nodes with smaller
numbers only. A memo holds entries of this table and nothing else, also behind queries that failed half-way, and
between queries nothing is left marked as being visited. So every query is answered as by a program that has not
been asked anything.

The order in which the entries of substitutions are gone through may change from query to query. The types stay the
same, and with them what a memo holds. One order for a query is enough, because a query ends at the first call that
cannot be inferred, and nowhere else does the order show. -/
namespace Sable.Program

variable {p : Program}

section

variable [EntryOrder]

/-! ## Types by recursion alone -/

/-- Every node has the type, or the error, that its rule makes of the types of the other nodes. -/
def ObeysRules (p : Program) (τ : TypeTable) : Prop := ∀ id, τ id = typeRule p τ id

/-- The rules leave no choice. -/
theorem obeysRules_iff (h : p.LaidOut) {τ : TypeTable} : p.ObeysRules τ ↔ τ = p.plainType := by
  constructor
  · intro hτ
    funext id
    induction id using Nat.strongRecOn with
    | ind id ih =>
        calc τ id = typeRule p τ id := hτ id
          _ = typeRule p p.plainType id := h.typeRule_congr ih
          _ = p.plainType id := (plainType_eq h id).symm
  · rintro rfl
    exact plainType_eq h

/-! ## Answers -/

/-- What a query is answered: a type, or nothing where all it asks is whether the program is valid. -/
def Query.answer (p : Program) : Query → Typing (Option Ty)
  | node id => do pure (some (← p.typeOf id))
  | binding id => do pure (some (← p.typeOfBinding id))
  | result => do pure (some (← p.resultType))
  | validate => do
    p.validate
    pure none

/-- The answer of a program that has not been asked before. -/
def Query.freshAnswer (p : Program) (q : Query) : Except TypeError (Option Ty) := ((q.answer p).run p.blank).1

/-- From every memo of plain types a query has the same answer, and it leaves such a memo. -/
theorem Query.recalls_answer (h : p.LaidOut) (q : Query) : ∃ answer, p.Recalls Idle (q.answer p) answer := by
  have hpure {α β : Type} (f : α → β) {c : Typing α} {c' : Except TypeError α} (hc : p.Recalls Idle c c') :
      p.Recalls Idle (c >>= fun a => pure (f a)) (c' >>= fun a => pure (f a)) :=
    hc.bind fun a => (p.recalling Idle).pure (f a)
  cases q with
  | node id => exact ⟨_, hpure some (recalls_typeOf h id)⟩
  | binding id => exact ⟨_, hpure some (recalls_typeOfBinding h id)⟩
  | result => exact ⟨_, hpure some (recalls_typeOf h p.body.result)⟩
  | validate =>
      obtain ⟨answer, hanswer, -⟩ := decides_validate h
      exact ⟨_, hpure (fun _ => none) hanswer⟩

/-- One query. -/
theorem Query.run_answer (h : p.LaidOut) (q : Query) {memo : Memo} (hidle : Idle memo.visiting)
    (hknows : p.Knows memo) : ((q.answer p).run memo).1 = q.freshAnswer p ∧
      Idle ((q.answer p).run memo).2.visiting ∧ p.Knows ((q.answer p).run memo).2 := by
  obtain ⟨answer, hrecalls⟩ := q.recalls_answer h
  obtain ⟨hanswer, hvisiting, hknows'⟩ := hrecalls memo hidle hknows
  obtain ⟨hfresh, -⟩ := hrecalls p.blank rfl (knows_blank p)
  exact ⟨hanswer.trans hfresh.symm, hvisiting.trans hidle, hknows'⟩

theorem freshAnswer_node (h : p.LaidOut) (id : NodeId) :
    (Query.node id).freshAnswer p = (p.plainType id).map some := by
  have hrecalls := (recalls_typeOf h id).bind fun type => (p.recalling Idle).pure (some type)
  obtain ⟨hanswer, -⟩ := hrecalls p.blank rfl (knows_blank p)
  exact hanswer

theorem freshAnswer_binding (h : p.LaidOut) (id : BindingId) :
    (Query.binding id).freshAnswer p = (bindingType p p.plainType id).map some := by
  have hrecalls := (recalls_typeOfBinding h id).bind fun type => (p.recalling Idle).pure (some type)
  obtain ⟨hanswer, -⟩ := hrecalls p.blank rfl (knows_blank p)
  exact hanswer

end

/-- Where entries are gone through in another order, a query is answered the same, or with another conflict. -/
theorem Query.corresponds_freshAnswer (h : p.LaidOut) (q : Query) (order order' : EntryOrder) :
    Corresponds (@Query.freshAnswer order p q) (@Query.freshAnswer order' p q) := by
  let R := p.recallingBoth order order'
  have hnode (id : NodeId) : R.Rel (@typeOf order p id) (@typeOf order' p id) := recallingBoth_typeOf h id
  have hanswer : R.Rel (@Query.answer order p q) (@Query.answer order' p q) := by
    cases q with
    | node id => exact R.bind (hnode id) fun _ => R.pure _
    | binding id => exact R.bind (R.bindingType fun c _ => hnode c) fun _ => R.pure _
    | result => exact R.bind (hnode p.body.result) fun _ => R.pure _
    | validate => exact R.bind (recallingBoth_validate h) fun _ => R.pure _
  exact corresponds_of_recallingBoth hanswer

/-! ## Sequences of queries -/

/-- Queries asked one after the other, each in an order of its own: the answers, and the memo behind the last. -/
def answers (p : Program) : List (EntryOrder × Query) → Memo → List (Except TypeError (Option Ty)) × Memo
  | [], memo => ([], memo)
  | (order, q) :: rest, memo =>
    let (answer, next) := (@Query.answer order p q).run memo
    let (others, last) := p.answers rest next
    (answer :: others, last)

/-- Any number of queries. -/
theorem answers_of_knows [order : EntryOrder] (h : p.LaidOut) (queries : List (EntryOrder × Query)) {memo : Memo}
    (hidle : Idle memo.visiting) (hknows : p.Knows memo) :
    (p.answers queries memo).1 = queries.map (fun (order, q) => @Query.freshAnswer order p q) ∧
      Idle (p.answers queries memo).2.visiting ∧ p.Knows (p.answers queries memo).2 := by
  induction queries generalizing memo with
  | nil => exact ⟨rfl, hidle, hknows⟩
  | cons asked rest ih =>
      obtain ⟨own, q⟩ := asked
      obtain ⟨hanswer, hidle', hknows'⟩ := @Query.run_answer p own h q memo hidle (hknows.of_order h)
      obtain ⟨hothers, hlast⟩ := ih hidle' (Knows.of_order h hknows')
      exact ⟨List.cons_eq_cons.mpr ⟨hanswer, hothers⟩, hlast⟩

/-- In a program that can be built there is one table of types that obeys the rules, for each order of entries; the
types are the same in all of them. Queries one after the other, be they answered or not, each in an order of its own,
are answered as by a program that is asked nothing else, types of nodes and bindings by the table; behind them nothing
is being visited, and all that is remembered stands in the tables. In another order a query has the same answer, or
names another of several conflicts at the same place. -/
theorem answers_independent {tree : Tree} {p : Program} (h : ofTree tree = .ok p) :
    ∃ τ : EntryOrder → TypeTable, (∀ order τ', @ObeysRules order p τ' ↔ τ' = τ order) ∧
      (∀ order id, @Query.freshAnswer order p (.node id) = (τ order id).map some) ∧
      (∀ order id, @Query.freshAnswer order p (.binding id) = (bindingType p (τ order) id).map some) ∧
      (∀ order order' q, Corresponds (@Query.freshAnswer order p q) (@Query.freshAnswer order' p q)) ∧
      ∀ queries, (p.answers queries p.blank).1 = queries.map (fun (order, q) => @Query.freshAnswer order p q) ∧
        (p.answers queries p.blank).2.visiting = [] ∧
        ∀ id type, (p.answers queries p.blank).2.known.getD id none = some type → ∀ order, τ order id = .ok type := by
  have hlaid := laidOut_of_ofTree h
  refine ⟨fun order => @plainType order p, fun order _ => @obeysRules_iff p order hlaid _,
    fun order => @freshAnswer_node p order hlaid, fun order => @freshAnswer_binding p order hlaid,
    fun order order' q => q.corresponds_freshAnswer hlaid order order', fun queries => ?_⟩
  obtain ⟨hanswers, hidle, -, hknown⟩ := answers_of_knows hlaid queries (show Idle p.blank.visiting from rfl)
    (knows_blank p)
  exact ⟨hanswers, hidle, fun id type hid _ => plainType_eq_ok_of_order hlaid (hknown id type hid)⟩

/-- Both type arguments of the call are in conflict. -/
def tornSource : String :=
  "def f[A, B](x: {a: A, b: B}, y: {a: A, b: B}): Number = 1\n" ++
  "return f({a: 1, b: true}, {a: true, b: 1})"

/-- The call is asked for, which fails, then something inside it, and then the call again in another order. -/
def interrupted : List (EntryOrder × Query) :=
  [(.asPutIn, .result), (.asPutIn, .node 2), (.rotated 1, .result), (.rotated 1, .validate), (.asPutIn, .result)]

/-- What is wrong, if anything is. -/
def complaint? (answer : Except TypeError (Option Ty)) : Option String :=
  match answer with
  | .ok _ => none
  | .error e => some e.text

theorem answers_independent_torn : ∃ (p : Program) (τ : EntryOrder → TypeTable), ofTree (parse tornSource).tree = .ok p ∧
    (p.answers interrupted p.blank).1.map complaint? =
      [some "[65:100] ambiguous type for type argument A: both Number and Boolean", none,
        some "[65:100] ambiguous type for type argument B: both Boolean and Number",
        some "[65:100] ambiguous type for type argument B: both Boolean and Number",
        some "[65:100] ambiguous type for type argument A: both Number and Boolean"] ∧
    (∀ order τ', @ObeysRules order p τ' ↔ τ' = τ order) ∧
    (p.answers interrupted p.blank).1 = interrupted.map (fun (order, q) => @Query.freshAnswer order p q) ∧
    (p.answers interrupted p.blank).2.visiting = [] ∧
    ∀ id type, (p.answers interrupted p.blank).2.known.getD id none = some type → ∀ order, τ order id = .ok type := by
  have hasked : ((ofTree (parse tornSource).tree).toOption.map fun p =>
      (p.answers interrupted p.blank).1.map complaint?) =
        some [some "[65:100] ambiguous type for type argument A: both Number and Boolean", none,
          some "[65:100] ambiguous type for type argument B: both Boolean and Number",
          some "[65:100] ambiguous type for type argument B: both Boolean and Number",
          some "[65:100] ambiguous type for type argument A: both Number and Boolean"] := by
    decide +kernel
  obtain ⟨p, hp⟩ := exists_of_isOk (show (ofTree (parse tornSource).tree).isOk = true by decide +kernel)
  rw [hp] at hasked
  obtain ⟨τ, hτ, -, -, -, hanswers⟩ := answers_independent hp
  exact ⟨p, τ, hp, Option.some.inj hasked, hτ, hanswers interrupted⟩

end Sable.Program
