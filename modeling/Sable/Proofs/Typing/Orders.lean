import Sable.Proofs.Ty.Orders
import Sable.Proofs.Typing.Validity

/-! Types and the order in which entries are gone through.

The types of a program do not depend on the order in which the entries of substitutions are gone through, nor does it
whether the program is valid. What is wrong with a program is the same in every order and at the same place, except that
the conflict of types that keeps a call from being inferred may be another one of several. -/
namespace Sable

/-- The same error at the same place, but perhaps another conflict of the same call. -/
def TypeError.Alternative (e e' : TypeError) : Prop :=
  e.span = e'.span ∧ (e.fault = e'.fault ∨
    ∃ i i', e.fault = .inference i ∧ e'.fault = .inference i' ∧ Substitution.Alternative i i')

theorem TypeError.Alternative.refl (e : TypeError) : e.Alternative e := ⟨rfl, .inl rfl⟩

namespace Program

/-- What a program is answered in two orders. -/
abbrev Corresponds {α : Type} : Except TypeError α → Except TypeError α → Prop := Parallel TypeError.Alternative Eq

theorem Corresponds.refl {α : Type} (c : Except TypeError α) : Corresponds c c := by
  cases c with
  | ok a => exact .ok rfl
  | error e => exact .error (.refl e)

theorem Corresponds.bind {α β : Type} {c c' : Except TypeError α} {f f' : α → Except TypeError β}
    (hc : Corresponds c c') (hf : ∀ a, Corresponds (f a) (f' a)) : Corresponds (c >>= f) (c' >>= f') := by
  refine Parallel.bind hc fun a b hab => ?_
  subst hab
  exact hf a

theorem Corresponds.eq_ok {α : Type} {c c' : Except TypeError α} {a : α} (h : Corresponds c c') (hc : c = .ok a) :
    c' = .ok a := by
  cases h with
  | ok hab => rw [← hab, hc]
  | error _ => cases hc

/-! ## Types without a memo -/

/-- The rules in two orders. -/
def corresponding : Correspondence (Except TypeError) (Except TypeError) where
  Rel := Corresponds
  pure _ := .refl _
  fail _ _ _ := .refl _
  bind := Corresponds.bind

variable {p : Program} {order order' : EntryOrder}

theorem calls_corresponding : corresponding.Calls order order' := by
  intro p callee vs parameters result written types arguments span
  unfold callSubstitution
  split
  · split
    · exact .refl _
    · have hinfer := @Substitution.corresponds_infer vs order order' parameters types
      generalize @Substitution.infer order vs parameters types = r at hinfer ⊢
      generalize @Substitution.infer order' vs parameters types = r' at hinfer ⊢
      cases hinfer with
      | error h => exact .error ⟨rfl, .inr ⟨_, _, rfl, rfl, h⟩⟩
      | @ok s s' h =>
          obtain ⟨happly, hparameters⟩ := Substitution.apply_congr h.get?
          change Corresponds
            (requireArguments p (s.applyParameters parameters) arguments >>= fun _ => pure (s.apply result))
            (requireArguments p (s'.applyParameters parameters) arguments >>= fun _ => pure (s'.apply result))
          rw [happly, hparameters]
          exact .refl _
  · exact .refl _

theorem corresponds_plainType (h : p.LaidOut) (id : NodeId) :
    Corresponds (@plainType order p id) (@plainType order' p id) := by
  induction id using Nat.strongRecOn with
  | ind id ih =>
      rw [@plainType_eq p order h id, @plainType_eq p order' h id]
      exact corresponding.typeRule_of_calls calls_corresponding fun c hc => ih c (h.asks_lt hc)

/-- A type is the same in every order. -/
theorem plainType_eq_ok_of_order (h : p.LaidOut) {id : NodeId} {type : Ty} (htype : @plainType order p id = .ok type) :
    @plainType order' p id = .ok type := (corresponds_plainType h id).eq_ok htype

theorem corresponds_plainTypeOfBinding (h : p.LaidOut) (id : BindingId) :
    Corresponds (@plainTypeOfBinding order p id) (@plainTypeOfBinding order' p id) :=
  corresponding.bindingType fun c _ => corresponds_plainType h c

/-- A memo of plain types is one in every order. -/
theorem Knows.of_order (h : p.LaidOut) {memo : Memo} (hknows : @Knows order p memo) : @Knows order' p memo := by
  obtain ⟨hsize, hknown⟩ := hknows
  exact ⟨hsize, fun id type hid => plainType_eq_ok_of_order h (hknown id type hid)⟩

/-! ## Validation -/

namespace Correspondence

variable (R : Correspondence Typing Typing)

theorem forAll {α : Type} {check check' : α → Typing Unit} (h : ∀ a, R.Rel (check a) (check' a)) :
    ∀ as : List α, R.Rel (Program.forAll check as) (Program.forAll check' as)
  | [] => R.pure _
  | a :: rest => R.bind (h a) fun _ => forAll h rest

theorem requireDistinct (ids : List BindingId) : ∀ (arguments : List (String × Ty)) (seen : List String),
    R.Rel (p.requireDistinct seen arguments ids) (p.requireDistinct seen arguments ids) := by
  induction ids with
  | nil =>
      intro arguments seen
      cases arguments <;> exact R.pure _
  | cons id rest ih =>
      intro arguments seen
      cases arguments with
      | nil => exact R.pure _
      | cons argument others => exact R.check nofun (ih others _)

section

variable (htypeOf : ∀ id, R.Rel (@typeOf order p id) (@typeOf order' p id))
include htypeOf

theorem requireDeclared (declared : Option Ty) (id : NodeId) :
    R.Rel (@Program.requireDeclared order p declared id) (@Program.requireDeclared order' p declared id) := by
  cases declared with
  | none => exact R.pure _
  | some type => exact R.bind (htypeOf id) fun actual => R.requireAssignable actual type _

section

variable {node node' : NodeId → Typing Unit} {binding binding' : BindingId → Typing Unit}
  (hnode : ∀ id, R.Rel (node id) (node' id)) (hbinding : ∀ id, R.Rel (binding id) (binding' id))
include hnode hbinding

omit htypeOf in
theorem validateBodyWith (body : FunctionBody) :
    R.Rel (Program.validateBodyWith node binding body) (Program.validateBodyWith node' binding' body) :=
  R.bind (R.forAll hbinding body.bindings) fun _ => hnode body.result

theorem validateFunctionWith (s : Signature) (body : Option FunctionBody) :
    R.Rel (@Program.validateFunctionWith order p node binding s body)
      (@Program.validateFunctionWith order' p node' binding' s body) := by
  unfold Program.validateFunctionWith
  cases body with
  | none =>
      cases s.arguments with
      | fixed arguments => exact R.bind (R.requireDistinct s.parameters arguments []) fun _ => R.pure _
      | variadic _ => exact R.pure _
  | some body =>
      have hbody := R.bind (R.validateBodyWith hnode hbinding body) fun _ =>
        R.requireDeclared htypeOf s.result body.result
      cases s.arguments with
      | fixed arguments => exact R.bind (R.requireDistinct s.parameters arguments []) fun _ => hbody
      | variadic _ => exact hbody

theorem validateBindingWith (id : BindingId) :
    R.Rel (@Program.validateBindingWith order p node binding id)
      (@Program.validateBindingWith order' p node' binding' id) := by
  unfold Program.validateBindingWith
  cases p.binding id with
  | value name span type value => exact R.bind (hnode value) fun _ => R.requireDeclared htypeOf type value
  | function name span s body => exact R.validateFunctionWith htypeOf hnode hbinding s body
  | _ => exact R.pure _

theorem validateNodeWith (id : NodeId) :
    R.Rel (@Program.validateNodeWith order p node binding id)
      (@Program.validateNodeWith order' p node' binding' id) := by
  refine R.bind (htypeOf id) fun _ => ?_
  cases (p.node id).form with
  | lambda s body => exact R.validateFunctionWith htypeOf hnode hbinding s (some body)
  | _ => exact R.forAll hnode _

end

/-- Validation in both orders, if the types that it asks for correspond. -/
theorem validate (hloop : ∀ span, R.Rel (Program.fail .loop span : Typing Unit) (Program.fail .loop span)) :
    R.Rel (@Program.validate order p) (@Program.validate order' p) := by
  have hparts (depth : Nat) :
      (∀ id, R.Rel (@validateNodeUpTo order p depth id) (@validateNodeUpTo order' p depth id)) ∧
        ∀ id, R.Rel (@validateBindingUpTo order p depth id) (@validateBindingUpTo order' p depth id) := by
    induction depth with
    | zero => exact ⟨fun id => hloop _, fun id => hloop _⟩
    | succ depth ih =>
        exact ⟨R.validateNodeWith htypeOf ih.1 ih.2, R.validateBindingWith htypeOf ih.1 ih.2⟩
  obtain ⟨hnode, hbinding⟩ := hparts (p.nodes.size + p.bindings.size)
  exact R.validateBodyWith hnode hbinding p.body

end

end Correspondence

/-- While nothing is being visited, computations in two orders have results that correspond, from every memo of plain
types, and leave such memos. -/
def recallingBoth (p : Program) (order order' : EntryOrder) : Correspondence Typing Typing where
  Rel c c' := ∃ r r', @Recalls order p Idle _ c r ∧ @Recalls order' p Idle _ c' r' ∧ Corresponds r r'
  pure a := ⟨_, _, (@recalling order p Idle).pure a, (@recalling order' p Idle).pure a, .refl _⟩
  fail fault span hfault :=
    ⟨_, _, (@recalling order p Idle).fail fault span hfault, (@recalling order' p Idle).fail fault span hfault, .refl _⟩
  bind := by
    rintro α β c c' f f' ⟨r, r', hr, hr', hboth⟩ hf
    choose g g' hg hg' hrest using hf
    exact ⟨_, _, @Recalls.bind p order _ _ _ _ _ _ _ hr hg, @Recalls.bind p order' _ _ _ _ _ _ _ hr' hg',
      hboth.bind hrest⟩

/-- A program that has not been asked before answers alike in both orders. -/
theorem corresponds_of_recallingBoth {α : Type} {c c' : Typing α} (h : (p.recallingBoth order order').Rel c c') :
    Corresponds (c.run p.blank).1 (c'.run p.blank).1 := by
  obtain ⟨r, r', hr, hr', hboth⟩ := h
  obtain ⟨hfresh, -⟩ := hr p.blank rfl (@knows_blank order p)
  obtain ⟨hfresh', -⟩ := hr' p.blank rfl (@knows_blank order' p)
  rw [hfresh, hfresh']
  exact hboth

theorem recallingBoth_typeOf (h : p.LaidOut) (id : NodeId) :
    (p.recallingBoth order order').Rel (@typeOf order p id) (@typeOf order' p id) :=
  ⟨_, _, @recalls_typeOf p order h id, @recalls_typeOf p order' h id, corresponds_plainType h id⟩

theorem recallingBoth_validate (h : p.LaidOut) :
    (p.recallingBoth order order').Rel (@validate order p) (@validate order' p) := by
  refine (p.recallingBoth order order').validate (recallingBoth_typeOf h) fun span => ?_
  exact ⟨_, _, fun _ _ hknows => ⟨rfl, rfl, hknows⟩, fun _ _ hknows => ⟨rfl, rfl, hknows⟩, .refl _⟩

/-- Whether a text passes its checks is the same in every order. -/
theorem check_eq_ok_of_order {source : String} (h : @check order source = .ok p) : @check order' source = .ok p := by
  obtain ⟨hp, hvalid⟩ := (@check_eq_ok_iff p order source).mp h
  have hboth := corresponds_of_recallingBoth (@recallingBoth_validate p order order' (laidOut_of_ofSource hp))
  exact (@check_eq_ok_iff p order' source).mpr ⟨hp, hboth.eq_ok hvalid⟩

end Program

end Sable
