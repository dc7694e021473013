import Sable.Program.Typing

/-! Type determination by memo against the rules alone.

The types that a memo holds obey the rules: a rule that asks a finished table of types instead of the memo
comes to the type that the memo has. -/
namespace Sable

/-- Types by node, or what is wrong with a node. -/
abbrev TypeTable := NodeId → Except TypeError Ty

namespace Program

variable (p : Program)

/-- A table that has the types of a memo. A number that belongs to no node has the type of `null`. -/
structure Includes (τ : TypeTable) (memo : Memo) : Prop where
  known : ∀ (id : NodeId) (type : Ty), memo.known.getD id none = some type → τ id = .ok type
  outside : ∀ id : NodeId, p.nodes.size ≤ id → τ id = .ok .null

/-- A memo whose types are those that the rules give from any table that includes it. -/
structure Sound (memo : Memo) : Prop where
  size : memo.known.size = p.nodes.size
  rule : ∀ (id : NodeId) (type : Ty), memo.known.getD id none = some type →
    ∀ τ : TypeTable, p.Includes τ memo → typeRule p τ id = .ok type

variable {p}

/-- A step of type determination that keeps memos sound, and where it gives `a` all tables that include
the memo after it satisfy `Q` with `a`. -/
def Establishes (p : Program) {α : Type} (c : Typing α) (Q : TypeTable → α → Prop) : Prop :=
  ∀ (memo memo' : Memo) (a : α), p.Sound memo → c.run memo = (.ok a, memo') →
    p.Sound memo' ∧ ∀ τ : TypeTable, p.Includes τ memo' → p.Includes τ memo ∧ Q τ a

theorem run_bind_eq {α β : Type} (c : Typing α) (f : α → Typing β) (memo : Memo) :
    (c >>= f).run memo = match c.run memo with
      | (.ok a, mid) => (f a).run mid
      | (.error e, mid) => (.error e, mid) := by
  have hcont : (c >>= f).run memo = ExceptT.bindCont f (c.run memo).1 (c.run memo).2 := rfl
  rw [hcont]
  cases c.run memo with
  | mk found mid => cases found <;> rfl

namespace Establishes

variable {α β : Type}

theorem pure {Q : TypeTable → α → Prop} {a : α} (h : ∀ τ, Q τ a) :
    p.Establishes (Pure.pure a) Q := by
  intro memo memo' a' hsound hrun
  cases hrun
  exact ⟨hsound, fun τ hτ => ⟨hτ, h τ⟩⟩

theorem fail {Q : TypeTable → α → Prop} (fault : TypeFault) (span : Span) :
    p.Establishes (Program.fail fault span) Q := by
  intro memo memo' a _ hrun
  cases hrun

theorem run_bind {c : Typing α} {f : α → Typing β} {memo memo' : Memo} {b : β} :
    (c >>= f).run memo = (.ok b, memo') →
      ∃ a mid, c.run memo = (.ok a, mid) ∧ (f a).run mid = (.ok b, memo') := by
  intro hrun
  rw [run_bind_eq] at hrun
  split at hrun
  · exact ⟨_, _, ‹_›, hrun⟩
  · cases hrun

theorem bind {c : Typing α} {f : α → Typing β} {Q : TypeTable → α → Prop}
    {Q' : TypeTable → β → Prop} (h : p.Establishes c Q)
    (hf : ∀ a, p.Establishes (f a) fun τ b => Q τ a → Q' τ b) : p.Establishes (c >>= f) Q' := by
  intro memo memo' b hsound hrun
  obtain ⟨a, mid, hc, hrun⟩ := run_bind hrun
  obtain ⟨hmid, ha⟩ := h memo mid a hsound hc
  obtain ⟨hsound', hb⟩ := hf a mid memo' b hmid hrun
  refine ⟨hsound', fun τ hτ => ?_⟩
  obtain ⟨hτmid, hQ'⟩ := hb τ hτ
  obtain ⟨hτmemo, hQ⟩ := ha τ hτmid
  exact ⟨hτmemo, hQ' hQ⟩

theorem mono {c : Typing α} {Q Q' : TypeTable → α → Prop} (h : p.Establishes c Q)
    (hQ : ∀ τ a, Q τ a → Q' τ a) : p.Establishes c Q' := by
  intro memo memo' a hsound hrun
  obtain ⟨hsound', ha⟩ := h memo memo' a hsound hrun
  exact ⟨hsound', fun τ hτ => ⟨(ha τ hτ).1, hQ τ a (ha τ hτ).2⟩⟩

end Establishes

/-- What `c` gives, `c'` gives from every table that includes the memo after it. -/
abbrev Follows (p : Program) {α : Type} (c : Typing α) (c' : TypeTable → Except TypeError α) : Prop :=
  p.Establishes c fun τ a => c' τ = .ok a

namespace Follows

variable {α β : Type}

theorem pure (a : α) : p.Follows (Pure.pure a) fun _ => Pure.pure a :=
  Establishes.pure fun _ => rfl

theorem fail (fault : TypeFault) (span : Span) :
    p.Follows (Program.fail fault span : Typing α) fun _ => Program.fail fault span :=
  Establishes.fail fault span

theorem bind {c : Typing α} {c' : TypeTable → Except TypeError α} {f : α → Typing β}
    {f' : TypeTable → α → Except TypeError β} (h : p.Follows c c')
    (hf : ∀ a, p.Follows (f a) fun τ => f' τ a) : p.Follows (c >>= f) fun τ => c' τ >>= f' τ := by
  refine Establishes.bind h fun a => (hf a).mono fun τ b hb ha => ?_
  have hbind : c' τ >>= f' τ = f' τ a := by
    rw [ha]
    rfl
  exact hbind.trans hb

theorem ite {c : Prop} [Decidable c] {a b : Typing α} {a' b' : TypeTable → Except TypeError α}
    (ha : p.Follows a a') (hb : p.Follows b b') :
    p.Follows (if c then a else b) fun τ => if c then a' τ else b' τ := by
  by_cases h : c
  · simpa only [h, if_true] using ha
  · simpa only [h, if_false] using hb

end Follows

section

variable {ask : NodeId → Typing Ty} (hask : ∀ id, p.Follows (ask id) fun τ => τ id)
include hask

theorem follows_signatureType (s : Signature) (body : Option FunctionBody) :
    p.Follows (signatureType ask s body) fun τ => signatureType τ s body := by
  unfold signatureType
  cases s.result with
  | some type => exact .bind (.pure type) fun _ => .pure _
  | none =>
      cases body with
      | some body => exact .bind (hask body.result) fun _ => .pure _
      | none => exact .bind (.fail _ _) fun _ => .pure _

theorem follows_bindingType (id : BindingId) :
    p.Follows (bindingType p ask id) fun τ => bindingType p τ id := by
  unfold bindingType
  cases p.binding id with
  | value name span type node =>
      cases type with
      | some type => exact .pure _
      | none => exact hask node
  | function name span s body => exact follows_signatureType hask s body
  | parameter name span type => exact .pure _
  | payload name span scrutinee tag =>
      refine .bind (hask scrutinee) fun type => ?_
      cases type.tagView?.bind (·.payload? tag) with
      | some payload => exact .pure _
      | none => exact .fail _ _

theorem follows_referenceType (name : String) (target : Option Target) (span : Span) :
    p.Follows (referenceType p ask name target span) fun τ => referenceType p τ name target span := by
  unfold referenceType
  match target with
  | none => exact .fail _ _
  | some (.bound id) => exact follows_bindingType hask id
  | some (.narrowed id tag) => exact .bind (follows_bindingType hask id) fun _ => .pure _
  | some (.nonNull id) => exact .bind (follows_bindingType hask id) fun _ => .pure _
  | some (.enclosing id) =>
      simp only
      have hbinding := follows_bindingType hask id
      cases p.binding id with
      | function _ _ s _ => exact .ite (follows_signatureType hask s none) (.fail _ _)
      | _ => exact hbinding

theorem follows_askAll (ids : List NodeId) : p.Follows (askAll ask ids) fun τ => askAll τ ids := by
  induction ids with
  | nil => exact .pure _
  | cons id rest ih => exact .bind (hask id) fun _ => .bind ih fun _ => .pure _

theorem follows_objectFields (span : Span) (fields : List (String × NodeId)) : ∀ done : Fields Ty,
    p.Follows (objectFields ask span done fields) fun τ => objectFields τ span done fields := by
  induction fields with
  | nil => exact fun done => .pure _
  | cons field rest ih =>
      intro done
      refine .bind (hask field.2) fun type => ?_
      exact .ite (.bind (.fail _ _) fun _ => ih _) (ih _)

omit hask in
theorem follows_callSubstitution (callee : Option String) (vs : List TypeVariable)
    (parameters : Parameters) (written types : List Ty) (span : Span) :
    p.Follows (callSubstitution callee vs parameters written types span) fun _ =>
      callSubstitution callee vs parameters written types span := by
  unfold callSubstitution
  refine .ite (.ite (.pure _) ?_) (.ite (.pure _) (.fail _ _))
  cases Substitution.infer vs parameters types with
  | ok s => exact .pure _
  | error e => exact .fail _ _

omit hask in
theorem follows_requireAssignable (actual expected : Ty) (span : Span) :
    p.Follows (requireAssignable actual expected span) fun _ =>
      requireAssignable actual expected span := by
  unfold requireAssignable
  cases actual.assignable expected with
  | error e => exact .fail _ _
  | ok related => cases related <;> first | exact .pure _ | exact .fail _ _

omit hask in
theorem follows_requireTagView (construct : String) (type : Ty) (span : Span) :
    p.Follows (requireTagView construct type span) fun _ => requireTagView construct type span := by
  unfold requireTagView
  cases type.tagView? with
  | some view => exact .pure _
  | none => exact .fail _ _

omit hask in
theorem follows_arithmeticType (op : ArithmeticOp) (a b : Ty) (span : Span) :
    p.Follows (arithmeticType op a b span) fun _ => arithmeticType op a b span := by
  unfold arithmeticType
  cases a with
  | number => cases b <;> first | exact .pure _ | exact .fail _ _
  | bigInteger => cases b <;> first | exact .ite (.pure _) (.fail _ _) | exact .fail _ _
  | _ => exact .fail _ _

omit hask in
theorem follows_requireArguments (arguments : List (NodeId × Ty)) : ∀ parameters : Parameters,
    p.Follows (p.requireArguments parameters arguments) fun _ =>
      p.requireArguments parameters arguments := by
  induction arguments with
  | nil =>
      intro parameters
      cases parameters <;> exact .pure _
  | cons argument rest ih =>
      intro parameters
      match parameters with
      | .fixed [] => exact .pure _
      | .fixed (_ :: _) => exact .bind (follows_requireAssignable _ _ _) fun _ => ih _
      | .variadic _ => exact .bind (follows_requireAssignable _ _ _) fun _ => ih _

theorem follows_callType (callee : NodeId) (written : List Ty) (arguments : List NodeId)
    (span : Span) : p.Follows (callType p ask callee written arguments span) fun τ =>
      callType p τ callee written arguments span := by
  refine .bind (hask callee) fun type => ?_
  cases type with
  | function vs parameters result =>
      refine .bind (follows_askAll hask arguments) fun types => ?_
      have hrest := fun _ : Unit =>
        Follows.bind (p := p) (follows_callSubstitution (p.calleeName? callee) vs parameters written
          types span) fun s => .bind (follows_requireArguments (arguments.zip types)
            (s.applyParameters parameters)) fun _ => .pure (s.apply result)
      cases parameters with
      | fixed ps => exact .ite (.bind (.fail _ _) hrest) (hrest ())
      | variadic parameter => exact hrest ()
  | _ => exact .fail _ _

theorem follows_armTypes (view : Ty.TagView) (type : Ty) (arms : List Arm) :
    ∀ (seen : List String) (agreed : Option Ty), p.Follows (armTypes ask view type seen agreed arms)
      fun τ => armTypes τ view type seen agreed arms := by
  induction arms with
  | nil => exact fun _ _ => .pure _
  | cons arm rest ih =>
      intro seen agreed
      simp only [armTypes]
      refine .ite (.bind (.fail _ _) fun _ => ?_) ?_
      all_goals
        refine .ite (.bind (.fail _ _) fun _ => ?_) ?_
        all_goals
          refine .bind (hask arm.body) fun body => ?_
          cases agreed with
          | none => exact .bind (.pure _) fun next => ih _ _
          | some first =>
              simp only
              cases agreeing? first body with
              | some both => exact .bind (.pure _) fun next => ih _ _
              | none => exact .bind (.fail _ _) fun next => ih _ _

theorem follows_casesType (scrutinee : NodeId) (arms : List Arm) (span : Span) :
    p.Follows (casesType ask scrutinee arms span) fun τ => casesType τ scrutinee arms span := by
  unfold casesType
  refine .bind (hask scrutinee) fun type => .bind (follows_requireTagView _ _ _) fun view => ?_
  refine .bind (follows_armTypes hask view type arms [] none) fun found => ?_
  obtain ⟨seen, agreed⟩ := found
  simp only
  refine .ite (.bind (.fail _ _) fun _ => ?_) ?_
  all_goals
    cases agreed with
    | some result => exact .pure _
    | none => exact .fail _ _

/-- The rule of a node, asked by memo and asked of a table. -/
theorem follows_typeRule (id : NodeId) : p.Follows (typeRule p ask id) fun τ => typeRule p τ id := by
  unfold typeRule
  cases (p.node id).form with
  | number _ | bigInteger _ | boolean _ | null => exact .pure _
  | object fields => exact .bind (follows_objectFields hask _ fields []) fun _ => .pure _
  | arithmetic op lhs rhs =>
      exact .bind (hask lhs) fun a => .bind (hask rhs) fun b => follows_arithmeticType op a b _
  | negate operand =>
      refine .bind (hask operand) fun type => ?_
      cases type <;> first | exact .pure _ | exact .fail _ _
  | comparison op lhs rhs =>
      refine .bind (hask lhs) fun a => .bind (hask rhs) fun b => ?_
      unfold comparisonType
      exact .ite (.pure _) (.fail _ _)
  | logical op lhs rhs =>
      exact .bind (hask lhs) fun a => .bind (hask rhs) fun b => .ite (.pure _) (.fail _ _)
  | not operand =>
      refine .bind (hask operand) fun type => ?_
      cases type <;> first | exact .pure _ | exact .fail _ _
  | conditional condition thenBranch elseBranch =>
      refine .bind (hask condition) fun c => .ite (.bind (.fail _ _) fun _ => ?_) ?_
      all_goals
        refine .bind (hask thenBranch) fun a => .bind (hask elseBranch) fun b => ?_
        cases agreeing? a b with
        | some both => exact .pure _
        | none => exact .fail _ _
  | reference name target => exact follows_referenceType hask name target _
  | call callee written arguments => exact follows_callType hask callee written arguments _
  | lambda s body => exact follows_signatureType hask s (some body)
  | field owner name =>
      refine .bind (hask owner) fun type => ?_
      cases type with
      | object fields =>
          simp only
          cases Fields.get? name fields with
          | some type => exact .pure _
          | none => exact .fail _ _
      | _ => exact .fail _ _
  | tagged value tag => exact .bind (hask value) fun _ => .pure _
  | hasTag value tag =>
      exact .bind (hask value) fun type => .bind (follows_requireTagView _ _ _) fun view =>
        .ite (.pure _) (.fail _ _)
  | untag value =>
      refine .bind (hask value) fun type => .bind (follows_requireTagView _ _ _) fun view => ?_
      cases view.pinned with
      | some pinned => exact .pure _
      | none => exact .fail _ _
  | cases scrutinee arms => exact follows_casesType hask scrutinee arms _

end

end Program

end Sable
