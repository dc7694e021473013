import Sable.Program.Validation
import Sable.Proofs.Typing.Follows

/-! What a successful validation finds out.

The types that it leaves behind obey the rules, and everything that belongs to the program has been looked
at: its nodes have types, and what has a declared type fits it. -/
namespace Sable.Program

variable {p : Program}

/-! ## Types by memo -/

/-- The types of a memo as a table. -/
def table (p : Program) (memo : Memo) : TypeTable := fun id =>
  if p.nodes.size ≤ id then .ok .null
  else match memo.known.getD id none with
    | some type => .ok type
    | none => .error ⟨.loop, (p.node id).span⟩

theorem Sound.lt_size {memo : Memo} (h : p.Sound memo) {id : NodeId} {type : Ty}
    (hknown : memo.known.getD id none = some type) : id < p.nodes.size := by
  rw [← h.size]
  refine Nat.lt_of_not_le fun hge => ?_
  rw [Array.getD_eq_getD_getElem?, Array.getElem?_eq_none hge] at hknown
  cases hknown

theorem Sound.includes_table {memo : Memo} (h : p.Sound memo) : p.Includes (p.table memo) memo := by
  constructor
  · intro id type hknown
    have hlt := h.lt_size hknown
    simp only [table, Nat.not_le.mpr hlt, if_false, hknown]
  · intro id hid
    simp only [table, hid, if_true]

theorem Sound.congr {memo memo' : Memo} (h : p.Sound memo) (hknown : memo'.known = memo.known) :
    p.Sound memo' := by
  constructor
  · rw [hknown]
    exact h.size
  · intro id type hid τ hτ
    rw [hknown] at hid
    exact h.rule id type hid τ ⟨fun i a hi => hτ.known i a (hknown ▸ hi), hτ.outside⟩

theorem Includes.congr {τ : TypeTable} {memo memo' : Memo} (h : p.Includes τ memo)
    (hknown : memo'.known = memo.known) : p.Includes τ memo' :=
  ⟨fun id type hid => h.known id type (hknown ▸ hid), h.outside⟩

theorem node_of_size_le {id : NodeId} (hid : p.nodes.size ≤ id) : p.node id = ⟨.null, .none⟩ := by
  rw [Program.node, Array.getD_eq_getD_getElem?, Array.getElem?_eq_none hid]
  rfl

theorem known_set {known : Array (Option Ty)} {id i : NodeId} {type : Ty} (hid : id < known.size) :
    (known.setIfInBounds id (some type)).getD i none =
      if i = id then some type else known.getD i none := by
  rw [Array.getD_eq_getD_getElem?, Array.getElem?_setIfInBounds]
  split
  · rename_i h
    subst h
    simp
  · rename_i h
    rw [if_neg (Ne.symm h), Array.getD_eq_getD_getElem?]

/-- A type that follows from a sound memo may be noted down in it. -/
theorem Sound.note {memo : Memo} (h : p.Sound memo) {id : NodeId} {type : Ty}
    (hrule : ∀ τ : TypeTable, p.Includes τ memo → typeRule p τ id = .ok type) :
    p.Sound { memo with known := memo.known.setIfInBounds id (some type) } ∧
      ∀ τ : TypeTable,
        p.Includes τ { memo with known := memo.known.setIfInBounds id (some type) } →
          p.Includes τ memo ∧ τ id = .ok type := by
  by_cases hid : id < p.nodes.size
  · have hset : ∀ i : NodeId, (memo.known.setIfInBounds id (some type)).getD i none =
        if i = id then some type else memo.known.getD i none := fun i => known_set (h.size ▸ hid)
    -- a type that the memo has already is the same one
    have hsame : ∀ a, memo.known.getD id none = some a → a = type := by
      intro a ha
      have hfirst := h.rule id a ha _ h.includes_table
      rw [hrule _ h.includes_table] at hfirst
      exact (Except.ok.inj hfirst).symm
    have hback : ∀ τ : TypeTable,
        p.Includes τ { memo with known := memo.known.setIfInBounds id (some type) } →
          p.Includes τ memo ∧ τ id = .ok type := by
      intro τ hτ
      have hnoted : τ id = .ok type := hτ.known id type (by simp [hset])
      refine ⟨⟨fun i a hi => ?_, hτ.outside⟩, hnoted⟩
      by_cases hi' : i = id
      · subst hi'
        rw [hsame a hi]
        exact hnoted
      · exact hτ.known i a (by simp [hset, hi', hi])
    refine ⟨⟨by simpa using h.size, fun i a hi τ hτ => ?_⟩, hback⟩
    simp only [hset] at hi
    split at hi
    · rename_i hi'
      subst hi'
      obtain rfl := Option.some.inj hi
      exact hrule τ (hback τ hτ).1
    · exact h.rule i a hi τ (hback τ hτ).1
  · have hid := Nat.not_lt.mp hid
    have hset : memo.known.setIfInBounds id (some type) = memo.known :=
      Array.setIfInBounds_eq_of_size_le (h.size ▸ hid)
    have hnull : type = .null := by
      have htype := hrule _ h.includes_table
      simp only [typeRule, node_of_size_le hid] at htype
      exact (Except.ok.inj htype).symm
    rw [hset]
    exact ⟨h, fun τ hτ => ⟨hτ, by rw [hτ.outside id hid, hnull]⟩⟩

theorem run_visit (id : NodeId) (work : Typing Ty) (memo : Memo) :
    (visit id work).run memo =
      match work.run { memo with visiting := id :: memo.visiting } with
      | (.ok type, mid) => (.ok type,
          { known := mid.known.setIfInBounds id (some type), visiting := mid.visiting.erase id })
      | (.error e, mid) => (.error e, { mid with visiting := mid.visiting.erase id }) := by
  have hmodify : ∀ (f : Memo → Memo) (memo : Memo),
      (modify f : Typing PUnit).run memo = (.ok ⟨⟩, f memo) := fun _ _ => rfl
  have hlift : ∀ memo : Memo, (ExceptT.lift work.run : Typing (Except TypeError Ty)).run memo =
      (.ok (work.run memo).1, (work.run memo).2) := fun _ => rfl
  simp only [visit, run_bind_eq, hmodify, hlift]
  cases work.run { memo with visiting := id :: memo.visiting } with
  | mk found mid => cases found <;> rfl

theorem run_typeUpTo_succ [EntryOrder] (depth : Nat) (id : NodeId) (memo : Memo) :
    (p.typeUpTo (depth + 1) id).run memo =
      (match memo.known.getD id none with
      | some type => (pure type : Typing Ty)
      | none =>
        if memo.visiting.contains id then fail .loop (p.node id).span
        else visit id (typeRule p (p.typeUpTo depth) id)).run memo := rfl

theorem follows_typeUpTo (depth : Nat) : ∀ id : NodeId,
    p.Follows (p.typeUpTo depth id) fun τ => τ id := by
  induction depth with
  | zero => exact fun id => Establishes.fail _ _
  | succ depth ih =>
      intro id memo memo' type hsound hrun
      rw [run_typeUpTo_succ] at hrun
      split at hrun
      · rename_i a hknown
        cases hrun
        exact ⟨hsound, fun τ hτ => ⟨hτ, hτ.known id _ hknown⟩⟩
      · split at hrun
        · cases hrun
        · rw [run_visit] at hrun
          split at hrun
          · rename_i a mid hwork
            cases hrun
            have hbegun : p.Sound { memo with visiting := id :: memo.visiting } := hsound.congr rfl
            obtain ⟨hmid, hrule⟩ := follows_typeRule ih id _ mid type hbegun hwork
            obtain ⟨hnoted, hback⟩ := hmid.note fun τ hτ => (hrule τ hτ).2
            refine ⟨hnoted.congr rfl, fun τ hτ => ?_⟩
            obtain ⟨hτmid, htype⟩ := hback τ (hτ.congr rfl)
            exact ⟨(hrule τ hτmid).1.congr rfl, htype⟩
          · cases hrun

theorem follows_typeOf (id : NodeId) : p.Follows (p.typeOf id) fun τ => τ id :=
  follows_typeUpTo _ id

theorem sound_blank (p : Program) : p.Sound p.blank := by
  refine ⟨by simp [blank], fun id type hknown => ?_⟩
  simp only [blank, Array.getD_eq_getD_getElem?, Array.getElem?_replicate] at hknown
  split at hknown <;> cases hknown

/-! ## Validated parts of a program -/

/-- The value of a node fits the type that it is declared to have, if it is. -/
def Declared (τ : TypeTable) (declared : Option Ty) (node : NodeId) : Prop :=
  ∀ type ∈ declared, ∃ actual, τ node = .ok actual ∧ actual.assignable type = .ok true

mutual

/-- A node with a type, all parts of which are validated. -/
inductive ValidNode (p : Program) (τ : TypeTable) : NodeId → Prop
  | plain {id : NodeId} {type : Ty} (htype : τ id = .ok type)
      (hform : ∀ s body, (p.node id).form ≠ .lambda s body)
      (hchildren : ∀ c ∈ children (p.node id).form, ValidNode p τ c) : ValidNode p τ id
  | lambda {id : NodeId} {type : Ty} {s : Signature} {body : FunctionBody}
      (htype : τ id = .ok type) (hform : (p.node id).form = .lambda s body)
      (hbody : ValidBody p τ body) (hresult : Declared τ s.result body.result) : ValidNode p τ id

inductive ValidBody (p : Program) (τ : TypeTable) : FunctionBody → Prop
  | mk {body : FunctionBody} (hbindings : ∀ id ∈ body.bindings, ValidBinding p τ id)
      (hresult : ValidNode p τ body.result) : ValidBody p τ body

inductive ValidBinding (p : Program) (τ : TypeTable) : BindingId → Prop
  | value {id : BindingId} {name : String} {span : Span} {type : Option Ty} {node : NodeId}
      (hbinding : p.binding id = .value name span type node) (hnode : ValidNode p τ node)
      (hdeclared : Declared τ type node) : ValidBinding p τ id
  | function {id : BindingId} {name : String} {span : Span} {s : Signature} {body : FunctionBody}
      (hbinding : p.binding id = .function name span s (some body)) (hbody : ValidBody p τ body)
      (hresult : Declared τ s.result body.result) : ValidBinding p τ id
  | external {id : BindingId} {name : String} {span : Span} {s : Signature}
      (hbinding : p.binding id = .function name span s none) : ValidBinding p τ id
  | parameter {id : BindingId} {name : String} {span : Span} {type : Ty}
      (hbinding : p.binding id = .parameter name span type) : ValidBinding p τ id
  | payload {id : BindingId} {name : String} {span : Span} {scrutinee : NodeId} {tag : String}
      (hbinding : p.binding id = .payload name span scrutinee tag) : ValidBinding p τ id

end

theorem ValidNode.typed {τ : TypeTable} {id : NodeId} (h : p.ValidNode τ id) :
    ∃ type, τ id = .ok type := by
  cases h with
  | plain htype => exact ⟨_, htype⟩
  | lambda htype => exact ⟨_, htype⟩

theorem ValidNode.child {τ : TypeTable} {id c : NodeId} (h : p.ValidNode τ id)
    (hc : c ∈ children (p.node id).form) : p.ValidNode τ c := by
  cases h with
  | plain _ _ hchildren => exact hchildren c hc
  | lambda _ hform =>
      rw [hform] at hc
      cases hc

theorem ValidNode.ofLambda {τ : TypeTable} {id : NodeId} {s : Signature} {body : FunctionBody}
    (h : p.ValidNode τ id) (hform : (p.node id).form = .lambda s body) :
    p.ValidBody τ body ∧ Declared τ s.result body.result := by
  cases h with
  | plain _ hother => exact absurd hform (hother s body)
  | lambda _ hform' hbody hresult =>
      obtain ⟨rfl, rfl⟩ := Form.lambda.inj (hform.symm.trans hform')
      exact ⟨hbody, hresult⟩

theorem ValidBinding.ofValue {τ : TypeTable} {id : BindingId} {name : String} {span : Span}
    {type : Option Ty} {node : NodeId} (h : p.ValidBinding τ id)
    (hbinding : p.binding id = .value name span type node) :
    p.ValidNode τ node ∧ Declared τ type node := by
  cases h with
  | value hbinding' hnode hdeclared =>
      obtain ⟨-, -, rfl, rfl⟩ := Binding.value.inj (hbinding.symm.trans hbinding')
      exact ⟨hnode, hdeclared⟩
  | function h | external h | parameter h | payload h => cases hbinding.symm.trans h

theorem ValidBinding.ofFunction {τ : TypeTable} {id : BindingId} {name : String} {span : Span}
    {s : Signature} {body : FunctionBody} (h : p.ValidBinding τ id)
    (hbinding : p.binding id = .function name span s (some body)) :
    p.ValidBody τ body ∧ Declared τ s.result body.result := by
  cases h with
  | function hbinding' hbody hresult =>
      obtain ⟨-, -, rfl, hsome⟩ := Binding.function.inj (hbinding.symm.trans hbinding')
      obtain rfl := Option.some.inj hsome
      exact ⟨hbody, hresult⟩
  | value h | external h | parameter h | payload h => cases hbinding.symm.trans h

theorem ValidBody.typed {τ : TypeTable} {body : FunctionBody} (h : p.ValidBody τ body) :
    ∃ type, τ body.result = .ok type := by
  cases h with
  | mk _ hresult => exact hresult.typed

/-! ## What validation establishes -/

theorem establishes_forAll {α : Type} {check : α → Typing Unit} {Q : α → TypeTable → Prop}
    {list : List α} (h : ∀ a ∈ list, p.Establishes (check a) fun τ _ => Q a τ) :
    p.Establishes (forAll check list) fun τ _ => ∀ a ∈ list, Q a τ := by
  induction list with
  | nil => exact .pure fun _ => by simp
  | cons a rest ih =>
      obtain ⟨ha, hrest⟩ := List.forall_mem_cons.mp h
      refine .bind ha fun _ => (ih hrest).mono fun τ _ hrest ha => ?_
      exact List.forall_mem_cons.mpr ⟨ha, hrest⟩

theorem establishes_requireDistinct (ids : List BindingId) :
    ∀ (seen : List String) (arguments : List (String × Ty)),
      p.Establishes (p.requireDistinct seen arguments ids) fun _ _ => True := by
  induction ids with
  | nil =>
      intro seen arguments
      cases arguments <;> exact .pure fun _ => trivial
  | cons id ids ih =>
      intro seen arguments
      cases arguments with
      | nil => exact .pure fun _ => trivial
      | cons argument rest =>
          simp only [requireDistinct]
          split
          · exact .bind (.fail (Q := fun _ _ => True) _ _) fun _ => (ih _ _).mono fun _ _ h _ => h
          · exact ih _ _

theorem requireAssignable_eq_ok_iff {actual expected : Ty} {span : Span} :
    (requireAssignable actual expected span : Except TypeError Unit) = .ok () ↔
      actual.assignable expected = .ok true := by
  unfold requireAssignable
  cases actual.assignable expected with
  | error e => exact ⟨nofun, nofun⟩
  | ok related =>
      cases related with
      | true => exact ⟨fun _ => rfl, fun _ => rfl⟩
      | false => exact ⟨nofun, nofun⟩

theorem establishes_requireDeclared (declared : Option Ty) (id : NodeId) :
    p.Establishes (p.requireDeclared declared id) fun τ _ => Declared τ declared id := by
  cases declared with
  | none => exact .pure fun _ => by simp [Declared]
  | some type =>
      refine .bind (follows_typeOf id) fun actual =>
        (follows_requireAssignable actual type _).mono fun τ _ hfits htype => ?_
      intro type' htype'
      obtain rfl := Option.some.inj htype'
      exact ⟨actual, htype, requireAssignable_eq_ok_iff.mp hfits⟩

section

variable {node : NodeId → Typing Unit} {binding : BindingId → Typing Unit}
  (hnode : ∀ id, p.Establishes (node id) fun τ _ => p.ValidNode τ id)
  (hbinding : ∀ id, p.Establishes (binding id) fun τ _ => p.ValidBinding τ id)
include hnode hbinding

theorem establishes_validateBodyWith (body : FunctionBody) :
    p.Establishes (validateBodyWith node binding body) fun τ _ => p.ValidBody τ body := by
  refine .bind (establishes_forAll fun id _ => hbinding id) fun _ => ?_
  exact (hnode body.result).mono fun τ _ hresult hbindings => .mk hbindings hresult

theorem establishes_validateFunctionWith (s : Signature) (body : Option FunctionBody) :
    p.Establishes (validateFunctionWith p node binding s body) fun τ _ =>
      ∀ b ∈ body, p.ValidBody τ b ∧ Declared τ s.result b.result := by
  have hbody : ∀ b, p.Establishes (validateBodyWith node binding b >>= fun _ => p.requireDeclared s.result b.result)
      fun τ _ => ∀ b' ∈ some b, p.ValidBody τ b' ∧ Declared τ s.result b'.result := by
    intro b
    refine .bind (establishes_validateBodyWith hnode hbinding b) fun _ => ?_
    refine (establishes_requireDeclared s.result b.result).mono fun τ _ hresult hbody => ?_
    intro b' hb'
    obtain rfl := Option.some.inj hb'
    exact ⟨hbody, hresult⟩
  unfold validateFunctionWith
  cases s.arguments with
  | fixed arguments =>
      refine .bind (establishes_requireDistinct _ _ _) fun _ => ?_
      cases body with
      | none => exact .pure fun _ _ => by simp
      | some b => exact (hbody b).mono fun _ _ h _ => h
  | variadic _ =>
      cases body with
      | none => exact .pure fun _ => by simp
      | some b => exact hbody b

theorem establishes_validateBindingWith (id : BindingId) :
    p.Establishes (validateBindingWith p node binding id) fun τ _ => p.ValidBinding τ id := by
  unfold validateBindingWith
  cases hid : p.binding id with
  | value name span type value =>
      refine .bind (hnode value) fun _ => ?_
      exact (establishes_requireDeclared type value).mono fun τ _ hdeclared hvalue =>
        .value hid hvalue hdeclared
  | function name span s body =>
      refine (establishes_validateFunctionWith hnode hbinding s body).mono fun τ _ h => ?_
      cases body with
      | none => exact .external hid
      | some body => exact .function hid (h body rfl).1 (h body rfl).2
  | parameter name span type => exact .pure fun _ => .parameter hid
  | payload name span scrutinee tag => exact .pure fun _ => .payload hid

theorem establishes_validateNodeWith (id : NodeId) :
    p.Establishes (validateNodeWith p node binding id) fun τ _ => p.ValidNode τ id := by
  unfold validateNodeWith
  refine .bind (follows_typeOf id) fun type => ?_
  cases hid : (p.node id).form with
  | lambda s body =>
      exact (establishes_validateFunctionWith hnode hbinding s (some body)).mono fun τ _ h htype =>
        .lambda htype hid (h body rfl).1 (h body rfl).2
  | _ =>
      refine (establishes_forAll fun c _ => hnode c).mono fun τ _ hchildren htype => ?_
      refine .plain htype (fun s body hform => ?_) (hid ▸ hchildren)
      rw [hid] at hform
      cases hform

end

theorem establishes_validateUpTo (depth : Nat) :
    (∀ id, p.Establishes (p.validateNodeUpTo depth id) fun τ _ => p.ValidNode τ id) ∧
      ∀ id, p.Establishes (p.validateBindingUpTo depth id) fun τ _ => p.ValidBinding τ id := by
  induction depth with
  | zero => exact ⟨fun _ => .fail _ _, fun _ => .fail _ _⟩
  | succ depth ih =>
      exact ⟨establishes_validateNodeWith ih.1 ih.2, establishes_validateBindingWith ih.1 ih.2⟩

/-- The memo that validation leaves behind. -/
def checked (p : Program) : Memo := (p.validate.run p.blank).2

/-- The types that validation found. -/
def types (p : Program) : TypeTable := p.table p.checked

/-- Validation leaves its types to those who ask later. -/
theorem run_typeOf_checked {id : NodeId} (hid : id < p.nodes.size) {type : Ty}
    (h : p.types id = .ok type) : (p.typeOf id).run p.checked = (.ok type, p.checked) := by
  simp only [types, table, Nat.not_le.mpr hid, if_false] at h
  split at h
  · rename_i own hknown
    obtain rfl := Except.ok.inj h
    obtain ⟨n, hn⟩ := Nat.exists_eq_succ_of_ne_zero (Nat.ne_zero_of_lt hid)
    have hrun : (p.typeUpTo (n + 1) id).run p.checked =
        (match p.checked.known.getD id none with
        | some type => (pure type : Typing Ty)
        | none =>
          if p.checked.visiting.contains id then fail .loop (p.node id).span
          else visit id (typeRule p (p.typeUpTo n) id)).run p.checked := rfl
    rw [typeOf, hn, Nat.succ_eq_add_one, hrun, hknown]
    rfl
  · cases h

/-- A table of types that obey the rules. -/
def Obeys (p : Program) (τ : TypeTable) : Prop :=
  ∀ (id : NodeId) (type : Ty), τ id = .ok type → typeRule p τ id = .ok type

/-- A program that validation lets pass has types by the rules, and is valid throughout. -/
theorem valid_of_validate (h : (p.validate.run p.blank).1 = .ok ()) :
    p.Obeys p.types ∧ p.ValidBody p.types p.body := by
  obtain ⟨hnode, hbinding⟩ := establishes_validateUpTo (p := p) (p.nodes.size + p.bindings.size)
  obtain ⟨hsound, hbody⟩ := establishes_validateBodyWith hnode hbinding p.body p.blank p.checked ()
    (sound_blank p) (Prod.ext h rfl)
  refine ⟨fun id type htype => ?_, (hbody _ hsound.includes_table).2⟩
  by_cases hid : p.nodes.size ≤ id
  · simp only [types, table, hid, if_true, Except.ok.injEq] at htype
    subst htype
    simp only [typeRule, node_of_size_le hid]
    rfl
  · simp only [types, table, hid, if_false] at htype
    split at htype
    · cases htype
      exact hsound.rule id type ‹_› _ hsound.includes_table
    · cases htype

end Sable.Program
