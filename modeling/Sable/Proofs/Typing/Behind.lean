import Sable.Proofs.Program.Behind
import Sable.Proofs.Typing.Queries

/-! Types of programs behind declarations: they are those of the programs by themselves, with higher numbers for the
variables. -/
namespace Sable

section

variable {α β γ δ : Type} {g : α → β} {g' : γ → δ}

theorem Carries.fail {fault : TypeFault} {span : Span} {c' : Except TypeError β} :
    Carries g (Program.fail fault span : Except TypeError α) c' := nofun

/-- Computations behind the same check. -/
theorem Carries.check {c c' : Prop} [Decidable c] [Decidable c'] {fault fault' : TypeFault} {span span' : Span}
    {x : Except TypeError α} {x' : Except TypeError β} (hc : c' ↔ c) (h : Carries g x x') :
    Carries g (if c then (Program.fail fault span : Except TypeError PUnit) >>= fun _ => x else x)
      (if c' then (Program.fail fault' span' : Except TypeError PUnit) >>= fun _ => x' else x') := by
  by_cases hown : c
  · rw [if_pos hown]
    exact Carries.error
  · rw [if_neg hown, if_neg (mt hc.mp hown)]
    exact h

end

namespace Program

variable {f : Front} {k : Nat}

/-! ## What types have to be -/

theorem carries_requireAssignable (actual expected : Ty) (span span' : Span) :
    Carries id (requireAssignable actual expected span : Except TypeError Unit)
      (requireAssignable (actual.raised k) (expected.raised k) span' : Except TypeError Unit) := by
  intro _ h
  rw [requireAssignable_eq_ok_iff] at h
  rw [id, requireAssignable_eq_ok_iff, Ty.assignable_raised, h]
  rfl

theorem carries_requireTagView (construct : String) (type : Ty) (span span' : Span) :
    Carries (.raised k) (requireTagView construct type span : Except TypeError Ty.TagView)
      (requireTagView construct (type.raised k) span' : Except TypeError Ty.TagView) := by
  unfold requireTagView
  rw [Ty.tagView?_raised]
  cases type.tagView? with
  | none => exact .fail
  | some view => exact .pure rfl

theorem surelyAssignable_raised (own other : Ty) :
    surelyAssignable (own.raised k) (other.raised k) = surelyAssignable own other := by
  unfold surelyAssignable
  rw [Ty.assignable_raised]
  cases own.assignable other <;> rfl

theorem comparable_raised (a b : Ty) : comparable (a.raised k) (b.raised k) = comparable a b := by
  simp only [comparable, Ty.widened_raised, surelyAssignable_raised]

theorem agreeing?_raised (a b : Ty) : agreeing? (a.raised k) (b.raised k) = (agreeing? a b).map (.raised k) := by
  simp only [agreeing?, Ty.raised_beq, Ty.widened_raised]
  split
  · rfl
  · split <;> rfl

/-! ## Rules that ask for nothing -/

theorem raised_beq_boolean (a : Ty) : (a.raised k == .boolean) = (a == .boolean) := Ty.raised_beq k a .boolean

theorem carries_arithmeticType (op : ArithmeticOp) (a b : Ty) (span span' : Span) :
    Carries (.raised k) (arithmeticType op a b span : Except TypeError Ty)
      (arithmeticType op (a.raised k) (b.raised k) span' : Except TypeError Ty) := by
  cases a <;> cases b <;> first
    | exact .fail
    | exact .pure rfl
    | simp only [arithmeticType, Ty.raised]; split <;> first | exact .pure rfl | exact .fail

theorem carries_comparisonType (op : ComparisonOp) (a b : Ty) (span span' : Span) :
    Carries (.raised k) (comparisonType op a b span : Except TypeError Ty)
      (comparisonType op (a.raised k) (b.raised k) span' : Except TypeError Ty) := by
  cases op with
  | equal =>
      simp only [comparisonType, comparable_raised]
      split
      · exact .pure rfl
      · exact .fail
  | less | greater => cases a <;> first | exact .fail | (cases b <;> first | exact .fail | exact .pure rfl)

theorem carries_callSubstitution (callee callee' : Option String) (vs : List TypeVariable) (parameters : Parameters)
    (written types : List Ty) (span span' : Span) :
    Carries (.raised k) (callSubstitution callee vs parameters written types span : Except TypeError Substitution)
      (callSubstitution callee' (vs.map (.raised k)) (Ty.raisedParameters k parameters) (written.map (.raised k))
        (types.map (.raised k)) span' : Except TypeError Substitution) := by
  simp only [callSubstitution, List.isEmpty_map, List.length_map]
  split
  · split
    · exact .pure rfl
    · have hinfer : Carries (Substitution.raised k) (Substitution.infer vs parameters types) _ :=
        Substitution.carries_infer parameters types
      cases hown : Substitution.infer vs parameters types with
      | error e => exact .fail
      | ok s =>
          rw [hinfer s hown]
          exact .pure rfl
  · split
    · exact .pure (Substitution.ofList_zip_raised k vs written)
    · exact .fail

/-- The types of nodes, raised. -/
def raisedArgument (k : Nat) (argument : NodeId × Ty) : NodeId × Ty := (argument.1, argument.2.raised k)

theorem carries_requireArguments {p p' : Program} (arguments : List (NodeId × Ty)) : ∀ parameters : Parameters,
    Carries id (p.requireArguments parameters arguments : Except TypeError Unit)
      (p'.requireArguments (Ty.raisedParameters k parameters) (arguments.map (raisedArgument k)) :
        Except TypeError Unit) := by
  induction arguments with
  | nil => exact fun parameters => by cases parameters <;> exact .pure rfl
  | cons argument rest ih =>
      intro parameters
      cases parameters with
      | variadic q => exact (carries_requireAssignable argument.2 q.2 _ _).bind fun _ _ => ih (.variadic q)
      | fixed ps =>
          cases ps with
          | nil => exact .pure rfl
          | cons q ps => exact (carries_requireAssignable argument.2 q.2 _ _).bind fun _ _ => ih (.fixed ps)

/-! ## Rules that ask -/

section

variable {p : Program} {τ τ' : TypeTable} (hask : ∀ id, Carries (.raised f.typeVariables) (τ id) (τ' id))
include hask

theorem carries_signatureType (s : Signature) (body : Option FunctionBody) :
    Carries (.raised f.typeVariables) (signatureType τ s body)
      (signatureType τ' (s.behind f) (body.map (.behind f))) := by
  have hrest : ∀ result : Ty, Carries (.raised f.typeVariables)
      (.ok (.function s.typeVariables s.arguments result) : Except TypeError Ty)
      (.ok (.function (s.behind f).typeVariables (s.behind f).arguments (result.raised f.typeVariables)) :
        Except TypeError Ty) := fun _ => .pure rfl
  unfold signatureType
  simp only [show (s.behind f).result = s.result.map (.raised f.typeVariables) from rfl]
  cases s.result with
  | some type => exact Carries.bind (.pure rfl) fun result _ => hrest result
  | none =>
      cases body with
      | some body => exact (hask body.result).bind fun result _ => hrest result
      | none => exact Carries.fail.bind fun result _ => hrest result

theorem carries_bindingType (id : BindingId) :
    Carries (.raised f.typeVariables) (bindingType p τ id) (bindingType (p.behind f) τ' (id + f.bindings.size)) := by
  unfold bindingType
  rcases Nat.lt_or_ge id p.bindings.size with hid | hid
  · rw [binding_behind f p hid]
    cases p.binding id with
    | value name span type node =>
        cases type with
        | some type => exact .pure rfl
        | none => exact hask node
    | function name span s body => exact carries_signatureType hask s body
    | parameter name span type => exact .pure rfl
    | payload name span scrutinee tag =>
        refine (hask scrutinee).bind fun type _ => ?_
        have hpayload : (type.raised f.typeVariables).tagView?.bind (·.payload? tag) =
            (type.tagView?.bind (·.payload? tag)).map (.raised f.typeVariables) := by
          rw [Ty.tagView?_raised]
          cases type.tagView? with
          | none => rfl
          | some view => exact Ty.TagView.payload?_raised _ view tag
        rw [hpayload]
        cases type.tagView?.bind (·.payload? tag) with
        | none => exact .fail
        | some payload => exact .pure rfl
  · rw [(binding_of_size_le f p hid).1, (binding_of_size_le f p hid).2]
    exact .pure rfl

theorem carries_referenceType (name : String) (target : Option Target) (span span' : Span) :
    Carries (.raised f.typeVariables) (referenceType p τ name target span)
      (referenceType (p.behind f) τ' name (target.map (.behind f)) span') := by
  have hbound := carries_bindingType (p := p) hask
  match target with
  | none => exact .fail
  | some (.bound id) => exact hbound id
  | some (.narrowed id tag) =>
      refine (hbound id).bind fun type _ => .pure ?_
      rw [Ty.narrow?_raised]
      cases type.narrow? tag <;> rfl
  | some (.nonNull id) => exact (hbound id).bind fun type _ => .pure (Ty.withoutNull_raised _ type)
  | some (.enclosing id) =>
      have hother := hbound id
      simp only [Option.map_some, Target.behind, referenceType]
      rcases Nat.lt_or_ge id p.bindings.size with hid | hid
      · rw [binding_behind f p hid]
        cases hown : p.binding id with
        | function own place s body =>
            simp only [Binding.behind, Signature.behind, Option.isSome_map]
            split
            · exact carries_signatureType hask s none
            · exact .fail
        | value _ _ _ _ | parameter _ _ _ | payload _ _ _ _ => exact hother
      · rw [(binding_of_size_le f p hid).1, (binding_of_size_le f p hid).2]
        exact hother

theorem carries_askAll (ids : List NodeId) :
    Carries (List.map (.raised f.typeVariables)) (askAll τ ids) (askAll τ' ids) := by
  induction ids with
  | nil => exact .pure rfl
  | cons id rest ih => exact (hask id).bind fun type _ => ih.bind fun types _ => .pure rfl

theorem carries_objectFields (span span' : Span) (fields : List (String × NodeId)) : ∀ done : Fields Ty,
    Carries (Ty.raisedFields f.typeVariables) (objectFields τ span done fields)
      (objectFields τ' span' (Ty.raisedFields f.typeVariables done) fields) := by
  induction fields with
  | nil => exact fun done => .pure rfl
  | cons field rest ih =>
      intro done
      refine (hask field.2).bind fun type _ => .check ?_ ?_
      · rw [Ty.contains_raisedFields]
      · rw [Ty.insert_raisedFields]
        exact ih _

theorem carries_callType (callee : NodeId) (written : List Ty) (arguments : List NodeId) (span span' : Span) :
    Carries (.raised f.typeVariables) (callType p τ callee written arguments span)
      (callType (p.behind f) τ' callee (written.map (.raised f.typeVariables)) arguments span') := by
  refine (hask callee).bind fun type _ => ?_
  cases type with
  | function vs parameters result =>
      refine (carries_askAll hask arguments).bind fun types _ => ?_
      have hzip : arguments.zip (types.map (.raised f.typeVariables)) =
          (arguments.zip types).map (raisedArgument f.typeVariables) := by
        rw [List.zip_map_right]
        rfl
      have hfits : ∀ s : Substitution, Carries (.raised f.typeVariables)
          (do
            p.requireArguments (s.applyParameters parameters) (arguments.zip types)
            pure (s.apply result) : Except TypeError Ty)
          (do
            (p.behind f).requireArguments ((s.raised f.typeVariables).applyParameters
              (Ty.raisedParameters f.typeVariables parameters)) (arguments.zip (types.map (.raised f.typeVariables)))
            pure ((s.raised f.typeVariables).apply (result.raised f.typeVariables)) : Except TypeError Ty) := by
        intro s
        rw [Substitution.applyParameters_raised, Substitution.apply_raised, hzip]
        exact (carries_requireArguments (arguments.zip types) (s.applyParameters parameters)).bind fun _ _ => .pure rfl
      have hsubstitution := carries_callSubstitution (k := f.typeVariables) (p.calleeName? callee)
        ((p.behind f).calleeName? callee) vs parameters written types span span'
      cases parameters with
      | fixed ps =>
          exact .check (by simp [Ty.raisedFields_eq_map]) (hsubstitution.bind fun s _ => hfits s)
      | variadic q => exact hsubstitution.bind fun s _ => hfits s
  | _ => exact .fail

theorem carries_armTypes (view : Ty.TagView) (type : Ty) (arms : List Arm) :
    ∀ (seen : List String) (agreed : Option Ty),
      Carries (fun found => (found.1, found.2.map (.raised f.typeVariables))) (armTypes τ view type seen agreed arms)
        (armTypes τ' (view.raised f.typeVariables) (type.raised f.typeVariables) seen
          (agreed.map (.raised f.typeVariables)) (arms.map (.behind f))) := by
  induction arms with
  | nil => exact fun seen agreed => .pure rfl
  | cons arm rest ih =>
      intro seen agreed
      refine .check (by rw [Ty.TagView.hasTag_raised]; rfl) (.check Iff.rfl ?_)
      refine (hask arm.body).bind fun body _ => ?_
      cases agreed with
      | none => exact Carries.bind (.pure rfl) fun next _ => ih _ (some next)
      | some first =>
          simp only [Option.map_some, agreeing?_raised]
          cases agreeing? first body with
          | none => exact Carries.bind (f := .raised f.typeVariables) .fail fun next _ => ih _ (some next)
          | some both => exact Carries.bind (.pure rfl) fun next _ => ih _ (some next)

theorem carries_casesType (scrutinee : NodeId) (arms : List Arm) (span span' : Span) :
    Carries (.raised f.typeVariables) (casesType τ scrutinee arms span)
      (casesType τ' scrutinee (arms.map (.behind f)) span') := by
  refine (hask scrutinee).bind fun type _ => ?_
  refine (carries_requireTagView "match" type span span').bind fun view _ => ?_
  refine (carries_armTypes hask view type arms [] none).bind fun found _ => ?_
  obtain ⟨seen, agreed⟩ := found
  refine .check (by rw [Ty.TagView.required_raised]) ?_
  cases agreed with
  | none => exact .fail
  | some result => exact .pure rfl

/-- The rule of a node gives the raised type where it is asked of raised types. -/
theorem carries_typeRule (id : NodeId) :
    Carries (.raised f.typeVariables) (typeRule p τ id) (typeRule (p.behind f) τ' id) := by
  unfold typeRule
  rw [form_behind]
  cases hform : (p.node id).form with
  | number _ | bigInteger _ | boolean _ | null => exact .pure rfl
  | object fields => exact (carries_objectFields hask _ _ fields []).bind fun found _ => .pure rfl
  | arithmetic op lhs rhs =>
      exact (hask lhs).bind fun a _ => (hask rhs).bind fun b _ => carries_arithmeticType op a b _ _
  | negate operand =>
      refine (hask operand).bind fun type _ => ?_
      cases type <;> first | exact .pure rfl | exact .fail
  | comparison op lhs rhs =>
      exact (hask lhs).bind fun a _ => (hask rhs).bind fun b _ => carries_comparisonType op a b _ _
  | logical op lhs rhs =>
      refine (hask lhs).bind fun a _ => (hask rhs).bind fun b _ => ?_
      simp only [raised_beq_boolean]
      split
      · exact .pure rfl
      · exact .fail
  | not operand =>
      refine (hask operand).bind fun type _ => ?_
      cases type <;> first | exact .pure rfl | exact .fail
  | conditional condition thenBranch elseBranch =>
      refine (hask condition).bind fun c _ => .check (by rw [raised_beq_boolean]) ?_
      refine (hask thenBranch).bind fun a _ => (hask elseBranch).bind fun b _ => ?_
      rw [agreeing?_raised]
      cases agreeing? a b with
      | none => exact .fail
      | some both => exact .pure rfl
  | reference name target => exact carries_referenceType hask name target _ _
  | call callee written arguments => exact carries_callType hask callee written arguments _ _
  | lambda s body => exact carries_signatureType hask s (some body)
  | field owner name =>
      refine (hask owner).bind fun type _ => ?_
      cases type with
      | object fields =>
          simp only [Ty.raised, Ty.get?_raisedFields]
          cases Fields.get? name fields with
          | none => exact .fail
          | some type => exact .pure rfl
      | _ => exact .fail
  | tagged value tag => exact (hask value).bind fun type _ => .pure rfl
  | hasTag value tag =>
      refine (hask value).bind fun type _ => (carries_requireTagView "is" type _ _).bind fun view _ => ?_
      rw [Ty.TagView.hasTag_raised]
      split
      · exact .pure rfl
      · exact .fail
  | untag value =>
      refine (hask value).bind fun type _ => (carries_requireTagView "untag" type _ _).bind fun view _ => ?_
      obtain ⟨alternatives, pinned⟩ := view
      cases pinned with
      | none => exact .fail
      | some pinned => exact .pure rfl
  | cases scrutinee arms => exact carries_casesType hask scrutinee arms _ _

end

/-! ## Types of nodes and bindings -/

variable (f) (p : Program)

theorem carries_plainTypeUpTo (depth : Nat) : ∀ id : NodeId, Carries (.raised f.typeVariables)
    (p.plainTypeUpTo depth id) ((p.behind f).plainTypeUpTo depth id) := by
  induction depth with
  | zero => exact fun id => .fail
  | succ depth ih => exact carries_typeRule ih

/-- Behind declarations nodes have the same types, raised. -/
theorem carries_plainType (id : NodeId) :
    Carries (.raised f.typeVariables) (p.plainType id) ((p.behind f).plainType id) :=
  carries_plainTypeUpTo f p (id + 1) id

theorem carries_plainTypeOfBinding (id : BindingId) : Carries (.raised f.typeVariables) (p.plainTypeOfBinding id)
    ((p.behind f).plainTypeOfBinding (id + f.bindings.size)) :=
  carries_bindingType (carries_plainType f p) id

/-! ## Validity -/

variable {f p}

theorem Declared.behind {declared : Option Ty} {node : NodeId} (h : Declared p.plainType declared node) :
    Declared (p.behind f).plainType (declared.map (.raised f.typeVariables)) node := by
  intro type htype
  obtain ⟨own, hown, rfl⟩ := Option.map_eq_some_iff.mp htype
  obtain ⟨actual, hactual, hfits⟩ := h own hown
  refine ⟨_, carries_plainType f p node actual hactual, ?_⟩
  rw [Ty.assignable_raised, hfits]
  rfl

theorem FunctionValid.behind {s : Signature} {body : Option FunctionBody} (h : FunctionValid p.plainType s body) :
    FunctionValid (p.behind f).plainType (s.behind f) (body.map (.behind f)) := by
  refine ⟨fun ps hps => ?_, fun b hb => ?_⟩
  · obtain ⟨_, arguments, _, _⟩ := s
    cases arguments with
    | fixed own =>
        obtain rfl : Ty.raisedFields f.typeVariables own = ps := ParameterList.fixed.inj hps
        rw [show (Ty.raisedFields f.typeVariables own).map Prod.fst = own.map Prod.fst from
          Ty.names_raisedFields _ own]
        exact h.1 own rfl
    | variadic q => cases hps
  · obtain ⟨own, hown, rfl⟩ := Option.map_eq_some_iff.mp hb
    exact (h.2 own hown).behind

theorem partValid_node_behind {id : NodeId} (h : p.PartValid p.plainType (.node id)) :
    (p.behind f).PartValid (p.behind f).plainType (.node id) := by
  obtain ⟨⟨type, htype⟩, hlambda⟩ := h
  refine ⟨⟨_, carries_plainType f p id type htype⟩, fun s body hform => ?_⟩
  rw [form_behind] at hform
  cases hown : (p.node id).form with
  | lambda s' body' =>
      rw [hown] at hform
      obtain ⟨rfl, rfl⟩ := Form.lambda.inj hform
      exact (hlambda s' body' hown).behind
  | _ =>
      rw [hown] at hform
      cases hform

theorem partValid_binding_behind {id : BindingId} (hid : id < p.bindings.size)
    (h : p.PartValid p.plainType (.binding id)) :
    (p.behind f).PartValid (p.behind f).plainType (.binding (id + f.bindings.size)) := by
  simp only [PartValid, binding_behind f p hid] at h ⊢
  cases hown : p.binding id with
  | value name span type node =>
      rw [hown] at h
      exact h.behind
  | function name span s body =>
      rw [hown] at h
      exact h.behind
  | parameter _ _ _ | payload _ _ _ _ => trivial

theorem partValid_of_harmless {τ : TypeTable} {id : BindingId} (h : Front.Harmless (p.binding id)) :
    p.PartValid τ (.binding id) := by
  simp only [PartValid]
  generalize p.binding id = b at h
  cases h with
  | parameter name span type => trivial
  | function name span hs => exact ⟨hs, fun body hbody => by cases hbody⟩

/-- Validation succeeds exactly if all nodes and bindings are valid. -/
theorem LaidOut.validate_eq_ok_iff (h : p.LaidOut) : (p.validate.run p.blank).1 = .ok () ↔
    (∀ id < p.nodes.size, p.PartValid p.plainType (.node id)) ∧
      ∀ id < p.bindings.size, p.PartValid p.plainType (.binding id) := by
  obtain ⟨result, hrecalls, hiff, -⟩ := decides_validate h
  rw [(hrecalls p.blank rfl (knows_blank p)).1, hiff, h.validThroughout_iff]

/-- A valid program is valid behind declarations that are not in the language. -/
theorem validate_behind (h : p.LaidOut) (h' : (p.behind f).LaidOut)
    (hfront : ∀ (id : BindingId) (hid : id < f.bindings.size), Front.Harmless f.bindings[id])
    (hvalid : (p.validate.run p.blank).1 = .ok ()) :
    ((p.behind f).validate.run (p.behind f).blank).1 = .ok () := by
  obtain ⟨hnodes, hbindings⟩ := h.validate_eq_ok_iff.mp hvalid
  refine h'.validate_eq_ok_iff.mpr ⟨fun id hid => ?_, fun id hid => ?_⟩
  · exact partValid_node_behind (hnodes id (size_nodes_behind f p ▸ hid))
  · rcases Nat.lt_or_ge id f.bindings.size with hlt | hle
    · exact partValid_of_harmless (binding_behind_of_lt f p hlt ▸ hfront id hlt)
    · obtain ⟨own, rfl⟩ := Nat.exists_eq_add_of_le' hle
      have hown : own < p.bindings.size := by
        rw [size_bindings_behind] at hid
        omega
      exact partValid_binding_behind hown (hbindings own hown)

/-- In a valid program all names are in scope. -/
theorem LaidOut.form_ne_reference_none (h : p.LaidOut) (hvalid : (p.validate.run p.blank).1 = .ok ()) :
    ∀ id < p.nodes.size, ∀ name, (p.node id).form ≠ .reference name none := by
  intro id hid name hform
  obtain ⟨⟨type, htype⟩, -⟩ := (h.validate_eq_ok_iff.mp hvalid).1 id hid
  rw [plainType_eq h, typeRule, hform] at htype
  cases htype

end Program

end Sable
