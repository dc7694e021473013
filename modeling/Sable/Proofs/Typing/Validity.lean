import Sable.Proofs.Typing.Plain
import Sable.Proofs.Typing.Rules

/-! What validation decides.

Validation goes through a program and stops at the first thing that is wrong. It goes through all of it, so
it finds something wrong exactly if there is something: a node without a type, something that does not fit
the type that it is declared to have, or a function with two parameters of one name. -/
namespace Sable.Program

variable {p : Program}

/-! ## Steps that decide -/

section

variable [EntryOrder]

/-- While nothing is being visited the step succeeds exactly if `Q` holds, from every memo of plain types,
and else always fails in the same way, which is not that a type depends on itself. -/
def Decides (p : Program) (c : Typing Unit) (Q : Prop) : Prop :=
  ∃ result : Except TypeError Unit, p.Recalls Idle c result ∧ (result = .ok () ↔ Q) ∧
    ∀ e, result = .error e → e.fault ≠ .loop

namespace Decides

theorem pure : p.Decides (Pure.pure ()) True :=
  ⟨.ok (), (p.recalling Idle).pure (), by simp, nofun⟩

theorem congr {c : Typing Unit} {Q Q' : Prop} (h : p.Decides c Q) (hQ : Q ↔ Q') : p.Decides c Q' := by
  obtain ⟨result, hrecalls, hiff, hfault⟩ := h
  exact ⟨result, hrecalls, hiff.trans hQ, hfault⟩

/-- A step behind one that gives something. -/
theorem after {α : Type} {c : Typing α} {c' : Except TypeError α} {rest : Typing Unit} {Q : Prop}
    (hc : p.Recalls Idle c c') (hfault : ∀ e, c' = .error e → e.fault ≠ .loop) (hrest : p.Decides rest Q) :
    p.Decides (c >>= fun _ => rest) ((∃ a, c' = .ok a) ∧ Q) := by
  obtain ⟨result, hrecalls, hiff, hfault'⟩ := hrest
  refine ⟨c' >>= fun _ => result, hc.bind fun _ => hrecalls, ?_, ?_⟩
  · rw [bind_eq_ok]
    constructor
    · rintro ⟨a, ha, hresult⟩
      exact ⟨⟨a, ha⟩, hiff.mp hresult⟩
    · rintro ⟨⟨a, ha⟩, hQ⟩
      exact ⟨a, ha, hiff.mpr hQ⟩
  · have hloop : loopFree.Rel (c' >>= fun _ => result) (c' >>= fun _ => result) :=
      loopFree.bind hfault fun _ => hfault'
    exact hloop

theorem bind {c rest : Typing Unit} {Q Q' : Prop} (hc : p.Decides c Q) (hrest : p.Decides rest Q') :
    p.Decides (c >>= fun _ => rest) (Q ∧ Q') := by
  obtain ⟨result, hrecalls, hiff, hfault⟩ := hc
  refine (after hrecalls hfault hrest).congr (and_congr_left fun _ => ?_)
  rw [← hiff]
  exact ⟨fun ⟨_, h⟩ => h, fun h => ⟨(), h⟩⟩

/-- A check in front of a step. -/
theorem check {c : Prop} [Decidable c] {fault : TypeFault} {span : Span} {rest : Typing Unit} {Q : Prop}
    (hfault : fault ≠ .loop) (hrest : p.Decides rest Q) :
    p.Decides (if c then (Program.fail fault span : Typing PUnit) >>= fun _ => rest else rest)
      (¬ c ∧ Q) := by
  split
  · refine ⟨.error ⟨fault, span⟩, fun _ _ hknows => ⟨rfl, rfl, hknows⟩, ?_, ?_⟩
    · simp [*]
    · intro e he
      obtain rfl := Except.error.inj he
      exact hfault
  · exact hrest.congr (by simp [*])

theorem forAll {α : Type} {check : α → Typing Unit} {Q : α → Prop} {list : List α}
    (h : ∀ a ∈ list, p.Decides (check a) (Q a)) :
    p.Decides (Program.forAll check list) (∀ a ∈ list, Q a) := by
  induction list with
  | nil => exact pure.congr (by simp)
  | cons a rest ih =>
      obtain ⟨ha, hrest⟩ := List.forall_mem_cons.mp h
      exact (ha.bind (ih hrest)).congr List.forall_mem_cons.symm

/-! ## The steps of validation -/

theorem requireDeclared (h : p.LaidOut) (declared : Option Ty) (id : NodeId) :
    p.Decides (p.requireDeclared declared id) (Declared p.plainType declared id) := by
  cases declared with
  | none => exact pure.congr (by simp [Declared])
  | some type =>
      let require : Except TypeError Unit :=
        p.plainType id >>= fun actual => requireAssignable actual type (p.node id).span
      have hloop : loopFree.Rel require require :=
        loopFree.bind (plainType_loopFree h id) fun actual => loopFree.requireAssignable actual type _
      refine ⟨require, (recalls_typeOf h id).bind fun actual =>
        (p.recalling Idle).requireAssignable actual type _, ?_, hloop⟩
      rw [bind_eq_ok]
      simp only [requireAssignable_eq_ok_iff, Declared, Option.mem_some_iff, forall_eq']

theorem requireDistinct {ids : List BindingId} : ∀ {arguments : List (String × Ty)} {seen : List String},
    arguments.length = ids.length → p.Decides (p.requireDistinct seen arguments ids)
      ((arguments.map Prod.fst).Nodup ∧ ∀ name ∈ arguments.map Prod.fst, name ∉ seen) := by
  induction ids with
  | nil =>
      intro arguments seen hlength
      obtain rfl := List.length_eq_zero_iff.mp hlength
      exact pure.congr (by simp)
  | cons id ids ih =>
      intro arguments seen hlength
      cases arguments with
      | nil => simp at hlength
      | cons argument rest =>
          obtain ⟨own, type⟩ := argument
          have hrest := @ih rest (seen ++ [own]) (Nat.succ.inj hlength)
          have hfault : TypeFault.duplicateArgument own ≠ .loop := nofun
          simp only [Program.requireDistinct]
          refine (hrest.check hfault).congr ?_
          simp only [List.contains_eq_mem, decide_eq_true_eq, List.map_cons, List.nodup_cons,
            List.forall_mem_cons, List.mem_append, List.mem_singleton, not_or]
          constructor
          · rintro ⟨hseen, hnodup, hothers⟩
            exact ⟨⟨fun hmem => (hothers _ hmem).2 rfl, hnodup⟩, hseen, fun name hname => (hothers name hname).1⟩
          · rintro ⟨⟨hown, hnodup⟩, hseen, hothers⟩
            refine ⟨hseen, hnodup, fun name hname => ⟨hothers name hname, ?_⟩⟩
            exact fun heq => hown (heq ▸ hname)

end Decides

end

/-! ## Valid parts -/

/-- A function without two parameters of one name, whose result fits the type declared for it. -/
def FunctionValid (τ : TypeTable) (s : Signature) (body : Option FunctionBody) : Prop :=
  (∀ ps, s.arguments = .fixed ps → (ps.map Prod.fst).Nodup) ∧ ∀ b ∈ body, Declared τ s.result b.result

/-- A part that is valid by itself, whatever is inside it. -/
def PartValid (p : Program) (τ : TypeTable) : Part → Prop
  | .node id => (∃ type, τ id = .ok type) ∧
    ∀ s body, (p.node id).form = .lambda s body → FunctionValid τ s (some body)
  | .binding id =>
    match p.binding id with
    | .value _ _ type node => Declared τ type node
    | .function _ _ s body => FunctionValid τ s body
    | .parameter .. | .payload .. => True

/-- A part that is valid with all that is inside it. -/
def ValidThroughout (p : Program) (τ : TypeTable) (part : Part) : Prop :=
  ∀ inner, p.Inside part inner → p.PartValid τ inner

theorem validThroughout_iff {τ : TypeTable} {part : Part} : p.ValidThroughout τ part ↔
    p.PartValid τ part ∧ ∀ inner ∈ p.parts part, p.ValidThroughout τ inner :=
  p.forall_inside_iff

theorem validThroughout_parameter {τ : TypeTable} {id : BindingId} {name : String} {span : Span}
    {type : Ty} (h : p.binding id = .parameter name span type) : p.ValidThroughout τ (.binding id) := by
  rw [validThroughout_iff]
  simp [PartValid, parts, h]

theorem validThroughout_payload {τ : TypeTable} {id : BindingId} {name : String} {span : Span}
    {scrutinee : NodeId} {tag : String} (h : p.binding id = .payload name span scrutinee tag) :
    p.ValidThroughout τ (.binding id) := by
  rw [validThroughout_iff]
  simp [PartValid, parts, h]

/-- Of what is inside a function only the body can be invalid. -/
theorem validThroughout_functionParts {τ : TypeTable} {s : Signature} (hs : p.ParametersLaid s)
    {body : Option FunctionBody} : (∀ part ∈ functionParts s body, p.ValidThroughout τ part) ↔
      ∀ b ∈ body, ∀ part ∈ bodyParts b, p.ValidThroughout τ part := by
  have hparameters : ∀ part ∈ s.parameters.map Part.binding, p.ValidThroughout τ part := by
    intro part hpart
    obtain ⟨id, hid, rfl⟩ := List.mem_map.mp hpart
    obtain ⟨i, hi, rfl⟩ := List.getElem_of_mem hid
    obtain ⟨span, hbinding⟩ := (List.forall₂_iff_get.mp hs).2 i hi (hs.length_eq ▸ hi)
    exact validThroughout_parameter hbinding
  simp only [functionParts, List.forall_mem_append, List.mem_flatMap, Option.mem_toList]
  constructor
  · exact fun h b hb part hpart => h.2 part ⟨b, hb, hpart⟩
  · exact fun h => ⟨hparameters, fun part ⟨b, hb, hpart⟩ => h b hb part hpart⟩

/-- Of what is inside a node that is no function only the nodes can be invalid. -/
theorem validThroughout_children {τ : TypeTable} {id : NodeId} (h : p.NodeLaid id)
    (hform : ∀ s body, (p.node id).form ≠ .lambda s body) :
    (∀ part ∈ p.parts (.node id), p.ValidThroughout τ part) ↔
      ∀ c ∈ children (p.node id).form, p.ValidThroughout τ (.node c) := by
  cases hown : (p.node id).form with
  | lambda s body => exact absurd hown (hform s body)
  | cases scrutinee arms =>
      have hpayload : ∀ arm ∈ arms, p.ValidThroughout τ (.binding arm.binding) := by
        intro arm harm
        obtain ⟨name, span, hbinding⟩ := h.arms scrutinee arms hown arm harm
        exact validThroughout_payload hbinding
      simp only [parts, hown, children, List.forall_mem_cons, List.mem_flatMap, armParts, List.mem_map]
      refine and_congr_right fun _ => ⟨?_, ?_⟩
      · rintro hparts c ⟨arm, harm, rfl⟩
        exact hparts _ ⟨arm, harm, by simp⟩
      · rintro hbodies part ⟨arm, harm, hpart⟩
        rcases List.mem_cons.mp hpart with rfl | hpart
        · exact hpayload arm harm
        · rw [List.mem_singleton.mp hpart]
          exact hbodies _ ⟨arm, harm, rfl⟩
  | _ => simp [parts, hown]

/-! ## What validation goes through -/

section

variable [EntryOrder]

section

variable {node : NodeId → Typing Unit} {binding : BindingId → Typing Unit} {V : Part → Prop}

theorem decides_validateBodyWith {body : FunctionBody}
    (hbinding : ∀ id ∈ body.bindings, p.Decides (binding id) (V (.binding id)))
    (hnode : p.Decides (node body.result) (V (.node body.result))) :
    p.Decides (validateBodyWith node binding body) (∀ part ∈ bodyParts body, V part) := by
  refine ((Decides.forAll hbinding).bind hnode).congr ?_
  simp only [bodyParts, List.forall_mem_append, List.forall_mem_map, List.forall_mem_singleton]

theorem decides_body (h : p.LaidOut) (s : Signature) (body : Option FunctionBody) :
    (∀ b ∈ body, ∀ id ∈ b.bindings, p.Decides (binding id) (V (.binding id))) →
      (∀ b ∈ body, p.Decides (node b.result) (V (.node b.result))) →
        p.Decides (match body with
          | none => pure ()
          | some body => do
            validateBodyWith node binding body
            p.requireDeclared s.result body.result)
          (∀ b ∈ body, (∀ part ∈ bodyParts b, V part) ∧ Declared p.plainType s.result b.result) := by
  intro hbinding hnode
  cases body with
  | none => exact Decides.pure.congr (by simp)
  | some body =>
      have hbody := decides_validateBodyWith (hbinding body rfl) (hnode body rfl)
      exact (hbody.bind (Decides.requireDeclared h s.result body.result)).congr (by simp)

theorem decides_validateFunctionWith (h : p.LaidOut) {s : Signature} (hs : p.ParametersLaid s)
    {body : Option FunctionBody}
    (hbinding : ∀ b ∈ body, ∀ id ∈ b.bindings, p.Decides (binding id) (V (.binding id)))
    (hnode : ∀ b ∈ body, p.Decides (node b.result) (V (.node b.result))) :
    p.Decides (validateFunctionWith p node binding s body)
      (FunctionValid p.plainType s body ∧ ∀ b ∈ body, ∀ part ∈ bodyParts b, V part) := by
  have hbody := decides_body h s body hbinding hnode
  unfold validateFunctionWith FunctionValid
  unfold ParametersLaid at hs
  cases hps : s.arguments with
  | fixed ps =>
      rw [hps] at hs
      refine ((Decides.requireDistinct hs.length_eq.symm).bind hbody).congr ?_
      simp only [insideParameters, List.not_mem_nil, not_false_eq_true, implies_true, and_true,
        ParameterList.fixed.injEq, forall_eq']
      constructor
      · rintro ⟨hps, hbody⟩
        exact ⟨⟨hps, fun b hb => (hbody b hb).2⟩, fun b hb => (hbody b hb).1⟩
      · rintro ⟨⟨hps, hresult⟩, hbody⟩
        exact ⟨hps, fun b hb => ⟨hbody b hb, hresult b hb⟩⟩
  | variadic q =>
      refine hbody.congr ?_
      simp only [reduceCtorEq, false_implies, implies_true, true_and]
      constructor
      · exact fun hbody => ⟨fun b hb => (hbody b hb).2, fun b hb => (hbody b hb).1⟩
      · rintro ⟨hresult, hbody⟩ b hb
        exact ⟨hbody b hb, hresult b hb⟩

end

theorem validateNodeWith_eq {node : NodeId → Typing Unit} {binding : BindingId → Typing Unit}
    {id : NodeId} (hform : ∀ s body, (p.node id).form ≠ .lambda s body) :
    validateNodeWith p node binding id =
      p.typeOf id >>= fun _ => forAll node (children (p.node id).form) := by
  unfold validateNodeWith
  cases hown : (p.node id).form with
  | lambda s body => exact absurd hown (hform s body)
  | _ => rfl

omit [EntryOrder] in
theorem node_mem_parts {id c : NodeId} (hc : c ∈ children (p.node id).form) :
    .node c ∈ p.parts (.node id) := by
  cases hown : (p.node id).form <;> simp only [hown] at hc <;> simp only [parts, hown]
  case lambda s body => cases hc
  case cases scrutinee arms =>
    simp only [children, List.mem_cons, List.mem_map] at hc
    rcases hc with rfl | ⟨arm, harm, rfl⟩
    · exact List.mem_cons_self
    · exact List.mem_cons_of_mem _ (List.mem_flatMap.mpr ⟨arm, harm, by simp [armParts]⟩)
  all_goals exact List.mem_map_of_mem hc

theorem decides_validateNodeUpTo (h : p.LaidOut) {depth : Nat}
    (hnode : ∀ id < p.nodes.size, id < depth →
      p.Decides (p.validateNodeUpTo depth id) (p.ValidThroughout p.plainType (.node id)))
    {id : NodeId} (hid : id < p.nodes.size) (hdepth : id < depth + 1) :
    p.Decides (p.validateNodeUpTo (depth + 1) id) (p.ValidThroughout p.plainType (.node id)) := by
  have hlaid := h.node id hid
  have hinner : ∀ c, .node c ∈ p.parts (.node id) →
      p.Decides (p.validateNodeUpTo depth c) (p.ValidThroughout p.plainType (.node c)) := fun c hc =>
    hnode c (Nat.lt_trans (hlaid.nodes c hc) hid)
      (Nat.lt_of_lt_of_le (hlaid.nodes c hc) (Nat.le_of_lt_succ hdepth))
  have htyped := recalls_typeOf h id
  have hfault := plainType_loopFree h id
  rw [validateNodeUpTo, validThroughout_iff, PartValid]
  by_cases hform : ∃ s body, (p.node id).form = .lambda s body
  · obtain ⟨s, body, hform⟩ := hform
    obtain ⟨hs, hnil⟩ := hlaid.lambda s body hform
    have hresult : Part.node body.result ∈ p.parts (.node id) := by
      simp [parts, hform, functionParts, bodyParts]
    have hfunction : p.Decides (validateFunctionWith p (p.validateNodeUpTo depth)
        (p.validateBindingUpTo depth) s (some body)) (FunctionValid p.plainType s (some body) ∧
          ∀ b ∈ some body, ∀ part ∈ bodyParts b, p.ValidThroughout p.plainType part) :=
      decides_validateFunctionWith h hs (by simp [hnil]) (by simpa using hinner body.result hresult)
    simp only [validateNodeWith, hform]
    refine (hfunction.after htyped hfault).congr ?_
    simp only [parts, hform, validThroughout_functionParts hs, Form.lambda.injEq, and_imp, and_assoc]
    refine and_congr_right fun _ => and_congr_left fun _ => ?_
    exact ⟨fun hvalid s' body' hs' hbody' => hs' ▸ hbody' ▸ hvalid, fun hvalid => hvalid s body rfl rfl⟩
  · have hother : ∀ s body, (p.node id).form ≠ .lambda s body := fun s body h' => hform ⟨s, body, h'⟩
    have hchildren := Decides.forAll fun c hc => hinner c (node_mem_parts hc)
    rw [validateNodeWith_eq hother]
    refine ((hchildren.congr (validThroughout_children hlaid hother).symm).after htyped hfault).congr ?_
    exact and_congr_left fun _ => ⟨fun htype => ⟨htype, fun s body h' => absurd h' (hother s body)⟩,
      And.left⟩

/-- How many nodes and bindings there can be inside a binding. -/
def room (p : Program) (id : BindingId) : Nat := p.nodes.size + (p.bindings.size - 1 - id)

omit [EntryOrder] in
theorem room_lt_size {id : BindingId} (hid : id < p.bindings.size) :
    p.room id < p.nodes.size + p.bindings.size := by
  have hlast : p.bindings.size - 1 - id ≤ p.bindings.size - 1 := Nat.sub_le _ _
  exact Nat.add_lt_add_left (Nat.lt_of_le_of_lt hlast (Nat.sub_one_lt (Nat.ne_zero_of_lt hid))) _

omit [EntryOrder] in
/-- There is less room in a binding that was made later. -/
theorem room_lt {id inner : BindingId} (hlt : id < inner) (hinner : inner < p.bindings.size) :
    p.room inner < p.room id := by
  have hid : id < p.bindings.size - 1 := Nat.lt_of_lt_of_le hlt (Nat.le_sub_one_of_lt hinner)
  exact Nat.add_lt_add_left (Nat.sub_lt_sub_left hid hlt) _

theorem decides_validateBindingUpTo (h : p.LaidOut) {depth : Nat}
    (hnode : ∀ id < p.nodes.size, id < depth →
      p.Decides (p.validateNodeUpTo depth id) (p.ValidThroughout p.plainType (.node id)))
    (hbinding : ∀ id < p.bindings.size, p.room id < depth →
      p.Decides (p.validateBindingUpTo depth id) (p.ValidThroughout p.plainType (.binding id)))
    {id : BindingId} (hid : id < p.bindings.size)
    (hdepth : p.room id < depth + 1) :
    p.Decides (p.validateBindingUpTo (depth + 1) id) (p.ValidThroughout p.plainType (.binding id)) := by
  have hlaid := h.binding id hid
  have hinner : ∀ c, .node c ∈ p.parts (.binding id) →
      p.Decides (p.validateNodeUpTo depth c) (p.ValidThroughout p.plainType (.node c)) := by
    intro c hc
    have hlt := hlaid.nodes c hc
    exact hnode c hlt (Nat.lt_of_lt_of_le hlt (Nat.le_trans (Nat.le_add_right _ _)
      (Nat.le_of_lt_succ hdepth)))
  rw [validateBindingUpTo, validateBindingWith, validThroughout_iff, PartValid]
  cases hown : p.binding id with
  | value name span type node =>
      have hpart : Part.node node ∈ p.parts (.binding id) := by simp [parts, hown]
      refine ((hinner node hpart).bind (Decides.requireDeclared h type node)).congr ?_
      simp [parts, hown, and_comm]
  | function name span s body =>
      have hs := hlaid.parameters name span s body hown
      refine (decides_validateFunctionWith h hs (V := p.ValidThroughout p.plainType) ?_ ?_).congr ?_
      · rintro b rfl i hi
        obtain ⟨hlt, hi', -⟩ := hlaid.body name span s b hown i hi
        exact hbinding i hi' (Nat.lt_of_lt_of_le (room_lt hlt hi') (Nat.le_of_lt_succ hdepth))
      · rintro b rfl
        exact hinner b.result (by simp [parts, hown, functionParts, bodyParts])
      · simp only [parts, hown, validThroughout_functionParts hs]
  | parameter name span type => exact Decides.pure.congr (by simp [parts, hown])
  | payload name span scrutinee tag => exact Decides.pure.congr (by simp [parts, hown])

theorem decides_validateUpTo (h : p.LaidOut) (depth : Nat) :
    (∀ id < p.nodes.size, id < depth →
      p.Decides (p.validateNodeUpTo depth id) (p.ValidThroughout p.plainType (.node id))) ∧
    ∀ id < p.bindings.size, p.room id < depth →
      p.Decides (p.validateBindingUpTo depth id) (p.ValidThroughout p.plainType (.binding id)) := by
  induction depth with
  | zero =>
      exact ⟨fun id _ hlt => absurd hlt (Nat.not_lt_zero id), fun id _ hlt => absurd hlt (Nat.not_lt_zero _)⟩
  | succ depth ih =>
      exact ⟨fun id hid hlt => decides_validateNodeUpTo h ih.1 hid hlt,
        fun id hid hlt => decides_validateBindingUpTo h ih.1 ih.2 hid hlt⟩

/-- Validation decides whether all parts of the body of a program are valid throughout. -/
theorem decides_validate (h : p.LaidOut) :
    p.Decides p.validate (∀ part ∈ bodyParts p.body, p.ValidThroughout p.plainType part) := by
  obtain ⟨hnode, hbinding⟩ := decides_validateUpTo h (p.nodes.size + p.bindings.size)
  refine decides_validateBodyWith (fun id hid => ?_) (hnode _ h.result ?_)
  · have hlt := (h.bindings id hid).1
    exact hbinding id hlt (room_lt_size hlt)
  · exact Nat.lt_of_lt_of_le h.result (Nat.le_add_right _ _)

end

/-! ## Nothing is left out -/

theorem partValid_of_size_le {τ : TypeTable} {id : NodeId} {type : Ty} (hid : p.nodes.size ≤ id)
    (htype : τ id = .ok type) : p.PartValid τ (.node id) :=
  ⟨⟨type, htype⟩, fun s body hform => by simp [node_of_size_le hid] at hform⟩

/-- Everything there is lies inside the body of the program. -/
theorem LaidOut.validThroughout_iff [EntryOrder] (h : p.LaidOut) :
    (∀ part ∈ bodyParts p.body, p.ValidThroughout p.plainType part) ↔
      (∀ id < p.nodes.size, p.PartValid p.plainType (.node id)) ∧
        ∀ id < p.bindings.size, p.PartValid p.plainType (.binding id) := by
  constructor
  · intro hvalid
    constructor
    · intro id hid
      obtain ⟨part, hpart, hinside⟩ := h.node_inside id hid
      exact hvalid part hpart _ hinside
    · intro id hid
      obtain ⟨part, hpart, hinside⟩ := h.binding_inside id hid
      exact hvalid part hpart _ hinside
  · rintro ⟨hnodes, hbindings⟩ part - inner -
    cases inner with
    | node id =>
        rcases Nat.lt_or_ge id p.nodes.size with hid | hid
        · exact hnodes id hid
        · have htype : p.plainType id = .ok .null := by
            rw [plainType_eq h id]
            simp only [typeRule, node_of_size_le hid]
            rfl
          exact partValid_of_size_le hid htype
    | binding id =>
        rcases Nat.lt_or_ge id p.bindings.size with hid | hid
        · exact hbindings id hid
        · have hnone : p.binding id = .parameter "" .none .null := by
            rw [Program.binding, Array.getD_eq_getD_getElem?, Array.getElem?_eq_none hid]
            rfl
          simp [PartValid, hnone]

/-- A program passes its checks if it can be built and is valid. -/
theorem check_eq_ok_iff [EntryOrder] {source : String} : check source = .ok p ↔
    ofSource source = .ok p ∧ (p.validate.run p.blank).1 = .ok () := by
  unfold check
  rw [bind_eq_ok]
  constructor
  · rintro ⟨q, hq, h⟩
    split at h
    · obtain rfl := pure_eq_ok.mp h
      exact ⟨hq, ‹_›⟩
    · cases h
  · rintro ⟨hp, hvalid⟩
    refine ⟨p, hp, ?_⟩
    rw [hvalid]
    rfl

end Sable.Program
