import Sable.Proofs.Typing.Queries

/-! Validation and well-formedness.

What makes a program well-formed is said here by what it has in its tables, with no word of how to go
through it; validation succeeds for well-formed programs and for no others. -/
namespace Sable.Program

variable {p : Program}

/-- The type of a node, asked for now, is assignable to a type. -/
def NodeFits [EntryOrder] (p : Program) (memo : Memo) (node : NodeId) (type : Ty) : Prop :=
  ∃ actual, ((p.typeOf node).run memo).1 = .ok actual ∧ actual.assignable type = .ok true

/-- Every node has a type, what has a declared type fits it, and no function has two parameters of one
name. -/
structure WellFormed [EntryOrder] (p : Program) (memo : Memo) : Prop where
  typed : ∀ id < p.nodes.size, ∃ type, ((p.typeOf id).run memo).1 = .ok type
  values : ∀ id < p.bindings.size, ∀ name span type node,
    p.binding id = .value name span (some type) node → p.NodeFits memo node type
  results : ∀ id < p.bindings.size, ∀ name span s body type,
    p.binding id = .function name span s (some body) → s.result = some type →
      p.NodeFits memo body.result type
  lambdaResults : ∀ id < p.nodes.size, ∀ s body type,
    (p.node id).form = .lambda s body → s.result = some type → p.NodeFits memo body.result type
  parameters : ∀ id < p.bindings.size, ∀ name span s body ps,
    p.binding id = .function name span s body → s.arguments = .fixed ps → (ps.map Prod.fst).Nodup
  lambdaParameters : ∀ id < p.nodes.size, ∀ s body ps,
    (p.node id).form = .lambda s body → s.arguments = .fixed ps → (ps.map Prod.fst).Nodup

/-- A program is well-formed if its parts are valid. -/
theorem wellFormed_iff [EntryOrder] {memo : Memo} (htypes : ∀ id, ((p.typeOf id).run memo).1 = p.plainType id) :
    p.WellFormed memo ↔ (∀ id < p.nodes.size, p.PartValid p.plainType (.node id)) ∧
      ∀ id < p.bindings.size, p.PartValid p.plainType (.binding id) := by
  constructor
  · intro h
    refine ⟨fun id hid => ⟨htypes id ▸ h.typed id hid, fun s body hform => ⟨?_, ?_⟩⟩, fun id hid => ?_⟩
    · exact fun ps hps => h.lambdaParameters id hid s body ps hform hps
    · rintro b hb type htype
      obtain rfl := Option.some.inj hb
      obtain ⟨actual, hactual, hfits⟩ := h.lambdaResults id hid s body type hform htype
      exact ⟨actual, (htypes _).symm.trans hactual, hfits⟩
    · cases hbinding : p.binding id <;> simp only [PartValid, hbinding]
      case value name span declared node =>
        rintro type rfl
        obtain ⟨actual, hactual, hfits⟩ := h.values id hid name span type node hbinding
        exact ⟨actual, (htypes _).symm.trans hactual, hfits⟩
      case function name span s body =>
        refine ⟨fun ps hps => h.parameters id hid name span s body ps hbinding hps, ?_⟩
        rintro b rfl type htype
        obtain ⟨actual, hactual, hfits⟩ := h.results id hid name span s b type hbinding htype
        exact ⟨actual, (htypes _).symm.trans hactual, hfits⟩
  · rintro ⟨hnodes, hbindings⟩
    have hfits : ∀ {declared : Option Ty} {node : NodeId} {type : Ty},
        Declared p.plainType declared node → declared = some type → p.NodeFits memo node type := by
      rintro declared node type hdeclared rfl
      obtain ⟨actual, hactual, hfits⟩ := hdeclared type rfl
      exact ⟨actual, (htypes _).trans hactual, hfits⟩
    have hfunction : ∀ id < p.bindings.size, ∀ name span s body,
        p.binding id = .function name span s body → FunctionValid p.plainType s body := by
      intro id hid name span s body hbinding
      have hpart := hbindings id hid
      rwa [PartValid, hbinding] at hpart
    constructor
    · intro id hid
      rw [htypes id]
      exact (hnodes id hid).1
    · intro id hid name span type node hbinding
      have hpart := hbindings id hid
      rw [PartValid, hbinding] at hpart
      exact hfits hpart rfl
    · exact fun id hid name span s body type hbinding hresult =>
        hfits ((hfunction id hid name span s (some body) hbinding).2 body rfl) hresult
    · exact fun id hid s body type hform hresult =>
        hfits (((hnodes id hid).2 s body hform).2 body rfl) hresult
    · exact fun id hid name span s body ps hbinding hps =>
        (hfunction id hid name span s body hbinding).1 ps hps
    · exact fun id hid s body ps hform hps => ((hnodes id hid).2 s body hform).1 ps hps

/-! ## Types of bindings -/

theorem not_payload_of_isDeclared {id : BindingId} (h : p.IsDeclared id) {name : String} {span : Span}
    {scrutinee : NodeId} {tag : String} : p.binding id ≠ .payload name span scrutinee tag := by
  intro hbinding
  rcases h with ⟨_, _, _, _, h⟩ | ⟨_, _, _, _, h⟩ <;> cases hbinding.symm.trans h

theorem not_payload_of_mem_parameters {s : Signature} (hs : p.ParametersLaid s) {id : BindingId}
    (hid : id ∈ s.parameters) {name : String} {span : Span} {scrutinee : NodeId} {tag : String} :
    p.binding id ≠ .payload name span scrutinee tag := by
  intro hbinding
  obtain ⟨i, hi, rfl⟩ := List.getElem_of_mem hid
  obtain ⟨span', h⟩ := (List.forall₂_iff_get.mp hs).2 i hi (hs.length_eq ▸ hi)
  cases hbinding.symm.trans h

/-- Every payload is that of an arm of a match on its scrutinee. -/
theorem LaidOut.exists_arm (h : p.LaidOut) {id : BindingId} (hid : id < p.bindings.size) {name : String}
    {span : Span} {scrutinee : NodeId} {tag : String}
    (hbinding : p.binding id = .payload name span scrutinee tag) :
    ∃ c < p.nodes.size, ∃ arms, (p.node c).form = .cases scrutinee arms ∧ ∃ arm ∈ arms, arm.tag = tag := by
  obtain ⟨part, hpart, hinside⟩ := h.binding_inside id hid
  rcases Relation.ReflTransGen.cases_tail hinside with rfl | ⟨outer, -, houter⟩
  · have hdeclared := (h.bindings id (by simpa [bodyParts] using hpart)).2
    exact absurd hbinding (not_payload_of_isDeclared hdeclared)
  · cases outer with
    | node c =>
        have hc : c < p.nodes.size := by
          refine Nat.lt_of_not_le fun hc => ?_
          simp [parts, node_of_size_le hc, children] at houter
        have hlaid := h.node c hc
        cases hform : (p.node c).form <;> simp only [parts, hform] at houter
        case lambda s body =>
          obtain ⟨hs, hnil⟩ := hlaid.lambda s body hform
          simp only [functionParts, bodyParts, hnil, Option.toList_some, List.flatMap_cons,
            List.flatMap_nil, List.map_nil, List.nil_append, List.append_nil, List.mem_append,
            List.mem_map, Part.binding.injEq, exists_eq_right, List.mem_singleton, reduceCtorEq,
            or_false] at houter
          exact absurd hbinding (not_payload_of_mem_parameters hs houter)
        case cases own arms =>
          simp only [armParts, List.mem_cons, reduceCtorEq, List.mem_flatMap, List.not_mem_nil, or_false,
            Part.binding.injEq, false_or] at houter
          obtain ⟨arm, harm, rfl⟩ := houter
          obtain ⟨_, _, hown⟩ := hlaid.arms own arms hform arm harm
          obtain ⟨-, -, rfl, rfl⟩ := Binding.payload.inj (hbinding.symm.trans hown)
          exact ⟨c, hc, arms, hform, arm, harm, rfl⟩
        all_goals simp at houter
    | binding b =>
        cases hown : p.binding b with
        | value name span type node => simp [parts, hown] at houter
        | parameter name span type => simp [parts, hown] at houter
        | payload name span scrutinee tag => simp [parts, hown] at houter
        | function name span s body =>
            have hb : b < p.bindings.size := by
              refine Nat.lt_of_not_le fun hb => ?_
              rw [Program.binding, Array.getD_eq_getD_getElem?, Array.getElem?_eq_none hb] at hown
              cases hown
            have hlaid := h.binding b hb
            simp only [parts, hown, functionParts, bodyParts, List.mem_append, List.mem_map,
              Part.binding.injEq, exists_eq_right, List.mem_flatMap, Option.mem_toList,
              List.mem_singleton, reduceCtorEq, or_false] at houter
            rcases houter with hid | ⟨body, rfl, hid⟩
            · exact absurd hbinding (not_payload_of_mem_parameters (hlaid.parameters _ _ _ _ hown) hid)
            · exact absurd hbinding
                (not_payload_of_isDeclared (hlaid.body name span s body hown id hid).2.2)

/-- The tags of the arms of a match are tags of what is matched. -/
theorem armTypes_hasTag {τ : TypeTable} {view : Ty.TagView} {own : Ty} {arms : List Arm}
    {seen : List String} {agreed : Option Ty} {found : List String × Option Ty}
    (h : armTypes τ view own seen agreed arms = .ok found) : ∀ arm ∈ arms, view.hasTag arm.tag = true := by
  induction arms generalizing seen agreed with
  | nil => simp
  | cons arm rest ih =>
      simp only [armTypes, check_eq_ok, bind_eq_ok] at h
      obtain ⟨htag, -, body, -, h⟩ := h
      have hrest : ∃ next, armTypes τ view own (seen ++ [arm.tag]) next rest = .ok found := by
        cases agreed with
        | none => exact ⟨_, h⟩
        | some first =>
            simp only at h
            split at h
            · exact ⟨_, h⟩
            · simp only [bind_eq_ok, fail_eq_ok, false_and, exists_false] at h
      obtain ⟨next, hrest⟩ := hrest
      exact List.forall_mem_cons.mpr ⟨by simpa using htag, ih hrest⟩

/-- A payload has a type where the match that it comes from has one. -/
theorem exists_payload {scrutinee : NodeId} {arms : List Arm} {span : Span} {type : Ty} {τ : TypeTable}
    (h : casesType τ scrutinee arms span = .ok type) {arm : Arm} (harm : arm ∈ arms) :
    ∃ own, τ scrutinee = .ok own ∧ ∃ payload, own.tagView?.bind (·.payload? arm.tag) = some payload := by
  simp only [casesType, bind_eq_ok, Prod.exists] at h
  obtain ⟨own, hown, view, hview, seen, agreed, harms, -⟩ := h
  obtain ⟨payload, hpayload⟩ := Option.isSome_iff_exists.mp (armTypes_hasTag harms arm harm)
  exact ⟨own, hown, payload, by rw [requireTagView_eq_ok hview]; exact hpayload⟩

/-- Where all nodes have types, all bindings have. -/
theorem LaidOut.exists_typeOfBinding [EntryOrder] (h : p.LaidOut)
    (htyped : ∀ id < p.nodes.size, ∃ type, p.plainType id = .ok type) {id : BindingId}
    (hid : id < p.bindings.size) : ∃ type, p.plainTypeOfBinding id = .ok type := by
  have hlaid := h.binding id hid
  unfold plainTypeOfBinding bindingType
  cases hbinding : p.binding id with
  | value name span declared node =>
      cases declared with
      | some type => exact ⟨type, rfl⟩
      | none => exact htyped node (hlaid.asks node (by simp [bindingAsks, hbinding]))
  | function name span s body =>
      simp only [signatureType_eq_ok_iff]
      cases hresult : s.result with
      | some result => exact ⟨_, result, .inl rfl, rfl⟩
      | none =>
          cases body with
          | none =>
              have hsome := hlaid.external name span s hbinding
              rw [hresult] at hsome
              cases hsome
          | some b =>
              have hmem : b.result ∈ p.bindingAsks id := by
                simp [bindingAsks, hbinding, signatureAsks, hresult]
              obtain ⟨result, hb⟩ := htyped b.result (hlaid.asks b.result hmem)
              exact ⟨_, result, .inr ⟨rfl, b, rfl, hb⟩, rfl⟩
  | parameter name span type => exact ⟨type, rfl⟩
  | payload name span scrutinee tag =>
      obtain ⟨c, hc, arms, hform, arm, harm, rfl⟩ := h.exists_arm hid hbinding
      obtain ⟨type, htype⟩ := htyped c hc
      rw [plainType_eq h c] at htype
      simp only [typeRule, hform] at htype
      obtain ⟨own, hown, payload, hpayload⟩ := exists_payload htype harm
      refine ⟨payload, bind_eq_ok.mpr ⟨own, hown, ?_⟩⟩
      simp only [hpayload]
      rfl

/-! ## Validation -/

/-- Validation, whatever was asked before, succeeds exactly for the well-formed programs; and in a program
that passes, every binding has a type, be it that of a parameter or of a payload. -/
theorem validate_iff_wellFormed [EntryOrder] {source : String} {p : Program} (h : ofSource source = .ok p)
    {memo : Memo} (hmemo : p.Reached memo) :
    ((p.validate.run memo).1 = .ok () ↔ p.WellFormed memo) ∧
      ((p.validate.run memo).1 = .ok () → ∀ memo', p.Reached memo' → ∀ id < p.bindings.size,
        ∃ type, ((p.typeOfBinding id).run memo').1 = .ok type) := by
  have hlaid := laidOut_of_ofSource h
  obtain ⟨hidle, hknows⟩ := hmemo.knows hlaid
  obtain ⟨result, hrecalls, hiff, -⟩ := decides_validate hlaid
  have hresult := (hrecalls memo hidle hknows).1
  rw [hresult, hiff, hlaid.validThroughout_iff]
  refine ⟨(wellFormed_iff fun id => (recalls_typeOf hlaid id memo hidle hknows).1).symm, ?_⟩
  rintro ⟨hnodes, -⟩ memo' hmemo' id hid
  obtain ⟨hidle', hknows'⟩ := hmemo'.knows hlaid
  rw [(recalls_typeOfBinding hlaid id memo' hidle' hknows').1]
  exact hlaid.exists_typeOfBinding (fun id hid => (hnodes id hid).1) hid

/-- A valid program with a parameter, a payload and a function without a name. -/
def shapesSource : String :=
  "union Shape = circle: Number\n" ++
  "def size(s: Shape): Number = match s { circle c => c }\n" ++
  "return fn(s: Shape) => size(s)"

theorem validate_iff_wellFormed_shapes : ∃ p, ofSource shapesSource = .ok p ∧ p.Reached p.blank ∧
    p.WellFormed p.blank ∧ ∀ memo', p.Reached memo' → ∀ id < p.bindings.size,
      ∃ type, ((p.typeOfBinding id).run memo').1 = .ok type := by
  obtain ⟨p, hcheck⟩ := exists_of_isOk (show (check shapesSource).isOk = true by decide +kernel)
  obtain ⟨hp, hvalid⟩ := check_eq_ok_iff.mp hcheck
  obtain ⟨hiff, htyped⟩ := validate_iff_wellFormed hp .blank
  exact ⟨p, hp, .blank, hiff.mp hvalid, htyped hvalid⟩

end Sable.Program
