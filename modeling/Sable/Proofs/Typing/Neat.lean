import Sable.Proofs.Lowering.Stored
import Sable.Proofs.Ty.Neat
import Sable.Proofs.Typing.Answers
import Sable.Proofs.Typing.Scopes

/-! All types of a program that can be built are neat: those that are written into it, those that its rules give to
nodes and bindings, and those that calls put in the place of type variables. -/
namespace Sable

theorem Lowering.kept_neat : Kept fun _ a => a.Neat := by
  refine kept_every (fun _ => Ty.stable_neat) (fun _ _ h => h) (fun _ => rfl) fun _ a hordinary => ?_
  cases a with
  | nullable b => cases hordinary
  | union fields narrowed =>
      cases narrowed with
      | none => rfl
      | some tag => cases hordinary
  | _ => rfl

theorem Substitution.neat_applyParameters {s : Substitution} {ps : Parameters}
    (himage : ∀ v b, s.get? v = some b → b.Neat) (h : ∀ q ∈ ps.toList, q.2.Neat) :
    ∀ q ∈ (s.applyParameters ps).toList, q.2.Neat := by
  unfold applyParameters
  split
  · exact h
  · exact Ty.everyParameter_iff.mp (everyParameter_replace Ty.stable_neat himage (Ty.everyParameter_iff.mpr h))

namespace Program

variable {p : Program} {τ : TypeTable} {vs : List TypeVariable} {parameters : Parameters} {written types : List Ty}
  {s : Substitution} {type : Ty}

/-- The types that stand in nodes and in bindings are neat. -/
structure StoresNeat (p : Program) : Prop where
  node : ∀ id, ∀ a ∈ (p.node id).form.stored, a.Neat
  binding : ∀ id, ∀ a ∈ (p.binding id).stored, a.Neat

/-- The types in the table are neat. -/
def HasNeat (τ : TypeTable) : Prop := ∀ id a, τ id = .ok a → a.Neat

theorem storesNeat_of_stores (h : ∀ a, p.Stores a → a.Neat) : p.StoresNeat where
  node id a ha := by
    rcases Nat.lt_or_ge id p.nodes.size with hlt | hge
    · rw [node, Array.getD_eq_getD_getElem?, Array.getElem?_eq_getElem hlt, Option.getD_some] at ha
      exact h a (.node (Array.getElem_mem hlt) ha)
    · rw [node, Array.getD_eq_getD_getElem?, Array.getElem?_eq_none hge] at ha
      cases ha
  binding id a ha := by
    rcases Nat.lt_or_ge id p.bindings.size with hlt | hge
    · rw [binding, Array.getD_eq_getD_getElem?, Array.getElem?_eq_getElem hlt, Option.getD_some] at ha
      exact h a (.binding (Array.getElem_mem hlt) ha)
    · rw [binding, Array.getD_eq_getD_getElem?, Array.getElem?_eq_none hge] at ha
      obtain rfl := List.mem_singleton.mp ha
      rfl

/-! ## Bindings and names -/

theorem HasNeat.signatureType (h : HasNeat τ) {signature : Signature} {body : Option FunctionBody}
    (hsignature : ∀ a ∈ signature.types, a.Neat) (htype : signatureType τ signature body = .ok type) : type.Neat := by
  obtain ⟨harguments, hwritten⟩ := Signature.forall_mem_types.mp hsignature
  obtain ⟨result, hresult, rfl⟩ := signatureType_eq_ok_iff.mp htype
  refine Ty.neat_function_iff.mpr ⟨harguments, ?_⟩
  rcases hresult with hresult | ⟨-, b, -, hb⟩
  · exact hwritten result hresult
  · exact h _ _ hb

theorem HasNeat.bindingType (h : HasNeat τ) (hp : p.StoresNeat) {id : BindingId}
    (htype : bindingType p τ id = .ok type) : type.Neat := by
  have hstored := hp.binding id
  unfold Program.bindingType at htype
  cases hbinding : p.binding id with
  | value name span written node =>
      rw [hbinding] at htype hstored
      cases written with
      | some a =>
          obtain rfl := pure_eq_ok.mp htype
          exact hstored a List.mem_cons_self
      | none => exact h node type htype
  | function name span signature body =>
      rw [hbinding] at htype hstored
      exact h.signatureType hstored htype
  | parameter name span a =>
      rw [hbinding] at htype hstored
      obtain rfl := pure_eq_ok.mp htype
      exact hstored a List.mem_cons_self
  | payload name span scrutinee tag =>
      simp only [hbinding, bind_eq_ok] at htype
      obtain ⟨own, hown, htype⟩ := htype
      split at htype
      · rename_i payload hpayload
        obtain rfl := pure_eq_ok.mp htype
        obtain ⟨view, hview, hget⟩ := Option.bind_eq_some_iff.mp hpayload
        exact (h scrutinee own hown).payload hview hget
      · cases htype

theorem HasNeat.referenceType (h : HasNeat τ) (hp : p.StoresNeat) {name : String} {target : Option Target} {span : Span}
    (htype : referenceType p τ name target span = .ok type) : type.Neat := by
  unfold Program.referenceType at htype
  split at htype
  · cases htype
  · exact h.bindingType hp htype
  · rename_i id
    split at htype
    · rename_i signature _ hbinding
      have hstored := hp.binding id
      rw [hbinding] at hstored
      split at htype
      · exact h.signatureType hstored htype
      · cases htype
    · exact h.bindingType hp htype
  · rename_i id tag
    simp only [bind_eq_ok, pure_eq_ok] at htype
    obtain ⟨a, ha, rfl⟩ := htype
    have hneat := h.bindingType hp ha
    cases hnarrow : a.narrow? tag with
    | none => exact hneat
    | some b => exact hneat.narrow hnarrow
  · simp only [bind_eq_ok, pure_eq_ok] at htype
    obtain ⟨a, ha, rfl⟩ := htype
    exact (h.bindingType hp ha).withoutNull

/-! ## Calls -/

/-- What is put in the place of type variables is written down, or a part of the type of an argument. -/
theorem Instantiates.neat [EntryOrder] (h : Instantiates vs parameters written types s) (hwritten : ∀ a ∈ written, a.Neat)
    (htypes : ∀ a ∈ types, a.Neat) {v : TypeVariable} {a : Ty} (hget : s.get? v = some a) : a.Neat := by
  cases h with
  | plain => cases hget
  | inferred _ hinfer => exact ((Substitution.maps_of_infer Ty.hereditary_neat htypes hinfer).get? hget).2
  | written _ _ => exact hwritten a (List.of_mem_zip (Substitution.mem_of_get?_ofList hget)).2

theorem HasNeat.all (h : HasNeat τ) {ids : List NodeId}
    (htypes : List.Forall₂ (fun id type => τ id = .ok type) ids types) : ∀ a ∈ types, a.Neat := by
  induction htypes with
  | nil => exact List.forall_mem_nil _
  | cons hid _ ih => exact List.forall_mem_cons.mpr ⟨h _ _ hid, ih⟩

theorem HasNeat.call [EntryOrder] (h : HasNeat τ) (hp : p.StoresNeat) {result : Ty}
    (hcall : p.CallOf τ vs parameters result types s) : (∀ v a, s.get? v = some a → a.Neat) ∧
      (∀ q ∈ (s.applyParameters parameters).toList, q.2.Neat) ∧ (s.apply result).Neat := by
  obtain ⟨hform, hcallee, htypes, hinstance⟩ := hcall
  rename_i id callee written arguments
  have hwritten := hp.node id
  rw [hform] at hwritten
  obtain ⟨hparameters, hresult⟩ := Ty.neat_function_iff.mp (h callee _ hcallee)
  have himage : ∀ v a, s.get? v = some a → a.Neat := fun v a hget => hinstance.neat hwritten (h.all htypes) hget
  exact ⟨himage, Substitution.neat_applyParameters himage hparameters,
    Substitution.every_apply Ty.stable_neat himage hresult⟩

/-! ## Expressions -/

theorem HasNeat.covered (h : HasNeat τ) {id : NodeId} {a : Ty} (ha : τ id = .ok a)
    (hfrom : type = a ∨ type = a.widened) : type.Neat := by
  rcases hfrom with rfl | rfl
  · exact h id _ ha
  · exact (h id a ha).widened

theorem HasNeat.fields (h : HasNeat τ) {fields : List (String × NodeId)} {types : List (String × Ty)}
    (htypes : List.Forall₂ (fun field type => field.1 = type.1 ∧ τ field.2 = .ok type.2) fields types) :
    ∀ field ∈ types, field.2.Neat := by
  induction htypes with
  | nil => exact List.forall_mem_nil _
  | cons hfield _ ih => exact List.forall_mem_cons.mpr ⟨h _ _ hfield.2, ih⟩

/-- What an expression is made of has neat types, and so it has a neat type itself. -/
theorem HasNeat.hasType [EntryOrder] (h : HasNeat τ) (hp : p.StoresNeat) {id : NodeId} (htype : p.HasType τ (p.node id).form type) :
    type.Neat := by
  have hstored := hp.node id
  generalize hform : (p.node id).form = form at htype hstored
  cases htype with
  | number | bigInteger | boolean | null | numbers | bigIntegers | negative | negativeBigInteger | equal | order
  | logical | not | hasTag => rfl
  | object hfields =>
      exact Bool.and_eq_true_iff.mpr ⟨rfl, Ty.everyField_iff.mpr (Fields.forall_mem_ofList (h.fields hfields))⟩
  | conditional _ ht _ _ _ hfrom => exact h.covered ht hfrom
  | reference htype => exact h.referenceType hp htype
  | call hcallee htypes _ hinstance _ => exact (h.call hp (.mk hform hcallee htypes hinstance)).2.2
  | lambda htype => exact h.signatureType hstored htype
  | field howner hget => exact Ty.every_of_field (Bool.and_eq_true_iff.mp (h _ _ howner)).2 hget
  | tagged hvalue => exact Bool.and_eq_true_iff.mpr ⟨rfl, h _ _ hvalue⟩
  | untag htype hview hpinned => exact (h _ _ htype).payload hview (payload?_of_pinned hview hpinned)
  | cases _ _ _ _ hfrom =>
      obtain ⟨arm, -, a, ha, hfrom⟩ := hfrom
      exact h.covered ha hfrom

/-- The rule of a node asks for nodes before it, so all types are neat. -/
theorem ObeysRules.hasNeat [EntryOrder] (hτ : p.ObeysRules τ) (hlaid : p.LaidOut) (hp : p.StoresNeat) : HasNeat τ := by
  intro id
  induction id using Nat.strongRecOn with
  | ind id ih =>
      intro a ha
      -- The rule gives the same type where only the nodes before this one have types.
      let earlier : TypeTable := fun c => if c < id then τ c else fail .loop .none
      have hcongr : typeRule p τ id = typeRule p earlier id := hlaid.typeRule_congr fun c hc => (if_pos hc).symm
      refine HasNeat.hasType ?_ hp (hasType_of_typeRule (hcongr.symm.trans ((hτ id).symm.trans ha)))
      intro c b hb
      simp only [earlier] at hb
      split at hb
      · exact ih c ‹_› b hb
      · cases hb

/-! ## Programs -/

theorem HasNeat.freshAnswer [EntryOrder] (h : HasNeat p.plainType) (hlaid : p.LaidOut) (hp : p.StoresNeat) {q : Query}
    (hanswer : q.freshAnswer p = .ok (some type)) : type.Neat := by
  have hmap {c : Except TypeError Ty} (hc : c.map some = .ok (some type)) : c = .ok type := by
    cases c with
    | error e => cases hc
    | ok a => rw [Option.some.inj (Except.ok.inj hc)]
  cases q with
  | node id => exact h id type (hmap ((freshAnswer_node hlaid id).symm.trans hanswer))
  | binding id => exact h.bindingType hp (hmap ((freshAnswer_binding hlaid id).symm.trans hanswer))
  | result => exact h p.body.result type (hmap ((freshAnswer_node hlaid p.body.result).symm.trans hanswer))
  | validate =>
      obtain ⟨answer, hrecalls, -⟩ := decides_validate hlaid
      have hnone := hrecalls.bind fun _ => (p.recalling Idle).pure (none : Option Ty)
      obtain ⟨hfresh, -⟩ := hnone p.blank rfl (knows_blank p)
      have hnone := hfresh.symm.trans hanswer
      cases answer <;> cases hnone

/-- In a program that can be built, valid or not, every type is neat: what stands in it, what any sequence of queries is
answered and leaves behind in the memo, and what is put in the place of type variables in a call, be it inferred, with
what that makes of the parameters. -/
theorem types_neat [EntryOrder] {source : String} {p : Program} (h : ofSource source = .ok p) :
    (∀ a, p.Stores a → a.Neat) ∧
      (∀ queries, (∀ a, .ok (some a) ∈ (p.answers queries p.blank).1 → a.Neat) ∧
        ∀ id a, (p.answers queries p.blank).2.known.getD id none = some a → a.Neat) ∧
      ∃ τ : TypeTable, (∀ id, (Query.node id).freshAnswer p = (τ id).map some) ∧
        ∀ vs parameters result types s, p.CallOf τ vs parameters result types s →
          (∀ v a, s.get? v = some a → a.Neat) ∧ ∀ q ∈ (s.applyParameters parameters).toList, q.2.Neat := by
  have hlaid := laidOut_of_ofSource h
  obtain ⟨n, hstores⟩ := stores_of_ofTree Lowering.kept_neat (ofTree_of_ofSource h)
  have hp := storesNeat_of_stores hstores
  have hneat (order : EntryOrder) : HasNeat (@plainType order p) := ((obeysRules_iff hlaid).mpr rfl).hasNeat hlaid hp
  refine ⟨hstores, fun queries => ?_, p.plainType, freshAnswer_node hlaid, fun vs parameters result types s hcall => ?_⟩
  · obtain ⟨hanswers, -, hknows⟩ := answers_of_knows hlaid queries (show Idle p.blank.visiting from rfl) (knows_blank p)
    refine ⟨fun a ha => ?_, fun id a hget => hneat _ id a (hknows.known id a hget)⟩
    rw [hanswers] at ha
    obtain ⟨⟨order, q⟩, -, hq⟩ := List.mem_map.mp ha
    exact (hneat order).freshAnswer hlaid hp hq
  · obtain ⟨himage, hparameters, -⟩ := (hneat _).call hp hcall
    exact ⟨himage, hparameters⟩

/-- An optional type is put below an optional one, by inference and in writing, and a union is narrowed. The program is
not valid. -/
def optionalSource : String :=
  "union S = a: Number? | b: Null\n" ++
  "external def kept[T](x: T, y: T?): T?\n" ++
  "def f(s: S) = if s is a then kept(untag s, null) else kept[Number?](null, null)\n" ++
  "return missing"

theorem types_neat_optional : ∃ p, ofSource optionalSource = .ok p ∧
    ([2, 3, 6, 10, 12].map fun id => ((Query.node id).freshAnswer p).toOption.map (·.map Ty.text)) =
      [some (some "[T](x: T, y: T?) -> T?"), some (some "(a: Number? | b: Null) @a"), some (some "Number?"),
        some (some "Number?"), none] ∧
    (∀ a, p.Stores a → a.Neat) ∧
    (∀ queries, (∀ a, .ok (some a) ∈ (p.answers queries p.blank).1 → a.Neat) ∧
      ∀ id a, (p.answers queries p.blank).2.known.getD id none = some a → a.Neat) ∧
    ∃ τ : TypeTable, (∀ id, (Query.node id).freshAnswer p = (τ id).map some) ∧
      ∀ vs parameters result types s, p.CallOf τ vs parameters result types s →
        (∀ v a, s.get? v = some a → a.Neat) ∧ ∀ q ∈ (s.applyParameters parameters).toList, q.2.Neat := by
  have hasked : ((ofSource optionalSource).toOption.map fun p =>
      [2, 3, 6, 10, 12].map fun id => ((Query.node id).freshAnswer p).toOption.map (·.map Ty.text)) =
        some [some (some "[T](x: T, y: T?) -> T?"), some (some "(a: Number? | b: Null) @a"), some (some "Number?"),
          some (some "Number?"), none] := by
    decide +kernel
  cases hp : ofSource optionalSource with
  | error e =>
      rw [hp] at hasked
      cases hasked
  | ok p =>
      rw [hp] at hasked
      exact ⟨p, rfl, Option.some.inj hasked, types_neat hp⟩

end Program

end Sable
