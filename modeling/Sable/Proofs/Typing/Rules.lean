import Mathlib.Data.List.Forall2
import Sable.Proofs.Ty.Alike
import Sable.Proofs.Typing.Valid

/-! The typing rules as a relation, one constructor for each way in which an expression has a type. -/
namespace Sable

/-! ## Results of checks -/

theorem bind_eq_ok {ε α β : Type} {c : Except ε α} {f : α → Except ε β} {b : β} :
    c >>= f = .ok b ↔ ∃ a, c = .ok a ∧ f a = .ok b := by
  cases c with
  | error e => exact ⟨nofun, fun ⟨_, h, _⟩ => nomatch h⟩
  | ok a => exact ⟨fun h => ⟨a, rfl, h⟩, fun ⟨_, h, hb⟩ => by cases h; exact hb⟩

theorem pure_eq_ok {ε α : Type} {a b : α} : (pure a : Except ε α) = .ok b ↔ a = b :=
  ⟨fun h => Except.ok.inj h, fun h => congrArg Except.ok h⟩

theorem exists_of_isOk {ε α : Type} {c : Except ε α} (h : c.isOk = true) : ∃ a, c = .ok a := by
  cases c with
  | error e => cases h
  | ok a => exact ⟨a, rfl⟩

theorem exists_of_any {ε α : Type} {c : Except ε α} {f : α → Bool} (h : c.toOption.any f = true) :
    ∃ a, c = .ok a ∧ f a = true := by
  cases c with
  | error e => cases h
  | ok a => exact ⟨a, rfl, h⟩

namespace Program

theorem fail_eq_ok {α : Type} {fault : TypeFault} {span : Span} {a : α} :
    (fail fault span : Except TypeError α) = .ok a ↔ False :=
  ⟨nofun, False.elim⟩

/-- What comes behind a check that raises an error. -/
theorem check_eq_ok {α : Type} {c : Prop} [Decidable c] {fault : TypeFault} {span : Span}
    {rest : Except TypeError α} {a : α} :
    (if c then (fail fault span : Except TypeError Unit) >>= fun _ => rest else rest) = .ok a ↔
      ¬ c ∧ rest = .ok a := by
  split
  · simp only [bind_eq_ok, fail_eq_ok, false_and, exists_false, not_true, *]
  · simp only [not_false_eq_true, true_and, *]

/-! ## The rules -/

/-- A type that stands for `a` in a choice: it is equal to `a`, or to `a` without what is known of the
alternative held. -/
def Covering (a type : Ty) : Prop := a.Alike Eq type ∨ a.widened.Alike Eq type

/-- The type arguments of a call of a function with the given type variables and parameters: there are
none, or they are written down, or they are inferred from the types of the arguments. -/
inductive Instantiates [EntryOrder] (vs : List TypeVariable) (parameters : Parameters) :
    List Ty → List Ty → Substitution → Prop
  | plain {types : List Ty} (h : vs = []) : Instantiates vs parameters [] types .empty
  | inferred {types : List Ty} {s : Substitution} (h : vs ≠ [])
      (hinfer : Substitution.infer vs parameters types = .ok s) :
      Instantiates vs parameters [] types s
  | written {written types : List Ty} (hne : written ≠ []) (hlength : written.length = vs.length) :
      Instantiates vs parameters written types (.ofList (vs.zip written))

variable (p : Program) (τ : TypeTable)

/-- An expression of the form has the type, if its parts have the types that a table says. -/
inductive HasType [EntryOrder] : Form → Ty → Prop
  | number {x : Float} : HasType (.number x) .number
  | bigInteger {n : Int} : HasType (.bigInteger n) .bigInteger
  | boolean {b : Bool} : HasType (.boolean b) .boolean
  | null : HasType .null .null
  | object {fields : List (String × NodeId)} {types : List (String × Ty)}
      (h : List.Forall₂ (fun field type => field.1 = type.1 ∧ τ field.2 = .ok type.2) fields types) :
      HasType (.object fields) (.object (Fields.ofList types))
  | numbers {op : ArithmeticOp} {lhs rhs : NodeId} (hlhs : τ lhs = .ok .number)
      (hrhs : τ rhs = .ok .number) : HasType (.arithmetic op lhs rhs) .number
  | bigIntegers {op : ArithmeticOp} {lhs rhs : NodeId} (hop : op.onBigIntegers = true)
      (hlhs : τ lhs = .ok .bigInteger) (hrhs : τ rhs = .ok .bigInteger) :
      HasType (.arithmetic op lhs rhs) .bigInteger
  | negative {operand : NodeId} (h : τ operand = .ok .number) : HasType (.negate operand) .number
  | negativeBigInteger {operand : NodeId} (h : τ operand = .ok .bigInteger) :
      HasType (.negate operand) .bigInteger
  | equal {lhs rhs : NodeId} {a b : Ty} (hlhs : τ lhs = .ok a) (hrhs : τ rhs = .ok b) :
      HasType (.comparison .equal lhs rhs) .boolean
  | order {op : ComparisonOp} {lhs rhs : NodeId} {a : Ty} (ha : a = .number ∨ a = .bigInteger)
      (hlhs : τ lhs = .ok a) (hrhs : τ rhs = .ok a) : HasType (.comparison op lhs rhs) .boolean
  | logical {op : LogicalOp} {lhs rhs : NodeId} (hlhs : τ lhs = .ok .boolean)
      (hrhs : τ rhs = .ok .boolean) : HasType (.logical op lhs rhs) .boolean
  | not {operand : NodeId} (h : τ operand = .ok .boolean) : HasType (.not operand) .boolean
  | conditional {c t e : NodeId} {a b type : Ty} (hc : τ c = .ok .boolean) (ht : τ t = .ok a)
      (he : τ e = .ok b) (ha : Covering a type) (hb : Covering b type)
      (hfrom : type = a ∨ type = a.widened) : HasType (.conditional c t e) type
  | reference {name : String} {target : Target} {span : Span} {type : Ty}
      (h : referenceType p τ name (some target) span = .ok type) :
      HasType (.reference name (some target)) type
  | call {callee : NodeId} {written types : List Ty} {arguments : List NodeId}
      {vs : List TypeVariable} {parameters : Parameters} {result : Ty} {s : Substitution}
      (hcallee : τ callee = .ok (.function vs parameters result))
      (htypes : List.Forall₂ (fun id type => τ id = .ok type) arguments types)
      (hlength : ∀ ps, parameters = .fixed ps → ps.length = arguments.length)
      (hinstance : Instantiates vs parameters written types s)
      (hfits : ∀ (i : Nat) (type : Ty) (q : String × Ty), types[i]? = some type →
        (s.applyParameters parameters).get? i = some q → type.assignable q.2 = .ok true) :
      HasType (.call callee written arguments) (s.apply result)
  | lambda {s : Signature} {body : FunctionBody} {type : Ty}
      (h : signatureType τ s (some body) = .ok type) : HasType (.lambda s body) type
  | field {owner : NodeId} {name : String} {fields : Fields Ty} {type : Ty}
      (howner : τ owner = .ok (.object fields)) (hget : Fields.get? name fields = some type) :
      HasType (.field owner name) type
  | tagged {value : NodeId} {tag : String} {payload : Ty} (h : τ value = .ok payload) :
      HasType (.tagged value tag) (.tagged payload tag)
  | hasTag {value : NodeId} {tag : String} {type : Ty} {view : Ty.TagView}
      (htype : τ value = .ok type) (hview : type.tagView? = some view) :
      HasType (.hasTag value tag) .boolean
  | untag {value : NodeId} {tag : String} {type payload : Ty} {view : Ty.TagView}
      (htype : τ value = .ok type) (hview : type.tagView? = some view)
      (hpinned : view.pinned = some (tag, payload)) : HasType (.untag value) payload
  | cases {scrutinee : NodeId} {arms : List Arm} {own type : Ty} {view : Ty.TagView}
      (hown : τ scrutinee = .ok own) (hview : own.tagView? = some view)
      (hrequired : ∀ tag ∈ view.required, ∃ arm ∈ arms, arm.tag = tag)
      (harms : ∀ arm ∈ arms, ∃ a, τ arm.body = .ok a ∧ Covering a type)
      (hfrom : ∃ arm ∈ arms, ∃ a, τ arm.body = .ok a ∧ (type = a ∨ type = a.widened)) :
      HasType (.cases scrutinee arms) type

variable {p τ}

/-! ## The rules read backwards -/

theorem eq_of_same_leaf {a : Ty} (leaf : Ty) (hleaf : leaf = .boolean ∨ leaf = .null)
    (h : (a == leaf) = true) : a = leaf := by
  rcases hleaf with rfl | rfl <;> cases a <;> first | rfl | cases h

theorem signatureType_eq_ok_iff {s : Signature} {body : Option FunctionBody} {type : Ty} :
    signatureType τ s body = .ok type ↔ ∃ result,
      (s.result = some result ∨ s.result = none ∧ ∃ b, body = some b ∧ τ b.result = .ok result) ∧
        type = .function s.typeVariables s.arguments result := by
  unfold signatureType
  cases s.result with
  | some result =>
      simp only [bind_eq_ok, pure_eq_ok, exists_eq_left', Option.some.injEq, reduceCtorEq, false_and,
        or_false]
      exact eq_comm
  | none =>
      cases body with
      | some b =>
          simp only [bind_eq_ok, pure_eq_ok, reduceCtorEq, Option.some.injEq, exists_eq_left', true_and,
            false_or]
          exact exists_congr fun _ => and_congr_right fun _ => eq_comm
      | none =>
          simp only [bind_eq_ok, fail_eq_ok, reduceCtorEq, false_and, exists_false, and_false, or_self]

theorem askAll_eq_ok {ids : List NodeId} {types : List Ty} (h : askAll τ ids = .ok types) :
    List.Forall₂ (fun id type => τ id = .ok type) ids types := by
  induction ids generalizing types with
  | nil =>
      obtain rfl := pure_eq_ok.mp h
      exact .nil
  | cons id rest ih =>
      simp only [askAll, bind_eq_ok, pure_eq_ok] at h
      obtain ⟨type, hid, types', hrest, rfl⟩ := h
      exact .cons hid (ih hrest)

theorem objectFields_eq_ok {span : Span} {fields : List (String × NodeId)} {done found : Fields Ty}
    (h : objectFields τ span done fields = .ok found) : ∃ types : List (String × Ty),
      List.Forall₂ (fun field type => field.1 = type.1 ∧ τ field.2 = .ok type.2) fields types ∧
        found = types.foldl (fun fields (name, a) => Fields.insert name a fields) done := by
  induction fields generalizing done with
  | nil => exact ⟨[], .nil, (pure_eq_ok.mp h).symm⟩
  | cons field rest ih =>
      simp only [objectFields, bind_eq_ok, check_eq_ok] at h
      obtain ⟨type, hid, -, h⟩ := h
      obtain ⟨types, htypes, hfound⟩ := ih h
      exact ⟨(field.1, type) :: types, .cons ⟨rfl, hid⟩ htypes, hfound⟩

theorem requireTagView_eq_ok {construct : String} {type : Ty} {span : Span} {view : Ty.TagView}
    (h : (requireTagView construct type span : Except TypeError Ty.TagView) = .ok view) :
    type.tagView? = some view := by
  unfold requireTagView at h
  split at h
  · rename_i view' hview
    rw [hview, pure_eq_ok.mp h]
  · cases h

theorem callSubstitution_eq_ok [EntryOrder] {callee : Option String} {vs : List TypeVariable}
    {parameters : Parameters} {written types : List Ty} {span : Span} {s : Substitution}
    (h : (callSubstitution callee vs parameters written types span : Except TypeError Substitution) =
      .ok s) : Instantiates vs parameters written types s := by
  unfold callSubstitution at h
  split at h
  · obtain rfl := List.isEmpty_iff.mp ‹_›
    split at h
    · obtain rfl := pure_eq_ok.mp h
      exact .plain (List.isEmpty_iff.mp ‹_›)
    · rename_i hvs
      split at h
      · obtain rfl := pure_eq_ok.mp h
        exact .inferred (fun hnil => hvs (by simp [hnil])) ‹_›
      · cases h
  · rename_i hwritten
    split at h
    · obtain rfl := pure_eq_ok.mp h
      exact .written (fun hnil => hwritten (by simp [hnil])) ‹_›
    · cases h

theorem requireArguments_eq_ok {parameters : Parameters} {arguments : List (NodeId × Ty)}
    (h : (p.requireArguments parameters arguments : Except TypeError Unit) = .ok ()) :
    ∀ (i : Nat) (type : Ty) (q : String × Ty), (arguments.map Prod.snd)[i]? = some type →
      parameters.get? i = some q → type.assignable q.2 = .ok true := by
  induction arguments generalizing parameters with
  | nil => simp
  | cons argument rest ih =>
      intro i type q htype hq
      match parameters with
      | .fixed [] => simp [ParameterList.get?] at hq
      | .fixed (q' :: ps) =>
          simp only [requireArguments, bind_eq_ok] at h
          obtain ⟨_, hfits, h⟩ := h
          cases i with
          | zero =>
              simp only [List.map_cons, List.getElem?_cons_zero, Option.some.injEq] at htype
              simp only [ParameterList.get?, List.getElem?_cons_zero, Option.some.injEq] at hq
              subst htype hq
              exact requireAssignable_eq_ok_iff.mp hfits
          | succ i => exact ih h i type q htype hq
      | .variadic q' =>
          simp only [requireArguments, bind_eq_ok] at h
          obtain ⟨_, hfits, h⟩ := h
          cases i with
          | zero =>
              simp only [List.map_cons, List.getElem?_cons_zero, Option.some.injEq] at htype
              simp only [ParameterList.get?, Option.some.injEq] at hq
              subst htype hq
              exact requireAssignable_eq_ok_iff.mp hfits
          | succ i => exact ih h i type q htype hq

theorem callType_eq_ok [EntryOrder] {callee : NodeId} {written : List Ty} {arguments : List NodeId} {span : Span}
    {type : Ty} (h : callType p τ callee written arguments span = .ok type) :
    p.HasType τ (.call callee written arguments) type := by
  simp only [callType, bind_eq_ok] at h
  obtain ⟨own, hcallee, h⟩ := h
  cases own with
  | function vs parameters result =>
      simp only [bind_eq_ok] at h
      obtain ⟨types, htypes, h⟩ := h
      have htypes' := askAll_eq_ok htypes
      have hrest : (do
          let s ← callSubstitution (p.calleeName? callee) vs parameters written types span
          p.requireArguments (s.applyParameters parameters) (arguments.zip types)
          pure (s.apply result) : Except TypeError Ty) = .ok type ∧
            ∀ ps, parameters = .fixed ps → ps.length = arguments.length := by
        cases parameters with
        | fixed ps =>
            obtain ⟨hlength, h⟩ := check_eq_ok.mp h
            refine ⟨h, fun ps' hps => ?_⟩
            obtain rfl := ParameterList.fixed.inj hps
            exact not_not.mp hlength
        | variadic _ => exact ⟨h, by simp⟩
      obtain ⟨h, hlength⟩ := hrest
      simp only [bind_eq_ok, pure_eq_ok] at h
      obtain ⟨s, hs, _, hfits, rfl⟩ := h
      refine .call hcallee htypes' hlength (callSubstitution_eq_ok hs) ?_
      have hfits' := requireArguments_eq_ok hfits
      rwa [List.map_snd_zip (Nat.le_of_eq htypes'.length_eq.symm)] at hfits'
  | _ => cases h

/-! ## Choices -/

theorem widened_widened (a : Ty) : a.widened.widened = a.widened := by
  cases a <;> rfl

theorem alike_of_same {a b : Ty} (h : (a == b) = true) : a.Alike Eq b :=
  (Ty.alike_iff_same a fun _ _ => Iff.rfl).mpr h

theorem alike_widened {a b : Ty} (h : a.Alike Eq b) : a.widened.Alike Eq b.widened := by
  cases a <;> cases b <;> first | exact h.elim | exact h | exact ⟨h.1, rfl⟩

theorem covering_of_agreeing {a b type : Ty} (h : agreeing? a b = some type) :
    Covering a type ∧ Covering b type := by
  unfold agreeing? at h
  split at h
  · obtain rfl := Option.some.inj h
    have hsymm := (alike_of_same ‹_›).symm
    rw [Matching.converse_eq] at hsymm
    exact ⟨.inl (.refl _ fun _ => rfl), .inl hsymm⟩
  · split at h
    · obtain rfl := Option.some.inj h
      have hsymm := (alike_of_same ‹_›).symm
      rw [Matching.converse_eq] at hsymm
      exact ⟨.inr (.refl _ fun _ => rfl), .inr hsymm⟩
    · cases h

/-- What two types agree on is the first one, perhaps without the alternative that it is known to hold. -/
theorem agreeing_eq {a b type : Ty} (h : agreeing? a b = some type) : type = a ∨ type = a.widened := by
  unfold agreeing? at h
  split at h
  · exact .inl (Option.some.inj h).symm
  · split at h
    · exact .inr (Option.some.inj h).symm
    · cases h

theorem Covering.widened {a type : Ty} (h : Covering a type) : Covering a type.widened := by
  rcases h with h | h
  · exact .inr (alike_widened h)
  · have hwidened := alike_widened h
    rw [widened_widened] at hwidened
    exact .inr hwidened

/-- What the types of arms agree on comes from the type agreed on before, or from one of the arms. -/
theorem armTypes_eq_ok {view : Ty.TagView} {own : Ty} {arms : List Arm} {seen seen' : List String}
    {agreed agreed' : Option Ty} (h : armTypes τ view own seen agreed arms = .ok (seen', agreed')) :
    seen' = seen ++ arms.map (·.tag) ∧ ∀ type ∈ agreed',
      (∀ a ∈ agreed, type = a ∨ type = a.widened) ∧
        (∀ arm ∈ arms, ∃ a, τ arm.body = .ok a ∧ Covering a type) ∧
        (agreed = none → ∃ arm ∈ arms, ∃ a, τ arm.body = .ok a ∧ (type = a ∨ type = a.widened)) := by
  induction arms generalizing seen agreed with
  | nil =>
      obtain ⟨rfl, rfl⟩ := Prod.mk.inj (pure_eq_ok.mp h)
      refine ⟨by simp, fun type htype => ⟨fun a ha => ?_, by simp, fun hnone => ?_⟩⟩
      · exact .inl (Option.some.inj (htype.symm.trans ha))
      · rw [hnone] at htype
        cases htype
  | cons arm rest ih =>
      simp only [armTypes, check_eq_ok, bind_eq_ok] at h
      obtain ⟨-, -, body, hbody, h⟩ := h
      have hnext : ∃ next, armTypes τ view own (seen ++ [arm.tag]) (some next) rest =
          .ok (seen', agreed') ∧ Covering body next ∧ (∀ a ∈ agreed, next = a ∨ next = a.widened) ∧
            (agreed = none → next = body) := by
        cases agreed with
        | none => exact ⟨body, h, .inl (.refl _ fun _ => rfl), by simp, fun _ => rfl⟩
        | some first =>
            simp only at h
            split at h
            · rename_i both hboth
              refine ⟨both, h, (covering_of_agreeing hboth).2, fun a ha => ?_, by simp⟩
              obtain rfl := Option.some.inj ha
              exact agreeing_eq hboth
            · simp only [bind_eq_ok, fail_eq_ok, false_and, exists_false] at h
      obtain ⟨next, hrest, hcovering, hfirst, hnone⟩ := hnext
      obtain ⟨hseen, hagreed⟩ := ih hrest
      refine ⟨by simp [hseen], fun type htype => ?_⟩
      obtain ⟨hnext, hrest, -⟩ := hagreed type htype
      have htype := hnext next rfl
      refine ⟨fun a ha => ?_, List.forall_mem_cons.mpr ⟨⟨body, hbody, ?_⟩, hrest⟩, fun h => ?_⟩
      · rcases hfirst a ha with rfl | rfl
        · exact htype
        · rw [widened_widened, or_self] at htype
          exact .inr htype
      · rcases htype with rfl | rfl
        · exact hcovering
        · exact hcovering.widened
      · exact ⟨arm, List.mem_cons_self, body, hbody, hnone h ▸ htype⟩

theorem casesType_eq_ok [EntryOrder] {scrutinee : NodeId} {arms : List Arm} {span : Span} {type : Ty}
    (h : casesType τ scrutinee arms span = .ok type) : p.HasType τ (.cases scrutinee arms) type := by
  simp only [casesType, bind_eq_ok, Prod.exists, check_eq_ok] at h
  obtain ⟨own, hown, view, hview, seen, agreed, harms, hmissing, h⟩ := h
  obtain ⟨rfl, hagreed⟩ := armTypes_eq_ok harms
  split at h
  · rename_i result
    obtain rfl := pure_eq_ok.mp h
    obtain ⟨-, hcovering, hfrom⟩ := hagreed result rfl
    refine .cases hown (requireTagView_eq_ok hview) (fun tag htag => ?_) hcovering (hfrom rfl)
    simp only [List.nil_append, Bool.not_eq_true', List.isEmpty_eq_false_iff, ne_eq, not_not,
      List.filter_eq_nil_iff] at hmissing
    simpa using hmissing tag htag
  · cases h

/-! ## All forms -/

theorem comparisonType_eq_ok [EntryOrder] {op : ComparisonOp} {lhs rhs : NodeId} {a b type : Ty} {span : Span}
    (hlhs : τ lhs = .ok a) (hrhs : τ rhs = .ok b)
    (h : (comparisonType op a b span : Except TypeError Ty) = .ok type) :
    p.HasType τ (.comparison op lhs rhs) type := by
  simp only [comparisonType] at h
  split at h
  · split at h
    · obtain rfl := pure_eq_ok.mp h
      exact .equal hlhs hrhs
    · cases h
  · obtain rfl := pure_eq_ok.mp h
    exact .order (.inl rfl) hlhs hrhs
  · obtain rfl := pure_eq_ok.mp h
    exact .order (.inr rfl) hlhs hrhs
  · cases h

theorem arithmeticType_eq_ok [EntryOrder] {op : ArithmeticOp} {lhs rhs : NodeId} {a b type : Ty} {span : Span}
    (hlhs : τ lhs = .ok a) (hrhs : τ rhs = .ok b)
    (h : (arithmeticType op a b span : Except TypeError Ty) = .ok type) :
    p.HasType τ (.arithmetic op lhs rhs) type := by
  unfold arithmeticType at h
  split at h
  · obtain rfl := pure_eq_ok.mp h
    exact .numbers hlhs hrhs
  · split at h
    · obtain rfl := pure_eq_ok.mp h
      exact .bigIntegers ‹_› hlhs hrhs
    · cases h
  · cases h

/-- What the rules give a node, the relation gives its form. -/
theorem hasType_of_typeRule [EntryOrder] {id : NodeId} {type : Ty} (h : typeRule p τ id = .ok type) :
    p.HasType τ (p.node id).form type := by
  unfold typeRule at h
  cases hform : (p.node id).form with
  | number x => rw [hform] at h; obtain rfl := pure_eq_ok.mp h; exact .number
  | bigInteger n => rw [hform] at h; obtain rfl := pure_eq_ok.mp h; exact .bigInteger
  | boolean b => rw [hform] at h; obtain rfl := pure_eq_ok.mp h; exact .boolean
  | null => rw [hform] at h; obtain rfl := pure_eq_ok.mp h; exact .null
  | object fields =>
      simp only [hform, bind_eq_ok, pure_eq_ok] at h
      obtain ⟨found, hfields, rfl⟩ := h
      obtain ⟨types, htypes, rfl⟩ := objectFields_eq_ok hfields
      exact .object htypes
  | arithmetic op lhs rhs =>
      simp only [hform, bind_eq_ok] at h
      obtain ⟨a, ha, b, hb, h⟩ := h
      exact arithmeticType_eq_ok ha hb h
  | negate operand =>
      simp only [hform, bind_eq_ok] at h
      obtain ⟨a, ha, h⟩ := h
      split at h
      · obtain rfl := pure_eq_ok.mp h
        exact .negative ha
      · obtain rfl := pure_eq_ok.mp h
        exact .negativeBigInteger ha
      · cases h
  | comparison op lhs rhs =>
      simp only [hform, bind_eq_ok] at h
      obtain ⟨a, ha, b, hb, h⟩ := h
      exact comparisonType_eq_ok ha hb h
  | logical op lhs rhs =>
      simp only [hform, bind_eq_ok] at h
      obtain ⟨a, ha, b, hb, h⟩ := h
      split at h
      · rename_i hboth
        obtain rfl := pure_eq_ok.mp h
        obtain ⟨h₁, h₂⟩ := Bool.and_eq_true_iff.mp hboth
        obtain rfl := eq_of_same_leaf .boolean (.inl rfl) h₁
        obtain rfl := eq_of_same_leaf .boolean (.inl rfl) h₂
        exact .logical ha hb
      · cases h
  | not operand =>
      simp only [hform, bind_eq_ok] at h
      obtain ⟨a, ha, h⟩ := h
      split at h
      · obtain rfl := pure_eq_ok.mp h
        exact .not ha
      · cases h
  | conditional condition thenBranch elseBranch =>
      simp only [hform, bind_eq_ok, check_eq_ok] at h
      obtain ⟨c, hc, hboolean, a, ha, b, hb, h⟩ := h
      obtain rfl := eq_of_same_leaf .boolean (.inl rfl) (by simpa using hboolean)
      split at h
      · rename_i both hboth
        obtain rfl := pure_eq_ok.mp h
        obtain ⟨ha', hb'⟩ := covering_of_agreeing hboth
        exact .conditional hc ha hb ha' hb' (agreeing_eq hboth)
      · cases h
  | reference name target =>
      simp only [hform] at h
      cases target with
      | none => cases h
      | some target => exact .reference h
  | call callee written arguments =>
      simp only [hform] at h
      exact callType_eq_ok h
  | lambda s body =>
      simp only [hform] at h
      exact .lambda h
  | field owner name =>
      simp only [hform, bind_eq_ok] at h
      obtain ⟨a, ha, h⟩ := h
      split at h
      · split at h
        · obtain rfl := pure_eq_ok.mp h
          exact .field ha ‹_›
        · cases h
      · cases h
  | tagged value tag =>
      simp only [hform, bind_eq_ok, pure_eq_ok] at h
      obtain ⟨a, ha, rfl⟩ := h
      exact .tagged ha
  | hasTag value tag =>
      simp only [hform, bind_eq_ok] at h
      obtain ⟨a, ha, view, hview, h⟩ := h
      split at h
      · obtain rfl := pure_eq_ok.mp h
        exact .hasTag ha (requireTagView_eq_ok hview)
      · cases h
  | untag value =>
      simp only [hform, bind_eq_ok] at h
      obtain ⟨a, ha, view, hview, h⟩ := h
      split at h
      · obtain rfl := pure_eq_ok.mp h
        exact .untag ha (requireTagView_eq_ok hview) ‹_›
      · cases h
  | cases scrutinee arms =>
      simp only [hform] at h
      exact casesType_eq_ok h

end Program

end Sable
