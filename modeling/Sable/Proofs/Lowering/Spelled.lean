import Sable.Proofs.Lowering.Types
import Sable.Proofs.Reader.Spelled
import Sable.Proofs.Ty.Alike
import Sable.Reader.Body

/-! The expression that spells a type is lowered to that type.

The variables that the type binds are made anew, so it is the same type up to their numbers. -/
namespace Sable

namespace Ty

open Matching

mutual

/-- The same type up to the numbers of the variables that function types bind: `R` tells which variables of the
one type stand for which of the other. -/
def Renumbered (R : Matching) : Ty → Ty → Prop
  | number, number | boolean, boolean | bigInteger, bigInteger | null, null => True
  | list a, list b | sequence a, sequence b | nullable a, nullable b => a.Renumbered R b
  | object fields, object others => RenumberedFields R fields others
  | function vs ps a, function ws qs b =>
    vs.map (·.name) = ws.map (·.name) ∧ RenumberedParameters (bind (vs.zip ws) R) ps qs ∧
      a.Renumbered (bind (vs.zip ws) R) b
  | union fields narrowed, union others narrowed' => RenumberedFields R fields others ∧ narrowed = narrowed'
  | tagged a tag, tagged b tag' => a.Renumbered R b ∧ tag = tag'
  | var v, var w => R v w
  | _, _ => False
termination_by structural a => a

def RenumberedFields (R : Matching) : List (String × Ty) → List (String × Ty) → Prop
  | [], [] => True
  | (name, a) :: rest, (name', b) :: rest' => name = name' ∧ a.Renumbered R b ∧ RenumberedFields R rest rest'
  | _, _ => False
termination_by structural a => a

def RenumberedParameters (R : Matching) :
    ParameterList (String × Ty) → ParameterList (String × Ty) → Prop
  | .fixed ps, .fixed qs => RenumberedFields R ps qs
  | .variadic (name, a), .variadic (name', b) => name = name' ∧ a.Renumbered R b
  | _, _ => False
termination_by structural a => a

end

theorem Renumbered.isNullable_eq {R : Matching} {a b : Ty} (h : a.Renumbered R b) : a.isNullable = b.isNullable := by
  cases a <;> cases b <;> first | rfl | exact absurd h id

section

variable {R : Matching} {a b : Ty} {name : String}

@[simp] theorem renumbered_number_iff : number.Renumbered R b ↔ b = number := by
  cases b <;> first | exact iff_of_true trivial rfl | exact iff_of_false id nofun

@[simp] theorem renumbered_boolean_iff : boolean.Renumbered R b ↔ b = boolean := by
  cases b <;> first | exact iff_of_true trivial rfl | exact iff_of_false id nofun

@[simp] theorem renumbered_bigInteger_iff : bigInteger.Renumbered R b ↔ b = bigInteger := by
  cases b <;> first | exact iff_of_true trivial rfl | exact iff_of_false id nofun

@[simp] theorem renumbered_var_iff {v : TypeVariable} : (var v).Renumbered R b ↔ ∃ w, b = var w ∧ R v w := by
  refine ⟨fun h => ?_, fun ⟨_, hb, h⟩ => hb ▸ h⟩
  cases b <;> first | exact ⟨_, rfl, h⟩ | exact h.elim

@[simp] theorem renumbered_list_iff : (list a).Renumbered R b ↔ ∃ c, b = list c ∧ a.Renumbered R c := by
  refine ⟨fun h => ?_, fun ⟨_, hb, h⟩ => hb ▸ h⟩
  cases b <;> first | exact ⟨_, rfl, h⟩ | exact h.elim

@[simp] theorem renumbered_sequence_iff : (sequence a).Renumbered R b ↔ ∃ c, b = sequence c ∧ a.Renumbered R c := by
  refine ⟨fun h => ?_, fun ⟨_, hb, h⟩ => hb ▸ h⟩
  cases b <;> first | exact ⟨_, rfl, h⟩ | exact h.elim

@[simp] theorem renumbered_nullable_iff : (nullable a).Renumbered R b ↔ ∃ c, b = nullable c ∧ a.Renumbered R c := by
  refine ⟨fun h => ?_, fun ⟨_, hb, h⟩ => hb ▸ h⟩
  cases b <;> first | exact ⟨_, rfl, h⟩ | exact h.elim

@[simp] theorem renumbered_function_iff {vs : List TypeVariable} {ps : Parameters} :
    (function vs ps a).Renumbered R b ↔ ∃ ws qs c, b = function ws qs c ∧ vs.map (·.name) = ws.map (·.name) ∧
      RenumberedParameters (bind (vs.zip ws) R) ps qs ∧ a.Renumbered (bind (vs.zip ws) R) c := by
  refine ⟨fun h => ?_, fun ⟨_, _, _, hb, h⟩ => hb ▸ h⟩
  cases b <;> first | exact ⟨_, _, _, rfl, h⟩ | exact h.elim

@[simp] theorem renumberedFields_nil_iff {others : List (String × Ty)} :
    RenumberedFields R [] others ↔ others = [] := by
  cases others with
  | nil => exact iff_of_true trivial rfl
  | cons => exact iff_of_false id nofun

@[simp] theorem renumberedFields_cons_iff {rest others : List (String × Ty)} :
    RenumberedFields R ((name, a) :: rest) others ↔
      ∃ b rest', others = (name, b) :: rest' ∧ a.Renumbered R b ∧ RenumberedFields R rest rest' := by
  refine ⟨fun h => ?_, fun ⟨_, _, hothers, h⟩ => hothers ▸ ⟨rfl, h⟩⟩
  match others, h with
  | (_, _) :: _, ⟨rfl, h⟩ => exact ⟨_, _, rfl, h⟩

@[simp] theorem renumberedParameters_fixed_iff {ps : List (String × Ty)} {qs : Parameters} :
    RenumberedParameters R (.fixed ps) qs ↔ ∃ others, qs = .fixed others ∧ RenumberedFields R ps others := by
  refine ⟨fun h => ?_, fun ⟨_, hqs, h⟩ => hqs ▸ h⟩
  match qs, h with
  | .fixed _, h => exact ⟨_, rfl, h⟩

@[simp] theorem renumberedParameters_variadic_iff {qs : Parameters} :
    RenumberedParameters R (.variadic (name, a)) qs ↔ ∃ b, qs = .variadic (name, b) ∧ a.Renumbered R b := by
  refine ⟨fun h => ?_, fun ⟨_, hqs, h⟩ => hqs ▸ ⟨rfl, h⟩⟩
  match qs, h with
  | .variadic (_, _), ⟨rfl, h⟩ => exact ⟨_, rfl, h⟩

end

end Ty

namespace Lowering

open Ty Matching

/-! ## Scopes -/

/-- The scope knows the variables of a type as variables that `R` relates to them, and the types that need no
declaration as what they are. -/
structure Knows (R : Matching) (vs : List TypeVariable) (scope : Scope) : Prop where
  variable_of_mem : ∀ v ∈ vs, ∃ w, scope.type? v.name = some (.variable w) ∧ w.name = v.name ∧ R v w
  builtin : ∀ name ∈ builtinNames, scope.type? name = Scope.root.type? name

theorem knows_root (R : Matching) : Knows R [] .root := ⟨nofun, fun _ _ => rfl⟩

/-- The newest variables hide what else has their names. -/
def TypesBefore (ws : List TypeVariable) (scope inner : Scope) : Prop :=
  ∀ name, inner.type? name =
    match ws.find? (·.name == name) with
    | some w => some (.variable w)
    | none => scope.type? name

section

variable {R : Matching} {old new ws : List TypeVariable}

/-- Variables to be declared have names of their own. -/
theorem name_ne_of_declarable (h : declarable old new = true) :
    ∀ v ∈ new, v.name ∉ builtinNames ∧ ∀ u ∈ old, u.name ≠ v.name := by
  induction new generalizing old with
  | nil => nofun
  | cons v new ih =>
      simp only [declarable, Bool.and_eq_true, Bool.not_eq_true', List.any_eq_false, beq_iff_eq] at h
      obtain ⟨⟨⟨-, hbuiltin⟩, hold⟩, hrest⟩ := h
      rw [List.forall_mem_cons]
      refine ⟨⟨by simpa using hbuiltin, hold⟩, fun w hw => ?_⟩
      obtain ⟨hw, hnew⟩ := ih hrest w hw
      exact ⟨hw, fun u hu => hnew u (List.mem_cons_of_mem v hu)⟩

/-- A variable finds its partner by its name. -/
theorem exists_partner (h : declarable old new = true) (hnames : ws.map (·.name) = new.map (·.name)) :
    ∀ v ∈ new, ∃ w, ws.find? (·.name == v.name) = some w ∧ w.name = v.name ∧ bind (new.zip ws) R v w := by
  induction new generalizing old ws with
  | nil => nofun
  | cons a new ih =>
      cases ws with
      | nil => cases hnames
      | cons b ws =>
          obtain ⟨hname, hnames⟩ := List.cons.inj hnames
          simp only [declarable, Bool.and_eq_true] at h
          rw [List.forall_mem_cons]
          refine ⟨⟨b, ?_, hname, .inl ⟨rfl, rfl⟩⟩, fun v hv => ?_⟩
          · rw [List.find?_cons_of_pos (by simpa using hname)]
          · have hne : a.name ≠ v.name := (name_ne_of_declarable h.2 v hv).2 a List.mem_cons_self
            obtain ⟨w, hfind, hw, hR⟩ := ih h.2 hnames v hv
            refine ⟨w, ?_, hw, .inr ⟨?_, ?_, hR⟩⟩
            · rw [List.find?_cons_of_neg (by simpa [hname] using hne), hfind]
            · rintro rfl
              exact hne rfl
            · rintro rfl
              exact hne (hname.symm.trans hw)

/-- A variable with a name of its own keeps its partner. -/
theorem bind_of_names {v w : TypeVariable} (hnames : ws.map (·.name) = new.map (·.name))
    (hv : ∀ a ∈ new, v.name ≠ a.name) (hw : w.name = v.name) (h : R v w) : bind (new.zip ws) R v w := by
  induction new generalizing ws with
  | nil => exact h
  | cons a new ih =>
      cases ws with
      | nil => cases hnames
      | cons b ws =>
          obtain ⟨hname, hnames⟩ := List.cons.inj hnames
          rw [List.forall_mem_cons] at hv
          refine .inr ⟨?_, ?_, ih hnames hv.2⟩
          · rintro rfl
            exact hv.1 rfl
          · rintro rfl
            exact hv.1 (hw.symm.trans hname)

theorem find?_eq_none_of_names {name : String} (hnames : ws.map (·.name) = new.map (·.name))
    (hname : ∀ a ∈ new, a.name ≠ name) : ws.find? (·.name == name) = none := by
  rw [List.find?_eq_none]
  intro w hw
  have hmem : w.name ∈ new.map (·.name) := hnames ▸ List.mem_map_of_mem hw
  obtain ⟨a, ha, heq⟩ := List.mem_map.mp hmem
  simpa [← heq] using hname a ha

theorem Knows.declare {scope inner : Scope} (h : Knows R old scope) (hnew : declarable old new = true)
    (hnames : ws.map (·.name) = new.map (·.name)) (hinner : TypesBefore ws scope inner) :
    Knows (bind (new.zip ws) R) (new.reverse ++ old) inner := by
  have hne := name_ne_of_declarable hnew
  constructor
  · intro v hv
    rw [List.mem_append, List.mem_reverse] at hv
    rcases hv with hv | hv
    · obtain ⟨w, hfind, hw, hR⟩ := exists_partner hnew hnames v hv
      exact ⟨w, by rw [hinner, hfind], hw, hR⟩
    · obtain ⟨w, htype, hw, hR⟩ := h.variable_of_mem v hv
      have hfresh : ∀ a ∈ new, v.name ≠ a.name := fun a ha => (hne a ha).2 v hv
      refine ⟨w, ?_, hw, bind_of_names hnames hfresh hw hR⟩
      rw [hinner, find?_eq_none_of_names hnames fun a ha => (hfresh a ha).symm, htype]
  · intro name hname
    have hfresh : ∀ a ∈ new, a.name ≠ name := by
      rintro a ha rfl
      exact (hne a ha).1 hname
    rw [hinner, find?_eq_none_of_names hnames hfresh, h.builtin name hname]

end

/-! ## Type parameters -/

theorem exists_lowerGenericsFrom {names : Generics} {old new : List TypeVariable}
    (hnames : names.map (·.value) = new.map (·.name)) (hnew : declarable old new = true)
    {earlier : List TypeVariable} (hearlier : ∀ w ∈ earlier, ∃ v ∈ old, v.name = w.name) (scope : Scope) (d : Draft) :
    ∃ ws inner d', (lowerGenericsFrom earlier scope names).run d = .ok ((earlier ++ ws, inner), d') ∧
      ws.map (·.name) = new.map (·.name) ∧ TypesBefore ws scope inner := by
  induction names generalizing old new earlier scope d with
  | nil =>
      obtain rfl := List.map_eq_nil_iff.mp hnames.symm
      exact ⟨[], scope, d, by rw [List.append_nil]; rfl, rfl, fun name => rfl⟩
  | cons g names ih =>
      cases new with
      | nil => cases hnames
      | cons v new =>
          obtain ⟨hname, hnames⟩ := List.cons.inj hnames
          have hne := name_ne_of_declarable hnew
          simp only [declarable, Bool.and_eq_true] at hnew
          have hduplicate : ¬earlier.any (·.name == g.value) = true := by
            rw [List.any_eq_true]
            rintro ⟨w, hw, heq⟩
            obtain ⟨u, hu, hu'⟩ := hearlier w hw
            refine (hne v List.mem_cons_self).2 u hu (hu'.trans ((beq_iff_eq.mp heq).trans hname))
          generalize hw : (⟨g.value, d.nextVariable⟩ : TypeVariable) = w
          have hwname : w.name = v.name := hw ▸ hname
          have hearlier' : ∀ w' ∈ earlier ++ [w], ∃ u ∈ v :: old, u.name = w'.name := by
            intro w' hw'
            rcases List.mem_append.mp hw' with hw' | hw'
            · obtain ⟨u, hu, heq⟩ := hearlier w' hw'
              exact ⟨u, List.mem_cons_of_mem v hu, heq⟩
            · cases List.mem_singleton.mp hw'
              exact ⟨v, List.mem_cons_self, hwname.symm⟩
          obtain ⟨ws, inner, d', hrun, hws, hinner⟩ := ih hnames hnew.2 hearlier'
            (scope.withType g.value (.variable w)) { d with nextVariable := d.nextVariable + 1 }
          refine ⟨w :: ws, inner, d', ?_, congrArg₂ List.cons hwname hws, fun name => ?_⟩
          · rw [lowerGenericsFrom, run_check_eq_ok]
            refine ⟨hduplicate, run_bind_eq_ok.mpr ⟨_, _, run_freshVariable_eq_ok.mpr rfl, ?_⟩⟩
            rw [hw, hrun, List.append_assoc, List.singleton_append]
          · rw [hinner name]
            by_cases heq : w.name = name
            · have hothers : ∀ a ∈ new, a.name ≠ name := by
                intro a ha
                rw [← heq, hwname]
                exact ((name_ne_of_declarable hnew.2 a ha).2 v List.mem_cons_self).symm
              rw [find?_eq_none_of_names hws hothers, List.find?_cons_of_pos (by simpa using heq)]
              simp [Scope.type?, Scope.withType, Scope.typeIn, hname, ← heq, hwname]
            · rw [List.find?_cons_of_neg (by simpa using heq)]
              have htype : (scope.withType g.value (.variable w)).type? name = scope.type? name := by
                simp [Scope.type?, Scope.withType, Scope.typeIn, hname, ← hwname, heq]
              rw [htype]

/-! ## Types -/

section

variable {scope : Scope} {name : String} {d d' : Draft}

theorem run_lowerType_named {arguments : List TypeExpr} {types : List Ty} {b : Ty}
    (htypes : (lowerTypes scope arguments).run d = .ok (types, d'))
    (hresolve : ∀ span, (resolveType scope name types span).run d' = .ok (b, d')) (site : Site) :
    (lowerType scope (.named site name arguments)).run d = .ok (b, d') := by
  rw [lowerType, run_bind_eq_ok]
  exact ⟨types, d', htypes, hresolve site.span⟩

theorem run_resolveType_alias {target : Ty} (h : scope.type? name = some (.alias [] target)) (span : Span) :
    (resolveType scope name [] span).run d = .ok ((Substitution.ofList []).apply target, d) :=
  run_resolveType_generic h rfl

theorem run_resolveType_variable {v : TypeVariable} (h : scope.type? name = some (.variable v)) (span : Span) :
    (resolveType scope name [] span).run d = .ok (.var v, d) := by
  rw [resolveType, h]
  rfl

theorem run_resolveType_constructor {c : TypeConstructor} (h : scope.type? name = some (.constructor c)) (a : Ty)
    (span : Span) : (resolveType scope name [a] span).run d = .ok (c.apply a, d) := by
  rw [resolveType, h]
  rfl

theorem run_lowerTypes_single {e : TypeExpr} {b : Ty} (h : (lowerType scope e).run d = .ok (b, d')) :
    (lowerTypes scope [e]).run d = .ok ([b], d') := by
  rw [lowerTypes, run_bind_eq_ok]
  exact ⟨b, d', h, rfl⟩

theorem orNull_of_not_isNullable {a : Ty} (h : a.isNullable = false) : a.orNull = .nullable a := by
  cases a with
  | nullable _ => cases h
  | _ => rfl

end

mutual

/-- The expression that spells a type is lowered to the type. -/
theorem exists_lowerType : ∀ (a : Ty) {R : Matching} {vs : List TypeVariable} {scope : Scope}
    (_ : Knows R vs scope) (_ : a.writable vs = true) {e : TypeExpr} (_ : a.SpelledBy e) (d : Draft),
    ∃ b d', (lowerType scope e).run d = .ok (b, d') ∧ a.Renumbered R b
  | .number, _, _, scope, hscope, _, e, he, d => by
      obtain ⟨site, rfl⟩ := he
      have htype := run_resolveType_alias (d := d) (hscope.builtin "Number" (by decide))
      exact ⟨.number, d, run_lowerType_named rfl htype site, trivial⟩
  | .boolean, _, _, scope, hscope, _, e, he, d => by
      obtain ⟨site, rfl⟩ := he
      have htype := run_resolveType_alias (d := d) (hscope.builtin "Boolean" (by decide))
      exact ⟨.boolean, d, run_lowerType_named rfl htype site, trivial⟩
  | .bigInteger, _, _, scope, hscope, _, e, he, d => by
      obtain ⟨site, rfl⟩ := he
      have htype := run_resolveType_alias (d := d) (hscope.builtin "BigInteger" (by decide))
      exact ⟨.bigInteger, d, run_lowerType_named rfl htype site, trivial⟩
  | .null, _, _, scope, hscope, _, e, he, d => by
      obtain ⟨site, rfl⟩ := he
      have htype := run_resolveType_alias (d := d) (hscope.builtin "Null" (by decide))
      exact ⟨.null, d, run_lowerType_named rfl htype site, trivial⟩
  | .list a, _, _, scope, hscope, ha, e, he, d => by
      obtain ⟨site, inner, rfl, he⟩ := he
      obtain ⟨b, d', hrun, hb⟩ := exists_lowerType a hscope ha he d
      have htype := run_resolveType_constructor (d := d') (hscope.builtin "List" (by decide)) b
      exact ⟨.list b, d', run_lowerType_named (run_lowerTypes_single hrun) htype site, hb⟩
  | .sequence a, _, _, scope, hscope, ha, e, he, d => by
      obtain ⟨site, inner, rfl, he⟩ := he
      obtain ⟨b, d', hrun, hb⟩ := exists_lowerType a hscope ha he d
      have htype := run_resolveType_constructor (d := d') (hscope.builtin "Sequence" (by decide)) b
      exact ⟨.sequence b, d', run_lowerType_named (run_lowerTypes_single hrun) htype site, hb⟩
  | .object fields, _, _, scope, hscope, ha, e, he, d => by
      obtain ⟨site, entries, rfl, he⟩ := he
      simp only [writable, Bool.and_eq_true] at ha
      have hdone : ∀ field ∈ fields, ∀ earlier ∈ ([] : Fields Ty), earlier.1 < field.1 := by simp
      obtain ⟨others, d', hrun, hothers⟩ := exists_lowerTypeFields fields hscope ha.1 ha.2 he site.span hdone d
      refine ⟨.object others, d', ?_, hothers⟩
      rw [lowerType, run_bind_eq_ok]
      exact ⟨others, d', hrun, rfl⟩
  | .function vs ps result, _, old, scope, hscope, ha, e, he, d => by
      obtain ⟨site, names, parameters, inner, rfl, hnames, hparameters, hinner⟩ := he
      simp only [writable, Bool.and_eq_true] at ha
      obtain ⟨⟨hvs, hps⟩, hresult⟩ := ha
      have hearlier : ∀ w ∈ ([] : List TypeVariable), ∃ v ∈ old, v.name = w.name := by simp
      obtain ⟨ws, scope', d₁, hgenerics, hws, hscope'⟩ := exists_lowerGenericsFrom hnames hvs hearlier scope d
      have hknows := hscope.declare hvs hws hscope'
      obtain ⟨qs, d₂, hqs, hqs'⟩ := exists_lowerParameters ps hknows hps hparameters d₁
      obtain ⟨b, d₃, hb, hb'⟩ := exists_lowerType result hknows hresult hinner d₂
      refine ⟨.function ws qs b, d₃, ?_, hws.symm, hqs', hb'⟩
      rw [lowerType, run_bind_eq_ok]
      refine ⟨(ws, scope'), d₁, hgenerics, run_bind_eq_ok.mpr ⟨qs, d₂, hqs, ?_⟩⟩
      exact run_bind_eq_ok.mpr ⟨b, d₃, hb, rfl⟩
  | .nullable a, _, _, scope, hscope, ha, e, he, d => by
      obtain ⟨site, inner, rfl, he⟩ := he
      simp only [writable, Bool.and_eq_true, Bool.not_eq_true'] at ha
      obtain ⟨b, d', hrun, hb⟩ := exists_lowerType a hscope ha.2 he d
      refine ⟨.nullable b, d', ?_, hb⟩
      rw [lowerType, run_bind_eq_ok]
      refine ⟨b, d', hrun, ?_⟩
      rw [orNull_of_not_isNullable (hb.isNullable_eq.symm.trans ha.1)]
      rfl
  | .var v, _, _, scope, hscope, ha, e, he, d => by
      obtain ⟨site, rfl⟩ := he
      obtain ⟨w, hw, -, hR⟩ := hscope.variable_of_mem v (List.contains_iff_mem.mp ha)
      exact ⟨.var w, d, run_lowerType_named rfl (run_resolveType_variable hw) site, hR⟩
  | .union .., _, _, _, _, ha, _, _, _ | .tagged .., _, _, _, _, ha, _, _, _ => by cases ha

theorem exists_lowerTypeFields : ∀ (fields : List (String × Ty)) {R : Matching} {vs : List TypeVariable}
    {scope : Scope} (_ : Knows R vs scope) (_ : ascending fields = true) (_ : writableFields vs fields = true)
    {entries : List (String × TypeExpr)} (_ : FieldsSpelledBy fields entries) (span : Span) {done : Fields Ty}
    (_ : ∀ field ∈ fields, ∀ earlier ∈ done, earlier.1 < field.1) (d : Draft),
    ∃ others d', (lowerTypeFields scope span done entries).run d = .ok (done ++ others, d') ∧
      RenumberedFields R fields others
  | [], _, _, scope, _, _, _, entries, he, _, done, _, d => by
      obtain rfl := he
      exact ⟨[], d, by rw [List.append_nil]; rfl, trivial⟩
  | (name, a) :: rest, R, vs, scope, hscope, hascending, hwritable, entries, he, span, done, hdone, d => by
      obtain ⟨e, more, rfl, he, hmore⟩ := he
      simp only [writableFields, Bool.and_eq_true] at hwritable
      simp only [ascending, Bool.and_eq_true, List.all_eq_true, decide_eq_true_eq] at hascending
      rw [List.forall_mem_cons] at hdone
      obtain ⟨b, d₁, hb, hb'⟩ := exists_lowerType a hscope hwritable.1.2 he d
      have hnew : ∀ field ∈ rest, ∀ earlier ∈ done ++ [(name, b)], earlier.1 < field.1 := by
        intro field hfield earlier hearlier
        rcases List.mem_append.mp hearlier with hearlier | hearlier
        · exact hdone.2 field hfield earlier hearlier
        · cases List.mem_singleton.mp hearlier
          exact hascending.1 field hfield
      obtain ⟨others, d', hrun, hothers⟩ :=
        exists_lowerTypeFields rest hscope hascending.2 hwritable.2 hmore span hnew d₁
      refine ⟨(name, b) :: others, d', ?_, rfl, hb', hothers⟩
      have hduplicate : ¬Fields.contains name done = true := by
        rw [Fields.contains, Fields.get?_of_lt hdone.1]
        nofun
      rw [lowerTypeFields, run_bind_eq_ok]
      refine ⟨b, d₁, hb, run_check_eq_ok.mpr ⟨hduplicate, ?_⟩⟩
      rw [Fields.insert_of_lt hdone.1, hrun, List.append_assoc, List.singleton_append]

theorem exists_lowerParameters : ∀ (ps : ParameterList (String × Ty)) {R : Matching} {vs : List TypeVariable}
    {scope : Scope} (_ : Knows R vs scope) (_ : writableParameters vs ps = true)
    {parameters : ParameterList (Parameter TypeExpr)} (_ : ParametersSpelledBy ps parameters) (d : Draft),
    ∃ qs d', (lowerParameters scope parameters).run d = .ok (qs, d') ∧ RenumberedParameters R ps qs
  | .fixed ps, R, vs, scope, hscope, hps, .fixed parameters, he, d => by
      obtain ⟨qs, d', hrun, hqs⟩ := exists_lowerEachParameter ps hscope hps he d
      refine ⟨.fixed qs, d', ?_, hqs⟩
      rw [lowerParameters, run_bind_eq_ok]
      exact ⟨qs, d', hrun, rfl⟩
  | .variadic (name, a), R, vs, scope, hscope, hps, .variadic p, he, d => by
      obtain ⟨rfl, he⟩ := he
      simp only [writableParameters, Bool.and_eq_true] at hps
      obtain ⟨b, d', hrun, hb⟩ := exists_lowerType a hscope hps.2 he d
      refine ⟨.variadic (p.name.value, b), d', ?_, rfl, hb⟩
      rw [lowerParameters, run_bind_eq_ok]
      exact ⟨b, d', hrun, rfl⟩

theorem exists_lowerEachParameter : ∀ (ps : List (String × Ty)) {R : Matching} {vs : List TypeVariable}
    {scope : Scope} (_ : Knows R vs scope) (_ : writableFields vs ps = true)
    {parameters : List (Parameter TypeExpr)}
    (_ : FieldsSpelledBy ps (parameters.map fun p => (p.name.value, p.type))) (d : Draft),
    ∃ qs d', (lowerEachParameter scope parameters).run d = .ok (qs, d') ∧ RenumberedFields R ps qs
  | [], _, _, scope, _, _, parameters, he, d => by
      obtain rfl := List.map_eq_nil_iff.mp he
      exact ⟨[], d, rfl, trivial⟩
  | (name, a) :: rest, R, vs, scope, hscope, hwritable, parameters, he, d => by
      obtain ⟨e, more, heq, he, hmore⟩ := he
      cases parameters with
      | nil => cases heq
      | cons p parameters =>
          cases heq
          simp only [writableFields, Bool.and_eq_true] at hwritable
          obtain ⟨b, d₁, hb, hb'⟩ := exists_lowerType a hscope hwritable.1.2 he d
          obtain ⟨qs, d', hrun, hqs⟩ := exists_lowerEachParameter rest hscope hwritable.2 hmore d₁
          refine ⟨(p.name.value, b) :: qs, d', ?_, rfl, hb', hqs⟩
          rw [lowerEachParameter, run_bind_eq_ok]
          exact ⟨b, d₁, hb, run_bind_eq_ok.mpr ⟨qs, d', hrun, rfl⟩⟩

end

end Lowering

/-! ## Writing and reading back -/

namespace Ty

/-- The text of a type is read without an error, to its end, and what is read is lowered to the type again, up to
the numbers of the variables that it binds. -/
theorem text_elaborates {a : Ty} (h : a.writable [] = true) :
    (scan a.text).unexpected = [] ∧
      ∃ e s, Reader.type (.start (scan a.text).tokens) = (some e, s) ∧ s.rest = [] ∧ s.errors = #[] ∧
        ∀ d, ∃ b d', (Lowering.lowerType .root e).run d = .ok (b, d') ∧ a.Renumbered (fun _ _ => False) b := by
  obtain ⟨htokens, hunexpected⟩ := scan_text h
  obtain ⟨e, s, hrun, he, hrest, hleads⟩ := Reader.returnsAt_type (s := .start (scan a.text).tokens) h htokens
  refine ⟨hunexpected, e, s, hrun, List.map_eq_nil_iff.mp hrest, hleads.errors, fun d => ?_⟩
  exact Lowering.exists_lowerType a (Lowering.knows_root _) h he d

/-- `[A](f: (x: A) -> A?, pair: {first: A, second: List[Number]}) -> ((...xs: Null) -> BigInteger)?`. -/
def sampleType : Ty :=
  let v : TypeVariable := ⟨"A", 0⟩
  .function [v]
    (.fixed [("f", .function [] (.fixed [("x", .var v)]) (.nullable (.var v))),
      ("pair", .object [("first", .var v), ("second", .list .number)])])
    (.nullable (.function [] (.variadic ("xs", .null)) .bigInteger))

theorem text_elaborates_sampleType :
    sampleType.writable [] = true ∧ (scan sampleType.text).unexpected = [] ∧
      ∃ e s, Reader.type (.start (scan sampleType.text).tokens) = (some e, s) ∧ s.rest = [] ∧ s.errors = #[] ∧
        ∀ d, ∃ b d', (Lowering.lowerType .root e).run d = .ok (b, d') ∧
          sampleType.Renumbered (fun _ _ => False) b :=
  ⟨by decide, text_elaborates (by decide)⟩

end Ty

end Sable
