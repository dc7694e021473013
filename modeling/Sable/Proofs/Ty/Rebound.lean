import Sable.Proofs.Ty.Capture
import Sable.Proofs.Ty.Instances

/-! Assignability and the names of the variables that a function type binds.

Two function types that differ in those names only are assignable to the same types, and the same types to them,
except where a type around the question mentions one of the names: the variables of the required type are renamed
to those of the type at hand, which captures a variable that is free in the required type. -/
namespace Sable

namespace Ty

open Matching Substitution

/-! ## Types without binders inside and without optional types of optional types -/

/-- Neither a function type with variables of its own nor an optional type of an optional type. -/
def flat : Ty → Bool
  | function vs _ _ => vs.isEmpty
  | nullable (nullable _) => false
  | _ => true

theorem flat_nullable_nullable (a : Ty) : flat (nullable (nullable a)) = false := rfl

theorem bindsNothing_of_flat (a : Ty) (h : flat a = true) : bindsNothing a = true := by
  cases a <;> first | rfl | exact h

theorem Alike.flat_eq {R : Matching} {a b : Ty} (h : a.Alike R b) : flat a = flat b := by
  cases a <;> cases b <;> first | rfl | exact h.elim | skip
  · rw [flat, flat, h.1]
  · rename_i a b
    cases a <;> cases b <;> first | rfl | exact h.elim

mutual

theorem Alike.every_flat : ∀ {R : Matching} {a b : Ty}, a.Alike R b → a.every flat = b.every flat
  | _, .number, b, h | _, .boolean, b, h | _, .bigInteger, b, h | _, .null, b, h | _, .var _, b, h => by
      have hroot := h.flat_eq
      cases b <;> first | exact h.elim | exact hroot
  | _, .list a, b, h | _, .sequence a, b, h | _, .nullable a, b, h => by
      have hroot := h.flat_eq
      cases b with
      | list b | sequence b | nullable b =>
          first | exact h.elim | simp only [every, hroot, Alike.every_flat (a := a) (b := b) h]
      | _ => exact h.elim
  | _, .tagged a tag, b, h => by
      have hroot := h.flat_eq
      cases b with
      | tagged b tag' => simp only [every, hroot, Alike.every_flat h.1]
      | _ => exact h.elim
  | _, .object fields, b, h => by
      have hroot := h.flat_eq
      cases b with
      | object others => simp only [every, hroot, AlikeFields.every_flat h]
      | _ => exact h.elim
  | _, .union fields narrowed, b, h => by
      have hroot := h.flat_eq
      cases b with
      | union others narrowed' => simp only [every, hroot, AlikeFields.every_flat h.1]
      | _ => exact h.elim
  | _, .function vs ps a, b, h => by
      have hroot := h.flat_eq
      cases b with
      | function ws qs b => simp only [every, hroot, AlikeParameters.every_flat h.2.1, Alike.every_flat h.2.2]
      | _ => exact h.elim

theorem AlikeFields.every_flat : ∀ {R : Matching} {fields others : List (String × Ty)},
    AlikeFields R fields others → everyField flat fields = everyField flat others
  | _, [], others, h => by
      cases others with
      | nil => rfl
      | cons _ _ => exact h.elim
  | _, (_, a) :: rest, others, h => by
      cases others with
      | nil => exact h.elim
      | cons other rest' => simp only [everyField, Alike.every_flat h.2.1, AlikeFields.every_flat h.2.2]

theorem AlikeParameters.every_flat : ∀ {R : Matching} {ps qs : ParameterList (String × Ty)},
    AlikeParameters R ps qs → everyParameter flat ps = everyParameter flat qs
  | _, .fixed ps, .fixed qs, h => @AlikeTypes.every_flat _ ps qs h
  | _, .variadic (_, a), .variadic (_, b), h => Alike.every_flat (a := a) (b := b) h
  | _, .fixed _, .variadic _, h => h.elim
  | _, .variadic _, .fixed _, h => h.elim

theorem AlikeTypes.every_flat : ∀ {R : Matching} {ps qs : List (String × Ty)},
    AlikeTypes R ps qs → everyField flat ps = everyField flat qs
  | _, [], qs, h => by
      cases qs with
      | nil => rfl
      | cons _ _ => exact h.elim
  | _, (_, a) :: rest, qs, h => by
      cases qs with
      | nil => exact h.elim
      | cons q rest' => simp only [everyField, Alike.every_flat h.1, AlikeTypes.every_flat h.2]

end

/-! ## Alike to itself -/

mutual

/-- A type is alike to itself if its free variables stand for themselves. -/
theorem alike_self : ∀ {a : Ty} {R : Matching} (_ : ∀ o ∈ a.occurrences, o.v ∈ o.bound ∨ R o.v o.v), a.Alike R a
  | .number, _, _ | .boolean, _, _ | .bigInteger, _, _ | .null, _, _ => trivial
  | .var v, R, h => (h ⟨v, []⟩ (List.mem_singleton.mpr rfl)).resolve_left List.not_mem_nil
  | .list a, _, h | .sequence a, _, h | .nullable a, _, h => alike_self (a := a) h
  | .tagged a _, _, h => ⟨alike_self (a := a) h, rfl⟩
  | .object fields, _, h => alikeFields_self h
  | .union fields _, _, h => ⟨alikeFields_self h, rfl⟩
  | .function vs ps a, R, h => by
      have hbelow : ∀ o : Occurrence, ((o.below vs).v ∈ (o.below vs).bound ∨ R (o.below vs).v (o.below vs).v) →
          o.v ∈ o.bound ∨ bind (vs.zip vs) R o.v o.v := by
        intro o ho
        rw [bind_zip_self, ← or_assoc, or_comm (a := o.v ∈ o.bound), ← List.mem_append]
        exact ho
      obtain ⟨hps, ha⟩ := forall_occurrences_function h
      exact ⟨rfl, alikeParameters_self fun o ho => hbelow o (hps o ho), alike_self fun o ho => hbelow o (ha o ho)⟩
termination_by structural a => a

theorem alikeFields_self : ∀ {fields : List (String × Ty)} {R : Matching}
    (_ : ∀ o ∈ occurrencesFields fields, o.v ∈ o.bound ∨ R o.v o.v), AlikeFields R fields fields
  | [], _, _ => trivial
  | (_, _) :: _, _, h =>
      have ⟨ha, hrest⟩ := List.forall_mem_append.mp h
      ⟨rfl, alike_self ha, alikeFields_self hrest⟩
termination_by structural fields => fields

theorem alikeParameters_self : ∀ {ps : ParameterList (String × Ty)} {R : Matching}
    (_ : ∀ o ∈ occurrencesParameters ps, o.v ∈ o.bound ∨ R o.v o.v), AlikeParameters R ps ps
  | .fixed ps, _, h => @alikeTypes_self ps _ h
  | .variadic (_, a), _, h => alike_self (a := a) h
termination_by structural ps => ps

theorem alikeTypes_self : ∀ {ps : List (String × Ty)} {R : Matching}
    (_ : ∀ o ∈ occurrencesFields ps, o.v ∈ o.bound ∨ R o.v o.v), AlikeTypes R ps ps
  | [], _, _ => trivial
  | (_, _) :: _, _, h =>
      have ⟨ha, hrest⟩ := List.forall_mem_append.mp h
      ⟨alike_self ha, alikeTypes_self hrest⟩
termination_by structural ps => ps

end

theorem Alike.orNull {R : Matching} {a b : Ty} (h : a.Alike R b) : a.orNull.Alike R b.orNull := by
  cases a <;> cases b <;> first | exact h.elim | exact h

/-! ## Renaming -/

section

variable {s t : Substitution} {R S : Matching}

mutual

/-- Types stay alike where their variables are replaced by alike types. -/
theorem Alike.replace (hst : ∀ v w, R v w → (s.typeOf v).Alike S (t.typeOf w)) :
    ∀ {a b : Ty} (_ : a.every flat = true), a.Alike R b → (s.replace a).Alike S (t.replace b)
  | .number, b, _, h | .boolean, b, _, h | .bigInteger, b, _, h | .null, b, _, h => by
      cases b <;> first | exact h.elim | trivial
  | .var v, b, _, h => by
      cases b with
      | var w => exact hst v w h
      | _ => exact h.elim
  | .list a, b, ha, h | .sequence a, b, ha, h => by
      simp only [every, Bool.and_eq_true] at ha
      cases b with
      | list b | sequence b => first | exact h.elim | exact Alike.replace hst (a := a) (b := b) ha.2 h
      | _ => exact h.elim
  | .nullable a, b, ha, h => by
      simp only [every, Bool.and_eq_true] at ha
      cases b with
      | nullable b => exact (Alike.replace hst (a := a) (b := b) ha.2 h).orNull
      | _ => exact h.elim
  | .tagged a tag, b, ha, h => by
      simp only [every, Bool.and_eq_true] at ha
      cases b with
      | tagged b tag' => exact ⟨Alike.replace hst ha.2 h.1, h.2⟩
      | _ => exact h.elim
  | .object fields, b, ha, h => by
      simp only [every, Bool.and_eq_true] at ha
      cases b with
      | object others => exact AlikeFields.replace hst ha.2 h
      | _ => exact h.elim
  | .union fields narrowed, b, ha, h => by
      simp only [every, Bool.and_eq_true] at ha
      cases b with
      | union others narrowed' => exact ⟨AlikeFields.replace hst ha.2 h.1, h.2⟩
      | _ => exact h.elim
  | .function vs ps a, b, ha, h => by
      simp only [every, flat, Bool.and_eq_true, List.isEmpty_iff] at ha
      obtain ⟨⟨rfl, hps⟩, ha⟩ := ha
      cases b with
      | function ws qs b =>
          obtain ⟨rfl, hp, hr⟩ := h
          exact ⟨rfl, AlikeParameters.replace hst hps hp, Alike.replace hst ha hr⟩
      | _ => exact h.elim

theorem AlikeFields.replace (hst : ∀ v w, R v w → (s.typeOf v).Alike S (t.typeOf w)) :
    ∀ {fields others : List (String × Ty)} (_ : everyField flat fields = true),
      AlikeFields R fields others → AlikeFields S (s.replaceFields fields) (t.replaceFields others)
  | [], others, _, h => by
      cases others with
      | nil => trivial
      | cons _ _ => exact h.elim
  | (_, a) :: rest, others, ha, h => by
      simp only [everyField, Bool.and_eq_true] at ha
      cases others with
      | nil => exact h.elim
      | cons other rest' => exact ⟨h.1, Alike.replace hst ha.1 h.2.1, AlikeFields.replace hst ha.2 h.2.2⟩

theorem AlikeParameters.replace (hst : ∀ v w, R v w → (s.typeOf v).Alike S (t.typeOf w)) :
    ∀ {ps qs : ParameterList (String × Ty)} (_ : everyParameter flat ps = true),
      AlikeParameters R ps qs → AlikeParameters S (s.replaceParameters ps) (t.replaceParameters qs)
  | .fixed ps, .fixed qs, ha, h => @AlikeTypes.replace hst ps qs ha h
  | .variadic (_, a), .variadic (_, b), ha, h => Alike.replace hst (a := a) (b := b) ha h
  | .fixed _, .variadic _, _, h => h.elim
  | .variadic _, .fixed _, _, h => h.elim

theorem AlikeTypes.replace (hst : ∀ v w, R v w → (s.typeOf v).Alike S (t.typeOf w)) :
    ∀ {ps qs : List (String × Ty)} (_ : everyField flat ps = true),
      AlikeTypes R ps qs → AlikeTypes S (s.replaceFields ps) (t.replaceFields qs)
  | [], qs, _, h => by
      cases qs with
      | nil => trivial
      | cons _ _ => exact h.elim
  | (_, a) :: rest, qs, ha, h => by
      simp only [everyField, Bool.and_eq_true] at ha
      cases qs with
      | nil => exact h.elim
      | cons q rest' => exact ⟨Alike.replace hst ha.1 h.1, AlikeTypes.replace hst ha.2 h.2⟩

end

end

/-! ## Which variable a variable is renamed to -/

section

variable {vs ws : List TypeVariable} {v w : TypeVariable}

theorem typeOf_renamed_of_not_mem (h : v ∉ ws) : (renamed vs ws).typeOf v = .var v := by
  have hnone : (renamed vs ws).get? v = none := by
    rw [Option.eq_none_iff_forall_ne_some]
    exact fun b hb => h (List.of_mem_zip (Substitution.mem_of_get?_ofList hb)).1
  rw [Substitution.typeOf, hnone, Option.getD_none]

/-- A variable is renamed by position, whatever the new names are. -/
theorem exists_position (h : v ∈ ws) : ∃ i : Nat, ws[i]? = some v ∧
    ∀ vs : List TypeVariable, vs.length = ws.length → ∀ w, vs[i]? = some w → (renamed vs ws).typeOf v = .var w := by
  induction ws using List.reverseRecOn with
  | nil => exact absurd h List.not_mem_nil
  | append_singleton ws u ih =>
      -- of two equal variables the later counts
      have hlast : ∀ vs x, vs.length = ws.length →
          (renamed (vs ++ [x]) (ws ++ [u])).typeOf v = if u = v then .var x else (renamed vs ws).typeOf v := by
        intro vs x hlength
        have hzip : (ws ++ [u]).zip ((vs ++ [x]).map Ty.var) = ws.zip (vs.map Ty.var) ++ [(u, .var x)] := by
          rw [List.map_append, List.zip_append (by rw [List.length_map, hlength])]
          rfl
        rw [Substitution.typeOf, Substitution.typeOf, renamed, hzip, Substitution.get?_ofList_append]
        split <;> rfl
      have hsplit : ∀ vs : List TypeVariable, vs.length = (ws ++ [u]).length →
          ∃ vs' x, vs = vs' ++ [x] ∧ vs'.length = ws.length := by
        intro vs hlength
        rw [List.length_append, List.length_singleton] at hlength
        cases vs using List.reverseRecOn with
        | nil => cases hlength
        | append_singleton vs' x => exact ⟨vs', x, rfl, by simpa using hlength⟩
      by_cases hu : u = v
      · refine ⟨ws.length, by rw [List.getElem?_concat_length, hu], fun vs hlength w hw => ?_⟩
        obtain ⟨vs', x, rfl, hlength'⟩ := hsplit vs hlength
        rw [← hlength', List.getElem?_concat_length, Option.some.injEq] at hw
        rw [hlast vs' x hlength', if_pos hu, hw]
      · have hmem : v ∈ ws := by
          rcases List.mem_append.mp h with h | h
          · exact h
          · exact absurd (List.mem_singleton.mp h).symm hu
        obtain ⟨i, hi, hrenamed⟩ := ih hmem
        obtain ⟨hlt, -⟩ := List.getElem?_eq_some_iff.mp hi
        refine ⟨i, by rw [List.getElem?_append_left hlt, hi], fun vs hlength w hw => ?_⟩
        obtain ⟨vs', x, rfl, hlength'⟩ := hsplit vs hlength
        rw [List.getElem?_append_left (hlength' ▸ hlt)] at hw
        rw [hlast vs' x hlength', if_neg hu, hrenamed vs' hlength' w hw]

theorem exists_typeOf_renamed (hlength : vs.length = ws.length) (v : TypeVariable) :
    ∃ w, (renamed vs ws).typeOf v = .var w := by
  by_cases h : v ∈ ws
  · obtain ⟨i, hi, hrenamed⟩ := exists_position h
    obtain ⟨hlt, -⟩ := List.getElem?_eq_some_iff.mp hi
    exact ⟨_, hrenamed vs hlength _ (List.getElem?_eq_getElem (hlength ▸ hlt))⟩
  · exact ⟨v, typeOf_renamed_of_not_mem h⟩

theorem typeOf_renamed_self (v : TypeVariable) : (renamed vs vs).typeOf v = .var v := by
  by_cases h : v ∈ vs
  · obtain ⟨i, hi, hrenamed⟩ := exists_position h
    exact hrenamed vs rfl v hi
  · exact typeOf_renamed_of_not_mem h

/-- Distinct variables that are bound in pairs stand for each other by position. -/
theorem bind_zip_iff {R : Matching} (hlength : vs.length = ws.length) (hvs : vs.Nodup) (hws : ws.Nodup) :
    bind (vs.zip ws) R v w ↔
      (∃ i : Nat, vs[i]? = some v ∧ ws[i]? = some w) ∨ (v ∉ vs ∧ w ∉ ws ∧ R v w) := by
  induction vs generalizing ws with
  | nil =>
      obtain rfl : ws = [] := List.length_eq_zero_iff.mp hlength.symm
      simp [Matching.bind]
  | cons a vs ih =>
      cases ws with
      | nil => cases hlength
      | cons b ws =>
          rw [List.nodup_cons] at hvs hws
          simp only [List.zip_cons_cons, Matching.bind, ih (Nat.succ.inj hlength) hvs.2 hws.2, List.mem_cons, not_or]
          constructor
          · rintro (⟨rfl, rfl⟩ | ⟨hv, hw, ⟨i, hi⟩ | ⟨hv', hw', h⟩⟩)
            · exact .inl ⟨0, rfl, rfl⟩
            · exact .inl ⟨i + 1, hi⟩
            · exact .inr ⟨⟨hv, hv'⟩, ⟨hw, hw'⟩, h⟩
          · rintro (⟨i, hi, hi'⟩ | ⟨⟨hv, hv'⟩, ⟨hw, hw'⟩, h⟩)
            · cases i with
              | zero => exact .inl ⟨(Option.some.inj hi).symm, (Option.some.inj hi').symm⟩
              | succ i =>
                  refine .inr ⟨?_, ?_, .inl ⟨i, hi, hi'⟩⟩
                  · rintro rfl
                    exact hvs.1 (List.mem_of_getElem? hi)
                  · rintro rfl
                    exact hws.1 (List.mem_of_getElem? hi')
            · exact .inr ⟨hv, hw, .inr ⟨hv', hw', h⟩⟩

/-- A bound variable has one position. -/
theorem typeOf_renamed_of_getElem? {i : Nat} (hlength : vs.length = ws.length) (hws : ws.Nodup)
    (hv : ws[i]? = some v) (hw : vs[i]? = some w) : (renamed vs ws).typeOf v = .var w := by
  obtain ⟨j, hj, hrenamed⟩ := exists_position (List.mem_of_getElem? hv)
  obtain ⟨hi, -⟩ := List.getElem?_eq_some_iff.mp hv
  obtain rfl : i = j := (List.getElem?_inj hi hws).mp (hv.trans hj.symm)
  exact hrenamed vs hlength w hw

end

/-! ## Other names for bound variables -/

theorem AlikeFields.types {R : Matching} {fields others : List (String × Ty)} (h : AlikeFields R fields others) :
    AlikeTypes R fields others := by
  induction fields generalizing others with
  | nil =>
      cases others with
      | nil => trivial
      | cons _ _ => exact h.elim
  | cons field rest ih =>
      cases others with
      | nil => exact h.elim
      | cons other rest' => exact ⟨h.2.1, ih h.2.2⟩

mutual

theorem Instance.alike : ∀ {a b : Ty} {P : Choice} {R : Matching} (_ : ∀ v b, P v b → (var v).Alike R b)
    (_ : a.every flat = true), Instance nullable P a b → a.Alike R b
  | .number, _, _, _, _, _, rfl | .boolean, _, _, _, _, _, rfl | .bigInteger, _, _, _, _, _, rfl
  | .null, _, _, _, _, _, rfl => trivial
  | .var v, b, _, _, hP, _, h => hP v b h
  | .list a, _, _, _, hP, ha, ⟨a', h, rfl⟩ | .sequence a, _, _, _, hP, ha, ⟨a', h, rfl⟩
  | .nullable a, _, _, _, hP, ha, ⟨a', h, rfl⟩ =>
      Instance.alike (a := a) (b := a') hP ((Bool.and_eq_true _ _).mp ha).2 h
  | .tagged a tag, _, _, _, hP, ha, ⟨a', h, rfl⟩ =>
      ⟨Instance.alike (a := a) (b := a') hP ((Bool.and_eq_true _ _).mp ha).2 h, rfl⟩
  | .object fields, _, _, _, hP, ha, ⟨fields', h, rfl⟩ =>
      InstanceFields.alike hP ((Bool.and_eq_true _ _).mp ha).2 h
  | .union fields narrowed, _, _, _, hP, ha, ⟨fields', h, rfl⟩ =>
      ⟨InstanceFields.alike hP ((Bool.and_eq_true _ _).mp ha).2 h, rfl⟩
  | .function vs ps a, _, P, R, hP, ha, ⟨ws, qs, a', hlength, hps, hr, rfl⟩ => by
      simp only [every, flat, Bool.and_eq_true, List.isEmpty_iff] at ha
      obtain ⟨⟨rfl, hflat⟩, ha⟩ := ha
      obtain rfl : ws = [] := List.length_eq_zero_iff.mp hlength.symm
      have hbelow : ∀ v b, P.below [] [] v b → (var v).Alike R b := by
        rintro v b (⟨_, _, hfalse⟩ | ⟨-, h, -⟩)
        · exact hfalse.elim
        · exact hP v b h
      exact ⟨rfl, InstanceParameters.alike hbelow hflat hps, Instance.alike hbelow ha hr⟩
termination_by structural a => a

theorem InstanceFields.alike : ∀ {fields others : List (String × Ty)} {P : Choice} {R : Matching}
    (_ : ∀ v b, P v b → (var v).Alike R b) (_ : everyField flat fields = true),
    InstanceFields nullable P fields others → AlikeFields R fields others
  | [], _, _, _, _, _, rfl => trivial
  | (_, _) :: _, _, _, _, hP, ha, ⟨_, _, h, hrest, rfl⟩ =>
      have ⟨ha, hflat⟩ := (Bool.and_eq_true _ _).mp ha
      ⟨rfl, Instance.alike hP ha h, InstanceFields.alike hP hflat hrest⟩
termination_by structural fields => fields

theorem InstanceParameters.alike : ∀ {ps qs : ParameterList (String × Ty)} {P : Choice} {R : Matching}
    (_ : ∀ v b, P v b → (var v).Alike R b) (_ : everyParameter flat ps = true),
    InstanceParameters nullable P ps qs → AlikeParameters R ps qs
  | .fixed ps, _, _, _, hP, ha, ⟨fields, h, rfl⟩ => (@InstanceFields.alike ps _ _ _ hP ha h).types
  | .variadic (_, a), _, _, _, hP, ha, ⟨a', h, rfl⟩ => Instance.alike hP (a := a) ha h
termination_by structural ps => ps

end

section

variable {vs vs' ws : List TypeVariable} {ps ps' qs : Parameters} {a a' b : Ty}

/-- The parts of function types that differ in the names of their own variables only. -/
theorem Renames.alike (h : (function vs ps a).Renames (function vs' ps' a')) (hvs : vs.Nodup) (hvs' : vs'.Nodup)
    (hps : everyParameter flat ps = true) (ha : a.every flat = true) :
    vs.length = vs'.length ∧ AlikeParameters (bind (vs.zip vs') Eq) ps ps' ∧ a.Alike (bind (vs.zip vs') Eq) a' := by
  obtain ⟨_, _, _, hlength, hps', ha', heq⟩ := h
  obtain ⟨rfl, rfl, rfl⟩ := function.inj heq
  have hP : ∀ v b, Choice.below (fun v b => b = var v) vs vs' v b → (var v).Alike (bind (vs.zip vs') Eq) b := by
    rintro v b (⟨w, rfl, hw⟩ | ⟨hv, rfl, hfree⟩)
    · rw [bind_zip_iff hlength hvs hvs'] at hw
      exact (bind_zip_iff hlength hvs hvs').mpr (hw.imp_right fun h => h.2.2.elim)
    · exact (bind_zip_iff hlength hvs hvs').mpr (.inr ⟨hv, fun hv' => hfree v hv' (isFree_var.mpr rfl), rfl⟩)
  exact ⟨hlength, InstanceParameters.alike hP hps hps', Instance.alike hP ha ha'⟩

/-! ## The question after renaming -/

theorem fits_monomorphic_iff : Fits Eq (function [] ps a) (function [] qs b) ↔
    a.Alike Eq b ∧ Covers ps qs ∧
      ∀ i p q, ps.get? i = some p → qs.get? i = some q → Fits Eq q.2 p.2 := by
  constructor
  · intro h
    cases h with
    | alike h =>
        obtain ⟨-, hps, ha⟩ := h
        refine ⟨ha, hps.covers, fun i p q hp hq => ?_⟩
        have hqp := (hps.get hp hq).symm
        rw [converse_bind, converse_eq] at hqp
        exact .alike hqp
    | function _ hresult hcovers h =>
        refine ⟨hresult, hcovers, fun i p q hp hq => ?_⟩
        have hqp := h i p q hp hq
        rwa [converse_eq] at hqp
  · rintro ⟨hresult, hcovers, h⟩
    refine .function rfl hresult hcovers fun i p q hp hq => ?_
    rw [converse_eq]
    exact h i p q hp hq

/-- Renaming leaves parameters as they are, but for the variables. -/
theorem alikeParameters_replace_renamed (hlength : vs.length = ws.length) (hqs : everyParameter flat qs = true) :
    AlikeParameters (fun v w => (renamed vs ws).typeOf v = .var w) qs ((renamed vs ws).replaceParameters qs) := by
  have h : AlikeParameters (fun v w => (renamed vs ws).typeOf v = .var w)
      (Substitution.empty.replaceParameters qs) ((renamed vs ws).replaceParameters qs) := by
    refine AlikeParameters.replace (R := Eq) ?_ hqs (AlikeParameters.refl qs fun _ => rfl)
    rintro v _ rfl
    obtain ⟨w, hw⟩ := exists_typeOf_renamed hlength v
    rw [hw]
    exact hw
  rwa [replaceParameters_eq_self (fun _ _ => rfl) flat_nullable_nullable hqs] at h

/-- Asked of function types, the procedure asks whether the one fits the other after its variables are renamed. -/
theorem assignable_function_iff (hps : everyParameter flat ps = true) (hqs : everyParameter flat qs = true)
    (hb : b.every flat = true) :
    assignable (function vs ps a) (function ws qs b) = .ok true ↔ vs.length = ws.length ∧
      Fits Eq (function [] ps a)
        (function [] ((renamed vs ws).replaceParameters qs) ((renamed vs ws).replace b)) := by
  have hEq : ∀ v w : TypeVariable, Eq v w ↔ v = w := fun _ _ => Iff.rfl
  have hsize : (function vs ps a).size + (function ws qs b).size =
      (sizeParameters ps + a.size + (sizeParameters qs + b.size) + 1) + 1 := by
    simp only [size]
    omega
  rw [assignable, hsize, assignableUpTo]
  cases hsame : (function vs ps a).same (function ws qs b) with
  | true =>
      obtain ⟨rfl, hp, hr⟩ := (alike_iff_same _ hEq).mpr hsame
      have hp := (alikeParameters_iff_sameParameters ps (bind_self hEq vs)).mp hp
      have hr := (alike_iff_same a (bind_self hEq vs)).mp hr
      have hself : ∀ v, flat (var v) = true → (renamed vs vs).replace (var v) = var v := fun v _ => typeOf_renamed_self v
      rw [replaceParameters_eq_self hself flat_nullable_nullable hqs, replace_eq_self hself flat_nullable_nullable hb]
      have hfits : Fits Eq (function [] ps a) (function [] qs b) :=
        .alike ⟨rfl, (alikeParameters_iff_sameParameters ps hEq).mpr hp, (alike_iff_same a hEq).mpr hr⟩
      simp [assignableWith, BEq.beq, hsame, hfits]
  | false =>
      simp only [assignableWith, BEq.beq, hsame, Bool.false_eq_true, if_false]
      by_cases hlength : vs.length = ws.length
      · have hqs' := alikeParameters_replace_renamed hlength hqs
        have hflat := hqs'.every_flat
        have hsize' := hqs'.size_eq
        rw [if_neg (not_not_intro hlength), ← renamed.eq_1, apply_eq_replace flat_nullable_nullable hb,
          applyParameters_eq_replace flat_nullable_nullable hqs, fits_monomorphic_iff, alike_iff_same a hEq]
        by_cases hresult : a.same ((renamed vs ws).replace b) = true
        · rw [if_pos hresult, parametersRelated_eq_true_iff]
          simp only [hlength, hresult, true_and]
          refine and_congr_right fun _ => forall_congr' fun i => forall_congr' fun p => forall_congr' fun q =>
            imp_congr_right fun hp => imp_congr_right fun hq => assignableUpTo_eq_true_iff _ ?_ ?_
          · have hp' := size_le_of_get hp
            have hq' := size_le_of_get hq
            omega
          · exact capturesNothing_of_every bindsNothing_of_flat (every_of_parameter (hflat ▸ hqs) hq)
              (every_of_parameter hps hp)
        · simp [hresult]
      · simp [hlength]

/-- What fits fits still with the variables of both types renamed alike. -/
theorem Fits.rebound {c d c' d' : Ty} (h : Fits Eq c d) (hlength : vs.length = vs'.length)
    (hc : c.Alike (bind (vs.zip vs') Eq) c') (hd : d.Alike (bind (vs.zip vs') Eq) d') : Fits Eq c' d' := by
  have hround : Composes (bind (vs'.zip vs) Eq) (bind (vs.zip vs') Eq) Eq := by
    have hEq : Composes (Eq : Matching) Eq Eq := fun u v w huv hvw => huv.trans hvw
    exact fun u v w huv hvw =>
      (bind_self (fun _ _ => Iff.rfl) vs' u w).mp (hEq.bind hlength.symm hlength u v w huv hvw)
  have hc' := hc.symm
  rw [converse_bind, converse_eq] at hc'
  refine h.alike_alike ?_ hc' hd
  rintro u w x ⟨v, huv, rfl⟩ hwx
  exact hround u v x huv hwx

theorem fits_iff_of_alike {c d c' d' : Ty} (hlength : vs.length = vs'.length)
    (hc : c.Alike (bind (vs.zip vs') Eq) c') (hd : d.Alike (bind (vs.zip vs') Eq) d') :
    Fits Eq c d ↔ Fits Eq c' d' := by
  have hc' := hc.symm
  have hd' := hd.symm
  rw [converse_bind, converse_eq] at hc' hd'
  exact ⟨fun h => h.rebound hlength hc hd, fun h => h.rebound hlength.symm hc' hd'⟩

/-- In the parts of a function type a variable that is not free in it is bound. -/
theorem mem_bound_or_not_free {us : List TypeVariable} (h : ∀ v ∈ us, ¬(function ws qs b).IsFree v) :
    ∀ o ∈ (function [] qs b).occurrences, o.v ∈ o.bound ∨ o.v ∈ ws ∨ o.v ∉ us := by
  rw [occurrences, List.forall_mem_map]
  intro o ho
  by_cases hbound : o.v ∈ o.bound
  · exact .inl hbound
  · refine .inr ((Classical.em (o.v ∈ ws)).imp_right fun hws hus => h o.v hus ?_)
    rw [IsFree, occurrences]
    exact ⟨o.below ws, List.mem_map_of_mem ho, rfl, List.not_mem_append hws hbound⟩

/-- Function types that differ in the names of the variables they bind only are assignable to the same function types
where none of the names is free in those, and in any case the same function types are assignable to them. -/
theorem assignable_renames (hrenames : (function vs ps a).Renames (function vs' ps' a')) (hvs : vs.Nodup)
    (hvs' : vs'.Nodup) (hps : everyParameter flat ps = true) (ha : a.every flat = true)
    (hqs : everyParameter flat qs = true) (hb : b.every flat = true) :
    ((∀ v ∈ vs ++ vs', ¬(function ws qs b).IsFree v) →
        (assignable (function vs ps a) (function ws qs b) = .ok true ↔
          assignable (function vs' ps' a') (function ws qs b) = .ok true)) ∧
      (assignable (function ws qs b) (function vs ps a) = .ok true ↔
        assignable (function ws qs b) (function vs' ps' a') = .ok true) := by
  obtain ⟨hlength, hpp', haa'⟩ := hrenames.alike hvs hvs' hps ha
  have hps' : everyParameter flat ps' = true := hpp'.every_flat ▸ hps
  have ha' : a'.every flat = true := haa'.every_flat ▸ ha
  constructor
  · intro hfree
    rw [assignable_function_iff hps hqs hb, assignable_function_iff hps' hqs hb, ← hlength]
    refine and_congr_right fun hws => ?_
    have hself : (function [] qs b).Alike (fun v w => v = w ∧ (v ∈ ws ∨ v ∉ vs ++ vs')) (function [] qs b) :=
      alike_self fun o ho => (mem_bound_or_not_free hfree o ho).imp_right fun h => ⟨rfl, h⟩
    have hrenamed : ∀ v w, v = w ∧ (v ∈ ws ∨ v ∉ vs ++ vs') →
        ((renamed vs ws).typeOf v).Alike (bind (vs.zip vs') Eq) ((renamed vs' ws).typeOf w) := by
      rintro v _ ⟨rfl, h⟩
      by_cases hv : v ∈ ws
      · obtain ⟨i, hi, hposition⟩ := exists_position hv
        obtain ⟨hlt, -⟩ := List.getElem?_eq_some_iff.mp hi
        have hu := List.getElem?_eq_getElem (hws ▸ hlt : i < vs.length)
        have hu' := List.getElem?_eq_getElem (hlength ▸ hws ▸ hlt : i < vs'.length)
        rw [hposition vs hws _ hu, hposition vs' (hlength.symm.trans hws) _ hu']
        exact (bind_zip_iff hlength hvs hvs').mpr (.inl ⟨i, hu, hu'⟩)
      · have hnot := h.resolve_left hv
        rw [List.mem_append, not_or] at hnot
        rw [typeOf_renamed_of_not_mem hv, typeOf_renamed_of_not_mem hv]
        exact (bind_zip_iff hlength hvs hvs').mpr (.inr ⟨hnot.1, hnot.2, rfl⟩)
    have hflat : (function [] qs b).every flat = true := by simp [every, flat, hqs, hb]
    exact fits_iff_of_alike hlength ⟨rfl, hpp', haa'⟩ (hself.replace hrenamed hflat)
  · rw [assignable_function_iff hqs hps ha, assignable_function_iff hqs hps' ha', ← hlength]
    refine and_congr_right fun hws => ?_
    have hrenamed : ∀ v w, bind (vs.zip vs') Eq v w →
        ((renamed ws vs).typeOf v).Alike Eq ((renamed ws vs').typeOf w) := by
      intro v w h
      rcases (bind_zip_iff hlength hvs hvs').mp h with ⟨i, hv, hw⟩ | ⟨hv, hw, rfl⟩
      · obtain ⟨hi, -⟩ := List.getElem?_eq_some_iff.mp hv
        have hu := List.getElem?_eq_getElem (hws ▸ hi)
        rw [typeOf_renamed_of_getElem? hws hvs hv hu, typeOf_renamed_of_getElem? (hws.trans hlength) hvs' hw hu]
        exact rfl
      · rw [typeOf_renamed_of_not_mem hv, typeOf_renamed_of_not_mem hw]
        exact rfl
    have hself : (function [] qs b).Alike Eq (function [] qs b) := Alike.refl _ fun _ => rfl
    exact @fits_iff_of_alike [] [] _ _ _ _ rfl hself
      ⟨rfl, AlikeParameters.replace hrenamed hps hpp', Alike.replace hrenamed ha haa'⟩

end

/-- `[A](x: A) -> A`, with a variable of one's own choice. -/
def identity (v : TypeVariable) : Ty := .function [v] (.fixed [("x", .var v)]) (.var v)

theorem identity_renames (v w : TypeVariable) : (identity v).Renames (identity w) := by
  have hvar : Choice.below (fun v b => b = var v) [v] [w] v (var w) := .inl ⟨w, rfl, .inl ⟨rfl, rfl⟩⟩
  exact ⟨[w], .fixed [("x", .var w)], .var w, rfl, ⟨_, ⟨.var w, [], hvar, rfl, rfl⟩, rfl⟩, hvar, rfl⟩

/-- `[A](x: A) -> A` and `[C](x: C) -> C` against `[B](x: B) -> B`. -/
theorem assignable_renames_identity :
    let a : TypeVariable := ⟨"A", 0⟩
    let b : TypeVariable := ⟨"B", 1⟩
    let c : TypeVariable := ⟨"C", 2⟩
    (∀ v ∈ [a] ++ [c], ¬(identity b).IsFree v) ∧
      (assignable (identity a) (identity b) = .ok true ↔ assignable (identity c) (identity b) = .ok true) ∧
      (assignable (identity b) (identity a) = .ok true ↔ assignable (identity b) (identity c) = .ok true) := by
  intro a b c
  have hfree : ∀ v ∈ [a] ++ [c], ¬(identity b).IsFree v := by decide
  have hps : everyParameter flat (.fixed [("x", .var b)]) = true := rfl
  have hb : (var b).every flat = true := rfl
  have h := @assignable_renames _ _ [b] _ _ _ _ _ _ (identity_renames a c) (by decide) (by decide) rfl rfl hps hb
  exact ⟨hfree, h.1 hfree, h.2⟩

/-- `[A](x: A) -> A` is assignable to `[B](y: A) -> B`, where its variable is free, but `[C](x: C) -> C` is not. -/
theorem not_assignable_renames :
    let a : TypeVariable := ⟨"A", 0⟩
    let b : TypeVariable := ⟨"B", 1⟩
    let c : TypeVariable := ⟨"C", 2⟩
    let required : Ty := .function [b] (.fixed [("y", .var a)]) (.var b)
    (identity a).Renames (identity c) ∧ ¬(identity a).IsFree c ∧ ¬required.IsFree c ∧
      assignable (identity a) required = .ok true ∧ assignable (identity c) required = .ok false := by
  intro a b c required
  exact ⟨identity_renames a c, by decide, by decide, rfl, rfl⟩

end Ty

end Sable
