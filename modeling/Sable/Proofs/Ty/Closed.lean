import Mathlib.Data.List.Induction
import Sable.Proofs.Ty.Replaced

/-! The variables that occur free in a type, and what substitution makes of them. -/
namespace Sable.Ty

mutual

/-- Only the variables `vs` occur free in the type. -/
def Closed (vs : List TypeVariable) : Ty → Prop
  | number | boolean | bigInteger | null => True
  | var v => v ∈ vs
  | list a | sequence a | nullable a | tagged a _ => a.Closed vs
  | object fields | union fields _ => ClosedFields vs fields
  | function ws ps result => ClosedParameters (ws ++ vs) ps ∧ result.Closed (ws ++ vs)

def ClosedFields (vs : List TypeVariable) : List (String × Ty) → Prop
  | [] => True
  | (_, a) :: rest => a.Closed vs ∧ ClosedFields vs rest

def ClosedParameters (vs : List TypeVariable) : ParameterList (String × Ty) → Prop
  | .fixed ps => ClosedFields vs ps
  | .variadic (_, a) => a.Closed vs

end

theorem closedFields_iff {vs : List TypeVariable} {fields : List (String × Ty)} :
    ClosedFields vs fields ↔ ∀ field ∈ fields, field.2.Closed vs := by
  induction fields with
  | nil => simp [ClosedFields]
  | cons field rest ih => simp [ClosedFields, ih]

theorem closedParameters_iff {vs : List TypeVariable} {ps : Parameters} :
    ClosedParameters vs ps ↔ ∀ q ∈ ps.toList, q.2.Closed vs := by
  cases ps with
  | fixed ps => exact closedFields_iff
  | variadic q => simp [ClosedParameters, ParameterList.toList]

mutual

theorem Closed.mono : ∀ {a : Ty} {vs ws : List TypeVariable} (_ : vs ⊆ ws), a.Closed vs → a.Closed ws
  | .number, _, _, _, _ | .boolean, _, _, _, _ | .bigInteger, _, _, _, _ | .null, _, _, _, _ => trivial
  | .var _, _, _, h, hv => h hv
  | .list a, _, _, h, ha | .sequence a, _, _, h, ha | .nullable a, _, _, h, ha
  | .tagged a _, _, _, h, ha => Closed.mono (a := a) h ha
  | .object _, _, _, h, ha | .union _ _, _, _, h, ha => ClosedFields.mono h ha
  | .function us _ _, _, _, h, ⟨hp, hr⟩ =>
      have happend := List.append_subset.mpr
        ⟨List.subset_append_left us _, List.subset_append_of_subset_right us h⟩
      ⟨ClosedParameters.mono happend hp, Closed.mono happend hr⟩

theorem ClosedFields.mono : ∀ {fields : List (String × Ty)} {vs ws : List TypeVariable}
    (_ : vs ⊆ ws), ClosedFields vs fields → ClosedFields ws fields
  | [], _, _, _, _ => trivial
  | (_, _) :: _, _, _, h, ⟨ha, hrest⟩ => ⟨Closed.mono h ha, ClosedFields.mono h hrest⟩

theorem ClosedParameters.mono : ∀ {ps : ParameterList (String × Ty)} {vs ws : List TypeVariable}
    (_ : vs ⊆ ws), ClosedParameters vs ps → ClosedParameters ws ps
  | .fixed _, _, _, h, hp => by
      simp only [ClosedParameters] at hp ⊢
      exact ClosedFields.mono h hp
  | .variadic (_, a), _, _, h, ha => Closed.mono (a := a) h ha

end

theorem closed_orNull {vs : List TypeVariable} {a : Ty} (h : a.Closed vs) : a.orNull.Closed vs := by
  cases a <;> exact h

theorem closed_of_field {vs : List TypeVariable} {fields : Fields Ty} {name : String} {a : Ty}
    (h : ClosedFields vs fields) (hget : Fields.get? name fields = some a) : a.Closed vs :=
  closedFields_iff.mp h (name, a) (Fields.mem_of_get? hget)

theorem closedFields_insert {vs : List TypeVariable} {fields : Fields Ty} {name : String} {a : Ty}
    (h : ClosedFields vs fields) (ha : a.Closed vs) : ClosedFields vs (Fields.insert name a fields) := by
  rw [closedFields_iff] at h ⊢
  exact Fields.forall_mem_insert (Closed vs) name h ha

/-! ## Monomorphic types -/

/-- Not a function type with variables of its own or with a variadic parameter. -/
def monomorphic : Ty → Bool
  | function vs ps _ => vs.isEmpty && !ps.isVariadic
  | _ => true

theorem monomorphic_orNull {a : Ty} (h : a.every monomorphic = true) :
    a.orNull.every monomorphic = true := by
  cases a <;> simp_all [orNull, every, monomorphic]

theorem stable_monomorphic : Stable monomorphic where
  orNull := monomorphic_orNull
  replace s a h hvar hnullable := by
    cases a with
    | var v => exact absurd rfl (hvar v)
    | nullable a => exact absurd rfl (hnullable a)
    | function vs ps a => cases ps <;> exact h
    | _ => rfl

theorem everyField_insert {p : Ty → Bool} {fields : Fields Ty} {name : String} {a : Ty}
    (h : everyField p fields = true) (ha : a.every p = true) : everyField p (Fields.insert name a fields) = true := by
  rw [everyField_iff] at h ⊢
  exact Fields.forall_mem_insert (fun a : Ty => a.every p = true) name h ha

end Sable.Ty

namespace Sable.Substitution

/-! ## Entries -/

theorem mem_of_find? {v : TypeVariable} {a : Ty} {entries : List (TypeVariable × Ty)}
    (h : find? v entries = some a) : (v, a) ∈ entries := by
  induction entries with
  | nil => cases h
  | cons entry rest ih =>
      simp only [find?] at h
      split at h
      · rename_i hv
        obtain rfl := Option.some.inj h
        exact List.mem_cons.mpr (.inl (by rw [← hv]))
      · exact List.mem_cons_of_mem _ (ih h)

theorem find?_put {v w : TypeVariable} {a : Ty} {entries : List (TypeVariable × Ty)} :
    find? v (put w a entries) = if w = v then some a else find? v entries := by
  induction entries with
  | nil => simp [put, find?]
  | cons entry rest ih =>
      simp only [put]
      split
      · rename_i h
        subst h
        simp only [find?]
        split <;> rfl
      · simp only [find?, ih]
        split
        · rename_i hne h
          subst h
          rw [if_neg (Ne.symm hne)]
        · rfl

/-- Of the pairs for a variable the last one counts. -/
theorem get?_ofList_append (pairs : List (TypeVariable × Ty)) (v w : TypeVariable) (a : Ty) :
    (ofList (pairs ++ [(w, a)])).get? v = if w = v then some a else (ofList pairs).get? v := by
  simp only [ofList, get?, List.foldl_append, List.foldl_cons, List.foldl_nil, find?_put]

theorem mem_of_get?_ofList {pairs : List (TypeVariable × Ty)} {v : TypeVariable} {a : Ty}
    (h : (ofList pairs).get? v = some a) : (v, a) ∈ pairs := by
  induction pairs using List.reverseRecOn with
  | nil => simp [ofList, get?, find?] at h
  | append_singleton pairs entry ih =>
      rw [get?_ofList_append] at h
      split at h
      · rename_i hv
        obtain rfl := Option.some.inj h
        simp [← hv]
      · exact List.mem_append_left _ (ih h)

theorem get?_ofList_ne_none {pairs : List (TypeVariable × Ty)} {v : TypeVariable}
    (h : v ∈ pairs.map Prod.fst) : (ofList pairs).get? v ≠ none := by
  induction pairs using List.reverseRecOn with
  | nil => simp at h
  | append_singleton pairs entry ih =>
      rw [get?_ofList_append]
      split
      · simp
      · rename_i hne
        refine ih ?_
        simp only [List.map_append, List.map_cons, List.map_nil, List.mem_append,
          List.mem_singleton] at h
        exact h.resolve_right fun hv => hne hv.symm

theorem get?_ofList_map (f : Ty → Ty) (pairs : List (TypeVariable × Ty)) (v : TypeVariable) :
    (ofList (pairs.map fun pair => (pair.1, f pair.2))).get? v = ((ofList pairs).get? v).map f := by
  induction pairs using List.reverseRecOn with
  | nil => rfl
  | append_singleton pairs pair ih =>
      rw [List.map_append, List.map_singleton, get?_ofList_append, get?_ofList_append, ih]
      split <;> rfl

theorem get?_ofList_of_mem {pairs : List (TypeVariable × Ty)} (hdistinct : (pairs.map Prod.fst).Nodup)
    {v : TypeVariable} {a : Ty} (h : (v, a) ∈ pairs) : (ofList pairs).get? v = some a := by
  induction pairs using List.reverseRecOn with
  | nil => cases h
  | append_singleton pairs pair ih =>
      rw [List.map_append, List.nodup_append] at hdistinct
      rw [get?_ofList_append]
      rcases List.mem_append.mp h with h | h
      · have hne : pair.1 ≠ v := fun heq =>
          hdistinct.2.2 v (List.mem_map_of_mem h) pair.1 List.mem_cons_self heq.symm
        rw [if_neg hne, ih hdistinct.1 h]
      · obtain rfl := List.mem_singleton.mp h
        exact if_pos rfl

/-! ## Closed and monomorphic types -/

mutual

/-- A substitution leaves free what is free in its types, and variables that it has no type for. -/
theorem closed_replace : ∀ {a : Ty} {s : Substitution} {vs ws : List TypeVariable}
    (_ : ∀ v b, s.get? v = some b → b.Closed ws) (_ : ∀ v ∈ vs, s.get? v = none → v ∈ ws),
    a.Closed vs → (s.replace a).Closed ws
  | .number, _, _, _, _, _, _ | .boolean, _, _, _, _, _, _ | .bigInteger, _, _, _, _, _, _
  | .null, _, _, _, _, _, _ => trivial
  | .var v, s, _, _, himage, hrest, h => by
      simp only [replace]
      cases hget : s.get? v with
      | none => exact hrest v h hget
      | some b => exact himage v b hget
  | .list a, _, _, _, himage, hrest, h | .sequence a, _, _, _, himage, hrest, h
  | .tagged a _, _, _, _, himage, hrest, h => closed_replace (a := a) himage hrest h
  | .nullable a, _, _, _, himage, hrest, h =>
      Ty.closed_orNull (closed_replace (a := a) himage hrest h)
  | .object _, _, _, _, himage, hrest, h | .union _ _, _, _, _, himage, hrest, h =>
      closedFields_replace himage hrest h
  | .function us ps a, s, vs, ws, himage, hrest, ⟨hp, hr⟩ => by
      have himage' : ∀ v b, s.get? v = some b → b.Closed (us ++ ws) := fun v b hget =>
        (himage v b hget).mono (List.subset_append_right us ws)
      have hrest' : ∀ v ∈ us ++ vs, s.get? v = none → v ∈ us ++ ws := by
        intro v hv hget
        rcases List.mem_append.mp hv with hv | hv
        · exact List.mem_append_left _ hv
        · exact List.mem_append_right _ (hrest v hv hget)
      exact ⟨closedParameters_replace himage' hrest' hp, closed_replace himage' hrest' hr⟩

theorem closedFields_replace : ∀ {fields : List (String × Ty)} {s : Substitution}
    {vs ws : List TypeVariable} (_ : ∀ v b, s.get? v = some b → b.Closed ws)
    (_ : ∀ v ∈ vs, s.get? v = none → v ∈ ws),
    Ty.ClosedFields vs fields → Ty.ClosedFields ws (s.replaceFields fields)
  | [], _, _, _, _, _, _ => trivial
  | (_, _) :: _, _, _, _, himage, hrest, ⟨ha, h⟩ =>
      ⟨closed_replace himage hrest ha, closedFields_replace himage hrest h⟩

theorem closedParameters_replace : ∀ {ps : ParameterList (String × Ty)} {s : Substitution}
    {vs ws : List TypeVariable} (_ : ∀ v b, s.get? v = some b → b.Closed ws)
    (_ : ∀ v ∈ vs, s.get? v = none → v ∈ ws),
    Ty.ClosedParameters vs ps → Ty.ClosedParameters ws (s.replaceParameters ps)
  | .fixed ps, _, _, _, himage, hrest, h => by
      simp only [Ty.ClosedParameters, replaceParameters] at h ⊢
      exact closedFields_replace himage hrest h
  | .variadic (_, a), _, _, _, himage, hrest, h => closed_replace (a := a) himage hrest h

end

theorem closed_apply {a : Ty} {s : Substitution} {vs ws : List TypeVariable}
    (himage : ∀ v b, s.get? v = some b → b.Closed ws) (hrest : ∀ v ∈ vs, s.get? v = none → v ∈ ws)
    (h : a.Closed vs) : (s.apply a).Closed ws := by
  unfold apply
  split
  · rename_i hempty
    refine h.mono fun v hv => hrest v hv ?_
    simp [get?, List.isEmpty_iff.mp hempty, find?]
  · exact closed_replace himage hrest h

theorem monomorphic_apply {a : Ty} {s : Substitution}
    (himage : ∀ v b, s.get? v = some b → b.every Ty.monomorphic = true)
    (h : a.every Ty.monomorphic = true) : (s.apply a).every Ty.monomorphic = true :=
  every_apply Ty.stable_monomorphic himage h

end Sable.Substitution
