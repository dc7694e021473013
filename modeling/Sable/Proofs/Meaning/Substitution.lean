import Sable.Proofs.Meaning.Assignable
import Sable.Proofs.Ty.Closed

/-! What substitution means: a type with types put in the place of variables means what it means where the
variables mean these types. -/
namespace Sable

namespace Ty

variable {S : Setting}

/-! ## Variables that do not count -/

mutual

/-- A type is like itself as soon as the variables in it stand for themselves. -/
theorem alike_of_closed : ∀ {a : Ty} {vs : List TypeVariable} {R : Matching} (_ : ∀ v ∈ vs, R v v),
    a.Closed vs → a.Alike R a
  | .number, _, _, _, _ | .boolean, _, _, _, _ | .bigInteger, _, _, _, _ | .null, _, _, _, _ => trivial
  | .var v, _, _, hR, h => hR v h
  | .list a, _, _, hR, h | .sequence a, _, _, hR, h | .nullable a, _, _, hR, h =>
      alike_of_closed (a := a) hR h
  | .tagged a _, _, _, hR, h => ⟨alike_of_closed (a := a) hR h, rfl⟩
  | .object _, _, _, hR, h => alikeFields_of_closed hR h
  | .union _ _, _, _, hR, h => ⟨alikeFields_of_closed hR h, rfl⟩
  | .function ws ps a, vs, R, hR, ⟨hps, ha⟩ => by
      have hbind : ∀ v ∈ ws ++ vs, Matching.bind (ws.zip ws) R v v := by
        intro v hv
        exact Matching.bind_zip_self.mpr ((List.mem_append.mp hv).imp_right (hR v))
      exact ⟨rfl, alikeParameters_of_closed hbind hps, alike_of_closed hbind ha⟩
termination_by structural a => a

theorem alikeFields_of_closed : ∀ {fields : List (String × Ty)} {vs : List TypeVariable}
    {R : Matching} (_ : ∀ v ∈ vs, R v v), ClosedFields vs fields → AlikeFields R fields fields
  | [], _, _, _, _ => trivial
  | (_, _) :: _, _, _, hR, ⟨ha, hrest⟩ => ⟨rfl, alike_of_closed hR ha, alikeFields_of_closed hR hrest⟩
termination_by structural fields => fields

theorem alikeParameters_of_closed : ∀ {ps : ParameterList (String × Ty)} {vs : List TypeVariable}
    {R : Matching} (_ : ∀ v ∈ vs, R v v), ClosedParameters vs ps → AlikeParameters R ps ps
  | .fixed _, _, _, hR, h => alikeTypes_of_closed hR h
  | .variadic (_, a), _, _, hR, h => alike_of_closed (a := a) hR h
termination_by structural ps => ps

theorem alikeTypes_of_closed : ∀ {ps : List (String × Ty)} {vs : List TypeVariable}
    {R : Matching} (_ : ∀ v ∈ vs, R v v), ClosedFields vs ps → AlikeTypes R ps ps
  | [], _, _, _, _ => trivial
  | (_, _) :: _, _, _, hR, ⟨ha, hrest⟩ => ⟨alike_of_closed hR ha, alikeTypes_of_closed hR hrest⟩
termination_by structural ps => ps

end

mutual

theorem alike_of_mentions : ∀ {a : Ty} {vs : List TypeVariable} {R : Matching} (_ : ∀ v, v ∉ vs → R v v),
    a.mentions vs = false → a.Alike R a
  | .number, _, _, _, _ | .boolean, _, _, _, _ | .bigInteger, _, _, _, _ | .null, _, _, _, _ => trivial
  | .var v, _, _, hR, h => hR v (by simpa [mentions] using h)
  | .list a, _, _, hR, h | .sequence a, _, _, hR, h | .nullable a, _, _, hR, h =>
      alike_of_mentions (a := a) hR h
  | .tagged a _, _, _, hR, h => ⟨alike_of_mentions (a := a) hR h, rfl⟩
  | .object _, _, _, hR, h => alikeFields_of_mentions hR h
  | .union _ _, _, _, hR, h => ⟨alikeFields_of_mentions hR h, rfl⟩
  | .function ws ps a, vs, R, hR, h => by
      simp only [mentions, Bool.or_eq_false_iff] at h
      have hbind : ∀ v, v ∉ vs → Matching.bind (ws.zip ws) R v v := fun v hv =>
        Matching.bind_zip_self.mpr (.inr (hR v hv))
      exact ⟨rfl, alikeParameters_of_mentions hbind h.1, alike_of_mentions hbind h.2⟩
termination_by structural a => a

theorem alikeFields_of_mentions : ∀ {fields : List (String × Ty)} {vs : List TypeVariable}
    {R : Matching} (_ : ∀ v, v ∉ vs → R v v), mentionsFields vs fields = false →
    AlikeFields R fields fields
  | [], _, _, _, _ => trivial
  | (_, _) :: _, _, _, hR, h => by
      simp only [mentionsFields, Bool.or_eq_false_iff] at h
      exact ⟨rfl, alike_of_mentions hR h.1, alikeFields_of_mentions hR h.2⟩
termination_by structural fields => fields

theorem alikeParameters_of_mentions : ∀ {ps : ParameterList (String × Ty)}
    {vs : List TypeVariable} {R : Matching} (_ : ∀ v, v ∉ vs → R v v),
    mentionsParameters vs ps = false → AlikeParameters R ps ps
  | .fixed _, _, _, hR, h => alikeTypes_of_mentions hR h
  | .variadic (_, a), _, _, hR, h => alike_of_mentions (a := a) hR h
termination_by structural ps => ps

theorem alikeTypes_of_mentions : ∀ {ps : List (String × Ty)} {vs : List TypeVariable}
    {R : Matching} (_ : ∀ v, v ∉ vs → R v v), mentionsFields vs ps = false → AlikeTypes R ps ps
  | [], _, _, _, _ => trivial
  | (_, _) :: _, _, _, hR, h => by
      simp only [mentionsFields, Bool.or_eq_false_iff] at h
      exact ⟨alike_of_mentions hR h.1, alikeTypes_of_mentions hR h.2⟩
termination_by structural ps => ps

end

/-- A type means the same wherever the variables free in it mean the same. -/
theorem holds_eq_of_closed {a : Ty} {vs : List TypeVariable} {ρ σ : Assignment} (h : a.Closed vs)
    (hagree : ∀ v ∈ vs, ρ v = σ v) : a.Holds S ρ = a.Holds S σ :=
  (alike_of_closed (R := fun v w => v = w ∧ ρ v = σ w) (fun v hv => ⟨rfl, hagree v hv⟩) h).holds_eq
    fun _ _ hvw => hvw.2

/-- What variables mean that a type does not mention does not count. -/
theorem holds_eq_of_mentions {a : Ty} {vs : List TypeVariable} {ρ σ : Assignment}
    (h : a.mentions vs = false) (hagree : ∀ v, v ∉ vs → ρ v = σ v) : a.Holds S ρ = a.Holds S σ :=
  (alike_of_mentions (R := fun v w => v = w ∧ ρ v = σ w) (fun v hv => ⟨rfl, hagree v hv⟩) h).holds_eq
    fun _ _ hvw => hvw.2

theorem holds_orNull {a : Ty} {ρ : Assignment} {k : Nat} {v : Value} :
    a.orNull.Holds S ρ k v ↔ v = .null ∨ a.Holds S ρ k v := by
  cases a <;> simp [orNull, Holds]

end Ty

namespace Substitution

variable {S : Setting}

/-- No variable that is bound by `vs` is replaced or comes in with a type that is put in. -/
def spares (s : Substitution) (vs : List TypeVariable) : Bool :=
  s.entries.all fun (v, a) => !vs.contains v && !a.mentions vs

/-- Below all variables that are bound in a type the substitution captures nothing. -/
def sparesBound (s : Substitution) : Ty → Bool
  | .function vs _ _ => s.spares vs
  | _ => true

/-- What the variables of a type mean before types are put in the place of some of them. -/
def assign (S : Setting) (s : Substitution) (ρ : Assignment) : Assignment := fun v =>
  match s.get? v with
  | some a => a.meaning S ρ
  | none => ρ v

theorem get?_eq_none_of_spares {s : Substitution} {vs : List TypeVariable} (h : s.spares vs = true)
    {v : TypeVariable} (hv : v ∈ vs) : s.get? v = none := by
  cases hget : s.get? v with
  | none => rfl
  | some a =>
      have hentry := List.all_eq_true.mp h _ (mem_of_find? hget)
      simp [hv] at hentry

theorem assign_of_spares {s : Substitution} {vs : List TypeVariable} (h : s.spares vs = true)
    {ρ σ : Assignment} (hσ : ∀ x, x ∉ vs → σ x = ρ x) :
    ∀ x, x ∉ vs → s.assign S σ x = s.assign S ρ x := by
  intro x hx
  simp only [assign]
  cases hget : s.get? x with
  | none => exact hσ x hx
  | some a =>
      have hentry := List.all_eq_true.mp h _ (mem_of_find? hget)
      simp only [Bool.and_eq_true, Bool.not_eq_true'] at hentry
      have hmeans := Ty.holds_eq_of_mentions (S := S) hentry.2 hσ
      simp only [Ty.meaning, hmeans]

/-- Whatever variables mean that a type binds, they may mean before the substitution what they mean after
it. -/
theorem exists_assign_eq {s : Substitution} {vs : List TypeVariable} (h : s.spares vs = true)
    {ρ σ : Assignment} (hσ : ∀ x, x ∉ vs → σ x = s.assign S ρ x) :
    ∃ ρ' : Assignment, (∀ x, x ∉ vs → ρ' x = ρ x) ∧ s.assign S ρ' = σ := by
  have hρ' : ∀ x, x ∉ vs → (if x ∈ vs then σ x else ρ x) = ρ x := fun x hx => if_neg hx
  refine ⟨fun x => if x ∈ vs then σ x else ρ x, hρ', funext fun x => ?_⟩
  by_cases hx : x ∈ vs
  · simp [assign, get?_eq_none_of_spares h hx, hx]
  · rw [assign_of_spares h hρ' x hx, hσ x hx]

theorem length_replaceFields (s : Substitution) (fields : List (String × Ty)) :
    (s.replaceFields fields).length = fields.length := by
  induction fields with
  | nil => rfl
  | cons field rest ih => exact congrArg (· + 1) ih

theorem covers_replace (s : Substitution) (ps : Parameters) :
    Ty.Covers ps (s.replaceParameters ps) ∧ Ty.Covers (s.replaceParameters ps) ps := by
  cases ps with
  | fixed ps =>
      have hlength := s.length_replaceFields ps
      exact ⟨Nat.le_of_eq hlength.symm, Nat.le_of_eq hlength⟩
  | variadic _ => exact ⟨trivial, trivial⟩

mutual

theorem holds_replace : ∀ {a : Ty} {s : Substitution} {ρ : Assignment},
    a.every s.sparesBound = true → (s.replace a).Holds S ρ = a.Holds S (s.assign S ρ)
  | .number, _, _, _ | .boolean, _, _, _ | .bigInteger, _, _, _ | .null, _, _, _ => rfl
  | .var v, s, ρ, _ => by
      funext k value
      simp only [replace, Ty.Holds, assign]
      cases s.get? v <;> rfl
  | .list a, _, _, h | .sequence a, _, _, h | .tagged a _, _, _, h => by
      simp only [Ty.every, Bool.and_eq_true] at h
      funext k value
      simp only [replace, Ty.Holds, holds_replace h.2]
  | .nullable a, _, _, h => by
      simp only [Ty.every, Bool.and_eq_true] at h
      funext k value
      simp only [replace, Ty.holds_orNull, Ty.Holds, holds_replace h.2]
  | .object fields, _, _, h => by
      simp only [Ty.every, Bool.and_eq_true] at h
      funext k value
      simp only [replace, Ty.Holds, holdsFields_replace h.2]
  | .union fields _, _, _, h => by
      simp only [Ty.every, Bool.and_eq_true] at h
      funext k value
      simp only [replace, Ty.Holds, holdsAlternative_replace h.2]
  | .function vs ps a, s, ρ, h => by
      simp only [Ty.every, Bool.and_eq_true] at h
      obtain ⟨⟨hspares, hps⟩, ha⟩ := h
      have hps' : ∀ ρ', Ty.HoldsParameters S (s.replaceParameters ps) ρ' =
          Ty.HoldsParameters S ps (s.assign S ρ') := fun _ => holdsParameters_replace hps
      have ha' : ∀ ρ', (s.replace a).Holds S ρ' = a.Holds S (s.assign S ρ') :=
        fun _ => holds_replace ha
      obtain ⟨hcovers, hcovered⟩ := s.covers_replace ps
      funext k value
      refine propext ⟨fun hv => hv.function hcovered fun σ' hσ' => ?_,
        fun hv => hv.function hcovers fun ρ' hρ' => ?_⟩
      · obtain ⟨ρ', hρ', rfl⟩ := exists_assign_eq hspares hσ'
        exact ⟨ρ', hρ', fun j arguments h => (hps' ρ').symm ▸ h, fun j w h => ha' ρ' ▸ h⟩
      · exact ⟨s.assign S ρ', assign_of_spares hspares hρ', fun j arguments h => hps' ρ' ▸ h,
          fun j w h => (ha' ρ').symm ▸ h⟩
termination_by structural a => a

theorem holdsFields_replace : ∀ {fields : List (String × Ty)} {s : Substitution} {ρ : Assignment},
    Ty.everyField s.sparesBound fields = true →
      Ty.HoldsFields S (s.replaceFields fields) ρ = Ty.HoldsFields S fields (s.assign S ρ)
  | [], _, _, _ => rfl
  | (_, a) :: rest, _, _, h => by
      simp only [Ty.everyField, Bool.and_eq_true] at h
      funext k entries
      simp only [replaceFields, Ty.HoldsFields, holds_replace h.1, holdsFields_replace h.2]
termination_by structural fields => fields

theorem holdsAlternative_replace : ∀ {fields : List (String × Ty)} {s : Substitution}
    {ρ : Assignment}, Ty.everyField s.sparesBound fields = true →
      Ty.HoldsAlternative S (s.replaceFields fields) ρ =
        Ty.HoldsAlternative S fields (s.assign S ρ)
  | [], _, _, _ => rfl
  | (_, a) :: rest, _, _, h => by
      simp only [Ty.everyField, Bool.and_eq_true] at h
      funext k tag payload
      simp only [replaceFields, Ty.HoldsAlternative, holds_replace h.1,
        holdsAlternative_replace h.2]
termination_by structural fields => fields

theorem holdsParameters_replace : ∀ {ps : ParameterList (String × Ty)} {s : Substitution}
    {ρ : Assignment}, Ty.everyParameter s.sparesBound ps = true →
      Ty.HoldsParameters S (s.replaceParameters ps) ρ = Ty.HoldsParameters S ps (s.assign S ρ)
  | .fixed ps, s, _, h => by
      have hlength := s.length_replaceFields ps
      simp only [Ty.everyParameter] at h
      funext k arguments
      simp only [replaceParameters, Ty.HoldsParameters, holdsEach_replace h, hlength]
  | .variadic (_, a), _, _, h => by
      simp only [Ty.everyParameter] at h
      funext k arguments
      simp only [replaceParameters, Ty.HoldsParameters, holds_replace h]
termination_by structural ps => ps

theorem holdsEach_replace : ∀ {ps : List (String × Ty)} {s : Substitution} {ρ : Assignment},
    Ty.everyField s.sparesBound ps = true →
      Ty.HoldsEach S (s.replaceFields ps) ρ = Ty.HoldsEach S ps (s.assign S ρ)
  | [], _, _, _ => rfl
  | (_, a) :: rest, _, _, h => by
      simp only [Ty.everyField, Bool.and_eq_true] at h
      funext k arguments
      simp only [replaceFields, Ty.HoldsEach, holds_replace h.1, holdsEach_replace h.2]
termination_by structural ps => ps

end

theorem assign_of_isEmpty {s : Substitution} (h : s.isEmpty = true) (ρ : Assignment) :
    s.assign S ρ = ρ := by
  funext v
  simp [assign, get?, List.isEmpty_iff.mp h, find?]

/-- A type with types in the place of variables means what it means where the variables mean these. -/
theorem holds_apply {a : Ty} {s : Substitution} {ρ : Assignment}
    (h : s.isEmpty = false → a.every s.sparesBound = true) :
    (s.apply a).Holds S ρ = a.Holds S (s.assign S ρ) := by
  unfold apply
  split
  · rw [assign_of_isEmpty ‹_›]
  · exact holds_replace (h (Bool.eq_false_iff.mpr ‹_›))

theorem holdsParameters_apply {ps : Parameters} {s : Substitution} {ρ : Assignment}
    (h : s.isEmpty = false → Ty.everyParameter s.sparesBound ps = true) :
    Ty.HoldsParameters S (s.applyParameters ps) ρ = Ty.HoldsParameters S ps (s.assign S ρ) := by
  unfold applyParameters
  split
  · rw [assign_of_isEmpty ‹_›]
  · exact holdsParameters_replace (h (Bool.eq_false_iff.mpr ‹_›))

end Substitution

end Sable
