import Sable.Proofs.Fields
import Sable.Proofs.Ty.Closed
import Sable.Ty.Inference

/-! What inference finds stands for variables that were asked for, and for all of them; and it is made of
parts of the types of the arguments. -/
namespace Sable

/-- A property of types that passes on to the parts of a type. -/
structure Ty.Hereditary (C : Ty → Prop) : Prop where
  widened : ∀ {a : Ty}, C a → C a.widened
  list : ∀ {a : Ty}, C (.list a) → C a
  sequence : ∀ {a : Ty}, C (.sequence a) → C a
  nullable : ∀ {a : Ty}, C (.nullable a) → C a
  tagged : ∀ {a : Ty} {tag : String}, C (.tagged a tag) → C a
  object : ∀ {fields : Fields Ty}, C (.object fields) → ∀ field ∈ fields, C field.2
  union : ∀ {fields : Fields Ty} {tag : Option String}, C (.union fields tag) → ∀ field ∈ fields, C field.2
  parameter : ∀ {vs : List TypeVariable} {ps : Parameters} {a : Ty}, C (.function vs ps a) →
    ∀ q ∈ ps.toList, C q.2
  result : ∀ {vs : List TypeVariable} {ps : Parameters} {a : Ty}, C (.function vs ps a) → C a

theorem Ty.hereditary_true : Ty.Hereditary fun _ => True := by
  constructor <;> intros <;> trivial

namespace Substitution

section

variable [EntryOrder]

/-- A property of substitutions that inference keeps: it holds where nothing is found, where a variable comes to lie over a
type with the property `C`, and of what is put together. -/
structure Gathers (vs : List TypeVariable) (C : Ty → Prop) (Q : Substitution → Prop) : Prop where
  empty : Q empty
  single : ∀ {v : TypeVariable} {a : Ty}, v ∈ vs → C a → Q (single v a.widened)
  merge : ∀ {s t found : Substitution}, Q s → Q t → s.merge t = .ok found → Q found

variable {vs : List TypeVariable} {C : Ty → Prop} {Q : Substitution → Prop}

/-- What is found goes on with what is found in the next pair. -/
theorem bind_merge_eq_ok {α : Type} {s : Substitution} {c : Except InferenceError Substitution}
    {f : Substitution → Except InferenceError α} {result : α} :
    (do f (← s.merge (← c))) = .ok result ↔ ∃ t found, c = .ok t ∧ s.merge t = .ok found ∧ f found = .ok result := by
  cases c with
  | error e => simp [Bind.bind, Except.bind]
  | ok t =>
      cases hmerge : s.merge t with
      | error e => simp [Bind.bind, Except.bind, hmerge]
      | ok found => simp [Bind.bind, Except.bind, hmerge]

section

variable (hQ : Gathers vs C Q)
include hQ

theorem Gathers.step {α : Type} {s : Substitution} {c : Except InferenceError Substitution}
    {f : Substitution → Except InferenceError α} {result : α} (hs : Q s) (hc : ∀ t, c = .ok t → Q t)
    (h : (do f (← s.merge (← c))) = .ok result) : ∃ t, Q t ∧ f t = .ok result := by
  obtain ⟨t, found, ht, hfound, h⟩ := bind_merge_eq_ok.mp h
  exact ⟨found, hQ.merge hs (hc t ht) hfound, h⟩

theorem Gathers.unifyEach {laid : Ty → Except InferenceError Substitution} {types : List Ty}
    (hlaid : ∀ b ∈ types, ∀ t, laid b = .ok t → Q t) {found s : Substitution}
    (hfound : Q found) (h : unifyEach laid found types = .ok s) : Q s := by
  induction types generalizing found with
  | nil =>
      cases h
      exact hfound
  | cons b rest ih =>
      obtain ⟨hb, hrest⟩ := List.forall_mem_cons.mp hlaid
      obtain ⟨t, ht, h⟩ := hQ.step hfound hb h
      exact ih hrest ht h

variable (hC : Ty.Hereditary C)
include hC

set_option linter.unusedSectionVars false in
mutual

theorem Gathers.unify : ∀ {a b : Ty} {s : Substitution}, C b → unify vs a b = .ok s → Q s
  | .number, _, _, _, h | .boolean, _, _, _, h | .bigInteger, _, _, _, h | .null, _, _, _, h => by
      simp only [Substitution.unify, Ty.mentions, Bool.false_eq_true, if_false, Except.ok.injEq] at h
      exact h ▸ hQ.empty
  | .var v, b, _, hb, h => by
      unfold Substitution.unify at h
      split at h
      · rename_i hv
        cases h
        exact hQ.single (by simpa [Ty.mentions] using hv) hb
      · cases h
        exact hQ.empty
  | .list a, b, _, hb, h => by
      unfold Substitution.unify at h
      split at h
      · cases b <;> first | exact Gathers.unify (a := a) (hC.list hb) h | cases h
      · cases h
        exact hQ.empty
  | .sequence a, b, _, hb, h => by
      unfold Substitution.unify at h
      split at h
      · cases b <;> first | exact Gathers.unify (a := a) (hC.sequence hb) h | cases h
      · cases h
        exact hQ.empty
  | .nullable a, b, _, hb, h => by
      unfold Substitution.unify at h
      split at h
      · cases b with
        | null =>
            cases h
            exact hQ.empty
        | nullable b => exact Gathers.unify (a := a) (hC.nullable hb) h
        | _ => exact Gathers.unify (a := a) hb h
      · cases h
        exact hQ.empty
  | .tagged a tag, b, _, hb, h => by
      unfold Substitution.unify at h
      split at h
      · cases b with
        | tagged b tag' =>
            by_cases htag : tag = tag'
            · simp only [htag, if_true] at h
              exact Gathers.unify (hC.tagged hb) h
            · simp only [htag, if_false, reduceCtorEq] at h
        | _ => cases h
      · cases h
        exact hQ.empty
  | .object fields, b, _, hb, h => by
      unfold Substitution.unify at h
      split at h
      · cases b <;> first | exact Gathers.unifyFields (hC.object hb) hQ.empty h | cases h
      · cases h
        exact hQ.empty
  | .union fields _, b, _, hb, h => by
      unfold Substitution.unify at h
      split at h
      · cases b <;> first
          | exact Gathers.unifyFields (hC.union hb) hQ.empty h
          | exact Gathers.unifyAlternative (hC.tagged hb) h
          | cases h
      · cases h
        exact hQ.empty
  | .function ws ps a, b, _, hb, h => by
      unfold Substitution.unify at h
      split at h
      · cases b with
        | function _ qs b =>
            simp only [Bind.bind, Except.bind] at h
            split at h
            · cases h
            · rename_i found hps
              split at h
              · cases h
              · rename_i found' ha
                exact hQ.merge (Gathers.unifyParameters (hC.parameter hb) hps) (Gathers.unify (hC.result hb) ha) h
        | _ => cases h
      · cases h
        exact hQ.empty
termination_by structural a => a

theorem Gathers.unifyFields : ∀ {fields : List (String × Ty)} {missing : InferenceError}
    {actual : Fields Ty} {found s : Substitution} (_ : ∀ field ∈ actual, C field.2)
    (_ : Q found), unifyFields vs missing actual found fields = .ok s → Q s
  | [], _, _, _, _, _, hfound, h => by
      simp only [Substitution.unifyFields, Except.ok.injEq] at h
      exact h ▸ hfound
  | (name, a) :: rest, _, actual, _, _, hactual, hfound, h => by
      simp only [Substitution.unifyFields] at h
      split at h
      · cases h
      · rename_i b hget
        have hb : C b := hactual (name, b) (Fields.mem_of_get? hget)
        obtain ⟨t, ht, h⟩ := hQ.step hfound (fun t ht => Gathers.unify hb ht) h
        exact Gathers.unifyFields hactual ht h
termination_by structural fields => fields

theorem Gathers.unifyAlternative : ∀ {fields : List (String × Ty)} {missing : InferenceError}
    {tag : String} {payload : Ty} {s : Substitution} (_ : C payload),
    unifyAlternative vs missing tag payload fields = .ok s → Q s
  | [], _, _, _, _, _, h => by cases h
  | (name, a) :: rest, _, _, _, _, hpayload, h => by
      simp only [Substitution.unifyAlternative] at h
      split at h
      · exact Gathers.unify hpayload h
      · exact Gathers.unifyAlternative hpayload h
termination_by structural fields => fields

theorem Gathers.unifyParameters : ∀ {ps qs : ParameterList (String × Ty)} {s : Substitution}
    (_ : ∀ q ∈ qs.toList, C q.2), unifyParameters vs ps qs = .ok s → Q s
  | .fixed _, .fixed _, _, hqs, h =>
      Gathers.unifyZip (List.forall_mem_map.mpr hqs) hQ.empty h
  | .fixed _, .variadic q, _, hqs, h => Gathers.unifyOver (hqs q List.mem_cons_self) hQ.empty h
  | .variadic (_, a), .fixed _, _, hqs, h =>
      hQ.unifyEach (List.forall_mem_map.mpr fun q hq _ ht => Gathers.unify (a := a) (hqs q hq) ht)
        hQ.empty h
  | .variadic (_, a), .variadic q, _, hqs, h =>
      hQ.unifyEach (List.forall_mem_singleton.mpr fun _ ht =>
        Gathers.unify (a := a) (hqs q List.mem_cons_self) ht) hQ.empty h
termination_by structural ps => ps

theorem Gathers.unifyZip : ∀ {ps : List (String × Ty)} {types : List Ty} {found s : Substitution}
    (_ : ∀ b ∈ types, C b) (_ : Q found), unifyZip vs found ps types = .ok s → Q s
  | [], _, _, _, _, hfound, h => by
      simp only [Substitution.unifyZip, Except.ok.injEq] at h
      exact h ▸ hfound
  | (_, a) :: rest, types, _, _, htypes, hfound, h => by
      cases types with
      | nil =>
          simp only [Substitution.unifyZip, Except.ok.injEq] at h
          exact h ▸ hfound
      | cons b others =>
          obtain ⟨hb, hothers⟩ := List.forall_mem_cons.mp htypes
          simp only [Substitution.unifyZip] at h
          obtain ⟨t, ht, h⟩ := hQ.step hfound (fun t ht => Gathers.unify hb ht) h
          exact Gathers.unifyZip hothers ht h
termination_by structural ps => ps

theorem Gathers.unifyOver : ∀ {ps : List (String × Ty)} {b : Ty} {found s : Substitution}
    (_ : C b) (_ : Q found), unifyOver vs b found ps = .ok s → Q s
  | [], _, _, _, _, hfound, h => by
      simp only [Substitution.unifyOver, Except.ok.injEq] at h
      exact h ▸ hfound
  | (_, a) :: rest, _, _, _, hb, hfound, h => by
      simp only [Substitution.unifyOver] at h
      obtain ⟨t, ht, h⟩ := hQ.step hfound (fun t ht => Gathers.unify hb ht) h
      exact Gathers.unifyOver hb ht h
termination_by structural ps => ps

end

theorem Gathers.unifyPairs {pairs : List (Ty × Ty)} {found s : Substitution}
    (hpairs : ∀ pair ∈ pairs, C pair.2) (hfound : Q found)
    (h : unifyPairs vs found pairs = .ok s) : Q s := by
  induction pairs generalizing found with
  | nil =>
      cases h
      exact hfound
  | cons pair rest ih =>
      obtain ⟨hpair, hrest⟩ := List.forall_mem_cons.mp hpairs
      obtain ⟨t, ht, h⟩ := hQ.step hfound (fun t ht => hQ.unify hC hpair ht) h
      exact ih hrest ht h

/-- What is inferred has every property that inference keeps. -/
theorem Gathers.infer {declared : Parameters} {actual : List Ty} {s : Substitution}
    (hactual : ∀ type ∈ actual, C type) (h : infer vs declared actual = .ok s) : Q s := by
  simp only [Substitution.infer, Bind.bind, Except.bind] at h
  split at h
  · cases h
  · rename_i found hfound
    split at h
    · cases h
    · cases h
      refine hQ.unifyPairs hC (fun pair hpair => ?_) hQ.empty hfound
      cases declared with
      | fixed ps => exact hactual pair.2 (List.of_mem_zip hpair).2
      | variadic q =>
          obtain ⟨type, htype, rfl⟩ := List.mem_map.mp hpair
          exact hactual type htype

end

end

/-! ## What variables stand for -/

variable {vs : List TypeVariable} {C : Ty → Prop}

/-- Only variables among `vs` are replaced, by types with the property. -/
def Maps (vs : List TypeVariable) (C : Ty → Prop) (s : Substitution) : Prop :=
  ∀ entry ∈ s.entries, entry.1 ∈ vs ∧ C entry.2

theorem Maps.get? {s : Substitution} (h : s.Maps vs C) {v : TypeVariable} {a : Ty}
    (hget : s.get? v = some a) : v ∈ vs ∧ C a :=
  h _ (mem_of_find? hget)

theorem Maps.mergeEntries {s found : Substitution} {entries : List (TypeVariable × Ty)}
    (h : s.Maps vs C) (hentries : ∀ entry ∈ entries, entry.1 ∈ vs ∧ C entry.2)
    (hfound : s.mergeEntries entries = .ok found) : found.Maps vs C := by
  induction entries generalizing s with
  | nil =>
      cases hfound
      exact h
  | cons entry rest ih =>
      obtain ⟨hentry, hrest⟩ := List.forall_mem_cons.mp hentries
      simp only [Substitution.mergeEntries] at hfound
      split at hfound
      · split at hfound
        · exact ih h hrest hfound
        · cases hfound
      · refine ih (fun e he => ?_) hrest hfound
        rcases List.mem_append.mp he with he | he
        · exact h e he
        · obtain rfl := List.mem_singleton.mp he
          exact hentry

theorem Maps.merge [EntryOrder] {s t found : Substitution} (hs : s.Maps vs C) (ht : t.Maps vs C)
    (hfound : s.merge t = .ok found) : found.Maps vs C :=
  hs.mergeEntries (fun entry hentry => ht entry ((EntryOrder.perm _).mem_iff.mp hentry)) hfound

variable [EntryOrder]

/-- A variable stands for the type that it came to lie over, without what is known of the alternative that it holds. -/
theorem gathers_maps (vs : List TypeVariable) (C : Ty → Prop) :
    Gathers vs C (Maps vs fun a => ∃ b, C b ∧ a = b.widened) where
  empty := nofun
  single hv ha := by
    intro entry hentry
    obtain rfl := List.mem_singleton.mp hentry
    exact ⟨hv, _, ha, rfl⟩
  merge := Maps.merge

/-- Type arguments that are inferred stand for the variables they were inferred for, and have every
property that the types of the arguments pass on to their parts. -/
theorem maps_of_infer (hC : Ty.Hereditary C) {declared : Parameters} {actual : List Ty} {s : Substitution}
    (hactual : ∀ type ∈ actual, C type) (h : infer vs declared actual = .ok s) : s.Maps vs C := by
  intro entry hentry
  obtain ⟨hv, b, hb, heq⟩ := (gathers_maps vs C).infer hC hactual h entry hentry
  exact ⟨hv, heq ▸ hC.widened hb⟩

/-- All variables are found. -/
theorem get?_ne_none_of_infer {declared : Parameters} {actual : List Ty} {s : Substitution}
    (h : infer vs declared actual = .ok s) : ∀ v ∈ vs, s.get? v ≠ none := by
  simp only [infer, Bind.bind, Except.bind] at h
  split at h
  · cases h
  · split at h
    · cases h
    · rename_i hnone
      cases h
      intro v hv hget
      have hv' := List.find?_eq_none.mp hnone v hv
      simp [hget] at hv'

end Substitution

end Sable
