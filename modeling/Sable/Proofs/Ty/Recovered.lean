import Sable.Proofs.Ty.Mentions
import Sable.Proofs.Ty.Merged
import Sable.Proofs.Ty.Every

/-! Unification undoes substitution.

A type laid over its own instance gives back the types that were put in, for exactly the variables that the type
mentions. So does a call whose arguments have the instances of the types of the parameters. -/
namespace Sable

namespace Ty

/-- Not an optional type of an optional type; and the fields have names of their own, as those of any type do. -/
def tidy : Ty → Bool
  | nullable (nullable _) => false
  | object fields | union fields _ => decide (Fields.names fields).Nodup
  | _ => true

/-- Inference finds the type as it is: it is no optional type, under which a variable would be looked for inside, and
nothing is known of the alternative that it holds, which would be dropped. -/
def findable : Ty → Bool
  | nullable _ => false
  | union _ (some _) => false
  | _ => true

theorem widened_of_findable {a : Ty} (h : a.findable = true) : a.widened = a := by
  match a, h with
  | union _ none, _ => rfl
  | number, _ | boolean, _ | bigInteger, _ | null, _ | list _, _ | sequence _, _ | object _, _ | function .., _
  | tagged .., _ | var _, _ => rfl

theorem orNull_of_findable {a : Ty} (h : a.findable = true) : a.orNull = nullable a := by
  cases a <;> first | rfl | cases h

theorem mentions_eq_false {a : Ty} {vs : List TypeVariable} (h : a.mentions vs = false) {v : TypeVariable} (hv : v ∈ vs) :
    a.mentions [v] = false := by
  rw [Bool.eq_false_iff] at h ⊢
  exact fun hmentions => h (mentions_iff.mpr ⟨v, hv, hmentions⟩)

end Ty

namespace Substitution

variable {vs : List TypeVariable} {s t found : Substitution} {p q : TypeVariable → Bool}

/-! ## Parts of a substitution -/

/-- The substitution maps those variables that `p` holds of, as `s` does, and no others. -/
structure Restricts (s : Substitution) (p : TypeVariable → Bool) (found : Substitution) : Prop where
  distinct : found.Distinct
  get? : ∀ v, found.get? v = if p v then s.get? v else none

theorem Restricts.merge [EntryOrder] (h : s.Restricts p found) (h' : s.Restricts q t) :
    ∃ merged, found.merge t = .ok merged ∧ s.Restricts (fun v => p v || q v) merged := by
  have hagrees : found.Agrees t := by
    intro v a b ha hb
    rw [h.get?] at ha
    rw [h'.get?] at hb
    obtain rfl : a = b := by
      refine Option.some.inj (?_ : some a = some b)
      rw [← ha, ← hb]
      split at ha <;> split at hb <;> simp_all
    exact a.same_refl
  obtain ⟨merged, hmerged⟩ := (exists_merge_iff h'.distinct).mpr hagrees
  refine ⟨merged, hmerged, h.distinct.mergeEntries hmerged, fun v => ?_⟩
  rw [get?_merge h'.distinct hmerged, h.get?, h'.get?]
  cases p v <;> cases q v <;> simp

theorem Restricts.congr (h : s.Restricts p found) (heq : ∀ v, p v = q v) : s.Restricts q found :=
  ⟨h.distinct, fun v => heq v ▸ h.get? v⟩

/-- What is found is the given part of the substitution. -/
def Recovers (s : Substitution) (p : TypeVariable → Bool) (c : Except InferenceError Substitution) : Prop :=
  ∃ found, c = .ok found ∧ s.Restricts p found

/-- The next pair adds what it finds. -/
theorem Restricts.step [EntryOrder] (h : s.Restricts p found) {c : Except InferenceError Substitution} (hc : s.Recovers q c)
    {f : Substitution → Except InferenceError Substitution} {r : TypeVariable → Bool}
    (hf : ∀ merged, s.Restricts (fun v => p v || q v) merged → s.Recovers r (f merged)) :
    s.Recovers r (do f (← found.merge (← c))) := by
  obtain ⟨t, ht, hq⟩ := hc
  obtain ⟨merged, hmerged, hpq⟩ := h.merge hq
  obtain ⟨result, hresult, hr⟩ := hf merged hpq
  exact ⟨result, bind_merge_eq_ok.mpr ⟨t, merged, ht, hmerged, hresult⟩, hr⟩

theorem Restricts.empty (h : ∀ v, p v = true → s.get? v = none) : s.Restricts p empty where
  distinct := List.nodup_nil
  get? v := by
    split
    · exact (h v ‹_›).symm
    · rfl

theorem restricts_nothing : s.Restricts (fun _ => false) empty := .empty nofun

theorem get?_replaceFields_of_mem {fields : List (String × Ty)} (hdistinct : (Fields.names fields).Nodup)
    {field : String × Ty} (hfield : field ∈ fields) :
    Fields.get? field.1 (s.replaceFields fields) = some (s.replace field.2) := by
  rw [get?_replaceFields, Fields.get?_of_mem hdistinct hfield, Option.map_some]

/-! ## Unification with an instance -/

section

variable (hs : ∀ v, s.get? v ≠ none ↔ v ∈ vs) (himage : ∀ v a, s.get? v = some a → a.findable = true)

include himage in
/-- Below an optional type there is none, before the substitution or after it. -/
theorem replace_nullable {a : Ty} (h : (Ty.nullable a).tidy = true) :
    s.replace (.nullable a) = .nullable (s.replace a) := by
  have horNull : (s.replace a).orNull = .nullable (s.replace a) := by
    cases a with
    | nullable a => cases h
    | var v =>
        rw [replace]
        cases hget : s.get? v with
        | none => rfl
        | some b => exact Ty.orNull_of_findable (himage v b hget)
    | _ => rfl
  rw [replace, horNull]

include hs in
/-- A type without variables is not looked at, and none of them is to be found in it. -/
theorem recovers_of_mentions [EntryOrder] {a b : Ty}
    (h : a.mentions vs = true → s.Recovers (fun v => a.mentions [v]) (unify vs a b)) :
    s.Recovers (fun v => a.mentions [v]) (unify vs a b) := by
  cases hmentions : a.mentions vs with
  | true => exact h hmentions
  | false =>
      refine ⟨empty, ?_, .empty fun v hv => ?_⟩
      · unfold unify
        rw [if_neg (by rw [hmentions]; exact Bool.false_ne_true)]
      · by_contra hget
        have hnot := Ty.mentions_eq_false hmentions ((hs v).mp hget)
        exact Bool.false_ne_true (hnot.symm.trans hv)

include hs himage

set_option linter.unusedSectionVars false in
mutual

/-- A type laid over its instance gives back what was put in for the variables that it mentions. -/
theorem recovers_unify [EntryOrder] : ∀ {a : Ty}, a.every Ty.tidy = true →
    s.Recovers (fun v => a.mentions [v]) (unify vs a (s.replace a))
  | .number, _ | .boolean, _ | .bigInteger, _ | .null, _ => recovers_of_mentions hs nofun
  | .var v, _ => recovers_of_mentions hs fun hmentions => by
      have hv : v ∈ vs := by simpa [Ty.mentions] using hmentions
      obtain ⟨b, hget⟩ := Option.ne_none_iff_exists'.mp ((hs v).mpr hv)
      refine ⟨single v b, ?_, List.pairwise_singleton _ v, fun w => ?_⟩
      · unfold unify
        rw [if_pos hmentions, replace, hget]
        exact congrArg (fun a => Except.ok (single v a)) (Ty.widened_of_findable (himage v b hget))
      · by_cases hw : v = w
        · subst hw
          simp [single, Substitution.get?, find?, Ty.mentions, ← hget]
        · simp [single, Substitution.get?, find?, Ty.mentions, hw]
  | .list a, h | .sequence a, h => recovers_of_mentions hs fun hmentions => by
      unfold unify
      rw [if_pos hmentions]
      exact recovers_unify (a := a) (Bool.and_eq_true_iff.mp h).2
  | .nullable a, h => recovers_of_mentions hs fun hmentions => by
      unfold unify
      rw [if_pos hmentions, replace_nullable himage (Bool.and_eq_true_iff.mp h).1]
      exact recovers_unify (a := a) (Bool.and_eq_true_iff.mp h).2
  | .tagged a tag, h => recovers_of_mentions hs fun hmentions => by
      unfold unify
      rw [if_pos hmentions]
      simp only [replace, if_true]
      exact recovers_unify (a := a) (Bool.and_eq_true_iff.mp h).2
  | .object fields, h | .union fields _, h => recovers_of_mentions hs fun hmentions => by
      obtain ⟨hroot, hfields⟩ := Bool.and_eq_true_iff.mp h
      unfold unify
      rw [if_pos hmentions]
      exact recovers_unifyFields hfields (fun field => get?_replaceFields_of_mem (of_decide_eq_true hroot)) restricts_nothing
  | .function _ ps a, h => recovers_of_mentions hs fun hmentions => by
      simp only [Ty.every, Bool.and_eq_true] at h
      obtain ⟨found, hfound, hps⟩ := recovers_unifyParameters h.1.2
      obtain ⟨t, ht, ha⟩ := recovers_unify h.2
      obtain ⟨merged, hmerged, hboth⟩ := hps.merge ha
      refine ⟨merged, ?_, hboth⟩
      unfold unify
      rw [if_pos hmentions]
      simpa only [replace, hfound, ht, Bind.bind, Except.bind] using hmerged
termination_by structural a => a

theorem recovers_unifyFields [EntryOrder] : ∀ {fields : List (String × Ty)} {missing : InferenceError} {actual : Fields Ty}
    {found : Substitution} {p : TypeVariable → Bool}, Ty.everyField Ty.tidy fields = true →
    (∀ field ∈ fields, Fields.get? field.1 actual = some (s.replace field.2)) → s.Restricts p found →
    s.Recovers (fun v => p v || Ty.mentionsFields [v] fields) (unifyFields vs missing actual found fields)
  | [], _, _, found, _, _, _, hfound => ⟨found, rfl, hfound.congr fun v => (Bool.or_false _).symm⟩
  | (_, a) :: rest, _, _, _, _, h, hactual, hfound => by
      obtain ⟨ha, hrest⟩ := Bool.and_eq_true_iff.mp h
      obtain ⟨hget, hactual⟩ := List.forall_mem_cons.mp hactual
      simp only [unifyFields, hget, Ty.mentionsFields, ← Bool.or_assoc]
      exact hfound.step (recovers_unify ha) fun merged hmerged => recovers_unifyFields hrest hactual hmerged
termination_by structural fields => fields

theorem recovers_unifyParameters [EntryOrder] : ∀ {ps : ParameterList (String × Ty)}, Ty.everyParameter Ty.tidy ps = true →
    s.Recovers (fun v => Ty.mentionsParameters [v] ps) (unifyParameters vs ps (s.replaceParameters ps))
  | .fixed _, h => recovers_unifyZip h restricts_nothing
  | .variadic (_, a), h =>
      restricts_nothing.step (recovers_unify (a := a) h) fun merged hmerged => ⟨merged, rfl, hmerged⟩
termination_by structural ps => ps

theorem recovers_unifyZip [EntryOrder] : ∀ {ps : List (String × Ty)} {found : Substitution} {p : TypeVariable → Bool},
    Ty.everyField Ty.tidy ps = true → s.Restricts p found →
    s.Recovers (fun v => p v || Ty.mentionsFields [v] ps) (unifyZip vs found ps ((s.replaceFields ps).map Prod.snd))
  | [], found, _, _, hfound => ⟨found, rfl, hfound.congr fun v => (Bool.or_false _).symm⟩
  | (_, a) :: rest, _, _, h, hfound => by
      obtain ⟨ha, hrest⟩ := Bool.and_eq_true_iff.mp h
      simp only [replaceFields, List.map_cons, unifyZip, Ty.mentionsFields, ← Bool.or_assoc]
      exact hfound.step (recovers_unify ha) fun merged hmerged => recovers_unifyZip hrest hmerged
termination_by structural ps => ps

end

/-- Where no variable is mapped there is none to be found, and the type is left as it is. -/
theorem recovers_unify_apply [EntryOrder] {a : Ty} (h : a.every Ty.tidy = true) :
    s.Recovers (fun v => a.mentions [v]) (unify vs a (s.apply a)) := by
  unfold apply
  split
  · rename_i hempty
    refine recovers_of_mentions hs fun hmentions => ?_
    rw [eq_nil_of_isEmpty (fun v => (hs v).mpr) hempty] at hmentions
    simpa using Ty.mentions_iff.mp hmentions
  · exact recovers_unify hs himage h

theorem recovers_unifyPairs [EntryOrder] {pairs : List (Ty × Ty)}
    (h : ∀ pair ∈ pairs, pair.1.every Ty.tidy = true ∧ pair.2 = s.apply pair.1) (hfound : s.Restricts p found) :
    s.Recovers (fun v => p v || pairs.any (·.1.mentions [v])) (unifyPairs vs found pairs) := by
  induction pairs generalizing found p with
  | nil => exact ⟨found, rfl, hfound.congr fun v => (Bool.or_false _).symm⟩
  | cons pair rest ih =>
      obtain ⟨⟨htidy, heq⟩, hrest⟩ := List.forall_mem_cons.mp h
      simp only [unifyPairs, heq, List.any_cons, ← Bool.or_assoc]
      exact hfound.step (recovers_unify_apply hs himage htidy) fun merged hmerged => ih hrest hmerged

end

/-- The arguments of a call have the instances of the types of the parameters. -/
def InstanceArguments (s : Substitution) : Parameters → List Ty → Prop
  | .fixed ps, actual => actual = ps.map fun q => s.apply q.2
  | .variadic q, actual => actual ≠ [] ∧ ∀ b ∈ actual, b = s.apply q.2

theorem InstanceArguments.pairs {declared : Parameters} {actual : List Ty} (h : s.InstanceArguments declared actual)
    (htidy : Ty.everyParameter Ty.tidy declared = true) :
    (∀ pair ∈ argumentPairs declared actual, pair.1.every Ty.tidy = true ∧ pair.2 = s.apply pair.1) ∧
      ∀ v, Ty.mentionsParameters [v] declared = true → (argumentPairs declared actual).any (·.1.mentions [v]) = true := by
  cases declared with
  | fixed ps =>
      obtain rfl := h
      simp only [argumentPairs, List.zip_map', List.forall_mem_map, List.any_map]
      refine ⟨fun q hq => ⟨Ty.everyField_iff.mp htidy q hq, trivial⟩, fun v hv => ?_⟩
      by_contra hany
      simp only [List.any_eq_true, not_exists, not_and, Bool.not_eq_true] at hany
      exact Bool.false_ne_true ((Ty.mentionsFields_eq_false_iff.mpr hany).symm.trans hv)
  | variadic q =>
      obtain ⟨hne, hactual⟩ := h
      simp only [argumentPairs, List.forall_mem_map, List.any_map]
      refine ⟨fun b hb => ⟨htidy, hactual b hb⟩, fun v hv => ?_⟩
      obtain ⟨b, hb⟩ := List.exists_mem_of_ne_nil actual hne
      exact List.any_eq_true.mpr ⟨b, hb, hv⟩

/-- Unification undoes substitution: a type laid over its instance gives back what was put in for each variable that the
type mentions, and nothing else. So inference gives back the substitution from arguments that have the instances of the
types of the parameters, where these mention all the variables. -/
theorem unify_apply [EntryOrder] (hs : ∀ v, s.get? v ≠ none ↔ v ∈ vs) (himage : ∀ v a, s.get? v = some a → a.findable = true) :
    (∀ a : Ty, a.every Ty.tidy = true → ∃ found, unify vs a (s.apply a) = .ok found ∧
      ∀ v, found.get? v = if a.mentions [v] then s.get? v else none) ∧
    ∀ declared actual, Ty.everyParameter Ty.tidy declared = true →
      (∀ v ∈ vs, Ty.mentionsParameters [v] declared = true) → s.InstanceArguments declared actual →
      ∃ found, infer vs declared actual = .ok found ∧ ∀ v, found.get? v = s.get? v := by
  constructor
  · intro a htidy
    obtain ⟨found, hfound, hrestricts⟩ := recovers_unify_apply hs himage htidy
    exact ⟨found, hfound, hrestricts.get?⟩
  · intro declared actual htidy hmentions hactual
    obtain ⟨hpairs, hany⟩ := hactual.pairs htidy
    obtain ⟨found, hfound, hrestricts⟩ := recovers_unifyPairs hs himage hpairs restricts_nothing
    have hget : ∀ v, found.get? v = s.get? v := by
      intro v
      rw [hrestricts.get?]
      by_cases hv : v ∈ vs
      · simp [hany v (hmentions v hv)]
      · have hnone : s.get? v = none := by
          by_contra h
          exact hv ((hs v).mp h)
        simp [hnone]
    exact ⟨found, infer_eq_ok_iff.mpr ⟨hfound, fun v hv => hget v ▸ (hs v).mpr hv⟩, hget⟩

/-- A function that takes an optional `A` and an object with a list of `B`, where its result is a union that holds `A`. -/
theorem unify_apply_function :
    let a : TypeVariable := ⟨"A", 0⟩
    let b : TypeVariable := ⟨"B", 1⟩
    let s : Substitution := ⟨[(a, .list .number), (b, .union [("Off", .null), ("On", .null)] none)]⟩
    let f : Ty := .function [] (.fixed [("x", .nullable (.var a)), ("y", .object [("key", .var a), ("rest", .list (.var b))])])
      (.union [("None", .null), ("Some", .var a)] none)
    (∀ v, s.get? v ≠ none ↔ v ∈ [a, b]) ∧ (∀ v type, s.get? v = some type → type.findable = true) ∧
      f.every Ty.tidy = true ∧
      (∃ found, unify [a, b] f (s.apply f) = .ok found ∧
        ∀ v, found.get? v = if f.mentions [v] then s.get? v else none) ∧
      ∃ found, infer [a, b] (.variadic ("f", f)) [s.apply f, s.apply f] = .ok found ∧ ∀ v, found.get? v = s.get? v := by
  intro a b s f
  have hs : ∀ v, s.get? v ≠ none ↔ v ∈ [a, b] := by
    intro v
    simp only [s, get?, find?, List.mem_cons, List.not_mem_nil, or_false]
    split <;> [skip; split] <;> simp_all [eq_comm]
  have himage : ∀ v type, s.get? v = some type → type.findable = true := by
    intro v type h
    rcases List.mem_cons.mp (mem_of_find? h) with h | h
    · cases h
      rfl
    · cases List.mem_singleton.mp h
      rfl
  have htidy : f.every Ty.tidy = true := by decide
  have hmentions : ∀ v ∈ [a, b], f.mentions [v] = true := by decide
  obtain ⟨hunify, hinfer⟩ := unify_apply hs himage
  refine ⟨hs, himage, htidy, hunify f htidy, hinfer (.variadic ("f", f)) _ htidy hmentions ⟨nofun, ?_⟩⟩
  simp

end Substitution

end Sable
