import Mathlib.Data.Set.Insert
import Sable.Proofs.Ty.Alike
import Sable.Proofs.Ty.Inferred

/-! Substitutions put together, and what that makes of inference.

Two substitutions can be put together if they have equal types for the variables that both of them map; the outcome maps
what one of them maps. Equality of types is an equivalence, so neither the order nor the number of times counts in which
substitutions are put together: inference comes to the union of what it finds at the single arguments. -/
namespace Sable

namespace Ty

theorem same_iff_alike {a b : Ty} : a.same b = true ↔ a.Alike Eq b := (alike_iff_same a fun _ _ => Iff.rfl).symm

theorem same_refl (a : Ty) : a.same a = true := same_iff_alike.mpr (.refl a fun _ => rfl)

theorem same_symm {a b : Ty} (h : a.same b = true) : b.same a = true := by
  have hba := (same_iff_alike.mp h).symm
  rw [Matching.converse_eq] at hba
  exact same_iff_alike.mpr hba

theorem same_trans {a b c : Ty} (h : a.same b = true) (h' : b.same c = true) : a.same c = true :=
  same_iff_alike.mpr (Alike.trans (S := Eq) (fun _ _ _ => Eq.trans) (same_iff_alike.mp h) (same_iff_alike.mp h'))

end Ty

namespace Substitution

variable {vs : List TypeVariable} {s t found : Substitution} {entries : List (TypeVariable × Ty)} {v : TypeVariable}

/-! ## Merging two substitutions -/

/-- No variable has two entries. -/
def Distinct (s : Substitution) : Prop := (s.entries.map Prod.fst).Nodup

/-- Equal types for the variables that both map. -/
def Agrees (s t : Substitution) : Prop := ∀ v a b, s.get? v = some a → t.get? v = some b → a.same b = true

theorem Agrees.refl (s : Substitution) : s.Agrees s := by
  intro v a b ha hb
  obtain rfl := Option.some.inj (ha.symm.trans hb)
  exact a.same_refl

theorem Agrees.symm (h : s.Agrees t) : t.Agrees s := fun v a b ha hb => Ty.same_symm (h v b a hb ha)

theorem find?_append (entries others : List (TypeVariable × Ty)) :
    find? v (entries ++ others) = (find? v entries).or (find? v others) := by
  induction entries with
  | nil => rfl
  | cons entry rest ih =>
      simp only [List.cons_append, find?, ih]
      split <;> rfl

theorem find?_of_mem {a : Ty} (hdistinct : (entries.map Prod.fst).Nodup) (h : (v, a) ∈ entries) :
    find? v entries = some a := by
  induction entries with
  | nil => cases h
  | cons entry rest ih =>
      obtain ⟨hnot, hrest⟩ := List.nodup_cons.mp hdistinct
      rw [find?]
      rcases List.mem_cons.mp h with rfl | h
      · exact if_pos rfl
      · have hne : entry.1 ≠ v := by
          rintro rfl
          exact hnot (List.mem_map.mpr ⟨_, h, rfl⟩)
        rw [if_neg hne, ih hrest h]

/-- Where no variable has two entries, they may be gone through in any order. -/
theorem find?_perm {others : List (TypeVariable × Ty)} (hdistinct : (entries.map Prod.fst).Nodup)
    (h : entries.Perm others) (v : TypeVariable) : find? v entries = find? v others := by
  have hdistinct' : (others.map Prod.fst).Nodup := (h.map Prod.fst).nodup_iff.mp hdistinct
  ext a
  exact ⟨fun ha => find?_of_mem hdistinct' (h.mem_iff.mp (mem_of_find? ha)),
    fun ha => find?_of_mem hdistinct (h.mem_iff.mpr (mem_of_find? ha))⟩

theorem get?_mergeEntries (h : s.mergeEntries entries = .ok found) (v : TypeVariable) :
    found.get? v = (s.get? v).or (find? v entries) := by
  induction entries generalizing s with
  | nil =>
      cases h
      simp [find?]
  | cons entry rest ih =>
      obtain ⟨w, b⟩ := entry
      simp only [mergeEntries] at h
      split at h
      · rename_i old hold
        split at h
        · rw [ih h, find?]
          by_cases hv : w = v
          · subst hv
            simp [hold]
          · rw [if_neg hv]
        · cases h
      · rename_i hnone
        rw [ih h, get?, find?_append, ← get?, find?, find?, find?]
        by_cases hv : w = v
        · subst hv
          simp [hnone]
        · simp [hv]

/-- What a merged substitution maps a variable to. -/
theorem get?_merge [EntryOrder] (ht : t.Distinct) (h : s.merge t = .ok found) (v : TypeVariable) :
    found.get? v = (s.get? v).or (t.get? v) := by
  rw [get?_mergeEntries h, ← find?_perm ht (EntryOrder.perm _).symm, ← get?]

theorem Distinct.mergeEntries (hs : s.Distinct) (h : s.mergeEntries entries = .ok found) : found.Distinct := by
  induction entries generalizing s with
  | nil =>
      cases h
      exact hs
  | cons entry rest ih =>
      obtain ⟨w, b⟩ := entry
      simp only [Substitution.mergeEntries] at h
      split at h
      · split at h
        · exact ih hs h
        · cases h
      · rename_i hnone
        refine ih ?_ h
        rw [Distinct, List.map_append, List.nodup_append]
        refine ⟨hs, List.pairwise_singleton _ w, fun v hv v' hv' => ?_⟩
        rintro rfl
        obtain rfl : v = w := List.mem_singleton.mp hv'
        obtain ⟨⟨v, a⟩, hmem, rfl⟩ := List.mem_map.mp hv
        rw [get?, find?_of_mem hs hmem] at hnone
        cases hnone

theorem exists_mergeEntries_iff (hentries : (entries.map Prod.fst).Nodup) :
    (∃ found, s.mergeEntries entries = .ok found) ↔
      ∀ entry ∈ entries, ∀ a, s.get? entry.1 = some a → a.same entry.2 = true := by
  induction entries generalizing s with
  | nil => simp [mergeEntries]
  | cons entry rest ih =>
      obtain ⟨w, b⟩ := entry
      obtain ⟨hnot, hrest⟩ := List.nodup_cons.mp hentries
      rw [List.forall_mem_cons, mergeEntries]
      cases hget : s.get? w with
      | some old =>
          simp only [Option.some.injEq, forall_eq']
          by_cases hsame : old.same b = true
          · simp only [BEq.beq, hsame, if_true, true_and]
            exact ih hrest
          · simp [BEq.beq, hsame]
      | none =>
          simp only [reduceCtorEq, false_implies, implies_true, true_and]
          rw [ih hrest]
          -- the entries that follow are for other variables than `w`
          refine forall₂_congr fun entry hentry => ?_
          have hne : w ≠ entry.1 := by
            rintro rfl
            exact hnot (List.mem_map.mpr ⟨entry, hentry, rfl⟩)
          rw [get?, find?_append, find?, if_neg hne, find?, Option.or_none, ← get?]

/-- Two substitutions can be merged if they agree. -/
theorem exists_merge_iff [EntryOrder] (ht : t.Distinct) : (∃ found, s.merge t = .ok found) ↔ s.Agrees t := by
  have hperm := EntryOrder.perm t.entries
  rw [merge, exists_mergeEntries_iff ((hperm.map Prod.fst).nodup_iff.mpr ht)]
  constructor
  · intro h v a b ha hb
    exact h (v, b) (hperm.mem_iff.mpr (mem_of_find? hb)) a ha
  · rintro h ⟨v, b⟩ hmem a ha
    exact h v a b ha (find?_of_mem ht (hperm.mem_iff.mp hmem))

theorem gathers_distinct [EntryOrder] (vs : List TypeVariable) : Gathers vs (fun _ => True) Distinct where
  empty := List.nodup_nil
  single _ _ := List.pairwise_singleton _ _
  merge hs _ h := hs.mergeEntries h

theorem distinct_of_unify [EntryOrder] {a b : Ty} (h : unify vs a b = .ok s) : s.Distinct :=
  (gathers_distinct vs).unify Ty.hereditary_true trivial h

/-! ## Unions -/

/-- The substitution maps what one of the parts maps, and has for it the type of one of them, to which those of the
others are equal. -/
structure IsUnion (parts : Set Substitution) (s : Substitution) : Prop where
  exists_part : ∀ v a, s.get? v = some a → ∃ t ∈ parts, t.get? v = some a
  covers : ∀ t ∈ parts, ∀ v b, t.get? v = some b → ∃ a, s.get? v = some a ∧ a.same b = true

/-- The same variables are mapped, to equal types. -/
def Like (s t : Substitution) : Prop := ∀ v, Option.Rel (fun a b => a.same b = true) (s.get? v) (t.get? v)

section

variable {parts : Set Substitution}

theorem isUnion_empty : IsUnion ∅ empty := ⟨nofun, nofun⟩

theorem IsUnion.agrees_iff (h : s.IsUnion parts) : s.Agrees t ↔ ∀ u ∈ parts, u.Agrees t := by
  constructor
  · intro hst u hu v b c hb hc
    obtain ⟨a, ha, hab⟩ := h.covers u hu v b hb
    exact Ty.same_trans (Ty.same_symm hab) (hst v a c ha hc)
  · intro hparts v a c ha hc
    obtain ⟨u, hu, hget⟩ := h.exists_part v a ha
    exact hparts u hu v a c hget hc

theorem IsUnion.merge [EntryOrder] (h : s.IsUnion parts) (ht : t.Distinct) (hfound : s.merge t = .ok found) :
    found.IsUnion (insert t parts) := by
  have hst : s.Agrees t := (exists_merge_iff ht).mp ⟨found, hfound⟩
  constructor
  · intro v a ha
    rw [get?_merge ht hfound, Option.or_eq_some_iff] at ha
    rcases ha with ha | ⟨-, ha⟩
    · obtain ⟨u, hu, hget⟩ := h.exists_part v a ha
      exact ⟨u, .inr hu, hget⟩
    · exact ⟨t, .inl rfl, ha⟩
  · rintro u hu v b hb
    rw [get?_merge ht hfound]
    cases hs : s.get? v with
    | some a =>
        refine ⟨a, rfl, ?_⟩
        rcases hu with rfl | hu
        · exact hst v a b hs hb
        · obtain ⟨a', ha', hsame⟩ := h.covers u hu v b hb
          obtain rfl := Option.some.inj (hs.symm.trans ha')
          exact hsame
    | none =>
        rcases hu with rfl | hu
        · exact ⟨b, hb, b.same_refl⟩
        · obtain ⟨a, ha, -⟩ := h.covers u hu v b hb
          cases hs.symm.trans ha

/-- Two unions of the same parts are alike. -/
theorem IsUnion.like (hs : s.IsUnion parts) (ht : t.IsUnion parts) : s.Like t := by
  intro v
  cases ha : s.get? v with
  | some a =>
      obtain ⟨u, hu, hget⟩ := hs.exists_part v a ha
      obtain ⟨b, hb, hsame⟩ := ht.covers u hu v a hget
      rw [hb]
      exact .some (Ty.same_symm hsame)
  | none =>
      cases hb : t.get? v with
      | none => exact .none
      | some b =>
          obtain ⟨u, hu, hget⟩ := ht.exists_part v b hb
          obtain ⟨a, ha', -⟩ := hs.covers u hu v b hget
          cases ha.symm.trans ha'

end

/-! ## Pairs of types laid over each other -/

variable [EntryOrder]

/-- What is found where the types of a pair are laid over each other. -/
def findingsOf (vs : List TypeVariable) (pairs : List (Ty × Ty)) : Set Substitution :=
  {s | ∃ pair ∈ pairs, unify vs pair.1 pair.2 = .ok s}

theorem findingsOf_cons {pair : Ty × Ty} {rest : List (Ty × Ty)} (h : unify vs pair.1 pair.2 = .ok t) :
    findingsOf vs (pair :: rest) = insert t (findingsOf vs rest) := by
  ext s
  simp only [findingsOf, Set.mem_ofPred_eq, Set.mem_insert_iff, List.mem_cons, or_and_right, exists_or, exists_eq_left,
    h, Except.ok.injEq, @eq_comm _ t s]

variable {pairs : List (Ty × Ty)} {parts : Set Substitution}

theorem isUnion_unifyPairs (hfound : found.IsUnion parts) (h : unifyPairs vs found pairs = .ok s) :
    s.IsUnion (parts ∪ findingsOf vs pairs) := by
  induction pairs generalizing found parts with
  | nil =>
      cases h
      simpa [findingsOf] using hfound
  | cons pair rest ih =>
      obtain ⟨t, merged, ht, hmerged, h⟩ := bind_merge_eq_ok.mp h
      have hunion := ih (hfound.merge (distinct_of_unify ht) hmerged) h
      rwa [findingsOf_cons ht, Set.union_insert, ← Set.insert_union]

theorem exists_unifyPairs_iff (hfound : found.IsUnion parts) (hparts : ∀ s ∈ parts, ∀ t ∈ parts, s.Agrees t) :
    (∃ s, unifyPairs vs found pairs = .ok s) ↔
      (∀ pair ∈ pairs, ∃ t, unify vs pair.1 pair.2 = .ok t) ∧
        ∀ s ∈ parts ∪ findingsOf vs pairs, ∀ t ∈ parts ∪ findingsOf vs pairs, s.Agrees t := by
  induction pairs generalizing found parts with
  | nil => simpa [unifyPairs, findingsOf] using hparts
  | cons pair rest ih =>
      -- what is found at the first pair is one more part
      have hstep : ∀ t, unify vs pair.1 pair.2 = .ok t → ∀ merged, found.merge t = .ok merged →
          ((∃ s, unifyPairs vs merged rest = .ok s) ↔ (∀ pair ∈ rest, ∃ t, unify vs pair.1 pair.2 = .ok t) ∧
            ∀ s ∈ parts ∪ findingsOf vs (pair :: rest), ∀ t ∈ parts ∪ findingsOf vs (pair :: rest), s.Agrees t) := by
        intro t ht merged hmerged
        have hdistinct := distinct_of_unify ht
        have hagrees := hfound.agrees_iff.mp ((exists_merge_iff hdistinct).mp ⟨merged, hmerged⟩)
        rw [ih (hfound.merge hdistinct hmerged), findingsOf_cons ht, Set.union_insert, ← Set.insert_union]
        rintro s (rfl | hs) u (rfl | hu)
        · exact .refl _
        · exact (hagrees u hu).symm
        · exact hagrees s hs
        · exact hparts s hs u hu
      simp only [unifyPairs, bind_merge_eq_ok]
      rw [List.forall_mem_cons]
      constructor
      · rintro ⟨s, t, merged, ht, hmerged, h⟩
        obtain ⟨hrest, hall⟩ := (hstep t ht merged hmerged).mp ⟨s, h⟩
        exact ⟨⟨⟨t, ht⟩, hrest⟩, hall⟩
      · rintro ⟨⟨⟨t, ht⟩, hrest⟩, hall⟩
        have hagrees : found.Agrees t := hfound.agrees_iff.mpr fun u hu =>
          hall u (.inl hu) t (.inr (findingsOf_cons ht ▸ Set.mem_insert t _))
        obtain ⟨merged, hmerged⟩ := (exists_merge_iff (distinct_of_unify ht)).mpr hagrees
        obtain ⟨s, h⟩ := (hstep t ht merged hmerged).mpr ⟨hrest, hall⟩
        exact ⟨s, t, merged, ht, hmerged, h⟩

/-! ## Inference -/

/-- What is found at the single arguments of a call, each laid under the parameter that takes it. -/
def findings (vs : List TypeVariable) (declared : Parameters) (actual : List Ty) : Set Substitution :=
  {s | ∃ i q b, declared.get? i = some q ∧ actual[i]? = some b ∧ unify vs q.2 b = .ok s}

omit [EntryOrder] in
theorem mem_argumentPairs_iff {declared : Parameters} {actual : List Ty} {pair : Ty × Ty} :
    pair ∈ argumentPairs declared actual ↔
      ∃ i q, declared.get? i = some q ∧ q.2 = pair.1 ∧ actual[i]? = some pair.2 := by
  cases declared with
  | fixed ps =>
      simp only [argumentPairs, ParameterList.get?, List.mem_iff_getElem?, List.getElem?_zip_eq_some, List.getElem?_map,
        Option.map_eq_some_iff, ← exists_and_right, and_assoc]
  | variadic q =>
      rw [argumentPairs, List.mem_map]
      constructor
      · rintro ⟨b, hb, rfl⟩
        obtain ⟨i, hi⟩ := List.mem_iff_getElem?.mp hb
        exact ⟨i, q, rfl, rfl, hi⟩
      · rintro ⟨i, q', hq, ha, hi⟩
        obtain rfl := Option.some.inj hq
        exact ⟨pair.2, List.mem_of_getElem? hi, Prod.ext ha rfl⟩

theorem findings_eq (vs : List TypeVariable) (declared : Parameters) (actual : List Ty) :
    findings vs declared actual = findingsOf vs (argumentPairs declared actual) := by
  ext s
  simp only [findings, findingsOf, Set.mem_ofPred_eq, mem_argumentPairs_iff]
  constructor
  · rintro ⟨i, q, b, hq, hb, h⟩
    exact ⟨(q.2, b), ⟨i, q, hq, rfl, hb⟩, h⟩
  · rintro ⟨⟨a, b⟩, ⟨i, q, hq, rfl, hb⟩, h⟩
    exact ⟨i, q, b, hq, hb, h⟩

theorem infer_eq_ok_iff {declared : Parameters} {actual : List Ty} :
    infer vs declared actual = .ok found ↔
      unifyPairs vs empty (argumentPairs declared actual) = .ok found ∧ ∀ v ∈ vs, found.get? v ≠ none := by
  rw [infer]
  cases unifyPairs vs empty (argumentPairs declared actual) with
  | error e => simp [Bind.bind, Except.bind]
  | ok s =>
      simp only [Bind.bind, Except.bind, Except.ok.injEq]
      cases hfind : vs.find? fun v => (s.get? v).isNone with
      | some v =>
          have hnone := List.find?_some hfind
          have hmem := List.mem_of_find?_eq_some hfind
          simp only [reduceCtorEq, false_iff]
          rintro ⟨rfl, hall⟩
          exact hall v hmem (Option.isNone_iff_eq_none.mp hnone)
      | none =>
          rw [List.find?_eq_none] at hfind
          simp only [pure, Except.pure, Except.ok.injEq]
          refine ⟨fun h => ⟨h, fun v hv hnone => ?_⟩, And.left⟩
          subst h
          exact hfind v hv (Option.isNone_iff_eq_none.mpr hnone)

/-- Both fail, or they come to substitutions that are alike. -/
def LikeOutcome : Except InferenceError Substitution → Except InferenceError Substitution → Prop
  | .ok s, .ok t => s.Like t
  | .error _, .error _ => True
  | _, _ => False

omit [EntryOrder] in
theorem likeOutcome_of_iff {r r' : Except InferenceError Substitution}
    (hiff : (∃ s, r = .ok s) ↔ ∃ t, r' = .ok t) (hlike : ∀ s t, r = .ok s → r' = .ok t → s.Like t) : LikeOutcome r r' := by
  cases r with
  | error e =>
      cases r' with
      | error e' => trivial
      | ok t => exact absurd (hiff.mpr ⟨t, rfl⟩) nofun
  | ok s =>
      cases r' with
      | error e' => exact absurd (hiff.mp ⟨s, rfl⟩) nofun
      | ok t => exact hlike s t rfl rfl

section

variable {declared : Parameters} {actual : List Ty}

/-- What is found at all the arguments of a call. -/
theorem isUnion_infer (h : infer vs declared actual = .ok found) :
    found.IsUnion (findingsOf vs (argumentPairs declared actual)) := by
  have hunion := isUnion_unifyPairs isUnion_empty (infer_eq_ok_iff.mp h).1
  rwa [Set.empty_union] at hunion

theorem exists_infer_iff : (∃ found, infer vs declared actual = .ok found) ↔
    (∀ pair ∈ argumentPairs declared actual, ∃ s, unify vs pair.1 pair.2 = .ok s) ∧
      (∀ s ∈ findingsOf vs (argumentPairs declared actual), ∀ t ∈ findingsOf vs (argumentPairs declared actual),
        s.Agrees t) ∧
      ∀ v ∈ vs, ∃ s ∈ findingsOf vs (argumentPairs declared actual), s.get? v ≠ none := by
  have hunify := @exists_unifyPairs_iff vs empty _ (argumentPairs declared actual) ∅ isUnion_empty nofun
  rw [Set.empty_union] at hunify
  rw [← and_assoc, ← hunify]
  constructor
  · rintro ⟨found, h⟩
    obtain ⟨hfound, hvs⟩ := infer_eq_ok_iff.mp h
    refine ⟨⟨found, hfound⟩, fun v hv => ?_⟩
    obtain ⟨a, ha⟩ := Option.ne_none_iff_exists'.mp (hvs v hv)
    obtain ⟨s, hs, hget⟩ := (isUnion_infer h).exists_part v a ha
    exact ⟨s, hs, hget ▸ nofun⟩
  · rintro ⟨⟨found, hfound⟩, hvs⟩
    have hunion := isUnion_unifyPairs isUnion_empty hfound
    rw [Set.empty_union] at hunion
    refine ⟨found, infer_eq_ok_iff.mpr ⟨hfound, fun v hv hnone => ?_⟩⟩
    obtain ⟨s, hs, hget⟩ := hvs v hv
    obtain ⟨b, hb⟩ := Option.ne_none_iff_exists'.mp hget
    obtain ⟨a, ha, -⟩ := hunion.covers s hs v b hb
    cases hnone.symm.trans ha

/-- Calls in which the same types are laid over each other infer alike. -/
theorem likeOutcome_infer {declared' : Parameters} {actual' : List Ty}
    (h : ∀ pair, pair ∈ argumentPairs declared actual ↔ pair ∈ argumentPairs declared' actual') :
    LikeOutcome (infer vs declared actual) (infer vs declared' actual') := by
  have hfindings : findingsOf vs (argumentPairs declared actual) = findingsOf vs (argumentPairs declared' actual') := by
    simp only [findingsOf, h]
  refine likeOutcome_of_iff ?_ fun s t hs ht => ?_
  · rw [exists_infer_iff, exists_infer_iff, hfindings]
    simp only [h]
  · exact (hfindings ▸ isUnion_infer hs).like (isUnion_infer ht)

/-- Inference succeeds if it does at each argument by itself, if no variable is found there as two different types, and
if every variable is found. It comes to the union of what is found. Only the pairs of types count for that: in what
order they stand, or how often each of them does, makes no difference. -/
theorem infer_order_irrelevant (vs : List TypeVariable) (declared : Parameters) (actual : List Ty) :
    ((∃ found, infer vs declared actual = .ok found) ↔
      (∀ i q b, declared.get? i = some q → actual[i]? = some b → ∃ s, unify vs q.2 b = .ok s) ∧
        (∀ s ∈ findings vs declared actual, ∀ t ∈ findings vs declared actual, s.Agrees t) ∧
        ∀ v ∈ vs, ∃ s ∈ findings vs declared actual, s.get? v ≠ none) ∧
      (∀ found, infer vs declared actual = .ok found → found.IsUnion (findings vs declared actual)) ∧
      ∀ (ps qs : List (String × Ty)) (as bs : List Ty),
        (∀ pair, pair ∈ (ps.map Prod.snd).zip as ↔ pair ∈ (qs.map Prod.snd).zip bs) →
        LikeOutcome (infer vs (.fixed ps) as) (infer vs (.fixed qs) bs) := by
  have hpairs : (∀ pair ∈ argumentPairs declared actual, ∃ t, unify vs pair.1 pair.2 = .ok t) ↔
      ∀ i q b, declared.get? i = some q → actual[i]? = some b → ∃ s, unify vs q.2 b = .ok s := by
    constructor
    · intro h i q b hq hb
      exact h (q.2, b) (mem_argumentPairs_iff.mpr ⟨i, q, hq, rfl, hb⟩)
    · intro h pair hpair
      obtain ⟨i, q, hq, ha, hb⟩ := mem_argumentPairs_iff.mp hpair
      exact ha ▸ h i q pair.2 hq hb
  refine ⟨?_, fun found h => ?_, fun ps qs as bs h => likeOutcome_infer h⟩
  · rw [exists_infer_iff, hpairs, findings_eq]
  · rw [findings_eq]
    exact isUnion_infer h

end

end Substitution

end Sable
