import Mathlib.Data.List.Rotate
import Sable.Proofs.Ty.Composed

/-! Orders of entries, and what inference owes to them.

In whichever order the entries of substitutions are gone through, inference finds the same, or it fails at the same
place. Only where two substitutions are put together that have different types for several variables does the order
show: it decides which of these variables the error names, and it may be any of them. -/
namespace Sable

/-! ## Results in parallel -/

/-- Both succeed, with results that `R` relates, or both fail, with errors that `E` relates. -/
inductive Parallel {ε α : Type} (E : ε → ε → Prop) (R : α → α → Prop) : Except ε α → Except ε α → Prop
  | ok {a b : α} (h : R a b) : Parallel E R (.ok a) (.ok b)
  | error {e e' : ε} (h : E e e') : Parallel E R (.error e) (.error e')

theorem Parallel.bind {ε α β : Type} {E : ε → ε → Prop} {R : α → α → Prop} {Q : β → β → Prop} {c c' : Except ε α}
    {f f' : α → Except ε β} (hc : Parallel E R c c') (hf : ∀ a b, R a b → Parallel E Q (f a) (f' b)) :
    Parallel E Q (c >>= f) (c' >>= f') := by
  cases hc with
  | ok h => exact hf _ _ h
  | error h => exact .error h

/-- The order in which entries were put in, begun with the `n`-th of them and ended with the one before. -/
abbrev EntryOrder.rotated (n : Nat) : EntryOrder := ⟨(·.rotate n), (·.rotate_perm n)⟩

namespace Substitution

variable {vs : List TypeVariable} {s s' t t' : Substitution} {e : InferenceError}

/-! ## Conflicts -/

/-- The error names a variable for which the substitutions have different types. -/
def Conflict (s t : Substitution) (e : InferenceError) : Prop :=
  ∃ v a b, s.get? v = some a ∧ t.get? v = some b ∧ a.same b = false ∧ e = .ambiguous v.name a b

theorem exists_conflict_of_mergeEntries {entries : List (TypeVariable × Ty)} (hentries : (entries.map Prod.fst).Nodup)
    (h : s.mergeEntries entries = .error e) : ∃ v a b, s.get? v = some a ∧ (v, b) ∈ entries ∧ a.same b = false ∧
      e = .ambiguous v.name a b := by
  induction entries generalizing s with
  | nil => cases h
  | cons entry rest ih =>
      obtain ⟨w, b⟩ := entry
      obtain ⟨hnot, hrest⟩ := List.nodup_cons.mp hentries
      rw [mergeEntries] at h
      cases hget : s.get? w with
      | some old =>
          cases hsame : old.same b with
          | false =>
              simp only [hget, BEq.beq, hsame, Bool.false_eq_true, if_false, Except.error.injEq] at h
              exact ⟨w, old, b, hget, List.mem_cons_self, hsame, h.symm⟩
          | true =>
              simp only [hget, BEq.beq, hsame, if_true] at h
              obtain ⟨v, a, c, hv, hmem, hne, he⟩ := ih hrest h
              exact ⟨v, a, c, hv, List.mem_cons_of_mem _ hmem, hne, he⟩
      | none =>
          simp only [hget] at h
          obtain ⟨v, a, c, hv, hmem, hne, he⟩ := ih hrest h
          -- the entry that was added is for another variable than those that follow
          have hvw : w ≠ v := by
            rintro rfl
            exact hnot (List.mem_map.mpr ⟨_, hmem, rfl⟩)
          rw [get?, find?_append, find?, if_neg hvw, find?, Option.or_none] at hv
          exact ⟨v, a, c, hv, List.mem_cons_of_mem _ hmem, hne, he⟩

/-- A merge that fails has found a conflict. -/
theorem conflict_of_merge [EntryOrder] (ht : t.Distinct) (h : s.merge t = .error e) : s.Conflict t e := by
  have hperm := EntryOrder.perm t.entries
  have hdistinct := (hperm.map Prod.fst).nodup_iff.mpr ht
  obtain ⟨v, a, b, ha, hb, hne, he⟩ := exists_conflict_of_mergeEntries hdistinct h
  exact ⟨v, a, b, ha, find?_of_mem ht (hperm.mem_iff.mp hb), hne, he⟩

/-- Each conflict is found first in some order. -/
theorem exists_merge_of_conflict (h : s.Conflict t e) : ∃ order, @merge order s t = .error e := by
  obtain ⟨v, a, b, ha, hb, hne, rfl⟩ := h
  obtain ⟨n, hn, hget⟩ := List.getElem_of_mem (mem_of_find? hb)
  refine ⟨.rotated n, ?_⟩
  have hwalk : t.entries.rotate n = (v, b) :: (t.entries.drop (n + 1) ++ t.entries.take n) := by
    rw [List.rotate_eq_drop_append_take hn.le, List.drop_eq_getElem_cons hn, hget, List.cons_append]
  have hmerge : @merge (.rotated n) s t = s.mergeEntries (t.entries.rotate n) := rfl
  rw [hmerge, hwalk, mergeEntries, ha]
  simp [BEq.beq, hne]

/-! ## Two orders -/

/-- No variable has two entries in either, and each has the same type in both. -/
structure Coincides (s t : Substitution) : Prop where
  left : s.Distinct
  right : t.Distinct
  get? : ∀ v, s.get? v = t.get? v

/-- The same error, or two conflicts of one merge. -/
def Alternative (e e' : InferenceError) : Prop := e = e' ∨ ∃ s t, Conflict s t e ∧ Conflict s t e'

theorem Coincides.refl (h : s.Distinct) : s.Coincides s := ⟨h, h, fun _ => rfl⟩

theorem coincides_empty : empty.Coincides empty := .refl List.nodup_nil

theorem Coincides.conflict_iff (hs : s.Coincides s') (ht : t.Coincides t') : s.Conflict t e ↔ s'.Conflict t' e := by
  simp only [Conflict, hs.get?, ht.get?]

theorem Coincides.agrees_iff (hs : s.Coincides s') (ht : t.Coincides t') : s.Agrees t ↔ s'.Agrees t' := by
  simp only [Agrees, hs.get?, ht.get?]

/-- What inference comes to in two orders. -/
abbrev Corresponds : Except InferenceError Substitution → Except InferenceError Substitution → Prop :=
  Parallel Alternative Coincides

theorem corresponds_error (e : InferenceError) : Corresponds (.error e) (.error e) := .error (.inl rfl)

theorem corresponds_empty : Corresponds (.ok empty) (.ok empty) := .ok coincides_empty

variable {order order' : EntryOrder}

theorem corresponds_merge (hs : s.Coincides s') (ht : t.Coincides t') :
    Corresponds (@merge order s t) (@merge order' s' t') := by
  have hiff : (∃ found, @merge order s t = .ok found) ↔ ∃ found, @merge order' s' t' = .ok found :=
    (@exists_merge_iff s t order ht.left).trans
      ((hs.agrees_iff ht).trans (@exists_merge_iff s' t' order' ht.right).symm)
  cases hown : @merge order s t with
  | ok found =>
      obtain ⟨found', hother⟩ := hiff.mp ⟨found, hown⟩
      rw [hother]
      refine .ok ⟨hs.left.mergeEntries hown, hs.right.mergeEntries hother, fun v => ?_⟩
      rw [@get?_merge s t found order ht.left hown, @get?_merge s' t' found' order' ht.right hother, hs.get?, ht.get?]
  | error e =>
      cases hother : @merge order' s' t' with
      | ok found' => exact absurd (hiff.mpr ⟨found', hother⟩) (by rw [hown]; nofun)
      | error e' =>
          have hconflict := (hs.conflict_iff ht).mp (@conflict_of_merge s t e order ht.left hown)
          exact .error (.inr ⟨s', t', hconflict, conflict_of_merge ht.right hother⟩)

/-- What is found, together with what is found next. -/
theorem Coincides.step (hs : s.Coincides s') {c c' : Except InferenceError Substitution}
    {rest rest' : Substitution → Except InferenceError Substitution} (hc : Corresponds c c')
    (hrest : ∀ t t', t.Coincides t' → Corresponds (rest t) (rest' t')) :
    Corresponds (do rest (← @merge order s (← c))) (do rest' (← @merge order' s' (← c'))) :=
  hc.bind fun _ _ ht => (corresponds_merge hs ht).bind hrest

theorem corresponds_unifyEach {laid laid' : Ty → Except InferenceError Substitution} (types : List Ty)
    (hlaid : ∀ b ∈ types, Corresponds (laid b) (laid' b)) (hs : s.Coincides s') :
    Corresponds (@unifyEach order laid s types) (@unifyEach order' laid' s' types) := by
  induction types generalizing s s' with
  | nil => exact .ok hs
  | cons b rest ih =>
      obtain ⟨hb, hrest⟩ := List.forall_mem_cons.mp hlaid
      exact hs.step hb fun _ _ => ih hrest

mutual

theorem corresponds_unify : ∀ a b : Ty, Corresponds (@unify order vs a b) (@unify order' vs a b)
  | .number, b | .boolean, b | .bigInteger, b | .null, b => by
      simp only [unify, Ty.mentions, Bool.false_eq_true, if_false]
      exact corresponds_empty
  | .var v, b => by
      unfold unify
      split
      · exact .ok (.refl (List.pairwise_singleton _ _))
      · exact corresponds_empty
  | .list a, b | .sequence a, b => by
      unfold unify
      split
      · cases b <;> first | exact corresponds_unify a _ | exact corresponds_error _
      · exact corresponds_empty
  | .nullable a, b => by
      have hself := corresponds_unify a b
      unfold unify
      split
      · cases b with
        | null => exact corresponds_empty
        | nullable b => exact corresponds_unify a b
        | _ => exact hself
      · exact corresponds_empty
  | .tagged a tag, b => by
      unfold unify
      split
      · cases b with
        | tagged b tag' =>
            simp only
            split
            · exact corresponds_unify a b
            · exact corresponds_error _
        | _ => exact corresponds_error _
      · exact corresponds_empty
  | .object fields, b => by
      unfold unify
      split
      · cases b <;> first
          | exact corresponds_unifyFields fields _ _ coincides_empty
          | exact corresponds_error _
      · exact corresponds_empty
  | .union fields _, b => by
      unfold unify
      split
      · cases b <;> first
          | exact corresponds_unifyFields fields _ _ coincides_empty
          | exact corresponds_unifyAlternative fields _ _ _
          | exact corresponds_error _
      · exact corresponds_empty
  | .function ws ps a, b => by
      unfold unify
      split
      · cases b with
        | function _ qs b =>
            refine (corresponds_unifyParameters ps qs).bind fun _ _ hs => ?_
            exact (corresponds_unify a b).bind fun _ _ ht => corresponds_merge hs ht
        | _ => exact corresponds_error _
      · exact corresponds_empty
termination_by structural a => a

theorem corresponds_unifyFields : ∀ (fields : List (String × Ty)) (missing : InferenceError) (actual : Fields Ty)
    {s s' : Substitution}, s.Coincides s' →
      Corresponds (@unifyFields order vs missing actual s fields) (@unifyFields order' vs missing actual s' fields)
  | [], _, _, _, _, hs => .ok hs
  | (name, a) :: rest, missing, actual, _, _, hs => by
      simp only [unifyFields]
      cases Fields.get? name actual with
      | none => exact corresponds_error _
      | some b => exact hs.step (corresponds_unify a b) fun _ _ => corresponds_unifyFields rest missing actual
termination_by structural fields => fields

theorem corresponds_unifyAlternative : ∀ (fields : List (String × Ty)) (missing : InferenceError) (tag : String)
    (payload : Ty), Corresponds (@unifyAlternative order vs missing tag payload fields)
      (@unifyAlternative order' vs missing tag payload fields)
  | [], _, _, _ => corresponds_error _
  | (name, a) :: rest, missing, tag, payload => by
      simp only [unifyAlternative]
      split
      · exact corresponds_unify a payload
      · exact corresponds_unifyAlternative rest missing tag payload
termination_by structural fields => fields

theorem corresponds_unifyParameters : ∀ ps qs : ParameterList (String × Ty),
    Corresponds (@unifyParameters order vs ps qs) (@unifyParameters order' vs ps qs)
  | .fixed ps, .fixed _ => corresponds_unifyZip ps _ coincides_empty
  | .fixed ps, .variadic (_, b) => corresponds_unifyOver ps b coincides_empty
  | .variadic (_, a), .fixed _ =>
      corresponds_unifyEach _ (fun b _ => corresponds_unify a b) coincides_empty
  | .variadic (_, a), .variadic (_, b) =>
      corresponds_unifyEach [b] (fun b _ => corresponds_unify a b) coincides_empty
termination_by structural ps => ps

theorem corresponds_unifyZip : ∀ (ps : List (String × Ty)) (types : List Ty) {s s' : Substitution}, s.Coincides s' →
    Corresponds (@unifyZip order vs s ps types) (@unifyZip order' vs s' ps types)
  | [], _, _, _, hs => .ok hs
  | (_, a) :: rest, types, _, _, hs => by
      cases types with
      | nil => exact .ok hs
      | cons b others => exact hs.step (corresponds_unify a b) fun _ _ => corresponds_unifyZip rest others
termination_by structural ps => ps

theorem corresponds_unifyOver : ∀ (ps : List (String × Ty)) (b : Ty) {s s' : Substitution}, s.Coincides s' →
    Corresponds (@unifyOver order vs b s ps) (@unifyOver order' vs b s' ps)
  | [], _, _, _, hs => .ok hs
  | (_, a) :: rest, b, _, _, hs => hs.step (corresponds_unify a b) fun _ _ => corresponds_unifyOver rest b
termination_by structural ps => ps

end

theorem corresponds_unifyPairs (pairs : List (Ty × Ty)) (hs : s.Coincides s') :
    Corresponds (@unifyPairs order vs s pairs) (@unifyPairs order' vs s' pairs) := by
  induction pairs generalizing s s' with
  | nil => exact .ok hs
  | cons pair rest ih => exact hs.step (corresponds_unify pair.1 pair.2) fun _ _ => ih

/-- Whichever the order, a call has the same type arguments, or they cannot be inferred for the same reason, but for
the choice between the conflicts of one merge. -/
theorem corresponds_infer (declared : Parameters) (actual : List Ty) :
    Corresponds (@infer order vs declared actual) (@infer order' vs declared actual) := by
  refine (corresponds_unifyPairs (argumentPairs declared actual) coincides_empty).bind fun s t hst => ?_
  simp only [hst.get?]
  cases vs.find? fun v => (t.get? v).isNone with
  | some v => exact corresponds_error _
  | none => exact .ok hst

end Substitution

end Sable
