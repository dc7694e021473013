import Sable.Proofs.Ty.Closed
import Sable.Proofs.Ty.Fits

/-! What the decision procedure decides.

To compare generic function types, assignability puts the variables that the one binds in the place of
those the other binds. A variable that is bound once more below, or that occurs free where it is put,
would be captured; and an optional type that comes to lie in an optional type would be merged with it.
Where nothing of that kind happens the procedure decides `Fits`. -/
namespace Sable.Ty

open Matching

/-- The substitution that renames the variables `ws` to `vs`. -/
def renamed (vs ws : List TypeVariable) : Substitution := .ofList (ws.zip (vs.map .var))

/-- Renaming leaves the parameters and the result of a function type as they are, but for the names. -/
def RenamesWell (vs ws : List TypeVariable) (qs : Parameters) (wanted : Ty) : Prop :=
  AlikeParameters (bind (ws.zip vs) Eq) qs ((renamed vs ws).applyParameters qs) ∧
    wanted.Alike (bind (ws.zip vs) Eq) ((renamed vs ws).apply wanted)

/-- The questions about parts that a question about two unequal types may lead to. -/
inductive Asks : Ty → Ty → Ty → Ty → Prop
  | tagged {payload b : Ty} {tag : String} {alternatives : Fields Ty} {narrowed : Option String}
      (hget : Fields.get? tag alternatives = some b) :
      Asks (tagged payload tag) (union alternatives narrowed) payload b
  | nullable {a b : Ty} : Asks (nullable a) (nullable b) a b
  | orNull {a b : Ty} (hplain : a.Plain) : Asks a (nullable b) a b
  | parameter {vs ws : List TypeVariable} {ps qs : Parameters} {a b : Ty} {i : Nat}
      {p q : String × Ty} (hlength : vs.length = ws.length) (hp : ps.get? i = some p)
      (hq : ((renamed vs ws).applyParameters qs).get? i = some q) :
      Asks (function vs ps a) (function ws qs b) q.2 p.2

/-- The questions that deciding on `own` and `required` may come to. -/
inductive Question (own required : Ty) : Ty → Ty → Prop
  | start : Question own required own required
  | step {a b a' b' : Ty} (h : Question own required a b) (hne : a.same b = false)
      (hasks : Asks a b a' b') : Question own required a' b'

/-- Deciding whether `own` is assignable to `required` renames well throughout. -/
def CapturesNothing (own required : Ty) : Prop :=
  ∀ (vs ws : List TypeVariable) (ps qs : Parameters) (a b : Ty),
    Question own required (function vs ps a) (function ws qs b) →
    (function vs ps a).same (function ws qs b) = false → vs.length = ws.length →
    RenamesWell vs ws qs b

theorem Question.trans {a b c d e f : Ty} (h : Question a b c d) (h' : Question c d e f) :
    Question a b e f := by
  induction h' with
  | start => exact h
  | step _ hne hasks ih => exact ih.step hne hasks

theorem CapturesNothing.asks {a b a' b' : Ty} (h : CapturesNothing a b) (hne : a.same b = false)
    (hasks : Asks a b a' b') : CapturesNothing a' b' :=
  fun _ _ _ _ _ _ hquestion => h _ _ _ _ _ _ ((Question.start.step hne hasks).trans hquestion)

/-! ## Types without generic functions -/

/-- Not a function type with variables of its own. -/
def bindsNothing : Ty → Bool
  | function vs _ _ => vs.isEmpty
  | _ => true

theorem bindsNothing_of_monomorphic (a : Ty) (h : monomorphic a = true) : bindsNothing a = true := by
  cases a <;> simp_all [monomorphic, bindsNothing]

section

variable {f : Ty → Bool} (hf : ∀ a, f a = true → bindsNothing a = true)
include hf

theorem Asks.every {a b a' b' : Ty} (h : Asks a b a' b') (ha : a.every f = true)
    (hb : b.every f = true) : a'.every f = true ∧ b'.every f = true := by
  cases h with
  | tagged hget =>
      simp only [Ty.every, Bool.and_eq_true] at ha hb
      exact ⟨ha.2, every_of_field hb.2 hget⟩
  | nullable =>
      simp only [Ty.every, Bool.and_eq_true] at ha hb
      exact ⟨ha.2, hb.2⟩
  | orNull =>
      simp only [Ty.every, Bool.and_eq_true] at hb
      exact ⟨ha, hb.2⟩
  | parameter hlength hp hq =>
      have hvs := hf _ (every_root ha)
      have hws := hf _ (every_root hb)
      simp only [bindsNothing, List.isEmpty_iff] at hvs hws
      subst hvs hws
      simp only [Ty.every, Bool.and_eq_true] at ha hb
      exact ⟨every_of_parameter hb.1.2 hq, every_of_parameter ha.1.2 hp⟩

theorem Question.every {a b a' b' : Ty} (h : Question a b a' b') (ha : a.every f = true)
    (hb : b.every f = true) : a'.every f = true ∧ b'.every f = true := by
  induction h with
  | start => exact ⟨ha, hb⟩
  | step _ _ hasks ih => exact hasks.every hf ih.1 ih.2

/-- Where no function type has variables of its own there is nothing to rename. -/
theorem capturesNothing_of_every {a b : Ty} (ha : a.every f = true) (hb : b.every f = true) :
    CapturesNothing a b := by
  intro vs ws ps qs r r' hquestion _ _
  obtain ⟨hown, hrequired⟩ := hquestion.every hf ha hb
  have hvs := hf _ (every_root hown)
  have hws := hf _ (every_root hrequired)
  simp only [bindsNothing, List.isEmpty_iff] at hvs hws
  subst hvs hws
  exact ⟨AlikeParameters.refl qs fun _ => rfl, Alike.refl r' fun _ => rfl⟩

end

/-! ## The procedure decides the relation -/

theorem allRelated_eq_true_iff {related : Ty → Ty → Except RelationError Bool}
    {pairs : List (Ty × Ty)} :
    allRelated related pairs = .ok true ↔ ∀ pair ∈ pairs, related pair.1 pair.2 = .ok true := by
  induction pairs with
  | nil => simp [allRelated]
  | cons pair rest ih =>
      simp only [allRelated, List.forall_mem_cons]
      cases h : related pair.1 pair.2 with
      | error e => simp [Bind.bind, Except.bind]
      | ok answer => cases answer <;> simp [Bind.bind, Except.bind, pure, Except.pure, ih]

theorem parametersRelated_eq_true_iff {related : Ty → Ty → Except RelationError Bool}
    {own required : Parameters} :
    parametersRelated related own required = .ok true ↔ Covers own required ∧
      ∀ i p q, own.get? i = some p → required.get? i = some q → related q.2 p.2 = .ok true := by
  rw [← obligations?_eq_some_iff (P := fun a b => related a b = .ok true), parametersRelated]
  cases obligations? own required with
  | none => simp
  | some pairs => simp [allRelated_eq_true_iff]

/-- The function rule of the procedure against the one of the relation. -/
theorem fits_function_iff {vs ws : List TypeVariable} {ps qs : Parameters} {a b : Ty}
    (hlength : vs.length = ws.length) (hwell : RenamesWell vs ws qs b)
    (hne : (function vs ps a).same (function ws qs b) = false) :
    Fits Eq (function vs ps a) (function ws qs b) ↔
      a.same ((renamed vs ws).apply b) = true ∧ Covers ps ((renamed vs ws).applyParameters qs) ∧
        ∀ i p q, ps.get? i = some p → ((renamed vs ws).applyParameters qs).get? i = some q →
          Fits Eq q.2 p.2 := by
  obtain ⟨hqs, hb⟩ := hwell
  have hEq : ∀ v w : TypeVariable, Eq v w ↔ v = w := fun _ _ => Iff.rfl
  have hback : ∀ {S : Matching}, Composes Eq S S := fun u v w huv hvw => huv ▸ hvw
  have hforth : ∀ {S : Matching}, Composes S Eq S := fun u v w huv hvw => hvw ▸ huv
  have hround : Composes (bind (vs.zip ws) Eq) (bind (ws.zip vs) Eq) Eq := fun u v w huv hvw =>
    (bind_self hEq vs u w).mp (hback.bind hlength hlength.symm u v w huv hvw)
  constructor
  · intro h
    cases h with
    | alike h =>
        rw [alike_iff_same _ hEq] at h
        rw [h] at hne
        contradiction
    | function _ hresult hcovers h =>
        refine ⟨(alike_iff_same _ hEq).mp (hresult.trans hround hb), hcovers.trans hqs.covers, ?_⟩
        intro i p q' hp hq'
        obtain ⟨q, hq⟩ := hqs.exists_get hq'
        have hqq' := (hqs.get hq hq').symm
        have hqp := h i p q hp hq
        rw [converse_bind, converse_eq] at hqq'
        rw [converse_eq] at hqp
        exact hqq'.trans_fits hround hqp
  · rintro ⟨hresult, hcovers, h⟩
    have hb' := hb.symm
    rw [converse_bind, converse_eq] at hb'
    refine .function hlength (((alike_iff_same _ hEq).mpr hresult).trans hback hb')
      (hcovers.trans hqs.symm.covers) ?_
    intro i p q hp hq
    obtain ⟨q', hq'⟩ := hqs.symm.exists_get hq
    rw [converse_eq]
    exact (hqs.get hq hq').trans_fits hforth (h i p q' hp hq')

theorem size_pos (a : Ty) : 0 < a.size := by
  cases a <;> simp [size]

theorem assignableUpTo_eq_true_iff (n : Nat) : ∀ {a b : Ty}, a.size + b.size ≤ n →
    CapturesNothing a b → (assignableUpTo n a b = .ok true ↔ Fits Eq a b) := by
  induction n with
  | zero =>
      intro a b hn
      have hpos := size_pos a
      omega
  | succ n ih =>
      intro a b hn hcapture
      simp only [assignableUpTo]
      cases hsame : a.same b with
      | true =>
          have hfits : Fits Eq a b := .alike ((alike_iff_same a fun _ _ => Iff.rfl).mpr hsame)
          simp [assignableWith, BEq.beq, hsame, hfits]
      | false =>
          have halike : ¬ a.Alike Eq b := fun h => by
            rw [alike_iff_same a fun _ _ => Iff.rfl, hsame] at h
            contradiction
          have hpart : ∀ {a' b' : Ty}, Asks a b a' b' → a'.size + b'.size ≤ n →
              (assignableUpTo n a' b' = .ok true ↔ Fits Eq a' b') :=
            fun hasks hn' => ih hn' (hcapture.asks hsame hasks)
          unfold assignableWith
          simp only [BEq.beq, hsame, Bool.false_eq_true, if_false]
          split
          · rename_i vs ps result ws qs wanted
            by_cases hlength : vs.length = ws.length
            · have hwell := hcapture vs ws ps qs result wanted .start hsame hlength
              have hqs := hwell.1.size_eq
              rw [fits_function_iff hlength hwell hsame, if_neg (not_not_intro hlength)]
              simp only [size] at hn
              cases hresult : result.same ((renamed vs ws).apply wanted) with
              | false => simp [hresult, ← renamed.eq_1]
              | true =>
                  simp only [hresult, ← renamed.eq_1, if_true, parametersRelated_eq_true_iff,
                    true_and]
                  refine and_congr_right fun _ => forall_congr' fun i => forall_congr' fun p =>
                    forall_congr' fun q => imp_congr_right fun hp => imp_congr_right fun hq => ?_
                  have hp' := size_le_of_get hp
                  have hq' := size_le_of_get hq
                  exact hpart (.parameter hlength hp hq) (by omega)
            · have hnot : ¬ Fits Eq (function vs ps result) (function ws qs wanted) := by
                intro h
                cases h with
                | alike h => exact halike h
                | function h => exact hlength h
              simp [hlength, hnot]
          · rename_i payload tag alternatives narrowed
            rw [fits_tagged_union_iff]
            simp only [size] at hn
            cases hget : Fields.get? tag alternatives with
            | none => simp
            | some b =>
                have hb := size_le_of_field hget
                have hpayload := hpart (.tagged hget) (by omega)
                cases narrowed with
                | none => simp [hpayload]
                | some t => by_cases ht : t = tag <;> simp [ht, hpayload]
          · rename_i alternatives narrowed others narrowed'
            rw [fits_union_union_iff halike, alikeFields_iff_sameFields _ fun _ _ => Iff.rfl]
            cases narrowed' <;> simp
          · simp [Fits.null]
          · rw [fits_nullable_nullable_iff]
            simp only [size] at hn
            exact hpart .nullable (by omega)
          · rename_i b hnull hoption
            have hplain : a.Plain := by
              cases a <;> first | trivial | exact absurd rfl hnull | exact absurd rfl (hoption _)
            rw [fits_nullable_iff hplain]
            simp only [size] at hn
            exact hpart (.orNull hplain) (by omega)
          · rename_i hoption hfunction htagged hunion hnull _
            have hnot : ¬ Fits Eq a b := by
              intro h
              cases h with
              | alike h => exact halike h
              | tagged => exact htagged _ _ _ _ rfl rfl
              | widen => exact hunion _ _ _ _ rfl rfl
              | null | nullable | orNull => exact hoption _ rfl
              | function => exact hfunction _ _ _ _ _ _ rfl rfl
            simp [hnot]

/-- Where it captures nothing, the procedure decides the relation. -/
theorem assignable_eq_true_iff {a b : Ty} (h : CapturesNothing a b) :
    assignable a b = .ok true ↔ Fits Eq a b :=
  assignableUpTo_eq_true_iff _ (Nat.le_refl _) h

end Sable.Ty
