import Sable.Proofs.Meaning.Substitution
import Sable.Proofs.Ty.Rebound

/-! Questions of assignability that can be trusted.

A check goes through a question and all that it leads to. Where it passes, nothing is captured and there is no
surprise in numbers of arguments. -/
namespace Sable.Ty

open Matching Substitution

/-! ## Renaming -/

section

variable {vs ws : List TypeVariable} {qs : Parameters} {b : Ty}

theorem bind_typeOf_renamed (hlength : vs.length = ws.length) (hvs : vs.Nodup) (hws : ws.Nodup) {v : TypeVariable}
    (hv : v ∉ vs) : (var v).Alike (bind (ws.zip vs) Eq) ((renamed vs ws).typeOf v) := by
  by_cases hmem : v ∈ ws
  · obtain ⟨i, hi, hrenamed⟩ := exists_position hmem
    obtain ⟨hlt, -⟩ := List.getElem?_eq_some_iff.mp hi
    have hw := List.getElem?_eq_getElem (hlength ▸ hlt : i < vs.length)
    rw [hrenamed vs hlength _ hw]
    exact (bind_zip_iff hlength.symm hws hvs).mpr (.inl ⟨i, hi, hw⟩)
  · rw [typeOf_renamed_of_not_mem hmem]
    exact (bind_zip_iff hlength.symm hws hvs).mpr (.inr ⟨hmem, hv, rfl⟩)

/-- Renaming to distinct variables that do not occur captures nothing where there are no binders inside. -/
theorem renamesWell_of_flat (hlength : vs.length = ws.length) (hvs : vs.Nodup) (hws : ws.Nodup)
    (hqs : everyParameter flat qs = true) (hb : b.every flat = true)
    (hnew : (function ws qs b).mentions vs = false) : RenamesWell vs ws qs b := by
  simp only [mentions, Bool.or_eq_false_iff] at hnew
  -- Both types are compared with themselves under the substitution that replaces nothing.
  have hst : ∀ v w, v = w ∧ v ∉ vs → (Substitution.empty.typeOf v).Alike (bind (ws.zip vs) Eq)
      ((renamed vs ws).typeOf w) := by
    rintro v _ ⟨rfl, hv⟩
    exact bind_typeOf_renamed hlength hvs hws hv
  have hself : ∀ v, v ∉ vs → v = v ∧ v ∉ vs := fun v hv => ⟨rfl, hv⟩
  have hparameters := AlikeParameters.replace hst hqs (alikeParameters_of_mentions hself hnew.1)
  have hresult := Alike.replace hst hb (alike_of_mentions hself hnew.2)
  rw [replaceParameters_eq_self (fun _ _ => rfl) flat_nullable_nullable hqs,
    ← applyParameters_eq_replace flat_nullable_nullable hqs] at hparameters
  rw [replace_eq_self (fun _ _ => rfl) flat_nullable_nullable hb, ← apply_eq_replace flat_nullable_nullable hb]
    at hresult
  exact ⟨hparameters, hresult⟩

/-- Whether it is plain to see that renaming `ws` to `vs` captures nothing. -/
def renamesPlainly (vs ws : List TypeVariable) (qs : Parameters) (b : Ty) : Bool :=
  vs.isEmpty && ws.isEmpty ||
    (decide vs.Nodup && decide ws.Nodup && everyParameter flat qs && b.every flat &&
      !(function ws qs b).mentions vs)

theorem renamesWell_of_renamesPlainly (hlength : vs.length = ws.length) (h : renamesPlainly vs ws qs b = true) :
    RenamesWell vs ws qs b := by
  simp only [renamesPlainly, Bool.or_eq_true, Bool.and_eq_true, decide_eq_true_eq, Bool.not_eq_true',
    List.isEmpty_iff] at h
  rcases h with ⟨rfl, rfl⟩ | ⟨⟨⟨⟨hvs, hws⟩, hqs⟩, hb⟩, hnew⟩
  · exact ⟨AlikeParameters.refl qs fun _ => rfl, Alike.refl b fun _ => rfl⟩
  · exact renamesWell_of_flat hlength hvs hws hqs hb hnew

end

/-! ## What a question leads to -/

/-- The parameters at the same positions. -/
def facing : Parameters → Parameters → List ((String × Ty) × (String × Ty))
  | .fixed ps, .fixed qs => ps.zip qs
  | .fixed ps, .variadic q => ps.map (·, q)
  | .variadic p, .fixed qs => qs.map (p, ·)
  | .variadic p, .variadic q => [(p, q)]

theorem mem_facing {ps qs : Parameters} {i : Nat} {p q : String × Ty} (hp : ps.get? i = some p)
    (hq : qs.get? i = some q) : (p, q) ∈ facing ps qs := by
  cases ps with
  | fixed ps =>
      cases qs with
      | fixed qs => exact List.mem_of_getElem? (List.getElem?_zip_eq_some.mpr ⟨hp, hq⟩)
      | variadic _ =>
          cases hq
          exact List.mem_map_of_mem (List.mem_of_getElem? hp)
  | variadic _ =>
      cases hp
      cases qs with
      | fixed qs => exact List.mem_map_of_mem (List.mem_of_getElem? hq)
      | variadic _ =>
          cases hq
          exact List.mem_singleton_self _

/-- The questions that a question about two unequal types may lead to at once. -/
def asked : Ty → Ty → List (Ty × Ty)
  | tagged payload tag, union alternatives _ => ((Fields.get? tag alternatives).map (payload, ·)).toList
  | nullable a, nullable b => [(a, b)]
  | function vs ps _, function ws qs _ =>
    (facing ps ((renamed vs ws).applyParameters qs)).map fun (p, q) => (q.2, p.2)
  | a, nullable b => [(a, b)]
  | _, _ => []

theorem mem_asked {a b c d : Ty} (h : Asks a b c d) : (c, d) ∈ asked a b := by
  cases h with
  | tagged hget => simp [asked, hget]
  | nullable => exact List.mem_singleton_self _
  | orNull hplain => cases a <;> first | exact List.mem_singleton_self _ | exact hplain.elim
  | parameter _ hp hq => exact List.mem_map.mpr ⟨_, mem_facing hp hq, rfl⟩

/-! ## The check -/

section

variable {exact : Nat → Prop} [DecidablePred exact] {a b c d : Ty}

instance : (ps qs : Parameters) → Decidable (Accepts exact ps qs)
  | .fixed own, .fixed required => inferInstanceAs (Decidable (own.length < required.length → ¬ exact own.length))
  | .variadic _, .fixed required => inferInstanceAs (Decidable (exact required.length))
  | .fixed _, .variadic _ | .variadic _, .variadic _ => isTrue trivial

variable (exact) in
/-- Whether function types, if it is they that are compared, are renamed and take arguments as they should. -/
def steadyHere : Ty → Ty → Bool
  | function vs ps _, function ws qs b =>
    vs.length ≠ ws.length || (renamesPlainly vs ws qs b && decide (Accepts exact ps qs))
  | _, _ => true

variable (exact) in
/-- Whether all questions up to a depth are about equal types, or as they should be. -/
def steadyUpTo : (depth : Nat) → Ty → Ty → Bool
  | 0, a, b => a.same b
  | depth + 1, a, b =>
    a.same b || (steadyHere exact a b && (asked a b).all fun (c, d) => steadyUpTo depth c d)

variable (exact) in
/-- Whether the question captures nothing and meets no surprise in numbers of arguments, as far as the check can
tell. -/
def isSteady (a b : Ty) : Bool := steadyUpTo exact (a.size + b.size) a b

theorem exists_steadyUpTo {depth : Nat} (h : steadyUpTo exact depth a b = true) (hquestion : Question a b c d) :
    ∃ depth, steadyUpTo exact depth c d = true := by
  induction hquestion with
  | start => exact ⟨depth, h⟩
  | step _ hne hasks ih =>
      obtain ⟨depth, hdepth⟩ := ih
      cases depth with
      | zero => exact absurd hdepth (by simp [steadyUpTo, hne])
      | succ depth =>
          simp only [steadyUpTo, hne, Bool.false_or, Bool.and_eq_true, List.all_eq_true] at hdepth
          exact ⟨depth, hdepth.2 _ (mem_asked hasks)⟩

theorem steadyHere_of_question (h : isSteady exact a b = true) (hquestion : Question a b c d)
    (hne : c.same d = false) : steadyHere exact c d = true := by
  obtain ⟨depth, hdepth⟩ := exists_steadyUpTo h hquestion
  cases depth with
  | zero => exact absurd hdepth (by simp [steadyUpTo, hne])
  | succ depth =>
      simp only [steadyUpTo, hne, Bool.false_or, Bool.and_eq_true] at hdepth
      exact hdepth.1

theorem capturesNothing_of_isSteady (h : isSteady exact a b = true) : CapturesNothing a b := by
  intro vs ws ps qs r r' hquestion hne hlength
  have hhere := steadyHere_of_question h hquestion hne
  simp only [steadyHere, ne_eq, hlength, not_true_eq_false, decide_false, Bool.false_or, Bool.and_eq_true] at hhere
  exact renamesWell_of_renamesPlainly hlength hhere.1

theorem keepsArity_of_isSteady (h : isSteady exact a b = true) : KeepsArity exact a b := by
  intro vs ws ps qs r r' hquestion hne hlength
  have hhere := steadyHere_of_question h hquestion hne
  simp only [steadyHere, ne_eq, hlength, not_true_eq_false, decide_false, Bool.false_or, Bool.and_eq_true,
    decide_eq_true_eq] at hhere
  exact hhere.2

end

end Sable.Ty
