import Mathlib.Tactic.ByContra
import Sable.Proofs.Ty.Capture

/-! Assignability along a chain of types.

Assignability composes but for one case: a variadic function stands for one of a fixed number of
parameters, which stands for one of more parameters, and what is passed in the surplus ones never was
compared with what the variadic function takes. -/
namespace Sable.Ty

open Matching

/-! ## Gaps -/

/-- The type below all options. -/
def underlying : Ty → Ty
  | nullable a => a.underlying
  | a => a

theorem Alike.underlying {R : Matching} {a b : Ty} (h : a.Alike R b) :
    a.underlying.Alike R b.underlying := by
  induction a using Ty.underlying.induct generalizing b with
  | case1 a ih =>
      cases b with
      | nullable b => exact ih (b := b) h
      | _ => exact h.elim
  | case2 a hopt =>
      cases a <;> cases b <;> first | exact h | exact h.elim | exact absurd rfl (hopt _)

theorem Fits.underlying {R : Matching} {a b : Ty} {vs : List TypeVariable} {ps : Parameters}
    {result : Ty} (h : Fits R a b) (ha : a.underlying = Ty.function vs ps result) :
    Fits R a.underlying b.underlying := by
  induction h with
  | alike h => exact .alike h.underlying
  | tagged | widen | null => simp [Ty.underlying] at ha
  | nullable _ ih => exact ih ha
  | orNull _ _ ih => exact ih ha
  | function hlength hresult hcovers h => exact .function hlength hresult hcovers h

/-- Somewhere in the chain `a`, `b`, `c` stands a variadic function for one of fewer parameters than
are passed at the end, and it does not take one of the surplus arguments. The variables of `c` stand for
those of `a` as `T` has it. -/
inductive Gap : Matching → Ty → Ty → Ty → Prop
  | surplus {T : Matching} {a b c : Ty} {us vs ws : List TypeVariable} {p r : String × Ty}
      {qs rs : List (String × Ty)} {a' b' c' : Ty} {i : Nat}
      (ha : a.underlying = function us (.variadic p) a')
      (hb : b.underlying = function vs (.fixed qs) b')
      (hc : c.underlying = function ws (.fixed rs) c')
      (hi : qs.length ≤ i) (hr : rs[i]? = some r)
      (h : ¬ Fits (bind (ws.zip us) (converse T)) r.2 p.2) : Gap T a b c
  | parameter {T : Matching} {a b c : Ty} {us vs ws : List TypeVariable}
      {ps qs rs : Parameters} {p q r : String × Ty} {a' b' c' : Ty} {i : Nat}
      (ha : a.underlying = function us ps a') (hb : b.underlying = function vs qs b')
      (hc : c.underlying = function ws rs c')
      (hp : ps.get? i = some p) (hq : qs.get? i = some q) (hr : rs.get? i = some r)
      (h : Gap (bind (ws.zip us) (converse T)) r.2 q.2 p.2) : Gap T a b c

/-- A gap is one below any options. -/
theorem Gap.congr {T : Matching} {a b c a' b' c' : Ty} (h : Gap T a b c)
    (ha : a'.underlying = a.underlying) (hb : b'.underlying = b.underlying)
    (hc : c'.underlying = c.underlying) : Gap T a' b' c' := by
  cases h with
  | surplus ha' hb' hc' hi hr h =>
      exact .surplus (ha.trans ha') (hb.trans hb') (hc.trans hc') hi hr h
  | parameter ha' hb' hc' hp hq hr h =>
      exact .parameter (ha.trans ha') (hb.trans hb') (hc.trans hc') hp hq hr h

theorem Fits.parameter {R : Matching} {us ws : List TypeVariable} {ps rs : Parameters} {a c : Ty}
    (h : Fits R (Ty.function us ps a) (Ty.function ws rs c)) {i : Nat} {p r : String × Ty}
    (hp : ps.get? i = some p) (hr : rs.get? i = some r) :
    Fits (bind (ws.zip us) (converse R)) r.2 p.2 := by
  cases h with
  | alike h =>
      obtain ⟨rfl, hparameters, -⟩ := h
      rw [← converse_bind]
      exact .alike (hparameters.get hp hr).symm
  | function _ _ _ h => exact h i p r hp hr

theorem Gap.not_fits {T : Matching} {a b c : Ty} (h : Gap T a b c) : ¬ Fits T a c := by
  intro hfits
  induction h with
  | surplus ha hb hc hi hr h =>
      have hac := hfits.underlying ha
      rw [ha, hc] at hac
      exact h (hac.parameter rfl hr)
  | parameter ha hb hc hp hq hr _ ih =>
      have hac := hfits.underlying ha
      rw [ha, hc] at hac
      exact ih (hac.parameter hp hr)

/-! ## Chains -/

/-- Along a chain of functions, a parameter is passed on through the middle or is a surplus one. -/
theorem fits_or_gap_function {R S T : Matching} {us vs ws : List TypeVariable}
    {ps qs rs : Parameters} {a b c : Ty} (hcompose : Composes R S T)
    (huv : us.length = vs.length) (hvw : vs.length = ws.length)
    (hab : a.Alike (bind (us.zip vs) R) b) (hbc : b.Alike (bind (vs.zip ws) S) c)
    (hpq : Covers ps qs) (hqr : Covers qs rs)
    (hparameter : ∀ (i : Nat) (p q r : String × Ty), ps.get? i = some p → qs.get? i = some q →
      rs.get? i = some r → Fits (bind (ws.zip us) (converse T)) r.2 p.2 ∨
        Gap (bind (ws.zip us) (converse T)) r.2 q.2 p.2) :
    Fits T (function us ps a) (function ws rs c) ∨
      Gap T (function us ps a) (function vs qs b) (function ws rs c) := by
  by_cases hgap : Gap T (function us ps a) (function vs qs b) (function ws rs c)
  · exact .inr hgap
  · refine .inl (.function (huv.trans hvw) (hab.trans (hcompose.bind huv hvw) hbc)
      (hpq.trans hqr) ?_)
    intro i p r hp hr
    cases hq : qs.get? i with
    | some q =>
        rcases hparameter i p q r hp hq hr with h | h
        · exact h
        · exact absurd (.parameter rfl rfl rfl hp hq hr h) hgap
    | none =>
        cases qs with
        | variadic q => simp [ParameterList.get?] at hq
        | fixed qs =>
            have hi : qs.length ≤ i := List.getElem?_eq_none_iff.mp hq
            cases ps with
            | fixed ps =>
                have hlt := (List.getElem?_eq_some_iff.mp hp).1
                simp only [Covers] at hpq
                omega
            | variadic p' =>
                obtain rfl := Option.some.inj hp
                cases rs with
                | variadic _ => exact hqr.elim
                | fixed rs =>
                    by_contra h
                    exact hgap (.surplus rfl rfl rfl hi hr h)

theorem fits_or_gap_of_size (n : Nat) : ∀ {R S T : Matching} {a b c : Ty},
    a.size + b.size + c.size ≤ n → Composes R S T → Fits R a b → Fits S b c →
    Fits T a c ∨ Gap T a b c := by
  induction n with
  | zero =>
      intro R S T a b c hn
      have hpos : 0 < a.size := by cases a <;> simp [size]
      omega
  | succ n ih =>
      intro R S T a b c hn hcompose hab hbc
      cases hbc with
      | alike hbc => exact .inl (hab.trans_alike hcompose hbc)
      | orNull hplain hbc =>
          simp only [size] at hn
          rcases ih (by omega) hcompose hab hbc with h | h
          · exact .inl (.orNull (hab.plain hplain) h)
          · exact .inr (h.congr rfl rfl rfl)
      | tagged hget hnarrowed hbc =>
          cases hab with
          | alike hab => exact .inl (hab.trans_fits hcompose (.tagged hget hnarrowed hbc))
      | widen hbc =>
          cases hab with
          | alike hab => exact .inl (hab.trans_fits hcompose (.widen hbc))
          | tagged hget _ hab =>
              obtain ⟨c', hget', hc'⟩ := hbc.get? hget
              exact .inl (.tagged hget' (by simp) (hab.trans_alike hcompose hc'))
      | null =>
          cases hab with
          | alike hab => exact .inl (hab.trans_fits hcompose .null)
      | nullable hbc =>
          simp only [size] at hn
          cases hab with
          | alike hab => exact .inl (hab.trans_fits hcompose (.nullable hbc))
          | null => exact .inl .null
          | nullable hab =>
              simp only [size] at hn
              rcases ih (by omega) hcompose hab hbc with h | h
              · exact .inl (.nullable h)
              · exact .inr (h.congr rfl rfl rfl)
          | orNull hplain hab =>
              rcases ih (by omega) hcompose hab hbc with h | h
              · exact .inl (.orNull hplain h)
              · exact .inr (h.congr rfl rfl rfl)
      | @function S vs ws qs rs b c hvw hbc hqr hright =>
          cases hab with
          | alike hab => exact .inl (hab.trans_fits hcompose (.function hvw hbc hqr hright))
          | @function R us _ ps _ a _ huv hab hpq hleft =>
              refine fits_or_gap_function hcompose huv hvw hab hbc hpq hqr ?_
              intro i p q r hp hq hr
              have hp' := size_le_of_get hp
              have hq' := size_le_of_get hq
              have hr' := size_le_of_get hr
              simp only [size] at hn
              refine ih (by omega) ?_ (hright i q r hq hr) (hleft i p q hp hq)
              exact hcompose.converse.bind hvw.symm huv.symm

/-- What fits along a chain fits from end to end, unless there is a gap. -/
theorem Fits.trans_iff {R S T : Matching} {a b c : Ty} (hab : Fits R a b) (hbc : Fits S b c)
    (hcompose : Composes R S T) : Fits T a c ↔ ¬ Gap T a b c :=
  ⟨fun h hgap => hgap.not_fits h, fun h =>
    (fits_or_gap_of_size _ (Nat.le_refl _) hcompose hab hbc).resolve_right h⟩

/-! ## Assignability -/

/-- Assignability composes, but for gaps, where renaming captures nothing. -/
theorem assignable_trans_iff {a b c : Ty} (hab : assignable a b = .ok true)
    (hbc : assignable b c = .ok true) (hcab : CapturesNothing a b) (hcbc : CapturesNothing b c)
    (hcac : CapturesNothing a c) : assignable a c = .ok true ↔ ¬ Gap Eq a b c := by
  rw [assignable_eq_true_iff hcac]
  exact Fits.trans_iff ((assignable_eq_true_iff hcab).mp hab)
    ((assignable_eq_true_iff hcbc).mp hbc) fun u v w huv hvw => huv.trans hvw

/-- Functions that take any number of numbers, one number, and a number and a boolean. -/
theorem assignable_not_transitive :
    assignable (function [] (.variadic ("xs", number)) number)
        (function [] (.fixed [("a", number)]) number) = .ok true ∧
      assignable (function [] (.fixed [("a", number)]) number)
        (function [] (.fixed [("a", number), ("b", boolean)]) number) = .ok true ∧
      assignable (function [] (.variadic ("xs", number)) number)
        (function [] (.fixed [("a", number), ("b", boolean)]) number) ≠ .ok true :=
  ⟨rfl, rfl, by rw [show assignable _ _ = .ok false from rfl]; simp⟩

/-- Without a surplus argument the chain closes: here by way of an optional type. -/
theorem assignable_trans_variadic_optional :
    assignable (function [] (.variadic ("xs", nullable number)) number)
      (nullable (function [] (.fixed [("a", number)]) number)) = .ok true ↔
    ¬ Gap Eq (function [] (.variadic ("xs", nullable number)) number)
      (function [] (.fixed [("a", nullable number)]) number)
      (nullable (function [] (.fixed [("a", number)]) number)) :=
  assignable_trans_iff rfl rfl (capturesNothing_of_every (fun _ h => h) rfl rfl) (capturesNothing_of_every (fun _ h => h) rfl rfl)
    (capturesNothing_of_every (fun _ h => h) rfl rfl)

/-- Renaming `b` to `a` captures the free `a` of the last type, whence a chain that does not close. -/
example :
    let (a, b, d) := (⟨"a", 0⟩, ⟨"b", 1⟩, ⟨"d", 2⟩)
    assignable (function [d] (.fixed []) (var d)) (function [a] (.fixed []) (var a)) = .ok true ∧
      assignable (function [a] (.fixed []) (var a)) (function [b] (.fixed []) (var a)) = .ok true ∧
      assignable (function [d] (.fixed []) (var d)) (function [b] (.fixed []) (var a)) = .ok false :=
  ⟨rfl, rfl, rfl⟩

end Sable.Ty
